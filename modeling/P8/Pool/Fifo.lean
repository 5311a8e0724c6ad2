import P8.Pool.Conservation

/-!
# Fifo: the order in which waiters are served

A pool that has its budget to itself. What makes the hand-off strict is stated nowhere in the code: while a thread waits, the
free list is empty and the budget has no room for another buffer (`SoleInv.exhausted`), so no acquire can overtake the queue,
and only a recycled buffer, which goes to the oldest waiter, can end the wait.
-/

namespace P8

namespace PoolSys

variable {B T : Type}

/-- The invariant of a pool that has its budget to itself, when no allocation fails. -/
structure SoleInv (b : Budget) (s : PoolSys B T) : Prop where
  exhausted : s.pool.waitCount ≠ 0 → s.pool.free = [] ∧ b.max < b.used + s.pool.bufferSize
  current : ∀ j cur, s.pc = .check j cur → cur = b.used
  growing : ∀ j, s.pc = .alloc j → s.pool.waitCount = 0
  no_giveBack : ∀ j, s.pc ≠ .giveBack j

theorem soleInv_init (max bufferSize : Nat) : SoleInv ⟨max, 0⟩ (PoolSys.init bufferSize : PoolSys B T) where
  exhausted := fun h => absurd rfl h
  current := fun _ _ h => (by cases h)
  growing := fun _ h => (by cases h)
  no_giveBack := fun _ h => (by cases h)

/-- Nothing but the exhaustion concerns a pool whose mutex is free. -/
theorem SoleInv.of_idle {b : Budget} {s : PoolSys B T} (hpc : s.pc = .idle)
    (h : s.pool.waitCount ≠ 0 → s.pool.free = [] ∧ b.max < b.used + s.pool.bufferSize) : SoleInv b s where
  exhausted := h
  current := fun _ _ hc => (by rw [hpc] at hc; cases hc)
  growing := fun _ hc => (by rw [hpc] at hc; cases hc)
  no_giveBack := fun _ hc => (by rw [hpc] at hc; cases hc)

variable [DecidableEq T]

/-- A free buffer goes to who asked for it, and nobody else. -/
theorem pullFirst_cons {s : PoolSys B T} {x : B} {free : List B} (h : s.pool.free = x :: free) (j : Job T) :
    (s.pullFirst j).pool = { s.pool with free := free } ∧ (s.pullFirst j).pc = .idle ∧
      (s.pullFirst j).granted = s.granted ++ [x] := by
  unfold pullFirst
  rw [h]
  exact ⟨rfl, rfl, rfl⟩

/-- Where a job is refused, the pool has nothing left for those who wait. -/
theorem SoleInv.refuse {b : Budget} {s : PoolSys B T} (h : SoleInv b s) {j : Job T}
    (hfree : (∀ n, j ≠ .init n) → s.pool.free = []) (hfull : b.max < b.used + s.pool.bufferSize) :
    SoleInv b (s.refuse j) ∧ (s.refuse j).granted = s.granted := by
  unfold PoolSys.refuse
  cases j with
  | init n => exact ⟨SoleInv.of_idle rfl h.exhausted, rfl⟩
  | acquire => exact ⟨SoleInv.of_idle rfl h.exhausted, rfl⟩
  | wait t =>
    dsimp only
    split
    · exact ⟨SoleInv.of_idle rfl h.exhausted, rfl⟩
    · exact ⟨SoleInv.of_idle rfl (fun _ => ⟨hfree (fun _ hn => by cases hn), hfull⟩), rfl⟩

/-- A buffer is taken from the free list only while nobody waits. -/
theorem SoleInv.pullFirst {b : Budget} {s : PoolSys B T} (j : Job T) (hfree : s.pool.free ≠ [])
    (hcount : s.pool.waitCount = 0) : SoleInv b (s.pullFirst j) := by
  obtain ⟨x, free, hcons⟩ := List.exists_cons_of_ne_nil hfree
  obtain ⟨hpool, hpc, -⟩ := pullFirst_cons hcons j
  exact SoleInv.of_idle hpc (fun hne => absurd (by rw [hpool]; exact hcount) hne)

/-- A job that begins while somebody waits gets nothing from the free list. -/
theorem SoleInv.request {b : Budget} {s : PoolSys B T} (h : SoleInv b s) (j : Job T) :
    SoleInv b (s.request j) ∧ (s.pool.waitCount ≠ 0 → (s.request j).granted = s.granted) := by
  unfold PoolSys.request
  split
  · exact ⟨⟨h.exhausted, fun _ _ hc => (by cases hc), fun _ hc => (by cases hc), fun _ hc => (by cases hc)⟩, fun _ => rfl⟩
  · rename_i hfree
    have hcount : s.pool.waitCount = 0 := Decidable.of_not_not (fun hne => hfree (h.exhausted hne).1)
    exact ⟨SoleInv.pullFirst j hfree hcount, fun hne => absurd hcount hne⟩

/-- What follows a new buffer, which comes only while nobody waits. -/
theorem SoleInv.grown {b : Budget} {s : PoolSys B T} (x : B) (j : Job T) (hcount : s.pool.waitCount = 0) :
    SoleInv b ({ s with pool := s.pool.addBuffer x }.grown j) := by
  have hnone : (s.pool.addBuffer x).waitCount = 0 := hcount
  have hfree : (s.pool.addBuffer x).free ≠ [] := by simp [Pool.addBuffer]
  unfold PoolSys.grown
  cases j with
  | init left =>
    dsimp only
    split
    · exact SoleInv.of_idle rfl (fun hne => absurd hnone hne)
    · exact ⟨fun hne => absurd hnone hne, fun _ _ hc => (by cases hc), fun _ hc => (by cases hc), fun _ hc => (by cases hc)⟩
  | acquire => exact SoleInv.pullFirst _ hfree hnone
  | wait t => exact SoleInv.pullFirst _ hfree hnone

/-- One step of a pool that has its budget to itself. While somebody waits, no acquire gets anything from the pool. -/
theorem SoleInv.step [DecidableEq B] {b b' : Budget} {s s' : PoolSys B T} {q : List T} {e : PoolEv B T} (h : SoleInv b s)
    (hq : s.Inv q) (hmax : b.max < 2 ^ 64) (halloc : e ≠ .alloc none)
    (hs : s.step b e = .ok (b', s')) : SoleInv b' s' ∧ (s.pool.waitCount ≠ 0 → s'.granted = s.granted) := by
  have hclosed : s.pool.stopping = true → s.pool.waitCount = 0 := fun hstop => by
    rw [hq.queue.count, hq.stopped hstop]
    rfl
  cases step_cases hs with
  | initNone hopen => exact ⟨h, fun _ => rfl⟩
  | init count hopen =>
    exact ⟨⟨h.exhausted, fun _ _ hc => (by cases hc), fun _ hc => (by cases hc), fun _ hc => (by cases hc)⟩, fun _ => rfl⟩
  | acquire hopen => exact h.request .acquire
  | acquireWait t hopen ht => exact h.request (.wait t)
  | load j hpc =>
    exact ⟨⟨h.exhausted, fun _ _ hc => (by cases hc; rfl), fun _ hc => (by cases hc), fun _ hc => (by cases hc)⟩,
      fun _ => rfl⟩
  | refused spurious j current hpc hround =>
    have hfull := Budget.refused_spec hmax hround
    rw [h.current j current hpc] at hfull
    obtain ⟨hinv, hgranted⟩ := h.refuse (hq.job_free j (by rw [hpc]; rfl)) hfull
    exact ⟨hinv, fun _ => hgranted⟩
  | reserved spurious j current b' hpc hround =>
    obtain ⟨hmax', hused, hfits⟩ := Budget.reserved_spec hmax hround
    have hcount : s.pool.waitCount = 0 := Decidable.of_not_not (fun hne => by
      have hfull := (h.exhausted hne).2
      omega)
    exact ⟨⟨fun hne => absurd hcount hne, fun _ _ hc => (by cases hc), fun _ _ => hcount, fun _ hc => (by cases hc)⟩,
      fun hne => absurd hcount hne⟩
  | again spurious j current next hpc hround =>
    have hnext := Budget.again_spec hround
    exact ⟨⟨h.exhausted, fun _ _ hc => (by cases hc; exact hnext), fun _ hc => (by cases hc), fun _ hc => (by cases hc)⟩,
      fun _ => rfl⟩
  | alloc j x hpc => exact ⟨SoleInv.grown x j (h.growing j hpc), fun hne => absurd (h.growing j hpc) hne⟩
  | allocFailed j hpc => exact absurd rfl halloc
  | giveBack j hpc => exact absurd hpc (h.no_giveBack j)
  | recycle bufs pool cvs hopen hnodup hheld hp =>
    have hr := hq.queue.recycled hp
    refine ⟨SoleInv.of_idle hopen.1 (fun hne => ?_), fun _ => rfl⟩
    -- who still waits was behind all that were served: no buffer was left for the free list
    have hlate : bufs.reduceOption.length < q.length := by
      have hcount := hr.queue.count
      rw [List.length_drop] at hcount
      have hne' : pool.waitCount ≠ 0 := hne
      omega
    have hwait : s.pool.waitCount ≠ 0 := by
      rw [hq.queue.count]
      omega
    obtain ⟨hfree, hfull⟩ := h.exhausted hwait
    refine ⟨?_, ?_⟩
    · show pool.free = []
      rw [hr.free, hfree, List.drop_of_length_le (Nat.le_of_lt hlate)]
      rfl
    · show b.max < b.used + pool.bufferSize
      rw [hr.same.2.2.2.2]
      exact hfull
  | stopWaiters hopen =>
    exact ⟨SoleInv.of_idle hopen.1 (fun hne => absurd hq.queue.stopWaiters.queue.count hne), fun _ => rfl⟩
  | dtorStop hopen hdtor =>
    exact ⟨SoleInv.of_idle hopen.1 (fun hne => absurd hq.queue.stopWaiters.queue.count hne), fun _ => rfl⟩
  | wakeUp | unlock | sleep | leave | dtorBarrier =>
    exact ⟨⟨h.exhausted, h.current, h.growing, h.no_giveBack⟩, fun _ => rfl⟩
  | dtorClear hopen hdtor =>
    have hcount := hclosed (hq.dtor_stopping (by rw [hdtor]; decide))
    exact ⟨⟨fun hne => absurd hcount hne, fun _ _ hc => (by cases hc), fun _ hc => (by cases hc), fun _ hc => (by cases hc)⟩,
      fun _ => rfl⟩
  | dtorRelease bytes hpc =>
    have hcount := hclosed (hq.dtor_stopping (by rw [hq.releasing bytes hpc]; decide))
    exact ⟨SoleInv.of_idle rfl (fun hne => absurd hcount hne), fun _ => rfl⟩

/-! ## The history of the waiters -/

/-- A job that is refused changes nothing about who was served, nor whether the pool was stopped. -/
theorem refuse_history (s : PoolSys B T) (j : Job T) :
    (s.refuse j).pool.served = s.pool.served ∧ (s.refuse j).pool.stopping = s.pool.stopping := by
  unfold PoolSys.refuse
  cases j with
  | init n => exact ⟨rfl, rfl⟩
  | acquire => exact ⟨rfl, rfl⟩
  | wait t =>
    dsimp only
    split <;> exact ⟨rfl, rfl⟩

/-- Taking a free buffer serves no waiter. -/
theorem pullFirst_history (s : PoolSys B T) (j : Job T) :
    (s.pullFirst j).pool.served = s.pool.served ∧ (s.pullFirst j).pool.stopping = s.pool.stopping := by
  unfold PoolSys.pullFirst
  split
  · exact s.refuse_history j
  · exact ⟨rfl, rfl⟩

/-- A request serves no waiter. -/
theorem request_history (s : PoolSys B T) (j : Job T) :
    (s.request j).pool.served = s.pool.served ∧ (s.request j).pool.stopping = s.pool.stopping := by
  unfold PoolSys.request
  split
  · exact ⟨rfl, rfl⟩
  · exact s.pullFirst_history j

/-- The end of a growth serves no waiter. -/
theorem grown_history (s : PoolSys B T) (j : Job T) :
    (s.grown j).pool.served = s.pool.served ∧ (s.grown j).pool.stopping = s.pool.stopping := by
  unfold PoolSys.grown
  cases j with
  | init left =>
    dsimp only
    split <;> exact ⟨rfl, rfl⟩
  | acquire => exact s.pullFirst_history .acquire
  | wait t => exact s.pullFirst_history (.wait t)

/-- Who is served by a step: by recycled buffers the waiters in front, by a stop all of them, and by no other step anybody. -/
structure Serving (s : PoolSys B T) (q : List T) (e : PoolEv B T) (s' : PoolSys B T) : Prop where
  hand_out : ∀ bufs, e = .recycle bufs →
    s'.pool.served = s.pool.served ++ (q.zip bufs.reduceOption).map (fun x => (x.1, some x.2)) ∧
      s'.pool.stopping = s.pool.stopping
  shut_down : e = .stopWaiters ∨ e = .dtorStop →
    s'.pool.served = s.pool.served ++ q.map (·, none) ∧ s'.pool.stopping = true
  others : (∀ bufs, e ≠ .recycle bufs) → e ≠ .stopWaiters → e ≠ .dtorStop →
    s'.pool.served = s.pool.served ∧ s'.pool.stopping = s.pool.stopping

omit [DecidableEq T] in
/-- A step that serves nobody. -/
theorem Serving.of_same {s s' : PoolSys B T} {q : List T} {e : PoolEv B T} (hrec : ∀ bufs, e ≠ .recycle bufs)
    (hstop : e ≠ .stopWaiters) (hdtor : e ≠ .dtorStop)
    (h : s'.pool.served = s.pool.served ∧ s'.pool.stopping = s.pool.stopping) : Serving s q e s' where
  hand_out := fun bufs he => absurd he (hrec bufs)
  shut_down := fun he => he.elim (fun he => absurd he hstop) (fun he => absurd he hdtor)
  others := fun _ _ _ => h

/-- A pool that is stopped serves all who wait. -/
theorem Inv.serving_stop {s s' : PoolSys B T} {q : List T} {e : PoolEv B T} (h : s.Inv q)
    (he : e = .stopWaiters ∨ e = .dtorStop) (hs : s'.pool = s.pool.stopWaiters.1) : Serving s q e s' where
  hand_out := fun bufs hrec => by
    rcases he with rfl | rfl <;> cases hrec
  shut_down := fun _ => by
    rw [hs]
    exact ⟨h.queue.stopWaiters.served, h.queue.stopWaiters.stopping⟩
  others := fun _ hstop hdtor => he.elim (fun he => absurd he hstop) (fun he => absurd he hdtor)

/-- A step serves the first threads of the queue, or puts one at its end. -/
theorem Inv.serving [DecidableEq B] {b b' : Budget} {s s' : PoolSys B T} {q : List T} {e : PoolEv B T} (h : s.Inv q)
    (hs : s.step b e = .ok (b', s')) : Serving s q e s' := by
  cases step_cases hs with
  | recycle bufs pool cvs hopen hnodup hheld hp =>
    have hr := h.queue.recycled hp
    refine ⟨fun bufs' he => ?_, fun he => ?_, fun hrec => absurd rfl (hrec bufs)⟩
    · cases he
      exact ⟨hr.served, hr.same.2.1⟩
    · rcases he with he | he <;> cases he
  | stopWaiters hopen => exact h.serving_stop (Or.inl rfl) rfl
  | dtorStop hopen hdtor => exact h.serving_stop (Or.inr rfl) rfl
  | acquire hopen =>
    exact Serving.of_same (fun _ he => by cases he) (fun he => by cases he) (fun he => by cases he) (s.request_history _)
  | acquireWait t hopen ht =>
    exact Serving.of_same (fun _ he => by cases he) (fun he => by cases he) (fun he => by cases he) (s.request_history _)
  | refused spurious j current hpc hround =>
    exact Serving.of_same (fun _ he => by cases he) (fun he => by cases he) (fun he => by cases he) (s.refuse_history _)
  | alloc j x hpc =>
    exact Serving.of_same (fun _ he => by cases he) (fun he => by cases he) (fun he => by cases he) (grown_history _ _)
  | giveBack j hpc =>
    exact Serving.of_same (fun _ he => by cases he) (fun he => by cases he) (fun he => by cases he) (s.refuse_history _)
  | _ =>
    exact Serving.of_same (fun _ he => by cases he) (fun he => by cases he) (fun he => by cases he) ⟨rfl, rfl⟩

end PoolSys

/-! ## A pool alone -/

namespace Pools

variable {B T : Type}

/-- No allocation fails in a run of a pool that has its budget to itself. -/
def NoFailure (evs : List (Unit × PoolEv B T)) : Prop := ∀ ev ∈ evs, ev.2 ≠ .alloc none

/-- What holds of the waiters of a pool, whose nodes from `mp_wait_head` on are those of `q`. -/
structure Fifo (b : Budget) (s : PoolSys B T) (q : List T) : Prop where
  links : LinkedQueue.IsQueue (fun t => (s.pool.nodes t).next) s.pool.waitHead s.pool.waitTail q
  count : s.pool.waitCount = q.length
  inside : ∀ t ∈ q, t ∈ s.parked
  undone : ∀ t ∈ s.inside, (s.pool.nodes t).done = false ↔ t ∈ q
  exhausted : q ≠ [] → s.pool.free = [] ∧ b.max < b.used + s.pool.bufferSize
  order : s.pool.served.map Prod.fst ++ q = s.pool.enqueued
  answered : ∀ t ∈ s.inside, t ∉ q → (t, (s.pool.nodes t).buf) ∈ s.pool.served
  stopped : s.pool.stopping = true → q = []
  null : ∀ t, (t, none) ∈ s.returned → s.pool.stopping = true

/-- The invariant of a pool that has its budget to itself, with the budget. -/
structure Sole (max : Nat) (s : Pools Unit B T) : Prop where
  pools : s.Inv max
  sole : PoolSys.SoleInv s.budget (s.pools ())

/-- A fresh pool is alone with its budget. -/
theorem sole_init (max size : Nat) : Sole max (Pools.init max (fun _ => size) : Pools Unit B T) :=
  ⟨inv_init max _, PoolSys.soleInv_init max size⟩

variable [DecidableEq B] [DecidableEq T] {max : Nat} {s s' : Pools Unit B T}

/-- One step of a pool that has its budget to itself. -/
theorem Sole.step (h : Sole max s) (hmax : max < 2 ^ 64) {e : PoolEv B T} (halloc : e ≠ .alloc none)
    (hs : s.step ((), e) = .ok s') : Sole max s' := by
  obtain ⟨q, hq⟩ := h.pools.pools ()
  obtain ⟨-, b, p, hp, rfl⟩ := step_eq_ok hs
  exact ⟨h.pools.step hmax hs, (h.sole.step hq (h.pools.max_eq ▸ hmax) halloc hp).1⟩

/-- It stays so on a run on which no allocation fails. -/
theorem Sole.run (h : Sole max s) (hmax : max < 2 ^ 64) {evs : List (Unit × PoolEv B T)} (hev : NoFailure evs)
    (hr : s.run evs = .ok s') : Sole max s' :=
  (Runs.along_of_forall hev).induction h (fun _ _ _ hs hst hne => hs.step hmax hne hst) hr

/-- A pool is being shut down once it has been stopped, and not before. -/
theorem Sole.stopping_iff (h : Sole max s) (hmax : max < 2 ^ 64) {evs : List (Unit × PoolEv B T)} (hev : NoFailure evs)
    (hr : s.run evs = .ok s') : (s'.pools ()).pool.stopping = true ↔
      (s.pools ()).pool.stopping = true ∨ ∃ ev ∈ evs, ev.2 = .stopWaiters ∨ ev.2 = .dtorStop := by
  induction evs generalizing s with
  | nil =>
    cases hr
    simp
  | cons ev evs ih =>
    obtain ⟨⟨⟩, e⟩ := ev
    obtain ⟨s₁, hs₁, hrest⟩ := Runs.run_cons hr
    have hne : e ≠ .alloc none := hev _ List.mem_cons_self
    rw [ih (h.step hmax hne hs₁) (fun ev hm => hev ev (List.mem_cons_of_mem _ hm)) hrest]
    obtain ⟨q, hq⟩ := h.pools.pools ()
    obtain ⟨-, b, p, hp, rfl⟩ := step_eq_ok hs₁
    have hserv := hq.serving hp
    simp only [Function.update_self, List.exists_mem_cons_iff]
    by_cases hstop : e = .stopWaiters ∨ e = .dtorStop
    · simp [(hserv.shut_down hstop).2, hstop]
    · have hsame : p.pool.stopping = (s.pools ()).pool.stopping := by
        by_cases hrec : ∃ bufs, e = .recycle bufs
        · obtain ⟨bufs, he⟩ := hrec
          exact (hserv.hand_out bufs he).2
        · rw [not_or] at hstop
          exact (hserv.others (fun bufs he => hrec ⟨bufs, he⟩) hstop.1 hstop.2).2
      simp [hsame, hstop]

omit [DecidableEq B] [DecidableEq T] in
/-- The invariants say all of the waiters. -/
theorem fifo_of_inv {b : Budget} {s : PoolSys B T} {q : List T} (hq : s.Inv q) (h : PoolSys.SoleInv b s) : Fifo b s q where
  links := hq.queue.links
  count := hq.queue.count
  inside := fun t ht => ((hq.waiting t).mp ht).1
  undone := fun t ht => by
    rw [hq.waiting t]
    refine ⟨fun hd => ⟨?_, hd⟩, fun hw => hw.2⟩
    rcases List.mem_append.mp ht with hp | hret
    · exact hp
    · rw [hq.returning_done t hret] at hd
      cases hd
  exhausted := fun hne => h.exhausted (by rw [hq.queue.count]; exact fun hz => hne (List.length_eq_zero_iff.mp hz))
  order := hq.queue.order
  answered := fun t ht htq => by
    refine hq.answered t ht ?_
    by_contra hd
    rw [Bool.not_eq_true] at hd
    rcases List.mem_append.mp ht with hp | hret
    · exact htq ((hq.waiting t).mpr ⟨hp, hd⟩)
    · rw [hq.returning_done t hret] at hd
      cases hd
  stopped := hq.stopped
  null := hq.null_returned

/-- In every state that a pool with a budget of its own can reach while no allocation fails, the pool has nothing left for an
acquire while anybody waits. The waiters are served in the order in which they queued, each once; no acquire of either kind
takes a buffer from the pool before them; and once the pool has been stopped, and not before, nobody waits. -/
theorem fifo {max : Nat} (hmax : max < 2 ^ 64) (size : Nat) (evs : List (Unit × PoolEv B T)) (hev : NoFailure evs)
    {s : Pools Unit B T} (hr : (Pools.init max (fun _ => size) : Pools Unit B T).run evs = .ok s) :
    ∃ q, Fifo s.budget (s.pools ()) q ∧
      ((s.pools ()).pool.stopping = true ↔ ∃ ev ∈ evs, ev.2 = .stopWaiters ∨ ev.2 = .dtorStop) ∧
      ∀ e s', e ≠ .alloc none → s.step ((), e) = .ok s' → PoolSys.Serving (s.pools ()) q e (s'.pools ()) ∧
        (q ≠ [] → (s'.pools ()).granted = (s.pools ()).granted) := by
  have hinit := sole_init max size (B := B) (T := T)
  have h := hinit.run hmax hev hr
  obtain ⟨q, hq⟩ := h.pools.pools ()
  refine ⟨q, fifo_of_inv hq h.sole, (hinit.stopping_iff hmax hev hr).trans (or_iff_right (fun hs => by cases hs)),
    fun e s' halloc hs => ?_⟩
  obtain ⟨-, b, p, hp, rfl⟩ := step_eq_ok hs
  refine ⟨hq.serving hp, fun hne => (h.sole.step hq (h.pools.max_eq ▸ hmax) halloc hp).2 ?_⟩
  rw [hq.queue.count]
  exact fun hz => hne (List.length_eq_zero_iff.mp hz)

/-- A pool with room for one buffer: one thread has it, two wait, and the first of these is served. -/
def oneBuffer : List (Unit × PoolEv Nat Nat) :=
  [.acquire, .load, .tryReserve false, .alloc (some 0), .acquireWait 1, .load, .tryReserve false, .acquireWait 2, .load,
    .tryReserve false, .recycle [some 0]].map (fun e => ((), e))

/-- No allocation fails on this run. -/
theorem oneBuffer_noFailure : NoFailure oneBuffer := by
  simp [NoFailure, oneBuffer]

/-- On this run the first of the two is served. -/
theorem fifo_oneBuffer : ∃ s q, (Pools.init 8 (fun _ => 8) : Pools Unit Nat Nat).run oneBuffer = .ok s ∧
    Fifo s.budget (s.pools ()) q ∧ (s.pools ()).pool.served = [(1, some 0)] ∧ (s.pools ()).pool.waitCount = 1 := by
  have hrun : ∃ s, (Pools.init 8 (fun _ => 8) : Pools Unit Nat Nat).run oneBuffer = .ok s ∧
      (s.pools ()).pool.served = [(1, some 0)] ∧ (s.pools ()).pool.waitCount = 1 := ⟨_, rfl, rfl, rfl⟩
  obtain ⟨s, hs, hserved, hcount⟩ := hrun
  obtain ⟨q, hq, -⟩ := fifo (by decide) 8 oneBuffer oneBuffer_noFailure hs
  exact ⟨s, q, hs, hq, hserved, hcount⟩

end Pools

end P8
