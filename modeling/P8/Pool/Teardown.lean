import P8.Pool.Fifo

/-!
# Teardown: how those who wait get out of a pool that goes away

A pool whose budget is as other pools leave it, with `stop_waiters` called any number of times and the destructor. `left` is the
history of the results with which the threads that queued made their last access to the pool. Each time a thread queues it is
given one result, and it has got that result once it has left; nobody is inside when the destructor frees the buffers.
-/

namespace P8

/-- A pool, and what the threads that queued have left it with. -/
structure WaitSys (B T : Type) where
  sys : PoolSys B T
  left : List (T × Option B)

namespace WaitSys

variable {B T : Type} [DecidableEq T]

/-- A pool right after its construction. -/
def init (bufferSize : Nat) : WaitSys B T := ⟨PoolSys.init bufferSize, []⟩

/-- The result of a thread that has been served and not left. -/
def pending (s : PoolSys B T) (t : T) : List (T × Option B) :=
  if t ∈ s.inside ∧ (s.pool.nodes t).done = true then [(t, (s.pool.nodes t).buf)] else []

/-- An allocation gives a buffer that the pool does not have. -/
def Fresh (s : PoolSys B T) : PoolEv B T → Prop
  | .alloc (some x) => x ∉ s.pool.all
  | _ => True

variable [DecidableEq B]

instance (s : PoolSys B T) : (e : PoolEv B T) → Decidable (Fresh s e)
  | .alloc (some x) => inferInstanceAs (Decidable (x ∉ s.pool.all))
  | .alloc none | .init _ | .acquire | .acquireWait _ | .load | .tryReserve _ | .giveBack | .recycle _ | .stopWaiters
  | .wakeUp _ | .relock _ | .leave _ | .dtorStop | .dtorBarrier | .dtorClear | .dtorRelease => .isTrue trivial

/-- What is added to the history by a step. -/
def leaving (s : PoolSys B T) : PoolEv B T → List (T × Option B)
  | .leave t => [(t, (s.pool.nodes t).buf)]
  | _ => []

/-- One step, with the budget as it is then. -/
def step (s : WaitSys B T) (ev : Budget × PoolEv B T) : Except Halt (WaitSys B T) :=
  when (Fresh s.sys ev.2) <|
    match s.sys.step ev.1 ev.2 with
    | .ok (_, sys) => .ok ⟨sys, s.left ++ leaving s.sys ev.2⟩
    | .error e => .error e

/-- A run of steps. -/
def run (s : WaitSys B T) (evs : List (Budget × PoolEv B T)) : Except Halt (WaitSys B T) := Runs.run step s evs

/-- A step is one of the pool, which adds to the history who leaves. -/
theorem step_eq_ok {s s' : WaitSys B T} {b : Budget} {e : PoolEv B T} (hs : s.step (b, e) = .ok s') :
    Fresh s.sys e ∧ (∃ b', s.sys.step b e = .ok (b', s'.sys)) ∧ s'.left = s.left ++ leaving s.sys e := by
  obtain ⟨hfresh, hs⟩ := when_eq_ok.mp hs
  refine ⟨hfresh, ?_⟩
  dsimp only at hs
  cases hp : s.sys.step b e with
  | error x =>
    rw [hp] at hs
    cases hs
  | ok r =>
    rw [hp] at hs
    cases hs
    exact ⟨⟨r.1, rfl⟩, rfl⟩

/-! ## Steps that serve nobody -/

omit [DecidableEq B] in
/-- A step that serves nobody and lets nobody leave changes nothing about those who wait, or one more queues. -/
inductive Queues (s s' : PoolSys B T) : Prop where
  | same (hnodes : s'.pool.nodes = s.pool.nodes) (hinside : ∀ u, u ∈ s'.inside ↔ u ∈ s.inside)
      (hserved : s'.pool.served = s.pool.served) (hstop : s'.pool.stopping = s.pool.stopping)
      (hqueued : s'.pool.enqueued = s.pool.enqueued)
  | parks (t : T) (ht : t ∉ s.inside) (hopen : s.pool.stopping = false) (hnodes : s'.pool.nodes = (s.pool.enqueue t).nodes)
      (hinside : ∀ u, u ∈ s'.inside ↔ u = t ∨ u ∈ s.inside) (hserved : s'.pool.served = s.pool.served)
      (hstop : s'.pool.stopping = s.pool.stopping)

omit [DecidableEq B] in
/-- A refused request queues its thread or nobody. -/
theorem queues_refuse {s : PoolSys B T} {j : Job T} (hj : ∀ t, j = .wait t → t ∉ s.inside) : Queues s (s.refuse j) := by
  unfold PoolSys.refuse
  cases j with
  | init n => exact .same rfl (fun _ => Iff.rfl) rfl rfl rfl
  | acquire => exact .same rfl (fun _ => Iff.rfl) rfl rfl rfl
  | wait t =>
    dsimp only
    split
    · exact .same rfl (fun _ => Iff.rfl) rfl rfl rfl
    · rename_i hstop
      refine .parks t (hj t rfl) (Bool.eq_false_iff.mpr hstop) rfl (fun u => ?_) rfl rfl
      simp only [PoolSys.inside, List.mem_append, List.mem_singleton]
      tauto

omit [DecidableEq B] in
/-- Neither does taking a free buffer queue anybody. -/
theorem queues_pullFirst {s : PoolSys B T} {j : Job T} (hj : ∀ t, j = .wait t → t ∉ s.inside) :
    Queues s (s.pullFirst j) := by
  unfold PoolSys.pullFirst
  split
  · exact queues_refuse hj
  · exact .same rfl (fun _ => Iff.rfl) rfl rfl rfl

omit [DecidableEq B] in
/-- A request queues its thread or nobody. -/
theorem queues_request {s : PoolSys B T} {j : Job T} (hj : ∀ t, j = .wait t → t ∉ s.inside) : Queues s (s.request j) := by
  unfold PoolSys.request
  split
  · exact .same rfl (fun _ => Iff.rfl) rfl rfl rfl
  · exact queues_pullFirst hj

omit [DecidableEq B] in
/-- The end of a growth queues its thread or nobody. -/
theorem queues_grown {s : PoolSys B T} {j : Job T} (x : B) (hj : ∀ t, j = .wait t → t ∉ s.inside) :
    Queues s ({ s with pool := s.pool.addBuffer x }.grown j) := by
  -- a buffer that is added is nothing to those who wait
  have hadd : ∀ s', Queues { s with pool := s.pool.addBuffer x } s' → Queues s s' := by
    intro s' h
    cases h with
    | same hnodes hinside hserved hstop hqueued => exact .same hnodes hinside hserved hstop hqueued
    | parks t ht hopen hnodes hinside hserved hstop => exact .parks t ht hopen hnodes hinside hserved hstop
  unfold PoolSys.grown
  cases j with
  | init left =>
    dsimp only
    split <;> exact .same rfl (fun _ => Iff.rfl) rfl rfl rfl
  | acquire => exact hadd _ (queues_pullFirst hj)
  | wait t => exact hadd _ (queues_pullFirst hj)

/-! ## What a step does to those who wait -/

omit [DecidableEq T] [DecidableEq B] in
/-- Entries for different threads: those of one thread are one at most. -/
theorem filter_of_nodup [DecidableEq T] {l : List (T × Option B)} (hl : (l.map Prod.fst).Nodup) {t : T} {r : Option B}
    (hx : (t, r) ∈ l) : l.filter (fun x => x.1 = t) = [(t, r)] := by
  induction l with
  | nil => cases hx
  | cons y l ih =>
    rw [List.map_cons, List.nodup_cons] at hl
    obtain ⟨hy, hl⟩ := hl
    rcases List.mem_cons.mp hx with rfl | hx
    · rw [List.filter_cons_of_pos (by simp), List.filter_eq_nil_iff.mpr]
      intro z hz
      simp only [decide_eq_true_eq]
      intro hzt
      exact hy (List.mem_map.mpr ⟨z, hz, hzt⟩)
    · have hne : ¬ decide (y.1 = t) = true := by
        simp only [decide_eq_true_eq]
        intro hyt
        exact hy (List.mem_map.mpr ⟨(t, r), hx, hyt.symm⟩)
      rw [List.filter_cons, if_neg hne]
      exact ih hl hx

/-- What a step does to those who wait, of whom those of `q` have no result: it serves nobody; it gives results to some of them;
or a thread leaves. -/
inductive Waits (s : PoolSys B T) (q : List T) (e : PoolEv B T) (s' : PoolSys B T) : Prop where
  | queues (he : leaving s e = []) (h : Queues s s')
  | serves (he : leaving s e = []) (new : List (T × Option B)) (hserved : s'.pool.served = s.pool.served ++ new)
      (hnodup : (new.map Prod.fst).Nodup)
      (hnew : ∀ x ∈ new, x.1 ∈ q ∧ (s'.pool.nodes x.1).done = true ∧ (s'.pool.nodes x.1).buf = x.2)
      (hother : ∀ u, u ∉ new.map Prod.fst →
        (s'.pool.nodes u).done = (s.pool.nodes u).done ∧ (s'.pool.nodes u).buf = (s.pool.nodes u).buf)
      (hinside : s'.inside = s.inside) (hqueued : s'.pool.enqueued = s.pool.enqueued)
  | leaves (t : T) (he : e = .leave t) (ht : t ∈ s.returning) (hnodes : s'.pool.nodes = s.pool.nodes)
      (hinside : s'.inside = s.parked ++ s.returning.erase t) (hserved : s'.pool.served = s.pool.served)
      (hstop : s'.pool.stopping = s.pool.stopping) (hqueued : s'.pool.enqueued = s.pool.enqueued)

omit [DecidableEq B] in
/-- `stop_waiters` gives all who wait a null buffer. -/
theorem waits_stop {s s' : PoolSys B T} {q : List T} {e : PoolEv B T} (h : s.Inv q) (he : leaving s e = [])
    (hpool : s'.pool = s.pool.stopWaiters.1) (hinside : s'.inside = s.inside) : Waits s q e s' := by
  have hs := h.queue.stopWaiters
  have hmap : (q.map (fun t => ((t, none) : T × Option B))).map Prod.fst = q := by simp [Function.comp_def]
  refine .serves he (q.map (·, none)) (by rw [hpool]; exact hs.served) ?_ (fun x hx => ?_) (fun u hu => ?_) hinside
    (by rw [hpool]; exact hs.same.2.2.2.1)
  · rw [hmap]
    exact h.queue.links.nodup
  · obtain ⟨t, ht, rfl⟩ := List.mem_map.mp hx
    rw [hpool]
    exact ⟨ht, (hs.done t).mpr (Or.inr ht), (hs.buf t).trans (h.queue.unserved t ht).2⟩
  · rw [hmap] at hu
    rw [hpool]
    refine ⟨?_, hs.buf u⟩
    rw [Bool.eq_iff_iff, hs.done u, or_iff_left hu]

/-- Every step does one of the three. -/
theorem waits {b b' : Budget} {s s' : PoolSys B T} {q : List T} {e : PoolEv B T} (h : s.Inv q)
    (hs : s.step b e = .ok (b', s')) : Waits s q e s' := by
  have hout : ∀ j, s.pc.job = some j → ∀ t, j = .wait t → t ∉ s.inside := fun j hj t ht => h.job_outside t (ht ▸ hj)
  cases PoolSys.step_cases hs with
  | acquire hopen => exact .queues rfl (queues_request (fun t ht => by cases ht))
  | acquireWait t hopen ht => exact .queues rfl (queues_request (fun u hu => by cases hu; exact ht))
  | refused spurious j current hpc hround => exact .queues rfl (queues_refuse (hout j (by rw [hpc]; rfl)))
  | alloc j x hpc => exact .queues rfl (queues_grown x (hout j (by rw [hpc]; rfl)))
  | giveBack j hpc => exact .queues rfl (queues_refuse (hout j (by rw [hpc]; rfl)))
  | recycle bufs pool cvs hopen hnodup hheld hp =>
    have hr := h.queue.recycled hp
    have hmap : ((q.zip bufs.reduceOption).map (fun x => (x.1, some x.2))).map Prod.fst = q.take bufs.reduceOption.length := by
      rw [List.map_map]
      exact Pool.map_fst_zip_take q bufs.reduceOption
    refine .serves rfl _ hr.served ?_ (fun x hx => ?_) (fun u hu => ?_) rfl hr.same.2.2.2.1
    · rw [hmap]
      exact h.queue.links.nodup.sublist (List.take_sublist _ _)
    · have htake : x.1 ∈ q.take bufs.reduceOption.length := by
        rw [← hmap]
        exact List.mem_map_of_mem hx
      obtain ⟨y, hy, rfl⟩ := List.mem_map.mp hx
      exact ⟨List.mem_of_mem_take htake, (hr.done y.1).mpr (Or.inr htake), hr.given y hy⟩
    · rw [hmap] at hu
      refine ⟨?_, hr.buf u hu⟩
      show (pool.nodes u).done = _
      rw [Bool.eq_iff_iff, hr.done u, or_iff_left hu]
  | stopWaiters hopen => exact waits_stop h rfl rfl rfl
  | dtorStop hopen hdtor => exact waits_stop h rfl rfl rfl
  | unlock t hopen ht hawake hdone =>
    refine .queues rfl (.same rfl (fun u => ?_) rfl rfl rfl)
    exact (s.inside_unlock ht).mem_iff
  | leave t ht hdtor => exact .leaves t rfl ht rfl rfl rfl rfl rfl
  | initNone | init | load | reserved | again | allocFailed | wakeUp | sleep | dtorBarrier | dtorClear | dtorRelease =>
    exact .queues rfl (.same rfl (fun _ => Iff.rfl) rfl rfl rfl)

/-! ## The invariant -/

/-- The invariant of a pool with its history: who is served is given a buffer, until the pool is stopped, and null then; and the
results of a thread are those with which it has left, and the one it has been given and not left with. -/
structure Inv (s : WaitSys B T) (q : List T) : Prop where
  pool : s.sys.Inv q
  shape : ∃ (given : List (T × B)) (refused : List T),
    s.sys.pool.served = given.map (fun x => (x.1, some x.2)) ++ refused.map (·, none) ∧
      (s.sys.pool.stopping = false → refused = [])
  results : ∀ t, s.sys.pool.served.filter (fun x => x.1 = t) = s.left.filter (fun x => x.1 = t) ++ pending s.sys t

omit [DecidableEq B] in
theorem inv_init (bufferSize : Nat) : (init bufferSize : WaitSys B T).Inv [] where
  pool := PoolSys.inv_init bufferSize
  shape := ⟨[], [], rfl, fun _ => rfl⟩
  results := fun t => by simp [init, PoolSys.init, Pool.init, pending, PoolSys.inside]

omit [DecidableEq B] in
/-- The result of a thread about which nothing changes. -/
theorem pending_congr {s s' : PoolSys B T} {t : T} (hinside : t ∈ s'.inside ↔ t ∈ s.inside)
    (hdone : (s'.pool.nodes t).done = (s.pool.nodes t).done) (hbuf : (s'.pool.nodes t).buf = (s.pool.nodes t).buf) :
    pending s' t = pending s t := by
  simp only [pending, hinside, hdone, hbuf]

omit [DecidableEq B] in
/-- A thread that is not inside has no result to take. -/
theorem pending_of_outside {s : PoolSys B T} {t : T} (ht : t ∉ s.inside) : pending s t = [] :=
  if_neg (fun h => ht h.1)

omit [DecidableEq B] in
/-- Neither has one that was not served. -/
theorem pending_of_undone {s : PoolSys B T} {t : T} (ht : (s.pool.nodes t).done = false) : pending s t = [] :=
  if_neg (fun h => by rw [ht] at h; exact Bool.noConfusion h.2)

omit [DecidableEq B] in
/-- One that was served and is inside has one. -/
theorem pending_of_done {s : PoolSys B T} {t : T} (hin : t ∈ s.inside) (ht : (s.pool.nodes t).done = true) :
    pending s t = [(t, (s.pool.nodes t).buf)] :=
  if_pos ⟨hin, ht⟩

omit [DecidableEq B] in
/-- A step that serves nobody and lets nobody leave changes no thread's result. -/
theorem pending_queues {s s' : PoolSys B T} (h : Queues s s') (t : T) : pending s' t = pending s t := by
  cases h with
  | same hnodes hinside hserved hstop hqueued => exact pending_congr (hinside t) (by rw [hnodes]) (by rw [hnodes])
  | parks u hu hopen hnodes hinside hserved hstop =>
    have hnode := Pool.enqueue_node s.pool u t
    rw [← hnodes] at hnode
    by_cases htu : t = u
    · rw [pending_of_undone (by rw [hnode.1, if_pos htu]), pending_of_outside (htu ▸ hu)]
    · rw [if_neg htu, if_neg htu] at hnode
      exact pending_congr ((hinside t).trans (or_iff_right htu)) hnode.1 hnode.2

omit [DecidableEq B] in
/-- What a thread is given, and what it leaves with, add up. -/
theorem results_step {s s' : PoolSys B T} {q : List T} {e : PoolEv B T} (h : s.Inv q) (hw : Waits s q e s')
    {left : List (T × Option B)}
    (hold : ∀ t, s.pool.served.filter (fun x => x.1 = t) = left.filter (fun x => x.1 = t) ++ pending s t) (t : T) :
    s'.pool.served.filter (fun x => x.1 = t) = (left ++ leaving s e).filter (fun x => x.1 = t) ++ pending s' t := by
  cases hw with
  | queues he hq =>
    have hserved : s'.pool.served = s.pool.served := by
      cases hq with
      | same hnodes hinside hserved hstop hqueued => exact hserved
      | parks u hu hopen hnodes hinside hserved hstop => exact hserved
    rw [he, List.append_nil, hserved, pending_queues hq]
    exact hold t
  | serves he new hserved hnodup hnew hother hinside hqueued =>
    rw [he, List.append_nil, hserved, List.filter_append, hold t, List.append_assoc, List.append_right_inj]
    by_cases ht : t ∈ new.map Prod.fst
    · -- a thread that is served had no result
      obtain ⟨⟨u, r⟩, hx, rfl⟩ := List.mem_map.mp ht
      obtain ⟨hmem, hdone, hbuf⟩ := hnew _ hx
      have hin : u ∈ s'.inside := hinside ▸ h.mem_inside hmem
      rw [pending_of_undone ((h.waiting u).mp hmem).2, filter_of_nodup hnodup hx, pending_of_done hin hdone, hbuf]
      rfl
    · obtain ⟨hdone, hbuf⟩ := hother t ht
      have hnone : new.filter (fun x => x.1 = t) = [] := by
        refine List.filter_eq_nil_iff.mpr (fun x hx => ?_)
        simp only [decide_eq_true_eq]
        intro hxt
        exact ht (List.mem_map.mpr ⟨x, hx, hxt⟩)
      rw [hnone, List.append_nil]
      exact (pending_congr (by rw [hinside]) hdone hbuf).symm
  | leaves u he hu hnodes hinside hserved hstop hqueued =>
    have hret : s.returning.Nodup := (List.nodup_append.mp h.inside_nodup).2.1
    have hparked : u ∉ s.parked := fun hp => (List.nodup_append.mp h.inside_nodup).2.2 u hp u hu rfl
    subst he
    rw [hserved, hold t, leaving, List.filter_append, List.append_assoc]
    congr 1
    by_cases htu : t = u
    · -- its last access: the result goes from the pool's part of the history to the thread's
      subst htu
      have hgone : t ∉ s'.inside := by
        rw [hinside, List.mem_append, not_or]
        exact ⟨hparked, hret.not_mem_erase⟩
      rw [pending_of_outside hgone, pending_of_done (List.mem_append_right _ hu) (h.returning_done t hu)]
      simp
    · have hmem : t ∈ s'.inside ↔ t ∈ s.inside := by
        rw [hinside, PoolSys.inside, List.mem_append, List.mem_append, List.mem_erase_of_ne htu]
      rw [pending_congr hmem (by rw [hnodes]) (by rw [hnodes])]
      have hne : ¬ u = t := fun he => htu he.symm
      simp [hne]

/-- What a step adds to the results, before and behind the stop. -/
theorem shape_step {b b' : Budget} {s s' : PoolSys B T} {q : List T} {e : PoolEv B T} (h : s.Inv q)
    (hs : s.step b e = .ok (b', s'))
    (hold : ∃ (given : List (T × B)) (refused : List T),
      s.pool.served = given.map (fun x => (x.1, some x.2)) ++ refused.map (·, none) ∧
        (s.pool.stopping = false → refused = [])) :
    ∃ (given : List (T × B)) (refused : List T),
      s'.pool.served = given.map (fun x => (x.1, some x.2)) ++ refused.map (·, none) ∧
        (s'.pool.stopping = false → refused = []) := by
  obtain ⟨given, refused, hserved, hopen⟩ := hold
  have hserving := h.serving hs
  by_cases hrec : ∃ bufs, e = .recycle bufs
  · obtain ⟨bufs, he⟩ := hrec
    obtain ⟨hnew, hstop⟩ := hserving.hand_out bufs he
    cases hst : s.pool.stopping with
    | true =>
      -- nobody waits any more, and nobody is served
      rw [h.stopped hst, List.zip_nil_left, List.map_nil, List.append_nil] at hnew
      exact ⟨given, refused, hnew.trans hserved, fun hno => by rw [hstop, hst] at hno; cases hno⟩
    | false =>
      obtain rfl := hopen hst
      rw [List.map_nil, List.append_nil] at hserved
      refine ⟨given ++ q.zip bufs.reduceOption, [], ?_, fun _ => rfl⟩
      rw [hnew, hserved, List.map_append, List.map_nil, List.append_nil]
  · by_cases hst : e = .stopWaiters ∨ e = .dtorStop
    · obtain ⟨hnew, hstop⟩ := hserving.shut_down hst
      refine ⟨given, refused ++ q, ?_, fun hno => by rw [hstop] at hno; cases hno⟩
      rw [hnew, hserved, List.map_append, List.append_assoc]
    · rw [not_or] at hst
      obtain ⟨hsame, hstop⟩ := hserving.others (fun bufs he => hrec ⟨bufs, he⟩) hst.1 hst.2
      exact ⟨given, refused, hsame.trans hserved, fun hno => hopen (hstop ▸ hno)⟩

/-- Every step keeps the invariant, with the queue as it is then. -/
theorem Inv.step {s s' : WaitSys B T} {q : List T} (h : s.Inv q) {ev : Budget × PoolEv B T} (hs : s.step ev = .ok s') :
    ∃ q', s'.Inv q' := by
  obtain ⟨b, e⟩ := ev
  obtain ⟨hfresh, ⟨b', hp⟩, hleft⟩ := step_eq_ok hs
  have hnew : ∀ x, e = .alloc (some x) → x ∉ s.sys.pool.all := by
    rintro x rfl
    exact hfresh
  obtain ⟨q', hq'⟩ := h.pool.step hnew hp
  refine ⟨q', hq', shape_step h.pool hp h.shape, fun t => ?_⟩
  rw [hleft]
  exact results_step h.pool (waits h.pool hp) h.results t

/-- The invariant along a run. -/
theorem Inv.run {s s' : WaitSys B T} {q : List T} (h : s.Inv q) {evs : List (Budget × PoolEv B T)}
    (hr : s.run evs = .ok s') : ∃ q', s'.Inv q' :=
  Runs.run_induction (P := fun s : WaitSys B T => ∃ q, s.Inv q) ⟨q, h⟩ (fun _ _ _ ⟨_, hs⟩ hst => hs.step hst) hr

/-! ## Everybody gets out -/

/-- What is known of the threads that have queued, of whom those of `q` have no result. -/
structure Answered (s : WaitSys B T) (q : List T) : Prop where
  waiting : ∀ t, t ∈ q ↔ t ∈ s.sys.parked ∧ (s.sys.pool.nodes t).done = false
  order : s.sys.pool.served.map Prod.fst ++ q = s.sys.pool.enqueued
  shape : ∃ (given : List (T × B)) (refused : List T),
    s.sys.pool.served = given.map (fun x => (x.1, some x.2)) ++ refused.map (·, none) ∧
      (s.sys.pool.stopping = false → refused = [])
  received : ∀ t, s.sys.pool.served.filter (fun x => x.1 = t) = s.left.filter (fun x => x.1 = t) ++ pending s.sys t
  times : ∀ t, s.sys.pool.enqueued.count t = (s.left.map Prod.fst).count t + s.sys.inside.count t
  once : s.sys.inside.Nodup
  awake : ∀ t ∈ s.sys.parked, (s.sys.pool.nodes t).done = true → s.sys.asleep t = false
  inflight : s.sys.pool.inflight = s.sys.inside.length

/-- What the next operation does, or must not do, where those of `q` have no result: whom it marks it notifies; a pool that was
stopped gives no more results, and those inside can leave it without anybody's help; and the destructor goes on, and frees,
only where nobody is inside. -/
structure Ends (s : WaitSys B T) (q : List T) : Prop where
  handOff : ∀ bufs pool cvs, s.sys.pool.recycleAll bufs = .ok (pool, cvs) →
    ∀ t ∈ q, (pool.nodes t).done = true → (s.sys.pool.nodes t).cv ∈ cvs
  stop : ∀ t ∈ q, (s.sys.pool.stopWaiters.1.nodes t).done = true ∧ (s.sys.pool.stopWaiters.1.nodes t).buf = none ∧
    (s.sys.pool.nodes t).cv ∈ s.sys.pool.stopWaiters.2
  stopped : s.sys.pool.stopping = true → q = [] ∧ ∀ ev s', s.step ev = .ok s' →
    s'.sys.pool.served = s.sys.pool.served ∧ s'.sys.pool.enqueued = s.sys.pool.enqueued ∧ s'.sys.pool.stopping = true
  leave : s.sys.pool.stopping = true → s.sys.Open → ∀ b : Budget, ∃ evs s',
    (∀ ev ∈ evs, ev.1 = b ∧ ∃ t, ev.2 = .relock t ∨ ev.2 = .leave t) ∧ s.run evs = .ok s' ∧ s'.sys.inside = []
  barrier : ∀ b r, s.sys.step b .dtorBarrier = .ok r → s.sys.inside = []
  free : ∀ b r, s.sys.step b .dtorClear = .ok r ∨ s.sys.step b .dtorRelease = .ok r → s.sys.inside = []
  safe : ∀ ev, s.step ev ≠ .error .badAccess

omit [DecidableEq B] in
/-- Of the times a thread queued, it is inside for the last one, or has left since. -/
theorem Inv.times {s : WaitSys B T} {q : List T} (h : s.Inv q) (t : T) :
    s.sys.pool.enqueued.count t = (s.left.map Prod.fst).count t + s.sys.inside.count t := by
  have hcount : ∀ l : List (T × Option B), (l.map Prod.fst).count t = (l.filter (fun x => x.1 = t)).length := by
    intro l
    rw [List.count, List.countP_map, List.countP_eq_length_filter]
    exact congrArg List.length (List.filter_congr (fun x _ => rfl))
  have hinside : s.sys.inside.count t = (pending s.sys t).length + q.count t := by
    by_cases hin : t ∈ s.sys.inside
    · rw [List.count_eq_one_of_mem h.pool.inside_nodup hin]
      cases hdone : (s.sys.pool.nodes t).done with
      | true =>
        have htq : t ∉ q := fun hq => by
          rw [((h.pool.waiting t).mp hq).2] at hdone
          cases hdone
        rw [pending_of_done hin hdone, List.count_eq_zero.mpr htq]
        rfl
      | false =>
        have hparked : t ∈ s.sys.parked := by
          rcases List.mem_append.mp hin with hp | hret
          · exact hp
          · rw [h.pool.returning_done t hret] at hdone
            cases hdone
        have htq : t ∈ q := (h.pool.waiting t).mpr ⟨hparked, hdone⟩
        rw [pending_of_undone hdone, List.count_eq_one_of_mem h.pool.queue.links.nodup htq]
        rfl
    · have htq : t ∉ q := fun hq => hin (h.pool.mem_inside hq)
      rw [List.count_eq_zero.mpr hin, List.count_eq_zero.mpr htq, pending_of_outside hin]
      rfl
  rw [← h.pool.queue.order, List.count_append, hcount, hcount, h.results t, List.length_append, hinside, Nat.add_assoc]

/-- A step that is one of the pool. -/
theorem step_ok {s : WaitSys B T} {b b' : Budget} {e : PoolEv B T} {p : PoolSys B T} (hfresh : Fresh s.sys e)
    (hp : s.sys.step b e = .ok (b', p)) : s.step (b, e) = .ok ⟨p, s.left ++ leaving s.sys e⟩ := by
  rw [step, when, if_pos hfresh, hp]

/-- Once the pool has been stopped, those inside leave one after the other. -/
theorem Inv.drain {s : WaitSys B T} {q : List T} (h : s.Inv q) (hstop : s.sys.pool.stopping = true) (hopen : s.sys.Open)
    (b : Budget) : ∃ evs s', (∀ ev ∈ evs, ev.1 = b ∧ ∃ t, ev.2 = .relock t ∨ ev.2 = .leave t) ∧ s.run evs = .ok s' ∧
      s'.sys.inside = [] := by
  -- each thread takes the mutex once, and leaves once
  induction hn : 2 * s.sys.parked.length + s.sys.returning.length generalizing s q with
  | zero =>
    refine ⟨[], s, fun ev hev => (by cases hev), rfl, List.length_eq_zero_iff.mp ?_⟩
    rw [PoolSys.inside, List.length_append]
    omega
  | succ n ih =>
    obtain ⟨hpc, hdtor⟩ := hopen
    suffices hnext : ∃ t e p, (e = .relock t ∨ e = .leave t) ∧ s.sys.step b e = .ok (b, p) ∧ p.pool.stopping = true ∧
        p.Open ∧ 2 * p.parked.length + p.returning.length = n by
      obtain ⟨t, e, p, he, hp, hstop', hopen', hlen⟩ := hnext
      have hfresh : Fresh s.sys e := by
        rcases he with rfl | rfl <;> trivial
      have hs := step_ok hfresh hp
      obtain ⟨q', hq'⟩ := h.step hs
      obtain ⟨evs, s', hevs, hr, hempty⟩ := ih hq' hstop' hopen' hlen
      refine ⟨(b, e) :: evs, s', List.forall_mem_cons.mpr ⟨⟨rfl, t, he⟩, hevs⟩, ?_, hempty⟩
      rw [WaitSys.run, Runs.run_step hs]
      exact hr
    cases hparked : s.sys.parked with
    | cons t ts =>
      have ht : t ∈ s.sys.parked := by rw [hparked]; exact List.mem_cons_self
      have hdone : (s.sys.pool.nodes t).done = true := by
        by_contra hd
        have htq := (h.pool.waiting t).mpr ⟨ht, Bool.eq_false_iff.mpr hd⟩
        rw [h.pool.stopped hstop] at htq
        cases htq
      have hawake := h.pool.awake t ht hdone
      refine ⟨t, .relock t, { s.sys with parked := s.sys.parked.erase t, returning := s.sys.returning ++ [t] }, Or.inl rfl,
        ?_, hstop, ⟨hpc, hdtor⟩, ?_⟩
      · rw [PoolSys.step, when, if_pos ⟨hpc, ht, hawake⟩, if_neg hdtor, if_pos hdone]
      · have hlen := List.length_erase_of_mem ht
        have hpos := List.length_pos_of_mem ht
        simp only [List.length_append, List.length_singleton, hlen]
        omega
    | nil =>
      have hret : s.sys.returning ≠ [] := by
        intro hnil
        rw [hparked, hnil] at hn
        cases hn
      obtain ⟨t, ht⟩ := List.exists_mem_of_ne_nil _ hret
      have hlen := List.length_erase_of_mem ht
      have hpos := List.length_pos_of_mem ht
      refine ⟨t, .leave t,
        { s.sys with
          pool := { s.sys.pool with inflight := s.sys.pool.inflight - 1 }
          returning := s.sys.returning.erase t
          held := (s.sys.pool.nodes t).buf.toList ++ s.sys.held
          returned := s.sys.returned ++ [(t, (s.sys.pool.nodes t).buf)] }, Or.inr rfl, ?_, hstop, ⟨hpc, hdtor⟩, ?_⟩
      · rw [PoolSys.step, when, if_pos ht, if_neg hdtor]
      · dsimp only
        omega

omit [DecidableEq B] in
/-- Every thread of the queue gets its answer, in order and once. -/
theorem Inv.answered {s : WaitSys B T} {q : List T} (h : s.Inv q) : s.Answered q where
  waiting := h.pool.waiting
  order := h.pool.queue.order
  shape := h.shape
  received := h.results
  times := h.times
  once := h.pool.inside_nodup
  awake := h.pool.awake
  inflight := h.pool.inflight

/-- Nobody who is inside is left there: a hand-over or a shutdown notifies whom it serves, and who was served can leave. -/
theorem Inv.ends {s : WaitSys B T} {q : List T} (h : s.Inv q) : s.Ends q where
  handOff := by
    intro bufs pool cvs hp t ht hdone
    have hr := h.pool.queue.recycled hp
    have htake : t ∈ q.take bufs.reduceOption.length := by
      refine ((hr.done t).mp hdone).resolve_left (fun hd => ?_)
      rw [((h.pool.waiting t).mp ht).2] at hd
      cases hd
    exact hr.notified t htake
  stop := by
    intro t ht
    have hs := h.pool.queue.stopWaiters
    exact ⟨(hs.done t).mpr (Or.inr ht), (hs.buf t).trans (h.pool.queue.unserved t ht).2, hs.notified t ht⟩
  stopped := by
    intro hstop
    have hnil := h.pool.stopped hstop
    refine ⟨hnil, ?_⟩
    rintro ⟨b, e⟩ s' hs
    obtain ⟨-, ⟨b', hp⟩, -⟩ := step_eq_ok hs
    have hstays : s'.sys.pool.stopping = true := by
      have hserving := h.pool.serving hp
      by_cases hrec : ∃ bufs, e = .recycle bufs
      · obtain ⟨bufs, he⟩ := hrec
        exact (hserving.hand_out bufs he).2.trans hstop
      · by_cases hst : e = .stopWaiters ∨ e = .dtorStop
        · exact (hserving.shut_down hst).2
        · rw [not_or] at hst
          exact (hserving.others (fun bufs he => hrec ⟨bufs, he⟩) hst.1 hst.2).2.trans hstop
    cases waits h.pool hp with
    | queues he hq =>
      cases hq with
      | same hnodes hinside hserved hstop' hqueued => exact ⟨hserved, hqueued, hstays⟩
      | parks u hu hopen hnodes hinside hserved hstop' =>
        rw [hstop] at hopen
        cases hopen
    | serves he new hserved hnodup hnew hother hinside hqueued =>
      have hnone : new = [] := by
        refine List.eq_nil_iff_forall_not_mem.mpr (fun x hx => ?_)
        have hmem := (hnew x hx).1
        rw [hnil] at hmem
        cases hmem
      rw [hnone, List.append_nil] at hserved
      exact ⟨hserved, hqueued, hstays⟩
    | leaves t he ht hnodes hinside hserved hstop' hqueued => exact ⟨hserved, hqueued, hstays⟩
  leave := fun hstop hopen b => h.drain hstop hopen b
  barrier := by
    rintro b ⟨b', p⟩ hs
    cases PoolSys.step_cases hs with
    | dtorBarrier hdtor hinflight => exact List.length_eq_zero_iff.mp (h.pool.inflight.symm.trans hinflight)
  free := by
    rintro b ⟨b', p⟩ (hs | hs)
    · cases PoolSys.step_cases hs with
      | dtorClear hopen hdtor => exact h.pool.quiet (Or.inl hdtor)
    · cases PoolSys.step_cases hs with
      | dtorRelease bytes hpc => exact h.pool.quiet (Or.inl (h.pool.releasing bytes hpc))
  safe := by
    rintro ⟨b, e⟩ hbad
    obtain ⟨-, hbad⟩ := when_eq_badAccess.mp hbad
    refine h.pool.no_badAccess b e ?_
    dsimp only at hbad
    cases hp : s.sys.step b e with
    | ok r =>
      rw [hp] at hbad
      cases hbad
    | error x =>
      rw [hp] at hbad
      cases hbad
      rfl

/-- In every state that a pool can reach, with clients that wait and recycle, with stops and the destructor in any order: a
thread that queues is given one result for it, a buffer before the stop or null at the stop; a thread that is given its result
is awake, and can leave; `mu_inflight` counts those inside; and the pool is taken apart only where there is nobody inside. -/
theorem teardown (bufferSize : Nat) (evs : List (Budget × PoolEv B T)) {s : WaitSys B T}
    (hr : (init bufferSize : WaitSys B T).run evs = .ok s) : ∃ q, s.Answered q ∧ s.Ends q := by
  obtain ⟨q, hq⟩ := (inv_init bufferSize).run hr
  exact ⟨q, hq.answered, hq.ends⟩

/-- Three threads queue; the first gets a buffer, the pool is stopped twice, and the destructor goes on when all have left. -/
def threeWaiters : List (Budget × PoolEv Nat Nat) :=
  [.acquire, .load, .tryReserve false, .alloc (some 0), .acquireWait 1, .load, .tryReserve false, .acquireWait 2, .load,
    .tryReserve false, .acquireWait 3, .load, .tryReserve false, .recycle [some 0], .relock 1, .stopWaiters, .dtorStop,
    .relock 3, .leave 3, .leave 1, .relock 2, .leave 2, .recycle [some 0], .dtorBarrier, .dtorClear, .dtorRelease].mapIdx
    (fun i e => (⟨8, if i < 3 then 0 else 8⟩, e))

/-- On this run all three get out, and the pool is freed behind them. -/
theorem teardown_threeWaiters : ∃ s q, (init 8 : WaitSys Nat Nat).run threeWaiters = .ok s ∧ s.Answered q ∧ s.Ends q ∧
    s.left = [(3, none), (1, some 0), (2, none)] ∧ s.sys.dtor = .gone := by
  have hrun : ∃ s, (init 8 : WaitSys Nat Nat).run threeWaiters = .ok s ∧ s.left = [(3, none), (1, some 0), (2, none)] ∧
      s.sys.dtor = .gone := ⟨_, rfl, rfl, rfl⟩
  obtain ⟨s, hs, hleft, hdtor⟩ := hrun
  obtain ⟨q, hanswered, hends⟩ := teardown 8 threeWaiters hs
  exact ⟨s, q, hs, hanswered, hends, hleft, hdtor⟩

end WaitSys

end P8
