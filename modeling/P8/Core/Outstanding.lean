import Mathlib.Data.List.ReduceOption
import P8.Pool.Clients

/-!
# Outstanding: the counter of outstanding buffers

`mu_outstanding_buffers` is declared to be the number of buffers that were acquired and not released. `release_buffer` and
`release_buffers` subtract from it what they have recycled, in a step of its own; `acquire_buffer` adds nothing on either of its
ways. So the counter is right exactly as long as nobody gets a buffer.

The pool is that of an initialized core, in use and not being destroyed. `releasing` are the lists of the calls that have
recycled and not subtracted yet.
-/

namespace P8

namespace PoolSys

variable {B T : Type}

/-- A step that gives a client a buffer: from the free list, newly allocated, or by a hand-off. -/
def Gives (s : PoolSys B T) : PoolEv B T → Prop
  | .acquire | .acquireWait _ => s.pool.free ≠ []
  | .alloc (some _) =>
    match s.pc with
    | .alloc .acquire | .alloc (.wait _) => True
    | _ => False
  | .leave t => (s.pool.nodes t).buf ≠ none
  | _ => False

/-- The steps of `acquire_buffer`, and those besides which a pool takes that is in use: neither a recycling nor one of the
destructor. -/
def InUse : PoolEv B T → Bool
  | .recycle _ | .dtorStop | .dtorBarrier | .dtorClear | .dtorRelease => false
  | .init _ | .acquire | .acquireWait _ | .load | .tryReserve _ | .alloc _ | .giveBack | .stopWaiters | .wakeUp _ | .relock _
  | .leave _ => true

variable [DecidableEq T]

/-- A refused job gives nothing. -/
theorem refuse_held (s : PoolSys B T) (j : Job T) : (s.refuse j).held = s.held := by
  unfold refuse
  cases j with
  | init n => rfl
  | acquire => rfl
  | wait t =>
    dsimp only
    split <;> rfl

/-- The first free buffer, if there is one, is given away. -/
theorem pullFirst_held (s : PoolSys B T) (j : Job T) :
    (s.pool.free = [] → (s.pullFirst j).held = s.held) ∧
      (s.pool.free ≠ [] → ∃ b, (s.pullFirst j).held = b :: s.held) := by
  unfold pullFirst
  split
  · rename_i hfree
    exact ⟨fun _ => s.refuse_held j, fun hne => absurd hfree hne⟩
  · rename_i b free hfree
    exact ⟨fun hnil => (by rw [hfree] at hnil; cases hnil), fun _ => ⟨b, rfl⟩⟩

/-- A request is given a buffer unless there is none. -/
theorem request_held (s : PoolSys B T) (j : Job T) :
    (s.pool.free = [] → (s.request j).held = s.held) ∧ (s.pool.free ≠ [] → ∃ b, (s.request j).held = b :: s.held) := by
  unfold request
  split
  · rename_i hfree
    exact ⟨fun _ => rfl, fun hne => absurd hfree hne⟩
  · exact s.pullFirst_held j

/-- A step of a pool in use gives a client a buffer, or leaves those of the clients alone. -/
theorem held_step [DecidableEq B] {b b' : Budget} {s s' : PoolSys B T} {e : PoolEv B T} (he : InUse e = true)
    (hs : s.step b e = .ok (b', s')) : (s.Gives e → ∃ x, s'.held = x :: s.held) ∧ (¬ s.Gives e → s'.held = s.held) := by
  cases step_cases hs with
  | acquire hopen => exact ⟨(s.request_held _).2, fun hno => (s.request_held _).1 (Decidable.of_not_not hno)⟩
  | acquireWait t hopen ht => exact ⟨(s.request_held _).2, fun hno => (s.request_held _).1 (Decidable.of_not_not hno)⟩
  | refused spurious j current hpc hround => exact ⟨fun hg => hg.elim, fun _ => s.refuse_held j⟩
  | giveBack j hpc => exact ⟨fun hg => hg.elim, fun _ => s.refuse_held j⟩
  | alloc j x hpc =>
    have hfree : (s.pool.addBuffer x).free ≠ [] := by simp [Pool.addBuffer]
    unfold Gives
    rw [hpc]
    cases j with
    | init left =>
      refine ⟨fun hg => hg.elim, fun _ => ?_⟩
      unfold grown
      dsimp only
      split <;> rfl
    | acquire => exact ⟨fun _ => (pullFirst_held _ _).2 hfree, fun hno => absurd trivial hno⟩
    | wait t => exact ⟨fun _ => (pullFirst_held _ _).2 hfree, fun hno => absurd trivial hno⟩
  | leave t ht hdtor =>
    refine ⟨fun hg => ?_, fun hno => ?_⟩
    · obtain ⟨x, hx⟩ := Option.ne_none_iff_exists'.mp hg
      exact ⟨x, by rw [hx]; rfl⟩
    · rw [Decidable.of_not_not hno]
      rfl
  | recycle | dtorStop | dtorBarrier | dtorClear | dtorRelease => cases he
  | initNone | init | load | reserved | again | allocFailed | stopWaiters | wakeUp | unlock | sleep =>
    exact ⟨fun hg => hg.elim, fun _ => rfl⟩

end PoolSys

/-- The pool of a core and its budget, the counter, and the releases that have not reached the counter. -/
structure OutstandingSys (B T : Type) where
  budget : Budget
  pool : PoolSys B T
  outstanding : UInt64
  releasing : List (List (Option B))

/-- The steps: those of the pool, the two release functions up to the end of the recycling, and their last statement. -/
inductive OutstandingEv (B T : Type) where
  | pool (e : PoolEv B T)
  | releaseBuffer (buf : Option B)
  | releaseBuffers (bufs : List (Option B))
  | fetchSub (bufs : List (Option B))

namespace OutstandingSys

variable {B T : Type}

/-- A core right after its construction, with `max` bytes for the pool. -/
def init (max : Nat) : OutstandingSys B T := ⟨⟨max, 0⟩, PoolSys.init dataBufferSize, 0, []⟩

/-- The buffers that were acquired and whose release is not complete. -/
def unreleased (s : OutstandingSys B T) : Nat :=
  s.pool.held.length + (s.releasing.map (fun bufs => bufs.reduceOption.length)).sum

/-- The counter is what its declaration says, and not more than there are buffers. -/
def Exact (s : OutstandingSys B T) : Prop :=
  s.outstanding.toNat = s.unreleased ∧ s.outstanding.toNat ≤ s.pool.pool.all.length

variable [DecidableEq B] [DecidableEq T]

/-- The recycling of a release. -/
def recycle (s : OutstandingSys B T) (bufs : List (Option B)) : Except Halt (OutstandingSys B T) :=
  match s.pool.step s.budget (.recycle bufs) with
  | .ok (budget, pool) => .ok { s with budget := budget, pool := pool, releasing := bufs :: s.releasing }
  | .error e => .error e

/-- One step. The size of a list is a `size_t`. -/
def step (s : OutstandingSys B T) : OutstandingEv B T → Except Halt (OutstandingSys B T)
  | .pool e =>
    when (PoolSys.InUse e = true) <|
      match s.pool.step s.budget e with
      | .ok (budget, pool) => .ok { s with budget := budget, pool := pool }
      | .error x => .error x
  | .releaseBuffer none => .ok s
  | .releaseBuffer (some b) => s.recycle [some b]
  | .releaseBuffers bufs => when (bufs.length < 2 ^ 64) <| if bufs.length = 0 then .ok s else s.recycle bufs
  | .fetchSub bufs =>
    when (bufs ∈ s.releasing) <|
      .ok { s with
        outstanding := s.outstanding - UInt64.ofNat bufs.length
        releasing := s.releasing.erase bufs }

/-- A run of steps. -/
def run (s : OutstandingSys B T) (evs : List (OutstandingEv B T)) : Except Halt (OutstandingSys B T) := Runs.run step s evs

omit [DecidableEq B] [DecidableEq T] in
/-- A step that the counter is right behind: it gives no buffer to a client, and subtracts for no null entry. -/
def Counted (s : OutstandingSys B T) : OutstandingEv B T → Prop
  | .pool e => ¬ s.pool.Gives e
  | .fetchSub bufs => none ∉ bufs
  | .releaseBuffer _ | .releaseBuffers _ => True

omit [DecidableEq B] [DecidableEq T] in
/-- The state of a core that has given nobody a buffer: what is being released are null entries. -/
structure Untouched (s : OutstandingSys B T) : Prop where
  outstanding : s.outstanding = 0
  held : s.pool.held = []
  releasing : ∀ bufs ∈ s.releasing, bufs.reduceOption = [] ∧ 0 < bufs.length ∧ bufs.length < 2 ^ 64

omit [DecidableEq B] [DecidableEq T] in
theorem untouched_init (max : Nat) : (init max : OutstandingSys B T).Untouched :=
  ⟨rfl, rfl, fun _ h => (by cases h)⟩

omit [DecidableEq B] [DecidableEq T] in
/-- Null entries are no buffers. -/
theorem sum_null {l : List (List (Option B))} (h : ∀ bufs ∈ l, bufs.reduceOption = []) :
    (l.map (fun bufs => bufs.reduceOption.length)).sum = 0 := by
  induction l with
  | nil => rfl
  | cons bufs l ih =>
    obtain ⟨hnull, hrest⟩ := List.forall_mem_cons.mp h
    rw [List.map_cons, List.sum_cons, hnull, ih hrest]
    rfl

omit [DecidableEq B] [DecidableEq T] in
/-- A core that has handed out no buffer counts none. -/
theorem Untouched.exact {s : OutstandingSys B T} (h : s.Untouched) : s.Exact := by
  have hzero : s.outstanding.toNat = 0 := by rw [h.outstanding]; rfl
  rw [Exact, unreleased, hzero, sum_null (fun bufs hb => (h.releasing bufs hb).1), h.held]
  exact ⟨rfl, Nat.zero_le _⟩

/-- Where nobody holds a buffer, only null entries can be recycled. -/
theorem Untouched.recycle {s s' : OutstandingSys B T} (h : s.Untouched) {bufs : List (Option B)} (hpos : 0 < bufs.length)
    (hlt : bufs.length < 2 ^ 64) (hs : s.recycle bufs = .ok s') : s'.Untouched := by
  unfold OutstandingSys.recycle at hs
  split at hs
  · rename_i budget pool hp
    cases hs
    cases PoolSys.step_cases hp with
    | recycle _ p cvs hopen hnodup hheld hpool =>
      have hnull : bufs.reduceOption = [] := by
        refine List.eq_nil_iff_forall_not_mem.mpr (fun x hx => ?_)
        have hmem := hheld x hx
        rw [h.held] at hmem
        cases hmem
      refine ⟨h.outstanding, ?_, List.forall_mem_cons.mpr ⟨⟨hnull, hpos, hlt⟩, h.releasing⟩⟩
      show s.pool.held.filter _ = []
      rw [h.held]
      rfl
  · cases hs

/-- Behind a step from a core that has given nobody a buffer, the counter is right exactly if the step does not either. -/
theorem Untouched.step {s s' : OutstandingSys B T} (h : s.Untouched) {ev : OutstandingEv B T} (hs : s.step ev = .ok s') :
    (s'.Exact ↔ s.Counted ev) ∧ (s.Counted ev → s'.Untouched) := by
  have hkept : s'.Untouched → s.Counted ev → (s'.Exact ↔ s.Counted ev) ∧ (s.Counted ev → s'.Untouched) :=
    fun h' hc => ⟨iff_of_true h'.exact hc, fun _ => h'⟩
  cases ev with
  | pool e =>
    obtain ⟨he, hs⟩ := when_eq_ok.mp hs
    split at hs
    · rename_i budget pool hp
      cases hs
      obtain ⟨hgive, hkeep⟩ := PoolSys.held_step he hp
      by_cases hg : s.pool.Gives e
      · -- the buffer is out, and the counter still zero
        obtain ⟨x, hx⟩ := hgive hg
        refine ⟨iff_of_false (fun hexact => ?_) (fun hc => hc hg), fun hc => absurd hg hc⟩
        have hcount := hexact.1
        rw [unreleased, hx, h.outstanding, List.length_cons] at hcount
        have hzero : (0 : UInt64).toNat = 0 := rfl
        omega
      · exact hkept ⟨h.outstanding, (hkeep hg).trans h.held, h.releasing⟩ hg
    · cases hs
  | releaseBuffer buf =>
    cases buf with
    | none =>
      cases hs
      exact hkept h trivial
    | some b =>
      have hone : [some b].length = 1 := rfl
      exact hkept (h.recycle (by omega) (by omega) hs) trivial
  | releaseBuffers bufs =>
    obtain ⟨hlt, hs⟩ := when_eq_ok.mp hs
    split at hs
    · cases hs
      exact hkept h trivial
    · rename_i hne
      exact hkept (h.recycle (Nat.pos_of_ne_zero hne) hlt hs) trivial
  | fetchSub bufs =>
    obtain ⟨hmem, hs⟩ := when_eq_ok.mp hs
    cases hs
    obtain ⟨hnull, hpos, hlt⟩ := h.releasing bufs hmem
    have hnone : none ∈ bufs := by
      obtain ⟨buf, hbuf⟩ := List.exists_mem_of_length_pos hpos
      cases buf with
      | none => exact hbuf
      | some b =>
        have hb : b ∈ bufs.reduceOption := List.reduceOption_mem_iff.mpr hbuf
        rw [hnull] at hb
        cases hb
    refine ⟨iff_of_false (fun hexact => ?_) (fun hc => hc hnone), fun hc => absurd hnone hc⟩
    -- the counter wraps below zero, and nobody holds anything
    have hsum := sum_null (l := s.releasing.erase bufs) (fun b hb => (h.releasing b (List.mem_of_mem_erase hb)).1)
    have hcount := hexact.1
    rw [unreleased, h.outstanding, h.held] at hcount
    simp only [List.length_nil, Nat.zero_add, hsum, UInt64.toNat_sub, UInt64.toNat_ofNat'] at hcount
    have hzero : (0 : UInt64).toNat = 0 := rfl
    omega

/-- In a run of the functions of a core the counter is what its declaration says in every state reached, exactly if no step of
it gives a client a buffer, and none subtracts for a null entry. -/
theorem outstanding_exact_iff (max : Nat) (evs : List (OutstandingEv B T)) :
    (∀ n s, (init max : OutstandingSys B T).run (evs.take n) = .ok s → s.Exact) ↔
      Runs.Along step (fun s ev r => ∀ s', r = .ok s' → s.Counted ev) (init max) evs := by
  have hinit := untouched_init (B := B) (T := T) max
  rw [show (∀ n s, (init max : OutstandingSys B T).run (evs.take n) = .ok s → s.Exact) ↔ _ from
    (Runs.along_reached_iff hinit.exact evs).symm]
  refine Runs.along_iff (I := Untouched) (fun s ev h => ?_) (fun s ev s' h hs hexact => ?_) hinit evs
  · exact forall_congr' fun s' => forall_congr' fun hs => (h.step hs).1
  · exact (h.step hs).2 ((h.step hs).1.mp (hexact s' rfl))

/-- One buffer is acquired and released. -/
def oneBuffer : List (OutstandingEv Nat Nat) :=
  [.pool .acquire, .pool .load, .pool (.tryReserve false), .pool (.alloc (some 0)), .releaseBuffer (some 0),
    .fetchSub [some 0]]

/-- Behind that, the counter is at its maximum. -/
theorem outstanding_false : ∃ s, (init 65536 : OutstandingSys Nat Nat).run oneBuffer = .ok s ∧
    s.outstanding = 0xFFFFFFFFFFFFFFFF ∧ s.unreleased = 0 ∧ ¬ s.Exact := by
  have hrun : ∃ s, (init 65536 : OutstandingSys Nat Nat).run oneBuffer = .ok s ∧ s.outstanding = 0xFFFFFFFFFFFFFFFF ∧
      s.unreleased = 0 := ⟨_, rfl, rfl, rfl⟩
  obtain ⟨s, hs, hcount, hnone⟩ := hrun
  refine ⟨s, hs, hcount, hnone, fun h => ?_⟩
  have hexact := h.1
  rw [hcount, hnone] at hexact
  exact absurd hexact (by decide)

end OutstandingSys

end P8
