import Mathlib.Algebra.BigOperators.Group.Finset.Piecewise
import Mathlib.Algebra.Order.BigOperators.Group.Finset
import P8.Lib.Runs
import P8.Pool.Ownership

/-!
# Conservation: pools that share a budget

Any number of pools draw on one `cp8_memory_budget`, each step of each of them interleaved with those of the others. A pool's
share of the budget is what its buffers take, and what it has reserved or is about to release at the moment. One step of a pool
moves the budget by what it moves the share (`step_share`), so the budget is always the sum of the shares
(`Pools.conservation`).
-/

namespace P8

namespace PoolSys

variable {B T : Type}

/-- The bytes of the budget a pool has taken for no buffer it has: reserved for one, or about to be released. -/
def reserved (s : PoolSys B T) : Nat :=
  match s.pc with
  | .alloc _ | .giveBack _ => s.pool.bufferSize
  | .release bytes => bytes
  | .idle | .load _ | .check _ _ => 0

/-- A pool outside the loop has reserved nothing. -/
theorem reserved_of_idle {s : PoolSys B T} (h : s.pc = .idle) : s.reserved = 0 := by rw [reserved, h]

/-- A pool's share of the budget. -/
def share (s : PoolSys B T) : Nat := s.pool.all.length * s.pool.bufferSize + s.reserved

variable [DecidableEq T]

/-- The end of an operation that gets no buffer. -/
theorem refuse_same (s : PoolSys B T) (j : Job T) :
    (s.refuse j).pool.all = s.pool.all ∧ (s.refuse j).pool.bufferSize = s.pool.bufferSize ∧ (s.refuse j).pc = .idle := by
  unfold refuse
  cases j with
  | init n => exact ⟨rfl, rfl, rfl⟩
  | acquire => exact ⟨rfl, rfl, rfl⟩
  | wait t =>
    dsimp only
    split <;> exact ⟨rfl, rfl, rfl⟩

/-- Taking the first free buffer changes no pool's buffers. -/
theorem pullFirst_same (s : PoolSys B T) (j : Job T) :
    (s.pullFirst j).pool.all = s.pool.all ∧ (s.pullFirst j).pool.bufferSize = s.pool.bufferSize ∧
      (s.pullFirst j).pc = .idle := by
  unfold pullFirst
  split
  · exact s.refuse_same j
  · exact ⟨rfl, rfl, rfl⟩

/-- A request changes no pool's buffers. -/
theorem request_same (s : PoolSys B T) (j : Job T) :
    (s.request j).pool.all = s.pool.all ∧ (s.request j).pool.bufferSize = s.pool.bufferSize ∧
      (s.request j).reserved = 0 := by
  unfold request
  split
  · exact ⟨rfl, rfl, rfl⟩
  · obtain ⟨hall, hsize, hpc⟩ := s.pullFirst_same j
    exact ⟨hall, hsize, reserved_of_idle hpc⟩

/-- Nor does the end of a growth. -/
theorem grown_same (s : PoolSys B T) (j : Job T) :
    (s.grown j).pool.all = s.pool.all ∧ (s.grown j).pool.bufferSize = s.pool.bufferSize ∧ (s.grown j).reserved = 0 := by
  have hpull := s.pullFirst_same j
  unfold grown
  cases j with
  | init left =>
    dsimp only
    split <;> exact ⟨rfl, rfl, rfl⟩
  | acquire => exact ⟨hpull.1, hpull.2.1, reserved_of_idle hpull.2.2⟩
  | wait t => exact ⟨hpull.1, hpull.2.1, reserved_of_idle hpull.2.2⟩

/-- What a step does to the budget and to the pool's own part of it, and which buffers the pool has after it. -/
structure Moves (b : Budget) (s : PoolSys B T) (e : PoolEv B T) (b' : Budget) (s' : PoolSys B T) : Prop where
  max_eq : b'.max = b.max
  used_le : b'.used ≤ b'.max
  balance : b'.used + s.share = b.used + s'.share
  size_eq : s'.pool.bufferSize = s.pool.bufferSize
  buffers : ∀ x ∈ s'.pool.all, x ∈ s.pool.all ∨ e = .alloc (some x)

omit [DecidableEq T] in
/-- A step that changes neither buffers nor reservation. -/
theorem Moves.of_same {b : Budget} {s s' : PoolSys B T} {e : PoolEv B T} (hle : b.used ≤ b.max) (hall : s'.pool.all = s.pool.all)
    (hsize : s'.pool.bufferSize = s.pool.bufferSize) (hres : s'.reserved = s.reserved) : Moves b s e b s' :=
  ⟨rfl, hle, by rw [share, share, hall, hsize, hres], hsize, fun x hx => Or.inl (hall ▸ hx)⟩

omit [DecidableEq T] in
/-- A step outside the loop that changes no buffers. -/
theorem Moves.of_idle {b : Budget} {s s' : PoolSys B T} {e : PoolEv B T} (hle : b.used ≤ b.max) (hall : s'.pool.all = s.pool.all)
    (hsize : s'.pool.bufferSize = s.pool.bufferSize) (hpc : s.pc = .idle) (hpc' : s'.pc = .idle) : Moves b s e b s' :=
  Moves.of_same hle hall hsize ((reserved_of_idle hpc').trans (reserved_of_idle hpc).symm)

/-- One step of a pool moves the budget by what it moves the pool's share. -/
theorem Inv.moves [DecidableEq B] {b b' : Budget} {s s' : PoolSys B T} {q : List T} {e : PoolEv B T} (h : s.Inv q)
    (hmax : b.max < 2 ^ 64) (hle : b.used ≤ b.max) (hshare : s.share ≤ b.used) (hs : s.step b e = .ok (b', s')) :
    Moves b s e b' s' := by
  have hidle : s.Open → s.reserved = 0 := fun ho => reserved_of_idle ho.1
  cases step_cases hs with
  | initNone hopen => exact Moves.of_same hle rfl rfl rfl
  | init count hopen => exact Moves.of_same hle rfl rfl (hidle hopen).symm
  | acquire hopen =>
    obtain ⟨hall, hsize, hres⟩ := s.request_same .acquire
    exact Moves.of_same hle hall hsize (hres.trans (hidle hopen).symm)
  | acquireWait t hopen ht =>
    obtain ⟨hall, hsize, hres⟩ := s.request_same (.wait t)
    exact Moves.of_same hle hall hsize (hres.trans (hidle hopen).symm)
  | load j hpc => exact Moves.of_same hle rfl rfl (by rw [reserved, reserved, hpc])
  | refused spurious j current hpc hround =>
    obtain ⟨hall, hsize, hpc'⟩ := s.refuse_same j
    exact Moves.of_same hle hall hsize ((reserved_of_idle hpc').trans (by rw [reserved, hpc]))
  | reserved spurious j current b' hpc hround =>
    have hres : s.reserved = 0 := by rw [reserved, hpc]
    obtain ⟨hmax', hused, hle'⟩ := Budget.reserved_spec hmax hround
    refine ⟨hmax', hle', ?_, rfl, fun x hx => Or.inl hx⟩
    rw [share, share, hused, hres]
    simp only [PoolSys.reserved]
    omega
  | again spurious j current next hpc hround => exact Moves.of_same hle rfl rfl (by rw [reserved, reserved, hpc])
  | alloc j x hpc =>
    obtain ⟨hall, hsize, hres⟩ := ({ s with pool := s.pool.addBuffer x } : PoolSys B T).grown_same j
    have hmine : s.reserved = s.pool.bufferSize := by rw [reserved, hpc]
    refine ⟨rfl, hle, ?_, hsize, fun y hy => ?_⟩
    · rw [share, share, hall, hsize, hres, hmine]
      simp [Pool.addBuffer, Nat.add_mul]
    · rw [hall] at hy
      rcases List.mem_append.mp hy with hy | hy
      · exact Or.inl hy
      · rw [List.mem_singleton.mp hy]
        exact Or.inr rfl
  | allocFailed j hpc => exact Moves.of_same hle rfl rfl (by rw [reserved, reserved, hpc])
  | giveBack j hpc =>
    obtain ⟨hall, hsize, hpc'⟩ := s.refuse_same j
    have hmine : s.reserved = s.pool.bufferSize := by rw [reserved, hpc]
    have hbytes : s.pool.bufferSize ≤ b.used := by
      rw [share, hmine] at hshare
      omega
    obtain ⟨hmax', hused⟩ := Budget.release_spec hbytes (by omega)
    refine ⟨hmax', by omega, ?_, hsize, fun x hx => Or.inl (hall ▸ hx)⟩
    have hnone : (s.refuse j).reserved = 0 := reserved_of_idle hpc'
    rw [share, share, hall, hsize, hnone, hmine]
    omega
  | recycle bufs pool cvs hopen hnodup hheld hp =>
    have hr := h.queue.recycled hp
    obtain ⟨hall, -, -, -, hsize⟩ := hr.same
    exact Moves.of_idle hle hall hsize hopen.1 hopen.1
  | stopWaiters hopen =>
    obtain ⟨-, hall, -, -, hsize⟩ := h.queue.stopWaiters.same
    exact Moves.of_idle hle hall hsize hopen.1 hopen.1
  | dtorStop hopen hdtor =>
    obtain ⟨-, hall, -, -, hsize⟩ := h.queue.stopWaiters.same
    exact Moves.of_idle hle hall hsize hopen.1 hopen.1
  | wakeUp | unlock | sleep | leave | dtorBarrier => exact Moves.of_same hle rfl rfl rfl
  | dtorClear hopen hdtor =>
    have hmod : s.pool.all.length * s.pool.bufferSize % 2 ^ 64 = s.pool.all.length * s.pool.bufferSize := by
      refine Nat.mod_eq_of_lt ?_
      rw [share] at hshare
      omega
    refine ⟨rfl, hle, ?_, rfl, fun x hx => (by cases hx)⟩
    rw [share, share, hidle hopen]
    simp only [reserved, hmod]
    simp
  | dtorRelease bytes hpc =>
    have hmine : s.reserved = bytes := by rw [reserved, hpc]
    have hbytes : bytes ≤ b.used := by
      rw [share, hmine] at hshare
      omega
    split
    · obtain ⟨hmax', hused⟩ := Budget.release_spec hbytes (by omega)
      refine ⟨hmax', by omega, ?_, rfl, fun x hx => Or.inl hx⟩
      rw [share, share, hmine]
      simp only [reserved]
      omega
    · have hzero : bytes = 0 := by omega
      exact Moves.of_same hle rfl rfl (by rw [hmine, hzero]; rfl)

end PoolSys

/-! ## Pools that share a budget -/

/-- Pools and the budget they share. -/
structure Pools (ι B T : Type) where
  budget : Budget
  pools : ι → PoolSys B T

namespace Pools

variable {ι B T : Type} [Fintype ι] [DecidableEq ι] [DecidableEq B] [DecidableEq T]

/-- Pools right after their construction, pool `i` with buffers of size `size i`. -/
def init (max : Nat) (size : ι → Nat) : Pools ι B T := ⟨⟨max, 0⟩, fun i => PoolSys.init (size i)⟩

/-- An allocation gives a buffer no pool has. -/
def Fresh (s : Pools ι B T) : PoolEv B T → Prop
  | .alloc (some x) => ∀ i, x ∉ (s.pools i).pool.all
  | _ => True

instance (s : Pools ι B T) : (e : PoolEv B T) → Decidable (s.Fresh e)
  | .alloc (some x) => inferInstanceAs (Decidable (∀ i, x ∉ (s.pools i).pool.all))
  | .alloc none | .init _ | .acquire | .acquireWait _ | .load | .tryReserve _ | .giveBack | .recycle _ | .stopWaiters
  | .wakeUp _ | .relock _ | .leave _ | .dtorStop | .dtorBarrier | .dtorClear | .dtorRelease => .isTrue trivial

/-- One step of one of the pools. -/
def step (s : Pools ι B T) (ev : ι × PoolEv B T) : Except Halt (Pools ι B T) :=
  when (s.Fresh ev.2) <|
    match (s.pools ev.1).step s.budget ev.2 with
    | .ok (budget, pool) => .ok ⟨budget, Function.update s.pools ev.1 pool⟩
    | .error e => .error e

/-- A run of steps, each of any one of the pools. -/
def run (s : Pools ι B T) (evs : List (ι × PoolEv B T)) : Except Halt (Pools ι B T) := Runs.run step s evs

/-- The invariant of pools that share a budget of `max` bytes. -/
structure Inv (max : Nat) (s : Pools ι B T) : Prop where
  pools : ∀ i, ∃ q, (s.pools i).Inv q
  apart : ∀ i j, i ≠ j → (s.pools i).pool.all.Disjoint (s.pools j).pool.all
  max_eq : s.budget.max = max
  used_eq : s.budget.used = ∑ i, (s.pools i).share
  used_le : s.budget.used ≤ max

omit [DecidableEq ι] [DecidableEq B] [DecidableEq T] in
theorem inv_init (max : Nat) (size : ι → Nat) : (Pools.init max size : Pools ι B T).Inv max where
  pools := fun i => ⟨[], PoolSys.inv_init (size i)⟩
  apart := fun _ _ _ => List.disjoint_nil_left _
  max_eq := rfl
  used_eq := by simp [Pools.init, PoolSys.share, PoolSys.init, PoolSys.reserved, Pool.init]
  used_le := Nat.zero_le _

variable {max : Nat} {s s' : Pools ι B T} {i : ι} {e : PoolEv B T}

/-- A step of a pool is a step of that pool. -/
theorem step_eq_ok (hs : s.step (i, e) = .ok s') : s.Fresh e ∧ ∃ b p, (s.pools i).step s.budget e = .ok (b, p) ∧
    s' = ⟨b, Function.update s.pools i p⟩ := by
  obtain ⟨hfresh, hs⟩ := when_eq_ok.mp hs
  refine ⟨hfresh, ?_⟩
  dsimp only at hs
  cases hp : (s.pools i).step s.budget e with
  | error x =>
    rw [hp] at hs
    cases hs
  | ok r =>
    rw [hp] at hs
    cases hs
    exact ⟨r.1, r.2, rfl, rfl⟩

/-- A step of a pool that is enabled. -/
theorem step_ok (hfresh : s.Fresh e) {b : Budget} {p : PoolSys B T} (hp : (s.pools i).step s.budget e = .ok (b, p)) :
    s.step (i, e) = .ok ⟨b, Function.update s.pools i p⟩ := by
  rw [step, when, if_pos hfresh, hp]

omit [DecidableEq ι] [DecidableEq B] [DecidableEq T] in
/-- No pool has more than the budget has lent. -/
theorem Inv.share_le (h : s.Inv max) (i : ι) : (s.pools i).share ≤ s.budget.used := by
  rw [h.used_eq]
  exact Finset.single_le_sum (f := fun i => (s.pools i).share) (fun _ _ => Nat.zero_le _) (Finset.mem_univ i)

omit [DecidableEq ι] in
/-- One step of one pool moves the budget by what it moves that pool's share. -/
theorem Inv.moves (h : s.Inv max) (hmax : max < 2 ^ 64) {b : Budget} {p : PoolSys B T}
    (hp : (s.pools i).step s.budget e = .ok (b, p)) : PoolSys.Moves s.budget (s.pools i) e b p := by
  obtain ⟨q, hq⟩ := h.pools i
  exact hq.moves (h.max_eq ▸ hmax) (h.max_eq ▸ h.used_le) (h.share_le i) hp

/-- One step of one pool keeps the invariant. -/
theorem Inv.step (h : s.Inv max) (hmax : max < 2 ^ 64) (hs : s.step (i, e) = .ok s') : s'.Inv max := by
  obtain ⟨hfresh, b, p, hp, rfl⟩ := step_eq_ok hs
  have hm := h.moves hmax hp
  have hmine : ∀ x, e = .alloc (some x) → ∀ j, x ∉ (s.pools j).pool.all := by
    rintro x rfl
    exact hfresh
  refine ⟨fun j => ?_, ?_, hm.max_eq.trans h.max_eq, ?_, hm.used_le.trans (Nat.le_of_eq (hm.max_eq.trans h.max_eq))⟩
  · dsimp only
    by_cases hj : j = i
    · obtain ⟨q, hq⟩ := h.pools i
      rw [hj, Function.update_self]
      exact hq.step (fun x hx => hmine x hx i) hp
    · rw [Function.update_of_ne hj]
      exact h.pools j
  · -- a buffer that is new in the pool is in no other one
    have hapart : ∀ j, j ≠ i → p.pool.all.Disjoint (s.pools j).pool.all := by
      intro j hj x hx hx'
      rcases hm.buffers x hx with hold | hnew
      · exact h.apart i j hj.symm hold hx'
      · exact hmine x hnew j hx'
    intro j k hjk
    dsimp only
    by_cases hj : j = i
    · subst hj
      rw [Function.update_self, Function.update_of_ne hjk.symm]
      exact hapart k hjk.symm
    · rw [Function.update_of_ne hj]
      by_cases hk : k = i
      · subst hk
        rw [Function.update_self]
        exact (hapart j hj).symm
      · rw [Function.update_of_ne hk]
        exact h.apart j k hjk
  · have hsum := Finset.sum_update_of_mem (Finset.mem_univ i) (fun j => (s.pools j).share) p.share
    have hold := Finset.add_sum_erase Finset.univ (fun j => (s.pools j).share) (Finset.mem_univ i)
    have hupd : ∀ j, (Function.update s.pools i p j).share = Function.update (fun j => (s.pools j).share) i p.share j := by
      intro j
      by_cases hj : j = i
      · subst hj
        rw [Function.update_self, Function.update_self]
      · rw [Function.update_of_ne hj, Function.update_of_ne hj]
    have hbal := hm.balance
    rw [h.used_eq] at hbal
    simp only [hupd, hsum, ← Finset.erase_eq] at hbal ⊢
    omega

/-- The invariant along a run. -/
theorem Inv.run (h : s.Inv max) (hmax : max < 2 ^ 64) {evs : List (ι × PoolEv B T)} (hr : s.run evs = .ok s') :
    s'.Inv max :=
  Runs.run_induction h (fun _ _ _ hs hst => hs.step hmax hst) hr

/-! ## What is conserved -/

/-- Where the buffers of the pools are, and what the budget has lent. -/
structure Conserved (max : Nat) (s : Pools ι B T) : Prop where
  nodup : ∀ i, (s.pools i).pool.all.Nodup
  owners : ∀ i, (s.pools i).pool.all.Perm ((s.pools i).pool.free ++ (s.pools i).held ++ (s.pools i).handed)
  apart : ∀ i j, i ≠ j → (s.pools i).pool.all.Disjoint (s.pools j).pool.all
  used_eq : s.budget.used =
    ∑ i, ((s.pools i).pool.all.length * (s.pools i).pool.bufferSize + (s.pools i).reserved)
  used_le : s.budget.used ≤ max
  safe : ∀ ev, s.step ev ≠ .error .badAccess

/-- What one step of pool `i` does to the budget: a reservation takes the size of a buffer or changes nothing; a failed
allocation changes nothing, and gives the size of a buffer back; the destructor gives back what the pool's buffers took. -/
structure Lends (s : Pools ι B T) (i : ι) (e : PoolEv B T) (s' : Pools ι B T) : Prop where
  reserve : ∀ spurious, e = .tryReserve spurious → (s'.pools i).pool.all = (s.pools i).pool.all ∧
    (s'.budget = s.budget ∧ (s'.pools i).reserved = 0 ∨
      s'.budget.used = s.budget.used + (s.pools i).pool.bufferSize ∧
        (s'.pools i).reserved = (s.pools i).pool.bufferSize)
  fail : e = .alloc none → s'.budget = s.budget ∧ (s'.pools i).pool.all = (s.pools i).pool.all
  giveBack : e = .giveBack → s'.budget.used + (s.pools i).pool.bufferSize = s.budget.used ∧
    (s'.pools i).pool.all = (s.pools i).pool.all
  clear : e = .dtorClear → s'.budget = s.budget ∧ (s'.pools i).pool.all = [] ∧
    (s'.pools i).pc = .release ((s.pools i).pool.all.length * (s.pools i).pool.bufferSize)
  release : e = .dtorRelease → ∃ bytes, (s.pools i).pc = .release bytes ∧ s'.budget.used + bytes = s.budget.used ∧
    (s'.pools i).dtor = .gone

/-- What is lent is what the pools have. -/
theorem Inv.conserved (h : s.Inv max) : s.Conserved max where
  nodup := fun i => by
    obtain ⟨q, hq⟩ := h.pools i
    exact hq.all_nodup
  owners := fun i => by
    obtain ⟨q, hq⟩ := h.pools i
    exact hq.all_perm
  apart := h.apart
  used_eq := h.used_eq
  used_le := h.used_le
  safe := by
    rintro ⟨i, e⟩ hbad
    obtain ⟨q, hq⟩ := h.pools i
    obtain ⟨-, hbad⟩ := when_eq_badAccess.mp hbad
    refine hq.no_badAccess s.budget e ?_
    dsimp only at hbad
    cases hp : (s.pools i).step s.budget e with
    | ok r =>
      rw [hp] at hbad
      cases hbad
    | error x =>
      rw [hp] at hbad
      cases hbad
      rfl

/-- A step lends as it should. -/
theorem Inv.lends (h : s.Inv max) (hmax : max < 2 ^ 64) (hs : s.step (i, e) = .ok s') : s.Lends i e s' := by
  obtain ⟨-, b, p, hp, rfl⟩ := step_eq_ok hs
  have hm := h.moves hmax hp
  have hbal := hm.balance
  have hshare := h.share_le i
  have hle := h.used_le
  unfold PoolSys.share at hbal hshare
  refine ⟨?_, ?_, ?_, ?_, ?_⟩
  all_goals simp only [Function.update_self]
  · rintro spurious rfl
    cases PoolSys.step_cases hp with
    | refused _ j current hpc hround =>
      obtain ⟨hall, -, hpc'⟩ := (s.pools i).refuse_same j
      exact ⟨hall, Or.inl ⟨rfl, PoolSys.reserved_of_idle hpc'⟩⟩
    | reserved _ j current b' hpc hround =>
      obtain ⟨-, hused, -⟩ := Budget.reserved_spec (h.max_eq ▸ hmax) hround
      exact ⟨rfl, Or.inr ⟨hused, rfl⟩⟩
    | again _ j current next hpc hround => exact ⟨rfl, Or.inl ⟨rfl, rfl⟩⟩
  · rintro rfl
    cases PoolSys.step_cases hp with
    | allocFailed j hpc => exact ⟨rfl, rfl⟩
  · rintro rfl
    cases PoolSys.step_cases hp with
    | giveBack j hpc =>
      obtain ⟨hall, hsize, hpc'⟩ := (s.pools i).refuse_same j
      have hmine : (s.pools i).reserved = (s.pools i).pool.bufferSize := by rw [PoolSys.reserved, hpc]
      rw [hall, hsize, PoolSys.reserved_of_idle hpc', hmine] at hbal
      exact ⟨by omega, hall⟩
  · rintro rfl
    cases PoolSys.step_cases hp with
    | dtorClear hopen hdtor =>
      refine ⟨rfl, rfl, congrArg Pc.release (Nat.mod_eq_of_lt ?_)⟩
      omega
  · rintro rfl
    cases PoolSys.step_cases hp with
    | dtorRelease bytes hpc =>
      have hmine : (s.pools i).reserved = bytes := by rw [PoolSys.reserved, hpc]
      have hnone : ({ s.pools i with pc := .idle, dtor := .gone } : PoolSys B T).reserved = 0 := rfl
      rw [hnone, hmine] at hbal
      dsimp only at hbal
      exact ⟨bytes, hpc, by omega, rfl⟩

/-- In every state that pools that share a budget can reach, each buffer of a pool is at exactly one place and in no other
pool, the budget has lent exactly what the pools' buffers take and what is reserved, and never more than it has; and no step
takes more from the budget, or gives back less, than it should. -/
theorem conservation {max : Nat} (hmax : max < 2 ^ 64) (size : ι → Nat) (evs : List (ι × PoolEv B T)) {s : Pools ι B T}
    (hr : (Pools.init max size : Pools ι B T).run evs = .ok s) :
    s.Conserved max ∧ ∀ i e s', s.step (i, e) = .ok s' → s.Lends i e s' := by
  have hinv := (inv_init max size).run hmax hr
  exact ⟨hinv.conserved, fun i e s' hs => hinv.lends hmax hs⟩

/-- Two pools with one budget: an allocation of the first fails, so that the second can grow twice; it is destroyed, and all it
had goes back. -/
def twoPools : List (Fin 2 × PoolEv Nat Nat) :=
  [(0, .acquire), (0, .load), (0, .tryReserve false), (1, .init 2), (1, .load), (0, .alloc none), (1, .tryReserve true),
    (0, .giveBack), (1, .tryReserve false), (1, .tryReserve false), (1, .alloc (some 0)), (1, .load), (1, .tryReserve false),
    (1, .alloc (some 1)), (1, .acquire), (0, .acquireWait 7), (0, .load), (0, .tryReserve false), (1, .recycle [some 0]),
    (1, .dtorStop), (1, .dtorBarrier), (1, .dtorClear), (1, .dtorRelease)]

/-- On this run everything goes back. -/
theorem conservation_twoPools : ∃ s, (Pools.init 16 (fun _ => 8) : Pools (Fin 2) Nat Nat).run twoPools = .ok s ∧
    s.budget.used = 0 ∧ s.Conserved 16 := by
  have hrun : ∃ s, (Pools.init 16 (fun _ => 8) : Pools (Fin 2) Nat Nat).run twoPools = .ok s ∧ s.budget.used = 0 :=
    ⟨_, rfl, rfl⟩
  obtain ⟨s, hs, hused⟩ := hrun
  exact ⟨s, hs, hused, (conservation (by decide) (fun _ => 8) twoPools hs).1⟩

end Pools

end P8
