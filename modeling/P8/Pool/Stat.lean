import P8.Pool.Config

/-!
# Stat: when an acquire counts as pressure

`cp8_buffer_pool::stat` and the decision of `cp8_core::acquire_buffer`: a buffer taken where less than three quarters of the
budget are free wakes the worker. The percentage is computed in 64 bits, and with more than 2⁶⁴ / 100 bytes free the
multiplication wraps: then any free share counts as pressure.
-/

namespace P8

/-- `s_stat`. -/
structure PoolStat where
  bufferSize : Nat
  freeSize : Nat
  maxSize : Nat

/-- `P8_CORE_FREE_MEM_PERCENT`. -/
def coreFreeMemPercent : Nat := 75

section

variable {B T : Type}

/-- `cp8_buffer_pool::stat`. -/
def Pool.stat (p : Pool B T) (budget : Option Budget) : PoolStat :=
  let outstanding := sizeSub p.all.length p.free.length * p.bufferSize % 2 ^ 64
  let max := match budget with
    | some b => b.max
    | none => p.all.length * p.bufferSize % 2 ^ 64
  { bufferSize := p.bufferSize
    freeSize := if outstanding < max then sizeSub max outstanding else 0
    maxSize := max }

/-- How `acquire_buffer` ends: with a buffer, the worker being woken or not; with null; or in `acquire_wait`, the worker being
woken. -/
inductive Acquire (B : Type) where
  | buffer (b : B) (wake : Bool)
  | null
  | wait
  deriving DecidableEq

/-- `cp8_core::acquire_buffer`, with what `acquire_no_lock` gave and the `stat` behind it. -/
def acquireBuffer (initialized wait : Bool) (buf : Option B) (st : PoolStat) : Acquire B :=
  if !initialized then .null
  else
    match buf with
    | some b => .buffer b (0 < st.maxSize && st.freeSize * 100 % 2 ^ 64 / st.maxSize < coreFreeMemPercent)
    | none => if !wait then .null else .wait

/-- The bytes of the buffers that are not in the free list. -/
def Pool.outstanding (p : Pool B T) : Nat := (p.all.length - p.free.length) * p.bufferSize

/-- The statistics of a pool whose outstanding buffers fit into its budget are exact. -/
theorem Pool.stat_eq {p : Pool B T} {b : Budget} (hfree : p.free.length ≤ p.all.length) (hout : p.outstanding ≤ b.max)
    (hmax : b.max < 2 ^ 64) : p.stat (some b) = ⟨p.bufferSize, b.max - p.outstanding, b.max⟩ := by
  have hcount : sizeSub p.all.length p.free.length = (p.all.length - p.free.length) % 2 ^ 64 := by
    rw [sizeSub]
    omega
  have hbytes : sizeSub p.all.length p.free.length * p.bufferSize % 2 ^ 64 = p.outstanding := by
    rw [hcount, Nat.mod_mul_mod]
    exact Nat.mod_eq_of_lt (Nat.lt_of_le_of_lt hout hmax)
  simp only [Pool.stat, hbytes, PoolStat.mk.injEq, true_and, and_true]
  split
  · rw [sizeSub_of_le hout hmax]
  · omega

/-- The percentage is right as long as the product does not wrap; a product that does is always found below three quarters. -/
theorem percent_iff {free max : Nat} (hpos : 0 < max) (hle : free ≤ max) :
    free * 100 % 2 ^ 64 / max < coreFreeMemPercent ↔ 2 ^ 64 ≤ 100 * free ∨ 100 * free < 75 * max := by
  rw [coreFreeMemPercent, Nat.div_lt_iff_lt_mul hpos]
  by_cases hwrap : free * 100 < 2 ^ 64
  · rw [Nat.mod_eq_of_lt hwrap]
    omega
  · -- a product below 2 · 2⁶⁴ keeps less than three quarters of `max`; a larger one needs a `max` of which these are 2⁶⁴
    have hlt : free * 100 % 2 ^ 64 < 2 ^ 64 := Nat.mod_lt _ (by decide)
    have hmod := Nat.mod_add_div (free * 100) (2 ^ 64)
    have hone : 1 ≤ free * 100 / 2 ^ 64 := (Nat.one_le_div_iff (by decide)).mpr (Nat.le_of_not_lt hwrap)
    refine ⟨fun _ => Or.inl (by omega), fun _ => ?_⟩
    rcases Nat.lt_or_ge (free * 100) (2 ^ 65) with hsmall | hlarge
    · omega
    · omega

end

/-- In a core's pool, whatever has happened to it, the free buffers are some of its buffers, and the outstanding ones fit into
the budget. -/
theorem Pools.runCore_outstanding {B T : Type} [DecidableEq B] [DecidableEq T] {cfg : MemoryConfig}
    (hmax : cfg.maxMemorySize < 2 ^ 64) {evs : List (Unit × PoolEv B T)} {s : Pools Unit B T} (hr : runCore cfg evs = .ok s) :
    (s.pools ()).pool.free.length ≤ (s.pools ()).pool.all.length ∧ s.budget.max = cfg.maxMemorySize ∧
      (s.pools ()).pool.outstanding ≤ s.budget.max := by
  have hinv := (inv_init cfg.maxMemorySize (fun _ => dataBufferSize)).run hmax hr
  have hshare := hinv.share_le ()
  have hle := hinv.used_le
  obtain ⟨q, hq⟩ := hinv.pools ()
  have hperm := hq.all_perm.length_eq
  rw [List.length_append, List.length_append] at hperm
  have hout : (s.pools ()).pool.outstanding ≤ (s.pools ()).pool.all.length * (s.pools ()).pool.bufferSize :=
    Nat.mul_le_mul_right _ (Nat.sub_le _ _)
  refine ⟨by omega, hinv.max_eq, ?_⟩
  rw [PoolSys.share] at hshare
  rw [hinv.max_eq]
  omega

/-- A buffer taken wakes the worker just where less than three quarters of the budget are free, exactly when the product of
the free bytes with 100 does not wrap or less than three quarters are free anyhow. -/
theorem pressure_exact_iff {B T : Type} (p : Pool B T) (b : Budget) (buf : B) (wait : Bool)
    (hfree : p.free.length ≤ p.all.length) (hpos : 0 < b.max) (hmax : b.max < 2 ^ 64) (hout : p.outstanding ≤ b.max) :
    (acquireBuffer true wait (some buf) (p.stat (some b)) = .buffer buf true ↔
        100 * (b.max - p.outstanding) < 75 * b.max) ↔
      (100 * (b.max - p.outstanding) < 2 ^ 64 ∨ 100 * (b.max - p.outstanding) < 75 * b.max) := by
  have hwake : acquireBuffer true wait (some buf) (p.stat (some b)) = .buffer buf true ↔
      2 ^ 64 ≤ 100 * (b.max - p.outstanding) ∨ 100 * (b.max - p.outstanding) < 75 * b.max := by
    rw [← percent_iff hpos (Nat.sub_le _ _), Pool.stat_eq hfree hout hmax]
    simp [acquireBuffer, hpos]
  rw [hwake]
  omega

namespace Pools

/-- A thread takes the first buffer of a core's pool. -/
def firstBuffer : List (Unit × PoolEv Nat Nat) :=
  [((), .acquire), ((), .load), ((), .tryReserve false), ((), .alloc (some 0))]

/-- With a budget of 1 MB one buffer is no pressure. -/
theorem pressure_exact_iff_1mb : ∃ s, runCore ⟨1048576, 0⟩ firstBuffer = .ok s ∧
    acquireBuffer true true (some 0) ((s.pools ()).pool.stat (some s.budget)) = .buffer 0 false := by
  have hrun : ∃ s, runCore ⟨1048576, 0⟩ firstBuffer = .ok s ∧ (s.pools ()).pool.outstanding = 8192 := ⟨_, rfl, rfl⟩
  obtain ⟨s, hs, hsize⟩ := hrun
  obtain ⟨hfree, hbudget, hout⟩ := runCore_outstanding (by decide) hs
  have hiff := pressure_exact_iff (s.pools ()).pool s.budget 0 true hfree (by rw [hbudget]; decide) (by rw [hbudget]; decide) hout
  rw [hsize, hbudget] at hiff
  have hno := mt (hiff.mpr (Or.inl (by decide))).mp (by decide)
  refine ⟨s, hs, ?_⟩
  revert hno
  simp [acquireBuffer]

/-- With an unlimited budget one buffer is. -/
theorem pressure_exact_false : ∃ cfg s, initBufferPool sameLetters (some (bytes "infinite")) (some (bytes "0")) = some cfg ∧
    runCore cfg firstBuffer = .ok s ∧ s.budget.max = 18446744073709551615 ∧ (s.pools ()).pool.outstanding = 8192 ∧
    acquireBuffer true true (some 0) ((s.pools ()).pool.stat (some s.budget)) = .buffer 0 true ∧
    ¬ 100 * (s.budget.max - (s.pools ()).pool.outstanding) < 75 * s.budget.max :=
  ⟨⟨18446744073709551615, 0⟩, _, by decide, rfl, rfl, rfl, by decide, by decide⟩

end Pools

end P8
