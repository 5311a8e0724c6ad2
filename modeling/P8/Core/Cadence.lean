import Mathlib.Data.List.Chain
import P8.Lib.Bytes

/-!
# Cadence: when the worker polls the drop counters

The worker wakes at irregular times, and polls on a clock: a cycle whose reading is an interval or more past that of the last poll
polls again. The readings are 64 bits wide and wrap; the differences do not, as long as an interval and the longest time between two
cycles fit together (`polls_cadence`). Times are those of the clock without the wrap.
-/

namespace P8

/-- `P8_CORE_STATS_POLL_INTERVAL_MS`. -/
def statsPollIntervalMs : UInt64 := 250

/-- `lu_stats_poll_ticks`, of a clock whose ticks are `numer / denom` nanoseconds. -/
def statsPollTicks (numer denom : UInt64) : UInt64 :=
  if numer = 0 then 0 else statsPollIntervalMs * 1000000 * denom / numer

/-- The reading of the clock. -/
def hiresTicks (time : Nat) : UInt64 := UInt64.ofNat time

/-- The times of the polls of a worker whose cycles read the clock at these times; `last` is `lu_stats_last_ticks`. -/
def statsPolls (ticks : UInt64) (last : UInt64) : List Nat → List Nat
  | [] => []
  | time :: times =>
    if ticks ≠ 0 ∧ ticks ≤ hiresTicks time - last then time :: statsPolls ticks (hiresTicks time) times
    else statsPolls ticks last times

/-- The time since the last poll, as the worker computes it. -/
theorem toNat_hiresTicks_sub {last time : Nat} (hle : last ≤ time) (hlt : time - last < 2 ^ 64) :
    (hiresTicks time - hiresTicks last).toNat = time - last := by
  unfold hiresTicks
  rw [UInt64.toNat_sub, UInt64.toNat_ofNat', UInt64.toNat_ofNat']
  omega

/-- The polls behind one at the time `last`, of a worker that has seen the time `now` without being due. -/
theorem statsPolls_spaced {ticks : UInt64} {gap : Nat} (hwrap : ticks.toNat + gap < 2 ^ 64) {times : List Nat} {last now : Nat}
    (hle : last ≤ now) (hdue : now < last + ticks.toNat) (htimes : List.IsChain (fun a b => a ≤ b ∧ b ≤ a + gap) (now :: times)) :
    List.IsChain (fun a b => a + ticks.toNat ≤ b ∧ b < a + ticks.toNat + gap) (last :: statsPolls ticks (hiresTicks last) times) ∧
      (now :: times).getLast (List.cons_ne_nil _ _) <
        (last :: statsPolls ticks (hiresTicks last) times).getLast (List.cons_ne_nil _ _) + ticks.toNat := by
  induction times generalizing last now with
  | nil => exact ⟨List.isChain_singleton _, hdue⟩
  | cons time times ih =>
    obtain ⟨⟨hmono, hgap⟩, hrest⟩ := List.isChain_cons_cons.mp htimes
    have hread : (hiresTicks time - hiresTicks last).toNat = time - last := toNat_hiresTicks_sub (by omega) (by omega)
    have hpos : 0 < ticks.toNat := by omega
    rw [List.getLast_cons (List.cons_ne_nil time times), statsPolls]
    by_cases hpoll : ticks.toNat ≤ time - last
    · have hticks : ticks ≠ 0 ∧ ticks ≤ hiresTicks time - hiresTicks last := by
        refine ⟨fun h => ?_, ?_⟩
        · rw [h] at hpos
          exact absurd hpos (by decide)
        · rw [UInt64.le_iff_toNat_le, hread]
          exact hpoll
      obtain ⟨hchain, hlast⟩ := ih (Nat.le_refl time) (by omega) hrest
      rw [if_pos hticks, List.getLast_cons (List.cons_ne_nil time _)]
      exact ⟨List.isChain_cons_cons.mpr ⟨⟨by omega, by omega⟩, hchain⟩, hlast⟩
    · have hticks : ¬ (ticks ≠ 0 ∧ ticks ≤ hiresTicks time - hiresTicks last) := by
        rintro ⟨-, hle'⟩
        rw [UInt64.le_iff_toNat_le, hread] at hle'
        exact hpoll hle'
      rw [if_neg hticks]
      exact ih (by omega) (by omega) hrest

/-- The cadence of the polls. A worker that was started at the time `start` and whose cycles follow each other by at most `gap` polls
at intervals that are never shorter than the interval it computes and longer by less than `gap`, and it is never due behind a
cycle; the wrap of the clock changes nothing. -/
theorem polls_cadence {numer denom : UInt64} {start gap : Nat} {times : List Nat} (hsome : 0 < (statsPollTicks numer denom).toNat)
    (hwrap : (statsPollTicks numer denom).toNat + gap < 2 ^ 64)
    (htimes : List.IsChain (fun a b => a ≤ b ∧ b ≤ a + gap) (start :: times)) :
    List.IsChain (fun a b => a + (statsPollTicks numer denom).toNat ≤ b ∧ b < a + (statsPollTicks numer denom).toNat + gap)
        (start :: statsPolls (statsPollTicks numer denom) (hiresTicks start) times) ∧
      (start :: times).getLast (List.cons_ne_nil _ _) <
        (start :: statsPolls (statsPollTicks numer denom) (hiresTicks start) times).getLast (List.cons_ne_nil _ _) +
          (statsPollTicks numer denom).toNat :=
  statsPolls_spaced hwrap (Nat.le_refl start) (by omega) htimes

/-- A clock of nanoseconds that wraps between the second and the third cycle. -/
theorem polls_cadence_wrapped :
    statsPolls (statsPollTicks 1 1) (hiresTicks (2 ^ 64 - 300000000))
        [2 ^ 64 - 200000000, 2 ^ 64 - 40000000, 2 ^ 64 + 150000000, 2 ^ 64 + 300000000] =
      [2 ^ 64 - 40000000, 2 ^ 64 + 300000000] ∧
    2 ^ 64 + 300000000 < (([2 ^ 64 - 300000000, 2 ^ 64 - 40000000, 2 ^ 64 + 300000000] : List Nat).getLast (by decide)) +
      250000000 := by
  have hpolls : statsPolls (statsPollTicks 1 1) (hiresTicks (2 ^ 64 - 300000000))
      [2 ^ 64 - 200000000, 2 ^ 64 - 40000000, 2 ^ 64 + 150000000, 2 ^ 64 + 300000000] =
        [2 ^ 64 - 40000000, 2 ^ 64 + 300000000] := by
    decide +kernel
  have htimes : List.IsChain (fun a b => a ≤ b ∧ b ≤ a + 200000000)
      [2 ^ 64 - 300000000, 2 ^ 64 - 200000000, 2 ^ 64 - 40000000, 2 ^ 64 + 150000000, 2 ^ 64 + 300000000] := by decide
  have hsome : 0 < (statsPollTicks 1 1).toNat := by decide
  obtain ⟨-, hlast⟩ := polls_cadence hsome (by decide) htimes
  simp only [hpolls] at hlast
  exact ⟨hpolls, hlast⟩

end P8
