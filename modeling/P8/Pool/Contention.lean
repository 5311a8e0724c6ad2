import P8.Pool.Conservation

/-!
# Contention: pools that race for the budget

`try_reserve` reads what the budget has lent, and exchanges it for the sum if nobody has changed it since. Two things a caller
relies on are not to be seen in one round of that loop. A pool goes round again, other than for a spurious failure, at most once
for each change another pool makes (`retries_le`): no pool waits for another one that stands still. And where the loop gives up,
what it has read was true at some moment of the same call (`refusal_justified`): a pool is not refused because of values of
different moments.
-/

namespace P8

namespace PoolSys

variable {B T : Type} [DecidableEq B] [DecidableEq T] {b b' : Budget} {s s' : PoolSys B T} {e : PoolEv B T}

omit [DecidableEq B] in
/-- An operation that has its buffer, or needs none, is not in the loop. -/
theorem grown_check (s : PoolSys B T) (j j' : Job T) (current : Nat) : (s.grown j).pc ≠ .check j' current := by
  have hpull := (s.pullFirst_same j).2.2
  unfold grown
  cases j with
  | init left =>
    dsimp only
    split <;> simp
  | acquire => exact fun h => (by cases hpull.symm.trans h)
  | wait t => exact fun h => (by cases hpull.symm.trans h)

omit [DecidableEq B] in
/-- A request does not go straight to the exchange. -/
theorem request_check (s : PoolSys B T) (j j' : Job T) (current : Nat) : (s.request j).pc ≠ .check j' current := by
  unfold request
  split
  · simp
  · exact fun h => (by cases (s.pullFirst_same j).2.2.symm.trans h)

/-- A pool that is in the loop has been there before, with the same value, or it has just read it. -/
theorem check_cases (hs : s.step b e = .ok (b', s')) {j : Job T} {current : Nat} (hpc : s'.pc = .check j current) :
    b' = b ∧ (current = b.used ∨
      s.pc = .check j current ∧ s'.pool.bufferSize = s.pool.bufferSize ∧ e ≠ .load ∧ ∀ spurious, e ≠ .tryReserve spurious) := by
  have hidle : s'.pc ≠ .idle := by simp [hpc]
  cases step_cases hs with
  | initNone hopen => exact absurd hopen.1 hidle
  | init count hopen => cases hpc
  | acquire hopen | acquireWait t hopen ht => exact absurd hpc (request_check _ _ _ _)
  | load j hpc₀ =>
    cases hpc
    exact ⟨rfl, Or.inl rfl⟩
  | refused spurious j current hpc₀ hround => exact absurd (s.refuse_same j).2.2 hidle
  | reserved spurious j current b' hpc₀ hround => cases hpc
  | again spurious j current₀ next hpc₀ hround =>
    cases hpc
    exact ⟨rfl, Or.inl (Budget.again_spec hround)⟩
  | alloc j x hpc₀ => exact absurd hpc (grown_check _ _ _ _)
  | allocFailed j hpc₀ => cases hpc
  | giveBack j hpc₀ => exact absurd (s.refuse_same j).2.2 hidle
  | recycle bufs pool cvs hopen hnodup hheld hp => exact absurd hopen.1 hidle
  | stopWaiters hopen => exact absurd hopen.1 hidle
  | wakeUp t ht => exact ⟨rfl, Or.inr ⟨hpc, rfl, fun h => (by cases h), fun _ h => by cases h⟩⟩
  | unlock t hopen ht hawake hdone => exact absurd hopen.1 hidle
  | sleep t hopen ht hawake hdone => exact absurd hopen.1 hidle
  | leave t ht hdtor => exact ⟨rfl, Or.inr ⟨hpc, rfl, fun h => (by cases h), fun _ h => by cases h⟩⟩
  | dtorStop hopen hdtor => exact absurd hopen.1 hidle
  | dtorBarrier hdtor hinflight => exact ⟨rfl, Or.inr ⟨hpc, rfl, fun h => (by cases h), fun _ h => by cases h⟩⟩
  | dtorClear hopen hdtor => cases hpc
  | dtorRelease bytes hpc₀ => cases hpc

/-- The pool is in the loop with a value that is not what the budget has lent any more. -/
def stale (b : Budget) (s : PoolSys B T) : Nat :=
  match s.pc with
  | .check _ current => if current = b.used then 0 else 1
  | _ => 0

/-- The next round of the loop goes on to another one, though the exchange does not fail spuriously. -/
def again (b : Budget) (s : PoolSys B T) : Bool :=
  match s.pc with
  | .check _ current =>
    match b.tryReserveRound s.pool.bufferSize current false with
    | .again _ => true
    | .refused | .reserved _ => false
  | _ => false

omit [DecidableEq B] [DecidableEq T] in
/-- The exchange fails only on a stale value. -/
theorem stale_of_again (h : s.again b = true) : s.stale b = 1 := by
  unfold again at h
  unfold stale
  cases hpc : s.pc with
  | check j current =>
    rw [hpc] at h
    dsimp only at h ⊢
    refine if_neg fun heq => ?_
    subst heq
    unfold Budget.tryReserveRound at h
    split at h
    · rename_i hround
      split at hround
      · cases hround
      · rw [if_pos ⟨rfl, rfl⟩] at hround
        cases hround
    · cases h
    · cases h
  | _ =>
    rw [hpc] at h
    cases h

omit [DecidableEq B] [DecidableEq T] in
/-- The loop holds one outdated value at most. -/
theorem stale_le (b : Budget) (s : PoolSys B T) : s.stale b ≤ 1 := by
  unfold stale
  split
  · split <;> simp
  · exact Nat.zero_le 1

/-- A pool's own step leaves its value as stale as it was, and a round of the loop leaves a fresh one. -/
theorem stale_step (hs : s.step b e = .ok (b', s')) :
    s'.stale b' ≤ s.stale b ∧ ∀ spurious, e = .tryReserve spurious → s'.stale b' = 0 := by
  cases hpc : s'.pc with
  | check j current =>
    obtain ⟨rfl, hread | ⟨hsame, -, -, hnot⟩⟩ := check_cases hs hpc
    · have hfresh : s'.stale b' = 0 := by
        rw [stale, hpc]
        exact if_pos hread
      exact ⟨hfresh ▸ Nat.zero_le _, fun _ _ => hfresh⟩
    · refine ⟨?_, fun spurious he => absurd he (hnot spurious)⟩
      rw [stale, stale, hpc, hsame]
  | _ =>
    have hnone : s'.stale b' = 0 := by rw [stale, hpc]
    exact ⟨hnone ▸ Nat.zero_le _, fun _ _ => hnone⟩

end PoolSys

namespace Pools

variable {ι B T : Type} [Fintype ι] [DecidableEq ι] [DecidableEq B] [DecidableEq T] {max : Nat} {s s' : Pools ι B T}

/-- The step is a round of the loop of pool `i` that goes on to another one, though the exchange does not fail spuriously. -/
def retries (i : ι) (s : Pools ι B T) : ι × PoolEv B T → Bool
  | (k, .tryReserve false) => k == i && (s.pools i).again s.budget
  | _ => false

/-- The step is one of another pool, and changes what the budget has lent. -/
def disturbs (i : ι) (s : Pools ι B T) (ev : ι × PoolEv B T) : Bool :=
  ev.1 != i &&
    match s.step ev with
    | .ok s' => s'.budget.used != s.budget.used
    | .error _ => false

/-- One step: a retry uses up a stale value, and only another pool makes a new one. -/
theorem retries_step {i : ι} {ev : ι × PoolEv B T} (hs : s.step ev = .ok s') :
    (if retries i s ev then 1 else 0) + (s'.pools i).stale s'.budget ≤
      (s.pools i).stale s.budget + if disturbs i s ev then 1 else 0 := by
  obtain ⟨k, e⟩ := ev
  obtain ⟨-, b, p, hp, rfl⟩ := step_eq_ok hs
  by_cases hk : k = i
  · subst hk
    dsimp only
    rw [Function.update_self]
    obtain ⟨hle, hfresh⟩ := PoolSys.stale_step hp
    by_cases hretry : retries k s (k, e) = true
    · rw [if_pos hretry]
      obtain ⟨spurious, rfl, hagain⟩ : ∃ spurious, e = .tryReserve spurious ∧ (s.pools k).again s.budget = true := by
        unfold retries at hretry
        split at hretry
        · rename_i heq
          cases heq
          exact ⟨false, rfl, (Bool.and_eq_true_iff.mp hretry).2⟩
        · cases hretry
      rw [hfresh spurious rfl, PoolSys.stale_of_again hagain]
      exact Nat.le_add_right _ _
    · rw [if_neg hretry]
      omega
  · have hretry : retries i s (k, e) = false := by
      unfold retries
      split
      · rename_i heq
        cases heq
        rw [beq_eq_false_iff_ne.mpr hk, Bool.false_and]
      · rfl
    have hdisturbs : disturbs i s (k, e) = (b.used != s.budget.used) := by
      rw [disturbs, hs, bne_iff_ne.mpr hk, Bool.true_and]
    rw [hretry, hdisturbs]
    dsimp only
    rw [Function.update_of_ne (Ne.symm hk)]
    by_cases hused : b.used = s.budget.used
    · have hsame : (s.pools i).stale b = (s.pools i).stale s.budget := by
        rw [PoolSys.stale, PoolSys.stale, hused]
      simp [hsame]
    · have hle := (s.pools i).stale_le b
      rw [if_pos (bne_iff_ne.mpr hused)]
      simp only [Bool.false_eq_true, if_false]
      omega

/-- No pool waits for another one that stands still: on every run, the exchanges of a pool that have failed, other than
spuriously, are not more than the changes the other pools have made to the budget. -/
theorem retries_le (size : ι → Nat) (i : ι) {evs : List (ι × PoolEv B T)}
    (hr : (Pools.init max size : Pools ι B T).run evs = .ok s) :
    Runs.count step (retries i) (Pools.init max size) evs ≤ Runs.count step (disturbs i) (Pools.init max size) evs := by
  have hcount := Runs.count_le (P := retries i) (Q := disturbs i) (fun s : Pools ι B T => (s.pools i).stale s.budget)
    (fun _ _ _ hs => retries_step hs) hr
  have hinit : ((Pools.init max size : Pools ι B T).pools i).stale (Pools.init max size : Pools ι B T).budget = 0 := rfl
  omega

/-- What a pool in the loop compares with was what the budget had lent at a moment of the same call. -/
theorem read_then (size : ι → Nat) (evs : List (ι × PoolEv B T)) {i : ι} {j : Job T} {current : Nat}
    (hr : (Pools.init max size : Pools ι B T).run evs = .ok s) (hpc : (s.pools i).pc = .check j current) :
    ∃ pre post s₀, evs = pre ++ post ∧ (Pools.init max size : Pools ι B T).run pre = .ok s₀ ∧
      (s₀.pools i).pc = .check j current ∧ s₀.budget.used = current ∧
      ∀ ev ∈ post, ev.1 = i → ev.2 ≠ .load ∧ ∀ spurious, ev.2 ≠ .tryReserve spurious := by
  induction evs using List.reverseRecOn generalizing s with
  | nil =>
    cases hr
    cases hpc
  | append_singleton evs ev ih =>
    obtain ⟨s₁, hr₁, hs⟩ : ∃ s₁, (Pools.init max size : Pools ι B T).run evs = .ok s₁ ∧ s₁.step ev = .ok s := by
      rw [Pools.run, Runs.run_snoc] at hr
      cases h : Runs.run step (Pools.init max size : Pools ι B T) evs with
      | error e =>
        rw [h] at hr
        cases hr
      | ok s₁ =>
        rw [h] at hr
        exact ⟨s₁, h, hr⟩
    have hearlier : (s₁.pools i).pc = .check j current →
        (ev.1 = i → ev.2 ≠ .load ∧ ∀ spurious, ev.2 ≠ .tryReserve spurious) →
        ∃ pre post s₀, evs ++ [ev] = pre ++ post ∧ (Pools.init max size : Pools ι B T).run pre = .ok s₀ ∧
          (s₀.pools i).pc = .check j current ∧ s₀.budget.used = current ∧
          ∀ ev ∈ post, ev.1 = i → ev.2 ≠ .load ∧ ∀ spurious, ev.2 ≠ .tryReserve spurious := by
      intro hpc₁ hev
      obtain ⟨pre, post, s₀, rfl, hr₀, hpc₀, hused, hpost⟩ := ih hr₁ hpc₁
      refine ⟨pre, post ++ [ev], s₀, List.append_assoc .., hr₀, hpc₀, hused, fun e he => ?_⟩
      rcases List.mem_append.mp he with he | he
      · exact hpost e he
      · exact List.mem_singleton.mp he ▸ hev
    obtain ⟨k, e⟩ := ev
    obtain ⟨-, b, p, hp, rfl⟩ := step_eq_ok hs
    by_cases hk : k = i
    · subst hk
      dsimp only at hpc
      rw [Function.update_self] at hpc
      obtain ⟨rfl, hread | ⟨hsame, -, hload, htry⟩⟩ := PoolSys.check_cases hp hpc
      · refine ⟨evs ++ [(k, e)], [], _, (List.append_nil _).symm, hr, ?_, hread.symm, fun _ h => (by cases h)⟩
        dsimp only
        rw [Function.update_self]
        exact hpc
      · exact hearlier hsame fun _ => ⟨hload, htry⟩
    · dsimp only at hpc
      rw [Function.update_of_ne (Ne.symm hk)] at hpc
      exact hearlier hpc fun heq => absurd heq hk

/-- A refusal is justified: when the loop of a pool gives up, the budget had no room for a buffer of the pool at a moment since the
pool last read it, whatever other pools have reserved and released before and after. -/
theorem refusal_justified (hmax : max < 2 ^ 64) (size : ι → Nat) {evs : List (ι × PoolEv B T)} {i : ι} {j : Job T}
    {current : Nat} {spurious : Bool} (hr : (Pools.init max size : Pools ι B T).run evs = .ok s)
    (hpc : (s.pools i).pc = .check j current)
    (hround : s.budget.tryReserveRound (s.pools i).pool.bufferSize current spurious = .refused) :
    ∃ pre post s₀, evs = pre ++ post ∧ (Pools.init max size : Pools ι B T).run pre = .ok s₀ ∧
      (s₀.pools i).pc = .check j current ∧ max < s₀.budget.used + (s.pools i).pool.bufferSize ∧
      ∀ ev ∈ post, ev.1 = i → ev.2 ≠ .load ∧ ∀ spurious, ev.2 ≠ .tryReserve spurious := by
  obtain ⟨pre, post, s₀, hevs, hr₀, hpc₀, hused, hpost⟩ := read_then size evs hr hpc
  have hinv := (inv_init max size).run hmax hr
  have hfull := Budget.refused_spec (hinv.max_eq ▸ hmax) hround
  rw [hinv.max_eq, ← hused] at hfull
  exact ⟨pre, post, s₀, hevs, hr₀, hpc₀, hfull, hpost⟩

/-- Two pools that read an empty budget of one buffer; the second gets it first, and the first goes round once before it gives up,
at a moment when the second has given the buffer back. -/
def raced : List (Bool × PoolEv Nat Nat) :=
  [(false, .acquire), (true, .acquire), (false, .load), (true, .load), (true, .tryReserve false), (false, .tryReserve false),
    (true, .alloc none), (true, .giveBack)]

/-- On this run the first pool goes round once, for one disturbance. -/
theorem retries_le_raced : ∃ s, (Pools.init 8 (fun _ => 8) : Pools (Bool) Nat Nat).run raced = .ok s ∧
    Runs.count step (retries false) (Pools.init 8 (fun _ => 8)) raced = 1 ∧
    1 ≤ Runs.count step (disturbs false) (Pools.init 8 (fun _ => 8) : Pools (Bool) Nat Nat) raced := by
  have hrun : ((Pools.init 8 (fun _ => 8) : Pools (Bool) Nat Nat).run raced).toOption.any (fun _ => true) = true := by
    decide +kernel
  have hone : Runs.count step (retries false) (Pools.init 8 (fun _ => 8) : Pools (Bool) Nat Nat) raced = 1 := by decide +kernel
  obtain ⟨s, hr, -⟩ := Runs.ok_of_any hrun
  have hle := retries_le (fun _ => 8) false hr
  rw [hone] at hle
  exact ⟨s, hr, hone, hle⟩

/-- On this run it gives up though nothing is lent any more, and the moment that justifies it lies in between. -/
theorem refusal_justified_raced : ∃ s, (Pools.init 8 (fun _ => 8) : Pools (Bool) Nat Nat).run raced = .ok s ∧
    s.budget.used = 0 ∧ (s.pools false).pc = .check .acquire 8 ∧
    ∃ pre post s₀, raced = pre ++ post ∧ (Pools.init 8 (fun _ => 8) : Pools (Bool) Nat Nat).run pre = .ok s₀ ∧
      8 < s₀.budget.used + (s.pools false).pool.bufferSize := by
  have hrun : ((Pools.init 8 (fun _ => 8) : Pools (Bool) Nat Nat).run raced).toOption.any (fun s =>
      decide (s.budget.used = 0 ∧ (s.pools false).pc = .check .acquire 8 ∧ s.budget.max = 8 ∧ (s.pools false).pool.bufferSize = 8)) =
        true := by
    decide +kernel
  obtain ⟨s, hr, hs⟩ := Runs.ok_of_any hrun
  obtain ⟨hused, hpc, hmax, hsize⟩ := of_decide_eq_true hs
  have hround : s.budget.tryReserveRound (s.pools false).pool.bufferSize 8 false = .refused := by
    rw [Budget.tryReserveRound, hmax, hsize]
    exact if_pos (Or.inr (by decide))
  obtain ⟨pre, post, s₀, hevs, hr₀, -, hfull, -⟩ := refusal_justified (by decide) (fun _ => 8) hr hpc hround
  exact ⟨s, hr, hused, hpc, pre, post, s₀, hevs, hr₀, hfull⟩

end Pools

end P8
