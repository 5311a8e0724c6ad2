/-!
# Runs: invariants and step properties along the runs of a fallible machine

A machine is a step function that may fail. `run` takes a list of inputs and stops at the first failure. Two forms of statement
about a run are used: that every state it reaches has a property (`run_induction`), and that every step it takes, the failing
one included, is as a relation says (`Along`). `along_iff` turns an equivalence of two such relations, step by step, into one
of whole runs: it is how a property that fails on some runs is shown to hold on exactly those whose steps meet a condition. Where
the failure shows only some steps behind the one that causes it, `Along.imp` and `Along.of_pending` are the two directions.
-/

namespace Runs

variable {σ ι ε : Type} (step : σ → ι → Except ε σ)

/-- The state after a run of inputs, if no step of it fails. -/
def run (s : σ) : List ι → Except ε σ
  | [] => .ok s
  | i :: is =>
    match step s i with
    | .ok s' => run s' is
    | .error e => .error e

/-- Every step of a run is as `R` says; `R` sees the state, the input and the outcome. -/
def Along (R : σ → ι → Except ε σ → Prop) : σ → List ι → Prop
  | _, [] => True
  | s, i :: is => R s i (step s i) ∧ ∀ s', step s i = .ok s' → Along R s' is

/-- How many steps of a run are as `P` says. -/
def count (P : σ → ι → Bool) : σ → List ι → Nat
  | _, [] => 0
  | s, i :: is =>
    (if P s i then 1 else 0) +
      match step s i with
      | .ok s' => count P s' is
      | .error _ => 0

variable {step}

/-- What is computed of an outcome is a property of a state. -/
theorem ok_of_any {α δ : Type} {x : Except δ α} {p : α → Bool} (h : x.toOption.any p = true) : ∃ a, x = .ok a ∧ p a = true := by
  cases x with
  | error e => cases h
  | ok a => exact ⟨a, rfl, h⟩

/-- A run goes on behind a step that does not fail. -/
theorem run_step {s s' : σ} {i : ι} (h : step s i = .ok s') (is : List ι) : run step s (i :: is) = run step s' is := by
  rw [run, h]

/-- A run that has an end begins with a step that does not fail. -/
theorem run_cons {s s' : σ} {i : ι} {is : List ι} (h : run step s (i :: is) = .ok s') :
    ∃ s₁, step s i = .ok s₁ ∧ run step s₁ is = .ok s' := by
  rw [run] at h
  cases hs : step s i with
  | error e =>
    rw [hs] at h
    cases h
  | ok s₁ =>
    rw [hs] at h
    exact ⟨s₁, rfl, h⟩

/-- A step at the end of a run. -/
theorem run_snoc (s : σ) (is : List ι) (i : ι) : run step s (is ++ [i]) = run step s is >>= fun s' => step s' i := by
  induction is generalizing s with
  | nil =>
    show run step s [i] = step s i
    cases h : step s i <;> simp [run, h]
  | cons j is ih =>
    rw [List.cons_append, run, run]
    cases step s j with
    | error e => rfl
    | ok s' => exact ih s'

/-- Two runs, one behind the other. -/
theorem run_append {s s' : σ} {is : List ι} (h : run step s is = .ok s') (js : List ι) :
    run step s (is ++ js) = run step s' js := by
  induction is generalizing s with
  | nil =>
    cases h
    rfl
  | cons i is ih =>
    obtain ⟨s₁, hs, hr⟩ := run_cons h
    rw [List.cons_append, run_step hs, ih hr]

/-- A machine whose every step another one matches by a run, from related states to related states: so it is with its runs. -/
theorem run_simulates {τ κ δ : Type} {step' : τ → κ → Except δ τ} {R : σ → τ → Prop}
    (hstep : ∀ s t i s', R s t → step s i = .ok s' → ∃ ks t', run step' t ks = .ok t' ∧ R s' t') {s s' : σ} {t : τ}
    (h : R s t) {is : List ι} (hr : run step s is = .ok s') : ∃ ks t', run step' t ks = .ok t' ∧ R s' t' := by
  induction is generalizing s t with
  | nil =>
    cases hr
    exact ⟨[], t, rfl, h⟩
  | cons i is ih =>
    obtain ⟨s₁, hs, hr⟩ := run_cons hr
    obtain ⟨ks, t₁, hks, h₁⟩ := hstep s t i s₁ h hs
    obtain ⟨ks', t', hks', h'⟩ := ih h₁ hr
    exact ⟨ks ++ ks', t', (run_append hks ks').trans hks', h'⟩

/-- What every step keeps holds after a run. -/
theorem run_induction {P : σ → Prop} {s s' : σ} (h : P s) (hstep : ∀ s i s', P s → step s i = .ok s' → P s')
    {is : List ι} (hr : run step s is = .ok s') : P s' := by
  induction is generalizing s with
  | nil =>
    cases hr
    exact h
  | cons i is ih =>
    obtain ⟨s₁, hs, hr⟩ := run_cons hr
    exact ih (hstep s i s₁ h hs) hr

/-- What goes up by one with each step of a kind, where an invariant holds, counts these steps. -/
theorem count_eq {P : σ → ι → Bool} {I : σ → Prop} (φ : σ → Nat)
    (hstep : ∀ s i s', I s → step s i = .ok s' → I s' ∧ φ s' = φ s + if P s i then 1 else 0)
    {s s' : σ} {is : List ι} (h : I s) (hr : run step s is = .ok s') : φ s' = φ s + count step P s is := by
  induction is generalizing s with
  | nil =>
    cases hr
    rfl
  | cons i is ih =>
    obtain ⟨s₁, hs, hr⟩ := run_cons hr
    obtain ⟨h₁, hone⟩ := hstep s i s₁ h hs
    rw [ih h₁ hr, hone, count, hs, Nat.add_assoc]

/-- Steps that use up what other steps bring: there are not more of them on a run. `φ` is what is there. -/
theorem count_le {P Q : σ → ι → Bool} (φ : σ → Nat)
    (hstep : ∀ s i s', step s i = .ok s' → (if P s i then 1 else 0) + φ s' ≤ φ s + if Q s i then 1 else 0) {s s' : σ}
    {is : List ι} (hr : run step s is = .ok s') : count step P s is + φ s' ≤ φ s + count step Q s is := by
  induction is generalizing s with
  | nil =>
    cases hr
    simp [count]
  | cons i is ih =>
    obtain ⟨s₁, hs, hr⟩ := run_cons hr
    have hone := hstep s i s₁ hs
    have hrest := ih hr
    rw [count, count, hs]
    dsimp only
    omega

/-- Every step of two runs, one behind the other. -/
theorem along_append {R : σ → ι → Except ε σ → Prop} {s s' : σ} {is js : List ι} (ha : Along step R s (is ++ js))
    (hr : run step s is = .ok s') : Along step R s is ∧ Along step R s' js := by
  induction is generalizing s with
  | nil =>
    cases hr
    exact ⟨trivial, ha⟩
  | cons i is ih =>
    obtain ⟨hR, hrest⟩ := ha
    obtain ⟨s₁, hs, hr⟩ := run_cons hr
    obtain ⟨hfirst, hsecond⟩ := ih (hrest s₁ hs) hr
    refine ⟨⟨hR, fun s₂ hs₂ => ?_⟩, hsecond⟩
    cases hs.symm.trans hs₂
    exact hfirst

/-- A run on which a property goes on by one stage with each step that counts. -/
theorem Along.count_induction {R : σ → ι → Except ε σ → Prop} {P : σ → ι → Bool} {Q : Nat → σ → Prop} {s s' : σ} {n : Nat}
    {is : List ι} (ha : Along step R s is) (h : Q n s)
    (hstep : ∀ n s i s', Q n s → step s i = .ok s' → R s i (.ok s') → Q (n + if P s i then 1 else 0) s')
    (hr : run step s is = .ok s') : Q (n + count step P s is) s' := by
  induction is generalizing n s with
  | nil =>
    cases hr
    exact h
  | cons i is ih =>
    obtain ⟨hR, hrest⟩ := ha
    obtain ⟨s₁, hs, hr⟩ := run_cons hr
    rw [hs] at hR
    have hnext := ih (hrest s₁ hs) (hstep n s i s₁ h hs hR) hr
    rw [count, hs, ← Nat.add_assoc]
    exact hnext

/-- What every step of a run keeps that is as `R` says holds after the run. -/
theorem Along.induction {P : σ → Prop} {R : σ → ι → Except ε σ → Prop} {s s' : σ} {is : List ι}
    (ha : Along step R s is) (h : P s) (hstep : ∀ s i s', P s → step s i = .ok s' → R s i (.ok s') → P s')
    (hr : run step s is = .ok s') : P s' := by
  induction is generalizing s with
  | nil =>
    cases hr
    exact h
  | cons i is ih =>
    obtain ⟨hR, hrest⟩ := ha
    obtain ⟨s₁, hs, hr⟩ := run_cons hr
    rw [hs] at hR
    exact ih (hrest s₁ hs) (hstep s i s₁ h hs hR) hr

instance Along.decidable {R : σ → ι → Except ε σ → Prop} [∀ s i r, Decidable (R s i r)] :
    (s : σ) → (is : List ι) → Decidable (Along step R s is)
  | _, [] => isTrue trivial
  | s, i :: is =>
    match h : step s i with
    | .error e => decidable_of_iff (R s i (.error e)) (by rw [Along, h]; simp)
    | .ok s' =>
      have := Along.decidable (R := R) s' is
      decidable_of_iff (R s i (.ok s') ∧ Along step R s' is) (by rw [Along, h]; simp)

/-- A property of every input of a list is one of every step of its run. -/
theorem along_of_forall {P : ι → Prop} {s : σ} {is : List ι} (h : ∀ i ∈ is, P i) :
    Along step (fun _ i _ => P i) s is := by
  induction is generalizing s with
  | nil => trivial
  | cons i is ih => exact ⟨h i List.mem_cons_self, fun _ _ => ih (fun j hj => h j (List.mem_cons_of_mem i hj))⟩

/-- What is said of every step of a run, from a state with the invariant `I` that such steps keep, may be weakened. -/
theorem Along.imp {R Q : σ → ι → Except ε σ → Prop} {I : σ → Prop} {s : σ} {is : List ι} (ha : Along step R s is)
    (himp : ∀ s i, I s → R s i (step s i) → Q s i (step s i))
    (hkeep : ∀ s i s', I s → step s i = .ok s' → R s i (.ok s') → I s') (hs : I s) : Along step Q s is := by
  induction is generalizing s with
  | nil => trivial
  | cons i is ih =>
    obtain ⟨hR, hrest⟩ := ha
    refine ⟨himp s i hs hR, fun s₁ hs₁ => ih (hrest s₁ hs₁) (hkeep s i s₁ hs hs₁ ?_)⟩
    rwa [hs₁] at hR

/-- A step that is not as `P` says leaves something pending, and so do steps as `Q` says where something is: if nothing is pending
in the end, all steps were as `P` says. -/
theorem Along.of_pending {P Q : σ → ι → Except ε σ → Prop} {I : σ → Prop} {s s' : σ} {is : List ι}
    (ha : Along step Q s is) (Pending : σ → Prop) (hkeep : ∀ s i s', I s → step s i = .ok s' → I s')
    (hpend : ∀ s i s', I s → step s i = .ok s' → Q s i (.ok s') → Pending s ∨ ¬ P s i (.ok s') → Pending s')
    (hs : I s) (hr : run step s is = .ok s') (hend : ¬ Pending s') : ¬ Pending s ∧ Along step P s is := by
  induction is generalizing s with
  | nil =>
    cases hr
    exact ⟨hend, trivial⟩
  | cons i is ih =>
    obtain ⟨hQ, hrest⟩ := ha
    obtain ⟨s₁, hs₁, hr⟩ := run_cons hr
    obtain ⟨hno, hP⟩ := ih (hrest s₁ hs₁) (hkeep s i s₁ hs hs₁) hr
    rw [hs₁] at hQ
    have hstep : ¬ (Pending s ∨ ¬ P s i (.ok s₁)) := fun h => hno (hpend s i s₁ hs hs₁ hQ h)
    refine ⟨fun h => hstep (Or.inl h), ?_, fun s₂ hs₂ => ?_⟩
    · rw [hs₁]
      exact Classical.byContradiction (fun h => hstep (Or.inr h))
    · cases hs₁.symm.trans hs₂
      exact hP

/-- A property that every step of a run leaves behind is one of every state the run reaches. -/
theorem along_reached_iff {P : σ → Prop} {s : σ} (h : P s) (is : List ι) :
    Along step (fun _ _ r => ∀ s', r = .ok s' → P s') s is ↔ ∀ n s', run step s (is.take n) = .ok s' → P s' := by
  induction is generalizing s with
  | nil =>
    refine iff_of_true trivial (fun n s' hr => ?_)
    rw [List.take_nil] at hr
    cases hr
    exact h
  | cons i is ih =>
    constructor
    · rintro ⟨hP, hrest⟩ n s' hr
      cases n with
      | zero =>
        cases hr
        exact h
      | succ n =>
        obtain ⟨s₁, hs, hr⟩ := run_cons hr
        exact (ih (hP s₁ hs)).mp (hrest s₁ hs) n s' hr
    · intro hall
      have hone : ∀ s₁, step s i = .ok s₁ → P s₁ := fun s₁ hs => hall 1 s₁ (by rw [List.take_succ_cons, run_step hs]; rfl)
      refine ⟨hone, fun s₁ hs => (ih (hone s₁ hs)).mpr (fun n s' hr => ?_)⟩
      exact hall (n + 1) s' (by rw [List.take_succ_cons, run_step hs]; exact hr)

/-- A run whose steps do not fail has an end. -/
theorem Along.run_ok {R : σ → ι → Except ε σ → Prop} {s : σ} {is : List ι} (ha : Along step R s is)
    (hok : ∀ s i e, ¬ R s i (.error e)) : ∃ s', run step s is = .ok s' := by
  induction is generalizing s with
  | nil => exact ⟨s, rfl⟩
  | cons i is ih =>
    obtain ⟨hR, hrest⟩ := ha
    rw [run]
    cases hs : step s i with
    | error e =>
      rw [hs] at hR
      exact absurd hR (hok s i e)
    | ok s₁ => exact ih (hrest s₁ hs)

/-- A step that brings the state closer to `Q`, taken again and again, leads to it. -/
theorem run_until {I Q : σ → Prop} {i : ι} (μ : σ → Nat)
    (hstep : ∀ s, I s → ¬ Q s → ∃ s', step s i = .ok s' ∧ I s' ∧ μ s' < μ s) {s : σ} (hs : I s) :
    ∃ n s', run step s (List.replicate n i) = .ok s' ∧ I s' ∧ Q s' := by
  induction h : μ s using Nat.strongRecOn generalizing s with
  | ind m ih =>
    by_cases hQ : Q s
    · exact ⟨0, s, rfl, hs, hQ⟩
    · obtain ⟨s₁, hs₁, hI, hlt⟩ := hstep s hs hQ
      obtain ⟨n, s', hr, hI', hQ'⟩ := ih (μ s₁) (h ▸ hlt) hI rfl
      exact ⟨n + 1, s', by rw [List.replicate_succ, run_step hs₁, hr], hI', hQ'⟩

/-- Two relations that say the same of every step from a state with the invariant `I`, where a step that is as they say keeps
`I`, say the same of every run. -/
theorem along_iff {R Q : σ → ι → Except ε σ → Prop} {I : σ → Prop}
    (hiff : ∀ s i, I s → (R s i (step s i) ↔ Q s i (step s i)))
    (hkeep : ∀ s i s', I s → step s i = .ok s' → R s i (.ok s') → I s') {s : σ} (hs : I s) (is : List ι) :
    Along step R s is ↔ Along step Q s is := by
  induction is generalizing s with
  | nil => exact Iff.rfl
  | cons i is ih =>
    rw [Along, Along, hiff s i hs]
    refine and_congr_right (fun hQ => forall_congr' fun s' => forall_congr' fun hs' => ?_)
    have hR := (hiff s i hs).mpr hQ
    rw [hs'] at hR
    exact ih (hkeep s i s' hs hs' hR)

end Runs
