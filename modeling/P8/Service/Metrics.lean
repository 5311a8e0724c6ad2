import P8.Service.Stream

/-!
# Metrics: a metric registered again

What a core knows of a metric once a call of `register_mtk` has returned its id: a descriptor that equals the definition of the
call, at the position the id says. No step of the core changes it, so a later call under the name compares with the same
definition, field by field. The fields `min` and `max` are compared as numbers, and that comparison is not an equality of
doubles: a NaN differs from itself, and a zero does not from the zero of the other sign.
-/

namespace P8

open NameTable Registries

/-! ## The comparison of doubles -/

/-- A double without its sign. -/
def f64Abs (a : UInt64) : UInt64 := a &&& 0x7FFFFFFFFFFFFFFF

/-- The same double, up to the sign of a zero. -/
def F64Alike (a b : UInt64) : Prop := a = b ∨ f64Abs a = 0 ∧ f64Abs b = 0

instance (a b : UInt64) : Decidable (F64Alike a b) := inferInstanceAs (Decidable (a = b ∨ f64Abs a = 0 ∧ f64Abs b = 0))

/-- Two numbers are both zero exactly when their bits together are. -/
theorem f64Abs_or (a b : UInt64) : f64Abs (a ||| b) = 0 ↔ f64Abs a = 0 ∧ f64Abs b = 0 := by
  have hdistrib : f64Abs (a ||| b) = f64Abs a ||| f64Abs b := by
    refine UInt64.toBitVec_inj.mp (BitVec.eq_of_getElem_eq (fun i hi => ?_))
    simp [f64Abs, Bool.and_or_distrib_right]
  rw [hdistrib, UInt64.or_eq_zero_iff]

/-- Numbers that compare alike are NaN together. -/
theorem F64Alike.isNan_eq {a b : UInt64} (h : F64Alike a b) : f64IsNan a = f64IsNan b := by
  rcases h with rfl | ⟨ha, hb⟩
  · rfl
  · have hnan : ∀ c : UInt64, f64Abs c = 0 → f64IsNan c = false := by
      intro c hc
      have hc : c &&& 0x7FFFFFFFFFFFFFFF = 0 := hc
      rw [f64IsNan, hc]
      rfl
    rw [hnan a ha, hnan b hb]

/-- Doubles compare equal that are numbers, and the same up to the sign of a zero. -/
theorem f64Eq_iff (a b : UInt64) : f64Eq a b = true ↔ F64Alike a b ∧ f64IsNan b = false := by
  have hzero : ((a ||| b) &&& 0x7FFFFFFFFFFFFFFF == 0) = true ↔ f64Abs a = 0 ∧ f64Abs b = 0 := by
    rw [← f64Abs_or, beq_iff_eq]
    rfl
  rw [f64Eq, Bool.and_eq_true, Bool.and_eq_true, Bool.or_eq_true, hzero, beq_iff_eq, Bool.not_eq_true', Bool.not_eq_true']
  constructor
  · rintro ⟨⟨-, hb⟩, halike⟩
    exact ⟨halike, hb⟩
  · rintro ⟨halike, hb⟩
    exact ⟨⟨F64Alike.isNan_eq halike ▸ hb, hb⟩, halike⟩

/-- What is compared with one of two alike numbers compares with the other. -/
theorem F64Alike.trans_left {a b : UInt64} (h : F64Alike a b) (c : UInt64) : F64Alike a c ↔ F64Alike b c := by
  rcases h with rfl | ⟨ha, hb⟩
  · exact Iff.rfl
  · have hside : ∀ d : UInt64, f64Abs d = 0 → (F64Alike d c ↔ f64Abs c = 0) := by
      intro d hd
      constructor
      · rintro (rfl | ⟨-, hc⟩)
        · exact hd
        · exact hc
      · exact fun hc => Or.inr ⟨hd, hc⟩
    rw [hside a ha, hside b hb]

/-! ## Definitions -/

/-- The same definition: the same description, unit and on-state, and bit for bit the same minimum and maximum. -/
def MtkBase.Same (b b' : MtkBase) : Prop :=
  b.description = b'.description ∧ b.unit = b'.unit ∧ b.on = b'.on ∧ b.min = b'.min ∧ b.max = b'.max

instance (b b' : MtkBase) : Decidable (b.Same b') :=
  inferInstanceAs (Decidable (b.description = b'.description ∧ b.unit = b'.unit ∧ b.on = b'.on ∧ b.min = b'.min ∧
    b.max = b'.max))

/-- The same definition, up to the sign of a zero minimum or maximum. -/
def MtkBase.Alike (b b' : MtkBase) : Prop :=
  b.description = b'.description ∧ b.unit = b'.unit ∧ b.on = b'.on ∧ F64Alike b.min b'.min ∧ F64Alike b.max b'.max

/-- Its minimum and its maximum are numbers. -/
def MtkBase.Numeric (b : MtkBase) : Prop := f64IsNan b.min = false ∧ f64IsNan b.max = false

/-- Identical definitions are alike. -/
theorem MtkBase.Same.alike {b b' : MtkBase} (h : b.Same b') : b.Alike b' :=
  ⟨h.1, h.2.1, h.2.2.1, Or.inl h.2.2.2.1, Or.inl h.2.2.2.2⟩

/-- A stored flag tells the flag. -/
theorem flags_eq_iff (a b : Bool) : (if a then mtkFlagOn else 0) = (if b then mtkFlagOn else 0) ↔ a = b := by
  revert a b
  decide

/-- The descriptor of a definition is the definition of another call just where the two are alike, and numeric. -/
theorem sameMtk_ofBase (id : Int32) (name : CStr) (b b' : MtkBase) :
    sameMtk (MtkDesc.ofBase id name b) b' = true ↔ b.Alike b' ∧ b'.Numeric := by
  simp only [sameMtk, MtkDesc.ofBase, Bool.and_eq_true, beq_iff_eq, flags_eq_iff, f64Eq_iff, MtkBase.Alike,
    MtkBase.Numeric]
  constructor
  · rintro ⟨⟨⟨⟨hon, hmin, hminNum⟩, hmax, hmaxNum⟩, hdescr⟩, hunit⟩
    exact ⟨⟨hdescr, hunit, hon, hmin, hmax⟩, hminNum, hmaxNum⟩
  · rintro ⟨⟨hdescr, hunit, hon, hmin, hmax⟩, hminNum, hmaxNum⟩
    exact ⟨⟨⟨⟨hon, hmin, hminNum⟩, hmax, hmaxNum⟩, hdescr⟩, hunit⟩

/-- A descriptor that is the definition `b` is the definition of another call just where one made of `b` is. -/
theorem sameMtk_congr {d : MtkDesc} {b : MtkBase} (h : sameMtk d b = true) (id : Int32) (name : CStr) (b' : MtkBase) :
    sameMtk d b' = true ↔ sameMtk (MtkDesc.ofBase id name b) b' = true := by
  simp only [sameMtk, MtkDesc.ofBase, Bool.and_eq_true, beq_iff_eq, f64Eq_iff] at h ⊢
  obtain ⟨⟨⟨⟨hflags, hmin, -⟩, hmax, -⟩, hdescr⟩, hunit⟩ := h
  rw [hflags, hdescr, hunit, hmin.trans_left, hmax.trans_left]

/-! ## What the steps do to the metrics -/

/-- What any step of a core does to its metrics: it leaves them, or adds one under a new name. -/
inductive MtkStep (regs : Registries) : Registries → Prop where
  | same {regs' : Registries} (hinit : regs'.core.initialized = regs.core.initialized)
      (hdescs : regs'.mtkDescs = regs.mtkDescs) (hmap : regs'.mtkNameMap = regs.mtkNameMap) : MtkStep regs regs'
  | added (n : CStr) (b : MtkBase) (hmap : regs.mtkNameMap n = none) :
      MtkStep regs (regs.addMtk (Int32.ofNat regs.mtkDescs.length) n b)

/-- Nothing is registered. -/
theorem mtkStep_refl (regs : Registries) : MtkStep regs regs := .same rfl rfl rfl

/-- A registration is a step of the registry of metrics. -/
theorem registerMtk_mtkStep (regs : Registries) (alloc : Bool) (base : Option MtkBase) :
    MtkStep regs (regs.registerMtk alloc base).regs := by
  have hcases := registerMtk_cases regs alloc base
  generalize regs.registerMtk alloc base = r at hcases ⊢
  cases hcases with
  | created b n hbase hname hmap => exact .added n b hmap
  | _ => exact mtkStep_refl regs

/-- So is every step of the service stream. -/
theorem SvcSys.step_mtkStep {B : Type} [DecidableEq B] {s s' : SvcSys B} {ev : SvcEv B} (hs : s.step ev = .ok s') :
    MtkStep s.regs s'.regs := by
  cases ev with
  | attrRegister alloc name type =>
    cases hs
    have hcases := attrRegister_cases s.regs.core alloc (name.map Subtype.val) type
    unfold SvcSys.register Registries.attrRegister
    generalize s.regs.core.attrRegister alloc (name.map Subtype.val) type = r at hcases ⊢
    cases hcases with
    | _ => exact .same rfl rfl rfl
  | registerModule alloc name verbosity handle =>
    cases hs
    have hcases := registerModule_cases s.regs alloc (name.map Subtype.val) verbosity handle
    unfold SvcSys.register
    generalize s.regs.registerModule alloc (name.map Subtype.val) verbosity handle = r at hcases ⊢
    cases hcases with
    | _ => exact .same rfl rfl rfl
  | registerMtk alloc base =>
    cases hs
    exact registerMtk_mtkStep s.regs alloc base
  | resolveLogDesc alloc hash file line function format =>
    cases hs
    refine .same ?_ rfl rfl
    show (s.regs.core.resolveLogDesc alloc hash file line function format).1.initialized = _
    unfold Core.resolveLogDesc
    split
    · rfl
    · split
      · rfl
      · rfl
  | serialize i fresh =>
    obtain ⟨x, -, -, rfl⟩ := SvcSys.serialize_step hs
    exact mtkStep_refl s.regs
  | move =>
    obtain ⟨-, hs⟩ := when_eq_ok.mp hs
    cases hs
    exact mtkStep_refl s.regs
  | writeService =>
    obtain ⟨-, hs⟩ := when_eq_ok.mp hs
    cases hs
    exact mtkStep_refl s.regs
  | recycle =>
    obtain ⟨-, hs⟩ := when_eq_ok.mp hs
    cases hs
    exact mtkStep_refl s.regs
  | use b m =>
    obtain ⟨-, hs⟩ := when_eq_ok.mp hs
    cases hs
    exact mtkStep_refl s.regs

/-! ## What a core knows of a metric -/

/-- The metrics of a core and the map of their names agree. -/
structure MtkInv (regs : Registries) : Prop where
  initialized : regs.core.initialized = true
  coherent : Coherent MtkDesc.name Int32.ofNat regs.mtkDescs regs.mtkNameMap
  ids : ∀ i d, regs.mtkDescs[i]? = some d → d.id = Int32.ofNat i

theorem mtkInv_init : MtkInv Registries.init where
  initialized := rfl
  coherent := coherent_nil
  ids := fun _ _ h => (by simp [Registries.init] at h)

/-- The metric `n` is the descriptor `d`, the `i`-th. -/
structure KnowsMtk (regs : Registries) (n : CStr) (i : Nat) (d : MtkDesc) : Prop where
  initialized : regs.core.initialized = true
  index : regs.mtkNameMap n = some (Int32.ofNat i)
  desc : regs.mtkDescs[i]? = some d

/-- A step keeps the registry of metrics as it should be. -/
theorem MtkInv.step {regs regs' : Registries} (h : MtkInv regs) (hs : MtkStep regs regs') : MtkInv regs' := by
  cases hs with
  | same hinit hdescs hmap => exact ⟨hinit.trans h.initialized, hdescs ▸ hmap ▸ h.coherent, hdescs ▸ h.ids⟩
  | added n b hmap =>
    refine ⟨h.initialized, h.coherent.push (e := MtkDesc.ofBase (Int32.ofNat regs.mtkDescs.length) n b) hmap, ?_⟩
    intro i d hd
    rcases getElem?_concat hd with hd | ⟨rfl, rfl⟩
    · exact h.ids i d hd
    · rfl

/-- What a core knows of a metric it keeps. -/
theorem KnowsMtk.step {regs regs' : Registries} {n : CStr} {i : Nat} {d : MtkDesc} (h : KnowsMtk regs n i d)
    (hs : MtkStep regs regs') : KnowsMtk regs' n i d := by
  cases hs with
  | same hinit hdescs hmap => exact ⟨hinit.trans h.initialized, hmap ▸ h.index, hdescs ▸ h.desc⟩
  | added m b hmap =>
    refine ⟨h.initialized, ?_, ?_⟩
    · have hne : n ≠ m := by
        rintro rfl
        rw [h.index] at hmap
        cases hmap
      exact (if_neg hne).trans h.index
    · exact (List.getElem?_append_left (List.getElem?_eq_some_iff.mp h.desc).1).trans h.desc

section

variable {B : Type} [DecidableEq B] {s s' : SvcSys B}

/-- The invariant along a run. -/
theorem MtkInv.run {evs : List (SvcEv B)} (h : MtkInv s.regs) (hr : s.run evs = .ok s') : MtkInv s'.regs :=
  Runs.run_induction (P := fun s : SvcSys B => MtkInv s.regs) h
    (fun _ _ _ h hs => h.step (SvcSys.step_mtkStep hs)) hr

/-- What is known of a metric stays known along a run. -/
theorem KnowsMtk.run {evs : List (SvcEv B)} {n : CStr} {i : Nat} {d : MtkDesc} (h : KnowsMtk s.regs n i d)
    (hr : s.run evs = .ok s') : KnowsMtk s'.regs n i d :=
  Runs.run_induction (P := fun s : SvcSys B => KnowsMtk s.regs n i d) h
    (fun _ _ _ h hs => h.step (SvcSys.step_mtkStep hs)) hr

end

/-! ## The first call, and a later one -/

/-- A call that returns an id has a name. -/
theorem named_of_registerMtk {regs : Registries} {alloc : Bool} {b : MtkBase}
    (hok : ¬ (regs.registerMtk alloc (some b)).result < 0) : ∃ n, b.name = some n ∧ n ≠ [] := by
  have hinvalid : mtkErrorInvalidName < 0 := by decide
  have hinit : mtkErrorNotInitialized < 0 := by decide
  unfold registerMtk at hok
  split at hok
  · exact absurd hinit hok
  · dsimp only at hok
    split at hok
    · exact absurd hinvalid hok
    · exact absurd hinvalid hok
    · rename_i n hne hname
      exact ⟨n, hname, hne⟩

/-- Behind a call that returns an id the core knows the metric, by a descriptor that is the call's definition. -/
theorem registerMtk_knows {regs : Registries} (h : MtkInv regs) (hlen : regs.mtkDescs.length < 2 ^ 31) {alloc : Bool}
    {b : MtkBase} {n : CStr} (hname : b.name = some n) (hok : ¬ (regs.registerMtk alloc (some b)).result < 0) :
    ∃ i d, i < 2 ^ 31 ∧ (regs.registerMtk alloc (some b)).result = Int32.ofNat i ∧ d.id = Int32.ofNat i ∧
      KnowsMtk (regs.registerMtk alloc (some b)).regs n i d ∧
      ∀ b', sameMtk d b' = true ↔ sameMtk (MtkDesc.ofBase (Int32.ofNat i) n b) b' = true := by
  have hcases := registerMtk_cases regs alloc (some b)
  obtain ⟨hnotInit, hinvalid, halloc, hconflict⟩ := mtkErrors_neg
  generalize regs.registerMtk alloc (some b) = r at hcases hok ⊢
  cases hcases with
  | notInitialized => exact absurd hnotInit hok
  | invalidName => exact absurd hinvalid hok
  | conflict => exact absurd hconflict hok
  | allocFailed => exact absurd halloc hok
  | existing b₁ n₁ id d hbase hname₁ hmap hd hsame =>
    cases hbase
    cases hname.symm.trans hname₁
    obtain ⟨i, e, he, -, rfl⟩ := h.coherent.found n id hmap
    have hlt : i < 2 ^ 31 := Nat.lt_trans (List.getElem?_eq_some_iff.mp he).1 hlen
    rw [attrIndex_ofNat hlt] at hd
    exact ⟨i, d, hlt, h.ids i d hd, h.ids i d hd, ⟨h.initialized, hmap, hd⟩, fun b' => sameMtk_congr hsame _ n b'⟩
  | created b₁ n₁ hbase hname₁ hmap =>
    cases hbase
    cases hname.symm.trans hname₁
    refine ⟨regs.mtkDescs.length, _, hlen, rfl, rfl, ⟨h.initialized, if_pos rfl, ?_⟩, fun b' => Iff.rfl⟩
    exact List.getElem?_concat_length

/-- A call under the name of a metric the core knows changes nothing. -/
theorem registerMtk_known {regs : Registries} {n : CStr} {i : Nat} {d : MtkDesc} (h : KnowsMtk regs n i d)
    (hlt : i < 2 ^ 31) (hne : n ≠ []) {b : MtkBase} (hname : b.name = some n) (alloc : Bool) :
    regs.registerMtk alloc (some b) = ⟨regs, if sameMtk d b then d.id else mtkErrorConflict, none⟩ := by
  unfold registerMtk
  rw [h.initialized, Bool.not_true, if_neg Bool.false_ne_true]
  dsimp only
  rw [hname]
  cases n with
  | nil => exact absurd rfl hne
  | cons c cs =>
    simp only [h.index, attrIndex_ofNat hlt, h.desc]

/-- An answer that is an id or the conflict error says which of two conditions holds. -/
theorem answer_iff {id : Int32} (hid : ¬ id < 0) {p q : Prop} [Decidable p] [Decidable q] :
    (if p then id else mtkErrorConflict) = (if q then id else mtkErrorConflict) ↔ (p ↔ q) := by
  have hne : id ≠ mtkErrorConflict := by
    rintro rfl
    exact hid (by decide)
  by_cases hp : p
  · by_cases hq : q
    · simp [hp, hq]
    · simp [hp, hq, hne]
  · by_cases hq : q
    · simp [hp, hq, hne.symm]
    · simp [hp, hq]

/-- What is promised of a second call under a name: it changes nothing of the core, and returns the id of the first call for the
same definition, the conflict error for another. -/
def SecondCall {B : Type} [DecidableEq B] (s : SvcSys B) (alloc : Bool) (base base' : MtkBase) (id : Int32) : Prop :=
  s.step (.registerMtk alloc (some base')) = .ok s ∧
    (s.regs.registerMtk alloc (some base')).result = if base.Same base' then id else mtkErrorConflict

/-- The promise is kept after any run in between exactly when a definition registered again has numbers for its minimum and
maximum, and one that is not the same does not differ only in the sign of a zero. -/
theorem mtk_idempotent_iff {B : Type} [DecidableEq B] (heap : B → Bytes.Mem) (evs evs' : List (SvcEv B)) (alloc alloc' : Bool)
    (base base' : MtkBase) {s₁ s₂ s₃ : SvcSys B} (h₁ : (SvcSys.init heap).run evs = .ok s₁)
    (hlen : s₁.regs.mtkDescs.length < 2 ^ 31) (hok : ¬ (s₁.regs.registerMtk alloc (some base)).result < 0)
    (h₂ : s₁.step (.registerMtk alloc (some base)) = .ok s₂) (h₃ : s₂.run evs' = .ok s₃) (hname : base'.name = base.name) :
    SecondCall s₃ alloc' base base' (s₁.regs.registerMtk alloc (some base)).result ↔
      (base.Same base' → base'.Numeric) ∧ (base.Alike base' → base'.Numeric → base.Same base') := by
  obtain ⟨n, hn, hne⟩ := named_of_registerMtk hok
  obtain ⟨i, d, hlt, hres, hid, hknows, hsame⟩ := registerMtk_knows (mtkInv_init.run h₁) hlen hn hok
  have hregs : s₂.regs = (s₁.regs.registerMtk alloc (some base)).regs := by
    cases h₂
    rfl
  rw [← hregs] at hknows
  have hsecond := registerMtk_known (hknows.run h₃) hlt hne (hname.trans hn) alloc'
  have hcompare := (hsame base').trans (sameMtk_ofBase (Int32.ofNat i) n base base')
  have hunchanged : s₃.step (.registerMtk alloc' (some base')) = .ok s₃ := by
    rw [SvcSys.step, hsecond]
    simp [SvcSys.register]
  have halike : base.Same base' → base.Alike base' := MtkBase.Same.alike
  rw [SecondCall, and_iff_right hunchanged, hsecond, hres, hid, answer_iff (ofNat_nonneg hlt), hcompare]
  constructor
  · intro hiff
    exact ⟨fun hs => (hiff.mpr hs).2, fun ha hnum => hiff.mp ⟨ha, hnum⟩⟩
  · rintro ⟨hnum, hzeros⟩
    exact ⟨fun h => hzeros h.1 h.2, fun hs => ⟨halike hs, hnum hs⟩⟩

/-- A definition with the minimum `min`. -/
def withMin (min : UInt64) : MtkBase := ⟨some [109], none, none, true, min, 0x4059000000000000, none⟩

/-- A metric registered, and registered again. -/
theorem mtk_idempotent_iff_zero : SecondCall
    ((SvcSys.init (fun _ : Nat => fun _ => 0)).register (Registries.init.registerMtk true (some (withMin 0))))
    true (withMin 0) (withMin 0) 0 :=
  (mtk_idempotent_iff (fun _ : Nat => fun _ => 0) [] [] true true (withMin 0) (withMin 0) rfl (by decide) (by decide) rfl rfl
    rfl).mpr ⟨fun _ => ⟨by decide, by decide⟩, fun _ _ => by decide⟩

/-- A metric whose minimum is a NaN, registered and registered again. -/
theorem mtk_idempotent_false : ¬ SecondCall
    ((SvcSys.init (fun _ : Nat => fun _ => 0)).register (Registries.init.registerMtk true (some (withMin 0x7FF8000000000000))))
    true (withMin 0x7FF8000000000000) (withMin 0x7FF8000000000000) 0 := by
  intro h
  exact absurd h.2 (by decide)

end P8
