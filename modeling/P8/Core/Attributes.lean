import Mathlib.Logic.Function.Basic
import P8.Service.Registries

/-!
# Attributes: registries, caches and the metric count

Threads register attributes and metrics and look attributes up, in any order; each call runs under its registry's mutex and is one
step. Every writer has an attribute cache, which `sync_attr_cache` fills up, and `emit` of any thread checks an id against the
mirrored number of metrics, which it reads without the mutex: it stands before or after the step that stores it. `returned` and
`mtkIds` are history: the names and ids that calls have returned.
-/

namespace P8

open NameTable Registries

/-- The registries, the writers' caches, the attribute ids returned with the names they were asked for, and the metric ids
returned. -/
structure RegSys (W : Type) where
  regs : Registries
  caches : W → List AttrDesc
  returned : List (CStr × Int32)
  mtkIds : List Int32

/-- The calls; a `sync` is by the writer `w`. -/
inductive RegEv (W : Type) where
  | attrRegister (alloc : Bool) (name : Option CStr) (type : AttrType)
  | attrGet (name : Option CStr)
  | registerMtk (alloc : Bool) (base : Option MtkBase)
  | sync (w : W)

namespace RegSys

variable {W : Type} [DecidableEq W]

/-- A core and its writers right after their construction. -/
def init : RegSys W := ⟨Registries.init, fun _ => [], [], []⟩

/-- An id a call has returned for a name, if it is one. -/
def gave (name : Option CStr) (id : Int32) : List (CStr × Int32) := if id < 0 then [] else name.toList.map (·, id)

/-- One call. -/
def step (s : RegSys W) : RegEv W → RegSys W
  | .attrRegister alloc name type =>
    let r := s.regs.attrRegister alloc name type
    { s with regs := r.regs, returned := s.returned ++ gave name r.result }
  | .attrGet name => { s with returned := s.returned ++ gave name (s.regs.attrGet name) }
  | .registerMtk alloc base =>
    let r := s.regs.registerMtk alloc base
    { s with regs := r.regs, mtkIds := if r.result < 0 then s.mtkIds else s.mtkIds ++ [r.result] }
  | .sync w => { s with caches := Function.update s.caches w (s.regs.core.syncAttrCache (s.caches w)) }

/-- The state after a run of calls. -/
def run (s : RegSys W) (evs : List (RegEv W)) : RegSys W := evs.foldl step s

/-! ## The invariant -/

/-- The invariant: both name maps give the ids of the descriptors, a descriptor's id is its position, a cache is the front of the
registry, and an id that was returned is that of a registered name. -/
structure Inv (s : RegSys W) : Prop where
  initialized : s.regs.core.initialized = true
  attrs : Coherent AttrDesc.name Int32.ofNat s.regs.core.attrDescs s.regs.core.attrNameMap
  attrIds : ∀ i d, s.regs.core.attrDescs[i]? = some d → d.id = Int32.ofNat i
  named : ∀ d ∈ s.regs.core.attrDescs, d.name ≠ []
  mtks : Coherent MtkDesc.name Int32.ofNat s.regs.mtkDescs s.regs.mtkNameMap
  mtkDescIds : ∀ i d, s.regs.mtkDescs[i]? = some d → d.id = Int32.ofNat i
  caches : ∀ w, s.caches w <+: s.regs.core.attrDescs
  returned : ∀ p ∈ s.returned, s.regs.core.attrNameMap p.1 = some p.2
  mtkIds : ∀ id ∈ s.mtkIds, ∃ i, i < s.regs.mtkDescs.length ∧ id = Int32.ofNat i
  mtkIds_all : ∀ i, i < s.regs.mtkDescs.length → i < 2 ^ 31 → Int32.ofNat i ∈ s.mtkIds
  mtkCount : s.regs.mtkCount = UInt32.ofNat s.regs.mtkDescs.length

omit [DecidableEq W] in
theorem inv_init : (init : RegSys W).Inv where
  initialized := rfl
  attrs := coherent_nil
  attrIds := fun _ _ h => (by simp [init, Registries.init, Core.init] at h)
  named := fun _ h => (by cases h)
  mtks := coherent_nil
  mtkDescIds := fun _ _ h => (by simp [init, Registries.init] at h)
  caches := fun _ => List.nil_prefix
  returned := fun _ h => (by cases h)
  mtkIds := fun _ h => (by cases h)
  mtkIds_all := fun _ h => absurd h (Nat.not_lt_zero _)
  mtkCount := rfl

/-- An id given for a name is a valid one. -/
theorem mem_gave {name : Option CStr} {id : Int32} {p : CStr × Int32} (h : p ∈ gave name id) :
    ¬ id < 0 ∧ name = some p.1 ∧ p.2 = id := by
  unfold gave at h
  split at h
  · cases h
  · rename_i hid
    obtain ⟨n, hn, rfl⟩ := List.mem_map.mp h
    exact ⟨hid, Option.mem_toList.mp hn, rfl⟩

variable {s : RegSys W}

omit [DecidableEq W] in
/-- A call that returns a name's id, or an error, keeps the invariant. -/
theorem Inv.gave (h : s.Inv) {name : Option CStr} {id : Int32}
    (hid : ∀ n, ¬ id < 0 → name = some n → s.regs.core.attrNameMap n = some id) :
    { s with returned := s.returned ++ gave name id }.Inv := by
  refine { h with returned := fun p hp => ?_ }
  rcases List.mem_append.mp hp with hp | hp
  · exact h.returned p hp
  · obtain ⟨hneg, hn, hpid⟩ := mem_gave hp
    rw [hpid]
    exact hid p.1 hneg hn

omit [DecidableEq W] in
/-- The names keep their ids when an attribute is registered. -/
theorem Inv.attrRegister (h : s.Inv) (alloc : Bool) (name : Option CStr) (type : AttrType) :
    { s with
      regs := (s.regs.attrRegister alloc name type).regs
      returned := s.returned ++ RegSys.gave name (s.regs.attrRegister alloc name type).result }.Inv := by
  have hcases := Registries.attrRegister_cases s.regs.core alloc name type
  obtain ⟨hinit, hname, hmismatch, halloc, -⟩ := attrErrors_neg
  unfold Registries.attrRegister
  generalize s.regs.core.attrRegister alloc name type = r at hcases ⊢
  cases hcases with
  | notInitialized => exact h.gave (fun _ hneg => absurd hinit hneg)
  | invalidName => exact h.gave (fun _ hneg => absurd hname hneg)
  | mismatch n id d => exact h.gave (fun _ hneg => absurd hmismatch hneg)
  | allocFailed => exact h.gave (fun _ hneg => absurd halloc hneg)
  | existing n id hn hmap =>
    refine h.gave (fun m _ hm => ?_)
    cases hn.symm.trans hm
    exact hmap
  | created n hn hne hmap =>
    refine { h with attrs := h.attrs.push hmap, attrIds := ?_, named := ?_, caches := ?_, returned := ?_ }
    · intro i d hd
      dsimp only at hd
      rcases getElem?_concat hd with hd | ⟨rfl, rfl⟩
      · exact h.attrIds i d hd
      · rfl
    · intro d hd
      rcases List.mem_append.mp hd with hd | hd
      · exact h.named d hd
      · rw [List.mem_singleton.mp hd]
        exact hne
    · exact fun w => (h.caches w).trans (List.prefix_append _ _)
    · intro p hp
      dsimp only
      rcases List.mem_append.mp hp with hp | hp
      · have hold := h.returned p hp
        rw [if_neg (fun he => ?_), hold]
        rw [he, hmap] at hold
        cases hold
      · obtain ⟨-, hp1, hpid⟩ := mem_gave hp
        cases hn.symm.trans hp1
        rw [if_pos rfl, hpid]

omit [DecidableEq W] in
/-- Looking an attribute up keeps the invariant. -/
theorem Inv.attrGet (h : s.Inv) (name : Option CStr) :
    { s with returned := s.returned ++ RegSys.gave name (s.regs.attrGet name) }.Inv := by
  refine h.gave (fun n hneg hn => ?_)
  obtain ⟨hinit, -, -, -, hfound⟩ := attrErrors_neg
  subst hn
  unfold Registries.attrGet at hneg ⊢
  split at hneg
  · exact absurd hinit hneg
  · split at hneg
    · exact absurd hfound hneg
    · exact absurd hfound hneg
    · rename_i hi _ m _ hm
      cases hm
      rw [if_neg hi]
      cases hmap : s.regs.core.attrNameMap n with
      | none =>
        rw [hmap] at hneg
        exact absurd hfound hneg
      | some id => rfl

omit [DecidableEq W] in
/-- A call that returns the id of a metric, or an error, keeps the invariant. -/
theorem Inv.mtkReturned (h : s.Inv) {id : Int32}
    (hid : ¬ id < 0 → ∃ i, i < s.regs.mtkDescs.length ∧ id = Int32.ofNat i) :
    { s with mtkIds := if id < 0 then s.mtkIds else s.mtkIds ++ [id] }.Inv := by
  split
  · exact h
  · rename_i hneg
    refine { h with mtkIds := fun k hk => ?_, mtkIds_all := fun i hi hlt => List.mem_append_left _ (h.mtkIds_all i hi hlt) }
    rcases List.mem_append.mp hk with hk | hk
    · exact h.mtkIds k hk
    · rw [List.mem_singleton.mp hk]
      exact hid hneg

omit [DecidableEq W] in
/-- A new metric is put at the end. -/
theorem Inv.addMtk (h : s.Inv) {name : CStr} (hnew : s.regs.mtkNameMap name = none) (base : MtkBase) :
    { s with
      regs := s.regs.addMtk (Int32.ofNat s.regs.mtkDescs.length) name base
      mtkIds := if Int32.ofNat s.regs.mtkDescs.length < 0 then s.mtkIds
        else s.mtkIds ++ [Int32.ofNat s.regs.mtkDescs.length] }.Inv := by
  have hlen : (s.regs.addMtk (Int32.ofNat s.regs.mtkDescs.length) name base).mtkDescs.length = s.regs.mtkDescs.length + 1 := by
    simp [Registries.addMtk]
  refine { h with
    mtks := h.mtks.push (e := Registries.MtkDesc.ofBase (Int32.ofNat s.regs.mtkDescs.length) name base) hnew
    mtkDescIds := ?_, mtkIds := ?_, mtkIds_all := ?_, mtkCount := by rw [hlen]; rfl }
  · intro i d hd
    dsimp only [Registries.addMtk] at hd
    rcases getElem?_concat hd with hd | ⟨rfl, rfl⟩
    · exact h.mtkDescIds i d hd
    · rfl
  · intro id hid
    rw [hlen]
    have hold : ∀ k ∈ s.mtkIds, ∃ i, i < s.regs.mtkDescs.length + 1 ∧ k = Int32.ofNat i := by
      intro k hk
      obtain ⟨i, hi, hki⟩ := h.mtkIds k hk
      exact ⟨i, Nat.lt_succ_of_lt hi, hki⟩
    dsimp only at hid
    split at hid
    · exact hold id hid
    · rcases List.mem_append.mp hid with hid | hid
      · exact hold id hid
      · exact ⟨_, Nat.lt_succ_self _, List.mem_singleton.mp hid⟩
  · intro i hi hlt
    rw [hlen] at hi
    dsimp only
    rcases Nat.lt_succ_iff_lt_or_eq.mp hi with hi | rfl
    · split
      · exact h.mtkIds_all i hi hlt
      · exact List.mem_append_left _ (h.mtkIds_all i hi hlt)
    · rw [if_neg (ofNat_nonneg hlt)]
      exact List.mem_append_right _ (List.mem_singleton.mpr rfl)

omit [DecidableEq W] in
/-- Registering a metric keeps the invariant. -/
theorem Inv.registerMtk (h : s.Inv) (alloc : Bool) (base : Option MtkBase) :
    { s with
      regs := (s.regs.registerMtk alloc base).regs
      mtkIds := if (s.regs.registerMtk alloc base).result < 0 then s.mtkIds
        else s.mtkIds ++ [(s.regs.registerMtk alloc base).result] }.Inv := by
  have hcases := Registries.registerMtk_cases s.regs alloc base
  obtain ⟨hinit, hname, halloc, hconflict⟩ := mtkErrors_neg
  generalize s.regs.registerMtk alloc base = r at hcases ⊢
  cases hcases with
  | notInitialized => exact h.mtkReturned (fun hneg => absurd hinit hneg)
  | invalidName => exact h.mtkReturned (fun hneg => absurd hname hneg)
  | conflict => exact h.mtkReturned (fun hneg => absurd hconflict hneg)
  | allocFailed => exact h.mtkReturned (fun hneg => absurd halloc hneg)
  | existing b n id d hbase hn hmap hd hsame =>
    exact h.mtkReturned (fun _ => ⟨_, (List.getElem?_eq_some_iff.mp hd).1, h.mtkDescIds _ d hd⟩)
  | created b n hbase hn hmap => exact h.addMtk hmap b

/-- One call keeps the invariant. -/
theorem Inv.step (h : s.Inv) (ev : RegEv W) : (s.step ev).Inv := by
  cases ev with
  | attrRegister alloc name type => exact h.attrRegister alloc name type
  | attrGet name => exact h.attrGet name
  | registerMtk alloc base => exact h.registerMtk alloc base
  | sync w =>
    refine { h with caches := fun u => ?_ }
    dsimp only [RegSys.step]
    rw [Core.syncAttrCache_of_prefix (h.caches w), Function.update_apply]
    split
    · exact List.prefix_refl _
    · exact h.caches u

/-- And so does a run. -/
theorem Inv.run (h : s.Inv) (evs : List (RegEv W)) : (s.run evs).Inv := by
  induction evs generalizing s with
  | nil => exact h
  | cons ev evs ih => exact ih (h.step ev)

/-! ## What the registries promise -/

/-- What a call returns; a `sync` returns nothing. -/
def result (s : RegSys W) : RegEv W → Option Int32
  | .attrRegister alloc name type => some (s.regs.attrRegister alloc name type).result
  | .attrGet name => some (s.regs.attrGet name)
  | .registerMtk alloc base => some (s.regs.registerMtk alloc base).result
  | .sync _ => none

/-- The registries agree with each other, with the caches and with what the calls have returned.

Descriptor `i` has id `i`, and the name maps give exactly the ids of the descriptors, different ids for different names. Neither
registry changes an entry (`kept`), and a call that returns an error changes nothing. An id returned under a name is, in a synced
cache, looked up to the descriptor of that name, from then on, and `emit` accepts exactly the ids returned for metrics. -/
structure Coheres (s : RegSys W) : Prop where
  attrIds : ∀ (i : Nat) (d : AttrDesc), s.regs.core.attrDescs[i]? = some d → d.id.toInt = i
  attrMap : ∀ n id, s.regs.core.attrNameMap n = some id ↔ ∃ d ∈ s.regs.core.attrDescs, d.name = n ∧ d.id = id
  attrNames : ∀ d ∈ s.regs.core.attrDescs, ∀ e ∈ s.regs.core.attrDescs, d.name = e.name ↔ d.id = e.id
  mtkDescIds : ∀ (i : Nat) (d : MtkDesc), s.regs.mtkDescs[i]? = some d → d.id.toInt = i
  mtkMap : ∀ n id, s.regs.mtkNameMap n = some id ↔ ∃ d ∈ s.regs.mtkDescs, d.name = n ∧ d.id = id
  mtkNames : ∀ d ∈ s.regs.mtkDescs, ∀ e ∈ s.regs.mtkDescs, d.name = e.name ↔ d.id = e.id
  kept : ∀ evs, s.regs.core.attrDescs <+: (s.run evs).regs.core.attrDescs ∧ s.regs.mtkDescs <+: (s.run evs).regs.mtkDescs
  failed : ∀ ev id, s.result ev = some id → id < 0 → s.step ev = s
  again : ∀ d ∈ s.regs.core.attrDescs, ∀ alloc type,
    (s.regs.attrRegister alloc (some d.name) type).result = (if type = d.type then d.id else attrErrorTypeMismatch) ∧
      (s.regs.attrRegister alloc (some d.name) type).regs = s.regs
  caches : ∀ w, s.caches w <+: s.regs.core.attrDescs
  resolved : ∀ p ∈ s.returned, ∀ (w : W) (evs : List (RegEv W)) (a : AttrVal), a.id = p.2 →
    ∃ d ∈ s.regs.core.attrDescs, d.name = p.1 ∧ d.id = p.2 ∧ attrDesc? (((s.step (.sync w)).run evs).caches w) a = some d
  mtkCount : s.regs.getMtkCount.toNat = s.regs.mtkDescs.length
  accepted : ∀ id, s.regs.emitAccepts id = true ↔ id ∈ s.mtkIds

/-- What one call does to the registries and to a cache: both keep what they have. -/
theorem step_kept (h : s.Inv) (ev : RegEv W) :
    s.regs.core.attrDescs <+: (s.step ev).regs.core.attrDescs ∧ s.regs.mtkDescs <+: (s.step ev).regs.mtkDescs ∧
      ∀ w, s.caches w <+: (s.step ev).caches w := by
  cases ev with
  | attrRegister alloc name type =>
    exact ⟨(Core.grows_attrRegister _ _ _ _).attrs, List.prefix_refl _, fun _ => List.prefix_refl _⟩
  | attrGet name => exact ⟨List.prefix_refl _, List.prefix_refl _, fun _ => List.prefix_refl _⟩
  | registerMtk alloc base =>
    refine ⟨?_, ?_, fun _ => List.prefix_refl _⟩ <;>
    · have hcases := Registries.registerMtk_cases s.regs alloc base
      dsimp only [RegSys.step]
      generalize s.regs.registerMtk alloc base = r at hcases ⊢
      cases hcases with
      | created => first | exact List.prefix_refl _ | exact List.prefix_append _ _
      | _ => exact List.prefix_refl _
  | sync w =>
    refine ⟨List.prefix_refl _, List.prefix_refl _, fun u => ?_⟩
    dsimp only [RegSys.step]
    rw [Core.syncAttrCache_of_prefix (h.caches w), Function.update_apply]
    split
    · rename_i hu
      rw [hu]
      exact h.caches w
    · exact List.prefix_refl _

/-- And what a run does. -/
theorem run_kept (h : s.Inv) (evs : List (RegEv W)) :
    s.regs.core.attrDescs <+: (s.run evs).regs.core.attrDescs ∧ s.regs.mtkDescs <+: (s.run evs).regs.mtkDescs ∧
      ∀ w, s.caches w <+: (s.run evs).caches w := by
  induction evs generalizing s with
  | nil => exact ⟨List.prefix_refl _, List.prefix_refl _, fun _ => List.prefix_refl _⟩
  | cons ev evs ih =>
    obtain ⟨hattrs, hmtks, hcaches⟩ := step_kept h ev
    obtain ⟨hattrs', hmtks', hcaches'⟩ := ih (h.step ev)
    exact ⟨hattrs.trans hattrs', hmtks.trans hmtks', fun w => (hcaches w).trans (hcaches' w)⟩

/-- Positions below 2³¹ have different ids. -/
theorem ofNat_inj {i j : Nat} (hi : i < 2 ^ 31) (hj : j < 2 ^ 31) (h : Int32.ofNat i = Int32.ofNat j) : i = j := by
  have hint := congrArg Int32.toInt h
  rw [toInt_ofNat hi, toInt_ofNat hj] at hint
  exact Int.ofNat_inj.mp hint

/-- A call that returns an error changes nothing, while there are fewer than 2³¹ names. -/
theorem Inv.failed (hattrs : s.regs.core.attrDescs.length < 2 ^ 31) (hmtks : s.regs.mtkDescs.length < 2 ^ 31)
    {ev : RegEv W} {id : Int32} (hid : s.result ev = some id) (hneg : id < 0) : s.step ev = s := by
  cases ev with
  | attrRegister alloc name type =>
    cases hid
    dsimp only [RegSys.step]
    have hnil : RegSys.gave name (s.regs.attrRegister alloc name type).result = [] := if_pos hneg
    rw [hnil, List.append_nil]
    have hcases := Registries.attrRegister_cases s.regs.core alloc name type
    unfold Registries.attrRegister at hneg ⊢
    generalize s.regs.core.attrRegister alloc name type = r at hcases hneg ⊢
    cases hcases with
    | created => exact absurd hneg (ofNat_nonneg hattrs)
    | _ => rfl
  | attrGet name =>
    cases hid
    have hnil : RegSys.gave name (s.regs.attrGet name) = [] := if_pos hneg
    simp only [RegSys.step, hnil, List.append_nil]
  | registerMtk alloc base =>
    cases hid
    dsimp only [RegSys.step]
    rw [if_pos hneg]
    have hcases := Registries.registerMtk_cases s.regs alloc base
    generalize s.regs.registerMtk alloc base = r at hcases hneg ⊢
    cases hcases with
    | created => exact absurd hneg (ofNat_nonneg hmtks)
    | _ => rfl
  | sync w => cases hid

omit [DecidableEq W] in
/-- A registered name keeps its id: registered again it is given it, with another type it is refused. -/
theorem Inv.again (h : s.Inv) (hattrs : s.regs.core.attrDescs.length < 2 ^ 31) {d : AttrDesc}
    (hd : d ∈ s.regs.core.attrDescs) (alloc : Bool) (type : AttrType) :
    s.regs.core.attrRegister alloc (some d.name) type =
      (s.regs.core, if type = d.type then d.id else attrErrorTypeMismatch) := by
  obtain ⟨i, hi⟩ := List.mem_iff_getElem?.mp hd
  have hid := h.attrIds i d hi
  have hmap := h.attrs.listed i d hi
  have hlt : i < 2 ^ 31 := Nat.lt_trans (List.getElem?_eq_some_iff.mp hi).1 hattrs
  have hne := h.named d hd
  unfold Core.attrRegister
  rw [h.initialized, Bool.not_true, if_neg Bool.false_ne_true]
  cases hname : d.name with
  | nil => exact absurd hname hne
  | cons c cs =>
    rw [hname] at hmap
    simp only [hmap, attrIndex_ofNat hlt, hi, hid]
    by_cases ht : type = d.type
    · rw [if_neg (fun hn => hn ht.symm), if_pos ht]
    · rw [if_pos (fun hn => ht hn.symm), if_neg ht]

omit [DecidableEq W] in
/-- The mirrored count is the number of metrics. -/
theorem Inv.mtkCount_toNat (h : s.Inv) (hmtks : s.regs.mtkDescs.length < 2 ^ 31) :
    s.regs.getMtkCount.toNat = s.regs.mtkDescs.length := by
  rw [Registries.getMtkCount, h.mtkCount, UInt32.toNat_ofNat_of_lt']
  exact Nat.lt_trans hmtks (by decide)

omit [DecidableEq W] in
/-- `emit` accepts the ids returned for metrics, and no others. -/
theorem Inv.accepted (h : s.Inv) (hmtks : s.regs.mtkDescs.length < 2 ^ 31) (id : Int32) :
    s.regs.emitAccepts id = true ↔ id ∈ s.mtkIds := by
  have haccepts : s.regs.emitAccepts id = true ↔ 0 ≤ id ∧ id.toUInt32.toNat < s.regs.mtkDescs.length := by
    unfold Registries.emitAccepts
    rw [← h.mtkCount_toNat hmtks, ← UInt32.lt_iff_toNat_lt]
    simp
  rw [haccepts]
  constructor
  · rintro ⟨hpos, hlt⟩
    rw [Int32.toNat_toUInt32_of_le hpos] at hlt
    have hin := h.mtkIds_all _ hlt (Nat.lt_trans hlt hmtks)
    rwa [Int32.ofNat_toNatClampNeg id hpos] at hin
  · intro hid
    obtain ⟨i, hi, rfl⟩ := h.mtkIds id hid
    have hlt : i < 2 ^ 31 := Nat.lt_trans hi hmtks
    have hpos : 0 ≤ Int32.ofNat i := Int32.not_lt.mp (ofNat_nonneg hlt)
    rw [Int32.toNat_toUInt32_of_le hpos, Int32.toNatClampNeg_ofNat_of_lt hlt]
    exact ⟨hpos, hi⟩

/-- An id that was returned is looked up, in a cache synced since, to the descriptor of its name. -/
theorem Inv.resolved (h : s.Inv) (hattrs : s.regs.core.attrDescs.length < 2 ^ 31) {p : CStr × Int32} (hp : p ∈ s.returned)
    (w : W) (evs : List (RegEv W)) {a : AttrVal} (ha : a.id = p.2) :
    ∃ d ∈ s.regs.core.attrDescs, d.name = p.1 ∧ d.id = p.2 ∧ attrDesc? (((s.step (.sync w)).run evs).caches w) a = some d := by
  obtain ⟨i, d, hi, hname, hid⟩ := h.attrs.found _ _ (h.returned p hp)
  have hlt : i < 2 ^ 31 := Nat.lt_trans (List.getElem?_eq_some_iff.mp hi).1 hattrs
  have hcache : (s.step (.sync w)).caches w = s.regs.core.attrDescs := by
    dsimp only [RegSys.step]
    rw [Function.update_self, Core.syncAttrCache_of_prefix (h.caches w)]
  have hfound : attrDesc? s.regs.core.attrDescs a = some d := by
    rw [attrDesc?, ha, hid, if_neg (ofNat_nonneg hlt), attrIndex_ofNat hlt, hi]
  refine ⟨d, List.mem_iff_getElem?.mpr ⟨i, hi⟩, hname, (h.attrIds i d hi).trans hid.symm, ?_⟩
  rw [← hcache] at hfound
  exact attrDesc?_mono ((run_kept (h.step (.sync w)) evs).2.2 w) hfound

/-- The registries of a run agree with each other, with the caches and with what the calls have returned. -/
theorem registries_coherent (evs : List (RegEv W))
    (hattrs : ((init : RegSys W).run evs).regs.core.attrDescs.length < 2 ^ 31)
    (hmtks : ((init : RegSys W).run evs).regs.mtkDescs.length < 2 ^ 31) : ((init : RegSys W).run evs).Coheres := by
  have h := inv_init.run evs
  generalize (init : RegSys W).run evs = s at h hattrs hmtks
  have hlt : ∀ {α : Type} {ds : List α} {i : Nat} {d : α}, ds.length < 2 ^ 31 → ds[i]? = some d → i < 2 ^ 31 :=
    fun hlen hi => Nat.lt_trans (List.getElem?_eq_some_iff.mp hi).1 hlen
  have hkey : ∀ {n : Nat}, n < 2 ^ 31 → ∀ i j, i < n → j < n → Int32.ofNat i = Int32.ofNat j → i = j :=
    fun hn i j hi hj => ofNat_inj (Nat.lt_trans hi hn) (Nat.lt_trans hj hn)
  exact
    { attrIds := fun i d hi => by rw [h.attrIds i d hi, toInt_ofNat (hlt hattrs hi)]
      attrMap := fun n id => h.attrs.index_eq_some_iff h.attrIds
      attrNames := fun d hd e he => h.attrs.name_eq_iff (hkey hattrs) h.attrIds hd he
      mtkDescIds := fun i d hi => by rw [h.mtkDescIds i d hi, toInt_ofNat (hlt hmtks hi)]
      mtkMap := fun n id => h.mtks.index_eq_some_iff h.mtkDescIds
      mtkNames := fun d hd e he => h.mtks.name_eq_iff (hkey hmtks) h.mtkDescIds hd he
      kept := fun evs => ⟨(run_kept h evs).1, (run_kept h evs).2.1⟩
      failed := fun ev id hid hneg => Inv.failed hattrs hmtks hid hneg
      again := fun d hd alloc type => by
        have hagain := h.again hattrs hd alloc type
        unfold Registries.attrRegister
        rw [hagain]
        exact ⟨rfl, rfl⟩
      caches := h.caches
      resolved := fun p hp w evs a ha => h.resolved hattrs hp w evs ha
      mtkCount := h.mtkCount_toNat hmtks
      accepted := h.accepted hmtks }

/-- One thread registers an attribute, another looks it up and registers a metric under the same name. -/
theorem registries_coherent_twoThreads :
    let evs : List (RegEv Bool) := [.attrRegister true (some [97]) .str, .sync true, .attrGet (some [97]),
      .registerMtk true (some ⟨some [97], none, none, true, 0, 0, none⟩), .sync false]
    ((init : RegSys Bool).run evs).returned = [([97], 0), ([97], 0)] ∧ ((init : RegSys Bool).run evs).mtkIds = [0] ∧
      ((init : RegSys Bool).run evs).Coheres :=
  ⟨by decide, by decide, registries_coherent _ (by decide) (by decide)⟩

end RegSys

end P8
