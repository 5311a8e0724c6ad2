import P8.Lib.NameTable
import P8.Log.Reader

/-!
# Registries: everything a core registers

The four registries of a core, with `register_module`, `register_mtk` and `encode_attr_blob`; the attributes and the log
descriptors are those of `Core`. Each function runs under its registry's mutex and is one step. What it returns comes with the
descriptor it creates, if it does, which the caller goes on to transmit (`Registered.transmit`).

Doubles are their 64 bits, compared as the machine compares them.
-/

namespace P8

open Bytes Framing

/-! ## Modules and metrics -/

/-- `s_p8_log_mod`. -/
structure LogModule extends LogMod where
  name : CStr

/-- `s_p8_mtk_base`, with its `mz_attrs` attributes. -/
structure MtkBase where
  name : Option CStr
  description : Option CStr
  unit : Option CStr
  on : Bool
  min : UInt64
  max : UInt64
  attrs : Option (List AttrVal)

/-- `s_p8_mtk_desc`. -/
structure MtkDesc where
  id : Int32
  name : CStr
  description : Option CStr
  unit : Option CStr
  flags : UInt8
  min : UInt64
  max : UInt64

/-- `P8_MTK_FLAG_ON`. -/
def mtkFlagOn : UInt8 := 1

/-- The errors of `register_mtk`. -/
def mtkErrorNotInitialized : Int32 := -1
def mtkErrorInvalidName : Int32 := -2
def mtkErrorAllocFailed : Int32 := -3
def mtkErrorConflict : Int32 := -4

/-- `P8_ATTR_ERROR_NOT_FOUND`. -/
def attrErrorNotFound : Int32 := -5

/-- A double that is not a number: all exponent bits set, and a mantissa bit. -/
def f64IsNan (a : UInt64) : Bool := decide (0x7FF0000000000000 < a &&& 0x7FFFFFFFFFFFFFFF)

/-- `==` of doubles: a NaN equals nothing, the two zeros are equal. -/
def f64Eq (a b : UInt64) : Bool := !f64IsNan a && !f64IsNan b && (a == b || (a ||| b) &&& 0x7FFFFFFFFFFFFFFF == 0)

/-- A descriptor to be transmitted, as it is passed to its serializer. A metric comes with the blob of its attributes and their
number; `attrs`, which no function looks at, is what they encode. -/
inductive SvcDesc where
  | attr (d : AttrDesc)
  | log (d : LogDesc)
  | mod (m : LogModule)
  | mtk (d : MtkDesc) (attrs : List (AttrDesc × AttrVal)) (blob : List UInt8) (count : UInt8)

/-- The registries of a `cp8_core`. The handle of a module is its position. -/
structure Registries where
  core : Core
  logMods : List LogModule
  logModMap : CStr → Option Nat
  mtkDescs : List MtkDesc
  mtkNameMap : CStr → Option Int32
  mtkCount : UInt32

/-- The registries a registration leaves, what it returns, and the descriptor it has to transmit. -/
structure Registered (α : Type) where
  regs : Registries
  result : α
  transmit : Option SvcDesc

/-! ## The blob of a metric's attributes -/

/-- The bytes of a registered attribute: id and value, by its registered type. -/
def attrBytes (d : AttrDesc) (a : AttrVal) : List UInt8 :=
  Rec.idBytes a.id ++
    if d.type = .str then
      leBytes 2 (strLen (a.str.getD []).length).toNat ++ (a.str.getD []).take (strLen (a.str.getD []).length).toNat
    else leBytes 8 a.u64.toNat

/-- The loop of `encode_attr_blob`, with `lu_count` so far. -/
def encodeAttrs (known : List AttrDesc) : UInt8 → List AttrVal → List UInt8 × UInt8
  | count, [] => ([], count)
  | count, a :: as =>
    match attrDesc? known a with
    | none => encodeAttrs known count as
    | some d =>
      if count + 1 = 255 then (attrBytes d a, count + 1)
      else
        let (blob, n) := encodeAttrs known (count + 1) as
        (attrBytes d a ++ blob, n)

/-- `cp8_core::encode_attr_blob`. -/
def Core.encodeAttrBlob (core : Core) (attrs : Option (List AttrVal)) : List UInt8 × UInt8 :=
  encodeAttrs core.attrDescs 0 (attrs.getD [])

namespace Registries

/-- A core right after its construction. -/
def init : Registries := ⟨Core.init, [], fun _ => none, [], fun _ => none, 0⟩

/-! ## Registrations -/

/-- `cp8_core::attr_register`, with the descriptor it serializes. -/
def attrRegister (regs : Registries) (alloc : Bool) (name : Option CStr) (type : AttrType) : Registered Int32 :=
  let (core, id) := regs.core.attrRegister alloc name type
  ⟨{ regs with core := core }, id, (core.attrDescs[regs.core.attrDescs.length]?).map .attr⟩

/-- `cp8_core::attr_get`. -/
def attrGet (regs : Registries) (name : Option CStr) : Int32 :=
  if !regs.core.initialized then attrErrorNotInitialized
  else
    match name with
    | none | some [] => attrErrorNotFound
    | some name => (regs.core.attrNameMap name).getD attrErrorNotFound

/-- `cp8_core::resolve_log_desc`, with the descriptor it serializes. -/
def resolveLogDesc (regs : Registries) (alloc : Bool) (hash : UInt64) (file : CStr) (line : UInt32)
    (function format : Option CStr) : Registered (Option LogDesc) :=
  let (core, desc) := regs.core.resolveLogDesc alloc hash file line function format
  ⟨{ regs with core := core }, desc, if (regs.core.logDescs hash).isNone then desc.map .log else none⟩

/-- `cp8_core::register_module`; `handle` says that `op_module` is not null. The result is the handle given out, if the call
returns true. -/
def registerModule (regs : Registries) (alloc : Bool) (name : Option CStr) (verbosity : Level) (handle : Bool) :
    Registered (Option Nat) :=
  if !regs.core.initialized then ⟨regs, none, none⟩
  else
    match name with
    | none | some [] => ⟨regs, none, none⟩
    | some name =>
      if !handle then ⟨regs, none, none⟩
      else
        match regs.logModMap name with
        | some i => ⟨{ regs with logMods := regs.logMods.modify i (fun m => { m with verbosity := verbosity }) }, some i, none⟩
        | none =>
          if !alloc then ⟨regs, none, none⟩
          else
            let i := regs.logMods.length
            let m : LogModule := { id := UInt16.ofNat i, verbosity := verbosity, name := name }
            ⟨{ regs with
                logMods := regs.logMods ++ [m]
                logModMap := fun n => if n = name then some i else regs.logModMap n }, some i, some (.mod m)⟩

/-- The definition a metric is registered with again is the one it has. -/
def sameMtk (d : MtkDesc) (base : MtkBase) : Bool :=
  d.flags == (if base.on then mtkFlagOn else 0) && f64Eq d.min base.min && f64Eq d.max base.max &&
    d.description == base.description && d.unit == base.unit

/-- The descriptor made of a definition. -/
def MtkDesc.ofBase (id : Int32) (name : CStr) (base : MtkBase) : MtkDesc :=
  { id := id
    name := name
    description := base.description
    unit := base.unit
    flags := if base.on then mtkFlagOn else 0
    min := base.min
    max := base.max }

/-- The registries with a new metric. -/
def addMtk (regs : Registries) (id : Int32) (name : CStr) (base : MtkBase) : Registries :=
  { regs with
    mtkDescs := regs.mtkDescs ++ [MtkDesc.ofBase id name base]
    mtkNameMap := fun n => if n = name then some id else regs.mtkNameMap n
    mtkCount := UInt32.ofNat (regs.mtkDescs.length + 1) }

/-- A new metric with its encoded attributes. -/
def mtkToTransmit (regs : Registries) (id : Int32) (name : CStr) (base : MtkBase) : SvcDesc :=
  let attrs := regs.core.encodeAttrBlob base.attrs
  .mtk (MtkDesc.ofBase id name base) ((registered regs.core.attrDescs (base.attrs.getD [])).take 255) attrs.1 attrs.2

/-- `cp8_core::register_mtk`; `alloc` says whether its allocations succeed. -/
def registerMtk (regs : Registries) (alloc : Bool) (base : Option MtkBase) : Registered Int32 :=
  if !regs.core.initialized then ⟨regs, mtkErrorNotInitialized, none⟩
  else
    match base with
    | none => ⟨regs, mtkErrorInvalidName, none⟩
    | some base =>
      match base.name with
      | none | some [] => ⟨regs, mtkErrorInvalidName, none⟩
      | some name =>
        match regs.mtkNameMap name with
        | some existing =>
          match regs.mtkDescs[Core.attrIndex existing]? with
          | some d => ⟨regs, if sameMtk d base then d.id else mtkErrorConflict, none⟩
          | none => ⟨regs, mtkErrorConflict, none⟩
        | none =>
          if !alloc then ⟨regs, mtkErrorAllocFailed, none⟩
          else
            let id := Int32.ofNat regs.mtkDescs.length
            ⟨regs.addMtk id name base, id, some (regs.mtkToTransmit id name base)⟩

/-- `cp8_core::get_mtk_count`. -/
def getMtkCount (regs : Registries) : UInt32 := regs.mtkCount

/-- The bounds check of `cp8_mtk::emit`. -/
def emitAccepts (regs : Registries) (id : Int32) : Bool := !(id < 0 || regs.getMtkCount ≤ id.toUInt32)

/-! ## Ids and errors -/

/-- An id below `2^31` is what it counts. -/
theorem toInt_ofNat {n : Nat} (h : n < 2 ^ 31) : (Int32.ofNat n).toInt = n := Int32.toInt_ofNat_of_lt h

/-- It is not negative. -/
theorem ofNat_nonneg {n : Nat} (h : n < 2 ^ 31) : ¬ Int32.ofNat n < 0 := by
  rw [Int32.lt_iff_toInt_lt, toInt_ofNat h]
  simp

/-- It is the position of its attribute. -/
theorem attrIndex_ofNat {n : Nat} (h : n < 2 ^ 31) : Core.attrIndex (Int32.ofNat n) = n := by
  rw [Core.attrIndex, toInt_ofNat h, Int.toNat_natCast]

/-- The errors of the registries are negative. -/
theorem attrErrors_neg :
    attrErrorNotInitialized < 0 ∧ attrErrorInvalidName < 0 ∧ attrErrorTypeMismatch < 0 ∧ attrErrorAllocFailed < 0 ∧
      attrErrorNotFound < 0 := by
  decide

/-- The error codes are negative. -/
theorem mtkErrors_neg :
    mtkErrorNotInitialized < 0 ∧ mtkErrorInvalidName < 0 ∧ mtkErrorAllocFailed < 0 ∧ mtkErrorConflict < 0 := by
  decide

end Registries

/-! ## What the blob encodes -/

/-- The bytes of an attribute are those of its pieces in a record. -/
theorem attrBytes_eq (d : AttrDesc) (a : AttrVal) : attrBytes d a = payload (attrPieces d a) := by
  unfold attrBytes attrPieces
  split
  · simp [stringPieces, Piece.data]
  · simp [Piece.data]

/-- The loop takes registered attributes until their number is 255. -/
theorem encodeAttrs_eq (known : List AttrDesc) (n : Nat) (as : List AttrVal) (hn : n < 255) :
    encodeAttrs known (UInt8.ofNat n) as =
      (payload (((registered known as).take (255 - n)).flatMap (fun p => attrPieces p.1 p.2)),
        UInt8.ofNat (n + ((registered known as).take (255 - n)).length)) := by
  induction as generalizing n with
  | nil => simp [encodeAttrs, registered]
  | cons a as ih =>
    rw [encodeAttrs, registered_cons]
    cases ha : attrDesc? known a with
    | none => exact ih n hn
    | some d =>
      dsimp only
      obtain ⟨k, hk⟩ : ∃ k, 255 - n = k + 1 := ⟨254 - n, by omega⟩
      have hsucc : UInt8.ofNat n + 1 = UInt8.ofNat (n + 1) := by simp
      rw [hk, List.take_succ_cons, List.flatMap_cons, payload_append, List.length_cons, attrBytes_eq, hsucc]
      split
      · rename_i hlast
        have hend : n + 1 = 255 := by
          have hmod : (n + 1) % 256 = 255 := by simpa using congrArg UInt8.toNat hlast
          omega
        obtain rfl : k = 0 := by omega
        simp
      · rename_i hlast
        have hlt : n + 1 < 255 := by
          rcases Nat.lt_or_ge (n + 1) 255 with hlt | hge
          · exact hlt
          · exact absurd (congrArg UInt8.ofNat (by omega : n + 1 = 255)) hlast
        have hk' : 255 - (n + 1) = k := by omega
        rw [ih (n + 1) hlt, hk']
        simp only [Nat.add_assoc, Nat.add_comm 1]

/-- The blob is the first 255 registered attributes one after the other, and the count is their number. -/
theorem encodeAttrBlob_eq (core : Core) (attrs : Option (List AttrVal)) :
    core.encodeAttrBlob attrs =
      (payload (((registered core.attrDescs (attrs.getD [])).take 255).flatMap (fun p => attrPieces p.1 p.2)),
        UInt8.ofNat ((registered core.attrDescs (attrs.getD [])).take 255).length) := by
  have h := encodeAttrs_eq core.attrDescs 0 (attrs.getD []) (by omega)
  simpa [Core.encodeAttrBlob] using h

/-! ## What a registration keeps -/

/-- What the registries see to: the names that end with a NUL have none inside, the argument types fit the descriptor's array, and
the blob of a metric is that of registered attributes, not more than 255. -/
def SvcDesc.WellFormed (known : List AttrDesc) : SvcDesc → Prop
  | .attr d => 0 ∉ d.name
  | .log d => d.args.length ≤ logMaxArgs
  | .mod m => 0 ∉ m.name
  | .mtk _ attrs blob count =>
    attrs.length ≤ 255 ∧ count = UInt8.ofNat attrs.length ∧
      blob = payload (attrs.flatMap (fun p => attrPieces p.1 p.2)) ∧ ∀ p ∈ attrs, attrDesc? known p.2 = some p.1

/-- A descriptor is the registered one; the verbosity of a module may have been set since. -/
def SvcDesc.RegisteredIn (regs : Registries) : SvcDesc → Prop
  | .attr d => d ∈ regs.core.attrDescs
  | .log d => regs.core.logDescs d.hash = some d
  | .mod m => ∃ m' ∈ regs.logMods, m'.id = m.id ∧ m'.name = m.name
  | .mtk d _ _ _ => d ∈ regs.mtkDescs

/-- The registries of `regs'` hold everything those of `regs` hold. -/
structure Registries.Grows (regs regs' : Registries) : Prop where
  core : regs.core.Grows regs'.core
  mods : ∀ m ∈ regs.logMods, ∃ m' ∈ regs'.logMods, m'.id = m.id ∧ m'.name = m.name
  mtks : regs.mtkDescs <+: regs'.mtkDescs

theorem Registries.Grows.refl (regs : Registries) : regs.Grows regs :=
  ⟨Core.Grows.refl _, fun m hm => ⟨m, hm, rfl, rfl⟩, List.prefix_refl _⟩

/-- An entry that is well formed stays so when attributes are registered. -/
theorem SvcDesc.WellFormed.mono {known known' : List AttrDesc} (hk : known <+: known') {x : SvcDesc}
    (h : x.WellFormed known) : x.WellFormed known' := by
  cases x with
  | attr d => exact h
  | log d => exact h
  | mod m => exact h
  | mtk d attrs blob count =>
    obtain ⟨hlen, hcount, hblob, hknown⟩ := h
    exact ⟨hlen, hcount, hblob, fun p hp => attrDesc?_mono hk (hknown p hp)⟩

/-- What is registered stays registered. -/
theorem SvcDesc.RegisteredIn.mono {regs regs' : Registries} (hg : regs.Grows regs') {x : SvcDesc}
    (h : x.RegisteredIn regs) : x.RegisteredIn regs' := by
  cases x with
  | attr d => exact hg.core.attrs.subset h
  | log d => exact hg.core.descs _ _ h
  | mod m =>
    obtain ⟨m', hm', hid, hname⟩ := h
    obtain ⟨m'', hm'', hid', hname'⟩ := hg.mods m' hm'
    exact ⟨m'', hm'', hid'.trans hid, hname'.trans hname⟩
  | mtk d attrs blob count => exact hg.mtks.subset h

/-- What every registration does: the registries grow, and a descriptor to be transmitted is well formed and registered. -/
structure Registered.Good {α : Type} (regs : Registries) (r : Registered α) : Prop where
  grows : regs.Grows r.regs
  sound : r.regs.core.Sound
  formed : ∀ x ∈ r.transmit, x.WellFormed r.regs.core.attrDescs ∧ x.RegisteredIn r.regs

namespace Registries

variable {regs : Registries}

/-- A registration that changes nothing and creates nothing. -/
theorem good_same {α : Type} (h : regs.core.Sound) (result : α) : Registered.Good regs ⟨regs, result, none⟩ :=
  ⟨Grows.refl _, h, fun _ hx => (by cases hx)⟩

/-- The outcomes of `attr_register`. -/
inductive AttrRegistered (core : Core) (name : Option CStr) (type : AttrType) : Core × Int32 → Prop where
  | notInitialized : AttrRegistered core name type (core, attrErrorNotInitialized)
  | invalidName : AttrRegistered core name type (core, attrErrorInvalidName)
  | mismatch (n : CStr) (id : Int32) (d : AttrDesc) (hname : name = some n) (hmap : core.attrNameMap n = some id)
      (hd : core.attrDescs[Core.attrIndex id]? = some d) (htype : d.type ≠ type) :
      AttrRegistered core name type (core, attrErrorTypeMismatch)
  | existing (n : CStr) (id : Int32) (hname : name = some n) (hmap : core.attrNameMap n = some id)
      (htype : ∀ d, core.attrDescs[Core.attrIndex id]? = some d → d.type = type) : AttrRegistered core name type (core, id)
  | allocFailed : AttrRegistered core name type (core, attrErrorAllocFailed)
  | created (n : CStr) (hname : name = some n) (hne : n ≠ []) (hmap : core.attrNameMap n = none) :
      AttrRegistered core name type
        ({ core with
            attrDescs := core.attrDescs ++ [⟨Int32.ofNat core.attrDescs.length, type, n⟩]
            attrNameMap := fun k => if k = n then some (Int32.ofNat core.attrDescs.length) else core.attrNameMap k },
          Int32.ofNat core.attrDescs.length)

/-- A registration of an attribute ends in one of these ways. -/
theorem attrRegister_cases (core : Core) (alloc : Bool) (name : Option CStr) (type : AttrType) :
    AttrRegistered core name type (core.attrRegister alloc name type) := by
  unfold Core.attrRegister
  split
  · exact .notInitialized
  · split
    · exact .invalidName
    · exact .invalidName
    · rename_i n hne
      split
      · rename_i id hmap
        split
        · rename_i d hd
          split
          · rename_i htype
            exact .mismatch n id d rfl hmap hd htype
          · rename_i htype
            refine .existing n id rfl hmap (fun d' hd' => ?_)
            rw [hd] at hd'
            cases hd'
            exact not_not.mp htype
        · rename_i hd
          refine .existing n id rfl hmap (fun d' hd' => ?_)
          rw [hd] at hd'
          cases hd'
      · rename_i hmap
        split
        · exact .allocFailed
        · exact .created n rfl hne hmap

/-- The outcomes of `register_module`. -/
inductive ModRegistered (regs : Registries) (alloc : Bool) (name : Option CStr) (verbosity : Level) (handle : Bool) :
    Registered (Option Nat) → Prop where
  | refused (h : regs.core.initialized = false ∨ name.getD [] = [] ∨ handle = false ∨
      alloc = false ∧ ∀ n, name = some n → regs.logModMap n = none) :
      ModRegistered regs alloc name verbosity handle ⟨regs, none, none⟩
  | existing (n : CStr) (i : Nat) (hname : name = some n) (hmap : regs.logModMap n = some i) :
      ModRegistered regs alloc name verbosity handle
        ⟨{ regs with logMods := regs.logMods.modify i (fun m => { m with verbosity := verbosity }) }, some i, none⟩
  | created (n : CStr) (hname : name = some n) (hne : n ≠ []) (hhandle : handle = true) (halloc : alloc = true)
      (hmap : regs.logModMap n = none) :
      ModRegistered regs alloc name verbosity handle
        ⟨{ regs with
            logMods := regs.logMods ++ [{ id := UInt16.ofNat regs.logMods.length, verbosity := verbosity, name := n }]
            logModMap := fun k => if k = n then some regs.logMods.length else regs.logModMap k },
          some regs.logMods.length,
          some (.mod { id := UInt16.ofNat regs.logMods.length, verbosity := verbosity, name := n })⟩

theorem registerModule_cases (regs : Registries) (alloc : Bool) (name : Option CStr) (verbosity : Level) (handle : Bool) :
    ModRegistered regs alloc name verbosity handle (regs.registerModule alloc name verbosity handle) := by
  unfold registerModule
  split
  · rename_i hinit
    exact .refused (Or.inl (by simpa using hinit))
  · split
    · exact .refused (Or.inr (Or.inl rfl))
    · exact .refused (Or.inr (Or.inl rfl))
    · rename_i n hne
      split
      · rename_i hhandle
        exact .refused (Or.inr (Or.inr (Or.inl (by simpa using hhandle))))
      · rename_i hhandle
        split
        · rename_i i hmap
          exact .existing n i rfl hmap
        · rename_i hmap
          split
          · rename_i halloc
            refine .refused (Or.inr (Or.inr (Or.inr ⟨by simpa using halloc, fun n' hn => ?_⟩)))
            cases hn
            exact hmap
          · rename_i halloc
            exact .created n rfl hne (by simpa using hhandle) (by simpa using halloc) hmap

/-- The outcomes of `register_mtk`. -/
inductive MtkRegistered (regs : Registries) (base : Option MtkBase) : Registered Int32 → Prop where
  | notInitialized : MtkRegistered regs base ⟨regs, mtkErrorNotInitialized, none⟩
  | invalidName : MtkRegistered regs base ⟨regs, mtkErrorInvalidName, none⟩
  | conflict : MtkRegistered regs base ⟨regs, mtkErrorConflict, none⟩
  | existing (b : MtkBase) (n : CStr) (id : Int32) (d : MtkDesc) (hbase : base = some b) (hname : b.name = some n)
      (hmap : regs.mtkNameMap n = some id) (hd : regs.mtkDescs[Core.attrIndex id]? = some d) (hsame : sameMtk d b = true) :
      MtkRegistered regs base ⟨regs, d.id, none⟩
  | allocFailed : MtkRegistered regs base ⟨regs, mtkErrorAllocFailed, none⟩
  | created (b : MtkBase) (n : CStr) (hbase : base = some b) (hname : b.name = some n) (hmap : regs.mtkNameMap n = none) :
      MtkRegistered regs base ⟨regs.addMtk (Int32.ofNat regs.mtkDescs.length) n b, Int32.ofNat regs.mtkDescs.length,
        some (regs.mtkToTransmit (Int32.ofNat regs.mtkDescs.length) n b)⟩

theorem registerMtk_cases (regs : Registries) (alloc : Bool) (base : Option MtkBase) :
    MtkRegistered regs base (regs.registerMtk alloc base) := by
  unfold registerMtk
  split
  · exact .notInitialized
  · split
    · exact .invalidName
    · rename_i b
      split
      · exact .invalidName
      · exact .invalidName
      · rename_i n _ hname
        split
        · rename_i id hmap
          split
          · rename_i d hd
            by_cases hsame : sameMtk d b = true
            · rw [if_pos hsame]
              exact .existing b n id d rfl hname hmap hd hsame
            · rw [if_neg hsame]
              exact .conflict
          · exact .conflict
        · rename_i hmap
          split
          · exact .allocFailed
          · exact .created b n rfl hname hmap

/-- Registering an attribute is a good registration. -/
theorem good_attrRegister (h : regs.core.Sound) (alloc : Bool) {name : Option CStr} (hname : ∀ n ∈ name, 0 ∉ n)
    (type : AttrType) : (regs.attrRegister alloc name type).Good regs where
  grows := ⟨Core.grows_attrRegister _ _ _ _, fun m hm => ⟨m, hm, rfl, rfl⟩, List.prefix_refl _⟩
  sound := Core.sound_attrRegister h _ _ _
  formed := by
    intro x hx
    have hcases := attrRegister_cases regs.core alloc name type
    unfold attrRegister at hx ⊢
    generalize regs.core.attrRegister alloc name type = r at hcases hx ⊢
    cases hcases with
    | created n hn hne hmap =>
      simp only [List.getElem?_concat_length, Option.map_some, Option.mem_def, Option.some.injEq] at hx
      subst hx
      exact ⟨hname n hn, List.mem_append_right _ (List.mem_singleton.mpr rfl)⟩
    | _ => simp at hx

theorem good_resolveLogDesc (h : regs.core.Sound) (alloc : Bool) (hash : UInt64) (file : CStr) (line : UInt32)
    (function format : Option CStr) : (regs.resolveLogDesc alloc hash file line function format).Good regs where
  grows := ⟨Core.grows_resolveLogDesc _ _ _ _ _ _ _, fun m hm => ⟨m, hm, rfl, rfl⟩, List.prefix_refl _⟩
  sound := Core.sound_resolveLogDesc h _ _ _ _ _ _
  formed := by
    intro x hx
    have hsound := Core.sound_resolveLogDesc h alloc hash file line function format
    unfold resolveLogDesc at hx
    dsimp only at hx
    split at hx
    · obtain ⟨d, hd, rfl⟩ := Option.map_eq_some_iff.mp hx
      have hreg := Core.resolveLogDesc_registered (Prod.ext rfl hd)
      obtain ⟨rfl, hargs⟩ := hsound _ _ hreg
      exact ⟨hargs.length_le, hreg⟩
    · cases hx

theorem good_registerModule (h : regs.core.Sound) (alloc : Bool) {name : Option CStr} (hname : ∀ n ∈ name, 0 ∉ n)
    (verbosity : Level) (handle : Bool) : (regs.registerModule alloc name verbosity handle).Good regs := by
  have hcases := registerModule_cases regs alloc name verbosity handle
  generalize regs.registerModule alloc name verbosity handle = r at hcases ⊢
  cases hcases with
  | refused _ => exact good_same h _
  | existing n i hn hmap =>
    refine ⟨⟨Core.Grows.refl _, fun m hm => ?_, List.prefix_refl _⟩, h, fun _ hx => (by cases hx)⟩
    obtain ⟨k, hk, rfl⟩ := List.mem_iff_getElem.mp hm
    refine ⟨_, List.getElem_mem (n := k) (by rw [List.length_modify]; exact hk), ?_⟩
    rw [List.getElem_modify]
    split
    · exact ⟨rfl, rfl⟩
    · exact ⟨rfl, rfl⟩
  | created n hn hne hhandle halloc hmap =>
    refine ⟨⟨Core.Grows.refl _, fun m hm => ⟨m, List.mem_append_left _ hm, rfl, rfl⟩, List.prefix_refl _⟩, h, ?_⟩
    intro x hx
    cases hx
    exact ⟨hname n hn, _, List.mem_append_right _ (List.mem_singleton.mpr rfl), rfl, rfl⟩

theorem good_registerMtk (h : regs.core.Sound) (alloc : Bool) (base : Option MtkBase) :
    (regs.registerMtk alloc base).Good regs := by
  have hcases := registerMtk_cases regs alloc base
  generalize regs.registerMtk alloc base = r at hcases ⊢
  cases hcases with
  | created b n hbase hname hmap =>
    refine ⟨⟨Core.Grows.refl _, fun m hm => ⟨m, hm, rfl, rfl⟩, List.prefix_append _ _⟩, h, ?_⟩
    intro x hx
    cases hx
    have hblob := encodeAttrBlob_eq regs.core b.attrs
    refine ⟨⟨by rw [List.length_take]; omega, by rw [hblob], by rw [hblob], fun p hp => ?_⟩,
      List.mem_append_right _ (List.mem_singleton.mpr rfl)⟩
    exact attrDesc?_of_registered (List.mem_of_mem_take hp)
  | _ => exact good_same h _

end Registries

end P8
