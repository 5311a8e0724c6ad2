import P8.Format

/-!
# Registry: attributes and log descriptors of a core

The registries a log writer reads while it writes a record: `mo_attr_descs` with its name map and `mo_log_descs`. Both only
grow, and a descriptor once registered is never changed (`Core.Grows`), which is what lets a writer keep a cache of them and a
reader resolve an old record by the registry of a later time. What registering one adds to the service stream is not part of
this module.
-/

namespace P8

/-- `e_p8_level`, from `e_p8_trace0` = 0 to `e_p8_critical3` = 23. -/
abbrev Level : Type := Fin 24

instance levelNeZero : NeZero 24 := ⟨by decide⟩

/-- `e_p8_attr_type`. -/
inductive AttrType where
  | str | f64 | i64 | u64
  deriving DecidableEq, Repr

/-- `s_p8_attr_desc`. -/
structure AttrDesc where
  id : Int32
  type : AttrType
  name : CStr
  deriving DecidableEq

/-- `s_p8_attr_val`: an attribute id with its value, the union given by its view as a string and its view as 64 bits. -/
structure AttrVal where
  id : Int32
  str : Option CStr
  u64 : UInt64

/-- `s_p8_log_desc`; `args` is `ma_args` up to `mz_args_count`. -/
structure LogDesc where
  hash : UInt64
  format : Option CStr
  file : CStr
  function : Option CStr
  line : UInt32
  fixedArgsSize : Nat
  args : List LogVarg

/-- `s_p8_log_mod`, what a record reads of it. -/
structure LogMod where
  id : UInt16
  verbosity : Level

/-- `P8_LOG_MAX_ARGS`. -/
def logMaxArgs : Nat := 32

/-- The registries of a `cp8_core`. -/
structure Core where
  initialized : Bool
  logDescs : UInt64 → Option LogDesc
  attrDescs : List AttrDesc
  attrNameMap : CStr → Option Int32
  defaultVerbosity : Level

/-- The errors of `attr_register`. -/
def attrErrorNotInitialized : Int32 := -1
def attrErrorInvalidName : Int32 := -2
def attrErrorTypeMismatch : Int32 := -3
def attrErrorAllocFailed : Int32 := -4

namespace Core

/-- A core right after its construction. -/
def init : Core := ⟨true, fun _ => none, [], fun _ => none, 0⟩

/-- `static_cast<size_t>` of a non-negative attribute id. -/
def attrIndex (id : Int32) : Nat := id.toInt.toNat

/-- `cp8_core::attr_register`; `alloc` says whether both its allocations succeed. -/
def attrRegister (core : Core) (alloc : Bool) (name : Option CStr) (type : AttrType) : Core × Int32 :=
  if !core.initialized then (core, attrErrorNotInitialized)
  else
    match name with
    | none | some [] => (core, attrErrorInvalidName)
    | some name =>
      match core.attrNameMap name with
      | some existing =>
        match core.attrDescs[attrIndex existing]? with
        | some d => if d.type ≠ type then (core, attrErrorTypeMismatch) else (core, existing)
        | none => (core, existing)
      | none =>
        if !alloc then (core, attrErrorAllocFailed)
        else
          let id := Int32.ofNat core.attrDescs.length
          ({ core with
              attrDescs := core.attrDescs ++ [⟨id, type, name⟩]
              attrNameMap := fun n => if n = name then some id else core.attrNameMap n }, id)

/-- `cp8_core::sync_attr_cache`: the cache with the descriptors it does not have yet. -/
def syncAttrCache (core : Core) (cache : List AttrDesc) : List AttrDesc :=
  if core.attrDescs.length ≤ cache.length then cache else cache ++ core.attrDescs.drop cache.length

/-- `cp8_core::resolve_log_desc`: the registered descriptor of a hash, or a new one made from the call. -/
def resolveLogDesc (core : Core) (alloc : Bool) (hash : UInt64) (file : CStr) (line : UInt32)
    (function format : Option CStr) : Core × Option LogDesc :=
  match core.logDescs hash with
  | some d => (core, some d)
  | none =>
    if !alloc then (core, none)
    else
      let args := parseFormatString logMaxArgs format
      let desc : LogDesc :=
        { hash := hash
          format := format
          file := file
          function := function
          line := line
          fixedArgsSize := ((args.filter (fun a => !a.isStr)).map (fun a => a.size.toNat)).sum
          args := args }
      ({ core with logDescs := fun h => if h = hash then some desc else core.logDescs h }, some desc)

/-- `cp8_core::set_verbosity` for the null module. -/
def setVerbosity (core : Core) (verbosity : Level) : Core := { core with defaultVerbosity := verbosity }

/-! ## What a registry keeps -/

/-- The registries of `core'` hold everything those of `core` hold. -/
structure Grows (core core' : Core) : Prop where
  attrs : core.attrDescs <+: core'.attrDescs
  descs : ∀ h d, core.logDescs h = some d → core'.logDescs h = some d

/-- Registries grow into themselves. -/
theorem Grows.refl (core : Core) : Grows core core :=
  ⟨List.prefix_refl _, fun _ _ h => h⟩

/-- Registries that have grown may grow further. -/
theorem Grows.trans {core core' core'' : Core} (h : Grows core core') (h' : Grows core' core'') : Grows core core'' :=
  ⟨h.attrs.trans h'.attrs, fun k d hd => h'.descs k d (h.descs k d hd)⟩

/-- An attribute is registered. -/
theorem grows_attrRegister (core : Core) (alloc : Bool) (name : Option CStr) (type : AttrType) :
    Grows core (core.attrRegister alloc name type).1 := by
  unfold attrRegister
  repeat' split
  all_goals first
    | exact Grows.refl core
    | exact ⟨List.prefix_append _ _, fun _ _ h => h⟩

/-- A call site is registered. -/
theorem grows_resolveLogDesc (core : Core) (alloc : Bool) (hash : UInt64) (file : CStr) (line : UInt32)
    (function format : Option CStr) : Grows core (core.resolveLogDesc alloc hash file line function format).1 := by
  unfold resolveLogDesc
  split
  · exact Grows.refl core
  · rename_i hnone
    split
    · exact Grows.refl core
    · refine ⟨List.prefix_refl _, fun h d hd => ?_⟩
      have hne : h ≠ hash := by
        rintro rfl
        rw [hnone] at hd
        cases hd
      simp [hne, hd]

/-- A verbosity registers nothing. -/
theorem grows_setVerbosity (core : Core) (verbosity : Level) : Grows core (core.setVerbosity verbosity) :=
  ⟨List.prefix_refl _, fun _ _ h => h⟩

/-- Every registered descriptor is filed under its own hash, with an argument list as the parser builds it. -/
def Sound (core : Core) : Prop :=
  ∀ h d, core.logDescs h = some d → d.hash = h ∧ ArgList logMaxArgs d.args

theorem sound_init : Core.init.Sound := by
  intro h d hd
  cases hd

/-- Sound registries stay so when an attribute is registered. -/
theorem sound_attrRegister {core : Core} (hc : core.Sound) (alloc : Bool) (name : Option CStr) (type : AttrType) :
    (core.attrRegister alloc name type).1.Sound := by
  unfold attrRegister
  repeat' split
  all_goals exact hc

/-- They stay so when a call site is registered. -/
theorem sound_resolveLogDesc {core : Core} (hc : core.Sound) (alloc : Bool) (hash : UInt64) (file : CStr) (line : UInt32)
    (function format : Option CStr) : (core.resolveLogDesc alloc hash file line function format).1.Sound := by
  unfold resolveLogDesc
  split
  · exact hc
  · split
    · exact hc
    · intro h d hd
      dsimp only at hd
      split at hd
      · rename_i he
        cases hd
        exact ⟨he.symm, parseFormatString_slot _ _⟩
      · exact hc h d hd

/-- A resolved descriptor is the registered one. -/
theorem resolveLogDesc_registered {core core' : Core} {alloc : Bool} {hash : UInt64} {file : CStr} {line : UInt32}
    {function format : Option CStr} {d : LogDesc}
    (h : core.resolveLogDesc alloc hash file line function format = (core', some d)) : core'.logDescs hash = some d := by
  unfold resolveLogDesc at h
  split at h
  · rename_i hd
    cases h
    exact hd
  · split at h
    · cases h
    · cases h
      simp

/-- A synced cache holds the descriptors registered. -/
theorem syncAttrCache_of_prefix {core : Core} {cache : List AttrDesc} (h : cache <+: core.attrDescs) :
    core.syncAttrCache cache = core.attrDescs := by
  obtain ⟨rest, hr⟩ := h
  unfold syncAttrCache
  rw [← hr]
  split
  · rename_i hle
    simp only [List.length_append] at hle
    have hnil : rest = [] := List.length_eq_zero_iff.mp (by omega)
    simp [hnil]
  · simp

end Core

end P8
