import P8.Service.Registries

/-!
# Entry: the wire structures of the service stream

What the four serializers write for a descriptor: the size they reserve and the fields they store in the reserved block, in
their order (`Entry`). Two of them end a name with a NUL, two of them count the bytes of their strings, and a metric's entry
ends with the blob of its attributes. `decodeEntry` is how the receiver takes an entry apart by the lengths in it;
`decode_entry` is the round trip.
-/

namespace P8

open Bytes Framing LogItemDat

/-- `P8_PACKET_SERVICE`. -/
def packetService : UInt8 := 4

namespace SvcType

/-! The codes `P8_SVC_TYPE_XXX` of the descriptors that are transmitted. -/

def logDesc : UInt8 := 0x01
def attr : UInt8 := 0x02
def mtk : UInt8 := 0x05
def module : UInt8 := 0x06

end SvcType

/-- `P8_SVC_STR_MAX_LEN`. -/
def svcStrMaxLen : Nat := 1024

/-- The sizes of `s_p8_svc_hdr`, `s_p8_attr_svc`, `s_p8_log_mod_svc`, `s_p8_log_item_svc`, `s_p8_mtk_svc` and `s_p8_log_varg`. -/
def sizeofSvcHdr : Nat := 4
def sizeofAttrSvc : Nat := 12
def sizeofLogModSvc : Nat := 8
def sizeofLogItemSvc : Nat := 24
def sizeofMtkSvc : Nat := 32
def sizeofLogVarg : Nat := 2

/-- `P8_ALIGN_UP_8`. -/
def alignUp8 (n : Nat) : Nat := (n + 7) / 8 * 8

/-- The part of a string that is transmitted: as many of its bytes as its length modulo `P8_SVC_STR_MAX_LEN`. -/
def svcStr (s : Option CStr) : List UInt8 := (s.getD []).take ((s.getD []).length % svcStrMaxLen)

/-- `e_p8_attr_type` as a number. -/
def AttrType.code : AttrType → UInt8
  | .str => 0
  | .f64 => 1
  | .i64 => 2
  | .u64 => 3

/-! ## The serializers -/

/-- What a serializer does: the size it reserves, and its stores at offsets from `lp_dst`. -/
structure Entry where
  padded : Nat
  stores : List (Nat × List UInt8)

/-- The fields of `ms_hdr`. -/
def svcHdr (svcType : UInt8) (padded : Nat) : List UInt8 :=
  leBytes 1 packetService.toNat ++ leBytes 1 svcType.toNat ++ leBytes 2 (UInt16.ofNat padded).toNat

/-- What `serialize_attr_desc` writes. -/
def AttrDesc.entry (d : AttrDesc) : Entry :=
  let name := svcStr (some d.name)
  let padded := alignUp8 (sizeofAttrSvc + name.length + 1)
  { padded := padded
    stores :=
      [(0, svcHdr SvcType.attr padded ++ leBytes 4 d.id.toUInt32.toNat ++ leBytes 1 d.type.code.toNat),
        (sizeofAttrSvc, name),
        (sizeofAttrSvc + name.length, [0])] }

/-- The bytes of an argument type. -/
def LogVarg.bytes (a : LogVarg) : List UInt8 := [a.type, a.size]

/-- What `serialize_log_desc` writes. -/
def LogDesc.entry (d : LogDesc) : Entry :=
  let file := svcStr (some d.file)
  let function := svcStr d.function
  let format := svcStr d.format
  let args := d.args.take logMaxArgs
  let padded := alignUp8 (sizeofLogItemSvc + file.length + function.length + format.length + args.length * sizeofLogVarg)
  { padded := padded
    stores :=
      [(0, svcHdr SvcType.logDesc padded ++ leBytes 4 d.line.toNat ++ leBytes 8 d.hash.toNat ++
          leBytes 2 (UInt16.ofNat format.length).toNat ++ leBytes 2 (UInt16.ofNat file.length).toNat ++
          leBytes 2 (UInt16.ofNat function.length).toNat ++ leBytes 1 (UInt8.ofNat args.length).toNat),
        (sizeofLogItemSvc, file),
        (sizeofLogItemSvc + file.length, function),
        (sizeofLogItemSvc + file.length + function.length, format),
        (sizeofLogItemSvc + file.length + function.length + format.length, args.flatMap LogVarg.bytes)] }

/-- What `serialize_log_mod` writes. -/
def LogModule.entry (m : LogModule) : Entry :=
  let name := svcStr (some m.name)
  let padded := alignUp8 (sizeofLogModSvc + name.length + 1)
  { padded := padded
    stores :=
      [(0, svcHdr SvcType.module padded ++ leBytes 2 m.id.toNat ++ leBytes 1 (UInt8.ofNat m.verbosity.val).toNat),
        (sizeofLogModSvc, name),
        (sizeofLogModSvc + name.length, [0])] }

/-- What `serialize_mtk_desc` writes. -/
def MtkDesc.entry (d : MtkDesc) (blob : List UInt8) (count : UInt8) : Entry :=
  let name := svcStr (some d.name)
  let desc := svcStr d.description
  let unit := svcStr d.unit
  let padded := alignUp8 (sizeofMtkSvc + name.length + desc.length + unit.length + blob.length)
  { padded := padded
    stores :=
      [(0, svcHdr SvcType.mtk padded ++ leBytes 4 d.id.toUInt32.toNat ++ leBytes 8 d.min.toNat ++ leBytes 8 d.max.toNat ++
          leBytes 1 d.flags.toNat ++ leBytes 1 count.toNat ++ leBytes 2 (UInt16.ofNat name.length).toNat ++
          leBytes 2 (UInt16.ofNat desc.length).toNat ++ leBytes 2 (UInt16.ofNat unit.length).toNat),
        (sizeofMtkSvc, name),
        (sizeofMtkSvc + name.length, desc),
        (sizeofMtkSvc + name.length + desc.length, unit),
        (sizeofMtkSvc + name.length + desc.length + unit.length, blob)] }

/-- The serializer of a descriptor. -/
def SvcDesc.entry : SvcDesc → Entry
  | .attr d => d.entry
  | .log d => d.entry
  | .mod m => m.entry
  | .mtk d _ blob count => d.entry blob count

/-- The bytes of an entry: its block with the stores made. -/
def Entry.bytes (e : Entry) : List UInt8 := image e.padded e.stores

/-! ## The receiver -/

/-- A descriptor as it is received. -/
inductive SvcEntry where
  | attr (id : Int32) (type : UInt8) (name : List UInt8)
  | log (line : UInt32) (hash : UInt64) (file function format : List UInt8) (args : List LogVarg)
  | mod (id : UInt16) (verbosity : UInt8) (name : List UInt8)
  | mtk (id : Int32) (min max : UInt64) (flags : UInt8) (name description unit : List UInt8)
      (attrs : List (Int32 × AttrData))
  deriving DecidableEq

/-- `ms_hdr.mu_size` of an entry. -/
def svcSize (bs : List UInt8) : Nat := field bs 2 2

/-- The entries of a service buffer. -/
def svcWalk (bs : List UInt8) : Option (List (List UInt8)) := SelfSized.cut svcSize sizeofSvcHdr bs.length bs

/-- The bytes before the first NUL, and those from it on. -/
def readName (bs : List UInt8) : List UInt8 × List UInt8 := (bs.takeWhile (· ≠ 0), bs.dropWhile (· ≠ 0))

/-- Argument types, two bytes each. -/
def readVargs : List UInt8 → List LogVarg
  | t :: s :: bs => ⟨t, s⟩ :: readVargs bs
  | _ => []

def decodeAttr (bs : List UInt8) : SvcEntry × List UInt8 :=
  let (name, rest) := readName (bs.drop sizeofAttrSvc)
  (.attr (UInt32.ofNat (field bs 4 4)).toInt32 (UInt8.ofNat (field bs 8 1)) name, rest)

def decodeLogDesc (bs : List UInt8) : Option (SvcEntry × List UInt8) := do
  let (file, rest) ← takeBytes (field bs 18 2) (bs.drop sizeofLogItemSvc)
  let (function, rest) ← takeBytes (field bs 20 2) rest
  let (format, rest) ← takeBytes (field bs 16 2) rest
  let (args, rest) ← takeBytes (field bs 22 1 * sizeofLogVarg) rest
  return (.log (UInt32.ofNat (field bs 4 4)) (UInt64.ofNat (field bs 8 8)) file function format (readVargs args), rest)

def decodeLogMod (bs : List UInt8) : SvcEntry × List UInt8 :=
  let (name, rest) := readName (bs.drop sizeofLogModSvc)
  (.mod (UInt16.ofNat (field bs 4 2)) (UInt8.ofNat (field bs 6 1)) name, rest)

/-- A metric's attributes are read by the types of the registered ones. -/
def decodeMtk (known : List AttrDesc) (bs : List UInt8) : Option (SvcEntry × List UInt8) := do
  let (name, rest) ← takeBytes (field bs 26 2) (bs.drop sizeofMtkSvc)
  let (description, rest) ← takeBytes (field bs 28 2) rest
  let (unit, rest) ← takeBytes (field bs 30 2) rest
  let (attrs, rest) ← readAttrs known (field bs 25 1) rest
  return (.mtk (UInt32.ofNat (field bs 4 4)).toInt32 (UInt64.ofNat (field bs 8 8)) (UInt64.ofNat (field bs 16 8))
    (UInt8.ofNat (field bs 24 1)) name description unit attrs, rest)

/-- An entry taken apart by its own length fields, and what is left of it. -/
def decodeEntry (known : List AttrDesc) (bs : List UInt8) : Option (SvcEntry × List UInt8) :=
  if field bs 0 1 ≠ packetService.toNat then none
  else
    let svcType := UInt8.ofNat (field bs 1 1)
    if svcType = SvcType.logDesc then decodeLogDesc bs
    else if svcType = SvcType.attr then some (decodeAttr bs)
    else if svcType = SvcType.mtk then decodeMtk known bs
    else if svcType = SvcType.module then some (decodeLogMod bs)
    else none

/-- A descriptor as its receiver is to see it. -/
def SvcDesc.shown : SvcDesc → SvcEntry
  | .attr d => .attr d.id d.type.code (svcStr (some d.name))
  | .log d => .log d.line d.hash (svcStr (some d.file)) (svcStr d.function) (svcStr d.format) d.args
  | .mod m => .mod m.id (UInt8.ofNat m.verbosity.val) (svcStr (some m.name))
  | .mtk d attrs _ _ =>
    .mtk d.id d.min d.max d.flags (svcStr (some d.name)) (svcStr d.description) (svcStr d.unit) (attrs.map attrValue)

/-! ## The round trip -/

/-- A text is shorter than its bound. -/
theorem length_svcStr_lt (s : Option CStr) : (svcStr s).length < svcStrMaxLen := by
  have hpos : 0 < svcStrMaxLen := by decide
  have := Nat.mod_lt (s.getD []).length hpos
  rw [svcStr, List.length_take]
  omega

/-- A transmitted text is a front of the text. -/
theorem svcStr_front (s : Option CStr) : svcStr s <+: s.getD [] := List.take_prefix _ _

@[simp] theorem length_svcHdr (svcType : UInt8) (padded : Nat) : (svcHdr svcType padded).length = 4 := by
  simp [svcHdr]

/-- Rounding up takes nothing away. -/
theorem le_alignUp8 (n : Nat) : n ≤ alignUp8 n := by
  unfold alignUp8
  omega

/-- It gives a multiple of 8. -/
theorem dvd_alignUp8 (n : Nat) : 8 ∣ alignUp8 n := by
  unfold alignUp8
  omega

@[simp] theorem length_vargBytes (as : List LogVarg) : (as.flatMap LogVarg.bytes).length = as.length * sizeofLogVarg := by
  induction as with
  | nil => rfl
  | cons a as ih =>
    rw [List.flatMap_cons, List.length_append, ih, List.length_cons, Nat.add_mul, Nat.add_comm]
    rfl

/-- The stores of a serializer stand in the block it reserves, one behind the other. -/
theorem ascends_entry (x : SvcDesc) : Ascends x.entry.padded 0 x.entry.stores := by
  cases x with
  | attr d =>
    have := le_alignUp8 (sizeofAttrSvc + (svcStr (some d.name)).length + 1)
    simp [SvcDesc.entry, AttrDesc.entry, Ascends, sizeofAttrSvc] at *
    omega
  | log d =>
    have := le_alignUp8 (sizeofLogItemSvc + (svcStr (some d.file)).length + (svcStr d.function).length +
      (svcStr d.format).length + (d.args.take logMaxArgs).length * sizeofLogVarg)
    simp only [SvcDesc.entry, LogDesc.entry, Ascends, sizeofLogItemSvc, length_vargBytes] at *
    simp at *
    omega
  | mod m =>
    have := le_alignUp8 (sizeofLogModSvc + (svcStr (some m.name)).length + 1)
    simp [SvcDesc.entry, LogModule.entry, Ascends, sizeofLogModSvc] at *
    omega
  | mtk d attrs blob count =>
    have := le_alignUp8 (sizeofMtkSvc + (svcStr (some d.name)).length + (svcStr d.description).length +
      (svcStr d.unit).length + blob.length)
    simp [SvcDesc.entry, MtkDesc.entry, Ascends, sizeofMtkSvc] at *
    omega

/-- A list of arguments is read back. -/
theorem readVargs_bytes (as : List LogVarg) : readVargs (as.flatMap LogVarg.bytes) = as := by
  induction as with
  | nil => rfl
  | cons a as ih =>
    rw [List.flatMap_cons]
    show readVargs (a.type :: a.size :: as.flatMap LogVarg.bytes) = _
    rw [readVargs, ih]

/-- A name is read up to its terminating zero. -/
theorem readName_append {name : List UInt8} (h : 0 ∉ name) (k : Nat) :
    readName (name ++ ([0] ++ List.replicate k 0)) = (name, List.replicate (k + 1) 0) := by
  have hne : ∀ b ∈ name, decide (b ≠ 0) = true := fun b hb => by
    rw [decide_eq_true_eq]
    rintro rfl
    exact h hb
  rw [readName, List.takeWhile_append_of_pos hne, List.dropWhile_append_of_pos hne]
  simp [List.replicate_succ]

/-- The head of every entry: its packet type and its own type. -/
theorem field_svcHdr (svcType : UInt8) (padded : Nat) (rest : List UInt8) :
    field (svcHdr svcType padded ++ rest) 0 1 = packetService.toNat ∧
      UInt8.ofNat (field (svcHdr svcType padded ++ rest) 1 1) = svcType := by
  constructor
  · simp only [svcHdr, List.append_assoc, field_front, length_leBytes]
    rfl
  · simp only [svcHdr, List.append_assoc, field_skip, field_front, length_leBytes, Nat.le_refl, Nat.sub_self, ofNat8_leVal]

/-- An entry is read by the reader of its type. -/
theorem decodeEntry_svcHdr (known : List AttrDesc) (svcType : UInt8) (padded : Nat) (rest : List UInt8) :
    decodeEntry known (svcHdr svcType padded ++ rest) =
      if svcType = SvcType.logDesc then decodeLogDesc (svcHdr svcType padded ++ rest)
      else if svcType = SvcType.attr then some (decodeAttr (svcHdr svcType padded ++ rest))
      else if svcType = SvcType.mtk then decodeMtk known (svcHdr svcType padded ++ rest)
      else if svcType = SvcType.module then some (decodeLogMod (svcHdr svcType padded ++ rest))
      else none := by
  obtain ⟨hpacket, htype⟩ := field_svcHdr svcType padded rest
  rw [decodeEntry, if_neg (not_not_intro hpacket), htype]

/-- Dropping goes on behind a run of bytes it covers. -/
theorem drop_skip (pre bs : List UInt8) (n : Nat) (h : pre.length ≤ n) : (pre ++ bs).drop n = bs.drop (n - pre.length) := by
  rw [List.drop_append, List.drop_of_length_le h, List.nil_append]

/-- The bytes in front are taken off. -/
theorem takeBytes_length (xs rest : List UInt8) : takeBytes xs.length (xs ++ rest) = some (xs, rest) :=
  takeBytes_append rfl rest

/-- The length of a transmitted string is read back. -/
theorem leVal_svcStr (s : Option CStr) : leVal (leBytes 2 (UInt16.ofNat (svcStr s).length).toNat) = (svcStr s).length := by
  have hlt := length_svcStr_lt s
  have hmax : svcStrMaxLen < 65536 := by decide
  rw [leVal_leBytes_of_lt (by simpa using (UInt16.ofNat (svcStr s).length).toNat_lt), UInt16.toNat_ofNat']
  omega

/-- The entry of an attribute is read back. -/
theorem decode_attr (known : List AttrDesc) {d : AttrDesc} (h : 0 ∉ d.name) :
    ∃ k, decodeEntry known d.entry.bytes = some ((SvcDesc.attr d).shown, List.replicate k 0) := by
  obtain ⟨k, hk⟩ : ∃ k, d.entry.bytes = svcHdr SvcType.attr d.entry.padded ++ (leBytes 4 d.id.toUInt32.toNat ++
      (leBytes 1 d.type.code.toNat ++ (List.replicate 3 0 ++ (svcStr (some d.name) ++ ([0] ++ List.replicate k 0))))) :=
    ⟨_, by simp [Entry.bytes, AttrDesc.entry, image, laid, sizeofAttrSvc]; rfl⟩
  have hname : 0 ∉ svcStr (some d.name) := fun h0 => h ((svcStr_front _).subset h0)
  refine ⟨k + 1, ?_⟩
  rw [hk, decodeEntry_svcHdr, if_neg (by decide), if_pos rfl, decodeAttr]
  simp only [field_skip, field_front, drop_skip, length_leBytes, length_svcHdr, List.length_replicate, Nat.reduceLeDiff,
    Nat.le_refl, Nat.reduceSub, Nat.sub_self, List.drop_zero, sizeofAttrSvc, readName_append hname, ofNat8_leVal,
    ofNat32_leVal, Int32.toInt32_toUInt32]
  rfl

/-- The entry of a module is read back. -/
theorem decode_mod (known : List AttrDesc) {m : LogModule} (h : 0 ∉ m.name) :
    ∃ k, decodeEntry known m.entry.bytes = some ((SvcDesc.mod m).shown, List.replicate k 0) := by
  obtain ⟨k, hk⟩ : ∃ k, m.entry.bytes = svcHdr SvcType.module m.entry.padded ++ (leBytes 2 m.id.toNat ++
      (leBytes 1 (UInt8.ofNat m.verbosity.val).toNat ++
        (List.replicate 1 0 ++ (svcStr (some m.name) ++ ([0] ++ List.replicate k 0))))) :=
    ⟨_, by simp [Entry.bytes, LogModule.entry, image, laid, sizeofLogModSvc]; rfl⟩
  have hname : 0 ∉ svcStr (some m.name) := fun h0 => h ((svcStr_front _).subset h0)
  refine ⟨k + 1, ?_⟩
  rw [hk, decodeEntry_svcHdr, if_neg (by decide), if_neg (by decide), if_neg (by decide), if_pos rfl, decodeLogMod]
  simp only [field_skip, field_front, drop_skip, length_leBytes, length_svcHdr, List.length_replicate, Nat.reduceLeDiff,
    Nat.le_refl, Nat.reduceSub, Nat.sub_self, List.drop_zero, sizeofLogModSvc, readName_append hname, ofNat8_leVal,
    ofNat16_leVal]
  rfl

/-- The entry of a log descriptor is read back. -/
theorem decode_logDesc (known : List AttrDesc) {d : LogDesc} (h : d.args.length ≤ logMaxArgs) :
    ∃ k, decodeEntry known d.entry.bytes = some ((SvcDesc.log d).shown, List.replicate k 0) := by
  have hall : d.args.take logMaxArgs = d.args := List.take_of_length_le h
  obtain ⟨k, hk⟩ : ∃ k, d.entry.bytes = svcHdr SvcType.logDesc d.entry.padded ++ (leBytes 4 d.line.toNat ++
      (leBytes 8 d.hash.toNat ++ (leBytes 2 (UInt16.ofNat (svcStr d.format).length).toNat ++
        (leBytes 2 (UInt16.ofNat (svcStr (some d.file)).length).toNat ++
          (leBytes 2 (UInt16.ofNat (svcStr d.function).length).toNat ++
            (leBytes 1 (UInt8.ofNat d.args.length).toNat ++ (List.replicate 1 0 ++ (svcStr (some d.file) ++
              (svcStr d.function ++ (svcStr d.format ++ (d.args.flatMap LogVarg.bytes ++ List.replicate k 0))))))))))) :=
    ⟨_, by simp [Entry.bytes, LogDesc.entry, image, laid, sizeofLogItemSvc, hall]; rfl⟩
  have hcount : leVal (leBytes 1 (UInt8.ofNat d.args.length).toNat) = d.args.length := by
    have hmax : logMaxArgs = 32 := rfl
    rw [leVal_leBytes_of_lt (by simpa using (UInt8.ofNat d.args.length).toNat_lt), UInt8.toNat_ofNat']
    omega
  refine ⟨k, ?_⟩
  rw [hk, decodeEntry_svcHdr, if_pos rfl, decodeLogDesc]
  simp only [field_skip, field_front, drop_skip, length_leBytes, length_svcHdr, List.length_replicate, Nat.reduceLeDiff,
    Nat.le_refl, Nat.reduceSub, Nat.sub_self, List.drop_zero, sizeofLogItemSvc, leVal_svcStr, hcount, takeBytes_length,
    ← length_vargBytes, Option.bind_eq_bind, Option.bind_some, readVargs_bytes, ofNat32_leVal, ofNat64_leVal]
  rfl

/-- The entry of a metric is read back, its attributes by the types of the registered ones. -/
theorem decode_mtk {known : List AttrDesc} {d : MtkDesc} {attrs : List (AttrDesc × AttrVal)} {blob : List UInt8}
    (hlen : attrs.length ≤ 255) (hblob : blob = payload (attrs.flatMap (fun p => attrPieces p.1 p.2)))
    (hknown : ∀ p ∈ attrs, attrDesc? known p.2 = some p.1) :
    ∃ k, decodeEntry known (d.entry blob (UInt8.ofNat attrs.length)).bytes =
      some ((SvcDesc.mtk d attrs blob (UInt8.ofNat attrs.length)).shown, List.replicate k 0) := by
  obtain ⟨k, hk⟩ : ∃ k, (d.entry blob (UInt8.ofNat attrs.length)).bytes =
      svcHdr SvcType.mtk (d.entry blob (UInt8.ofNat attrs.length)).padded ++
        (leBytes 4 d.id.toUInt32.toNat ++ (leBytes 8 d.min.toNat ++ (leBytes 8 d.max.toNat ++ (leBytes 1 d.flags.toNat ++
          (leBytes 1 (UInt8.ofNat attrs.length).toNat ++ (leBytes 2 (UInt16.ofNat (svcStr (some d.name)).length).toNat ++
            (leBytes 2 (UInt16.ofNat (svcStr d.description).length).toNat ++
              (leBytes 2 (UInt16.ofNat (svcStr d.unit).length).toNat ++ (svcStr (some d.name) ++ (svcStr d.description ++
                (svcStr d.unit ++ (blob ++ List.replicate k 0)))))))))))) :=
    ⟨_, by simp [Entry.bytes, MtkDesc.entry, image, laid, sizeofMtkSvc]; rfl⟩
  have hcount : leVal (leBytes 1 (UInt8.ofNat attrs.length).toNat) = attrs.length := by
    rw [leVal_leBytes_of_lt (by simpa using (UInt8.ofNat attrs.length).toNat_lt), UInt8.toNat_ofNat']
    omega
  refine ⟨k, ?_⟩
  rw [hk, decodeEntry_svcHdr, if_neg (by decide), if_neg (by decide), if_pos rfl, decodeMtk]
  simp only [field_skip, field_front, drop_skip, length_leBytes, length_svcHdr, Nat.reduceLeDiff,
    Nat.le_refl, Nat.reduceSub, Nat.sub_self, List.drop_zero, sizeofMtkSvc, leVal_svcStr, hcount, takeBytes_length, hblob,
    readAttrs_flatMap hknown, Option.bind_eq_bind, Option.bind_some, ofNat8_leVal, ofNat32_leVal, ofNat64_leVal,
    Int32.toInt32_toUInt32]
  rfl

/-- An entry is decoded as its descriptor, and only zeros are left of it. -/
theorem decode_entry {known : List AttrDesc} {x : SvcDesc} (h : x.WellFormed known) :
    ∃ k, decodeEntry known x.entry.bytes = some (x.shown, List.replicate k 0) := by
  cases x with
  | attr d => exact decode_attr known h
  | log d => exact decode_logDesc known h
  | mod m => exact decode_mod known h
  | mtk d attrs blob count =>
    obtain ⟨hlen, rfl, hblob, hknown⟩ := h
    exact decode_mtk hlen hblob hknown

/-- An entry's size is a multiple of 8. -/
theorem padded_dvd (x : SvcDesc) : 8 ∣ x.entry.padded := by
  cases x <;> exact dvd_alignUp8 _

/-- It is not less than that of its header. -/
theorem sizeofSvcHdr_le (x : SvcDesc) : sizeofSvcHdr ≤ x.entry.padded := by
  cases x with
  | attr d => exact Nat.le_trans (by simp only [sizeofSvcHdr, sizeofAttrSvc]; omega) (le_alignUp8 _)
  | log d => exact Nat.le_trans (by simp only [sizeofSvcHdr, sizeofLogItemSvc]; omega) (le_alignUp8 _)
  | mod m => exact Nat.le_trans (by simp only [sizeofSvcHdr, sizeofLogModSvc]; omega) (le_alignUp8 _)
  | mtk d attrs blob count => exact Nat.le_trans (by simp only [sizeofSvcHdr, sizeofMtkSvc]; omega) (le_alignUp8 _)

/-- An entry has the size its header says. -/
theorem length_bytes (x : SvcDesc) : x.entry.bytes.length = x.entry.padded := length_image (ascends_entry x)

/-- Every entry begins with its header. -/
theorem bytes_eq (x : SvcDesc) : ∃ t rest, x.entry.bytes = svcHdr t x.entry.padded ++ rest := by
  cases x with
  | attr d => exact ⟨SvcType.attr, _, by simp [SvcDesc.entry, Entry.bytes, AttrDesc.entry, image, laid]; rfl⟩
  | log d => exact ⟨SvcType.logDesc, _, by simp [SvcDesc.entry, Entry.bytes, LogDesc.entry, image, laid]; rfl⟩
  | mod m => exact ⟨SvcType.module, _, by simp [SvcDesc.entry, Entry.bytes, LogModule.entry, image, laid]; rfl⟩
  | mtk d attrs blob count => exact ⟨SvcType.mtk, _, by simp [SvcDesc.entry, Entry.bytes, MtkDesc.entry, image, laid]; rfl⟩

/-- An entry that fits into a buffer says its size. -/
theorem says_entry {x : SvcDesc} (h : x.entry.padded ≤ dataBufferSize) : SelfSized.Says svcSize sizeofSvcHdr x.entry.bytes := by
  refine ⟨by rw [length_bytes]; exact sizeofSvcHdr_le x, fun rest => ?_⟩
  obtain ⟨t, more, hx⟩ := bytes_eq x
  have hmax : dataBufferSize = 8192 := rfl
  rw [length_bytes, hx, svcSize, svcHdr]
  simp only [List.append_assoc, field_skip, field_front, length_leBytes, Nat.reduceLeDiff, Nat.reduceSub, Nat.le_refl,
    Nat.sub_self]
  rw [leVal_leBytes_of_lt (by simpa using (UInt16.ofNat x.entry.padded).toNat_lt), UInt16.toNat_ofNat']
  omega

end P8
