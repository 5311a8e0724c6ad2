import P8.Lib.SelfSized
import P8.Log.Step

/-!
# Reader: a log stream read back

What a reader of the protocol makes of the bytes the buffers of one writer carry: it walks them item by item, by the size in
each item's header, and reads in an item the values its descriptor and the registered attribute types call for. Nothing here
is part of the library that writes; it is how the wire format is meant. `walk_flatten`, `readArgs_pieces` and
`readAttrs_pieces` say that it reads what was written.
-/

namespace P8

open Bytes Framing

/-! ## Values -/

/-- The value of an argument: a string up to its length on the wire, or the number in its slot. -/
inductive ArgValue where
  | str (bytes : List UInt8)
  | int (v : UInt64)
  | double (bits : UInt64)
  | ldouble (bits : BitVec 128)
  deriving DecidableEq

/-- The value of an attribute. -/
inductive AttrData where
  | str (bytes : List UInt8)
  | num (type : AttrType) (v : UInt64)
  deriving DecidableEq

/-- The longest string an item holds. -/
def maxStr : Nat := 65535

/-- The value a call passes for an argument. -/
def LogVarg.value (a : LogVarg) (v : VaArg) : ArgValue :=
  if a.isStr then .str ((a.strBytes v).take maxStr)
  else if a.size = 8 then
    if a.type ≠ ArgType.double then .int v.u64 else .double v.f64
  else .ldouble v.ldbl

/-- The values a call passes, from position `i` of the argument list on. -/
def argValues (va : Nat → VaArg) : Nat → List LogVarg → List ArgValue
  | _, [] => []
  | i, a :: as => a.value (va i) :: argValues va (i + 1) as

/-- A registered attribute of a call. -/
def attrValue (p : AttrDesc × AttrVal) : Int32 × AttrData :=
  (p.2.id, if p.1.type = .str then .str ((p.2.str.getD []).take maxStr) else .num p.1.type p.2.u64)

/-! ## Reading -/

/-- The first `n` bytes, and what follows them. -/
def takeBytes (n : Nat) (bs : List UInt8) : Option (List UInt8 × List UInt8) :=
  if n ≤ bs.length then some (bs.take n, bs.drop n) else none

/-- A string: its length, and so many bytes. -/
def readString (bs : List UInt8) : Option (List UInt8 × List UInt8) := do
  let (len, bs) ← takeBytes 2 bs
  takeBytes (leVal len) bs

/-- The value in the slot of an argument of fixed size. -/
def LogVarg.slotValue (a : LogVarg) (bs : List UInt8) : ArgValue :=
  if a.size = 8 then
    if a.type ≠ ArgType.double then .int (UInt64.ofNat (leVal bs)) else .double (UInt64.ofNat (leVal bs))
  else .ldouble (BitVec.ofNat 128 (leVal bs))

/-- An argument. -/
def readArg (a : LogVarg) (bs : List UInt8) : Option (ArgValue × List UInt8) :=
  if a.isStr then (readString bs).map (fun p => (.str p.1, p.2))
  else (takeBytes a.size.toNat bs).map (fun p => (a.slotValue p.1, p.2))

/-- The arguments of an argument list. -/
def readArgs : List LogVarg → List UInt8 → Option (List ArgValue × List UInt8)
  | [], bs => some ([], bs)
  | a :: as, bs => do
    let (v, bs) ← readArg a bs
    let (vs, bs) ← readArgs as bs
    return (v :: vs, bs)

/-- The attribute id in four bytes. -/
def readId (bs : List UInt8) : Int32 := (UInt32.ofNat (leVal bs)).toInt32

/-- The registered attribute of an id. -/
def knownAttr (known : List AttrDesc) (id : Int32) : Option AttrDesc :=
  if id < 0 then none else known[Core.attrIndex id]?

/-- An attribute, by its registered type. -/
def readAttr (known : List AttrDesc) (bs : List UInt8) : Option ((Int32 × AttrData) × List UInt8) := do
  let (id, bs) ← takeBytes 4 bs
  let d ← knownAttr known (readId id)
  if d.type = .str then
    let (str, bs) ← readString bs
    return ((readId id, .str str), bs)
  else
    let (num, bs) ← takeBytes 8 bs
    return ((readId id, .num d.type (UInt64.ofNat (leVal num))), bs)

/-- So many attributes. -/
def readAttrs (known : List AttrDesc) : Nat → List UInt8 → Option (List (Int32 × AttrData) × List UInt8)
  | 0, bs => some ([], bs)
  | n + 1, bs => do
    let (v, bs) ← readAttr known bs
    let (vs, bs) ← readAttrs known n bs
    return (v :: vs, bs)

/-- An item: the arguments that its descriptor lists fill the bytes its header gives them, its attributes come behind. -/
def readItem (core : Core) (item : List UInt8) : Option (List ArgValue × List (Int32 × AttrData)) := do
  let h := LogItemDat.decode item
  let d ← core.logDescs h.hash
  let (args, bs) ← takeBytes h.argsSize.toNat (item.drop sizeofLogItemDat)
  let (vs, rest) ← readArgs d.args args
  let (as, _) ← readAttrs core.attrDescs h.attrsCount.toNat bs
  if rest = [] then return (vs, as) else none

/-- The items of a stream, cut by the size in each header; there is at least one byte in an item. -/
def walkItems : Nat → List UInt8 → Option (List (List UInt8))
  | 0, bs => if bs = [] then some [] else none
  | fuel + 1, bs =>
    if bs = [] then some []
    else
      let n := (LogItemDat.decode bs).size.toNat
      if n < sizeofLogItemDat ∨ bs.length < n then none else (walkItems fuel (bs.drop n)).map (bs.take n :: ·)

/-- The items of a stream. -/
def walk (bs : List UInt8) : Option (List (List UInt8)) := walkItems bs.length bs

/-! ## Reading what was written -/

/-- Bytes are taken off the front. -/
theorem takeBytes_append {n : Nat} {xs : List UInt8} (h : xs.length = n) (rest : List UInt8) :
    takeBytes n (xs ++ rest) = some (xs, rest) := by
  rw [takeBytes, if_pos (by simp [h]), List.take_left' h, List.drop_left' h]

/-- A string is read back, cut off at what its length holds. -/
theorem readString_pieces (src rest : List UInt8) :
    readString (payload (stringPieces src) ++ rest) = some (src.take maxStr, rest) := by
  have hlen : (strLen src.length).toNat = min src.length maxStr := strLen_eq _
  have htake : src.take (strLen src.length).toNat = src.take maxStr := by
    rw [hlen, Nat.min_comm, ← List.take_take, List.take_length]
  have hpay : payload (stringPieces src) ++ rest = leBytes 2 (strLen src.length).toNat ++ (src.take maxStr ++ rest) := by
    simp [stringPieces, Piece.data, htake]
  have hval : leVal (leBytes 2 (strLen src.length).toNat) = (src.take maxStr).length := by
    rw [leVal_leBytes_of_lt (by simpa using (strLen src.length).toNat_lt), hlen, List.length_take, Nat.min_comm]
  rw [hpay, readString, takeBytes_append (length_leBytes 2 _)]
  simp only [Option.bind_eq_bind, Option.bind_some, hval]
  exact takeBytes_append rfl rest

/-- A slot is read back as the value that was put there. -/
theorem slotValue_fixedBytes {a : LogVarg} (ha : a.Slot) (hstr : a.isStr = false) (v : VaArg) :
    a.slotValue (a.fixedBytes v) = a.value v := by
  rw [LogVarg.value, if_neg (by rw [hstr]; decide)]
  unfold LogVarg.slotValue LogVarg.fixedBytes
  rcases ha with ha | ha | ⟨ht, ha⟩
  · rw [ha] at hstr
    cases hstr
  · rw [if_pos ha, if_pos ha, if_pos ha]
    split
    · rw [LogItemDat.ofNat64_leVal]
    · rw [LogItemDat.ofNat64_leVal]
  · have hne : ¬ a.size = 8 := by rw [ha]; decide
    rw [if_neg hne, if_neg hne, if_neg hne, if_pos ht, leVal_leBytes_of_lt v.ldbl.isLt, BitVec.ofNat_toNat,
      BitVec.setWidth_eq]

/-- An argument is read back. -/
theorem readArg_pieces {a : LogVarg} (ha : a.Slot) (v : VaArg) (rest : List UInt8) :
    readArg a (payload (argPieces a v) ++ rest) = some (a.value v, rest) := by
  unfold readArg argPieces
  by_cases hstr : a.isStr = true
  · rw [if_pos hstr, if_pos hstr, readString_pieces, LogVarg.value, if_pos hstr]
    rfl
  · have hfalse := Bool.eq_false_iff.mpr hstr
    have hpay : payload [Piece.block (a.fixedBytes v)] = a.fixedBytes v := by simp [Piece.data]
    rw [if_neg hstr, if_neg hstr, hpay, takeBytes_append (length_fixedBytes ha hfalse v).1]
    exact congrArg (fun x => some (x, rest)) (slotValue_fixedBytes ha hfalse v)

/-- The arguments of an item are read back. -/
theorem readArgs_pieces {as : List LogVarg} (ha : ∀ a ∈ as, a.Slot) (va : Nat → VaArg) (i : Nat) (rest : List UInt8) :
    readArgs as (payload (argsPieces va i as) ++ rest) = some (argValues va i as, rest) := by
  induction as generalizing i with
  | nil => rfl
  | cons a as ih =>
    have hrest := ih (fun b hb => ha b (List.mem_cons_of_mem a hb)) (i + 1)
    rw [argsPieces, payload_append, List.append_assoc, readArgs, readArg_pieces (ha a List.mem_cons_self)]
    simp only [Option.bind_eq_bind, Option.bind_some, hrest]
    rfl

/-- An id is read back. -/
theorem readId_idBytes (id : Int32) : readId (Rec.idBytes id) = id := by
  rw [readId, Rec.idBytes, LogItemDat.ofNat32_leVal]
  exact Int32.toInt32_toUInt32 id

/-- An attribute is read back by its descriptor. -/
theorem readAttr_pieces {known : List AttrDesc} {d : AttrDesc} {a : AttrVal} (h : attrDesc? known a = some d)
    (rest : List UInt8) : readAttr known (payload (attrPieces d a) ++ rest) = some (attrValue (d, a), rest) := by
  have hknown : knownAttr known a.id = some d := h
  have hid := takeBytes_append (length_idBytes a.id)
  unfold attrPieces attrValue
  by_cases hstr : d.type = .str
  · have hpay : payload (Piece.block (Rec.idBytes a.id) :: stringPieces (a.str.getD [])) ++ rest =
        Rec.idBytes a.id ++ (payload (stringPieces (a.str.getD [])) ++ rest) := by
      rw [payload_cons, List.append_assoc]
      rfl
    rw [if_pos hstr, if_pos hstr, hpay, readAttr, hid]
    simp only [Option.bind_eq_bind, Option.bind_some, readId_idBytes, hknown, if_pos hstr, readString_pieces]
    rfl
  · have hpay : payload [Piece.block (Rec.idBytes a.id ++ leBytes 8 a.u64.toNat)] ++ rest =
        Rec.idBytes a.id ++ (leBytes 8 a.u64.toNat ++ rest) := by
      simp [Piece.data]
    rw [if_neg hstr, if_neg hstr, hpay, readAttr, hid]
    simp only [Option.bind_eq_bind, Option.bind_some, readId_idBytes, hknown, if_neg hstr,
      takeBytes_append (length_leBytes 8 _), LogItemDat.ofNat64_leVal]
    rfl

/-- Attributes written with the descriptors they have are read back. -/
theorem readAttrs_flatMap {known : List AttrDesc} {ps : List (AttrDesc × AttrVal)}
    (h : ∀ p ∈ ps, attrDesc? known p.2 = some p.1) (rest : List UInt8) :
    readAttrs known ps.length (payload (ps.flatMap (fun p => attrPieces p.1 p.2)) ++ rest) =
      some (ps.map attrValue, rest) := by
  induction ps with
  | nil => rfl
  | cons p ps ih =>
    have hrest := ih (fun q hq => h q (List.mem_cons_of_mem p hq))
    rw [List.flatMap_cons, payload_append, List.append_assoc, List.length_cons, readAttrs,
      readAttr_pieces (h p List.mem_cons_self)]
    simp only [Option.bind_eq_bind, Option.bind_some, hrest]
    rfl

/-- A registered attribute keeps its descriptor while the registry grows. -/
theorem attrDesc?_mono {known known' : List AttrDesc} (hk : known <+: known') {a : AttrVal} {d : AttrDesc}
    (h : attrDesc? known a = some d) : attrDesc? known' a = some d := by
  unfold attrDesc? at h ⊢
  split at h
  · cases h
  · rename_i hid
    rw [if_neg hid]
    obtain ⟨more, rfl⟩ := hk
    exact (List.getElem?_append_left (List.getElem?_eq_some_iff.mp h).1).trans h

/-- A registered attribute has its descriptor. -/
theorem attrDesc?_of_registered {known : List AttrDesc} {as : List AttrVal} {p : AttrDesc × AttrVal}
    (h : p ∈ registered known as) : attrDesc? known p.2 = some p.1 := by
  obtain ⟨a, -, ha⟩ := List.mem_filterMap.mp h
  obtain ⟨d, hd, rfl⟩ := Option.map_eq_some_iff.mp ha
  exact hd

/-- The registered attributes of an item are read back, by a registry that has grown since. -/
theorem readAttrs_pieces {known known' : List AttrDesc} (hk : known <+: known') (as : List AttrVal) (rest : List UInt8) :
    readAttrs known' (registered known as).length (payload (attrsPieces known as) ++ rest) =
      some ((registered known as).map attrValue, rest) :=
  readAttrs_flatMap (fun _ hp => attrDesc?_mono hk (attrDesc?_of_registered hp)) rest

/-! ## Walking a stream -/

/-- An item whose header says how long it is. -/
def SaysItsSize (item : List UInt8) : Prop :=
  sizeofLogItemDat ≤ item.length ∧ ∀ rest, (LogItemDat.decode (item ++ rest)).size.toNat = item.length

/-- A walk over items is a cut by the size in each header. -/
theorem walkItems_eq_cut (fuel : Nat) (bs : List UInt8) :
    walkItems fuel bs = SelfSized.cut (fun bs => (LogItemDat.decode bs).size.toNat) sizeofLogItemDat fuel bs := by
  induction fuel generalizing bs with
  | zero => simp [walkItems, SelfSized.cut]
  | succ fuel ih => simp [walkItems, SelfSized.cut, ih]

/-- Items that say their size are found in the stream they make up. -/
theorem walk_flatten {items : List (List UInt8)} (h : ∀ it ∈ items, SaysItsSize it) :
    walk items.flatten = some items := by
  rw [walk, walkItems_eq_cut]
  exact SelfSized.cut_flatten (by decide) (fun it hit => ⟨(h it hit).1, (h it hit).2⟩) (Nat.le_refl _)

/-! ## An item -/

section

variable {l : Log} {env : SendEnv} {core : Core} {known : List AttrDesc} {d : LogDesc} {c : Call} {g : LogItemDat}
  {gap : List UInt8}

/-- The size of a record with its padding, which is what its header says. -/
def paddedSize (known : List AttrDesc) (d : LogDesc) (c : Call) : Nat :=
  recordSize known d c + padOf (recordSize known d c)

/-- A finished item says its size, if that is a `uint16_t`. -/
theorem saysItsSize_finished (hgap : gap.length = padOf (recordSize known d c)) (hsize : paddedSize known d c ≤ 65535) :
    SaysItsSize ((finalHdr l env known d c g).encode ++ payload (bodyPieces known d c) ++ gap) := by
  have hlen : ((finalHdr l env known d c g).encode ++ payload (bodyPieces known d c) ++ gap).length =
      paddedSize known d c := by
    rw [List.length_append, List.length_append, LogItemDat.length_encode, hgap, paddedSize, recordSize]
  refine ⟨?_, fun rest => ?_⟩
  · rw [List.append_assoc, List.length_append, LogItemDat.length_encode]
    exact Nat.le_add_right _ _
  · rw [hlen, List.append_assoc, List.append_assoc, LogItemDat.decode_encode]
    exact toNat_size (by omega : paddedSize known d c < 2 ^ 16)

/-- A finished item is read back as the values of its call. -/
theorem readItem_finished (hd : ArgList logMaxArgs d.args) (hdesc : core.logDescs d.hash = some d)
    (hk : known <+: core.attrDescs) (hsize : paddedSize known d c ≤ 65535)
    (hattrs : (registered known (c.attrs.getD [])).length ≤ 255) :
    readItem core ((finalHdr l env known d c g).encode ++ payload (bodyPieces known d c) ++ gap) =
      some (argValues c.args 0 d.args, (registered known (c.attrs.getD [])).map attrValue) := by
  have hbody : payload (bodyPieces known d c) ++ gap =
      payload (argsPieces c.args 0 d.args) ++ (payload (attrsPieces known (c.attrs.getD [])) ++ gap) := by
    rw [bodyPieces, payload_append, List.append_assoc]
  have hlen : (payload (argsPieces c.args 0 d.args)).length ≤ 65535 := by
    unfold paddedSize recordSize at hsize
    rw [bodyPieces, payload_append, List.length_append] at hsize
    omega
  have hargsSize : (finalHdr l env known d c g).argsSize.toNat = (payload (argsPieces c.args 0 d.args)).length :=
    toNat_size (by omega)
  have hcount : (finalHdr l env known d c g).attrsCount.toNat = (registered known (c.attrs.getD [])).length := by
    show (attrsCountOf known (c.attrs.getD [])).toNat = _
    rw [attrsCountOf, UInt8.toNat_ofNat']
    omega
  have hread := readArgs_pieces hd.slot c.args 0 []
  rw [List.append_nil] at hread
  have hhash : core.logDescs (finalHdr l env known d c g).hash = some d := hdesc
  rw [readItem, List.append_assoc, LogItemDat.decode_encode, List.drop_left' (LogItemDat.length_encode _), hbody]
  simp only [Option.bind_eq_bind, hhash, hargsSize, hcount, takeBytes_append rfl, Option.bind_some, hread,
    readAttrs_pieces hk]
  rfl

end

end P8
