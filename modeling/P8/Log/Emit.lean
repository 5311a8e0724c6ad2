import P8.Log.Send

/-!
# Emit: the pieces of a record

What a record is, as pieces: for every argument and every registered attribute a block, or a block and a text. `putBody`
writes the pieces of the call over the frames (`putBody_spec`), and the header that is patched afterwards, in whatever buffer
it lies by then, is the header the record starts with (`spill_modifyHdr`).
-/

namespace P8

open Bytes Framing

/-! ## Pieces -/

/-- A string as pieces: the length is never cut, the bytes may be. -/
def stringPieces (src : List UInt8) : List (Piece UInt8) :=
  [.block (leBytes 2 (strLen src.length).toNat), .text (src.take (strLen src.length).toNat)]

/-- An argument as pieces. -/
def argPieces (a : LogVarg) (v : VaArg) : List (Piece UInt8) :=
  if a.isStr then stringPieces (a.strBytes v) else [.block (a.fixedBytes v)]

/-- Arguments as pieces, from position `i` of the argument list on. -/
def argsPieces (va : Nat → VaArg) : Nat → List LogVarg → List (Piece UInt8)
  | _, [] => []
  | i, a :: as => argPieces a (va i) ++ argsPieces va (i + 1) as

/-- The descriptor of an attribute, if it is registered. -/
def attrDesc? (known : List AttrDesc) (a : AttrVal) : Option AttrDesc :=
  if a.id < 0 then none else known[Core.attrIndex a.id]?

/-- A registered attribute as pieces. -/
def attrPieces (d : AttrDesc) (a : AttrVal) : List (Piece UInt8) :=
  if d.type = .str then .block (Rec.idBytes a.id) :: stringPieces (a.str.getD [])
  else [.block (Rec.idBytes a.id ++ leBytes 8 a.u64.toNat)]

/-- The registered ones of a call's attributes, with their descriptors. -/
def registered (known : List AttrDesc) (as : List AttrVal) : List (AttrDesc × AttrVal) :=
  as.filterMap (fun a => (attrDesc? known a).map (fun d => (d, a)))

/-- Attributes as pieces. -/
def attrsPieces (known : List AttrDesc) (as : List AttrVal) : List (Piece UInt8) :=
  (registered known as).flatMap (fun p => attrPieces p.1 p.2)

/-- The pieces of a record behind its header. -/
def bodyPieces (known : List AttrDesc) (d : LogDesc) (c : Call) : List (Piece UInt8) :=
  argsPieces c.args 0 d.args ++ attrsPieces known (c.attrs.getD [])

/-- A length is cut off at what its field holds. -/
theorem strLen_eq (n : Nat) : (strLen n).toNat = min n 65535 := by
  unfold strLen
  split
  · simp
    omega
  · rw [UInt16.toNat_ofNat']
    omega

/-- The bytes of a value of fixed size fill its slot. -/
theorem length_fixedBytes {a : LogVarg} (ha : a.Slot) (hstr : a.isStr = false) (v : VaArg) :
    (a.fixedBytes v).length = a.size.toNat ∧ a.size.toNat ≤ 16 := by
  rcases ha with ha | ha | ⟨ht, ha⟩
  · rw [ha] at hstr
    cases hstr
  · rw [LogVarg.fixedBytes, if_pos ha, ha]
    split <;> simp
  · have hne : ¬ a.size = 8 := by rw [ha]; decide
    rw [LogVarg.fixedBytes, if_neg hne, if_pos ht, ha]
    simp

/-- A block that is not longer than a buffer fits one. -/
theorem allFit_block (bs : List UInt8) (h : bs.length ≤ itemSpace) : AllFit [.block bs] := by
  intro p hp
  rw [List.mem_singleton.mp hp]
  exact h

theorem allFit_nil : AllFit [] := fun p hp => by simp at hp

/-- A string's pieces fit: its length is a block, the rest is text. -/
theorem allFit_stringPieces (src : List UInt8) : AllFit (stringPieces src) :=
  (allFit_block _ (by rw [length_leBytes]; decide)).append (allFit_text _)

/-- An argument's pieces fit. -/
theorem allFit_argPieces {a : LogVarg} (ha : a.Slot) (v : VaArg) : AllFit (argPieces a v) := by
  unfold argPieces
  split
  · exact allFit_stringPieces _
  · rename_i hstr
    have hlen := length_fixedBytes ha (Bool.eq_false_iff.mpr hstr) v
    have hcap : 16 ≤ itemSpace := by decide
    exact allFit_block _ (by omega)

/-- How a string of at most 65535 bytes lies. -/
theorem layout_stringPieces (l : Layout) {src : List UInt8} (h : src.length ≤ 65535) :
    l.emit itemSpace (stringPieces src) = (l.block itemSpace 2).text itemSpace src.length := by
  have htake : src.take (strLen src.length).toNat = src := by
    rw [strLen_eq, Nat.min_eq_left h]
    exact List.take_length
  show (l.block itemSpace (leBytes 2 _).length).text itemSpace (src.take _).length = _
  rw [htake, length_leBytes]

/-- A string takes its length field and its bytes, as far as they go. -/
theorem length_payload_stringPieces (src : List UInt8) :
    (payload (stringPieces src)).length = 2 + min src.length 65535 := by
  simp [stringPieces, Piece.data, strLen_eq]

/-- The pieces of all arguments fit. -/
theorem allFit_argsPieces {as : List LogVarg} (ha : ∀ a ∈ as, a.Slot) (va : Nat → VaArg) (i : Nat) :
    AllFit (argsPieces va i as) := by
  induction as generalizing i with
  | nil => exact allFit_nil
  | cons a as ih =>
    exact (allFit_argPieces (ha a List.mem_cons_self) _).append
      (ih (fun b hb => ha b (List.mem_cons_of_mem a hb)) (i + 1))

/-- An id takes four bytes. -/
theorem length_idBytes (id : Int32) : (Rec.idBytes id).length = 4 := by
  simp [Rec.idBytes]

/-- An attribute's pieces fit. -/
theorem allFit_attrPieces (d : AttrDesc) (a : AttrVal) : AllFit (attrPieces d a) := by
  unfold attrPieces
  split
  · exact (allFit_block _ (by rw [length_idBytes]; decide)).append (allFit_stringPieces _)
  · exact allFit_block _ (by simp [length_idBytes]; decide)

/-- The pieces of all attributes fit. -/
theorem allFit_attrsPieces (known : List AttrDesc) (as : List AttrVal) : AllFit (attrsPieces known as) := by
  intro p hp
  obtain ⟨x, -, hx⟩ := List.mem_flatMap.mp hp
  exact allFit_attrPieces x.1 x.2 p hx

/-- The pieces of a record's body fit. -/
theorem allFit_bodyPieces (core : Core) {d : LogDesc} (hd : ArgList logMaxArgs d.args) (c : Call) :
    AllFit (bodyPieces core.attrDescs d c) :=
  (allFit_argsPieces hd.slot _ _).append (allFit_attrsPieces _ _)

/-! ## Writing the pieces -/

section

variable {core : Core} {acquire : Nat → Option DataBuf}

/-- A string is written as its pieces are. -/
theorem putString_writes (t : Tally) (src : List UInt8) {r : Rec} (hr : r.Ready core.attrDescs) :
    Writes core.attrDescs acquire t (stringPieces src) 0 r (r.putString acquire t src) := by
  have hblock := putBlock_writes acquire hr t (leBytes 2 (strLen src.length).toNat)
    (by rw [length_leBytes]; decide)
  rw [length_leBytes] at hblock
  exact Writes.bind (p := [.block _]) (n := 0) (m := 0) hr (allFit_block _ (by rw [length_leBytes]; decide))
    (allFit_text _) hblock (fun r' h => copyFragmented_writes t _ h.ready)

/-- An argument is written as its pieces are. -/
theorem putArg_writes {a : LogVarg} (ha : a.Slot) (v : VaArg) {r : Rec} (hr : r.Ready core.attrDescs) :
    Writes core.attrDescs acquire .args (argPieces a v) 0 r (r.putArg acquire a v) := by
  unfold Rec.putArg argPieces
  by_cases hstr : a.isStr = true
  · rw [if_pos hstr, if_pos hstr]
    exact putString_writes .args _ hr
  · have hcap : 16 ≤ itemSpace := by decide
    obtain ⟨hlen, hle⟩ := length_fixedBytes ha (Bool.eq_false_iff.mpr hstr) v
    rw [if_neg hstr, if_neg hstr, ← hlen]
    exact putBlock_writes acquire hr .args _ (by omega)

variable (acquire) in
/-- The loop over the arguments writes their pieces. -/
theorem putArgs_writes {as : List LogVarg} (ha : ∀ a ∈ as, a.Slot) (va : Nat → VaArg) (i : Nat) {r : Rec}
    (hr : r.Ready core.attrDescs) :
    Writes core.attrDescs acquire .args (argsPieces va i as) 0 r (r.putArgs acquire va i as) := by
  induction as generalizing i r with
  | nil => exact Wrote.nil hr rfl rfl
  | cons a as ih =>
    have hslot := ha a List.mem_cons_self
    have hrest : ∀ b ∈ as, b.Slot := fun b hb => ha b (List.mem_cons_of_mem a hb)
    exact Writes.bind (n := 0) (m := 0) hr (allFit_argPieces hslot _) (allFit_argsPieces hrest va (i + 1))
      (putArg_writes hslot (va i) hr) (fun r' h => ih hrest (i + 1) h.ready)

/-- The value of an attribute is written as its pieces are. -/
theorem putAttrValue_writes (d : AttrDesc) (a : AttrVal) {r : Rec} (hr : r.Ready core.attrDescs) :
    Writes core.attrDescs acquire .attrs (attrPieces d a) 0 r (r.putAttrValue acquire d a) := by
  unfold Rec.putAttrValue attrPieces
  split
  · have hid := putBlock_writes acquire hr .attrs (Rec.idBytes a.id) (by rw [length_idBytes]; decide)
    rw [length_idBytes] at hid
    exact Writes.bind (p := [.block _]) (n := 0) (m := 0) hr (allFit_block _ (by rw [length_idBytes]; decide))
      (allFit_stringPieces _) hid (fun r' h => putString_writes .attrs _ h.ready)
  · have hlen : (Rec.idBytes a.id ++ leBytes 8 a.u64.toNat).length = 12 := by simp [length_idBytes]
    have hval := putBlock_writes acquire hr .attrs (Rec.idBytes a.id ++ leBytes 8 a.u64.toNat)
      (by rw [hlen]; decide)
    rwa [hlen] at hval

/-- Looking an attribute up through the cache is looking it up in the registry. -/
theorem cacheFor_spec {cache : List AttrDesc} (h : cache <+: core.attrDescs) (idx : Nat) :
    Rec.cacheFor core cache idx <+: core.attrDescs ∧ (Rec.cacheFor core cache idx)[idx]? = core.attrDescs[idx]? := by
  unfold Rec.cacheFor
  split
  · rw [Core.syncAttrCache_of_prefix h]
    exact ⟨List.prefix_refl _, rfl⟩
  · obtain ⟨rest, hr⟩ := h
    refine ⟨⟨rest, hr⟩, ?_⟩
    rw [← hr, List.getElem?_append_left (by omega)]

/-- Another cache, or one more attribute counted, changes nothing of what is written. -/
theorem Wrote.touched (acquire : Nat → Option DataBuf) {known : List AttrDesc} {t : Tally} {r : Rec} (hr : r.Ready known) (cache : List AttrDesc)
    (hc : cache <+: known) (n : UInt8) :
    Wrote known acquire t [] n r { r with attrCache := cache, attrsCount := r.attrsCount + n } where
  kept := ⟨List.prefix_refl _, rfl, rfl, rfl, rfl⟩
  ready := ⟨hr.lo, hr.hi, hr.commit, hc, hr.unflagged, hr.sizes⟩
  tape_eq := rfl
  acquired := fun i hlo hhi => by
    have h : r.fragCommit + i < r.fragments.length := hhi
    omega
  counted := by cases t <;> rfl
  others := fun u _ => by cases u <;> rfl
  attrsCount_eq := rfl

/-- The pieces and the count of one attribute. -/
def attrPieces? (known : List AttrDesc) (a : AttrVal) : List (Piece UInt8) × UInt8 :=
  match attrDesc? known a with
  | none => ([], 0)
  | some d => (attrPieces d a, 1)

/-- An attribute is written as its pieces are and counted, or neither. -/
theorem putAttr_writes (a : AttrVal) {r : Rec} (hr : r.Ready core.attrDescs) :
    Writes core.attrDescs acquire .attrs (attrPieces? core.attrDescs a).1 (attrPieces? core.attrDescs a).2 r
      (r.putAttr acquire core a) := by
  unfold Rec.putAttr attrPieces? attrDesc?
  by_cases hid : a.id < 0
  · rw [if_pos hid, if_pos hid]
    exact Wrote.nil hr rfl rfl
  · obtain ⟨hcache, hlook⟩ := cacheFor_spec hr.cache (Core.attrIndex a.id)
    rw [if_neg hid, if_neg hid]
    have htouch := Wrote.touched acquire (t := .attrs) hr _ hcache 0
    rw [UInt8.add_zero] at htouch
    dsimp only
    rw [hlook]
    cases hd : core.attrDescs[Core.attrIndex a.id]? with
    | none => exact htouch
    | some d =>
      have hboth := Writes.bind (x := .ok _) (f := fun r' => r'.putAttrValue acquire d a) hr allFit_nil
        (allFit_attrPieces d a) htouch (fun r' h => putAttrValue_writes d a h.ready)
      have hall := Writes.bind (m := 1) (f := fun r' => .ok { r' with attrsCount := r'.attrsCount + 1 }) hr
        (allFit_attrPieces d a) allFit_nil hboth (fun r' h => Wrote.touched acquire h.ready r'.attrCache h.ready.cache 1)
      rw [List.append_nil] at hall
      exact hall

/-- The number of registered attributes, as the item counts them. -/
def attrsCountOf (known : List AttrDesc) (as : List AttrVal) : UInt8 := UInt8.ofNat (registered known as).length

/-- The first attribute is registered or left out. -/
theorem registered_cons (known : List AttrDesc) (a : AttrVal) (as : List AttrVal) :
    registered known (a :: as) = match attrDesc? known a with
      | none => registered known as
      | some d => (d, a) :: registered known as := by
  unfold registered
  rw [List.filterMap_cons]
  cases attrDesc? known a <;> rfl

/-- The pieces of attributes, one by one. -/
theorem attrsPieces_cons (known : List AttrDesc) (a : AttrVal) (as : List AttrVal) :
    attrsPieces known (a :: as) = (attrPieces? known a).1 ++ attrsPieces known as := by
  unfold attrPieces? attrsPieces registered
  cases h : attrDesc? known a <;> simp [h]

/-- The count of attributes, one by one. -/
theorem attrsCountOf_cons (known : List AttrDesc) (a : AttrVal) (as : List AttrVal) :
    attrsCountOf known (a :: as) = (attrPieces? known a).2 + attrsCountOf known as := by
  unfold attrPieces? attrsCountOf registered
  cases h : attrDesc? known a with
  | none => simp [h]
  | some d => simp [h, UInt8.add_comm]

variable (acquire) in
/-- The loop over the attributes writes the pieces of the registered ones and counts them. -/
theorem putAttrs_writes (as : List AttrVal) {r : Rec} (hr : r.Ready core.attrDescs) :
    Writes core.attrDescs acquire .attrs (attrsPieces core.attrDescs as) (attrsCountOf core.attrDescs as) r
      (r.putAttrs acquire core as) := by
  induction as generalizing r with
  | nil => exact Wrote.nil hr rfl rfl
  | cons a as ih =>
    have hfit : AllFit (attrPieces? core.attrDescs a).1 := by
      unfold attrPieces?
      split
      · exact allFit_nil
      · exact allFit_attrPieces _ _
    rw [attrsPieces_cons, attrsCountOf_cons]
    exact Writes.bind hr hfit (allFit_attrsPieces _ _) (putAttr_writes a hr) (fun r' h => ih h.ready)

end

/-! ## The header patched afterwards -/

/-- Assign fields of a header that lies at position `o` of the bytes of a frame. -/
def patchAt (o : Nat) (f : LogItemDat → LogItemDat) (data : List UInt8) : List UInt8 :=
  data.take o ++ (f (LogItemDat.decode ((data.drop o).take sizeofLogItemDat))).encode ++
    data.drop (o + sizeofLogItemDat)

/-- Patching a header that is there gives the patched header, whatever follows it. -/
theorem patchAt_encode (f : LogItemDat → LogItemDat) (cur ys : List UInt8) (h : LogItemDat) :
    patchAt cur.length f (cur ++ h.encode ++ ys) = cur ++ (f h).encode ++ ys := by
  have htake : (h.encode ++ ys).take sizeofLogItemDat = h.encode := List.take_left' h.length_encode
  have hdrop : (h.encode ++ ys).drop sizeofLogItemDat = ys := List.drop_left' h.length_encode
  have hdec := LogItemDat.decode_encode h []
  rw [List.append_nil] at hdec
  rw [patchAt, List.append_assoc cur, List.take_left, List.drop_left, htake, hdec, ← List.drop_drop, List.drop_left, hdrop]

/-- A header patched in a buffer is patched in the bytes read from it. -/
theorem read_patch (m : Mem) (f : LogItemDat → LogItemDat) (a o n : Nat) (h : o + sizeofLogItemDat ≤ n) :
    (m.write (a + o) (f (LogItemDat.decode (m.read (a + o) sizeofLogItemDat))).encode).read a n =
      patchAt o f (m.read a n) := by
  obtain ⟨k, rfl⟩ := Nat.exists_eq_add_of_le h
  have hdrop : (m.read a (o + sizeofLogItemDat + k)).drop o = m.read (a + o) (sizeofLogItemDat + k) := by
    rw [Nat.add_assoc, Mem.read_add]
    exact List.drop_left' (Mem.length_read m a o)
  have htake : (m.read (a + o) (sizeofLogItemDat + k)).take sizeofLogItemDat = m.read (a + o) sizeofLogItemDat := by
    rw [Mem.read_add]
    exact List.take_left' (Mem.length_read m _ _)
  have hw := Mem.read_write_inside m a o (o + sizeofLogItemDat + k)
    (f (LogItemDat.decode (m.read (a + o) sizeofLogItemDat))).encode (by rw [LogItemDat.length_encode]; exact h)
  rw [hw, patchAt, hdrop, htake, LogItemDat.length_encode]

/-- Patching a header changes the bytes of one buffer: of one the record has parked, or of the current one. -/
theorem modifyHdr_eq (r : Rec) (f : LogItemDat → LogItemDat) :
    ∃ frs b, r.modifyHdr f = { r with fragments := frs, buffer := b } ∧ frs.length = r.fragments.length ∧
      frs.take r.fragCommit = r.fragments.take r.fragCommit ∧ frs.map (·.hdr) = r.fragments.map (·.hdr) ∧
      b.hdr = r.buffer.hdr := by
  unfold Rec.modifyHdr Rec.modifyHdrBuf
  split
  · refine ⟨_, _, rfl, List.length_modify .., List.ext_getElem? (fun i => ?_), List.ext_getElem? (fun i => ?_), rfl⟩
    · simp only [List.getElem?_take]
      by_cases hi : i < r.fragCommit
      · have hne : r.fragCommit ≠ i := by omega
        simp [hi, hne]
      · rw [if_neg hi, if_neg hi]
    · simp only [List.getElem?_map, List.getElem?_modify]
      cases r.fragments[i]? with
      | none => rfl
      | some x => by_cases hi : r.fragCommit = i <;> simp [hi]
  · exact ⟨_, _, rfl, rfl, rfl, rfl, rfl⟩

/-- The header of a record that has left the buffer it began in is patched in that buffer. -/
theorem spill_modifyHdr_parked {r : Rec} {fs : List (Frame UInt8)} {cur xs last : List UInt8} {h : LogItemDat}
    (hs : Spill ⟨fs, cur ++ h.encode⟩ xs ⟨r.fragments.map DataBuf.frame, last⟩) (hfs : fs.length = r.fragCommit)
    (hhdr : r.hdr = sizeofDataBufHdr + cur.length) (hlt : r.fragCommit < r.fragments.length)
    (f : LogItemDat → LogItemDat) :
    Spill ⟨fs, cur ++ (f h).encode⟩ xs ⟨(r.modifyHdr f).fragments.map DataBuf.frame, last⟩ := by
  have hamend := hs.amend (patchAt cur.length f) (cur ++ (f h).encode) (patchAt_encode f cur · h)
  dsimp only at hamend
  suffices htape : (⟨(r.modifyHdr f).fragments.map DataBuf.frame, last⟩ : Tape UInt8) =
      (⟨r.fragments.map DataBuf.frame, last⟩ : Tape UInt8).amend fs.length (patchAt cur.length f) by rwa [htape]
  rw [Tape.amend, hfs, Rec.modifyHdr, Rec.modifyHdrBuf, if_pos hlt, if_pos (by simpa using hlt)]
  refine congrArg (Tape.mk · _) ?_
  cases hs with
  | stay =>
    rw [List.length_map] at hfs
    omega
  | turn fs cur' xs ys t' hys h1 =>
    obtain ⟨rest, hd, -⟩ := h1.rebase
    have hfrags : r.fragments.map DataBuf.frame = fs ++ ⟨cur ++ h.encode ++ xs, true⟩ :: rest := by simpa using hd
    obtain ⟨bs, bs2, hbs, hbs1, hbs2⟩ := List.map_eq_append_iff.mp hfrags
    obtain ⟨b, bs', rfl, hb, hb'⟩ := List.map_eq_cons_iff.mp hbs2
    have hk : r.fragCommit = bs.length := by rw [← hfs, ← hbs1, List.length_map]
    have hdata : b.mem.read sizeofDataBufHdr (b.hdr.size.toNat - sizeofDataBufHdr) = cur ++ h.encode ++ xs :=
      congrArg Frame.data hb
    have hn : cur.length + sizeofLogItemDat ≤ b.hdr.size.toNat - sizeofDataBufHdr := by
      have h2 := congrArg List.length hdata
      simp only [Mem.length_read, List.length_append, LogItemDat.length_encode] at h2
      omega
    have hmod := modify_length_append (bs.map DataBuf.frame) b.frame (bs'.map DataBuf.frame)
      (fun x => ⟨patchAt cur.length f x.data, x.cont⟩)
    rw [List.length_map] at hmod
    rw [hbs, hk, modify_length_append, List.map_append, List.map_append, List.map_cons, List.map_cons, hmod]
    simp only [DataBuf.frame, hhdr, read_patch _ f _ _ _ hn]

/-- The header of a record can be patched in the buffer it lies in: afterwards the record starts with the patched header. -/
theorem spill_modifyHdr {r : Rec} {fs : List (Frame UInt8)} {cur xs : List UInt8} {h : LogItemDat}
    (hs : Spill ⟨fs, cur ++ h.encode⟩ xs r.tape) (hfs : fs.length = r.fragCommit)
    (hhdr : r.hdr = sizeofDataBufHdr + cur.length) (f : LogItemDat → LogItemDat) :
    Spill ⟨fs, cur ++ (f h).encode⟩ xs (r.modifyHdr f).tape := by
  by_cases hlt : r.fragCommit < r.fragments.length
  · have hmod := spill_modifyHdr_parked hs hfs hhdr hlt f
    have hcur : (r.modifyHdr f).tape = ⟨(r.modifyHdr f).fragments.map DataBuf.frame, r.tape.cur⟩ := by
      rw [Rec.modifyHdr, Rec.modifyHdrBuf, if_pos hlt]
      rfl
    rw [hcur]
    exact hmod
  · -- the header is still in the current buffer
    have hamend := hs.amend (patchAt cur.length f) (cur ++ (f h).encode) (patchAt_encode f cur · h)
    have hdone : r.tape.done = r.fragments.map DataBuf.frame := rfl
    rw [hfs, Tape.amend, if_neg (by rwa [hdone, List.length_map])] at hamend
    have hn : cur.length + sizeofLogItemDat ≤ r.dst - sizeofDataBufHdr := by
      rw [← r.length_tape_cur]
      generalize ht : r.tape = u at hs
      cases hs with
      | stay => simp
      | turn fs cur' xs ys t' hys h1 =>
        obtain ⟨rest, hd, -⟩ := h1.rebase
        have h2 := congrArg List.length hd
        rw [← ht, hdone, List.length_map, List.length_append, List.length_append, hfs, List.length_singleton] at h2
        omega
    have htape : (r.modifyHdr f).tape = ⟨r.tape.done, patchAt cur.length f r.tape.cur⟩ := by
      rw [Rec.modifyHdr, Rec.modifyHdrBuf, if_neg hlt]
      simp only [Rec.tape, hhdr, read_patch _ f _ _ _ hn]
    rw [htape]
    exact hamend

end P8
