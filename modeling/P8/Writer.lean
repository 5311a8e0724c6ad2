import P8.Registry
import P8.Lib.Framing

/-!
# Writer: buffers and fragment rotation

The part of `cp8_tls_writer` a record is written with. A `Rec` is a writer in the middle of a record: `mp_buffer` is there,
`lp_dst` is an offset into it, and the record's header lies at the offset `hdr` of the buffer the record began in, wherever
that buffer is by now. Buffers are values: two buffers a writer holds are never the same one.

A write outside `[0, mz_buf_max)` is a `fault`. A failed `rotate_fragment_buffer` is a `discard`, with the writer as the jump
to `lbl_discard` finds it.
-/

namespace P8

open Bytes Framing

/-- `mz_buf_max` of a writer that has a core: `cp8_core::get_buffer_size()`. -/
def bufMax : Nat := dataBufferSize

/-- The bytes of a buffer that items may take. -/
def itemSpace : Nat := bufMax - sizeofDataBufHdr

/-- A data buffer: its header, and its bytes behind the header. -/
structure DataBuf where
  hdr : DataBufHdr
  mem : Mem

/-- A delivered buffer as a reader cuts it: the bytes from the header to `mu_size`, and the fragment flag. -/
def DataBuf.frame (b : DataBuf) : Frame UInt8 :=
  ⟨b.mem.read sizeofDataBufHdr (b.hdr.size.toNat - sizeofDataBufHdr), (b.hdr.flags &&& dataFlagFragment) != 0⟩

/-- The header of a buffer taken into use. -/
def DataBuf.start (b : DataBuf) (packetType : UInt8) (threadId : UInt32) (startTime : UInt64) : DataBuf :=
  { b with
    hdr :=
      { packetType := packetType
        flags := 0
        size := UInt16.ofNat sizeofDataBufHdr
        threadId := threadId
        startTime := startTime
        stopTime := 0 } }

/-- The header of a buffer left in the middle of a record. -/
def DataBuf.cut (b : DataBuf) (used : Nat) (stopTime : UInt64) : DataBuf :=
  { b with
    hdr := { b.hdr with
      flags := b.hdr.flags ||| dataFlagFragment
      size := UInt16.ofNat used
      stopTime := stopTime } }

/-- A writer in the middle of a record. `dst` is `lp_dst - mp_buffer`, `hdr` the offset of `lp_hdr` in the buffer the record
began in, `timestamp` is `lp_hdr->mu_timestamp`; the other fields are the writer's and the locals of `send`. -/
structure Rec where
  fragments : List DataBuf
  buffer : DataBuf
  bufUsed : Nat
  threadId : UInt32
  attrCache : List AttrDesc
  fragCommit : Nat
  hdr : Nat
  timestamp : UInt64
  dst : Nat
  argsWritten : Nat
  attrsWritten : Nat
  attrsCount : UInt8

/-- Why a record is not written to its end. At a `discard` the buffer `mp_buffer` is null and the record's `buffer` is not
looked at. -/
inductive Stop where
  | discard (r : Rec)
  | fault

/-- The two counters of `send` that `copy_fragmented` may be given as `oz_written`. -/
inductive Tally where
  | args | attrs
  deriving DecidableEq

namespace Rec

/-- Move `lp_dst` and a counter on by `n` bytes. -/
def advance (t : Tally) (n : Nat) (r : Rec) : Rec :=
  match t with
  | .args => { r with dst := r.dst + n, argsWritten := r.argsWritten + n }
  | .attrs => { r with dst := r.dst + n, attrsWritten := r.attrsWritten + n }

/-- `memcpy` to `lp_dst`. -/
def store (bs : List UInt8) (r : Rec) : Except Stop Rec :=
  if r.dst + bs.length ≤ bufMax then .ok { r with buffer := { r.buffer with mem := r.buffer.mem.write r.dst bs } }
  else .error .fault

variable (acquire : Nat → Option DataBuf)

/-- `cp8_tls_writer::rotate_fragment_buffer`. `acquire i` is what `acquire_buffer(false)` gives at the record's rotation
`i`. -/
def rotateFragmentBuffer (r : Rec) : Except Stop Rec :=
  let fragments := r.fragments ++ [r.buffer.cut r.bufUsed r.timestamp]
  match acquire (r.fragments.length - r.fragCommit) with
  | none => .error (.discard { r with fragments := fragments })
  | some b =>
    .ok { r with
      fragments := fragments
      buffer := b.start r.buffer.hdr.packetType r.threadId r.timestamp
      bufUsed := sizeofDataBufHdr }

/-- Leave the current buffer at `lp_dst` and go on at the front of a fresh one. -/
def rotate (r : Rec) : Except Stop Rec := do
  let r ← rotateFragmentBuffer acquire { r with bufUsed := r.dst }
  return { r with dst := r.bufUsed }

/-- `P8_ENSURE_SPACE`. -/
def ensureSpace (needed : Nat) (r : Rec) : Except Stop Rec :=
  if bufMax < r.dst + needed then rotate acquire r else .ok r

/-- The writer's pattern for a value of fixed size: ensure its space, copy it, count it. -/
def putBlock (t : Tally) (size : Nat) (bs : List UInt8) (r : Rec) : Except Stop Rec := do
  let r ← ensureSpace acquire size r
  let r ← store bs r
  return r.advance t size

/-- The head of a round of `copy_fragmented`: a buffer without space is left. -/
def leaveFull (r : Rec) : Except Stop Rec := if sizeSub bufMax r.dst = 0 then rotate acquire r else .ok r

/-- The loop of `copy_fragmented` over what is left of the source. Every round copies at least one byte, so as many rounds as
there are bytes are enough. -/
def copyLoop (t : Tally) : Nat → List UInt8 → Rec → Except Stop Rec
  | 0, _, r => .ok r
  | fuel + 1, src, r =>
    if src = [] then .ok r
    else do
      let r ← leaveFull acquire r
      let copy := if src.length < sizeSub bufMax r.dst then src.length else sizeSub bufMax r.dst
      let r ← store (src.take copy) r
      copyLoop t fuel (src.drop copy) (r.advance t copy)

/-- `cp8_tls_writer::copy_fragmented`. -/
def copyFragmented (t : Tally) (src : List UInt8) (r : Rec) : Except Stop Rec := copyLoop acquire t src.length src r

/-- Change the buffer the record's header lies in. -/
def modifyHdrBuf (f : DataBuf → DataBuf) (r : Rec) : Rec :=
  if r.fragCommit < r.fragments.length then { r with fragments := r.fragments.modify r.fragCommit f }
  else { r with buffer := f r.buffer }

/-- Assign fields of `*lp_hdr`. -/
def modifyHdr (f : LogItemDat → LogItemDat) (r : Rec) : Rec :=
  r.modifyHdrBuf (fun b =>
    { b with mem := b.mem.write r.hdr (f (LogItemDat.decode (b.mem.read r.hdr sizeofLogItemDat))).encode })

/-- What has been written so far, as frames. -/
def tape (r : Rec) : Tape UInt8 :=
  ⟨r.fragments.map DataBuf.frame, r.buffer.mem.read sizeofDataBufHdr (r.dst - sizeofDataBufHdr)⟩

/-- The counter a tally names. -/
def tally (r : Rec) : Tally → Nat
  | .args => r.argsWritten
  | .attrs => r.attrsWritten

end Rec

/-! ## What a write does -/

/-- A record that can be written on: `lp_dst` is inside the buffer, behind its header, the buffer is not marked as continued,
the buffers the record has parked are filled at most to their end, and the attribute cache agrees with the registry. -/
structure Rec.Ready (known : List AttrDesc) (r : Rec) : Prop where
  lo : sizeofDataBufHdr ≤ r.dst
  hi : r.dst ≤ bufMax
  commit : r.fragCommit ≤ r.fragments.length
  cache : r.attrCache <+: known
  unflagged : ((r.buffer.hdr.flags &&& dataFlagFragment) != 0) = false
  sizes : ∀ x ∈ r.fragments.drop r.fragCommit, x.hdr.size.toNat ≤ bufMax

/-- What no write of a record changes. -/
structure Rec.Kept (r r' : Rec) : Prop where
  frags : r.fragments <+: r'.fragments
  hdr : r'.hdr = r.hdr
  fragCommit : r'.fragCommit = r.fragCommit
  timestamp : r'.timestamp = r.timestamp
  threadId : r'.threadId = r.threadId

theorem Rec.Kept.refl (r : Rec) : r.Kept r := ⟨List.prefix_refl _, rfl, rfl, rfl, rfl⟩

/-- What two steps keep one after the other. -/
theorem Rec.Kept.trans {r r' r'' : Rec} (h : r.Kept r') (h' : r'.Kept r'') : r.Kept r'' :=
  ⟨h.frags.trans h'.frags, h'.hdr.trans h.hdr, h'.fragCommit.trans h.fragCommit, h'.timestamp.trans h.timestamp,
    h'.threadId.trans h.threadId⟩

section Writes

variable (known : List AttrDesc) (acquire : Nat → Option DataBuf) (t : Tally)

/-- A record after pieces were written: they lie on its frames, every buffer needed was there, and the bytes are counted. -/
structure Wrote (ps : List (Piece UInt8)) (n : UInt8) (r r' : Rec) : Prop where
  kept : r.Kept r'
  ready : r'.Ready known
  tape_eq : r'.tape = r.tape.emit itemSpace ps
  acquired : ∀ i, r.fragments.length ≤ r.fragCommit + i → r.fragCommit + i < r'.fragments.length → (acquire i).isSome
  counted : r'.tally t = r.tally t + (payload ps).length
  others : ∀ u, u ≠ t → r'.tally u = r.tally u
  attrsCount_eq : r'.attrsCount = r.attrsCount + n

/-- A record given up while pieces were written: a part of their bytes lies on its frames, the last one of them left for a
buffer that did not come, and that buffer was needed. -/
structure GaveUp (ps : List (Piece UInt8)) (r r' : Rec) : Prop where
  kept : r.Kept r'
  cache : r'.attrCache <+: known
  spilled : ∃ tp xs, r'.fragments.map DataBuf.frame = tp.done ++ [⟨tp.cur, true⟩] ∧ Spill r.tape xs tp ∧
    xs <+: payload ps
  refused : ∃ i, r'.fragments.length = r.fragCommit + i + 1 ∧ r.fragments.length ≤ r.fragCommit + i ∧ acquire i = none
  needed : ∀ (k : Nat) (l : Layout), l.Of k r.tape → r'.fragments.length ≤ k + (l.emit itemSpace ps).turns

/-- What writing pieces comes to: they are written, or the record is given up; nothing is written outside a buffer. -/
def Writes (ps : List (Piece UInt8)) (n : UInt8) (r : Rec) : Except Stop Rec → Prop
  | .ok r' => Wrote known acquire t ps n r r'
  | .error (.discard r') => GaveUp known acquire ps r r'
  | .error .fault => False

end Writes

section Rules

variable {known : List AttrDesc} {acquire : Nat → Option DataBuf} {t : Tally}

/-- Pieces written one behind the other. -/
theorem Wrote.trans {ps qs : List (Piece UInt8)} {n m : UInt8} {r r' r'' : Rec}
    (h : Wrote known acquire t ps n r r') (h' : Wrote known acquire t qs m r' r'') :
    Wrote known acquire t (ps ++ qs) (n + m) r r'' where
  kept := h.kept.trans h'.kept
  ready := h'.ready
  tape_eq := by rw [h'.tape_eq, h.tape_eq, Tape.emit_append]
  acquired := by
    intro i hlo hhi
    by_cases hi : r.fragCommit + i < r'.fragments.length
    · exact h.acquired i hlo hi
    · have hc := h.kept.fragCommit
      exact h'.acquired i (by omega) (by omega)
  counted := by rw [h'.counted, h.counted, payload_append, List.length_append, Nat.add_assoc]
  others := fun u hu => (h'.others u hu).trans (h.others u hu)
  attrsCount_eq := by rw [h'.attrsCount_eq, h.attrsCount_eq, UInt8.add_assoc]

/-- Frames a writing leaves are counted by the layout of its pieces. -/
theorem Wrote.layout {ps : List (Piece UInt8)} {n : UInt8} {r r' : Rec} (h : Wrote known acquire t ps n r r') {k : Nat}
    {l : Layout} (hl : l.Of k r.tape) : (l.emit itemSpace ps).Of k r'.tape := by
  rw [h.tape_eq]
  exact hl.emit ps

/-- A record right after a rotation. -/
structure Turned (known : List AttrDesc) (r r' : Rec) : Prop where
  kept : r.Kept r'
  ready : r'.Ready known
  dst_eq : r'.dst = sizeofDataBufHdr
  length_eq : r'.fragments.length = r.fragments.length + 1
  tape_eq : r'.tape = r.tape.rotate
  tally_eq : r'.tally = r.tally
  attrsCount_eq : r'.attrsCount = r.attrsCount
  cache_eq : r'.attrCache = r.attrCache

/-- A flag that was set is set. -/
theorem flagged (x : UInt8) : ((x ||| dataFlagFragment) &&& dataFlagFragment) != 0 := by
  have h : (x ||| dataFlagFragment) &&& dataFlagFragment = dataFlagFragment := by
    apply UInt8.toBitVec_inj.1
    ext i hi
    simp only [UInt8.toBitVec_and, UInt8.toBitVec_or, BitVec.getElem_and, BitVec.getElem_or]
    grind
  rw [h]
  decide

/-- A cursor inside a buffer is a `uint16_t`. -/
theorem toNat_size {used : Nat} (h : used < 2 ^ 16) : (UInt16.ofNat used).toNat = used := by
  rw [UInt16.toNat_ofNat']
  exact Nat.mod_eq_of_lt h

/-- A buffer that is cut off holds its bytes up to the cursor, and is continued. -/
theorem DataBuf.frame_cut (b : DataBuf) (used : Nat) (ts : UInt64) (h : used < 2 ^ 16) :
    (b.cut used ts).frame = ⟨b.mem.read sizeofDataBufHdr (used - sizeofDataBufHdr), true⟩ := by
  simp [DataBuf.frame, DataBuf.cut, toNat_size h, flagged]

/-- A buffer taken into use holds nothing and is not marked as continued. -/
theorem DataBuf.frame_start (b : DataBuf) (packetType : UInt8) (threadId : UInt32) (startTime : UInt64) :
    (b.start packetType threadId startTime).frame = ⟨[], false⟩ := by
  simp [DataBuf.frame, DataBuf.start, sizeofDataBufHdr]

variable (acquire) in
/-- A rotation leaves the current buffer as a continued frame, or gives the record up there. -/
theorem rotate_spec {r : Rec} (hr : r.Ready known) :
    match Rec.rotate acquire r with
    | .ok r' => Turned known r r' ∧ (acquire (r.fragments.length - r.fragCommit)).isSome
    | .error (.discard r') =>
      ∀ ps : List (Piece UInt8), (∀ (k : Nat) (l : Layout), l.Of k r.tape → l.turns < (l.emit itemSpace ps).turns) →
        GaveUp known acquire ps r r'
    | .error .fault => False := by
  have hcommit := hr.commit
  have hlt : r.dst < 2 ^ 16 := Nat.lt_of_le_of_lt hr.hi (by decide)
  have hframe := DataBuf.frame_cut r.buffer r.dst r.timestamp hlt
  have hsize : (r.buffer.cut r.dst r.timestamp).hdr.size.toNat ≤ bufMax := by
    rw [DataBuf.cut, toNat_size hlt]
    exact hr.hi
  unfold Rec.rotate Rec.rotateFragmentBuffer
  cases hacq : acquire (r.fragments.length - r.fragCommit) with
  | some b =>
    refine ⟨⟨⟨List.prefix_append _ _, rfl, rfl, rfl, rfl⟩, ⟨Nat.le_refl _, (by decide : sizeofDataBufHdr ≤ bufMax), ?_,
      hr.cache, congrArg Frame.cont (DataBuf.frame_start b _ _ _), ?_⟩, rfl, by simp, ?_, rfl, rfl, rfl⟩, rfl⟩
    · simp only [List.length_append]
      omega
    · intro x hx
      rw [List.drop_append_of_le_length hcommit] at hx
      rcases List.mem_append.mp hx with hx | hx
      · exact hr.sizes x hx
      · rw [List.mem_singleton.mp hx]
        exact hsize
    · simp [Rec.tape, Tape.rotate, hframe]
  | none =>
    intro ps hps
    refine
      { kept := ⟨List.prefix_append _ _, rfl, rfl, rfl, rfl⟩
        cache := hr.cache
        spilled := ⟨r.tape, [], by simp [Rec.tape, hframe], Spill.refl _, List.nil_prefix⟩
        refused := ⟨r.fragments.length - r.fragCommit, ?_, by omega, hacq⟩
        needed := ?_ }
    · simp only [List.length_append, List.length_singleton]
      omega
    · intro k l hl
      have hlen : r.fragments.length = k + l.turns := by simpa [Rec.tape] using hl.2
      have hlt := hps k l hl
      simp only [List.length_append, List.length_singleton]
      omega

/-- A record after bytes were put into the current buffer and counted. -/
structure Put (known : List AttrDesc) (t : Tally) (bs : List UInt8) (r r' : Rec) : Prop where
  kept : r.Kept r'
  ready : r'.Ready known
  frags_eq : r'.fragments = r.fragments
  tape_eq : r'.tape = r.tape.put bs
  counted : r'.tally t = r.tally t + bs.length
  others : ∀ u, u ≠ t → r'.tally u = r.tally u
  attrsCount_eq : r'.attrsCount = r.attrsCount

/-- A store that ends inside the buffer is not refused. -/
theorem store_spec {r : Rec} (hr : r.Ready known) (t : Tally) (bs : List UInt8) (hfit : r.dst + bs.length ≤ bufMax) :
    ∃ r', r.store bs = .ok r' ∧ Put known t bs r (r'.advance t bs.length) := by
  refine ⟨_, by rw [Rec.store, if_pos hfit], ?_⟩
  obtain ⟨n, hn⟩ := Nat.exists_eq_add_of_le hr.lo
  have hlen : r.dst + bs.length - sizeofDataBufHdr = n + bs.length := by omega
  have hmem : (r.buffer.mem.write r.dst bs).read sizeofDataBufHdr (r.dst + bs.length - sizeofDataBufHdr) =
      r.buffer.mem.read sizeofDataBufHdr (r.dst - sizeofDataBufHdr) ++ bs := by
    rw [hlen, hn, Mem.read_write_append, Nat.add_sub_cancel_left]
  have hlo := hr.lo
  cases t
  all_goals
    refine ⟨⟨List.prefix_refl _, rfl, rfl, rfl, rfl⟩, ⟨?_, hfit, hr.commit, hr.cache, hr.unflagged, hr.sizes⟩, rfl, ?_, rfl,
      ?_, rfl⟩
    · exact Nat.le_trans hlo (Nat.le_add_right _ _)
    · simp only [Rec.tape, Rec.advance, Tape.put, hmem]
    · intro u hu
      cases u <;> first | rfl | exact absurd rfl hu

/-- What is put into the current buffer is written. -/
theorem Wrote.of_put {bs : List UInt8} {ps : List (Piece UInt8)} {r r' : Rec} (h : Put known t bs r r')
    (htape : r.tape.put bs = r.tape.emit itemSpace ps) (hbs : payload ps = bs) : Wrote known acquire t ps 0 r r' where
  kept := h.kept
  ready := h.ready
  tape_eq := h.tape_eq.trans htape
  acquired := fun i hlo hhi => by
    rw [h.frags_eq] at hhi
    omega
  counted := by rw [h.counted, hbs]
  others := h.others
  attrsCount_eq := by rw [h.attrsCount_eq, UInt8.add_zero]

/-- What is put into the next one is as well. -/
theorem Wrote.of_turned {bs : List UInt8} {ps : List (Piece UInt8)} {r r' r'' : Rec} (h : Turned known r r')
    (hacq : (acquire (r.fragments.length - r.fragCommit)).isSome) (h' : Put known t bs r' r'')
    (htape : r.tape.rotate.put bs = r.tape.emit itemSpace ps) (hbs : payload ps = bs) :
    Wrote known acquire t ps 0 r r'' where
  kept := h.kept.trans h'.kept
  ready := h'.ready
  tape_eq := by rw [h'.tape_eq, h.tape_eq, htape]
  acquired := fun i hlo hhi => by
    have hlen := h.length_eq
    rw [h'.frags_eq] at hhi
    have hi : i = r.fragments.length - r.fragCommit := by omega
    rwa [hi]
  counted := by rw [h'.counted, h.tally_eq, hbs]
  others := fun u hu => by rw [h'.others u hu, h.tally_eq]
  attrsCount_eq := by rw [h'.attrsCount_eq, h.attrsCount_eq, UInt8.add_zero]

/-- The length of what is on the current frame is where `lp_dst` stands. -/
theorem Rec.length_tape_cur (r : Rec) : r.tape.cur.length = r.dst - sizeofDataBufHdr := by
  simp [Rec.tape]

variable (acquire) in
/-- The pattern for a value of fixed size writes a block. -/
theorem putBlock_writes {r : Rec} (hr : r.Ready known) (t : Tally) (bs : List UInt8) (hbs : bs.length ≤ itemSpace) :
    Writes known acquire t [.block bs] 0 r (r.putBlock acquire t bs.length bs) := by
  have hlo := hr.lo
  have hhi := hr.hi
  have hspace : itemSpace + sizeofDataBufHdr = bufMax := by decide
  have hcur := r.length_tape_cur
  have hpay : payload [Piece.block bs] = bs := by simp [Piece.data]
  unfold Rec.putBlock Rec.ensureSpace
  by_cases hfull : bufMax < r.dst + bs.length
  · rw [if_pos hfull]
    have hblock : ∀ u : Tape UInt8, u = r.tape → u.emit itemSpace [.block bs] = u.rotate.put bs := by
      rintro u rfl
      show (if itemSpace < r.tape.cur.length + bs.length then _ else _) = _
      rw [if_pos (by omega)]
    have hrot := rotate_spec acquire hr
    cases hro : Rec.rotate acquire r with
    | error e =>
      rw [hro] at hrot
      cases e with
      | fault => exact hrot.elim
      | discard r' =>
        refine hrot [.block bs] (fun k l hl => ?_)
        have hpos : l.pos = r.dst - sizeofDataBufHdr := hl.1.symm.trans hcur
        show l.turns < (if itemSpace < l.pos + bs.length then _ else _ : Layout).turns
        rw [if_pos (by omega)]
        exact Nat.lt_succ_self _
    | ok r' =>
      rw [hro] at hrot
      obtain ⟨hturn, hacq⟩ := hrot
      obtain ⟨r'', hst, hput⟩ := store_spec hturn.ready t bs (by rw [hturn.dst_eq]; omega)
      simp only [bind, Except.bind, hst, pure, Except.pure]
      exact Wrote.of_turned hturn hacq hput (hblock _ rfl).symm hpay
  · rw [if_neg hfull]
    obtain ⟨r', hst, hput⟩ := store_spec hr t bs (by omega)
    simp only [bind, Except.bind, hst, pure, Except.pure]
    refine Wrote.of_put hput ?_ hpay
    show _ = (if itemSpace < r.tape.cur.length + bs.length then _ else _)
    rw [if_neg (by omega)]

/-- Every block is at most one buffer long. -/
def AllFit (ps : List (Piece UInt8)) : Prop := ∀ p ∈ ps, p.Fits itemSpace

/-- Pieces that fit, and more of them. -/
theorem AllFit.append {ps qs : List (Piece UInt8)} (h : AllFit ps) (h' : AllFit qs) : AllFit (ps ++ qs) := by
  intro p hp
  rcases List.mem_append.mp hp with hp | hp
  · exact h p hp
  · exact h' p hp

/-- A record's current buffer holds no more than a buffer has room for. -/
theorem Rec.Ready.cur_le {r : Rec} (hr : r.Ready known) : r.tape.cur.length ≤ itemSpace := by
  have hhi := hr.hi
  have hspace : itemSpace + sizeofDataBufHdr = bufMax := by decide
  rw [r.length_tape_cur]
  omega

/-- The bytes of written pieces lie over the frames of the record. -/
theorem Wrote.spill {ps : List (Piece UInt8)} {n : UInt8} {r r' : Rec} (h : Wrote known acquire t ps n r r')
    (hr : r.Ready known) (hps : AllFit ps) : Spill r.tape (payload ps) r'.tape := by
  rw [h.tape_eq]
  exact spill_emit (by decide) _ _ hr.cur_le hps

/-- A record given up while its later pieces are written is given up while they all are. -/
theorem GaveUp.after {ps qs : List (Piece UInt8)} {n : UInt8} {r r' r'' : Rec} (h : Wrote known acquire t ps n r r')
    (h' : GaveUp known acquire qs r' r'') (hr : r.Ready known) (hps : AllFit ps) :
    GaveUp known acquire (ps ++ qs) r r'' where
  kept := h.kept.trans h'.kept
  cache := h'.cache
  spilled := by
    obtain ⟨tp, xs, hframes, hspill, hxs⟩ := h'.spilled
    refine ⟨tp, payload ps ++ xs, hframes, (h.spill hr hps).trans hspill, ?_⟩
    rw [payload_append]
    exact List.prefix_append_right_inj _ |>.mpr hxs
  refused := by
    obtain ⟨i, hlen, hlo, hnone⟩ := h'.refused
    have hfrags := h.kept.frags.length_le
    have hc := h.kept.fragCommit
    exact ⟨i, by omega, by omega, hnone⟩
  needed := by
    intro k l hl
    have hn := h'.needed k _ (h.layout hl)
    rwa [← Layout.emit_append] at hn

/-- A record given up while its first pieces are written is given up while they all are. -/
theorem GaveUp.before {ps qs : List (Piece UInt8)} {r r' : Rec} (h : GaveUp known acquire ps r r') (hr : r.Ready known)
    (hps : AllFit ps) (hqs : AllFit qs) : GaveUp known acquire (ps ++ qs) r r' where
  kept := h.kept
  cache := h.cache
  spilled := by
    obtain ⟨tp, xs, hframes, hspill, hxs⟩ := h.spilled
    refine ⟨tp, xs, hframes, hspill, hxs.trans ?_⟩
    rw [payload_append]
    exact List.prefix_append _ _
  refused := h.refused
  needed := by
    intro k l hl
    have hpos : l.pos ≤ itemSpace := hl.1 ▸ hr.cur_le
    have hb := Layout.balanced_emit (by decide) l ps hpos hps
    have hb' := Layout.balanced_emit (by decide) (l.emit itemSpace ps) qs hb.pos_le hqs
    have hturns := hb'.turns_le
    rw [Layout.emit_append]
    exact Nat.le_trans (h.needed k l hl) (Nat.add_le_add_left hturns k)

/-- Pieces written one after the other. -/
theorem Writes.bind {p q : List (Piece UInt8)} {n m : UInt8} {r : Rec} {x : Except Stop Rec}
    {f : Rec → Except Stop Rec} (hr : r.Ready known) (hp : AllFit p) (hq : AllFit q)
    (h : Writes known acquire t p n r x)
    (h' : ∀ r', Wrote known acquire t p n r r' → Writes known acquire t q m r' (f r')) :
    Writes known acquire t (p ++ q) (n + m) r (x >>= f) := by
  cases x with
  | error e =>
    cases e with
    | fault => exact h.elim
    | discard r' => exact GaveUp.before h hr hp hq
  | ok r' =>
    have hf := h' r' h
    show Writes known acquire t (p ++ q) (n + m) r (f r')
    cases hfr : f r' with
    | ok r'' =>
      rw [hfr] at hf
      exact Wrote.trans h hf
    | error e =>
      rw [hfr] at hf
      cases e with
      | fault => exact hf.elim
      | discard r'' => exact GaveUp.after h hf hr hp

/-- A record with nothing more written to it. -/
theorem Wrote.nil {ps : List (Piece UInt8)} {r : Rec} (hr : r.Ready known) (htape : r.tape = r.tape.emit itemSpace ps)
    (hps : payload ps = []) : Wrote known acquire t ps 0 r r where
  kept := Rec.Kept.refl r
  ready := hr
  tape_eq := htape
  acquired := fun i hlo hhi => by omega
  counted := by simp [hps]
  others := fun _ _ => rfl
  attrsCount_eq := by rw [UInt8.add_zero]

/-- A text written in two parts is written whole. -/
theorem Writes.join {xs ys : List UInt8} {n : UInt8} {r : Rec} {x : Except Stop Rec}
    (h : Writes known acquire t ([.text xs] ++ [.text ys]) n r x) : Writes known acquire t [.text (xs ++ ys)] n r x := by
  have hpay : payload ([.text xs] ++ [.text ys]) = payload [Piece.text (xs ++ ys)] := by simp [Piece.data]
  have htape : ∀ u : Tape UInt8, u.emit itemSpace ([.text xs] ++ [.text ys]) = u.emit itemSpace [.text (xs ++ ys)] :=
    fun u => (Tape.text_append u xs ys).symm
  have hlay : ∀ l : Layout, l.emit itemSpace ([.text xs] ++ [.text ys]) = l.emit itemSpace [Piece.text (xs ++ ys)] := by
    intro l
    show (l.text itemSpace xs.length).text itemSpace ys.length = l.text itemSpace (xs ++ ys).length
    rw [List.length_append, Layout.text_add]
  cases x with
  | ok r' => exact { h with tape_eq := by rw [h.tape_eq, htape], counted := by rw [h.counted, hpay] }
  | error e =>
    cases e with
    | fault => exact h
    | discard r' =>
      exact { h with
        spilled := by rw [← hpay]; exact h.spilled
        needed := fun k l hl => by rw [← hlay]; exact h.needed k l hl }

/-- A text fits anywhere. -/
theorem allFit_text (xs : List UInt8) : AllFit [.text xs] := by
  intro p hp
  rw [List.mem_singleton.mp hp]
  trivial

/-- The space `copy_fragmented` sees is what the current frame has left. -/
theorem Rec.Ready.space {r : Rec} (hr : r.Ready known) : sizeSub bufMax r.dst = itemSpace - r.tape.cur.length := by
  have hlo := hr.lo
  have hspace : itemSpace + sizeofDataBufHdr = bufMax := by decide
  rw [sizeSub_of_le hr.hi (by decide), r.length_tape_cur]
  omega

variable (acquire) in
/-- One round of `copy_fragmented`: the buffer is left if it is full, and as much is copied as fits. -/
theorem copyRound {r : Rec} (hr : r.Ready known) (t : Tally) (src : List UInt8) (hsrc : src ≠ []) :
    (∃ r' r'' n, Rec.leaveFull acquire r = .ok r' ∧
      n = (if src.length < sizeSub bufMax r'.dst then src.length else sizeSub bufMax r'.dst) ∧ 0 < n ∧
      r'.store (src.take n) = .ok r'' ∧ Wrote known acquire t [.text (src.take n)] 0 r (r''.advance t n)) ∨
    (∃ r', Rec.leaveFull acquire r = .error (.discard r') ∧
      GaveUp known acquire [.text src] r r') := by
  have hlen : 0 < src.length := List.length_pos_iff.mpr hsrc
  have hcur := hr.cur_le
  have hspace : itemSpace + sizeofDataBufHdr = bufMax := by decide
  have hpay : ∀ xs : List UInt8, payload [Piece.text xs] = xs := fun xs => by simp [Piece.data]
  unfold Rec.leaveFull
  by_cases hfull : sizeSub bufMax r.dst = 0
  · have hfull' : itemSpace ≤ r.tape.cur.length := by
      rw [hr.space] at hfull
      omega
    rw [if_pos hfull]
    have hrot := rotate_spec acquire hr
    cases hro : Rec.rotate acquire r with
    | error e =>
      rw [hro] at hrot
      cases e with
      | fault => exact hrot.elim
      | discard r' =>
        refine Or.inr ⟨r', rfl, hrot _ (fun k l hl => ?_)⟩
        exact Layout.turns_lt_text (by decide) l hlen (hl.1 ▸ hfull')
    | ok r' =>
      rw [hro] at hrot
      obtain ⟨hturn, hacq⟩ := hrot
      have hr' := hturn.ready
      have hsp : sizeSub bufMax r'.dst = itemSpace := by rw [hturn.dst_eq]; decide
      generalize hn : (if src.length < sizeSub bufMax r'.dst then src.length else sizeSub bufMax r'.dst) = n
      rw [hsp] at hn
      have hle : n ≤ src.length ∧ n ≤ itemSpace ∧ 0 < n := by
        have hcap : 0 < itemSpace := by decide
        subst hn
        split <;> omega
      have htake : (src.take n).length = n := by rw [List.length_take]; omega
      obtain ⟨r'', hst, hput⟩ := store_spec hr' t (src.take n) (by rw [htake, hturn.dst_eq]; omega)
      rw [htake] at hput
      refine Or.inl ⟨r', r'', n, rfl, by rw [hsp, hn], hle.2.2, hst, Wrote.of_turned hturn hacq hput ?_ (hpay _)⟩
      refine (Tape.text_of_full _ _ ?_ hfull' (by rw [htake]; exact hle.2.1)).symm
      exact List.ne_nil_of_length_pos (by omega)
  · rw [if_neg hfull]
    rw [hr.space] at hfull
    generalize hn : (if src.length < sizeSub bufMax r.dst then src.length else sizeSub bufMax r.dst) = n
    have hn' := hn
    rw [hr.space] at hn'
    have hle : n ≤ src.length ∧ n ≤ itemSpace - r.tape.cur.length ∧ 0 < n := by
      subst hn'
      split <;> omega
    have htake : (src.take n).length = n := by rw [List.length_take]; omega
    have hlo := hr.lo
    have hc := r.length_tape_cur
    obtain ⟨r'', hst, hput⟩ := store_spec hr t (src.take n) (by rw [htake]; omega)
    rw [htake] at hput
    refine Or.inl ⟨r, r'', n, rfl, hn.symm, hle.2.2, hst, Wrote.of_put hput ?_ (hpay _)⟩
    exact (Tape.text_of_fits _ _ (by rw [htake]; omega)).symm

/-- The copying loop writes its text. -/
theorem copyLoop_writes (t : Tally) (fuel : Nat) (src : List UInt8) (hfuel : src.length ≤ fuel) {r : Rec}
    (hr : r.Ready known) : Writes known acquire t [.text src] 0 r (Rec.copyLoop acquire t fuel src r) := by
  induction fuel generalizing src r with
  | zero =>
    have hnil : src = [] := List.length_eq_zero_iff.mp (by omega)
    subst hnil
    exact Wrote.nil hr rfl rfl
  | succ fuel ih =>
    unfold Rec.copyLoop
    by_cases hsrc : src = []
    · rw [if_pos hsrc, hsrc]
      exact Wrote.nil hr rfl rfl
    · rw [if_neg hsrc]
      rcases copyRound acquire hr t src hsrc with
        ⟨r', r'', n, hrot, hn, hpos, hst, hwrote⟩ | ⟨r', hrot, hgave⟩
      · simp only [hrot, bind, Except.bind, ← hn, hst]
        have hrest : (src.drop n).length ≤ fuel := by
          rw [List.length_drop]
          omega
        have hboth : Writes known acquire t ([.text (src.take n)] ++ [.text (src.drop n)]) (0 + 0) r
            (Rec.copyLoop acquire t fuel (src.drop n) (r''.advance t n)) :=
          Writes.bind (x := .ok (r''.advance t n)) (f := Rec.copyLoop acquire t fuel (src.drop n)) hr
            (allFit_text _) (allFit_text _) hwrote (fun _ h₁ => ih (src.drop n) hrest h₁.ready)
        have hjoin := Writes.join hboth
        rwa [List.take_append_drop] at hjoin
      · simp only [hrot, bind, Except.bind]
        exact hgave

/-- `copy_fragmented` writes a text. -/
theorem copyFragmented_writes (t : Tally) (src : List UInt8) {r : Rec} (hr : r.Ready known) :
    Writes known acquire t [.text src] 0 r (r.copyFragmented acquire t src) :=
  copyLoop_writes t src.length src (Nat.le_refl _) hr

end Rules

end P8
