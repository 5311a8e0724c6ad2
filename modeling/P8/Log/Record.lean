import P8.Log.Emit

/-!
# Record: one record on the frames of a writer

What `send` does to a writer that is ready to write a record. `writeRecord_spec` says what the written record is: the bytes
the writer held, the item's header and its body, spread over the frames from the current one on; or, where a buffer was
missing, a beginning of that, the last frame of it left for the buffer that did not come. Nothing here depends on where in its
buffer the record begins: what does is in the modules on the cursor and on discarded records.
-/

namespace P8

open Bytes Framing

/-- The bytes in front of the cursor in a writer's current buffer. -/
def Log.curBytes (l : Log) (b : DataBuf) : List UInt8 := b.mem.read sizeofDataBufHdr (l.bufUsed - sizeofDataBufHdr)

/-- How the body of a record lies that begins at the cursor `used`. -/
def recordLayout (known : List AttrDesc) (d : LogDesc) (c : Call) (used : Nat) : Layout :=
  Layout.emit itemSpace ⟨used + sizeofLogItemDat - sizeofDataBufHdr, 0, 0⟩ (bodyPieces known d c)

/-- A writer that can write a record: the header fits behind the cursor. -/
structure Log.Room (l : Log) (known : List AttrDesc) : Prop where
  lo : sizeofDataBufHdr ≤ l.bufUsed
  hi : l.bufUsed + sizeofLogItemDat ≤ bufMax
  cache : l.attrCache <+: known

/-- The record was begun by the writer `l`: its earlier buffers are untouched, and the header lies where the cursor was. -/
structure Rec.Of (l : Log) (env : SendEnv) (r : Rec) : Prop where
  earlier : r.fragments.take l.fragments.length = l.fragments
  commit : r.fragCommit = l.fragments.length
  hdr_eq : r.hdr = l.bufUsed
  timestamp : r.timestamp = env.itemTicks
  threadId : r.threadId = l.threadId

section

variable (l : Log) (env : SendEnv) (core : Core) (d : LogDesc) (c : Call) (b : DataBuf)

/-- A record written to its end, its sizes not yet in its header. -/
structure Recorded (h : LogItemDat) (r : Rec) : Prop where
  of : r.Of l env
  ready : r.Ready core.attrDescs
  spill : Spill ⟨l.fragments.map DataBuf.frame, l.curBytes b ++ h.encode⟩ (payload (bodyPieces core.attrDescs d c)) r.tape
  hdr : ∃ g, h = { l.beginHdr env d c g with argsSize := UInt16.ofNat (payload (argsPieces c.args 0 d.args)).length }
  layout : (recordLayout core.attrDescs d c l.bufUsed).Of l.fragments.length r.tape
  acquired : ∀ i, i < (recordLayout core.attrDescs d c l.bufUsed).turns → (env.acquire i).isSome
  argsWritten : r.argsWritten = (payload (argsPieces c.args 0 d.args)).length
  attrsWritten : r.attrsWritten = (payload (attrsPieces core.attrDescs (c.attrs.getD []))).length
  attrsCount : r.attrsCount = attrsCountOf core.attrDescs (c.attrs.getD [])

/-- A record given up: what it wrote lies over the frames, the last of them left; `0` stands for the byte that would have
come next. -/
structure Given (h : LogItemDat) (r : Rec) : Prop where
  of : r.Of l env
  hash : h.hash = d.hash
  cache : r.attrCache <+: core.attrDescs
  longer : l.fragments.length < r.fragments.length
  spilled : ∃ xs, xs <+: payload (bodyPieces core.attrDescs d c) ∧
    Spill ⟨l.fragments.map DataBuf.frame, l.curBytes b ++ h.encode⟩ (xs ++ [0]) ⟨r.fragments.map DataBuf.frame, [0]⟩
  refused : ∃ i, i < (recordLayout core.attrDescs d c l.bufUsed).turns ∧ env.acquire i = none

end

/-- The beginning of a longer list is the beginning of the shorter one. -/
theorem take_sublist {α : Type} {xs ys : List α} (h : xs <+: ys) {k : Nat} (hk : k ≤ xs.length) :
    ys.take k = xs.take k := by
  obtain ⟨zs, rfl⟩ := h
  exact List.take_append_of_le_length hk

section

variable {l : Log} {env : SendEnv} {core : Core} {d : LogDesc} {c : Call} {b : DataBuf}

/-- What the steps keep of a record's beginnings they keep together. -/
theorem Rec.Of.kept {r r' : Rec} (h : r.Of l env) (hr : r.Ready core.attrDescs) (hk : r.Kept r') : r'.Of l env where
  earlier := by
    have hcommit := hr.commit
    rw [h.commit] at hcommit
    rw [take_sublist hk.frags hcommit, h.earlier]
  commit := hk.fragCommit.trans h.commit
  hdr_eq := hk.hdr.trans h.hdr_eq
  timestamp := hk.timestamp.trans h.timestamp
  threadId := hk.threadId.trans h.threadId

/-- A change of the header keeps the record's beginnings. -/
theorem Rec.Of.modifyHdr {r : Rec} (h : r.Of l env) (f : LogItemDat → LogItemDat) : (r.modifyHdr f).Of l env := by
  obtain ⟨frs, buf, he, -, htake, -, -⟩ := modifyHdr_eq r f
  rw [h.commit] at htake
  rw [he]
  exact ⟨htake.trans h.earlier, h.commit, h.hdr_eq, h.timestamp, h.threadId⟩

/-- It keeps the record ready. -/
theorem Rec.Ready.modifyHdr {known : List AttrDesc} {r : Rec} (h : r.Ready known) (f : LogItemDat → LogItemDat) :
    (r.modifyHdr f).Ready known := by
  obtain ⟨frs, buf, he, hlen, -, hhdrs, hbuf⟩ := modifyHdr_eq r f
  rw [he]
  refine ⟨h.lo, h.hi, hlen ▸ h.commit, h.cache, hbuf ▸ h.unflagged, fun x hx => ?_⟩
  have hx' : x.hdr ∈ (r.fragments.drop r.fragCommit).map (·.hdr) := by
    rw [List.map_drop, ← hhdrs, ← List.map_drop]
    exact List.mem_map_of_mem hx
  obtain ⟨y, hy, hxy⟩ := List.mem_map.mp hx'
  rw [← hxy]
  exact h.sizes y hy

/-- Patching a header moves nothing. -/
theorem layout_modifyHdr {k : Nat} {lay : Layout} {r : Rec} (h : lay.Of k r.tape) (f : LogItemDat → LogItemDat) :
    lay.Of k (r.modifyHdr f).tape := by
  obtain ⟨frs, buf, he, hlen, -⟩ := modifyHdr_eq r f
  obtain ⟨hpos, hturns⟩ := h
  rw [he]
  refine ⟨?_, ?_⟩
  · rw [← hpos]
    simp [Rec.tape]
  · rw [← hturns]
    simp [Rec.tape, hlen]

end

/-! ## A record under way -/

/-- A record under way: behind what the writer held lie the header `h` and the bytes `xs`, laid out as `lay` says. -/
structure Progress (l : Log) (env : SendEnv) (core : Core) (b : DataBuf) (h : LogItemDat) (xs : List UInt8) (lay : Layout)
    (r : Rec) : Prop where
  of : r.Of l env
  ready : r.Ready core.attrDescs
  spill : Spill ⟨l.fragments.map DataBuf.frame, l.curBytes b ++ h.encode⟩ xs r.tape
  layout : lay.Of l.fragments.length r.tape

section

variable {l : Log} {env : SendEnv} {core : Core} {d : LogDesc} {c : Call} {b : DataBuf} {h : LogItemDat} {xs : List UInt8}
  {lay : Layout} {r r' : Rec}

/-- The layout at the end of the header. -/
def headLayout (used : Nat) : Layout := ⟨used + sizeofLogItemDat - sizeofDataBufHdr, 0, 0⟩

variable (env d c) in
/-- A record right after its header was begun. -/
theorem Progress.begin (hl : l.Room core.attrDescs) (hb : b.frame.cont = false) :
    ∃ g, Progress l env core b (l.beginHdr env d c g) [] (headLayout l.bufUsed)
      ((l.beginRecord env b).modifyHdr (l.beginHdr env d c)) := by
  have hlo := hl.lo
  obtain ⟨n, hn⟩ := Nat.exists_eq_add_of_le hlo
  have hlen : l.bufUsed + sizeofLogItemDat - sizeofDataBufHdr = n + sizeofLogItemDat := by omega
  have hof : (l.beginRecord env b).Of l env := ⟨List.take_length, rfl, rfl, rfl, rfl⟩
  have hready : (l.beginRecord env b).Ready core.attrDescs :=
    ⟨Nat.le_trans hlo (Nat.le_add_right _ _), hl.hi, Nat.le_refl _, hl.cache, hb, fun x hx => by
      rw [show (l.beginRecord env b).fragments.drop (l.beginRecord env b).fragCommit = [] from List.drop_length] at hx
      cases hx⟩
  have hmem := Mem.read_write_append b.mem sizeofDataBufHdr n
    (l.beginHdr env d c (LogItemDat.decode (b.mem.read l.bufUsed sizeofLogItemDat))).encode
  rw [LogItemDat.length_encode, ← hn] at hmem
  have hcur : l.curBytes b = b.mem.read sizeofDataBufHdr n := by rw [Log.curBytes, hn, Nat.add_sub_cancel_left]
  have htape : ((l.beginRecord env b).modifyHdr (l.beginHdr env d c)).tape = ⟨l.fragments.map DataBuf.frame, l.curBytes b ++
      (l.beginHdr env d c (LogItemDat.decode (b.mem.read l.bufUsed sizeofLogItemDat))).encode⟩ := by
    rw [Rec.modifyHdr, Rec.modifyHdrBuf, if_neg (by exact Nat.lt_irrefl _), hcur, ← hmem]
    simp only [Rec.tape, Log.beginRecord, hlen]
  refine ⟨LogItemDat.decode (b.mem.read l.bufUsed sizeofLogItemDat), hof.modifyHdr _, hready.modifyHdr _, ?_, ?_⟩
  · rw [htape]
    exact Spill.refl _
  · rw [htape, headLayout, hlen]
    exact ⟨by simp [hcur], by simp⟩

/-- Pieces written to a record under way. -/
theorem Progress.wrote (hp : Progress l env core b h xs lay r) {t : Tally} {ps : List (Piece UInt8)} {n : UInt8}
    (hw : Wrote core.attrDescs env.acquire t ps n r r') (hps : AllFit ps) :
    Progress l env core b h (xs ++ payload ps) (lay.emit itemSpace ps) r' where
  of := hp.of.kept hp.ready hw.kept
  ready := hw.ready
  spill := hp.spill.trans (hw.spill hp.ready hps)
  layout := hw.layout hp.layout

/-- The header of a record under way is patched. -/
theorem Progress.patch (hp : Progress l env core b h xs lay r) (hlo : sizeofDataBufHdr ≤ l.bufUsed)
    (f : LogItemDat → LogItemDat) : Progress l env core b (f h) xs lay (r.modifyHdr f) where
  of := hp.of.modifyHdr f
  ready := hp.ready.modifyHdr f
  spill := spill_modifyHdr hp.spill (by rw [List.length_map, hp.of.commit])
    (by rw [hp.of.hdr_eq, Log.curBytes, Mem.length_read, Nat.add_sub_of_le hlo]) f
  layout := layout_modifyHdr hp.layout f

/-- The number of buffers a record under way has parked. -/
theorem Progress.parked (hp : Progress l env core b h xs lay r) : r.fragments.length = l.fragments.length + lay.turns := by
  simpa [Rec.tape] using hp.layout.2

/-- A record under way is given up while its next pieces are written. -/
theorem Progress.gaveUp (hp : Progress l env core b h xs lay r) (hhash : h.hash = d.hash) {ps : List (Piece UInt8)}
    (hg : GaveUp core.attrDescs env.acquire ps r r')
    (hxs : xs ++ payload ps <+: payload (bodyPieces core.attrDescs d c))
    (hturns : (lay.emit itemSpace ps).turns ≤ (recordLayout core.attrDescs d c l.bufUsed).turns) :
    Given l env core d c b h r' := by
  obtain ⟨i, hlen, -, hnone⟩ := hg.refused
  obtain ⟨tp, ys, hframes, hspill, hys⟩ := hg.spilled
  have hneeded := hg.needed _ _ hp.layout
  have hcommit := hp.of.commit
  refine
    { of := hp.of.kept hp.ready hg.kept
      hash := hhash
      cache := hg.cache
      longer := by omega
      spilled := ⟨xs ++ ys, ?_, ?_⟩
      refused := ⟨i, by omega, hnone⟩ }
  · exact (List.prefix_append_right_inj xs |>.mpr hys).trans hxs
  · have hnext := (hp.spill.trans hspill).trans (Spill.rotate_put tp [0] (by simp))
    rw [hframes]
    exact hnext

/-- A record's layout is that of its arguments, then of its attributes. -/
theorem recordLayout_eq (known : List AttrDesc) (d : LogDesc) (c : Call) (used : Nat) :
    recordLayout known d c used = ((headLayout used).emit itemSpace (argsPieces c.args 0 d.args)).emit itemSpace
      (attrsPieces known (c.attrs.getD [])) := by
  rw [recordLayout, bodyPieces, Layout.emit_append, headLayout]

/-- The turns of a record's arguments are turns of the record. -/
theorem turns_le_recordLayout (hd : ArgList logMaxArgs d.args) (hl : l.Room core.attrDescs) :
    ((headLayout l.bufUsed).emit itemSpace (argsPieces c.args 0 d.args)).turns ≤
      (recordLayout core.attrDescs d c l.bufUsed).turns := by
  have hhi := hl.hi
  have hspace : itemSpace + sizeofDataBufHdr = bufMax := by decide
  have hpos : (headLayout l.bufUsed).pos ≤ itemSpace := by
    dsimp only [headLayout]
    omega
  have hargs := Layout.balanced_emit (by decide) _ _ hpos (allFit_argsPieces hd.slot c.args 0)
  have hattrs := Layout.balanced_emit (by decide) _ _ hargs.pos_le
    (allFit_attrsPieces core.attrDescs (c.attrs.getD []))
  rw [recordLayout_eq]
  exact hattrs.turns_le

variable (env c) in
/-- Writing a record on a writer that has room for its header: the record is written to its end, or given up for want of a
buffer that it needed. -/
theorem writeRecord_spec (hd : ArgList logMaxArgs d.args) (hl : l.Room core.attrDescs) (hb : b.frame.cont = false) :
    match l.writeRecord env core d c b with
    | .ok r => ∃ h, Recorded l env core d c b h r
    | .error (.discard r) => ∃ h, Given l env core d c b h r
    | .error .fault => False := by
  obtain ⟨g, hp₁⟩ := Progress.begin env d c hl hb
  have hzero : ∀ r₁, (l.beginRecord env b).modifyHdr (l.beginHdr env d c) = r₁ →
      r₁.argsWritten = 0 ∧ r₁.attrsWritten = 0 ∧ r₁.attrsCount = 0 := by
    rintro r₁ rfl
    obtain ⟨frs, buf, he, -⟩ := modifyHdr_eq (l.beginRecord env b) (l.beginHdr env d c)
    rw [he]
    exact ⟨rfl, rfl, rfl⟩
  rw [Log.writeRecord, if_pos hl.hi, Rec.putBody]
  generalize (l.beginRecord env b).modifyHdr (l.beginHdr env d c) = r₁ at hp₁ hzero
  obtain ⟨hargs₁, hattrs₁, hcount₁⟩ := hzero r₁ rfl
  -- the arguments
  have hx := putArgs_writes env.acquire hd.slot c.args 0 hp₁.ready
  cases hput : r₁.putArgs env.acquire c.args 0 d.args with
  | error e =>
    rw [hput] at hx
    cases e with
    | fault => exact hx.elim
    | discard r =>
      refine ⟨_, hp₁.gaveUp rfl hx ?_ (turns_le_recordLayout hd hl)⟩
      rw [bodyPieces, payload_append]
      exact List.prefix_append _ _
  | ok r₂ =>
    rw [hput] at hx
    have hp₂ := hp₁.wrote hx (allFit_argsPieces hd.slot c.args 0)
    have hargs₂ : r₂.argsWritten = (payload (argsPieces c.args 0 d.args)).length := by
      have h1 : r₂.argsWritten = r₁.argsWritten + _ := hx.counted
      rw [h1, hargs₁, Nat.zero_add]
    have hattrs₂ : r₂.attrsWritten = 0 := (hx.others .attrs (by decide)).trans hattrs₁
    have hcount₂ : r₂.attrsCount = 0 := by rw [hx.attrsCount_eq, hcount₁, UInt8.add_zero]
    -- their size goes into the header
    simp only [bind, Except.bind, hargs₂]
    have hp₃ := hp₂.patch hl.lo
      (fun h => { h with argsSize := UInt16.ofNat (payload (argsPieces c.args 0 d.args)).length })
    obtain ⟨frs, buf, he₃, hlen₃, -⟩ := modifyHdr_eq r₂
      (fun h => { h with argsSize := UInt16.ofNat (payload (argsPieces c.args 0 d.args)).length })
    rw [he₃] at hp₃ ⊢
    -- the attributes
    have hy := putAttrs_writes env.acquire (c.attrs.getD []) hp₃.ready
    generalize hr₃ : ({ r₂ with fragments := frs, buffer := buf } : Rec) = r₃ at hp₃ hy
    cases hputs : r₃.putAttrs env.acquire core (c.attrs.getD []) with
    | error e =>
      rw [hputs] at hy
      cases e with
      | fault => exact hy.elim
      | discard r =>
        refine ⟨_, hp₃.gaveUp rfl hy ?_ (Nat.le_of_eq (by rw [recordLayout_eq]))⟩
        rw [bodyPieces, payload_append]
        exact List.prefix_refl _
    | ok r₄ =>
      rw [hputs] at hy
      have hp₄ := hp₃.wrote hy (allFit_attrsPieces _ _)
      have hlay := hp₄.layout
      have hspill := hp₄.spill
      rw [← recordLayout_eq] at hlay
      rw [List.nil_append, ← payload_append] at hspill
      refine ⟨_,
        { of := hp₄.of
          ready := hp₄.ready
          spill := hspill
          hdr := ⟨g, rfl⟩
          layout := hlay
          acquired := ?_
          argsWritten := ?_
          attrsWritten := ?_
          attrsCount := ?_ }⟩
      · intro i hi
        have hlen₂ : r₃.fragments.length = r₂.fragments.length := by rw [← hr₃]; exact hlen₃
        have hcommit₁ := hp₁.of.commit
        have hcommit₃ := hp₃.of.commit
        have hpark₁ := hp₁.parked
        have hpark₄ := hp₄.parked
        rw [← recordLayout_eq] at hpark₄
        have hzero : (headLayout l.bufUsed).turns = 0 := rfl
        by_cases hi' : l.fragments.length + i < r₂.fragments.length
        · exact hx.acquired i (by omega) (by omega)
        · exact hy.acquired i (by omega) (by omega)
      · have h1 : r₄.argsWritten = r₃.argsWritten := hy.others .args (by decide)
        rw [h1, ← hr₃]
        exact hargs₂
      · have h1 : r₄.attrsWritten = r₃.attrsWritten + _ := hy.counted
        have h2 : r₃.attrsWritten = 0 := by rw [← hr₃]; exact hattrs₂
        rw [h1, h2, Nat.zero_add]
      · have h2 : r₃.attrsCount = 0 := by rw [← hr₃]; exact hcount₂
        rw [hy.attrsCount_eq, h2, UInt8.zero_add]

end

end P8
