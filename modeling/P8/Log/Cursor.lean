import P8.Log.Run

/-!
# Cursor: where the write cursor stands after a record

The pad of a record is computed from its logical size, while the cursor also moved over the bytes left unused at the end of
every buffer the record rotated out of. So the cursor behind a record is aligned exactly when the unused bytes sum up to a
multiple of 8 (`recordEnd_dvd`). `cursor_iff` says on which runs the cursor stays inside its buffer and
aligned, and `cursor_false` is a run on which it does neither.
-/

namespace P8

open Bytes Framing

/-! ## One record -/

section

variable {core : Core} {l : Log} {c : Call}

/-- The cursor behind a record that began at an aligned cursor is aligned exactly when the unused bytes are. -/
theorem recordEnd_dvd {d : LogDesc} (hl : l.Room core.attrDescs) (hd : ArgList logMaxArgs d.args) (h8 : 8 ∣ l.bufUsed) :
    8 ∣ recordEnd core.attrDescs d c l.bufUsed ↔ 8 ∣ unusedBytes core.attrDescs d c l.bufUsed := by
  obtain ⟨hbal, -⟩ := recordEnd_balance hl hd c
  have hpad := padOf_dvd (recordSize core.attrDescs d c)
  have hspace : itemSpace = 8 * 1021 := by decide
  rw [hspace, Nat.mul_assoc] at hbal
  omega

/-- An aligned cursor behind a record is inside the buffer: the buffer's end is aligned, and the pad is shorter than that. -/
theorem recordEnd_le {d : LogDesc} (hl : l.Room core.attrDescs) (hd : ArgList logMaxArgs d.args)
    (h8 : 8 ∣ recordEnd core.attrDescs d c l.bufUsed) : recordEnd core.attrDescs d c l.bufUsed ≤ bufMax := by
  obtain ⟨-, hle⟩ := recordEnd_balance hl hd c
  have hpad := padOf_le (recordSize core.attrDescs d c)
  have hmax : bufMax = 8192 := by decide
  omega

/-- A record that ends so close to the end of its buffer that the buffer is parked. -/
def EndsParked (known : List AttrDesc) (d : LogDesc) (c : Call) (used : Nat) : Prop :=
  bufMax < recordEnd known d c used + logMinBufferSpace ∧ recordEnd known d c used ≤ bufMax

/-- The buffer behind a record is parked exactly when the record ends close to its end, and not behind it. -/
theorem endsParked_iff {d : LogDesc} (hl : l.Room core.attrDescs) (hd : ArgList logMaxArgs d.args) :
    sizeSub bufMax (recordEnd core.attrDescs d c l.bufUsed) < logMinBufferSpace ↔
      EndsParked core.attrDescs d c l.bufUsed := by
  obtain ⟨-, hle⟩ := recordEnd_balance hl hd c
  have hpad := padOf_le (recordSize core.attrDescs d c)
  have hmax : bufMax = 8192 := by decide
  unfold EndsParked sizeSub logMinBufferSpace
  omega

end

/-! ## Runs -/

namespace LogSys

/-- The cursor is inside its buffer and aligned, and no buffer delivered claims more bytes than a buffer has. -/
structure CursorSafe (s : LogSys) : Prop where
  inside : s.log.buffer.isSome → s.log.bufUsed ≤ bufMax
  aligned : s.log.buffer.isSome → 8 ∣ s.log.bufUsed
  sizes : ∀ b ∈ s.delivered, b.hdr.size.toNat ≤ bufMax

/-- A step writes inside its buffers only, and leaves the cursor safe. -/
def StaysInside (_ : LogSys) (_ : Op) (out : Except Fault LogSys) : Prop := ∃ s', out = .ok s' ∧ s'.CursorSafe

/-- What a step needs for that. A record that is written to its end either leaves a multiple of 8 bytes unused where it
rotates, or it ends so close to the end of a buffer that the buffer is parked. -/
def KeepsAlignment (hash : CStr → UInt32 → UInt64) (s : LogSys) : Op → Except Fault LogSys → Prop
  | .send env c, _ =>
    match s.log.prepare hash s.core env c with
    | .error _ => True
    | .ok p =>
      (∃ i, i < rotations p.core.attrDescs p.desc c p.log.bufUsed ∧ env.acquire i = none) ∨
        8 ∣ unusedBytes p.core.attrDescs p.desc c p.log.bufUsed ∨ EndsParked p.core.attrDescs p.desc c p.log.bufUsed
  | _, _ => True

/-- The invariant of a run on which the cursor has been safe so far. -/
structure CursorInv (s : LogSys) : Prop where
  inv : s.Inv
  inside : s.log.buffer.isSome → s.log.bufUsed ≤ bufMax
  aligned : s.log.buffer.isSome → 8 ∣ s.log.bufUsed
  sizes : ∀ b ∈ s.delivered ++ s.log.bufs, b.hdr.size.toNat ≤ bufMax

/-- The invariant makes the cursor safe. -/
theorem CursorInv.safe {s : LogSys} (h : s.CursorInv) : s.CursorSafe :=
  ⟨h.inside, h.aligned, fun b hb => h.sizes b (List.mem_append_left _ hb)⟩

theorem cursorInv_init (attached : Bool) (threadId : UInt32) : (LogSys.init attached threadId).CursorInv where
  inv := inv_init attached threadId
  inside := fun h => by cases h
  aligned := fun h => by cases h
  sizes := fun b hb => by cases hb

/-- A buffer that holds nothing claims no more than its header. -/
theorem size_le_of_frame_nil {b : DataBuf} {cont : Bool} (h : b.frame = ⟨[], cont⟩) : b.hdr.size.toNat ≤ bufMax := by
  have hlen := congrArg (fun f => f.data.length) h
  have hmax : sizeofDataBufHdr ≤ bufMax := by decide
  simp only [DataBuf.frame, Mem.length_read, List.length_nil] at hlen
  omega

variable {hash : CStr → UInt32 → UInt64} {s s' : LogSys} {env : SendEnv} {c : Call}

/-- An empty buffer behind those there are. -/
theorem CursorInv.sizes_fresh (h : s.CursorInv) {b : DataBuf} {cont : Bool} (hframe : b.frame = ⟨[], cont⟩) :
    ∀ x ∈ s.delivered ++ (s.log.bufs ++ [b]), x.hdr.size.toNat ≤ bufMax := by
  intro x hx
  rw [← List.append_assoc] at hx
  rcases List.mem_append.mp hx with hx | hx
  · exact h.sizes x hx
  · rw [List.mem_singleton.mp hx]
    exact size_le_of_frame_nil hframe

/-- The cursor of a writer about to write a record. -/
theorem CursorInv.begins (h : s.CursorInv) {p : Prepared} (hb : Begins hash s.core s.log c p) :
    8 ∣ p.log.bufUsed ∧ ∀ b ∈ s.delivered ++ (p.delivered ++ p.log.bufs), b.hdr.size.toNat ≤ bufMax := by
  rcases hb.bufs with ⟨hbufs, hbuf, hused, -⟩ | ⟨hbufs, hframe, hused⟩
  · rw [hbufs, hused]
    exact ⟨h.aligned (by rw [hbuf]; rfl), h.sizes⟩
  · rw [hbufs, hused]
    exact ⟨by decide, h.sizes_fresh hframe⟩

/-- A call that writes no record leaves the cursor safe. -/
theorem CursorInv.idle (h : s.CursorInv) {o : Sent} (hi : Idle s.core s.log o) : (s.after c o).CursorInv := by
  have hcursor : o.log.buffer.isSome → o.log.bufUsed ≤ bufMax ∧ 8 ∣ o.log.bufUsed := by
    intro hsome
    rcases hi.bufs with ⟨-, hnone | ⟨hbuf, hused⟩⟩ | ⟨b, -, -, hused, -⟩
    · rw [hnone] at hsome
      cases hsome
    · rw [hused]
      exact ⟨h.inside (hbuf ▸ hsome), h.aligned (hbuf ▸ hsome)⟩
    · rw [hused]
      decide
  refine ⟨⟨hi.sound, hi.inv⟩, fun hsome => (hcursor hsome).1, fun hsome => (hcursor hsome).2, ?_⟩
  intro b hmem
  dsimp only [LogSys.after] at hmem
  rw [List.append_assoc] at hmem
  rcases hi.bufs with ⟨hbufs, -⟩ | ⟨b', hframe, -, -, hbufs⟩
  · rw [hbufs] at hmem
    exact h.sizes b hmem
  · rw [hbufs] at hmem
    exact h.sizes_fresh hframe b hmem

/-- A record that is discarded leaves no current buffer, and no buffer that was not there. -/
theorem CursorInv.abandoned (h : s.CursorInv) {p : Prepared} {l' : Log} {released : List DataBuf}
    (hb : Begins hash s.core s.log c p) (hd : Discarded p.log env p.core p.desc c p.buffer l' released) :
    (s.after c ⟨l', p.core, p.delivered, released, .abandoned⟩).CursorInv := by
  have hnone : ¬ l'.buffer.isSome := by simp [hd.buffer]
  refine ⟨⟨hb.sound, hd.inv⟩, fun hsome => absurd hsome hnone, fun hsome => absurd hsome hnone, ?_⟩
  intro b hmem
  refine (h.begins hb).2 b ?_
  simp only [LogSys.after, hd.bufs_eq] at hmem
  simp only [Log.bufs]
  grind

/-- A record that is finished leaves the cursor behind its pad, unless its buffer was parked. -/
theorem CursorInv.accepted (h : s.CursorInv) {p : Prepared} {l' : Log} {g : LogItemDat} {gap : List UInt8}
    {tp : Tape UInt8} (hb : Begins hash s.core s.log c p) (hroom : p.log.Room p.core.attrDescs)
    (hf : Finished p.log env p.core p.desc c p.buffer l' g gap tp)
    (hend : 8 ∣ recordEnd p.core.attrDescs p.desc c p.log.bufUsed ∨ EndsParked p.core.attrDescs p.desc c p.log.bufUsed) :
    (s.after c ⟨l', p.core, p.delivered, [], .accepted⟩).CursorInv := by
  have hle : recordEnd p.core.attrDescs p.desc c p.log.bufUsed ≤ bufMax := by
    rcases hend with h8 | hpark
    · exact recordEnd_le hroom hb.argList h8
    · exact hpark.2
  have hcur : l'.buffer.isSome → l'.bufUsed = recordEnd p.core.attrDescs p.desc c p.log.bufUsed ∧
      8 ∣ recordEnd p.core.attrDescs p.desc c p.log.bufUsed := by
    intro hsome
    rcases hf.cursor with ⟨hnone, -⟩ | ⟨-, hused, hkeep⟩
    · rw [hnone] at hsome
      cases hsome
    · refine ⟨hused, hend.resolve_right (fun hpark => ?_)⟩
      have hlt := (endsParked_iff hroom hb.argList).mpr hpark
      omega
  refine ⟨⟨hb.sound, hf.inv⟩, fun hsome => ?_, fun hsome => ?_, fun b hmem => ?_⟩
  · exact (hcur hsome).1 ▸ hle
  · exact (hcur hsome).1 ▸ (hcur hsome).2
  · have hold := (h.begins hb).2 b
    dsimp only [LogSys.after] at hmem
    rw [List.append_assoc] at hmem
    rcases List.mem_append.mp hmem with hmem | hmem
    · exact hold (List.mem_append_left _ hmem)
    · rcases List.mem_append.mp hmem with hmem | hmem
      · exact hold (List.mem_append_right _ (List.mem_append_left _ hmem))
      · rcases hf.sizes b hmem with hfrag | hsize | hsize
        · exact hold (List.mem_append_right _ (List.mem_append_right _ (List.mem_append_left _ hfrag)))
        · exact hsize
        · omega

variable (hash) in
/-- A pull leaves no current buffer. -/
theorem CursorInv.pull (h : s.CursorInv) (hs : s.step hash .pull = .ok s') : s'.CursorInv := by
  have hinv := h.inv.step hs
  cases hs
  have hnone : ¬ s.log.pull.1.buffer.isSome := by
    rw [Log.pull]
    cases s.log.buffer <;> simp
  refine ⟨hinv, fun hsome => absurd hsome hnone, fun hsome => absurd hsome hnone, ?_⟩
  intro b hmem
  have hbufs := s.bufs_pull
  rw [LogSys.bufs] at hbufs
  rw [hbufs] at hmem
  exact h.sizes b hmem

variable (hash) in
/-- One call of `send` from a safe state: it writes inside its buffers and leaves the cursor safe exactly when it keeps the
alignment, and then the invariant holds on. -/
theorem CursorInv.send (h : s.CursorInv) :
    (StaysInside s (.send env c) (s.step hash (.send env c)) ↔
        KeepsAlignment hash s (.send env c) (s.step hash (.send env c))) ∧
      (KeepsAlignment hash s (.send env c) (s.step hash (.send env c)) →
        ∀ s', s.step hash (.send env c) = .ok s' → s'.CursorInv) := by
  have hcases := send_cases hash env c h.inv.log h.inv.sound
  unfold KeepsAlignment
  rw [LogSys.step]
  cases ho : s.log.send hash s.core env c with
  | error f =>
    rw [ho] at hcases
    obtain ⟨p, -, hb, hused, hlt⟩ := hcases
    have hle := h.inside (by rw [hb]; rfl)
    omega
  | ok o =>
    rw [ho] at hcases
    dsimp only
    cases hcases with
    | idle o hp hi =>
      have hinv := h.idle (c := c) hi
      rw [hp]
      exact ⟨⟨fun _ => trivial, fun _ => ⟨_, rfl, hinv.safe⟩⟩, fun _ s' hs => by cases hs; exact hinv⟩
    | abandoned p l' released hp hb hroom hd =>
      have hinv := h.abandoned hb hd
      rw [hp]
      exact ⟨⟨fun _ => Or.inl hd.refused, fun _ => ⟨_, rfl, hinv.safe⟩⟩, fun _ s' hs => by cases hs; exact hinv⟩
    | accepted p l' g gap tp hp hb hroom hf =>
      have h8 := recordEnd_dvd (c := c) hroom hb.argList (h.begins hb).1
      have hall : ¬ ∃ i, i < rotations p.core.attrDescs p.desc c p.log.bufUsed ∧ env.acquire i = none := by
        rintro ⟨i, hi, hnone⟩
        have hsome := hf.acquired i hi
        rw [hnone] at hsome
        cases hsome
      rw [hp]
      dsimp only
      rw [or_iff_right hall, ← h8]
      refine ⟨⟨?_, fun hend => ⟨_, rfl, (h.accepted hb hroom hf hend).safe⟩⟩, fun hend s' hs => ?_⟩
      · rintro ⟨s', hs, hsafe⟩
        cases hs
        rcases hf.cursor with ⟨-, hpark⟩ | ⟨hsome, hused, -⟩
        · exact Or.inr ((endsParked_iff hroom hb.argList).mp hpark)
        · have halign : 8 ∣ l'.bufUsed := hsafe.aligned hsome
          exact Or.inl (hused ▸ halign)
      · cases hs
        exact h.accepted hb hroom hf hend

/-- The same of every step. -/
theorem CursorInv.step (h : s.CursorInv) (op : Op) :
    (StaysInside s op (s.step hash op) ↔ KeepsAlignment hash s op (s.step hash op)) ∧
      (KeepsAlignment hash s op (s.step hash op) → ∀ s', s.step hash op = .ok s' → s'.CursorInv) := by
  have hquiet : KeepsAlignment hash s op (s.step hash op) → (∃ s', s.step hash op = .ok s' ∧ s'.CursorInv) →
      (StaysInside s op (s.step hash op) ↔ KeepsAlignment hash s op (s.step hash op)) ∧
        (KeepsAlignment hash s op (s.step hash op) → ∀ s', s.step hash op = .ok s' → s'.CursorInv) := by
    rintro hkeep ⟨s', hs, hinv⟩
    refine ⟨⟨fun _ => hkeep, fun _ => ⟨s', hs, hinv.safe⟩⟩, fun _ s'' hs' => ?_⟩
    rw [hs] at hs'
    cases hs'
    exact hinv
  cases op with
  | send env c => exact h.send hash
  | pull => exact hquiet trivial ⟨_, rfl, h.pull hash rfl⟩
  | attrRegister alloc name type =>
    have hs : s.step hash (.attrRegister alloc name type) = .ok _ := rfl
    exact hquiet trivial ⟨_, hs, h.inv.step hs, h.inside, h.aligned, h.sizes⟩
  | resolveLogDesc alloc k file line function format =>
    have hs : s.step hash (.resolveLogDesc alloc k file line function format) = .ok _ := rfl
    exact hquiet trivial ⟨_, hs, h.inv.step hs, h.inside, h.aligned, h.sizes⟩
  | setVerbosity verbosity =>
    have hs : s.step hash (.setVerbosity verbosity) = .ok _ := rfl
    exact hquiet trivial ⟨_, hs, h.inv.step hs, h.inside, h.aligned, h.sizes⟩

/-- On a run of calls, pulls and registrations every byte is written inside its buffer, the cursor stays inside the current
buffer and aligned, and no delivered buffer claims more bytes than it has, exactly when every record written to its end
leaves a multiple of 8 bytes unused where it rotates, or ends within the last bytes of a buffer, which is then parked. -/
theorem cursor_iff (hash : CStr → UInt32 → UInt64) (attached : Bool) (threadId : UInt32) (ops : List Op) :
    Runs.Along (step hash) StaysInside (LogSys.init attached threadId) ops ↔
      Runs.Along (step hash) (KeepsAlignment hash) (LogSys.init attached threadId) ops :=
  Runs.along_iff (I := CursorInv) (fun _ op h => (h.step op).1)
    (fun _ op s' h hs hR => (h.step op).2 ((h.step op).1.mp (hs ▸ hR)) s' hs) (cursorInv_init attached threadId) ops

/-! ## A cursor past the end of its buffer -/

/-- The format `%s%d%s`. -/
def textIntText : CStr := [0x25, 0x73, 0x25, 0x64, 0x25, 0x73]

/-- A call with this format. -/
def cutBeforeInt (s₁ s₂ : CStr) : Call :=
  plainCall textIntText (fun i => if i = 0 then strArg s₁ else if i = 1 then ⟨7, 0, 0, none, none, none⟩ else strArg s₂)

/-- The first string ends six bytes in front of the end of its buffer, where the integer does not fit any more; the second
one ends with the second buffer. -/
theorem layout_cutBeforeInt {s₁ s₂ : CStr} (h₁ : s₁.length = 8120) (h₂ : s₂.length = 8158) {d : LogDesc}
    (hd : d.args = parseFormatString logMaxArgs (some textIntText)) :
    recordLayout [] d (cutBeforeInt s₁ s₂) sizeofDataBufHdr = ⟨8168, 6, 1⟩ ∧
      recordSize [] d (cutBeforeInt s₁ s₂) = 16330 := by
  have hargs : d.args = [⟨ArgType.ustr8, 0⟩, ⟨ArgType.int32, 8⟩, ⟨ArgType.ustr8, 0⟩] := hd.trans (by decide)
  have hpieces : bodyPieces [] d (cutBeforeInt s₁ s₂) =
      stringPieces s₁ ++ ([.block (leBytes 8 7)] ++ stringPieces s₂) := by
    rw [bodyPieces, hargs]
    rfl
  have hint : ∀ l : Layout, l.emit itemSpace [Piece.block (leBytes 8 7)] = l.block itemSpace 8 := fun _ => rfl
  have hhead : Layout.block itemSpace ⟨sizeofDataBufHdr + sizeofLogItemDat - sizeofDataBufHdr, 0, 0⟩ 2 = ⟨42, 0, 0⟩ := by
    decide
  have htext₁ : Layout.text itemSpace ⟨42, 0, 0⟩ 8120 = ⟨8162, 0, 0⟩ := Layout.text_of_le _ _ (by decide)
  have hcut : ((⟨8162, 0, 0⟩ : Layout).block itemSpace 8).block itemSpace 2 = ⟨10, 6, 1⟩ := by decide
  have htext₂ : Layout.text itemSpace ⟨10, 6, 1⟩ 8158 = ⟨8168, 6, 1⟩ := Layout.text_of_le _ _ (by decide)
  refine ⟨?_, ?_⟩
  · rw [recordLayout, hpieces, Layout.emit_append, Layout.emit_append, layout_stringPieces _ (by omega),
      layout_stringPieces _ (by omega), h₁, h₂, hhead, htext₁, hint, hcut, htext₂]
  · rw [recordSize, hpieces, payload_append, payload_append, List.length_append, List.length_append,
      length_payload_stringPieces, length_payload_stringPieces, h₁, h₂]
    rfl

/-- A run on which the cursor ends behind the end of its buffer: one call, with strings of 8120 and 8158 bytes. -/
theorem cursor_false : ¬ Runs.Along (step oneLine) StaysInside (LogSys.init true 7)
    [.send plenty (cutBeforeInt (List.replicate 8120 97) (List.replicate 8158 97))] := by
  generalize hs₁ : List.replicate 8120 (97 : UInt8) = s₁
  generalize hs₂ : List.replicate 8158 (97 : UInt8) = s₂
  have h₁ : s₁.length = 8120 := by rw [← hs₁, List.length_replicate]
  have h₂ : s₂.length = 8158 := by rw [← hs₂, List.length_replicate]
  obtain ⟨p, hp, hused, hknown, hargs⟩ : ∃ p, (LogSys.init true 7).log.prepare oneLine (LogSys.init true 7).core plenty
      (cutBeforeInt s₁ s₂) = .ok p ∧ p.log.bufUsed = sizeofDataBufHdr ∧ p.core.attrDescs = [] ∧
        p.desc.args = parseFormatString logMaxArgs (some textIntText) := ⟨_, rfl, rfl, rfl, rfl⟩
  obtain ⟨hlay, hsize⟩ := layout_cutBeforeInt h₁ h₂ hargs
  rintro ⟨hstays, -⟩
  have hkeep := ((cursorInv_init true 7).send oneLine).1.mp hstays
  simp only [KeepsAlignment, hp, hused, hknown, rotations, unusedBytes, EndsParked, recordEnd, hlay, hsize] at hkeep
  rcases hkeep with ⟨i, -, hnone⟩ | h8 | hpark
  · cases hnone
  · revert h8
    decide
  · revert hpark
    decide

end LogSys

end P8
