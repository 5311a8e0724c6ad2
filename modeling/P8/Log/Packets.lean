import P8.Log.Headers
import P8.Log.Run
import P8.Sink.Packets

/-!
# Packets: the headers of a log writer's buffers

Every buffer a log writer holds or hands over is a packet of logs with the writer's thread id, and its size counts at least the
header. The type and the thread come with every buffer the writer starts or rotates into (`Steady`). The size is no matter of the
headers alone: a buffer is rotated out of only where it holds something (`Framing.left_emit`).
-/

namespace P8

open Bytes Framing

/-- A buffer with the header of a packet. -/
structure DataBuf.Stamped (packetType : UInt8) (threadId : UInt32) (b : DataBuf) : Prop where
  packetType_eq : b.hdr.packetType = packetType
  threadId_eq : b.hdr.threadId = threadId
  counted : b.Counted

/-- A buffer that is started is stamped. -/
theorem DataBuf.stamped_start (b : DataBuf) (packetType : UInt8) (threadId : UInt32) (startTime : UInt64) :
    (b.start packetType threadId startTime).Stamped packetType threadId :=
  ⟨rfl, rfl, Nat.le_refl _⟩

/-- The buffer at the end of a record keeps its stamp. -/
theorem DataBuf.Stamped.close {packetType : UInt8} {threadId : UInt32} {b : DataBuf} (htype : b.hdr.packetType = packetType)
    (hthread : b.hdr.threadId = threadId) {used : Nat} (hlo : sizeofDataBufHdr ≤ used) (hhi : used < 2 ^ 16)
    (stopTime : UInt64) : (b.close used stopTime).Stamped packetType threadId := by
  refine ⟨htype, hthread, ?_⟩
  rw [DataBuf.Counted, DataBuf.close, toNat_size hhi]
  exact hlo

/-! ## Sizes -/

/-- The buffers a record has left are counted. -/
def Rec.Counted (r : Rec) : Prop := ∀ x ∈ r.fragments, x.Counted

/-- A buffer that holds something is counted. -/
theorem DataBuf.counted_of_data {b : DataBuf} (h : b.frame.data ≠ []) : b.Counted := by
  by_contra hlt
  have hzero : b.hdr.size.toNat - sizeofDataBufHdr = 0 := by
    unfold DataBuf.Counted at hlt
    omega
  exact h (by rw [DataBuf.frame, hzero]; rfl)

/-- Writing pieces leaves counted buffers. -/
theorem Wrote.counted_left {known : List AttrDesc} {acquire : Nat → Option DataBuf} {t : Tally} {ps : List (Piece UInt8)}
    {n : UInt8} {r r' : Rec} (h : Wrote known acquire t ps n r r') (hps : AllFit ps) (hr : r.Counted) : r'.Counted := by
  obtain ⟨rest, hrest, hne⟩ := left_emit (by decide) r.tape ps hps
  obtain ⟨more, hmore⟩ := h.kept.frags
  have hdone : r'.fragments.map DataBuf.frame = r.fragments.map DataBuf.frame ++ rest := by
    have htape := congrArg Tape.done h.tape_eq
    rw [hrest] at htape
    exact htape
  rw [← hmore, List.map_append] at hdone
  have hmap := List.append_cancel_left hdone
  intro x hx
  rw [← hmore] at hx
  rcases List.mem_append.mp hx with hx | hx
  · exact hr x hx
  · refine DataBuf.counted_of_data (hne x.frame ?_)
    rw [← hmap]
    exact List.mem_map_of_mem hx

/-- Patching the record's header changes no size. -/
theorem Rec.Counted.modifyHdr {r : Rec} (h : r.Counted) (f : LogItemDat → LogItemDat) : (r.modifyHdr f).Counted := by
  obtain ⟨frs, buf, he, -, -, hhdrs, -⟩ := modifyHdr_eq r f
  rw [he]
  intro x hx
  have hx' : x.hdr ∈ r.fragments.map (·.hdr) := hhdrs ▸ List.mem_map_of_mem hx
  obtain ⟨y, hy, hxy⟩ := List.mem_map.mp hx'
  have hcounted := h y hy
  unfold DataBuf.Counted at hcounted ⊢
  rwa [hxy] at hcounted

section

variable {l : Log} {env : SendEnv} {core : Core} {d : LogDesc} {c : Call} {b : DataBuf}

/-- The buffers a written record has left are counted. -/
theorem writeRecord_counted (hd : ArgList logMaxArgs d.args) (hl : l.Room core.attrDescs) (hb : b.frame.cont = false)
    (hcounted : ∀ x ∈ l.fragments, x.Counted) {r : Rec} (hr : l.writeRecord env core d c b = .ok r) : r.Counted := by
  obtain ⟨g, hp⟩ := Progress.begin env d c hl hb
  have hbegun : ((l.beginRecord env b).modifyHdr (l.beginHdr env d c)).Counted :=
    Rec.Counted.modifyHdr (r := l.beginRecord env b) hcounted _
  rw [Log.writeRecord, if_pos hl.hi, Rec.putBody] at hr
  generalize (l.beginRecord env b).modifyHdr (l.beginHdr env d c) = r₁ at hp hbegun hr
  have hargs := putArgs_writes env.acquire hd.slot c.args 0 hp.ready
  cases hput : r₁.putArgs env.acquire c.args 0 d.args with
  | error e =>
    rw [hput] at hr
    cases hr
  | ok r₂ =>
    rw [hput] at hargs hr
    have hw : Wrote core.attrDescs env.acquire .args (argsPieces c.args 0 d.args) 0 r₁ r₂ := hargs
    have hsized := (hw.counted_left (allFit_argsPieces hd.slot c.args 0) hbegun).modifyHdr
      (fun h => { h with argsSize := UInt16.ofNat r₂.argsWritten })
    have hready := hw.ready.modifyHdr (fun h => { h with argsSize := UInt16.ofNat r₂.argsWritten })
    have hattrs := putAttrs_writes env.acquire (c.attrs.getD []) hready
    simp only [bind, Except.bind] at hr
    rw [hr] at hattrs
    exact Wrote.counted_left hattrs (allFit_attrsPieces _ _) hsized

end

/-! ## Types and threads -/

/-- The buffers of a record are of one type and one thread. -/
structure Rec.Typed (packetType : UInt8) (threadId : UInt32) (r : Rec) : Prop where
  fragments : ∀ h ∈ r.fragments.map (·.hdr), h.packetType = packetType ∧ h.threadId = threadId
  buffer : r.buffer.hdr.packetType = packetType ∧ r.buffer.hdr.threadId = threadId
  thread : r.threadId = threadId

/-- The type and the thread of a buffer are steady. -/
theorem steady_typed (packetType : UInt8) (threadId : UInt32) : Steady (Rec.Typed packetType threadId) where
  touch := by
    intro r r' hs h
    refine ⟨?_, ?_, hs.threadId.trans h.thread⟩
    · rw [hs.fragments]
      exact h.fragments
    · rw [hs.buffer]
      exact h.buffer
  turn := by
    intro acquire r r' hr h
    rw [Rec.rotateFragmentBuffer] at hr
    cases hb : acquire (r.fragments.length - r.fragCommit) with
    | none =>
      rw [hb] at hr
      cases hr
    | some b =>
      rw [hb] at hr
      cases hr
      refine ⟨fun x hx => ?_, ⟨h.buffer.1, h.thread⟩, h.thread⟩
      rw [List.map_append] at hx
      rcases List.mem_append.mp hx with hx | hx
      · exact h.fragments x hx
      · rw [List.mem_singleton.mp hx]
        exact h.buffer

/-! ## A call -/

section

variable {hash : CStr → UInt32 → UInt64} {core : Core} {l : Log} {env : SendEnv} {c : Call}

/-- A writer's buffers are stamped with its thread. -/
def Log.Stamped (l : Log) : Prop := ∀ b ∈ l.bufs, b.Stamped packetLogs l.threadId

/-- What a call leaves: the thread is the same, and all buffers are stamped, those a pull took among them. -/
def Log.Stamps (l l' : Log) (delivered : List DataBuf) : Prop :=
  l'.threadId = l.threadId ∧ ∀ b ∈ delivered ++ l'.bufs, b.Stamped packetLogs l.threadId

/-- A buffer that is taken is stamped. -/
theorem takeBuffer_stamps {l l' : Log} {env : SendEnv} {delivered : List DataBuf} {ob : Option DataBuf} (h : l.Stamped)
    (ht : l.takeBuffer env = (l', delivered, ob)) : l.Stamps l' delivered := by
  unfold Log.takeBuffer at ht
  cases hb : l.buffer with
  | some b =>
    rw [hb] at ht
    cases ht
    exact ⟨rfl, h⟩
  | none =>
    have hpull : ∀ l₁ delivered₁, l.pullWhile env.pulled = (l₁, delivered₁) →
        l₁.buffer = none ∧ l.Stamps l₁ delivered₁ := by
      intro l₁ delivered₁ hp
      unfold Log.pullWhile Log.pull at hp
      rw [hb] at hp
      split at hp
      · cases hp
        refine ⟨rfl, rfl, ?_⟩
        simpa [Log.Stamped, Log.bufs, hb] using h
      · cases hp
        exact ⟨hb, rfl, h⟩
    rw [hb] at ht
    dsimp only at ht
    generalize l.pullWhile env.pulled = p at ht hpull
    obtain ⟨l₁, delivered₁⟩ := p
    obtain ⟨hnone, hthread, hall⟩ := hpull l₁ delivered₁ rfl
    cases hw : env.waited with
    | none =>
      rw [hw] at ht
      cases ht
      exact ⟨hthread, hall⟩
    | some b =>
      rw [hw] at ht
      cases ht
      refine ⟨hthread, fun x hx => ?_⟩
      have hfresh := b.stamped_start packetLogs l₁.threadId env.bufTicks
      rw [hthread] at hfresh
      simp only [Log.bufs, Option.toList_some, List.mem_append, List.mem_singleton] at hx
      simp only [Log.bufs, hnone, Option.toList_none, List.append_nil, List.mem_append] at hall
      rcases hx with hx | hx | rfl
      · exact hall x (Or.inl hx)
      · exact hall x (Or.inr hx)
      · rw [hthread]
        exact hfresh

variable (hash env c) in
/-- Up to the record a call of `send` leaves stamped buffers. -/
theorem prepare_stamps (hc : core.Sound) (h : l.Inv core) (hst : l.Stamped) :
    match l.prepare hash core env c with
    | .error o => l.Stamps o.log o.delivered
    | .ok p => l.Stamps p.log p.delivered := by
  rw [Log.prepare]
  by_cases hlevel : c.level < l.minLevel core c
  · rw [if_pos hlevel]
    exact ⟨rfl, hst⟩
  rw [if_neg hlevel]
  by_cases hatt : (!l.attached) = true
  · rw [if_pos hatt]
    exact ⟨rfl, hst⟩
  rw [if_neg hatt]
  obtain ⟨hpinv, hpbufs, hpthread, -⟩ := parkFull_spec h
  obtain ⟨l₁, delivered, ob, ht⟩ : ∃ l₁ delivered ob, l.parkFull.takeBuffer env = (l₁, delivered, ob) := ⟨_, _, _, rfl⟩
  have hparked : l.parkFull.Stamped := by
    unfold Log.Stamped
    rw [hpbufs, hpthread]
    exact hst
  have htaken : l.Stamps l₁ delivered := by
    obtain ⟨hthread, hall⟩ := takeBuffer_stamps hparked ht
    rw [hpthread] at hthread hall
    exact ⟨hthread, hall⟩
  have hinv₁ := (takeBuffer_spec hpinv ht).1
  rw [ht]
  cases ob with
  | none => exact htaken
  | some b =>
    dsimp only
    obtain ⟨l₂, core₂, od, hl⟩ : ∃ l₂ core₂ od,
        l₁.lookupDesc env core (hash c.file c.line) c = (l₂, core₂, od) := ⟨_, _, _, rfl⟩
    have hbufs₂ := (lookupDesc_spec hinv₁ hc hl).2.2.2.2.1
    have hthread₂ : l₂.threadId = l₁.threadId := by
      unfold Log.lookupDesc at hl
      repeat' split at hl
      all_goals
        cases hl
        rfl
    have hall : l.Stamps l₂ delivered := ⟨hthread₂.trans htaken.1, by rw [hbufs₂]; exact htaken.2⟩
    rw [hl]
    cases od with
    | none => exact hall
    | some d => exact hall

/-- The buffers of a written record are stamped. -/
theorem finish_stamped {p : Prepared} (hb : Begins hash core l c p) (hroom : p.log.Room p.core.attrDescs)
    (hst : p.log.Stamped) {r : Rec} (hr : p.log.writeRecord env p.core p.desc c p.buffer = .ok r) :
    (p.log.finish r).threadId = p.log.threadId ∧
      ∀ b ∈ (p.log.finish r).bufs, b.Stamped packetLogs p.log.threadId := by
  have hbufs := hb.bufs_eq
  have hstamped : ∀ x ∈ p.log.fragments ++ [p.buffer], x.Stamped packetLogs p.log.threadId := by
    rw [← hbufs]
    exact hst
  have hspec := writeRecord_spec env c hb.argList hroom hb.unflagged
  rw [hr] at hspec
  obtain ⟨h, hrec⟩ := hspec
  have hcounted := (writeRecord_counted hb.argList hroom hb.unflagged
    (fun x hx => (hstamped x (List.mem_append_left _ hx)).counted) hr).modifyHdr
      (fun h => { h with attrsCount := r.attrsCount, size := UInt16.ofNat (r.itemSize + padOf r.itemSize) })
  have htyped : Rec.Typed packetLogs p.log.threadId r.complete := by
    rw [Log.writeRecord, if_pos hroom.hi] at hr
    have hsteady := steady_typed packetLogs p.log.threadId
    have hstart : Rec.Typed packetLogs p.log.threadId (p.log.beginRecord env p.buffer) := by
      refine ⟨fun x hx => ?_, ?_, rfl⟩
      · obtain ⟨y, hy, rfl⟩ := List.mem_map.mp hx
        have hy' := hstamped y (List.mem_append_left _ hy)
        exact ⟨hy'.packetType_eq, hy'.threadId_eq⟩
      · have hy' := hstamped p.buffer (by simp)
        exact ⟨hy'.packetType_eq, hy'.threadId_eq⟩
    exact modifyHdr_keeps hsteady (putBody_keeps hsteady (modifyHdr_keeps hsteady hstart _) _ _ _ _ hr) _
  have hend : (r.complete.buffer.close (r.dst + padOf r.itemSize) r.timestamp).Stamped packetLogs p.log.threadId := by
    have hlo := hrec.ready.lo
    have hhi := hrec.ready.hi
    have hpad := padOf_le r.itemSize
    have hmax : bufMax = 8192 := rfl
    exact DataBuf.Stamped.close htyped.buffer.1 htyped.buffer.2 (by omega) (by omega) _
  have hleft : ∀ x ∈ r.complete.fragments, x.Stamped packetLogs p.log.threadId := by
    intro x hx
    have hx' := htyped.fragments x.hdr (List.mem_map_of_mem hx)
    exact ⟨hx'.1, hx'.2, hcounted x hx⟩
  have hall : (p.log.finish r).bufs =
      r.complete.fragments ++ [r.complete.buffer.close (r.dst + padOf r.itemSize) r.timestamp] := by
    rw [Log.finish]
    split <;> simp [Log.bufs]
  refine ⟨by rw [Log.finish]; split <;> rfl, ?_⟩
  rw [hall]
  exact List.forall_mem_append.mpr ⟨hleft, List.forall_mem_singleton.mpr hend⟩

/-- A call of `send` leaves stamped buffers. -/
theorem send_stamps (h : l.Inv core) (hc : core.Sound) (hst : l.Stamped) {o : Sent}
    (ho : l.send hash core env c = .ok o) : l.Stamps o.log o.delivered := by
  have hprep := prepare_spec hash env c h hc
  have hstamps := prepare_stamps hash env c hc h hst
  rw [Log.send] at ho
  cases hp : l.prepare hash core env c with
  | error o' =>
    rw [hp] at ho hstamps
    cases ho
    exact hstamps
  | ok p =>
    rw [hp] at ho hprep hstamps
    have hb : Begins hash core l c p := hprep
    obtain ⟨hthread, hall⟩ : l.Stamps p.log p.delivered := hstamps
    have hpst : p.log.Stamped := by
      intro x hx
      rw [hthread]
      exact hall x (List.mem_append_right _ hx)
    have hkeep : ∀ l' : Log, l'.threadId = p.log.threadId → (∀ b ∈ l'.bufs, b.Stamped packetLogs p.log.threadId) →
        l.Stamps l' p.delivered := by
      intro l' hthread' hbufs
      rw [hthread] at hthread' hbufs
      exact ⟨hthread', List.forall_mem_append.mpr ⟨fun x hx => hall x (List.mem_append_left _ hx), hbufs⟩⟩
    cases hw : p.log.writeRecord env p.core p.desc c p.buffer with
    | ok r =>
      simp only [hw] at ho
      cases ho
      have hroom : p.log.Room p.core.attrDescs := by
        refine hb.room h ?_
        by_contra hlt
        rw [Log.writeRecord, if_neg (by omega)] at hw
        cases hw
      obtain ⟨hthread', hbufs⟩ := finish_stamped hb hroom hpst hw
      exact hkeep _ hthread' hbufs
    | error e =>
      simp only [hw] at ho
      cases e with
      | fault => cases ho
      | discard r =>
        cases ho
        have hroom : p.log.Room p.core.attrDescs := by
          refine hb.room h ?_
          by_contra hlt
          rw [Log.writeRecord, if_neg (by omega)] at hw
          cases hw
        have hspec := writeRecord_spec env c hb.argList hroom hb.unflagged
        rw [hw] at hspec
        obtain ⟨h', hgiven⟩ := hspec
        have hd := discard_spec hroom hb.inv hgiven
        refine hkeep _ rfl (fun x hx => ?_)
        have hkept : (p.log.discard r).1.bufs = p.log.fragments := by
          rw [Log.bufs, hd.buffer, hd.fragments]
          simp
        rw [hkept] at hx
        refine hpst x ?_
        rw [hb.bufs_eq]
        exact List.mem_append_left _ hx

end

end P8
