import P8.Log.Record

/-!
# Step: what a call of `send` does to a writer

`prepare_spec` says what a writer that is about to write a record has become, and what a call leaves that returns before.
`finish_spec` and `discard_spec` say what becomes of the record. `Log.Inv` is the invariant of a writer between two calls; it
says nothing about where in its buffer the cursor stands.
-/

namespace P8

open Bytes Framing

/-- The buffers a writer holds, in logical order. -/
def Log.bufs (l : Log) : List DataBuf := l.fragments ++ l.buffer.toList

/-- The invariant of a writer: its caches agree with the registries of its core, and the header of its current buffer says
where the cursor is. -/
structure Log.Inv (core : Core) (l : Log) : Prop where
  cache : l.attrCache <+: core.attrDescs
  descs : ∀ h d, l.descMap h = some d → core.logDescs h = some d
  cur : ∀ b, l.buffer = some b → sizeofDataBufHdr ≤ l.bufUsed ∧ l.bufUsed < 2 ^ 16 ∧ b.frame = ⟨l.curBytes b, false⟩

/-- Registries that have grown serve a writer as well. -/
theorem Log.Inv.grows {core core' : Core} {l : Log} (h : l.Inv core) (hg : core.Grows core') : l.Inv core' :=
  ⟨h.cache.trans hg.attrs, fun k d hd => hg.descs k d (h.descs k d hd), h.cur⟩

theorem Log.inv_init (core : Core) (attached : Bool) (threadId : UInt32) : (Log.init attached threadId).Inv core :=
  ⟨List.nil_prefix, fun _ _ h => (nomatch h), fun _ h => (nomatch h)⟩

/-- A pull leaves a writer without buffers, and its caches as they are. -/
theorem Log.Inv.pull {core : Core} {l : Log} (h : l.Inv core) : l.pull.1.Inv core := by
  rw [Log.pull]
  cases l.buffer with
  | none => exact ⟨h.cache, h.descs, fun b hb => by cases hb⟩
  | some b₀ => exact ⟨h.cache, h.descs, fun b hb => by cases hb⟩

/-! ## Up to the record -/

/-- A cursor in front of which `send` does not park the buffer: a header fits behind it, or it is past the end. -/
def Unparked (used : Nat) : Prop := logMinBufferSpace + sizeofLogItemDat ≤ sizeSub bufMax used

/-- The buffer stays current where a header fits behind the cursor with some space to spare, or where the cursor is past its
end. -/
theorem unparked_iff {used : Nat} (h : used < 2 ^ 16) :
    Unparked used ↔ used + (logMinBufferSpace + sizeofLogItemDat) ≤ bufMax ∨ bufMax < used := by
  unfold Unparked sizeSub bufMax dataBufferSize logMinBufferSpace sizeofLogItemDat
  omega

/-- Parking a full buffer moves no buffer out of the writer's order. -/
theorem parkFull_spec {core : Core} {l : Log} (h : l.Inv core) :
    l.parkFull.Inv core ∧ l.parkFull.bufs = l.bufs ∧ l.parkFull.threadId = l.threadId ∧
      (∀ b, l.parkFull.buffer = some b → l.parkFull = l ∧ Unparked l.bufUsed) := by
  unfold Log.parkFull
  cases hb : l.buffer with
  | none => exact ⟨h, rfl, rfl, fun b h' => by rw [hb] at h'; cases h'⟩
  | some b =>
    dsimp only
    split
    · exact ⟨⟨h.cache, h.descs, fun b h' => by cases h'⟩, by simp [Log.bufs, hb], rfl, fun b h' => by cases h'⟩
    · rename_i hroom
      exact ⟨h, rfl, rfl, fun _ _ => ⟨rfl, by unfold Unparked; omega⟩⟩

/-- A pull of a writer without a current buffer takes its parked ones. -/
theorem pullWhile_spec {l : Log} (hb : l.buffer = none) (pulled : Bool) :
    ∃ l' delivered, l.pullWhile pulled = (l', delivered) ∧ l'.buffer = none ∧ l'.attrCache = l.attrCache ∧
      l'.descMap = l.descMap ∧ delivered ++ l'.fragments = l.bufs := by
  have hl : l.bufs = l.fragments := by simp [Log.bufs, hb]
  cases pulled with
  | false => exact ⟨l, [], rfl, hb, rfl, rfl, hl.symm⟩
  | true =>
    refine ⟨{ l with fragments := [] }, l.fragments, ?_, hb, rfl, rfl, by rw [hl, List.append_nil]⟩
    rw [Log.pullWhile, if_pos rfl, Log.pull, hb]

/-- What `takeBuffer` does: it keeps the buffer the writer has, gives up, or starts the one it waited for; the buffers a pull
took while the call waited come before those that are left. -/
theorem takeBuffer_cases {l l' : Log} {env : SendEnv} {delivered : List DataBuf} {ob : Option DataBuf}
    (ht : l.takeBuffer env = (l', delivered, ob)) :
    (∃ b, l.buffer = some b ∧ l' = l ∧ delivered = [] ∧ ob = some b) ∨
      l'.attrCache = l.attrCache ∧ l'.descMap = l.descMap ∧
        (l'.buffer = none ∧ ob = none ∧ delivered ++ l'.bufs = l.bufs ∨
          ∃ b, l'.buffer = some b ∧ ob = some b ∧ l'.bufUsed = sizeofDataBufHdr ∧ b.frame = ⟨[], false⟩ ∧
            b.hdr.startTime = env.bufTicks ∧ delivered ++ l'.bufs = l.bufs ++ [b]) := by
  unfold Log.takeBuffer at ht
  cases hb : l.buffer with
  | some b =>
    rw [hb] at ht
    cases ht
    exact Or.inl ⟨b, rfl, rfl, rfl, rfl⟩
  | none =>
    obtain ⟨l₁, delivered₁, hp, hb₁, hcache, hmap, hbufs⟩ := pullWhile_spec hb env.pulled
    rw [hb, hp] at ht
    cases hw : env.waited with
    | none =>
      rw [hw] at ht
      cases ht
      refine Or.inr ⟨hcache, hmap, Or.inl ⟨hb₁, rfl, ?_⟩⟩
      rw [← hbufs]
      simp [Log.bufs, hb₁]
    | some b =>
      rw [hw] at ht
      cases ht
      have hframe := DataBuf.frame_start b packetLogs l₁.threadId env.bufTicks
      refine Or.inr ⟨hcache, hmap, Or.inr ⟨_, rfl, rfl, rfl, hframe, rfl, ?_⟩⟩
      rw [← hbufs]
      simp [Log.bufs]

/-- What `takeBuffer` leaves: the buffer the writer had, or a fresh one behind those that are left. -/
theorem takeBuffer_spec {core : Core} {l l' : Log} {env : SendEnv} {delivered : List DataBuf} {ob : Option DataBuf}
    (h : l.Inv core) (ht : l.takeBuffer env = (l', delivered, ob)) :
    l'.Inv core ∧
      match ob with
      | none => l'.buffer = none ∧ delivered ++ l'.bufs = l.bufs
      | some b => l'.buffer = some b ∧
        (l' = l ∧ delivered = [] ∨
          l'.bufUsed = sizeofDataBufHdr ∧ b.frame = ⟨[], false⟩ ∧ delivered ++ l'.bufs = l.bufs ++ [b]) := by
  obtain ⟨b, hb, rfl, rfl, rfl⟩ | ⟨hcache, hmap, ⟨hnone, rfl, hbufs⟩ | ⟨b, hb, rfl, hused, hframe, -, hbufs⟩⟩ :=
    takeBuffer_cases ht
  · exact ⟨h, hb, Or.inl ⟨rfl, rfl⟩⟩
  · refine ⟨⟨hcache ▸ h.cache, hmap ▸ h.descs, fun b h' => ?_⟩, hnone, hbufs⟩
    rw [hnone] at h'
    cases h'
  · refine ⟨⟨hcache ▸ h.cache, hmap ▸ h.descs, fun b' h' => ?_⟩, hb, Or.inr ⟨hused, hframe, hbufs⟩⟩
    rw [hb] at h'
    cases h'
    have hcur : l'.curBytes b = [] := by
      rw [Log.curBytes, hused, Nat.sub_self]
      rfl
    rw [hused, hcur]
    exact ⟨Nat.le_refl _, (by decide : sizeofDataBufHdr < 2 ^ 16), hframe⟩

/-- The descriptor found for a source line is the registered one, and the writer remembers it. -/
theorem lookupDesc_spec {core core' : Core} {l l' : Log} {env : SendEnv} {lineHash : UInt64} {c : Call}
    {od : Option LogDesc} (h : l.Inv core) (hc : core.Sound)
    (hl : l.lookupDesc env core lineHash c = (l', core', od)) :
    l'.Inv core' ∧ core'.Sound ∧ core.Grows core' ∧ l'.buffer = l.buffer ∧ l'.bufs = l.bufs ∧ l'.bufUsed = l.bufUsed ∧
      ∀ d, od = some d → core'.logDescs lineHash = some d := by
  unfold Log.lookupDesc at hl
  cases hm : l.descMap lineHash with
  | some d =>
    rw [hm] at hl
    cases hl
    exact ⟨h, hc, Core.Grows.refl _, rfl, rfl, rfl, fun d' hd => by cases hd; exact h.descs _ _ hm⟩
  | none =>
    rw [hm] at hl
    dsimp only at hl
    have hgrows := Core.grows_resolveLogDesc core env.descAlloc lineHash c.file c.line c.function c.format
    have hsound := Core.sound_resolveLogDesc hc env.descAlloc lineHash c.file c.line c.function c.format
    cases hr : core.resolveLogDesc env.descAlloc lineHash c.file c.line c.function c.format with
    | mk core₁ od₁ =>
      rw [hr] at hl hgrows hsound
      cases od₁ with
      | none =>
        cases hl
        exact ⟨h.grows hgrows, hsound, hgrows, rfl, rfl, rfl, fun d hd => by cases hd⟩
      | some d =>
        have hreg := Core.resolveLogDesc_registered hr
        cases hl
        refine ⟨⟨h.cache.trans hgrows.attrs, ?_, h.cur⟩, hsound, hgrows, rfl, rfl, rfl, fun d' hd => by cases hd; exact hreg⟩
        intro k d' hd
        dsimp only at hd
        split at hd
        · rename_i he
          cases hd
          rw [he]
          exact hreg
        · exact hgrows.descs k d' (h.descs k d' hd)

section

variable {hash : CStr → UInt32 → UInt64} {core : Core} {l : Log} {env : SendEnv} {c : Call}

/-- A call that returned without writing: it gave nothing back to the pool, and the buffers delivered and held are those from
before, perhaps with a fresh one behind them. -/
structure Idle (core : Core) (l : Log) (s : Sent) : Prop where
  inv : s.log.Inv s.core
  sound : s.core.Sound
  grows : core.Grows s.core
  outcome : s.outcome = .refused ∨ s.outcome = .dropped
  released : s.released = []
  bufs : s.delivered ++ s.log.bufs = l.bufs ∧ (s.log.buffer = none ∨ s.log.buffer = l.buffer ∧ s.log.bufUsed = l.bufUsed) ∨
    ∃ b, b.frame = ⟨[], false⟩ ∧ s.log.buffer = some b ∧ s.log.bufUsed = sizeofDataBufHdr ∧
      s.delivered ++ s.log.bufs = l.bufs ++ [b]

/-- A writer about to write a record: the record goes behind the bytes of the buffer it had, or into a fresh one. -/
structure Begins (hash : CStr → UInt32 → UInt64) (core : Core) (l : Log) (c : Call) (p : Prepared) : Prop where
  inv : p.log.Inv p.core
  sound : p.core.Sound
  grows : core.Grows p.core
  desc : p.core.logDescs (hash c.file c.line) = some p.desc
  buffer : p.log.buffer = some p.buffer
  bufs : p.delivered ++ p.log.bufs = l.bufs ∧ l.buffer = some p.buffer ∧ p.log.bufUsed = l.bufUsed ∧ Unparked l.bufUsed ∨
    p.delivered ++ p.log.bufs = l.bufs ++ [p.buffer] ∧ p.buffer.frame = ⟨[], false⟩ ∧ p.log.bufUsed = sizeofDataBufHdr

/-- Its buffers are those parked and the one the record goes to. -/
theorem Begins.bufs_eq {hash : CStr → UInt32 → UInt64} {l : Log} {p : Prepared} (hb : Begins hash core l c p) :
    p.log.bufs = p.log.fragments ++ [p.buffer] := by
  rw [Log.bufs, hb.buffer]
  rfl

variable (hash env c) in
/-- A call up to its record returns without writing, or has all it needs to begin. -/
theorem prepare_spec (h : l.Inv core) (hc : core.Sound) :
    match l.prepare hash core env c with
    | .error s => Idle core l s
    | .ok p => Begins hash core l c p := by
  have hidle : Idle core l ⟨l, core, [], [], .refused⟩ :=
    ⟨h, hc, Core.Grows.refl _, Or.inl rfl, rfl, Or.inl ⟨rfl, Or.inr ⟨rfl, rfl⟩⟩⟩
  rw [Log.prepare]
  by_cases hlevel : c.level < l.minLevel core c
  · rw [if_pos hlevel]
    exact hidle
  · rw [if_neg hlevel]
    by_cases hatt : (!l.attached) = true
    · rw [if_pos hatt]
      exact hidle
    · rw [if_neg hatt]
      obtain ⟨hpinv, hpbufs, -, hpkeep⟩ := parkFull_spec h
      obtain ⟨l₁, delivered, ob, ht⟩ : ∃ l₁ delivered ob, l.parkFull.takeBuffer env = (l₁, delivered, ob) := ⟨_, _, _, rfl⟩
      obtain ⟨hinv₁, hob⟩ := takeBuffer_spec hpinv ht
      rw [ht]
      cases ob with
      | none => exact ⟨hinv₁, hc, Core.Grows.refl _, Or.inr rfl, rfl, Or.inl ⟨hob.2.trans hpbufs, Or.inl hob.1⟩⟩
      | some b =>
        obtain ⟨hb, hcase⟩ := hob
        dsimp only
        obtain ⟨l₂, core₂, od, hl⟩ : ∃ l₂ core₂ od,
            l₁.lookupDesc env core (hash c.file c.line) c = (l₂, core₂, od) := ⟨_, _, _, rfl⟩
        obtain ⟨hinv₂, hsound₂, hgrows₂, hbuf₂, hbufs₂, hused₂, hdesc⟩ := lookupDesc_spec hinv₁ hc hl
        rw [hl]
        cases od with
        | none =>
          refine ⟨hinv₂, hsound₂, hgrows₂, Or.inl rfl, rfl, ?_⟩
          rcases hcase with ⟨rfl, rfl⟩ | ⟨hused, hframe, hbufs⟩
          · obtain ⟨hpl, -⟩ := hpkeep b hb
            rw [hpl] at hbuf₂ hbufs₂ hused₂
            exact Or.inl ⟨hbufs₂, Or.inr ⟨hbuf₂, hused₂⟩⟩
          · exact Or.inr ⟨b, hframe, hbuf₂.trans hb, hused₂.trans hused, by rw [← hpbufs, ← hbufs, hbufs₂]⟩
        | some d =>
          refine ⟨hinv₂, hsound₂, hgrows₂, hdesc d rfl, hbuf₂.trans hb, ?_⟩
          rcases hcase with ⟨rfl, rfl⟩ | ⟨hused, hframe, hbufs⟩
          · obtain ⟨hpl, hunp⟩ := hpkeep b hb
            rw [hpl] at hbufs₂ hused₂ hb
            exact Or.inl ⟨hbufs₂, hb, hused₂, hunp⟩
          · exact Or.inr ⟨by rw [← hpbufs, ← hbufs, hbufs₂], hframe, hused₂.trans hused⟩

/-- The cursor of a writer about to write: with room for the header, or already past the end of the buffer. -/
theorem Begins.room {p : Prepared} (h : l.Inv core) (hb : Begins hash core l c p) (hle : p.log.bufUsed ≤ bufMax) :
    p.log.Room p.core.attrDescs := by
  obtain ⟨hlo, -⟩ := hb.inv.cur _ hb.buffer
  refine ⟨hlo, ?_, hb.inv.cache⟩
  rcases hb.bufs with ⟨-, hbuf, hused, hunp⟩ | ⟨-, -, hused⟩
  · have hlt := (h.cur _ hbuf).2.1
    rw [unparked_iff hlt] at hunp
    have hsub : sizeofLogItemDat ≤ logMinBufferSpace + sizeofLogItemDat := Nat.le_add_left _ _
    omega
  · rw [hused]
    decide

end

/-! ## What becomes of the record -/

/-- The size of a record without its padding. -/
def recordSize (known : List AttrDesc) (d : LogDesc) (c : Call) : Nat :=
  sizeofLogItemDat + (payload (bodyPieces known d c)).length

/-- The cursor behind a record that begins at the cursor `used`: where its last byte lies, and its padding. -/
def recordEnd (known : List AttrDesc) (d : LogDesc) (c : Call) (used : Nat) : Nat :=
  (recordLayout known d c used).pos + sizeofDataBufHdr + padOf (recordSize known d c)

/-- A pad is at most seven bytes. -/
theorem padOf_le (n : Nat) : padOf n ≤ 7 := by
  unfold padOf
  omega

/-- A pad rounds up to a multiple of 8. -/
theorem padOf_dvd (n : Nat) : 8 ∣ n + padOf n := by
  unfold padOf
  omega

/-- The bytes a record leaves unused in the buffers it rotates out of. -/
def unusedBytes (known : List AttrDesc) (d : LogDesc) (c : Call) (used : Nat) : Nat :=
  (recordLayout known d c used).skipped

/-- The number of rotations a record makes that begins at the cursor `used`. -/
def rotations (known : List AttrDesc) (d : LogDesc) (c : Call) (used : Nat) : Nat := (recordLayout known d c used).turns

/-- The bytes of a record are on the buffers it took, and nothing else is but what it left unused. -/
theorem recordEnd_balance {core : Core} {l : Log} {d : LogDesc} (hl : l.Room core.attrDescs)
    (hd : ArgList logMaxArgs d.args) (c : Call) :
    recordEnd core.attrDescs d c l.bufUsed + itemSpace * rotations core.attrDescs d c l.bufUsed =
        l.bufUsed + (recordSize core.attrDescs d c + padOf (recordSize core.attrDescs d c)) +
          unusedBytes core.attrDescs d c l.bufUsed ∧
      recordEnd core.attrDescs d c l.bufUsed ≤ bufMax + padOf (recordSize core.attrDescs d c) := by
  have hlo := hl.lo
  have hhi := hl.hi
  have hspace : itemSpace + sizeofDataBufHdr = bufMax := by decide
  have hpos : l.bufUsed + sizeofLogItemDat - sizeofDataBufHdr ≤ itemSpace := by omega
  have hb := Layout.balanced_emit (by decide) ⟨l.bufUsed + sizeofLogItemDat - sizeofDataBufHdr, 0, 0⟩ _ hpos
    (allFit_bodyPieces core hd c)
  obtain ⟨hle, -, hbal⟩ := hb
  rw [← recordLayout] at hle hbal
  dsimp only at hbal
  unfold recordEnd unusedBytes rotations recordSize
  omega

/-- A record that does not fit behind the cursor rotates. -/
theorem rotations_pos {core : Core} {l : Log} {d : LogDesc} (hl : l.Room core.attrDescs) (hd : ArgList logMaxArgs d.args)
    {c : Call} (h : bufMax < l.bufUsed + recordSize core.attrDescs d c) : 0 < rotations core.attrDescs d c l.bufUsed := by
  obtain ⟨hbal, hle⟩ := recordEnd_balance hl hd c
  refine Nat.pos_of_ne_zero (fun hzero => ?_)
  rw [hzero, Nat.mul_zero] at hbal
  omega

/-- The header of a finished record. -/
def finalHdr (l : Log) (env : SendEnv) (known : List AttrDesc) (d : LogDesc) (c : Call) (g : LogItemDat) : LogItemDat :=
  { l.beginHdr env d c g with
    argsSize := UInt16.ofNat (payload (argsPieces c.args 0 d.args)).length
    attrsCount := attrsCountOf known (c.attrs.getD [])
    size := UInt16.ofNat (recordSize known d c + padOf (recordSize known d c)) }

/-- A writer after a record: behind the bytes it held lie the record's header, its body and a gap of padding, and the cursor
stands behind the gap, in the same buffer unless that was parked. -/
structure Finished (l : Log) (env : SendEnv) (core : Core) (d : LogDesc) (c : Call) (b : DataBuf) (l' : Log)
    (g : LogItemDat) (gap : List UInt8) (tp : Tape UInt8) : Prop where
  inv : l'.Inv core
  bufs : l'.bufs.map DataBuf.frame = tp.done ++ [⟨tp.cur ++ gap, false⟩]
  spill : Spill ⟨l.fragments.map DataBuf.frame, l.curBytes b ++ (finalHdr l env core.attrDescs d c g).encode⟩
    (payload (bodyPieces core.attrDescs d c)) tp
  gap_length : gap.length = padOf (recordSize core.attrDescs d c)
  cursor : l'.buffer = none ∧ sizeSub bufMax (recordEnd core.attrDescs d c l.bufUsed) < logMinBufferSpace ∨
    l'.buffer.isSome ∧ l'.bufUsed = recordEnd core.attrDescs d c l.bufUsed ∧
      logMinBufferSpace ≤ sizeSub bufMax (recordEnd core.attrDescs d c l.bufUsed)
  sizes : ∀ x ∈ l'.bufs, x ∈ l.fragments ∨ x.hdr.size.toNat ≤ bufMax ∨
    x.hdr.size.toNat = recordEnd core.attrDescs d c l.bufUsed
  acquired : ∀ i, i < (recordLayout core.attrDescs d c l.bufUsed).turns → (env.acquire i).isSome

section

variable {core : Core} {l : Log} {env : SendEnv} {c : Call} {d : LogDesc} {b : DataBuf}

/-- A buffer that is closed holds its bytes up to the cursor, and is not continued. -/
theorem DataBuf.frame_close (b : DataBuf) {used : Nat} (ts : UInt64) (h : used < 2 ^ 16)
    (hb : ((b.hdr.flags &&& dataFlagFragment) != 0) = false) :
    (b.close used ts).frame = ⟨b.mem.read sizeofDataBufHdr (used - sizeofDataBufHdr), false⟩ := by
  simp [DataBuf.frame, DataBuf.close, toNat_size h, hb]

/-- A finished record, before its padding. -/
theorem complete_spec (hl : l.Room core.attrDescs) {h : LogItemDat} {r : Rec} (hr : Recorded l env core d c b h r) :
    r.itemSize = recordSize core.attrDescs d c ∧ r.complete.dst = r.dst ∧ r.complete.attrCache = r.attrCache ∧
      ∃ g, Progress l env core b (finalHdr l env core.attrDescs d c g) (payload (bodyPieces core.attrDescs d c))
        (recordLayout core.attrDescs d c l.bufUsed) r.complete := by
  obtain ⟨g, rfl⟩ := hr.hdr
  have hsize : r.itemSize = recordSize core.attrDescs d c := by
    rw [Rec.itemSize, hr.argsWritten, hr.attrsWritten, recordSize, bodyPieces, payload_append, List.length_append,
      Nat.add_assoc]
  have hp : Progress l env core b _ _ _ r := ⟨hr.of, hr.ready, hr.spill, hr.layout⟩
  have hpatch := hp.patch hl.lo (fun h => { h with
    attrsCount := r.attrsCount, size := UInt16.ofNat (r.itemSize + padOf r.itemSize) })
  obtain ⟨frs, buf, he, -⟩ := modifyHdr_eq r (fun h => { h with
    attrsCount := r.attrsCount, size := UInt16.ofNat (r.itemSize + padOf r.itemSize) })
  refine ⟨hsize, by rw [Rec.complete, he], by rw [Rec.complete, he], g, ?_⟩
  rw [hr.attrsCount, hsize] at hpatch
  rw [Rec.complete, hr.attrsCount, hsize]
  exact hpatch

/-- A record that was written to its end is finished. -/
theorem finish_spec (hl : l.Room core.attrDescs) (hinv : l.Inv core) {h : LogItemDat} {r : Rec}
    (hr : Recorded l env core d c b h r) : ∃ g gap tp, Finished l env core d c b (l.finish r) g gap tp := by
  obtain ⟨hsize, hdst, hcache, g, hp⟩ := complete_spec hl hr
  have hlo := hr.ready.lo
  have hhi := hr.ready.hi
  have hend : r.dst + padOf r.itemSize = recordEnd core.attrDescs d c l.bufUsed := by
    rw [hsize, recordEnd, ← hr.layout.1, r.length_tape_cur, Nat.sub_add_cancel hlo]
  have hlt : recordEnd core.attrDescs d c l.bufUsed < 2 ^ 16 := by
    have hpad := padOf_le r.itemSize
    have hmax : bufMax = 8192 := rfl
    omega
  -- the bytes of the last buffer: what was written, and a gap
  have hframe : ∃ gap, gap.length = padOf (recordSize core.attrDescs d c) ∧
      (r.complete.buffer.close (recordEnd core.attrDescs d c l.bufUsed) r.timestamp).frame =
        ⟨r.complete.tape.cur ++ gap, false⟩ := by
    refine ⟨r.complete.buffer.mem.read r.dst (padOf (recordSize core.attrDescs d c)), Mem.length_read _ _ _, ?_⟩
    have hlen : recordEnd core.attrDescs d c l.bufUsed - sizeofDataBufHdr =
        (r.dst - sizeofDataBufHdr) + padOf (recordSize core.attrDescs d c) := by
      rw [← hend, hsize]
      omega
    rw [DataBuf.frame_close _ _ hlt hp.ready.unflagged, hlen, Mem.read_add, Nat.add_sub_of_le hlo]
    simp only [Rec.tape, hdst]
  obtain ⟨gap, hgap, hframe⟩ := hframe
  have hfin : ∃ b', (l.finish r).bufs = r.complete.fragments ++ [b'] ∧ b'.frame = ⟨r.complete.tape.cur ++ gap, false⟩ ∧
      b'.hdr.size.toNat = recordEnd core.attrDescs d c l.bufUsed ∧ (l.finish r).attrCache = r.attrCache ∧
      (l.finish r).descMap = l.descMap ∧
      ((l.finish r).buffer = none ∧ sizeSub bufMax (recordEnd core.attrDescs d c l.bufUsed) < logMinBufferSpace ∨
        (l.finish r).buffer = some b' ∧ (l.finish r).bufUsed = recordEnd core.attrDescs d c l.bufUsed ∧
          logMinBufferSpace ≤ sizeSub bufMax (recordEnd core.attrDescs d c l.bufUsed)) := by
    refine ⟨_, ?_, hframe, toNat_size hlt, ?_⟩
    · rw [Log.finish, hend]
      split <;> simp [Log.bufs]
    · rw [Log.finish, hend]
      split
      · rename_i hpark
        exact ⟨rfl, rfl, Or.inl ⟨rfl, hpark⟩⟩
      · rename_i hpark
        exact ⟨rfl, rfl, Or.inr ⟨rfl, rfl, Nat.le_of_not_lt hpark⟩⟩
  obtain ⟨b', hbufs, hframe', hsize', hcache', hmap', hcursor⟩ := hfin
  refine ⟨g, gap, r.complete.tape,
    { inv := ⟨hcache' ▸ hr.ready.cache, hmap' ▸ hinv.descs, ?_⟩
      bufs := ?_
      spill := hp.spill
      gap_length := hgap
      cursor := ?_
      sizes := ?_
      acquired := hr.acquired }⟩
  · intro b₁ hb₁
    rcases hcursor with ⟨hnone, -⟩ | ⟨hsome, hused, -⟩
    · rw [hnone] at hb₁
      cases hb₁
    · rw [hsome] at hb₁
      cases hb₁
      refine ⟨by rw [hused]; omega, by rw [hused]; exact hlt, ?_⟩
      have hcont := congrArg Frame.cont hframe'
      rw [Log.curBytes, hused, ← hsize']
      exact congrArg (Frame.mk _) hcont
  · rw [hbufs, List.map_append, List.map_singleton, hframe']
    rfl
  · rcases hcursor with hc | ⟨hsome, hc⟩
    · exact Or.inl hc
    · exact Or.inr ⟨by rw [hsome]; rfl, hc⟩
  · intro x hx
    have hcommit : r.complete.fragCommit = l.fragments.length := hp.of.commit
    rw [hbufs, ← List.take_append_drop l.fragments.length r.complete.fragments, hp.of.earlier, List.append_assoc] at hx
    rcases List.mem_append.mp hx with hx | hx
    · exact Or.inl hx
    · rcases List.mem_append.mp hx with hx | hx
      · exact Or.inr (Or.inl (hp.ready.sizes x (by rw [hcommit]; exact hx)))
      · rw [List.mem_singleton.mp hx]
        exact Or.inr (Or.inr hsize')

/-- What a discarded record leaves: the writer's earlier buffers, and none current. The buffers given back hold what the
current buffer held in front of the record, and a beginning of the record. -/
structure Discarded (l : Log) (env : SendEnv) (core : Core) (d : LogDesc) (c : Call) (b : DataBuf) (l' : Log)
    (released : List DataBuf) : Prop where
  inv : l'.Inv core
  buffer : l'.buffer = none
  fragments : l'.fragments = l.fragments
  released : ∃ (h : LogItemDat) (xs : List UInt8), h.hash = d.hash ∧ xs <+: payload (bodyPieces core.attrDescs d c) ∧
    stream (released.reverse.map DataBuf.frame) = l.curBytes b ++ h.encode ++ xs
  refused : ∃ i, i < (recordLayout core.attrDescs d c l.bufUsed).turns ∧ env.acquire i = none

/-- A discarded record leaves the buffers parked in front of it. -/
theorem Discarded.bufs_eq {b : DataBuf} {l' : Log} {released : List DataBuf} (hd : Discarded l env core d c b l' released) :
    l'.bufs = l.fragments := by
  rw [Log.bufs, hd.buffer, hd.fragments]
  exact List.append_nil _

/-- A record that was given up is discarded. -/
theorem discard_spec (hl : l.Room core.attrDescs) (hinv : l.Inv core) {h : LogItemDat} {r : Rec}
    (hr : Given l env core d c b h r) : Discarded l env core d c b (l.discard r).1 (l.discard r).2 := by
  obtain ⟨xs, hxs, hspill⟩ := hr.spilled
  have hof : r.giveUp.Of l env := hr.of.modifyHdr _
  obtain ⟨h', hparked, hhash⟩ : ∃ h' : LogItemDat, Spill ⟨l.fragments.map DataBuf.frame, l.curBytes b ++ h'.encode⟩ (xs ++ [0])
      ⟨r.giveUp.fragments.map DataBuf.frame, [0]⟩ ∧ h'.hash = d.hash :=
    ⟨_, spill_modifyHdr_parked hspill (by rw [List.length_map, hr.of.commit])
      (by rw [hr.of.hdr_eq, Log.curBytes, Mem.length_read, Nat.add_sub_of_le hl.lo])
      (by rw [hr.of.commit]; exact hr.longer) _, hr.hash⟩
  have hcache : r.giveUp.attrCache = r.attrCache := by
    obtain ⟨frs, buf, he, -⟩ := modifyHdr_eq r (fun h => { h with
      argsSize := UInt16.ofNat r.argsWritten, attrsCount := r.attrsCount, size := UInt16.ofNat r.itemSize })
    rw [Rec.giveUp, he]
  have hfrags : r.giveUp.fragments.take r.giveUp.fragCommit = l.fragments := by rw [hof.commit, hof.earlier]
  refine
    { inv := ⟨?_, hinv.descs, fun _ h' => by cases h'⟩
      buffer := rfl
      fragments := hfrags
      released := ⟨h', xs, hhash, hxs, ?_⟩
      refused := hr.refused }
  · show r.giveUp.attrCache <+: core.attrDescs
    rw [hcache]
    exact hr.cache
  · have hall := hparked.all_eq
    simp only [Tape.all] at hall
    rw [← List.append_assoc] at hall
    have hstream : stream (r.giveUp.fragments.map DataBuf.frame) =
        stream (l.fragments.map DataBuf.frame) ++ (l.curBytes b ++ h'.encode ++ xs) :=
      (List.append_cancel_right hall).trans (List.append_assoc _ _ _)
    rw [← List.take_append_drop r.giveUp.fragCommit r.giveUp.fragments, hfrags, List.map_append, stream_append] at hstream
    rw [Log.discard, List.reverse_reverse]
    exact List.append_cancel_left hstream

end

end P8
