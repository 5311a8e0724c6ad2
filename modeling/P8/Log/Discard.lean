import P8.Log.Run

/-!
# Discard: what a record that is given up takes with it

The roll-back of `lbl_discard` gives back every buffer parked since `lz_frag_commit`, and the first of these is the buffer the
record began in, with all it held in front of the record. So a discarded record leaves the accepted ones alone exactly when it
began right behind a buffer's header (`discard_iff`); `discard_false` is a run on which it takes an accepted record with it.
-/

namespace P8

open Bytes Framing

namespace LogSys

/-! ## One discarded record -/

/-- A discarded record leaves no trace: the writer's buffers are those it had, but for an empty one at the end, with the same
bytes in them; they and the delivered ones still carry the accepted records, and nothing else; and the buffers given back to
the pool held a beginning of the discarded record only. -/
structure Undisturbed (hash : CStr → UInt32 → UInt64) (s : LogSys) (c : Call) (o : Sent) : Prop where
  held : o.delivered ++ o.log.bufs <+: s.log.bufs
  bytes : stream (s.after c o).frames = stream s.frames
  accepted : (s.after c o).accepted = s.accepted
  carries : (s.after c o).Carries hash
  released : ∃ d h xs, o.core.logDescs (hash c.file c.line) = some d ∧ xs <+: payload (bodyPieces o.core.attrDescs d c) ∧
    stream (o.released.reverse.map DataBuf.frame) = LogItemDat.encode h ++ xs

/-- Every record discarded in a step leaves no trace. -/
def DiscardsClean (hash : CStr → UInt32 → UInt64) (s : LogSys) : Op → Except Fault LogSys → Prop
  | .send env c, _ => ∀ o, s.log.send hash s.core env c = .ok o → o.outcome = .abandoned → Undisturbed hash s c o
  | _, _ => True

/-- A record that needs a buffer it does not get begins right behind the header of its buffer. -/
def BeginsFresh (hash : CStr → UInt32 → UInt64) (s : LogSys) : Op → Except Fault LogSys → Prop
  | .send env c, _ =>
    match s.log.prepare hash s.core env c with
    | .error _ => True
    | .ok p =>
      p.log.bufUsed ≤ bufMax → (∃ i, i < rotations p.core.attrDescs p.desc c p.log.bufUsed ∧ env.acquire i = none) →
        p.log.bufUsed = sizeofDataBufHdr
  | _, _ => True

variable {hash : CStr → UInt32 → UInt64} {s : LogSys} {env : SendEnv} {c : Call}

/-- What the writer's own frames are when it is about to write a record: those before, and what its current buffer holds. -/
theorem stream_begins {p : Prepared} (hb : Begins hash s.core s.log c p) :
    stream s.frames = stream ((s.delivered ++ p.delivered ++ p.log.fragments).map DataBuf.frame) ++ p.log.curBytes p.buffer := by
  have hcur := (hb.inv.cur _ hb.buffer).2.2
  have hall : stream ((s.delivered ++ (p.delivered ++ p.log.bufs)).map DataBuf.frame) =
      stream ((s.delivered ++ p.delivered ++ p.log.fragments).map DataBuf.frame) ++ p.log.curBytes p.buffer := by
    rw [hb.bufs_eq]
    simp [hcur]
  rw [← hall, frames]
  rcases hb.bufs with ⟨hsame, -⟩ | ⟨hfresh, hframe, -⟩
  · rw [hsame]
  · rw [hfresh]
    simp [hframe]

section

variable {p : Prepared} {l' : Log} {released : List DataBuf}

/-- The frames a discarded record leaves: those of the buffers before the one it began in. -/
theorem frames_discarded (hd : Discarded p.log env p.core p.desc c p.buffer l' released) :
    (s.after c ⟨l', p.core, p.delivered, released, .abandoned⟩).frames =
      (s.delivered ++ p.delivered ++ p.log.fragments).map DataBuf.frame := by
  simp [frames, after, Log.bufs, hd.buffer, hd.fragments]

/-- A discarded record takes the bytes with it that its buffer held in front of it. -/
theorem bytes_discarded_iff (hb : Begins hash s.core s.log c p)
    (hd : Discarded p.log env p.core p.desc c p.buffer l' released) :
    stream (s.after c ⟨l', p.core, p.delivered, released, .abandoned⟩).frames = stream s.frames ↔
      p.log.bufUsed = sizeofDataBufHdr := by
  have hlo := (hb.inv.cur _ hb.buffer).1
  rw [frames_discarded hd, stream_begins hb, List.self_eq_append_right, Log.curBytes, ← List.length_eq_zero_iff, Mem.length_read]
  omega

/-- A record discarded that began right behind a buffer's header leaves no trace. -/
theorem undisturbed_of_fresh (hcarries : s.Carries hash) (hb : Begins hash s.core s.log c p)
    (hd : Discarded p.log env p.core p.desc c p.buffer l' released) (hfresh : p.log.bufUsed = sizeofDataBufHdr) :
    Undisturbed hash s c ⟨l', p.core, p.delivered, released, .abandoned⟩ := by
  have hcur : p.log.curBytes p.buffer = [] := by
    rw [Log.curBytes, hfresh, Nat.sub_self]
    rfl
  refine ⟨?_, (bytes_discarded_iff hb hd).mpr hfresh, rfl, ?_, ?_⟩
  · rw [hd.bufs_eq]
    rcases hb.bufs with ⟨hsame, -⟩ | ⟨hall, -⟩
    · exact ⟨[p.buffer], by rw [← hsame, hb.bufs_eq, List.append_assoc]⟩
    · rw [hb.bufs_eq, ← List.append_assoc] at hall
      exact (List.append_cancel_right hall) ▸ List.prefix_refl _
  · obtain ⟨items, hframes, hitems⟩ := hcarries
    have hpre := hb.frames hframes
    rw [hcur] at hpre
    exact ⟨items, frames_discarded hd ▸ hpre.of_snoc_empty, hitems⟩
  · obtain ⟨h, xs, -, hxs, hrel⟩ := hd.released
    rw [hcur, List.nil_append] at hrel
    exact ⟨p.desc, h, xs, hb.desc, hxs, hrel⟩

end

/-! ## Runs -/

/-- The invariant of a run on which no record was discarded that shared its buffer. -/
structure DiscardInv (hash : CStr → UInt32 → UInt64) (s : LogSys) : Prop where
  inv : s.Inv
  carries : s.Carries hash

theorem discardInv_init (attached : Bool) (threadId : UInt32) : DiscardInv hash (LogSys.init attached threadId) :=
  ⟨inv_init attached threadId, [], framed_nil, List.Forall₂.nil⟩

/-- In one step the discarded records leave no trace exactly when they began right behind a buffer's header. -/
theorem DiscardInv.step_iff (h : DiscardInv hash s) (op : Op) :
    DiscardsClean hash s op (s.step hash op) ↔ BeginsFresh hash s op (s.step hash op) := by
  cases op with
  | send env c =>
    have hcases := send_cases hash env c h.inv.log h.inv.sound
    dsimp only [DiscardsClean, BeginsFresh]
    cases ho : s.log.send hash s.core env c with
    | error f =>
      rw [ho] at hcases
      obtain ⟨p, hp, -, -, hlt⟩ := hcases
      rw [hp]
      exact ⟨fun _ hle => absurd hlt (Nat.not_lt_of_le hle), fun _ o ho' => by cases ho'⟩
    | ok o =>
      rw [ho] at hcases
      cases hcases with
      | idle o hp hi =>
        rw [hp]
        refine ⟨fun _ => trivial, fun _ o' ho' hab => ?_⟩
        cases ho'
        rcases hi.outcome with h' | h' <;> rw [hab] at h' <;> cases h'
      | accepted p l' g gap tp hp hb hroom hf =>
        rw [hp]
        refine ⟨fun _ _ ⟨i, hi, hnone⟩ => ?_, fun _ o' ho' hab => by cases ho'; cases hab⟩
        have hsome := hf.acquired i hi
        rw [hnone] at hsome
        cases hsome
      | abandoned p l' released hp hb hroom hd =>
        have hle : p.log.bufUsed ≤ bufMax := Nat.le_trans (Nat.le_add_right _ _) hroom.hi
        rw [hp]
        refine ⟨fun hclean _ _ => ?_, fun hfresh o' ho' _ => ?_⟩
        · exact (bytes_discarded_iff hb hd).mp (hclean _ rfl rfl).bytes
        · cases ho'
          exact undisturbed_of_fresh h.carries hb hd (hfresh hle hd.refused)
  | pull => exact Iff.rfl
  | attrRegister alloc name type => exact Iff.rfl
  | resolveLogDesc alloc k file line function format => exact Iff.rfl
  | setVerbosity verbosity => exact Iff.rfl

/-- A step whose discarded records leave no trace keeps the invariant. -/
theorem DiscardInv.step (h : DiscardInv hash s) {s' : LogSys} {op : Op} (hs : s.step hash op = .ok s')
    (hclean : DiscardsClean hash s op (.ok s')) : DiscardInv hash s' := by
  refine ⟨h.inv.step hs, h.carries.step h.inv hs fun env c o hop ho hab => ?_⟩
  subst hop
  exact (hclean o ho hab).carries

/-- On a run of calls, pulls and registrations the records that are discarded leave no trace exactly when each of them began
right behind the header of its buffer. -/
theorem discard_iff (hash : CStr → UInt32 → UInt64) (attached : Bool) (threadId : UInt32) (ops : List Op) :
    Runs.Along (step hash) (DiscardsClean hash) (LogSys.init attached threadId) ops ↔
      Runs.Along (step hash) (BeginsFresh hash) (LogSys.init attached threadId) ops :=
  Runs.along_iff (I := DiscardInv hash) (fun _ op h => h.step_iff op) (fun _ _ _ h hs hclean => h.step hs hclean)
    (discardInv_init attached threadId) ops

/-! ## An accepted record lost -/

/-- No buffer but the first one. -/
def scarce : SendEnv := ⟨some poolBuf, false, fun _ => none, 1, 2, true⟩

/-- A run on which a record of 9000 bytes, discarded for want of a second buffer, takes the record accepted before it along. -/
theorem discard_false : ¬ Runs.Along (step oneLine) (DiscardsClean oneLine) (LogSys.init true 7)
    [.send plenty (textCall [104, 105]), .send scarce (textCall (List.replicate 9000 97))] := by
  generalize hs : List.replicate 9000 (97 : UInt8) = s
  have hlen : s.length = 9000 := by rw [← hs, List.length_replicate]
  obtain ⟨s₁, hs₁, p, hp, hused, hargs⟩ : ∃ s₁,
      (LogSys.init true 7).step oneLine (.send plenty (textCall [104, 105])) = .ok s₁ ∧
        ∃ p, s₁.log.prepare oneLine s₁.core scarce (textCall s) = .ok p ∧ p.log.bufUsed = 72 ∧
          p.desc.args = [⟨ArgType.ustr8, 0⟩] := ⟨_, rfl, _, rfl, rfl, rfl⟩
  rintro ⟨hclean₁, hrest⟩
  obtain ⟨hclean₂, -⟩ := hrest s₁ hs₁
  have hinv : DiscardInv oneLine s₁ := (discardInv_init true 7).step hs₁ (hs₁ ▸ hclean₁)
  have hfresh := (hinv.step_iff _).mp hclean₂
  have hb := prepare_spec oneLine scarce (textCall s) hinv.inv.log hinv.inv.sound
  simp only [BeginsFresh, hp] at hfresh hb
  have hle : p.log.bufUsed ≤ bufMax := by rw [hused]; decide
  have hsize : bufMax < p.log.bufUsed + recordSize p.core.attrDescs p.desc (textCall s) := by
    have hpieces : argsPieces (textCall s).args 0 p.desc.args = stringPieces s ++ [] := by rw [hargs]; rfl
    have hmax : bufMax = 8192 := rfl
    rw [recordSize, bodyPieces, hpieces, payload_append, payload_append, List.length_append, List.length_append,
      length_payload_stringPieces, hlen]
    omega
  have hstart := hfresh hle ⟨0, rotations_pos (hb.room hinv.inv.log hle) hb.argList hsize, rfl⟩
  rw [hused] at hstart
  revert hstart
  decide

end LogSys

end P8
