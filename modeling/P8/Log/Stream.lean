import P8.Log.Cursor
import P8.Log.Reader

/-!
# Stream: what was logged is read back

The two halves of the wire format meet here: the run of a writer, whose buffers carry the accepted records (`Carries`), and
the reader. A run on which every buffer asked for is there and the cursor stays inside its buffers leaves a stream that the
reader walks to its end, finding one item for each accepted call, with the values of the call (`stream_read_back`).
-/

namespace P8

open Bytes Framing

/-- A record the item format has room for. -/
structure Accepted.Fits (hash : CStr → UInt32 → UInt64) (a : Accepted) : Prop where
  size : ∀ d, a.core.logDescs (hash a.call.file a.call.line) = some d →
    paddedSize a.core.attrDescs d a.call ≤ 65535
  attrs : (registered a.core.attrDescs (a.call.attrs.getD [])).length ≤ 255

/-- What a reader that knows the registries `core` finds in the item of an accepted call: the descriptor its hash resolves to
is that of the call's source line, and by it the values of the call's arguments and of its registered attributes. -/
structure ReadsBack (hash : CStr → UInt32 → UInt64) (core : Core) (a : Accepted) (item : List UInt8) : Prop where
  hash_eq : (LogItemDat.decode item).hash = hash a.call.file a.call.line
  values : ∃ d, core.logDescs (hash a.call.file a.call.line) = some d ∧
    readItem core item = some (argValues a.call.args 0 d.args,
      (registered a.core.attrDescs (a.call.attrs.getD [])).map attrValue)

/-- An item of an accepted call is read back later on. -/
theorem IsItem.readsBack {hash : CStr → UInt32 → UInt64} {core : Core} {a : Accepted} {item : List UInt8}
    (h : IsItem hash a item) (hfits : a.Fits hash) (hgrows : a.core.Grows core) :
    SaysItsSize item ∧ ReadsBack hash core a item := by
  obtain ⟨l, env, d, g, gap, hdesc, hhash, hargs, rfl, hgap⟩ := h
  have hsize := hfits.size d hdesc
  have hnow := hgrows.descs _ _ hdesc
  refine ⟨saysItsSize_finished hgap hsize, ?_, d, hnow, ?_⟩
  · rw [List.append_assoc, LogItemDat.decode_encode]
    exact hhash
  · exact readItem_finished hargs (hhash ▸ hnow) hgrows.attrs hsize hfits.attrs

namespace LogSys

variable {hash : CStr → UInt32 → UInt64} {s s' : LogSys} {op : Op}

/-- The registries only grow. -/
theorem Inv.grows_step (h : s.Inv) (hs : s.step hash op = .ok s') :
    s.core.Grows s'.core ∧ ∀ a ∈ s'.accepted, a ∈ s.accepted ∨ a.core = s'.core := by
  cases op with
  | send env c =>
    obtain ⟨o, -, hcases, rfl⟩ := h.step_send hs
    refine ⟨?_, fun a ha => ?_⟩
    · cases hcases with
      | idle o hp hi => exact hi.grows
      | accepted p l' g gap tp hp hb hroom hf => exact hb.grows
      | abandoned p l' released hp hb hroom hd => exact hb.grows
    · dsimp only [LogSys.after] at ha
      split at ha
      · rcases List.mem_append.mp ha with ha | ha
        · exact Or.inl ha
        · rw [List.mem_singleton.mp ha]
          exact Or.inr rfl
      · exact Or.inl ha
  | pull =>
    cases hs
    exact ⟨Core.Grows.refl _, fun a ha => Or.inl ha⟩
  | attrRegister alloc name type =>
    cases hs
    exact ⟨Core.grows_attrRegister _ _ _ _, fun a ha => Or.inl ha⟩
  | resolveLogDesc alloc k file line function format =>
    cases hs
    exact ⟨Core.grows_resolveLogDesc _ _ _ _ _ _ _, fun a ha => Or.inl ha⟩
  | setVerbosity verbosity =>
    cases hs
    exact ⟨Core.grows_setVerbosity _ _, fun a ha => Or.inl ha⟩

/-- Every buffer a step asks for is there, and no byte is written, and no cursor left, past the end of a buffer. -/
def Smooth (_ : LogSys) (op : Op) (out : Except Fault LogSys) : Prop :=
  (match op with
    | .send env _ => env.waited.isSome ∧ ∀ i, (env.acquire i).isSome
    | _ => True) ∧
  ∃ s', out = .ok s' ∧ (s'.log.buffer.isSome → s'.log.bufUsed ≤ bufMax)

/-- A step that keeps the cursor safe is smooth when every buffer it asks for is there. -/
theorem CursorInv.smooth (h : s.CursorInv) (hacq : match op with
      | .send env _ => env.waited.isSome ∧ ∀ i, (env.acquire i).isSome
      | _ => True) (hkeep : KeepsAlignment hash s op (s.step hash op)) : Smooth s op (s.step hash op) := by
  obtain ⟨s', hs', hsafe⟩ := (h.step op).1.mpr hkeep
  exact ⟨hacq, s', hs', hsafe.inside⟩

/-- The invariant of a smooth run: the buffers carry the accepted records, and no registry has lost anything since. -/
structure StreamInv (hash : CStr → UInt32 → UInt64) (s : LogSys) : Prop where
  inv : s.Inv
  carries : s.Carries hash
  grown : ∀ a ∈ s.accepted, a.core.Grows s.core

theorem streamInv_init (attached : Bool) (threadId : UInt32) : StreamInv hash (LogSys.init attached threadId) :=
  ⟨inv_init attached threadId, ⟨[], framed_nil, List.Forall₂.nil⟩, fun _ ha => by cases ha⟩

/-- Where every buffer is there, no record is discarded. -/
theorem Inv.not_abandoned (h : s.Inv) {env : SendEnv} {c : Call} {o : Sent} (ho : s.log.send hash s.core env c = .ok o)
    (hacq : ∀ i, (env.acquire i).isSome) : o.outcome ≠ .abandoned := by
  have hcases := send_cases hash env c h.log h.sound
  rw [ho] at hcases
  intro hab
  cases hcases with
  | idle o hp hi => rcases hi.outcome with h' | h' <;> rw [hab] at h' <;> cases h'
  | accepted p l' g gap tp hp hb hroom hf => cases hab
  | abandoned p l' released hp hb hroom hd =>
    obtain ⟨i, -, hnone⟩ := hd.refused
    have hsome := hacq i
    rw [hnone] at hsome
    cases hsome

/-- A smooth step keeps the invariant. -/
theorem StreamInv.step (h : StreamInv hash s) (hs : s.step hash op = .ok s') (hsmooth : Smooth s op (.ok s')) :
    StreamInv hash s' := by
  obtain ⟨hgrows, hacc⟩ := h.inv.grows_step hs
  refine ⟨h.inv.step hs, ?_, fun a ha => ?_⟩
  · refine h.carries.step h.inv hs fun env c o hop ho hab => ?_
    subst hop
    exact absurd hab (h.inv.not_abandoned ho hsmooth.1.2)
  · rcases hacc a ha with hold | hnew
    · exact (h.grown a hold).trans hgrows
    · rw [hnew]
      exact Core.Grows.refl _

/-- What is read in the buffers of a writer: its accepted records, one after the other and nothing else. -/
theorem StreamInv.read_back (h : StreamInv hash s) (hfits : ∀ a ∈ s.accepted, a.Fits hash) :
    ∃ items, walk (stream s.frames) = some items ∧ List.Forall₂ (ReadsBack hash s.core) s.accepted items ∧
      Framed s.frames items := by
  obtain ⟨items, hframed, hitems⟩ := h.carries
  have hboth : ∀ {as : List Accepted} {its : List (List UInt8)}, (∀ a ∈ as, a ∈ s.accepted) →
      List.Forall₂ (IsItem hash) as its →
      (∀ it ∈ its, SaysItsSize it) ∧ List.Forall₂ (ReadsBack hash s.core) as its := by
    intro as its hmem has
    induction has with
    | nil => exact ⟨fun _ hit => (by cases hit), List.Forall₂.nil⟩
    | @cons a it as its ha _ ih =>
      obtain ⟨hsize, hread⟩ := ha.readsBack (hfits a (hmem a List.mem_cons_self)) (h.grown a (hmem a List.mem_cons_self))
      obtain ⟨hsizes, hreads⟩ := ih (fun x hx => hmem x (List.mem_cons_of_mem a hx))
      refine ⟨fun x hx => ?_, List.Forall₂.cons hread hreads⟩
      rcases List.mem_cons.mp hx with rfl | hx
      · exact hsize
      · exact hsizes x hx
  obtain ⟨hsizes, hreads⟩ := hboth (fun a ha => ha) hitems
  exact ⟨items, hframed.stream_eq ▸ walk_flatten hsizes, hreads, hframed⟩

/-! ## Strings of any length -/

/-- The record of a long string leaves no byte unused, and its size is that of the string, its length and the header. -/
theorem layout_textCall {str : CStr} (hstr : str.length ≤ 65535) {d : LogDesc} (hd : d.args = [⟨ArgType.ustr8, 0⟩]) :
    unusedBytes [] d (textCall str) 72 = 0 ∧ recordSize [] d (textCall str) = sizeofLogItemDat + 2 + str.length := by
  have hpieces : bodyPieces [] d (textCall str) = stringPieces str := by
    rw [bodyPieces, hd]
    exact List.append_nil _
  refine ⟨?_, ?_⟩
  · rw [unusedBytes, recordLayout, hpieces, layout_stringPieces _ hstr, Layout.text_skipped]
    decide
  · rw [recordSize, hpieces, length_payload_stringPieces]
    omega

/-- The item of a string of at most 65000 bytes fits. -/
theorem fits_textCall {core : Core} {str : CStr} {d : LogDesc} (hknown : core.attrDescs = []) (hdesc : core.logDescs 1 = some d)
    (hd : d.args = [⟨ArgType.ustr8, 0⟩]) (hstr : str.length ≤ 65000) :
    Accepted.Fits oneLine ⟨textCall str, core⟩ := by
  refine ⟨fun d' hd' => ?_, by rw [hknown]; exact Nat.zero_le _⟩
  have heq : core.logDescs 1 = some d' := hd'
  rw [hdesc] at heq
  cases heq
  have hpad := padOf_le (sizeofLogItemDat + 2 + str.length)
  have hhdr : sizeofLogItemDat = 40 := rfl
  rw [paddedSize, hknown, (layout_textCall (by omega) hd).2]
  omega

/-! ## Runs -/

/-- On a run of calls, pulls and registrations that is smooth, the bytes the buffers carry, delivered and held, are walked to
their end; the items found are those of the calls that returned true, in order, each read back as the values of its call; and a
buffer is marked as continued exactly when its end lies inside an item. -/
theorem stream_read_back (hash : CStr → UInt32 → UInt64) (attached : Bool) (threadId : UInt32) (ops : List Op)
    (hsmooth : Runs.Along (step hash) Smooth (LogSys.init attached threadId) ops) :
    ∃ s, (LogSys.init attached threadId).run hash ops = .ok s ∧
      ((∀ a ∈ s.accepted, a.Fits hash) →
        ∃ items, walk (stream s.frames) = some items ∧ List.Forall₂ (ReadsBack hash s.core) s.accepted items ∧
          ∀ pre f post, s.frames = pre ++ f :: post →
            (f.cont = true ↔ Inside items (stream (pre ++ [f])).length)) := by
  obtain ⟨s, hs⟩ := hsmooth.run_ok (fun _ _ _ hR => by
    obtain ⟨-, s', hs', -⟩ := hR
    cases hs')
  have hinv : StreamInv hash s := hsmooth.induction (streamInv_init attached threadId)
    (fun _ _ _ h hstep hR => h.step hstep hR) hs
  refine ⟨s, hs, fun hfits => ?_⟩
  obtain ⟨items, hwalk, hreads, hframed⟩ := hinv.read_back hfits
  exact ⟨items, hwalk, hreads, hframed.cont_iff⟩

/-- A short record and one of 9000 bytes. -/
def longRun : List Op := [.send plenty (textCall [104, 105]), .send plenty (textCall (List.replicate 9000 97)), .pull]

/-- Both records of this run are accepted, and the second one lies over two buffers. -/
theorem stream_read_back_long : ∃ s, (LogSys.init true 7).run oneLine longRun = .ok s ∧
    s.accepted.map (·.call) = [textCall [104, 105], textCall (List.replicate 9000 97)] ∧ (∃ f ∈ s.frames, f.cont = true) ∧
    ∃ items, walk (stream s.frames) = some items ∧ List.Forall₂ (ReadsBack oneLine s.core) s.accepted items ∧
      ∀ pre f post, s.frames = pre ++ f :: post → (f.cont = true ↔ Inside items (stream (pre ++ [f])).length) := by
  have hback := stream_read_back oneLine true 7 longRun
  unfold longRun at hback ⊢
  generalize hstr : List.replicate 9000 (97 : UInt8) = str at hback ⊢
  have hlen : str.length = 9000 := by rw [← hstr, List.length_replicate]
  -- the first record, whose state is computed
  obtain ⟨s₁, hs₁, hused₁, hframes₁, hacc₁, p, hp, hused, hargs, hcore, hknown, hdesc, hfrags, hdeliv⟩ : ∃ s₁,
      (LogSys.init true 7).step oneLine (.send plenty (textCall [104, 105])) = .ok s₁ ∧ s₁.log.bufUsed = 72 ∧
        (∀ b ∈ s₁.delivered ++ s₁.log.bufs, b.hdr.size.toNat ≤ bufMax) ∧
        s₁.accepted = [⟨textCall [104, 105], s₁.core⟩] ∧
        ∃ p, s₁.log.prepare oneLine s₁.core plenty (textCall str) = .ok p ∧ p.log.bufUsed = 72 ∧
          p.desc.args = [⟨ArgType.ustr8, 0⟩] ∧ p.core = s₁.core ∧ s₁.core.attrDescs = [] ∧
          s₁.core.logDescs 1 = some p.desc ∧ p.log.fragments = [] ∧ p.delivered = [] :=
    ⟨_, rfl, rfl, by decide, rfl, _, rfl, rfl, rfl, rfl, rfl, rfl, rfl, rfl⟩
  have hinv₁ : s₁.CursorInv :=
    ⟨(inv_init true 7).step hs₁, fun _ => by rw [hused₁]; decide, fun _ => by rw [hused₁]; decide, hframes₁⟩
  obtain ⟨hunused, hsize⟩ := layout_textCall (by omega : str.length ≤ 65535) hargs
  -- the second one
  obtain ⟨l', g, gap, tp, ho, hf⟩ := send_accepted hinv₁.inv.log hinv₁.inv.sound hp (by rw [hused]; decide) (fun _ => rfl)
  obtain ⟨s₂, hs₂, rfl⟩ : ∃ s₂, s₁.step oneLine (.send plenty (textCall str)) = .ok s₂ ∧
      s₂ = s₁.after (textCall str) ⟨l', p.core, p.delivered, [], .accepted⟩ := ⟨_, by rw [step, ho], rfl⟩
  have hkeep : KeepsAlignment oneLine s₁ (.send plenty (textCall str)) (s₁.step oneLine (.send plenty (textCall str))) := by
    simp only [KeepsAlignment, hp]
    refine Or.inr (Or.inl ?_)
    rw [hcore, hknown, hused, hunused]
    decide
  have hinv₂ := (hinv₁.step _).2 hkeep _ hs₂
  -- the run
  have hsmooth : Runs.Along (step oneLine) Smooth (LogSys.init true 7)
      [.send plenty (textCall [104, 105]), .send plenty (textCall str), .pull] := by
    refine ⟨⟨⟨rfl, fun _ => rfl⟩, s₁, hs₁, fun _ => by rw [hused₁]; decide⟩, fun s hs => ?_⟩
    rw [hs₁] at hs
    cases hs
    refine ⟨hinv₁.smooth ⟨rfl, fun _ => rfl⟩ hkeep, fun s hs => ?_⟩
    rw [hs₂] at hs
    cases hs
    exact ⟨hinv₂.smooth trivial trivial, fun _ _ => trivial⟩
  obtain ⟨s, hs, hread⟩ := hback hsmooth
  have hpull := hs
  rw [run, Runs.run_step hs₁, Runs.run_step hs₂] at hpull
  cases hpull
  have hacc : (s₁.after (textCall str) ⟨l', p.core, p.delivered, [], .accepted⟩).accepted =
      [⟨textCall [104, 105], s₁.core⟩, ⟨textCall str, s₁.core⟩] := by
    simp [after, Outcome.result, hacc₁, hcore]
  refine ⟨_, hs, by dsimp only; rw [hacc]; rfl, ?_, hread ?_⟩
  · -- one buffer alone would hold more than a buffer holds
    have hframes := (s₁.after (textCall str) ⟨l', p.core, p.delivered, [], .accepted⟩).frames_pull
    have hbufs : (s₁.after (textCall str) ⟨l', p.core, p.delivered, [], .accepted⟩).frames =
        s₁.delivered.map DataBuf.frame ++ (tp.done ++ [⟨tp.cur ++ gap, false⟩]) := by
      simp [frames, after, hdeliv, hf.bufs]
    rw [hframes, hbufs]
    rcases hf.spill.stays_or_turns with hstay | ⟨f, hfmem, hcont⟩
    · have hmem : (⟨tp.cur ++ gap, false⟩ : Frame UInt8) ∈ l'.bufs.map DataBuf.frame := by simp [hf.bufs]
      obtain ⟨b, hb, hbframe⟩ := List.mem_map.mp hmem
      have hle := hinv₂.sizes b (List.mem_append_right _ hb)
      have hdata := congrArg (fun f => f.data.length) hbframe
      have hbody : str.length ≤ (payload (bodyPieces p.core.attrDescs p.desc (textCall str))).length := by
        rw [recordSize, ← hknown, ← hcore] at hsize
        omega
      simp only [DataBuf.frame, Mem.length_read, hstay, Tape.put, List.length_append] at hdata
      have hmax : bufMax = 8192 := rfl
      omega
    · exact ⟨f, by simp [hfmem], hcont⟩
  · intro a ha
    dsimp only at ha
    rw [hacc] at ha
    rcases List.mem_pair.mp ha with rfl | rfl
    · exact fits_textCall hknown hdesc hargs (by decide)
    · exact fits_textCall hknown hdesc hargs (by omega)

end LogSys

end P8
