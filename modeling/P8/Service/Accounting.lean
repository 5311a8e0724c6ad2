import P8.Service.Stream

/-!
# Accounting: every descriptor is transmitted or counted

What becomes of the descriptors a core creates. A reservation that fails for lack of a buffer counts its descriptor in
`mu_dropped_svc`; one that is for more than a whole buffer drops it by design without counting it. The registries never offer a
descriptor again, so the balance at the end says what happened to each of them.
-/

namespace P8

open Bytes Framing

/-- The entry of a descriptor fits into a buffer. -/
def SvcDesc.Fits (x : SvcDesc) : Prop := x.entry.padded ≤ dataBufferSize

instance (x : SvcDesc) : Decidable x.Fits := inferInstanceAs (Decidable (x.entry.padded ≤ dataBufferSize))

/-- A registration of a name or a hash that is registered. -/
def SvcEv.Repeats {B : Type} (regs : Registries) : SvcEv B → Prop
  | .attrRegister _ name _ => ∃ n, name.map Subtype.val = some n ∧ (regs.core.attrNameMap n).isSome
  | .registerModule _ name _ _ => ∃ n, name.map Subtype.val = some n ∧ (regs.logModMap n).isSome
  | .registerMtk _ base => ∃ b n, base = some b ∧ b.name = some n ∧ (regs.mtkNameMap n).isSome
  | .resolveLogDesc _ hash _ _ _ _ => (regs.core.logDescs hash).isSome
  | _ => False

namespace SvcSys

variable {B : Type} [DecidableEq B] {s s' : SvcSys B}

/-- A descriptor's serializer has run: its entry was written, or it was counted, or its entry is larger than a buffer. -/
inductive Transmitted (s : SvcSys B) (x : SvcDesc) (s' : SvcSys B) : Prop where
  | written (hfits : x.Fits) (hwritten : s'.written = s.written ++ [x]) (hdropped : s'.svc.droppedSvc = s.svc.droppedSvc)
  | counted (hfits : x.Fits) (hwritten : s'.written = s.written) (hdropped : s'.svc.droppedSvc = s.svc.droppedSvc + 1)
  | tooLarge (hfits : ¬ x.Fits) (hwritten : s'.written = s.written) (hdropped : s'.svc.droppedSvc = s.svc.droppedSvc)

/-- Where the descriptors created are. -/
structure Accounted (s : SvcSys B) : Prop where
  /-- Each of them once: written, not written, or on the way to its serializer. -/
  created_perm : s.created.Perm (s.written ++ s.unwritten ++ s.inFlight)
  /-- The counter is the number of those not written whose entry fits into a buffer. -/
  dropped_eq : s.svc.droppedSvc = s.unwritten.countP (fun x => decide x.Fits)
  /-- The balance. -/
  balance : s.created.length =
    s.written.length + s.svc.droppedSvc + s.unwritten.countP (fun x => decide (¬ x.Fits)) + s.inFlight.length
  /-- A serializer's run takes one descriptor to one of the places. -/
  transmitted : ∀ i fresh x s', s.inFlight[i]? = some x → s.step (.serialize i fresh) = .ok s' → Transmitted s x s'
  /-- No other step writes or counts anything. -/
  others : ∀ ev s', (∀ i fresh, ev ≠ .serialize i fresh) → s.step ev = .ok s' →
    s'.written = s.written ∧ s'.svc.droppedSvc = s.svc.droppedSvc
  /-- Registering again creates nothing. -/
  again : ∀ ev s', ev.Repeats s.regs → s.step ev = .ok s' → s'.created = s.created ∧ s'.inFlight = s.inFlight

/-- What a serializer's run does to the counter and the history. -/
theorem transmitted_serialized (s : SvcSys B) (i : Nat) (fresh : Option B) (x : SvcDesc) :
    Transmitted s x (s.serialized i fresh x) ∧
      ((s.serialized i fresh x).unwritten = s.unwritten ∧ (s.serialized i fresh x).svc.droppedSvc = s.svc.droppedSvc ∨
        (s.serialized i fresh x).unwritten = s.unwritten ++ [x] ∧
          (s.serialized i fresh x).svc.droppedSvc = s.svc.droppedSvc + if x.Fits then 1 else 0) := by
  have hw := s.svc.transmit_wrote fresh x
  unfold SvcSys.serialized
  generalize s.svc.transmit fresh x = res at hw
  cases hw with
  | oversized hlarge =>
    have hfits : ¬ x.Fits := Nat.not_le_of_lt hlarge
    exact ⟨.tooLarge hfits rfl rfl, Or.inr ⟨rfl, by rw [if_neg hfits, Nat.add_zero]⟩⟩
  | exhausted hsize _ =>
    have hfits : x.Fits := hsize
    exact ⟨.counted hfits rfl rfl, Or.inr ⟨rfl, by rw [if_pos hfits]⟩⟩
  | appended _ b _ _ hroom _ _ => exact ⟨.written (Nat.le_trans (Nat.le_add_left _ _) hroom) rfl rfl, Or.inl ⟨rfl, rfl⟩⟩
  | opened _ _ _ hroom _ _ => exact ⟨.written hroom rfl rfl, Or.inl ⟨rfl, rfl⟩⟩

/-- A step that serializes nothing leaves the history of the serializers and the counter. -/
theorem others_step {ev : SvcEv B} (hev : ∀ i fresh, ev ≠ .serialize i fresh) (hs : s.step ev = .ok s') :
    s'.written = s.written ∧ s'.unwritten = s.unwritten ∧ s'.svc.droppedSvc = s.svc.droppedSvc := by
  cases ev with
  | serialize i fresh => exact absurd rfl (hev i fresh)
  | move | writeService | recycle | use _ _ =>
    obtain ⟨-, hs⟩ := when_eq_ok.mp hs
    cases hs
    exact ⟨rfl, rfl, rfl⟩
  | _ =>
    cases hs
    exact ⟨rfl, rfl, rfl⟩

/-- The counter is the number of descriptors that a buffer would have held. -/
theorem dropped_step (h : s.svc.droppedSvc = s.unwritten.countP (fun x => decide x.Fits)) {ev : SvcEv B}
    (hs : s.step ev = .ok s') : s'.svc.droppedSvc = s'.unwritten.countP (fun x => decide x.Fits) := by
  by_cases hev : ∃ i fresh, ev = .serialize i fresh
  · obtain ⟨i, fresh, rfl⟩ := hev
    obtain ⟨x, -, -, rfl⟩ := serialize_step hs
    rcases (transmitted_serialized s i fresh x).2 with ⟨hun, hdrop⟩ | ⟨hun, hdrop⟩
    · rw [hun, hdrop, h]
    · rw [hun, hdrop, h, List.countP_append, List.countP_singleton]
      by_cases hfits : x.Fits <;> simp [hfits]
  · obtain ⟨-, hun, hdrop⟩ := others_step (fun i fresh he => hev ⟨i, fresh, he⟩) hs
    rw [hun, hdrop, h]

omit [DecidableEq B] in
/-- A registration that transmits nothing creates no descriptor. -/
theorem register_none {α : Type} {r : Registered α} (h : r.transmit = none) :
    (s.register r).created = s.created ∧ (s.register r).inFlight = s.inFlight := by
  simp [SvcSys.register, h]

/-- Registering again creates nothing. -/
theorem again_step {ev : SvcEv B} (hev : ev.Repeats s.regs) (hs : s.step ev = .ok s') :
    s'.created = s.created ∧ s'.inFlight = s.inFlight := by
  cases ev with
  | attrRegister alloc name type =>
    obtain ⟨n, hn, hsome⟩ := hev
    obtain ⟨id, hid⟩ := Option.isSome_iff_exists.mp hsome
    cases hs
    refine register_none ?_
    have hcases := Registries.attrRegister_cases s.regs.core alloc (name.map Subtype.val) type
    unfold Registries.attrRegister
    generalize s.regs.core.attrRegister alloc (name.map Subtype.val) type = r at hcases ⊢
    cases hcases with
    | created n' hn' _ hmap =>
      rw [hn] at hn'
      cases hn'
      rw [hid] at hmap
      cases hmap
    | _ => simp
  | registerModule alloc name verbosity handle =>
    obtain ⟨n, hn, hsome⟩ := hev
    obtain ⟨i, hi⟩ := Option.isSome_iff_exists.mp hsome
    cases hs
    refine register_none ?_
    have hcases := Registries.registerModule_cases s.regs alloc (name.map Subtype.val) verbosity handle
    generalize s.regs.registerModule alloc (name.map Subtype.val) verbosity handle = r at hcases ⊢
    cases hcases with
    | created n' hn' _ _ _ hmap =>
      rw [hn] at hn'
      cases hn'
      rw [hi] at hmap
      cases hmap
    | _ => rfl
  | registerMtk alloc base =>
    obtain ⟨b, n, rfl, hn, hsome⟩ := hev
    obtain ⟨id, hid⟩ := Option.isSome_iff_exists.mp hsome
    cases hs
    refine register_none ?_
    have hcases := Registries.registerMtk_cases s.regs alloc (some b)
    generalize s.regs.registerMtk alloc (some b) = r at hcases ⊢
    cases hcases with
    | created b' n' hb' hn' hmap =>
      cases hb'
      rw [hn] at hn'
      cases hn'
      rw [hid] at hmap
      cases hmap
    | _ => rfl
  | resolveLogDesc alloc hash file line function format =>
    obtain ⟨d, hd⟩ := Option.isSome_iff_exists.mp hev
    cases hs
    refine register_none ?_
    simp [Registries.resolveLogDesc, hd]
  | _ => exact hev.elim

/-- Every descriptor is transmitted or accounted for, if a buffer can hold it at all: whatever is registered and whenever the pool
is empty, each descriptor created is, once its serializer has run, written exactly once or counted exactly once in
`mu_dropped_svc`, except those whose entry is larger than a buffer, which are neither; and registering again changes nothing. -/
theorem descriptors_accounted (heap : B → Mem) (evs : List (SvcEv B)) {s : SvcSys B} (hr : (init heap).run evs = .ok s) :
    s.Accounted := by
  have hinv := (inv_init heap).run hr
  have hdropped : s.svc.droppedSvc = s.unwritten.countP (fun x => decide x.Fits) :=
    Runs.run_induction (P := fun s : SvcSys B => s.svc.droppedSvc = s.unwritten.countP (fun x => decide x.Fits)) rfl
      (fun _ _ _ h hs => dropped_step h hs) hr
  refine ⟨hinv.accounted, hdropped, ?_, ?_, ?_, fun ev s' hev hs => again_step hev hs⟩
  · have hlen := hinv.accounted.length_eq
    have hsplit := List.length_eq_countP_add_countP (fun x => decide x.Fits) (l := s.unwritten)
    simp only [List.length_append] at hlen
    simp only [decide_eq_true_eq] at hsplit
    omega
  · intro i fresh x s' hx hs
    obtain ⟨y, hy, -, rfl⟩ := serialize_step hs
    rw [hx] at hy
    cases hy
    exact (transmitted_serialized s i fresh x).1
  · intro ev s' hev hs
    obtain ⟨hwritten, -, hdrop⟩ := others_step hev hs
    exact ⟨hwritten, hdrop⟩

/-- On this run two descriptors are transmitted and one is counted. -/
theorem descriptors_accounted_threeAttrs : ∃ s, (init (fun _ _ => 7)).run threeAttrs = .ok s ∧
    (s.created.length = 3 ∧ s.written.length = 2 ∧ s.svc.droppedSvc = 1) ∧ s.Accounted := by
  obtain ⟨s, hr, hcreated, hwritten, -, hdropped⟩ := threeAttrs_run
  exact ⟨s, hr, ⟨hcreated, hwritten, hdropped⟩, descriptors_accounted _ threeAttrs hr⟩

/-! ## A descriptor that is neither -/

/-- A serializer whose entry is larger than a buffer leaves everything as it is. -/
theorem transmit_tooLarge (svc : Svc B) (fresh : Option B) {x : SvcDesc} (h : ¬ x.Fits) :
    svc.transmit fresh x = (svc, false) := by
  have hlarge : dataBufferSize < x.entry.padded := Nat.lt_of_not_le h
  have hser : svc.serialize fresh x.entry = (svc, false) := by
    rw [Svc.serialize, Svc.svcReserve, if_pos hlarge]
  cases x <;> exact hser

/-- A metric with one text attribute. -/
def textMetric (text : CStr) : MtkBase := ⟨some [109], none, none, true, 0, 0, some [⟨0, some text, 0⟩]⟩

/-- The registries with the text attribute. -/
def oneText : Registries := (Registries.init.attrRegister true (some [97]) .str).regs

/-- The entry of a metric with a text as long as a buffer is larger than a buffer. -/
theorem textMetric_tooLarge {text : CStr} (h : dataBufferSize ≤ text.length) :
    ¬ (oneText.mtkToTransmit 0 [109] (textMetric text)).Fits := by
  have hreg : registered oneText.core.attrDescs ((textMetric text).attrs.getD []) = [(⟨0, .str, [97]⟩, ⟨0, some text, 0⟩)] := rfl
  have hblob : dataBufferSize < (oneText.core.encodeAttrBlob (textMetric text).attrs).1.length := by
    have hsize : dataBufferSize = 8192 := rfl
    rw [encodeAttrBlob_eq, hreg]
    simp only [List.take_succ_cons, List.take_nil, List.flatMap_cons, List.flatMap_nil, List.append_nil, attrPieces, if_true,
      Option.getD_some, payload_cons, List.length_append, length_payload_stringPieces]
    omega
  have hpadded := le_alignUp8 (sizeofMtkSvc + (svcStr (some [109])).length + (svcStr none).length + (svcStr none).length +
    (oneText.core.encodeAttrBlob (textMetric text).attrs).1.length)
  intro hfits
  exact absurd (Nat.le_trans hpadded hfits) (by omega)

/-- The attribute is registered and serialized, then the metric; the pool is never empty. -/
def metricRun (text : CStr) : List (SvcEv Nat) :=
  [.attrRegister true (some oneLetter) .str, .serialize 0 (some 0), .registerMtk true (some (textMetric text)),
    .serialize 0 (some 1)]

/-- A metric whose entry is larger than a buffer is created and neither transmitted nor counted. -/
theorem metricRun_neither {text : CStr} (h : dataBufferSize ≤ text.length) :
    ∃ s, (init (fun _ _ => 0)).run (metricRun text) = .ok s ∧ s.inFlight = [] ∧
      s.created.length ≠ s.written.length + s.svc.droppedSvc := by
  obtain ⟨s, hs, hflight, hcreated, hwritten, hdropped, hheld⟩ : ∃ s, (init (fun (_ : Nat) _ => 0)).run
        ((metricRun text).take 3) = .ok s ∧ s.inFlight = [oneText.mtkToTransmit 0 [109] (textMetric text)] ∧
      s.created.length = 2 ∧ s.written.length = 1 ∧ s.svc.droppedSvc = 0 ∧ s.held = [0] :=
    ⟨_, rfl, rfl, rfl, rfl, rfl, rfl⟩
  have hstep : s.step (.serialize 0 (some 1)) =
      .ok (s.serialized 0 (some 1) (oneText.mtkToTransmit 0 [109] (textMetric text))) := by
    have hx : s.inFlight[0]? = some (oneText.mtkToTransmit 0 [109] (textMetric text)) := by rw [hflight]; rfl
    simp only [SvcSys.step, hx]
    exact when_eq_ok.mpr ⟨fun b hb => by cases hb; rw [hheld]; decide, rfl⟩
  have hlast : (init (fun _ _ => 0)).run (metricRun text) =
      .ok (s.serialized 0 (some 1) (oneText.mtkToTransmit 0 [109] (textMetric text))) := by
    have hsnoc : (init (fun _ _ => 0)).run (metricRun text) = _ :=
      Runs.run_snoc (init (fun _ _ => 0)) ((metricRun text).take 3) (.serialize 0 (some 1))
    exact hsnoc.trans (by rw [show Runs.run step (init (fun _ _ => 0)) ((metricRun text).take 3) = .ok s from hs]; exact hstep)
  refine ⟨_, hlast, ?_⟩
  rw [SvcSys.serialized, transmit_tooLarge _ _ (textMetric_tooLarge h)]
  exact ⟨by rw [hflight]; rfl, by rw [hcreated]; simp [hwritten, hdropped]⟩

/-- A descriptor with a text of 8200 bytes is neither transmitted nor counted. -/
theorem descriptors_accounted_false : ∃ s, (init (fun _ _ => 0)).run (metricRun (List.replicate 8200 98)) = .ok s ∧
    s.inFlight = [] ∧ s.created.length ≠ s.written.length + s.svc.droppedSvc :=
  metricRun_neither (by rw [List.length_replicate]; decide)

end SvcSys

end P8
