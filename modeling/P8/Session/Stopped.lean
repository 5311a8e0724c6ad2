import P8.Session.Receiver

/-!
# Stopped: what the two files say at any moment

A program can be stopped between a record and the descriptors it needs, which take another way to another file. A receiver of what
has come by then never misreads a record (`never_misread`): it has what the record needs and reads what its call passed, or it lacks
a descriptor and reads nothing. And it lacks none if the worker takes over no record whose descriptors have not been given to the
sink (`all_read`), which is the order of `ServiceOrder` for the bytes of a session.
-/

namespace P8

open Bytes Framing Sources

/-! ## A receiver that knows a part of a core's registries -/

namespace Receiver

/-- What the receiver knows is as the registries have it. -/
structure Agrees (r : Receiver) (core : Core) : Prop where
  args : ∀ h types, r.args h = some types → ∃ d, core.logDescs h = some d ∧ d.args = types
  attrs : ∀ id type, r.attrType id = some type → ∃ d, knownAttr core.attrDescs id = some d ∧ d.type = type

/-- The receiver knows the source line of a call and its registered attributes. -/
def has (r : Receiver) (hash : CStr → UInt32 → UInt64) (a : Accepted) : Bool :=
  (r.args (hash a.call.file a.call.line)).isSome &&
    (registered a.core.attrDescs (a.call.attrs.getD [])).all fun p => (r.attrType p.2.id).isSome

/-- A record is read with the values of its call, or it is not read for lack of a descriptor. -/
structure Told (r : Receiver) (hash : CStr → UInt32 → UInt64) (a : Accepted) (item : List UInt8) : Prop where
  found : r.has hash a = true → r.Finds hash a item
  missed : r.has hash a = false → r.readItem item = none

variable {r : Receiver} {core : Core}

/-- An attribute is read as with the registries, if its type is known. -/
theorem Agrees.readAttr (h : r.Agrees core) {bs : List UInt8} {v : (Int32 × AttrData) × List UInt8}
    (hv : P8.readAttr core.attrDescs bs = some v) :
    r.readAttr bs = if (r.attrType v.1.1).isSome then some v else none := by
  unfold P8.readAttr at hv
  unfold Receiver.readAttr
  simp only [Option.bind_eq_bind, Option.bind_eq_some_iff] at hv
  obtain ⟨p, hp, d, hd, hv⟩ := hv
  have hid : v.1.1 = readId p.1 := by
    split at hv
    all_goals
      obtain ⟨q, -, hv⟩ := Option.bind_eq_some_iff.mp hv
      cases hv
      rfl
  rw [hp, hid]
  simp only [Option.bind_eq_bind, Option.bind_some]
  cases ht : r.attrType (readId p.1) with
  | none => simp
  | some type =>
    obtain ⟨d', hd', rfl⟩ := h.attrs _ _ ht
    rw [hd] at hd'
    cases hd'
    exact hv

/-- So are several. -/
theorem Agrees.readAttrs (h : r.Agrees core) (n : Nat) {bs : List UInt8} {v : List (Int32 × AttrData) × List UInt8}
    (hv : P8.readAttrs core.attrDescs n bs = some v) :
    r.readAttrs n bs = if v.1.all (fun x => (r.attrType x.1).isSome) then some v else none := by
  induction n generalizing bs v with
  | zero =>
    cases hv
    rfl
  | succ n ih =>
    rw [P8.readAttrs] at hv
    rw [Receiver.readAttrs]
    simp only [Option.bind_eq_bind, Option.bind_eq_some_iff] at hv
    obtain ⟨p, hp, q, hq, hv⟩ := hv
    cases hv
    rw [h.readAttr hp, List.all_cons]
    cases (r.attrType p.1.1).isSome with
    | false => simp
    | true =>
      simp only [if_true, Option.bind_eq_bind, Option.bind_some, Bool.true_and]
      rw [ih hq]
      split <;> simp

/-- What it reads is what is read with the registries, or nothing. -/
theorem Agrees.readItem (h : r.Agrees core) {item : List UInt8} {v : List ArgValue × List (Int32 × AttrData)}
    (hv : P8.readItem core item = some v) :
    r.readItem item =
      if (r.args (LogItemDat.decode item).hash).isSome && v.2.all (fun x => (r.attrType x.1).isSome) then some v else none := by
  unfold P8.readItem at hv
  unfold Receiver.readItem
  simp only [Option.bind_eq_bind, Option.bind_eq_some_iff] at hv
  obtain ⟨d, hd, p, hp, q, hq, x, hx, hv⟩ := hv
  dsimp only
  split at hv
  · rename_i hrest
    cases hv
    cases ht : r.args (LogItemDat.decode item).hash with
    | none => rfl
    | some types =>
      obtain ⟨d', hd', rfl⟩ := h.args _ _ ht
      rw [hd] at hd'
      cases hd'
      simp only [Option.bind_eq_bind, Option.bind_some, Option.isSome_some, Bool.true_and, hp, hq, hrest, h.readAttrs _ hx]
      split <;> simp
  · cases hv

/-- The record of an accepted call is told or missed. -/
theorem Agrees.told (h : r.Agrees core) {hash : CStr → UInt32 → UInt64} {a : Accepted} {item : List UInt8}
    (hread : ReadsBack hash core a item) : r.Told hash a item := by
  obtain ⟨d, hd, hitem⟩ := hread.values
  have hreads : r.readItem item = if r.has hash a then
      some (argValues a.call.args 0 d.args, (registered a.core.attrDescs (a.call.attrs.getD [])).map attrValue) else none := by
    have hreads := h.readItem hitem
    rw [hread.hash_eq, List.all_map] at hreads
    exact hreads
  refine ⟨fun hhas => ?_, fun hhas => ?_⟩
  · obtain ⟨types, htypes⟩ := Option.isSome_iff_exists.mp (Bool.and_eq_true_iff.mp hhas).1
    obtain ⟨d', hd', rfl⟩ := h.args _ _ htypes
    rw [hd] at hd'
    cases hd'
    exact ⟨d.args, htypes, hreads.trans (if_pos hhas)⟩
  · rw [hreads, hhas]
    rfl

/-- What a receiver knows it knows behind further entries, too. -/
theorem has_ofEntries_mono {entries entries' : List (List UInt8)} (h : entries <+: entries') {hash : CStr → UInt32 → UInt64}
    {a : Accepted} (hhas : (ofEntries entries).has hash a = true) : (ofEntries entries').has hash a = true := by
  have hfirst : ∀ {α : Type} (tell : SvcEntry → Option α), (firstOf tell entries).isSome = true →
      (firstOf tell entries').isSome = true := by
    intro α tell hsome
    obtain ⟨more, rfl⟩ := h
    rw [firstOf, List.findSome?_append, Option.isSome_or]
    rw [firstOf] at hsome
    rw [hsome, Bool.true_or]
  rw [has, Bool.and_eq_true_iff, List.all_eq_true] at hhas ⊢
  exact ⟨hfirst _ hhas.1, fun p hp => hfirst _ (hhas.2 p hp)⟩

end Receiver

namespace Session

variable {W B F : Type} [DecidableEq W] [DecidableEq B] {hash : CStr → UInt32 → UInt64} {ops : FileOps F}
  {contents : F → List UInt8} {writes : F → List Write} {s s' : Session W B F} {metrics : W → Bool} {threadId : W → UInt32}

/-- A receiver of what the sink was given of the service stream so far. -/
def told (s : Session W B F) : Receiver := Receiver.ofEntries ((svcWalk s.svc.sent.flatten).getD [])

/-- The worker takes buffers of the writer over: it moves the ready queue, or pulls the writer. -/
def takes (s : Session W B F) (w : W) : SessionEv W B → Bool
  | .worker _ _ =>
    match s.pc with
    | .ready => s.ready.any fun x => x.writer == w
    | .pull (u :: _) => u == w
    | _ => false
  | _ => false

variable (hash) in
/-- What the worker takes over can be read with what the sink was given before. -/
def TakesTold (s : Session W B F) (ev : SessionEv W B) (_ : Except Halt (Session W B F)) : Prop :=
  ∀ x ∈ s.accepted, s.takes x.1 ev = true → x.2.log?.all (s.told.has hash) = true

omit [DecidableEq B] in
instance TakesTold.decidable {ev : SessionEv W B} {r : Except Halt (Session W B F)} : Decidable (TakesTold hash s ev r) :=
  inferInstanceAs (Decidable (∀ x ∈ s.accepted, s.takes x.1 ev = true → x.2.log?.all (s.told.has hash) = true))

omit [DecidableEq W] [DecidableEq B] in
/-- The service stream is cut into the entries of descriptors that were made. -/
theorem Inv.told_eq (h : s.Inv metrics threadId) :
    ∃ xs, xs ⊆ s.svc.created ∧ xs ⊆ s.svc.written ∧ s.svc.sent.flatten = (xs.map fun x => x.entry.bytes).flatten ∧
      s.told = Receiver.ofEntries (xs.map fun x => x.entry.bytes) := by
  obtain ⟨xs, hpre, hbytes, -⟩ := h.svc.sent_entries
  have hwalk := h.svc.walk_entries hpre.subset
  refine ⟨xs, fun x hx => ?_, hpre.subset, ?_, ?_⟩
  · rw [h.svc.accounted.mem_iff]
    exact List.mem_append_left _ (List.mem_append_left _ (hpre.subset hx))
  · rw [hbytes, SvcSys.entryBytes, List.flatMap_def]
  · rw [told, hbytes, hwalk, Option.getD_some]

/-- The service stream only goes on. -/
theorem sent_first {ev : SessionEv W B} (hs : s.step hash ops ev = .ok s') : s.svc.sent <+: s'.svc.sent := by
  cases step_cases hs with
  | service ev svc hclient hstep =>
    rw [(service_ofClient hclient hstep).2.2]
  | worker signal grown s' hw =>
    cases hw with
    | svc svc hpc hmove =>
      obtain ⟨-, hmove⟩ := when_eq_ok.mp hmove
      cases hmove
      exact List.prefix_refl _
    | writeSvc sink ok svc svc' hpc hsink hwrite hrecycle =>
      obtain ⟨-, hwrite⟩ := when_eq_ok.mp hwrite
      cases hwrite
      obtain ⟨-, hrecycle⟩ := when_eq_ok.mp hrecycle
      cases hrecycle
      exact List.prefix_append _ _
    | poll hpc hbusy => rw [s.dropsOnly_pollStep.same]
    | _ => exact List.prefix_refl _
  | _ => exact List.prefix_refl _

/-- A receiver goes on knowing what it knows. -/
theorem told_mono (h : s.Inv metrics threadId) {ev : SessionEv W B} (hs : s.step hash ops ev = .ok s') {a : Accepted}
    (hhas : s.told.has hash a = true) : s'.told.has hash a = true := by
  obtain ⟨xs, -, hxs, hbytes, htold⟩ := h.told_eq
  have h' := h.step hs
  obtain ⟨xs', -, hxs', hbytes', htold'⟩ := h'.told_eq
  have hmore : (xs.map fun x => x.entry.bytes).flatten <+: (xs'.map fun x => x.entry.bytes).flatten := by
    rw [← hbytes, ← hbytes']
    exact (sent_first hs).flatten
  have hfirst := SelfSized.first_of_flatten (by decide) (h.svc.says_entries hxs) (h'.svc.says_entries hxs') hmore
  rw [htold] at hhas
  rw [htold']
  exact Receiver.has_ofEntries_mono hfirst hhas

variable {p p' : Placed W}

/-- The records the worker has taken over can be read with what the sink was given. -/
def AllTold (hash : CStr → UInt32 → UInt64) (s : Session W B F) (p : Placed W) : Prop :=
  ∀ x ∈ p.out ++ p.next, ∀ a, x.item = .log a → s.told.has hash a = true

omit [DecidableEq B] in
/-- What is on the buffers handed over was accepted. -/
theorem Places.call_mem (h : s.Places hash p) {x : Laid W} (hx : x ∈ p.out ++ p.next ++ p.queued) : x.call ∈ s.accepted := by
  have hmem : x.call ∈ ofSource Prod.fst x.writer s.accepted := by
    rw [h.accepted x.writer]
    exact List.mem_append_left _ (List.mem_map_of_mem (mem_ofSource.mpr ⟨hx, rfl⟩))
  exact (mem_ofSource.mp hmem).1

/-- Only the worker goes on in its cycle, and it accepts nothing. -/
theorem worker_of_pc {ev : SessionEv W B} (hs : s.step hash ops ev = .ok s') (hpc : s'.pc ≠ s.pc) :
    (∃ signal grown, ev = .worker signal grown) ∧ s'.accepted = s.accepted := by
  cases step_cases hs with
  | worker signal grown s' hw =>
    refine ⟨⟨signal, grown, rfl⟩, ?_⟩
    cases hw with
    | poll _ _ => rw [s.dropsOnly_pollStep.same]
    | _ => rfl
  | _ => exact absurd rfl hpc

/-- A step that takes over what is told leaves all told. -/
theorem AllTold.step (h : s.AllTold hash p) (hi : s.Inv metrics threadId) (hplaces : s.Places hash p)
    (hplaces' : s'.Places hash p') (honward : s.Onward s' p p') {ev : SessionEv W B} (hs : s.step hash ops ev = .ok s')
    (htakes : TakesTold hash s ev (.ok s')) : s'.AllTold hash p' := by
  intro x hx a ha
  refine told_mono hi hs ?_
  have hcall' : x.call ∈ s'.accepted := hplaces'.call_mem (List.mem_append_left _ hx)
  -- an item the worker takes over is of a writer whose buffers it takes
  have hnew : s'.pc ≠ s.pc → (∀ signal grown, s.takes x.writer (.worker signal grown : SessionEv W B) = true) →
      s.told.has hash a = true := by
    intro hpc htaken
    obtain ⟨⟨signal, grown, rfl⟩, haccepted⟩ := worker_of_pc hs hpc
    have hall := htakes x.call (haccepted ▸ hcall') (htaken signal grown)
    have hlog : x.call.2.log? = some a := by rw [Laid.call, ha, Item.log?]
    rwa [hlog, Option.all_some] at hall
  rcases honward.taken x hx with hold | ⟨hpc, hpc', hqueued⟩ | ⟨ws, hpc, hpc'⟩
  · exact h x hold a ha
  · refine hnew (by simp [hpc, hpc']) fun signal grown => ?_
    have hready : ∃ y ∈ s.ready, y.writer = x.writer := by
      by_contra hnone
      exact hplaces.ready.no_items (fun y hy heq => hnone ⟨y, hy, heq⟩) x hqueued rfl
    simpa [takes, hpc, List.any_eq_true] using hready
  · refine hnew ?_ fun signal grown => ?_
    · rw [hpc, hpc']
      intro heq
      have hlen := congrArg List.length (CyclePc.pull.inj heq)
      simp at hlen
    · simp [takes, hpc]

end Session

end P8
