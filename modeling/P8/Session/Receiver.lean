import P8.Session.Files

/-!
# Receiver: what the two files are good for together

A receiver that has nothing but the two files takes from the service file the argument types of each source line and the type of
each attribute, and with them it reads the records of the data file. It needs the program's registries for nothing: where every
descriptor has come through, it reads in each record what its call passed (`received_records`).
-/

namespace P8

open Bytes Framing Sources

/-! ## The receiver -/

/-- An attribute type by its number. -/
def AttrType.ofCode? (code : UInt8) : Option AttrType := [AttrType.str, .f64, .i64, .u64].find? fun t => t.code == code

/-- The argument types an entry gives for a hash. -/
def SvcEntry.argsOf? (h : UInt64) : SvcEntry → Option (List LogVarg)
  | .log _ k _ _ _ args => if k = h then some args else none
  | _ => none

/-- The type an entry gives for an attribute. -/
def SvcEntry.typeOf? (id : Int32) : SvcEntry → Option AttrType
  | .attr i code _ => if i = id then AttrType.ofCode? code else none
  | _ => none

/-- What a receiver has learned from the service stream. -/
structure Receiver where
  args : UInt64 → Option (List LogVarg)
  attrType : Int32 → Option AttrType

namespace Receiver

/-- The first of some entries that tells something. -/
def firstOf {α : Type} (tell : SvcEntry → Option α) (entries : List (List UInt8)) : Option α :=
  entries.findSome? fun bs => (decodeEntry [] bs).bind fun p => tell p.1

/-- A receiver of these entries. -/
def ofEntries (entries : List (List UInt8)) : Receiver where
  args h := firstOf (SvcEntry.argsOf? h) entries
  attrType id := firstOf (SvcEntry.typeOf? id) entries

/-- An attribute, by the type the receiver has for it. -/
def readAttr (r : Receiver) (bs : List UInt8) : Option ((Int32 × AttrData) × List UInt8) := do
  let (id, bs) ← takeBytes 4 bs
  let type ← r.attrType (readId id)
  if type = .str then
    let (str, bs) ← readString bs
    return ((readId id, .str str), bs)
  else
    let (num, bs) ← takeBytes 8 bs
    return ((readId id, .num type (UInt64.ofNat (leVal num))), bs)

/-- So many attributes. -/
def readAttrs (r : Receiver) : Nat → List UInt8 → Option (List (Int32 × AttrData) × List UInt8)
  | 0, bs => some ([], bs)
  | n + 1, bs => do
    let (v, bs) ← r.readAttr bs
    let (vs, bs) ← r.readAttrs n bs
    return (v :: vs, bs)

/-- A record: its arguments by the types the receiver has for its hash, and its attributes. -/
def readItem (r : Receiver) (item : List UInt8) : Option (List ArgValue × List (Int32 × AttrData)) := do
  let h := LogItemDat.decode item
  let types ← r.args h.hash
  let (args, bs) ← takeBytes h.argsSize.toNat (item.drop sizeofLogItemDat)
  let (vs, rest) ← readArgs types args
  let (as, _) ← r.readAttrs h.attrsCount.toNat bs
  if rest = [] then return (vs, as) else none

/-- In the record of an accepted call the receiver reads the values of the call. -/
def Finds (r : Receiver) (hash : CStr → UInt32 → UInt64) (a : Accepted) (item : List UInt8) : Prop :=
  ∃ types, r.args (hash a.call.file a.call.line) = some types ∧
    r.readItem item = some (argValues a.call.args 0 types, (registered a.core.attrDescs (a.call.attrs.getD [])).map attrValue)

/-! ## A receiver that knows a core's registries -/

/-- The receiver knows of every source line and every attribute what a reader with the registries knows. -/
structure Knows (r : Receiver) (core : Core) : Prop where
  args : ∀ h d, core.logDescs h = some d → r.args h = some d.args
  attrs : ∀ id d, knownAttr core.attrDescs id = some d → r.attrType id = some d.type

variable {r : Receiver} {core : Core}

/-- A receiver that knows the registries reads an attribute as they do. -/
theorem Knows.readAttr (h : r.Knows core) {bs : List UInt8} {v : (Int32 × AttrData) × List UInt8}
    (hv : P8.readAttr core.attrDescs bs = some v) : r.readAttr bs = some v := by
  unfold P8.readAttr at hv
  unfold Receiver.readAttr
  cases hid : takeBytes 4 bs with
  | none =>
    rw [hid] at hv
    cases hv
  | some p =>
    rw [hid] at hv
    simp only [Option.bind_eq_bind, Option.bind_some] at hv ⊢
    cases hd : knownAttr core.attrDescs (readId p.1) with
    | none =>
      rw [hd] at hv
      cases hv
    | some d =>
      rw [hd] at hv
      rw [h.attrs _ d hd]
      exact hv

/-- It reads all attributes of a record so. -/
theorem Knows.readAttrs (h : r.Knows core) (n : Nat) {bs : List UInt8} {v : List (Int32 × AttrData) × List UInt8}
    (hv : P8.readAttrs core.attrDescs n bs = some v) : r.readAttrs n bs = some v := by
  induction n generalizing bs v with
  | zero => exact hv
  | succ n ih =>
    rw [P8.readAttrs] at hv
    rw [Receiver.readAttrs]
    simp only [Option.bind_eq_bind, Option.bind_eq_some_iff] at hv ⊢
    obtain ⟨p, hp, q, hq, hv⟩ := hv
    exact ⟨p, h.readAttr hp, q, ih hq, hv⟩

/-- It reads all that is read with the registries. -/
theorem Knows.readItem (h : r.Knows core) {item : List UInt8} {v : List ArgValue × List (Int32 × AttrData)}
    (hv : P8.readItem core item = some v) : r.readItem item = some v := by
  unfold P8.readItem at hv
  unfold Receiver.readItem
  simp only [Option.bind_eq_bind, Option.bind_eq_some_iff] at hv ⊢
  obtain ⟨d, hd, p, hp, q, hq, x, hx, hv⟩ := hv
  exact ⟨d.args, h.args _ d hd, p, hp, q, hq, x, h.readAttrs _ hx, hv⟩

section

variable {α : Type} {known : List AttrDesc} {xs : List SvcDesc} {tell : SvcEntry → Option α} {v : α}

end

end Receiver

/-! ## Every descriptor is created -/

/-- Every source line and every attribute registered has had its descriptor made, and an attribute's id is its position. -/
structure SvcSys.Complete {B : Type} (s : SvcSys B) : Prop where
  descs : ∀ h d, s.regs.core.logDescs h = some d → SvcDesc.log d ∈ s.created
  attrs : ∀ d ∈ s.regs.core.attrDescs, SvcDesc.attr d ∈ s.created
  ids : ∀ i d, s.regs.core.attrDescs[i]? = some d → d.id = Int32.ofNat i

namespace SvcSys.Complete

variable {B : Type} {s s' : SvcSys B}

theorem init (heap : B → Mem) : (SvcSys.init heap).Complete :=
  ⟨fun _ _ hd => (by cases hd), fun _ hd => (by cases hd), fun _ _ hd => (by cases hd)⟩

/-- A registration that leaves the registries of the core as they are. -/
theorem register {α : Type} (h : s.Complete) {r : Registered α} (hdescs : r.regs.core.logDescs = s.regs.core.logDescs)
    (hattrs : r.regs.core.attrDescs = s.regs.core.attrDescs) : (s.register r).Complete where
  descs k d hd := List.mem_append_left _ (h.descs k d (hdescs ▸ hd))
  attrs d hd := List.mem_append_left _ (h.attrs d (hattrs ▸ hd))
  ids i d hd := h.ids i d (hattrs ▸ hd)

/-- An attribute is registered. -/
theorem attrRegister (h : s.Complete) (alloc : Bool) (name : Option CStr) (type : AttrType) :
    (s.register (s.regs.attrRegister alloc name type)).Complete := by
  have hcases := Registries.attrRegister_cases s.regs.core alloc name type
  unfold Registries.attrRegister
  generalize s.regs.core.attrRegister alloc name type = r at hcases ⊢
  cases hcases with
  | created n hn hne hmap =>
    refine ⟨fun k d hd => List.mem_append_left _ (h.descs k d hd), fun d hd => ?_, fun i d hd => ?_⟩
    · rcases List.mem_append.mp hd with hd | hd
      · exact List.mem_append_left _ (h.attrs d hd)
      · rw [List.mem_singleton.mp hd]
        simp [SvcSys.register]
    · have hd : (s.regs.core.attrDescs ++ [⟨Int32.ofNat s.regs.core.attrDescs.length, type, n⟩])[i]? = some d := hd
      rcases Nat.lt_trichotomy i s.regs.core.attrDescs.length with hlt | heq | hgt
      · rw [List.getElem?_append_left hlt] at hd
        exact h.ids i d hd
      · rw [heq, List.getElem?_concat_length] at hd
        cases hd
        rw [heq]
      · rw [List.getElem?_eq_none (by rw [List.length_append, List.length_singleton]; omega)] at hd
        cases hd
  | _ => exact h.register rfl rfl

/-- A source line is looked up. -/
theorem found (h : s.Complete) {k : UInt64} {c : Call} {core : Core} {d : LogDesc} (hf : Found s.regs.core k c core d) :
    (s.register (s.regs.withDescs core k)).Complete := by
  cases hf with
  | known d hd => exact h.register rfl rfl
  | made d core hnone hcore hhash hformat hargs =>
    subst hcore
    refine ⟨fun k' d' hd' => ?_, fun d' hd' => List.mem_append_left _ (h.attrs d' hd'), h.ids⟩
    simp only [SvcSys.register, Registries.withDescs] at hd'
    split at hd'
    · cases hd'
      refine List.mem_append_right _ ?_
      simp [Registries.withDescs, hnone]
    · exact List.mem_append_left _ (h.descs k' d' hd')

/-- A call of `send` asks for its source line, if it gets that far. -/
theorem send (h : s.Complete) {hash : CStr → UInt32 → UInt64} {l : Log} {env : SendEnv} {c : Call} (hl : l.Inv s.regs.core)
    (hc : s.regs.core.Sound) {o : Sent} (ho : l.send hash s.regs.core env c = .ok o) :
    (s.register (s.regs.withDescs o.core (hash c.file c.line))).Complete := by
  have hfound := prepare_found hash env c hl
  have hcases := send_cases hash env c hl hc
  rw [ho] at hcases
  cases hcases with
  | idle o hp hi =>
    rw [hp] at hfound
    have hsame : o.core = s.regs.core := hfound
    rw [hsame]
    exact h.register rfl rfl
  | accepted p l' g gap tp hp hb hroom hf =>
    rw [hp] at hfound
    exact h.found hfound
  | abandoned p l' released hp hb hroom hd =>
    rw [hp] at hfound
    exact h.found hfound

end SvcSys.Complete

/-! ## The service file -/

/-- The bytes given to `write_service` are the entries of the first descriptors written, and of all where no buffer waits. -/
theorem SvcSys.Inv.sent_entries {B : Type} {s : SvcSys B} (h : s.Inv) :
    ∃ xs, xs <+: s.written ∧ s.sent.flatten = entryBytes xs ∧ (s.waiting = [] → xs = s.written) := by
  obtain ⟨out, now, hf⟩ := h.filled
  refine ⟨out.flatten, ?_, ?_, fun hnone => ?_⟩
  · rw [hf.written_eq, List.flatten_append]
    exact List.prefix_append _ _
  · rw [hf.sent_eq, entryBytes, List.flatMap_def, List.map_flatten, List.flatten_flatten, List.map_map]
    exact congrArg List.flatten (List.map_congr_left fun xs _ => List.flatMap_def)
  · have hnow : now = [] := List.map_eq_nil_iff.mp (hf.waiting_eq.symm.trans hnone)
    rw [hf.written_eq, hnow, List.map_nil, List.append_nil]

/-- Entries say their sizes. -/
theorem SvcSys.Inv.says_entries {B : Type} {s : SvcSys B} (h : s.Inv) {xs : List SvcDesc} (hxs : xs ⊆ s.written) :
    ∀ bs ∈ xs.map fun x => x.entry.bytes, SelfSized.Says svcSize sizeofSvcHdr bs := by
  intro bs hbs
  obtain ⟨x, hx, rfl⟩ := List.mem_map.mp hbs
  exact says_entry (h.fits x (hxs hx))

/-- The entries of descriptors that were written are cut. -/
theorem SvcSys.Inv.walk_entries {B : Type} {s : SvcSys B} (h : s.Inv) {xs : List SvcDesc} (hxs : xs ⊆ s.written) :
    svcWalk (entryBytes xs) = some (xs.map fun x => x.entry.bytes) := by
  rw [SvcSys.entryBytes, List.flatMap_def]
  exact SelfSized.cut_flatten (by decide) (h.says_entries hxs) (Nat.le_refl _)

namespace Session

variable {W B F : Type} [DecidableEq W] [DecidableEq B] {hash : CStr → UInt32 → UInt64} {ops : FileOps F}
  {contents : F → List UInt8} {writes : F → List Write} {hdr : Mem}
  {s s' : Session W B F} {metrics : W → Bool} {threadId : W → UInt32}

omit [DecidableEq W] [DecidableEq B] in
/-- The service file is cut into the entries of the first descriptors written, and of all where no buffer waits. -/
theorem Files.service (h : s.Files contents hdr) (hi : s.svc.Inv) :
    ∃ xs, xs <+: s.svc.written ∧ svcWalk (contents s.sink.svcFile) = some (xs.map fun x => x.entry.bytes) ∧
      (s.svc.waiting = [] → xs = s.svc.written) := by
  obtain ⟨xs, hpre, hbytes, hall⟩ := hi.sent_entries
  refine ⟨xs, hpre, ?_, hall⟩
  rw [h.svc, hbytes]
  exact hi.walk_entries hpre.subset

/-- The service file of a session, at any moment of any run: if the sink has dropped nothing, it is cut into the entries of the
first descriptors written, and each is decoded as one the program has registered. -/
theorem service_file (hops : ops.Appends contents writes) (heap : B → Mem) {sink : SinkFile F}
    (hfiles : contents sink.svcFile = [] ∧ contents sink.dataFile = []) (hdr : Mem) (metrics : W → Bool)
    (threadId : W → UInt32) {evs : List (SessionEv W B)}
    (hr : (init ops heap sink hdr metrics threadId).run hash ops evs = .ok s) (hdropped : s.sink.bytesDropped = 0) :
    ∃ xs, xs <+: s.svc.written ∧ svcWalk (contents s.sink.svcFile) = some (xs.map fun x => x.entry.bytes) ∧
      (s.svc.waiting = [] → xs = s.svc.written) ∧
      ∀ x ∈ xs, x.RegisteredIn s.svc.regs ∧
        ∃ e k, decodeEntry s.svc.regs.core.attrDescs x.entry.bytes = some (e, List.replicate k 0) ∧ SvcSys.Shows x e := by
  obtain ⟨hi, hkept⟩ := Runs.run_induction (P := fun s => s.Inv metrics threadId ∧ s.Kept contents hdr sink)
    ⟨inv_init ops heap sink hdr metrics threadId, kept_init hops heap sink hdr metrics threadId⟩
    (fun _ _ _ h hs => ⟨h.1.step hs, h.2.step hops h.1 hs⟩) hr
  obtain ⟨xs, hpre, hwalk, hall⟩ := (hkept.files hfiles hdropped).service hi.svc
  obtain ⟨delivered, pending, hstream⟩ := hi.svc.serviceStream
  exact ⟨xs, hpre, hwalk, hall, fun x hx => hstream.decoded x (hpre.subset hx)⟩

/-- The descriptor of `oneRecord` is found in the service file. -/
theorem service_file_oneRecord : ∃ s, oneWriter.run LogSys.oneLine ScriptFile.ops oneRecord = .ok s ∧
    svcWalk s.sink.svcFile.contents = some (s.svc.written.map fun x => x.entry.bytes) := by
  obtain ⟨s, hr, -, -, hdropped, -, hgiven, -⟩ := oneRecord_run
  obtain ⟨xs, -, hwalk, hall, -⟩ := service_file ScriptFile.appends (fun _ _ => 0) ⟨rfl, rfl⟩
    (fun _ => 0) (fun _ => false) (fun _ => 7) hr hdropped
  rw [hall hgiven.2.2] at hwalk
  exact ⟨s, hr, hwalk⟩

end Session

end P8
