import Mathlib.Data.List.Find
import Mathlib.Data.List.Infix
import P8.Log.Sizes
import P8.Service.Stream

/-!
# Call sites: one descriptor for every source line

Any number of log writers of one core, each with its own `mo_desc_map`, send records in any order and are pulled. The descriptor a
record is encoded with is found under the hash of its file and line: in the writer's map, or in the core's, or it is made from the
call and serialized once. Only `send` asks the core for a log descriptor.

What is said of a record is said of its bytes, as the call has left them on the buffers of its writer or, where it gave the record
up, on those it gave back (`written`). A call that writes outside its buffer is a matter of the writer alone: here it goes on with
the memory behind the buffer not looked at, and nothing is said of its bytes.
-/

namespace P8

open Bytes Framing

section

variable {hash : CStr → UInt32 → UInt64} {core core' : Core} {l l' : Log} {env : SendEnv} {c : Call}

/-- The descriptor `d` of a call whose source line has the hash `h`: the registered one, or one made from the call and
registered, where none was. -/
inductive Found (core : Core) (h : UInt64) (c : Call) : Core → LogDesc → Prop where
  | known (d : LogDesc) (hd : core.logDescs h = some d) : Found core h c core d
  | made (d : LogDesc) (core' : Core) (hnone : core.logDescs h = none)
      (hcore : core' = { core with logDescs := fun k => if k = h then some d else core.logDescs k })
      (hhash : d.hash = h) (hformat : d.format = c.format) (hargs : d.args = parseFormatString logMaxArgs c.format) :
      Found core h c core' d

/-- A lookup only adds to the registry. -/
theorem Found.grows {h : UInt64} {d : LogDesc} (hf : Found core h c core' d) :
    core.Grows core' := by
  cases hf with
  | known d hd => exact Core.Grows.refl _
  | made d core' hnone hcore hhash hformat hargs =>
    subst hcore
    refine ⟨List.prefix_refl _, fun k e he => ?_⟩
    have hne : k ≠ h := by
      rintro rfl
      rw [hnone] at he
      cases he
    simp [hne, he]

/-- A descriptor that was found is a registered one. -/
theorem Found.registered {h : UInt64} {d : LogDesc} (hf : Found core h c core' d) : core'.logDescs h = some d := by
  cases hf with
  | known d hd => exact hd
  | made d core' hnone hcore hhash hformat hargs => simp [hcore]

/-- A lookup changes the core's registry only where it finds a descriptor, and then as `Found` says. -/
theorem lookupDesc_found {od : Option LogDesc} (hdescs : ∀ h d, l.descMap h = some d → core.logDescs h = some d)
    {h : UInt64} (hl : l.lookupDesc env core h c = (l', core', od)) :
    match od with
    | none => core' = core
    | some d => Found core h c core' d := by
  unfold Log.lookupDesc at hl
  cases hm : l.descMap h with
  | some d =>
    rw [hm] at hl
    cases hl
    exact .known d (hdescs h d hm)
  | none =>
    rw [hm] at hl
    unfold Core.resolveLogDesc at hl
    cases hc : core.logDescs h with
    | some d =>
      rw [hc] at hl
      cases hl
      exact .known d hc
    | none =>
      rw [hc] at hl
      cases halloc : env.descAlloc with
      | false =>
        simp only [halloc] at hl
        cases hl
        rfl
      | true =>
        simp only [halloc] at hl
        cases hl
        exact .made _ _ hc rfl rfl rfl rfl

variable (hash env c) in
/-- What `send` does to the core's registry before it writes anything. -/
theorem prepare_found (h : l.Inv core) :
    match l.prepare hash core env c with
    | .error o => o.core = core
    | .ok p => Found core (hash c.file c.line) c p.core p.desc := by
  rw [Log.prepare]
  by_cases hlevel : c.level < l.minLevel core c
  · rw [if_pos hlevel]
  rw [if_neg hlevel]
  by_cases hatt : (!l.attached) = true
  · rw [if_pos hatt]
  rw [if_neg hatt]
  obtain ⟨hpinv, -⟩ := parkFull_spec h
  obtain ⟨l₁, delivered, ob, ht⟩ : ∃ l₁ delivered ob, l.parkFull.takeBuffer env = (l₁, delivered, ob) := ⟨_, _, _, rfl⟩
  obtain ⟨hinv₁, -⟩ := takeBuffer_spec hpinv ht
  rw [ht]
  cases ob with
  | none => rfl
  | some b =>
    dsimp only
    obtain ⟨l₂, core₂, od, hl⟩ : ∃ l₂ core₂ od,
        l₁.lookupDesc env core (hash c.file c.line) c = (l₂, core₂, od) := ⟨_, _, _, rfl⟩
    have hfound := lookupDesc_found hinv₁.descs hl
    rw [hl]
    cases od with
    | none => exact hfound
    | some d => exact hfound

end

/-! ## The bytes of a record -/

/-- The bytes a call of `send` has put behind those on the buffers of its writer `l`, be it that it has given them back. -/
def Sent.written (l : Log) (o : Sent) : List UInt8 :=
  (stream ((o.delivered ++ o.log.bufs ++ o.released.reverse).map DataBuf.frame)).drop (stream (l.bufs.map DataBuf.frame)).length

/-- The bytes of a call's arguments, fetched and encoded as an argument list says. -/
def Call.argBytes (c : Call) (args : List LogVarg) : List UInt8 := payload (argsPieces c.args 0 args)

/-- The bytes of a record: in the header is the hash `h`, and behind the header are the arguments of the call as the argument list
has them, as far as they were written; if the call returned true all of them, and the header has their size. -/
structure EncodedWith (h : UInt64) (args : List LogVarg) (c : Call) (result : Bool) (bs : List UInt8) : Prop where
  hash_eq : (LogItemDat.decode bs).hash = h
  begun : (bs.drop sizeofLogItemDat).take (c.argBytes args).length <+: c.argBytes args
  whole : result = true → c.argBytes args <+: bs.drop sizeofLogItemDat ∧
    (LogItemDat.decode bs).argsSize = UInt16.ofNat (c.argBytes args).length

section

variable {hash : CStr → UInt32 → UInt64} {core : Core} {l : Log} {env : SendEnv} {c : Call}

/-- A record that was begun is encoded with the descriptor found for it, be it finished or given up. -/
theorem send_encodes (h : l.Inv core) (hc : core.Sound) {p : Prepared} (hp : l.prepare hash core env c = .ok p) {o : Sent}
    (ho : l.send hash core env c = .ok o) : EncodedWith p.desc.hash p.desc.args c o.outcome.result (o.written l) := by
  have hcases := send_cases hash env c h hc
  rw [ho] at hcases
  cases hcases with
  | idle o hp' hi =>
    rw [hp] at hp'
    cases hp'
  | accepted p' l' g gap tp hp' hb hroom hf =>
    rw [hp] at hp'
    cases hp'
    have hstream := LogSys.stream_accepted (s := ⟨l, core, [], [], []⟩) hb hf
    simp only [LogSys.frames, LogSys.after, List.nil_append, itemOf, List.append_assoc] at hstream
    have hbytes : Sent.written l ⟨l', p.core, p.delivered, [], .accepted⟩ =
        (finalHdr p.log env p.core.attrDescs p.desc c g).encode ++ (c.argBytes p.desc.args ++
          (payload (attrsPieces p.core.attrDescs (c.attrs.getD [])) ++ gap)) := by
      rw [Sent.written, List.reverse_nil, List.append_nil, hstream, List.drop_left]
      rfl
    rw [hbytes]
    refine ⟨?_, ?_, fun _ => ⟨?_, ?_⟩⟩
    · rw [LogItemDat.decode_encode]
      rfl
    · rw [List.drop_left' (LogItemDat.length_encode _), List.take_left]
    · rw [List.drop_left' (LogItemDat.length_encode _)]
      exact List.prefix_append _ _
    · rw [LogItemDat.decode_encode]
      rfl
  | abandoned p' l' released hp' hb hroom hd =>
    rw [hp] at hp'
    cases hp'
    obtain ⟨hdr, xs, hhash, hxs, hreleased⟩ := hd.released
    have hstream := LogSys.stream_begins (s := ⟨l, core, [], [], []⟩) hb
    simp only [LogSys.frames, List.nil_append] at hstream
    have hbytes : Sent.written l ⟨l', p.core, p.delivered, released, .abandoned⟩ = hdr.encode ++ xs := by
      have hall : stream ((p.delivered ++ l'.bufs ++ released.reverse).map DataBuf.frame) =
          stream (l.bufs.map DataBuf.frame) ++ (hdr.encode ++ xs) := by
        rw [hd.bufs_eq, List.map_append, stream_append, hreleased, hstream, List.append_assoc, List.append_assoc]
      rw [Sent.written, hall, List.drop_left]
    rw [hbytes]
    refine ⟨?_, ?_, fun hres => by cases hres⟩
    · rw [LogItemDat.decode_encode]
      exact hhash
    · rw [List.drop_left' (LogItemDat.length_encode _)]
      -- what was written is a beginning of the arguments, or the arguments and more
      rw [bodyPieces, payload_append] at hxs
      have htake := hxs.take (c.argBytes p.desc.args).length
      rw [Call.argBytes, List.take_left] at htake
      exact htake

end

/-! ## Many writers -/

/-- The log descriptor of a descriptor to be transmitted. -/
def SvcDesc.log? : SvcDesc → Option LogDesc
  | .log d => some d
  | _ => none

/-- A record that was begun: its writer and its call, the bytes the call has written, and what it has returned. A call that writes
outside its buffer does not get that far. -/
structure SiteRecord (W : Type) where
  writer : W
  call : Call
  bytes : Option (List UInt8)
  result : Bool

/-- The record of a call on the writer `l`. -/
def SiteRecord.of {W : Type} (w : W) (c : Call) (l : Log) : Except Fault Sent → SiteRecord W
  | .ok o => ⟨w, c, some (o.written l), o.outcome.result⟩
  | .error _ => ⟨w, c, none, false⟩

/-- The record of a call is about that call. -/
@[simp] theorem SiteRecord.of_call {W : Type} (w : W) (c : Call) (l : Log) (out : Except Fault Sent) :
    (SiteRecord.of w c l out).call = c := by
  cases out <;> rfl

/-- The hash of a record's source line. -/
def SiteRecord.site {W : Type} (hash : CStr → UInt32 → UInt64) (r : SiteRecord W) : UInt64 := hash r.call.file r.call.line

/-- A core with its service stream, its log writers, and the records they have begun, in their order. -/
structure SiteSys (B W : Type) where
  svc : SvcSys B
  logs : W → Log
  records : List (SiteRecord W)

/-- The steps: a call of `send` by a writer, a pull of a writer, and every other step of the registries and the service stream. -/
inductive SiteEv (B W : Type) where
  | send (w : W) (env : SendEnv) (c : Call)
  | pull (w : W)
  | service (ev : SvcEv B)

/-- The registries with what a call of `send` made of `core`, and the log descriptor it has to transmit. -/
def Registries.withDescs (regs : Registries) (core : Core) (h : UInt64) : Registered Unit :=
  ⟨{ regs with core := core }, (), if (regs.core.logDescs h).isNone then (core.logDescs h).map .log else none⟩

/-- The descriptor a call of `send` makes is well formed and registered. -/
theorem Found.good {regs : Registries} (hsound : regs.core.Sound) {h : UInt64} {c : Call} {core : Core} {d : LogDesc}
    (hf : Found regs.core h c core d) : (regs.withDescs core h).Good regs := by
  have hgrows : regs.Grows (regs.withDescs core h).regs :=
    ⟨hf.grows, fun m hm => ⟨m, hm, rfl, rfl⟩, List.prefix_refl _⟩
  cases hf with
  | known d hd => exact ⟨hgrows, hsound, fun x hx => by simp [Registries.withDescs, hd] at hx⟩
  | made d core hnone hcore hhash hformat hargs =>
    subst hcore
    have hlen : ArgList logMaxArgs d.args := by
      rw [hargs]
      exact parseFormatString_slot _ _
    refine ⟨hgrows, fun k e he => ?_, fun x hx => ?_⟩
    · simp only [Registries.withDescs] at he
      split at he
      · rename_i hk
        cases he
        exact ⟨hhash.trans hk.symm, hlen⟩
      · exact hsound k e he
    · simp only [Registries.withDescs, hnone, Option.isNone_none, if_true, Option.map_some, Option.mem_def,
        Option.some.injEq] at hx
      subst hx
      exact ⟨hlen.length_le, by simp [SvcDesc.RegisteredIn, Registries.withDescs, hhash]⟩

/-- A step of the service stream that is not a call of `resolve_log_desc`. -/
def SvcEv.NotResolve {B : Type} : SvcEv B → Prop
  | .resolveLogDesc _ _ _ _ _ _ => False
  | _ => True

instance {B : Type} (ev : SvcEv B) : Decidable ev.NotResolve :=
  match ev with
  | .resolveLogDesc _ _ _ _ _ _ => isFalse id
  | .attrRegister _ _ _ => isTrue trivial
  | .registerModule _ _ _ _ => isTrue trivial
  | .registerMtk _ _ => isTrue trivial
  | .serialize _ _ => isTrue trivial
  | .move => isTrue trivial
  | .writeService => isTrue trivial
  | .recycle => isTrue trivial
  | .use _ _ => isTrue trivial

namespace SiteSys

variable {B W : Type} [DecidableEq B] [DecidableEq W] (hash : CStr → UInt32 → UInt64)

/-- A core and its writers right after their construction. -/
def init (heap : B → Mem) (threadId : W → UInt32) : SiteSys B W := ⟨SvcSys.init heap, fun w => Log.init true (threadId w), []⟩

/-- A call of `send` that begins a record. -/
def begun (s : SiteSys B W) (w : W) (env : SendEnv) (c : Call) (p : Prepared) : SiteSys B W where
  svc := s.svc.register (s.svc.regs.withDescs p.core (hash c.file c.line))
  logs := Function.update s.logs w
    (match (s.logs w).send hash s.svc.regs.core env c with
    | .ok o => o.log
    | .error .outOfBounds => p.log)
  records := s.records ++ [.of w c (s.logs w) ((s.logs w).send hash s.svc.regs.core env c)]

/-- One step. -/
def step (s : SiteSys B W) : SiteEv B W → Except Halt (SiteSys B W)
  | .send w env c =>
    match (s.logs w).prepare hash s.svc.regs.core env c with
    | .error o => .ok { s with logs := Function.update s.logs w o.log }
    | .ok p => .ok (s.begun hash w env c p)
  | .pull w => .ok { s with logs := Function.update s.logs w (s.logs w).pull.1 }
  | .service ev => when ev.NotResolve ((s.svc.step ev).map (fun svc => { s with svc := svc }))

/-- A run of steps. -/
def run (s : SiteSys B W) (evs : List (SiteEv B W)) : Except Halt (SiteSys B W) := Runs.run (step hash) s evs

/-! ## The invariant -/

section

omit [DecidableEq B] [DecidableEq W]

variable {svc svc' : SvcSys B} {core core' : Core} {h : UInt64} {c : Call} {d : LogDesc}

/-- Attributes leave the log descriptors as they are. -/
theorem attrRegister_descs (regs : Registries) (alloc : Bool) (name : Option CStr) (type : AttrType) :
    (regs.attrRegister alloc name type).regs.core.logDescs = regs.core.logDescs ∧
      (regs.attrRegister alloc name type).transmit.toList.filterMap SvcDesc.log? = [] := by
  have hcases := Registries.attrRegister_cases regs.core alloc name type
  unfold Registries.attrRegister
  generalize regs.core.attrRegister alloc name type = r at hcases ⊢
  cases hcases with
  | created n hn hne hmap => exact ⟨rfl, by simp [SvcDesc.log?]⟩
  | _ => exact ⟨rfl, by simp⟩

/-- Modules leave the core as it is. -/
theorem registerModule_descs (regs : Registries) (alloc : Bool) (name : Option CStr) (verbosity : Level) (handle : Bool) :
    (regs.registerModule alloc name verbosity handle).regs.core = regs.core ∧
      (regs.registerModule alloc name verbosity handle).transmit.toList.filterMap SvcDesc.log? = [] := by
  have hcases := Registries.registerModule_cases regs alloc name verbosity handle
  generalize regs.registerModule alloc name verbosity handle = r at hcases ⊢
  cases hcases with
  | _ => exact ⟨rfl, rfl⟩

/-- Metrics leave the core as it is. -/
theorem registerMtk_descs (regs : Registries) (alloc : Bool) (base : Option MtkBase) :
    (regs.registerMtk alloc base).regs.core = regs.core ∧
      (regs.registerMtk alloc base).transmit.toList.filterMap SvcDesc.log? = [] := by
  have hcases := Registries.registerMtk_cases regs alloc base
  generalize regs.registerMtk alloc base = r at hcases ⊢
  cases hcases with
  | _ => exact ⟨rfl, rfl⟩

end

/-- Only `resolve_log_desc` touches the log descriptors. -/
theorem service_step {svc svc' : SvcSys B} {ev : SvcEv B} (hev : ev.NotResolve) (hs : svc.step ev = .ok svc') :
    svc.regs.core.Grows svc'.regs.core ∧ svc'.regs.core.logDescs = svc.regs.core.logDescs ∧
      svc'.created.filterMap SvcDesc.log? = svc.created.filterMap SvcDesc.log? := by
  cases ev with
  | attrRegister alloc name type =>
    cases hs
    obtain ⟨hdescs, hlog⟩ := attrRegister_descs svc.regs alloc (name.map Subtype.val) type
    exact ⟨Core.grows_attrRegister _ _ _ _, hdescs, by
      rw [SvcSys.register, List.filterMap_append, hlog, List.append_nil]⟩
  | registerModule alloc name verbosity handle =>
    cases hs
    obtain ⟨hcore, hlog⟩ := registerModule_descs svc.regs alloc (name.map Subtype.val) verbosity handle
    rw [SvcSys.register, hcore, List.filterMap_append, hlog, List.append_nil]
    exact ⟨Core.Grows.refl _, rfl, rfl⟩
  | registerMtk alloc base =>
    cases hs
    obtain ⟨hcore, hlog⟩ := registerMtk_descs svc.regs alloc base
    rw [SvcSys.register, hcore, List.filterMap_append, hlog, List.append_nil]
    exact ⟨Core.Grows.refl _, rfl, rfl⟩
  | resolveLogDesc _ _ _ _ _ _ => exact hev.elim
  | serialize i fresh =>
    obtain ⟨x, -, -, rfl⟩ := SvcSys.serialize_step hs
    exact ⟨Core.Grows.refl _, rfl, rfl⟩
  | move | writeService | recycle | use _ _ =>
    obtain ⟨-, hs⟩ := when_eq_ok.mp hs
    cases hs
    exact ⟨Core.Grows.refl _, rfl, rfl⟩

/-- A record is encoded with the descriptor `d`: the one the core has for the hash of its source line, which is that in its
header. -/
structure Uses (core : Core) (r : SiteRecord W) (d : LogDesc) : Prop where
  registered : core.logDescs (r.site hash) = some d
  hash_eq : d.hash = r.site hash
  encoded : ∀ bs ∈ r.bytes, EncodedWith d.hash d.args r.call r.result bs
  left : r.result = true → r.bytes.isSome

omit [DecidableEq B] [DecidableEq W] in
variable {hash} in
/-- A record keeps its descriptor while registries grow. -/
theorem Uses.grows {core core' : Core} {r : SiteRecord W} {d : LogDesc} (h : Uses hash core r d) (hg : core.Grows core') :
    Uses hash core' r d := ⟨hg.descs _ _ h.registered, h.hash_eq, h.encoded, h.left⟩

/-- The invariant: no writer knows a descriptor the core does not have, the records are encoded with the registered descriptors,
each of which was transmitted once and has the format of the first record begun at its source line. -/
structure Inv (s : SiteSys B W) : Prop where
  svc : s.svc.Inv
  logs : ∀ w, (s.logs w).Inv s.svc.regs.core
  records : ∀ r ∈ s.records, ∃ d, Uses hash s.svc.regs.core r d
  unique : ((s.svc.created.filterMap SvcDesc.log?).map (·.hash)).Nodup
  first : ∀ h d, s.svc.regs.core.logDescs h = some d →
    ∃ f, s.records.find? (fun r => r.site hash == h) = some f ∧ d.format = f.call.format ∧
      d.args = parseFormatString logMaxArgs f.call.format

omit [DecidableEq B] [DecidableEq W] in
theorem inv_init (heap : B → Mem) (threadId : W → UInt32) : (init heap threadId).Inv hash where
  svc := SvcSys.inv_init heap
  logs := fun w => Log.inv_init _ _ _
  records := fun _ hr => (by cases hr)
  unique := List.nodup_nil
  first := fun _ _ hd => (by cases hd)

variable {hash} {s s' : SiteSys B W}

omit [DecidableEq B] [DecidableEq W] in
/-- A writer's state after a call of `send` that began a record fits the registry the call left. -/
theorem Inv.log_after (h : s.Inv hash) {w : W} {env : SendEnv} {c : Call} {p : Prepared}
    (hp : (s.logs w).prepare hash s.svc.regs.core env c = .ok p) :
    Log.Inv p.core (match (s.logs w).send hash s.svc.regs.core env c with
      | .ok o => o.log
      | .error .outOfBounds => p.log) := by
  have hb := prepare_spec hash env c (h.logs w) h.svc.sound
  have hcases := send_cases hash env c (h.logs w) h.svc.sound
  rw [hp] at hb
  cases ho : (s.logs w).send hash s.svc.regs.core env c with
  | error f => exact hb.inv
  | ok o =>
    rw [ho] at hcases
    cases hcases with
    | idle o hp' _ =>
      rw [hp] at hp'
      cases hp'
    | accepted p' l' g gap tp hp' _ _ hf =>
      rw [hp] at hp'
      cases hp'
      exact hf.inv
    | abandoned p' l' released hp' _ _ hd =>
      rw [hp] at hp'
      cases hp'
      exact hd.inv

omit [DecidableEq B] [DecidableEq W] in
/-- A descriptor is transmitted when none with its hash was. -/
theorem Inv.unique_begun (h : s.Inv hash) {c : Call} {core : Core} {d : LogDesc}
    (hf : Found s.svc.regs.core (hash c.file c.line) c core d) :
    (((s.svc.register (s.svc.regs.withDescs core (hash c.file c.line))).created.filterMap SvcDesc.log?).map (·.hash)).Nodup := by
  cases hf with
  | known d hd =>
    have hnone : (s.svc.regs.withDescs s.svc.regs.core (hash c.file c.line)).transmit = none := by
      simp [Registries.withDescs, hd]
    rw [SvcSys.register, hnone]
    simpa using h.unique
  | made d core hnone hcore hhash hformat hargs =>
    have hsome : (s.svc.regs.withDescs core (hash c.file c.line)).transmit = some (.log d) := by
      simp [Registries.withDescs, hnone, hcore]
    rw [SvcSys.register, hsome]
    simp only [Option.toList_some, List.filterMap_append, List.map_append]
    refine List.nodup_append.mpr ⟨h.unique, by simp [SvcDesc.log?], ?_⟩
    intro k hk k' hk'
    simp only [SvcDesc.log?, List.filterMap_cons, List.filterMap_nil, List.map_cons, List.map_nil, List.mem_singleton] at hk'
    rw [hk', hhash]
    rintro rfl
    -- a descriptor transmitted under this hash would be registered under it
    obtain ⟨e, he, heq⟩ := List.mem_map.mp hk
    obtain ⟨x, hx, hlog⟩ := List.mem_filterMap.mp he
    cases x with
    | log e' =>
      cases hlog
      have hreg : s.svc.regs.core.logDescs e.hash = some e := (h.svc.formed _ hx).2
      rw [heq, hnone] at hreg
      cases hreg
    | attr _ => cases hlog
    | mod _ => cases hlog
    | mtk _ _ _ _ => cases hlog

omit [DecidableEq B] [DecidableEq W] in
/-- A registered descriptor has the format of the first record begun at its source line, also when a record is added. -/
theorem Inv.first_begun (h : s.Inv hash) {r : SiteRecord W} {core : Core} {e : LogDesc}
    (hf : Found s.svc.regs.core (r.site hash) r.call core e) {k : UInt64} {d : LogDesc} (hd : core.logDescs k = some d) :
    ∃ f, (s.records ++ [r]).find? (fun r => r.site hash == k) = some f ∧
      d.format = f.call.format ∧ d.args = parseFormatString logMaxArgs f.call.format := by
  have hold : ∀ k d, s.svc.regs.core.logDescs k = some d →
      ∃ f, (s.records ++ [r]).find? (fun r => r.site hash == k) = some f ∧
        d.format = f.call.format ∧ d.args = parseFormatString logMaxArgs f.call.format := by
    intro k d hd
    obtain ⟨f, hfind, hformat, hargs⟩ := h.first k d hd
    exact ⟨f, by rw [List.find?_append, hfind, Option.some_or], hformat, hargs⟩
  cases hf with
  | known e _ => exact hold k d hd
  | made e core hnone hcore hhash hformat hargs =>
    by_cases hk : k = r.site hash
    · subst hk
      simp only [hcore, if_true] at hd
      cases hd
      have hnew : s.records.find? (fun r' => r'.site hash == r.site hash) = none := by
        rw [List.find?_eq_none]
        intro r' hr' heq
        obtain ⟨d', hd'⟩ := h.records r' hr'
        have hreg := hd'.registered
        rw [beq_iff_eq.mp heq, hnone] at hreg
        cases hreg
      refine ⟨r, ?_, hformat, hargs⟩
      rw [List.find?_append, hnew]
      simp
    · simp only [hcore, if_neg hk] at hd
      exact hold k d hd

omit [DecidableEq B] [DecidableEq W] in
/-- The record of a call that got so far is encoded with the descriptor found. -/
theorem Inv.uses_begun (h : s.Inv hash) {w : W} {env : SendEnv} {c : Call} {p : Prepared}
    (hp : (s.logs w).prepare hash s.svc.regs.core env c = .ok p) :
    Uses hash p.core (.of w c (s.logs w) ((s.logs w).send hash s.svc.regs.core env c)) p.desc := by
  have hb := prepare_spec hash env c (h.logs w) h.svc.sound
  rw [hp] at hb
  have hdesc : p.core.logDescs (hash c.file c.line) = some p.desc := hb.desc
  have hhash : p.desc.hash = hash c.file c.line := (hb.sound _ _ hdesc).1
  cases ho : (s.logs w).send hash s.svc.regs.core env c with
  | error f => exact ⟨hdesc, hhash, fun bs hbs => (by cases hbs), fun hres => (by cases hres)⟩
  | ok o =>
    refine ⟨hdesc, hhash, fun bs hbs => ?_, fun _ => rfl⟩
    cases hbs
    exact send_encodes (h.logs w) h.svc.sound hp ho

omit [DecidableEq B] in
/-- A call that begins a record keeps the invariant. -/
theorem Inv.begun (h : s.Inv hash) {w : W} {env : SendEnv} {c : Call} {p : Prepared}
    (hp : (s.logs w).prepare hash s.svc.regs.core env c = .ok p) : (s.begun hash w env c p).Inv hash := by
  have hfound := prepare_found hash env c (h.logs w)
  rw [hp] at hfound
  have hf : Found s.svc.regs.core (hash c.file c.line) c p.core p.desc := hfound
  refine ⟨h.svc.register (hf.good h.svc.sound), fun u => ?_, fun r hr => ?_, ?_, fun k d hd => ?_⟩
  · show Log.Inv p.core (Function.update s.logs w _ u)
    by_cases hu : u = w
    · subst hu
      rw [Function.update_self]
      exact h.log_after hp
    · rw [Function.update_of_ne hu]
      exact (h.logs u).grows hf.grows
  · rcases List.mem_append.mp hr with hr | hr
    · obtain ⟨d, hd⟩ := h.records r hr
      exact ⟨d, hd.grows hf.grows⟩
    · rw [List.mem_singleton.mp hr]
      exact ⟨p.desc, h.uses_begun hp⟩
  · exact h.unique_begun hf
  · refine h.first_begun (e := p.desc) ?_ hd
    rw [SiteRecord.site, SiteRecord.of_call]
    exact hf

/-- Every step keeps the invariant. -/
theorem Inv.step (h : s.Inv hash) {ev : SiteEv B W} (hs : s.step hash ev = .ok s') : s'.Inv hash := by
  cases ev with
  | send w env c =>
    rw [SiteSys.step] at hs
    cases hp : (s.logs w).prepare hash s.svc.regs.core env c with
    | ok p =>
      rw [hp] at hs
      cases hs
      exact h.begun hp
    | error o =>
      rw [hp] at hs
      cases hs
      have hidle := prepare_spec hash env c (h.logs w) h.svc.sound
      have hcore := prepare_found hash env c (h.logs w)
      rw [hp] at hidle hcore
      refine ⟨h.svc, fun u => ?_, h.records, h.unique, h.first⟩
      show Log.Inv _ (Function.update s.logs w o.log u)
      by_cases hu : u = w
      · subst hu
        rw [Function.update_self]
        have hinv : o.log.Inv o.core := hidle.inv
        rw [show o.core = s.svc.regs.core from hcore] at hinv
        exact hinv
      · rw [Function.update_of_ne hu]
        exact h.logs u
  | pull w =>
    cases hs
    refine ⟨h.svc, fun u => ?_, h.records, h.unique, h.first⟩
    show Log.Inv _ (Function.update s.logs w (s.logs w).pull.1 u)
    by_cases hu : u = w
    · subst hu
      rw [Function.update_self]
      exact (h.logs u).pull
    · rw [Function.update_of_ne hu]
      exact h.logs u
  | service ev =>
    obtain ⟨hev, hs⟩ := when_eq_ok.mp hs
    cases hsvc : s.svc.step ev with
    | error e =>
      rw [hsvc] at hs
      cases hs
    | ok svc =>
      rw [hsvc] at hs
      cases hs
      obtain ⟨hgrows, hdescs, hcreated⟩ := service_step hev hsvc
      refine ⟨h.svc.step hsvc, fun w => (h.logs w).grows hgrows, fun r hr => ?_, ?_, fun k d hd => ?_⟩
      · obtain ⟨d, hd⟩ := h.records r hr
        exact ⟨d, hd.grows hgrows⟩
      · show ((svc.created.filterMap SvcDesc.log?).map _).Nodup
        rw [hcreated]
        exact h.unique
      · exact h.first k d (by rw [← hdescs]; exact hd)

/-- The invariant along a run. -/
theorem Inv.run {evs : List (SiteEv B W)} (h : s.Inv hash) (hr : s.run hash evs = .ok s') : s'.Inv hash :=
  Runs.run_induction h (fun _ _ _ hi hs => hi.step hs) hr

/-! ## Agreement -/

/-- The entry of a log descriptor as it is received: the hash, and what a reader of a record needs. -/
structure LogEntry where
  hash : UInt64
  format : List UInt8
  args : List LogVarg

/-- The entry of a log descriptor, by its bytes. -/
def logEntryOf (known : List AttrDesc) (bytes : List UInt8) : Option LogEntry :=
  match decodeEntry known bytes with
  | some (.log _ h _ _ format args, _) => some ⟨h, format, args⟩
  | _ => none

/-- The entries of log descriptors in a service stream. -/
def logEntries (known : List AttrDesc) (entries : List (List UInt8)) : List LogEntry := entries.filterMap (logEntryOf known)

/-- What a receiver gets of a log descriptor. -/
def sentLog (d : LogDesc) : LogEntry := ⟨d.hash, svcStr d.format, d.args⟩

omit [DecidableEq B] [DecidableEq W] in
/-- What an entry tells of a call site is what was sent of it; other entries tell of none. -/
theorem logEntryOf_entry {known : List AttrDesc} {x : SvcDesc} (h : x.WellFormed known) :
    logEntryOf known x.entry.bytes = x.log?.map sentLog := by
  obtain ⟨k, hk⟩ := decode_entry h
  rw [logEntryOf, hk]
  cases x <;> rfl

omit [DecidableEq W] in
/-- The log descriptors in the stream are those written to it. -/
theorem Inv.logEntries_eq (h : s.Inv hash) {delivered pending : List (List (List UInt8))}
    (hstream : s.svc.ServiceStream delivered pending) :
    logEntries s.svc.regs.core.attrDescs (delivered ++ pending).flatten =
      (s.svc.written.filterMap SvcDesc.log?).map sentLog := by
  rw [logEntries, hstream.entries_eq, List.filterMap_map, List.map_filterMap]
  refine List.filterMap_congr (fun x hx => ?_)
  have hcreated : x ∈ s.svc.created :=
    h.svc.accounted.mem_iff.mpr (List.mem_append_left _ (List.mem_append_left _ hx))
  exact logEntryOf_entry (h.svc.formed x hcreated).1

omit [DecidableEq B] [DecidableEq W] in
/-- A log descriptor written is the registered one. -/
theorem Inv.registered_of_written (h : s.Inv hash) {d : LogDesc} (hd : d ∈ s.svc.written.filterMap SvcDesc.log?) :
    s.svc.regs.core.logDescs d.hash = some d := by
  obtain ⟨x, hx, hlog⟩ := List.mem_filterMap.mp hd
  have hcreated : x ∈ s.svc.created :=
    h.svc.accounted.mem_iff.mpr (List.mem_append_left _ (List.mem_append_left _ hx))
  cases x with
  | log e =>
    cases hlog
    exact (h.svc.formed _ hcreated).2
  | attr _ => cases hlog
  | mod _ => cases hlog
  | mtk _ _ _ _ => cases hlog

omit [DecidableEq B] [DecidableEq W] in
/-- A log descriptor is written at most once for a hash. -/
theorem Inv.nodup_written (h : s.Inv hash) : ((s.svc.written.filterMap SvcDesc.log?).map (·.hash)).Nodup := by
  have hperm := (h.svc.accounted.filterMap SvcDesc.log?).map (·.hash)
  have hnd := hperm.nodup_iff.mp h.unique
  rw [List.append_assoc, List.filterMap_append, List.map_append] at hnd
  exact (List.nodup_append.mp hnd).1

/-- Writers and receiver agree on the descriptors of records. -/
structure Agreement (hash : CStr → UInt32 → UInt64) (s : SiteSys B W) (sent : List LogEntry) : Prop where
  /-- A record is encoded with the descriptor the core has for the hash of its source line, and this hash is in its header. -/
  registered : ∀ r ∈ s.records, ∃ d, Uses hash s.svc.regs.core r d
  /-- Records with one hash in their headers are encoded with one descriptor. -/
  agreed : ∀ r ∈ s.records, ∀ r' ∈ s.records, ∀ bs ∈ r.bytes, ∀ bs' ∈ r'.bytes,
    (LogItemDat.decode bs).hash = (LogItemDat.decode bs').hash → ∃ d, Uses hash s.svc.regs.core r d ∧ Uses hash s.svc.regs.core r' d
  /-- At most one entry is sent for a hash. -/
  once : (sent.map (·.hash)).Nodup
  /-- The entry sent for the hash in a record's header has the argument types the record was encoded with. -/
  carried : ∀ r ∈ s.records, ∀ bs ∈ r.bytes, ∀ e ∈ sent, e.hash = (LogItemDat.decode bs).hash →
    EncodedWith e.hash e.args r.call r.result bs

omit [DecidableEq W] in
/-- An entry sent for the hash of a record's source line is that of the record's descriptor. -/
theorem Inv.sent_eq (h : s.Inv hash) {delivered pending : List (List (List UInt8))}
    (hstream : s.svc.ServiceStream delivered pending) {r : SiteRecord W} {d : LogDesc} (hd : Uses hash s.svc.regs.core r d)
    {e : LogEntry} (he : e ∈ logEntries s.svc.regs.core.attrDescs (delivered ++ pending).flatten) (heq : e.hash = r.site hash) :
    e = sentLog d := by
  rw [h.logEntries_eq hstream] at he
  obtain ⟨d', hd', rfl⟩ := List.mem_map.mp he
  have hreg := h.registered_of_written hd'
  have hhash : d'.hash = r.site hash := heq
  rw [hhash, hd.registered] at hreg
  cases hreg
  rfl

/-- Encoder and receiver agree: whatever writers of a core send in whatever order, all records with one hash in their headers are
encoded with the descriptor of the core, at most one entry of the service stream is for it, and that has the argument types they
were encoded with. -/
theorem agreement (hash : CStr → UInt32 → UInt64) (heap : B → Mem) (threadId : W → UInt32) (evs : List (SiteEv B W))
    {s : SiteSys B W} (hr : (init heap threadId).run hash evs = .ok s) :
    ∃ delivered pending, s.svc.ServiceStream delivered pending ∧
      s.Agreement hash (logEntries s.svc.regs.core.attrDescs (delivered ++ pending).flatten) := by
  have h := (inv_init hash heap threadId).run hr
  obtain ⟨delivered, pending, hstream⟩ := h.svc.serviceStream
  refine ⟨delivered, pending, hstream, h.records, fun r hr r' hr' bs hbs bs' hbs' heq => ?_, ?_,
    fun r hr bs hbs e he heq => ?_⟩
  · obtain ⟨d, hd⟩ := h.records r hr
    obtain ⟨d', hd'⟩ := h.records r' hr'
    rw [(hd.encoded bs hbs).hash_eq, (hd'.encoded bs' hbs').hash_eq, hd.hash_eq, hd'.hash_eq] at heq
    have hreg := hd.registered
    rw [heq, hd'.registered] at hreg
    cases hreg
    exact ⟨d, hd, hd'⟩
  · rw [h.logEntries_eq hstream, List.map_map]
    exact h.nodup_written
  · obtain ⟨d, hd⟩ := h.records r hr
    have henc := hd.encoded bs hbs
    rw [henc.hash_eq, hd.hash_eq] at heq
    rw [h.sent_eq hstream hd he heq]
    exact henc

/-! ## The format of a call site -/

/-- Two calls on one source line. -/
def SameSite (c c' : Call) : Prop := c.file = c'.file ∧ c.line = c'.line

instance (c c' : Call) : Decidable (SameSite c c') := inferInstanceAs (Decidable (_ ∧ _))

/-- A record is encoded by the format of the call `f`: so has the core the descriptor for its hash, so are its bytes, and so says
the entry sent for the hash. -/
structure EncodedBy (hash : CStr → UInt32 → UInt64) (core : Core) (f : Call) (r : SiteRecord W) (sent : List LogEntry) : Prop where
  desc : ∃ d, core.logDescs (r.site hash) = some d ∧ d.format = f.format ∧ d.args = parseFormatString logMaxArgs f.format
  bytes : ∀ bs ∈ r.bytes, EncodedWith (r.site hash) (parseFormatString logMaxArgs f.format) r.call r.result bs
  sent_eq : ∀ e ∈ sent, e.hash = r.site hash → e.format = svcStr f.format ∧ e.args = parseFormatString logMaxArgs f.format

/-- Each log call is encoded by the format its source line was first logged with: if the hashes of the source lines differ, the
arguments of a record are fetched and encoded by the format of the first call on its line, and the entry sent for the hash in its
header carries that format. So every call is encoded by its own format exactly when all calls on a line have the same. -/
theorem encoded_by_first (hash : CStr → UInt32 → UInt64) (heap : B → Mem) (threadId : W → UInt32) (evs : List (SiteEv B W))
    {s : SiteSys B W} (hr : (init heap threadId).run hash evs = .ok s)
    (hinj : ∀ r ∈ s.records, ∀ r' ∈ s.records, r.site hash = r'.site hash → SameSite r.call r'.call) :
    ∃ delivered pending, s.svc.ServiceStream delivered pending ∧
      (∀ r ∈ s.records, ∃ f, s.records.find? (fun f => decide (SameSite f.call r.call)) = some f ∧
        EncodedBy hash s.svc.regs.core f.call r (logEntries s.svc.regs.core.attrDescs (delivered ++ pending).flatten)) ∧
      ((∀ r ∈ s.records, EncodedBy hash s.svc.regs.core r.call r
          (logEntries s.svc.regs.core.attrDescs (delivered ++ pending).flatten)) ↔
        ∀ r ∈ s.records, ∀ r' ∈ s.records, SameSite r.call r'.call → r.call.format = r'.call.format) := by
  have h := (inv_init hash heap threadId).run hr
  obtain ⟨delivered, pending, hstream⟩ := h.svc.serviceStream
  have hfirst : ∀ r ∈ s.records, ∃ f, s.records.find? (fun f => decide (SameSite f.call r.call)) = some f ∧
      EncodedBy hash s.svc.regs.core f.call r (logEntries s.svc.regs.core.attrDescs (delivered ++ pending).flatten) := by
    intro r hr
    obtain ⟨d, hd⟩ := h.records r hr
    obtain ⟨f, hfind, hformat, hargs⟩ := h.first _ _ hd.registered
    have hkey : ∀ f ∈ s.records, decide (SameSite f.call r.call) = (f.site hash == r.site hash) := by
      intro f hf
      rw [Bool.eq_iff_iff, decide_eq_true_eq, beq_iff_eq]
      exact ⟨fun ⟨hfile, hline⟩ => by rw [SiteRecord.site, SiteRecord.site, hfile, hline], hinj f hf r hr⟩
    refine ⟨f, by rw [List.find?_congr hkey]; exact hfind, ⟨d, hd.registered, hformat, hargs⟩, fun bs hbs => ?_,
      fun e he heq => ?_⟩
    · rw [← hargs, ← hd.hash_eq]
      exact hd.encoded bs hbs
    · rw [h.sent_eq hstream hd he heq]
      exact ⟨by rw [← hformat]; rfl, hargs⟩
  refine ⟨delivered, pending, hstream, hfirst, fun hown r hr r' hr' hsite => ?_, fun hsite r hr => ?_⟩
  · -- one descriptor is registered for both, and it has both formats
    obtain ⟨d, hreg, hformat, -⟩ := (hown r hr).desc
    obtain ⟨d', hreg', hformat', -⟩ := (hown r' hr').desc
    rw [SiteRecord.site, hsite.1, hsite.2] at hreg
    rw [SiteRecord.site, hreg] at hreg'
    cases hreg'
    exact hformat.symm.trans hformat'
  · obtain ⟨f, hfind, henc⟩ := hfirst r hr
    have hf := List.mem_of_find?_eq_some hfind
    have hfr : SameSite f.call r.call := by simpa using List.find?_some hfind
    have hformat := hsite f hf r hr hfr
    obtain ⟨hdesc, hbytes, hsent⟩ := henc
    rw [hformat] at hdesc hbytes hsent
    exact ⟨hdesc, hbytes, hsent⟩

/-- Two writers log on one source line, the first with the format `%d`, the second with `%s`; the line's descriptor is sent
between the two. -/
def twoFormats : List (SiteEv Nat Bool) :=
  [.send false LogSys.plenty (LogSys.plainCall [0x25, 0x64] (fun _ => LogSys.strArg [104])),
    .service (.serialize 0 (some 5)), .service .move, .service .writeService, .pull false,
    .send true LogSys.plenty (LogSys.textCall [104])]

/-- On this run both calls return true, and the second one's arguments are not laid out by its own format. -/
theorem twoFormats_run : ∃ s, (init (fun _ _ => 0) (fun _ => 7)).run LogSys.oneLine twoFormats = .ok s ∧
    s.records.map (·.result) = [true, true] ∧ s.svc.sent.length = 1 ∧
    (∀ r ∈ s.records, ∀ r' ∈ s.records, SameSite r.call r'.call) ∧
    ∃ r ∈ s.records, r.result = true ∧ ∃ bs ∈ r.bytes,
      ¬ r.call.argBytes (parseFormatString logMaxArgs r.call.format) <+: bs.drop sizeofLogItemDat := by
  obtain ⟨s, hr, hs⟩ := Runs.ok_of_any (x := (init (fun _ _ => 0) (fun _ => 7)).run LogSys.oneLine twoFormats)
    (p := fun s => decide (s.records.map (·.result) = [true, true] ∧ s.svc.sent.length = 1) &&
      s.records.all (fun r => s.records.all fun r' => decide (SameSite r.call r'.call)) &&
        s.records.any fun r => r.result && r.bytes.any fun bs => decide
          (¬ r.call.argBytes (parseFormatString logMaxArgs r.call.format) <+: bs.drop sizeofLogItemDat))
    (by decide +kernel)
  simp only [Bool.and_eq_true, decide_eq_true_eq, List.all_eq_true, List.any_eq_true, Option.any_eq_true] at hs
  obtain ⟨⟨⟨hresults, hsent⟩, hsame⟩, r, hmem, hresult, bs, hbs, hnot⟩ := hs
  exact ⟨s, hr, hresults, hsent, hsame, r, hmem, hresult, bs, hbs, hnot⟩

/-- On this run both records agree with the descriptor that was transmitted. -/
theorem agreement_twoFormats : ∃ s, (init (fun _ _ => 0) (fun _ => 7)).run LogSys.oneLine twoFormats = .ok s ∧
    s.records.map (·.result) = [true, true] ∧ s.svc.sent.length = 1 ∧
      ∃ delivered pending, s.svc.ServiceStream delivered pending ∧
        s.Agreement LogSys.oneLine (logEntries s.svc.regs.core.attrDescs (delivered ++ pending).flatten) := by
  obtain ⟨s, hr, hresults, hsent, -⟩ := twoFormats_run
  exact ⟨s, hr, hresults, hsent, agreement LogSys.oneLine _ _ twoFormats hr⟩

/-- On this run both are encoded by the format of the first. -/
theorem encoded_by_first_twoFormats : ∃ s, (init (fun _ _ => 0) (fun _ => 7)).run LogSys.oneLine twoFormats = .ok s ∧
    s.records.map (·.result) = [true, true] ∧ ∃ delivered pending, s.svc.ServiceStream delivered pending ∧
      (∀ r ∈ s.records, ∃ f, s.records.find? (fun f => decide (SameSite f.call r.call)) = some f ∧
        EncodedBy LogSys.oneLine s.svc.regs.core f.call r
          (logEntries s.svc.regs.core.attrDescs (delivered ++ pending).flatten)) ∧
      ((∀ r ∈ s.records, EncodedBy LogSys.oneLine s.svc.regs.core r.call r
          (logEntries s.svc.regs.core.attrDescs (delivered ++ pending).flatten)) ↔
        ∀ r ∈ s.records, ∀ r' ∈ s.records, SameSite r.call r'.call → r.call.format = r'.call.format) := by
  obtain ⟨s, hr, hresults, -, hsame, -⟩ := twoFormats_run
  exact ⟨s, hr, hresults, encoded_by_first LogSys.oneLine _ _ twoFormats hr fun r hr r' hr' _ => hsame r hr r' hr'⟩

/-- Where a source line is logged with two formats, a call is not encoded by its own: behind the header of the second record are
not its arguments as its format has them. -/
theorem encoded_by_own_false : ∃ s, (init (fun _ _ => 0) (fun _ => 7)).run LogSys.oneLine twoFormats = .ok s ∧
    ∃ r ∈ s.records, r.result = true ∧ ∃ bs ∈ r.bytes,
      ¬ r.call.argBytes (parseFormatString logMaxArgs r.call.format) <+: bs.drop sizeofLogItemDat := by
  obtain ⟨s, hr, -, -, -, hnot⟩ := twoFormats_run
  exact ⟨s, hr, hnot⟩

end SiteSys

end P8
