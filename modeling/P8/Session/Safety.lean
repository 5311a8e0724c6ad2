import P8.Session.Streams

/-!
# Safety: every byte inside its buffer

Of one log writer `cursor_iff` says on which runs its cursor stays inside the current buffer. Here it is said of a session: on
exactly the runs whose log calls keep the alignment no step of anybody writes outside a buffer, every writer's cursor stays where
it may be, and no buffer, of data or of the service stream, is given to the sink with more bytes than it has.
-/

namespace P8

open Bytes Framing

namespace LogSys.CursorInv

variable {l : Log} {core core' : Core}

/-- A writer alone keeps its cursor while the registries grow. -/
theorem grows (h : (alone l core).CursorInv) (hg : core.Grows core') (hc : core'.Sound) : (alone l core').CursorInv :=
  ⟨⟨hc, h.inv.log.grows hg⟩, h.inside, h.aligned, h.sizes⟩

/-- A writer without buffers. -/
theorem of_empty (hinv : l.Inv core) (hc : core.Sound) (hbufs : l.bufs = []) : (alone l core).CursorInv := by
  have hnone : ¬ l.buffer.isSome := by
    rw [Log.bufs, List.append_eq_nil_iff, Option.toList_eq_nil_iff] at hbufs
    simp [hbufs.2]
  refine ⟨⟨hc, hinv⟩, fun hsome => absurd hsome hnone, fun hsome => absurd hsome hnone, fun b hb => ?_⟩
  have hb : b ∈ [] ++ l.bufs := hb
  rw [hbufs] at hb
  cases hb

end LogSys.CursorInv

instance LogSys.KeepsAlignment.decidable (hash : CStr → UInt32 → UInt64) (s : LogSys) :
    (op : Op) → (out : Except Fault LogSys) → Decidable (KeepsAlignment hash s op out)
  | .send env c, _ =>
    match h : s.log.prepare hash s.core env c with
    | .error _ => isTrue (by rw [KeepsAlignment, h]; trivial)
    | .ok p =>
      have : Decidable (EndsParked p.core.attrDescs p.desc c p.log.bufUsed) := inferInstanceAs (Decidable (_ ∧ _))
      decidable_of_iff ((∃ i, i < rotations p.core.attrDescs p.desc c p.log.bufUsed ∧ env.acquire i = none) ∨
          8 ∣ unusedBytes p.core.attrDescs p.desc c p.log.bufUsed ∨ EndsParked p.core.attrDescs p.desc c p.log.bufUsed)
        (by rw [KeepsAlignment, h])
  | .pull, _ | .attrRegister _ _ _, _ | .resolveLogDesc _ _ _ _ _ _, _ | .setVerbosity _, _ => isTrue trivial

namespace TlsWriter

/-- A log writer whose cursor is safe; the cursor of a metric writer always is. -/
def CursorInv (core : Core) : TlsWriter → Prop
  | .log l => (LogSys.alone l core).CursorInv
  | .mtk _ => True

variable {core core' : Core} {metrics : Bool} {threadId : UInt32} {t : TlsWriter}

/-- Registries that grow leave a cursor where it is. -/
theorem CursorInv.grows (h : t.CursorInv core) (hg : core.Grows core') (hc : core'.Sound) : t.CursorInv core' := by
  cases t with
  | log l => exact LogSys.CursorInv.grows h hg hc
  | mtk m => trivial

/-- The reading of the counters moves no cursor. -/
theorem CursorInv.pullDropped (h : t.CursorInv core) : t.pullDropped.1.CursorInv core := by
  cases t with
  | log l =>
    exact ⟨⟨h.inv.sound, ⟨h.inv.log.cache, h.inv.log.descs, h.inv.log.cur⟩⟩, h.inside, h.aligned, h.sizes⟩
  | mtk m => trivial

/-- A writer that has no buffers. -/
theorem Inv.cursor_of_empty (h : t.Inv core metrics threadId) (hc : core.Sound) (hbufs : t.bufs = []) : t.CursorInv core := by
  cases h with
  | log l hkind hthread hinv hst => exact LogSys.CursorInv.of_empty hinv hc hbufs
  | mtk m hkind hthread hinv hst hwhole hplain => trivial

/-- No buffer of a writer claims more bytes than a buffer has. -/
theorem Inv.sizes (h : t.Inv core metrics threadId) (hcursor : t.CursorInv core) : ∀ b ∈ t.bufs, b.hdr.size.toNat ≤ bufMax := by
  intro b hb
  cases h with
  | log l hkind hthread hinv hst => exact LogSys.CursorInv.sizes hcursor b hb
  | mtk m hkind hthread hinv hst hwhole hplain =>
    obtain ⟨items, hitems⟩ := hwhole b hb
    rw [hitems.size_eq]
    exact hitems.fits

end TlsWriter

namespace Session

variable {W B F : Type} [DecidableEq W] [DecidableEq B] {hash : CStr → UInt32 → UInt64} {ops : FileOps F}
  {s s' : Session W B F} {metrics : W → Bool} {threadId : W → UInt32}

/-- Every cursor is inside its buffer and a multiple of 8, and every buffer says a size it has. -/
structure Safe (s : Session W B F) : Prop where
  log : ∀ w l, s.tls w = .log l → l.buffer.isSome → l.bufUsed ≤ bufMax ∧ 8 ∣ l.bufUsed
  mtk : ∀ w m, s.tls w = .mtk m → m.bufUsed ≤ bufMax ∧ 8 ∣ m.bufUsed
  data : ∀ x ∈ s.sent, sizeofDataBufHdr ≤ muSize x.buf.image ∧ muSize x.buf.image ≤ bufMax
  service : ∀ b ∈ s.svc.waiting, b.used ≤ dataBufferSize

/-- A step that writes inside its buffers, and leaves cursors and sizes safe. -/
def StaysInside (_ : Session W B F) (_ : SessionEv W B) (out : Except Halt (Session W B F)) : Prop :=
  out ≠ .error .badAccess ∧ ∀ s', out = .ok s' → s'.Safe

variable (metrics threadId) in
/-- The invariant of a run whose log calls have kept the alignment so far. -/
structure Contained (s : Session W B F) : Prop where
  inv : s.Inv metrics threadId
  cursor : ∀ w, (s.tls w).CursorInv s.svc.regs.core
  sizes : ∀ x ∈ s.sent, x.buf.hdr.size.toNat ≤ bufMax

omit [DecidableEq W] [DecidableEq B] in
theorem contained_init (ops : FileOps F) (heap : B → Mem) (sink : SinkFile F) (hdr : Mem) (metrics : W → Bool)
    (threadId : W → UInt32) : (init ops heap sink hdr metrics threadId).Contained metrics threadId := by
  have hinv := inv_init ops heap sink hdr metrics threadId
  refine ⟨hinv, fun w => (hinv.tls w).cursor_of_empty hinv.svc.sound ?_, fun x hx => by cases hx⟩
  show (TlsWriter.init (metrics w) (threadId w)).bufs = []
  cases metrics w <;> rfl

omit [DecidableEq W] [DecidableEq B] in
/-- What is contained is safe. -/
theorem Contained.safe (h : s.Contained metrics threadId) : s.Safe where
  log := by
    intro w l htls hsome
    have hw := h.cursor w
    rw [htls] at hw
    exact ⟨LogSys.CursorInv.inside hw hsome, LogSys.CursorInv.aligned hw hsome⟩
  mtk := by
    intro w m htls
    have hw := h.inv.tls w
    rw [htls] at hw
    cases hw with
    | mtk m hkind hthread hinv hst hwhole hplain => exact ⟨hinv.used_le, Nat.dvd_of_mod_eq_zero hinv.aligned⟩
  data := by
    intro x hx
    rw [DataBuf.muSize_image]
    exact ⟨(h.inv.stamped x hx).counted, h.sizes x hx⟩
  service := by
    intro b hb
    obtain ⟨out, now, hf⟩ := h.inv.svc.filled
    rw [hf.waiting_eq] at hb
    obtain ⟨p, hp, rfl⟩ := List.mem_map.mp hb
    exact (hf.holds p hp).used_le

omit [DecidableEq B] in
/-- A writer is in another state. -/
theorem Contained.setTls (h : s.Contained metrics threadId) {w : W} {t : TlsWriter} (ht : t.CursorInv s.svc.regs.core) (u : W) :
    (Function.update s.tls w t u).CursorInv s.svc.regs.core := by
  by_cases hu : u = w
  · subst hu
    rw [Function.update_self]
    exact ht
  · rw [Function.update_of_ne hu]
    exact h.cursor u

omit [DecidableEq W] [DecidableEq B] in
/-- What a writer hands over. -/
theorem Contained.sizes_tls (h : s.Contained metrics threadId) {w : W} {bufs : List DataBuf} (hbufs : bufs = (s.tls w).bufs) :
    ∀ x ∈ bufs.map (Handed.mk w), x.buf.hdr.size.toNat ≤ bufMax := by
  intro x hx
  obtain ⟨b, hb, rfl⟩ := List.mem_map.mp hx
  rw [hbufs] at hb
  exact (h.inv.tls w).sizes (h.cursor w) b hb

omit [DecidableEq W] [DecidableEq B] in
/-- The statistics are outside the buffers. -/
theorem Contained.dropsOnly (h : s.Contained metrics threadId) (hs : s.DropsOnly s') : s'.Contained metrics threadId := by
  have hinv := h.inv.dropsOnly hs
  obtain ⟨htls, hsame⟩ := hs
  have hcore : s'.svc = s.svc := by rw [hsame]
  have hsent : s'.sent = s.sent := by
    rw [hsame]
    rfl
  refine ⟨hinv, fun w => ?_, hsent ▸ h.sizes⟩
  rw [hcore]
  rcases htls w with hw | hw
  · exact hw ▸ h.cursor w
  · exact hw ▸ (h.cursor w).pullDropped

/-- The worker hands on the buffers there are. -/
theorem Contained.workerStep (h : s.Contained metrics threadId) {signal grown : Bool} (hs : WorkerSteps ops s signal grown s') :
    s'.Contained metrics threadId := by
  have hinv := h.inv.workerStep hs
  cases hs with
  | svc svc hpc hmove =>
    obtain ⟨-, hmove⟩ := when_eq_ok.mp hmove
    cases hmove
    exact ⟨hinv, h.cursor, h.sizes⟩
  | writeSvc sink ok svc svc' hpc hsink hwrite hrecycle =>
    obtain ⟨-, hwrite⟩ := when_eq_ok.mp hwrite
    cases hwrite
    obtain ⟨-, hrecycle⟩ := when_eq_ok.mp hrecycle
    cases hrecycle
    exact ⟨hinv, h.cursor, h.sizes⟩
  | wait hpc hsignal | drain hpc | pulled hpc | recycle hpc => exact ⟨hinv, h.cursor, h.sizes⟩
  | poll hpc hbusy => exact h.dropsOnly s.dropsOnly_pollStep
  | ready hpc | flush sink ok hpc hidle hsink => exact ⟨hinv, h.cursor, fun x hx => h.sizes x (by simpa [sent] using hx)⟩
  | pull w ws hpc =>
    obtain ⟨hbufs, hempty⟩ := (s.tls w).pull_bufs
    have hcursor := (h.inv.tls w).pull.cursor_of_empty h.inv.svc.sound hempty
    refine ⟨hinv, h.setTls hcursor, fun x hx => ?_⟩
    have hx : x ∈ s.sent ∨ x ∈ (s.tls w).pull.2.map (Handed.mk w) := by
      simp only [sent, List.mem_append] at hx ⊢
      tauto
    exact hx.elim (h.sizes x) (h.sizes_tls hbufs x)

omit [DecidableEq B] in
/-- A call of `send` is one of the writer alone. -/
theorem Contained.send (h : s.Contained metrics threadId) {w : W} {l : Log} (htls : s.tls w = .log l) {env : SendEnv} {c : Call}
    (hkeeps : LogSys.KeepsAlignment hash (LogSys.alone l s.svc.regs.core) (.send env c)
      ((LogSys.alone l s.svc.regs.core).step hash (.send env c))) :
    ∃ o, l.send hash s.svc.regs.core env c = .ok o ∧ (env.pulled = false → (s.afterSend hash w c o).Contained metrics threadId) := by
  have hw : (LogSys.alone l s.svc.regs.core).CursorInv := by
    have hcursor := h.cursor w
    rw [htls] at hcursor
    exact hcursor
  obtain ⟨hiff, hkept⟩ := hw.send hash
  obtain ⟨s₁, hs₁, -⟩ := hiff.mpr hkeeps
  have hafter := hkept hkeeps s₁ hs₁
  rw [LogSys.step] at hs₁
  cases ho : (LogSys.alone l s.svc.regs.core).log.send hash (LogSys.alone l s.svc.regs.core).core env c with
  | error f =>
    rw [ho] at hs₁
    cases hs₁
  | ok o =>
    rw [ho] at hs₁
    cases hs₁
    refine ⟨o, ho, fun hpulled => ?_⟩
    have hinv := h.inv.send htls ho
    have halone : (LogSys.alone o.log o.core).CursorInv := by
      have hnone : o.delivered = [] := send_unpulled hpulled ho
      refine ⟨⟨hafter.inv.sound, hafter.inv.log⟩, hafter.inside, hafter.aligned, fun b hb => hafter.sizes b ?_⟩
      rw [LogSys.after, hnone]
      exact hb
    have hgrows : s.svc.regs.core.Grows o.core := (send_good hw.inv.log h.inv.svc.sound ho).grows.core
    refine ⟨hinv, fun u => ?_, h.sizes⟩
    show (Function.update s.tls w (.log o.log) u).CursorInv o.core
    by_cases hu : u = w
    · subst hu
      rw [Function.update_self]
      exact halone
    · rw [Function.update_of_ne hu]
      exact (h.cursor u).grows hgrows hafter.inv.sound

/-- Every step keeps the invariant, if a log call keeps the alignment. -/
theorem Contained.step (h : s.Contained metrics threadId) {ev : SessionEv W B}
    (hkeeps : OfCall (LogSys.KeepsAlignment hash) hash s ev) (hs : s.step hash ops ev = .ok s') :
    s'.Contained metrics threadId := by
  have hinv := h.inv.step hs
  cases step_cases hs with
  | service ev svc hclient hstep =>
    have hcore := (service_ofClient hclient hstep).1
    exact ⟨hinv, fun w => (h.cursor w).grows hcore hinv.svc.sound, h.sizes⟩
  | setVerbosity module verbosity =>
    have hcore := (s.svc.regs.grows_setVerbosity module verbosity).core
    exact ⟨hinv, fun w => (h.cursor w).grows hcore hinv.svc.sound, h.sizes⟩
  | attach _ _ _ | registerWriter _ _ _ | unregister _ _ _ _ | release _ _ | coreRelease _ =>
    exact ⟨hinv, h.cursor, h.sizes⟩
  | pullDropped w hphase hsettle => exact h.dropsOnly (s.dropsOnly_pullDropped w _)
  | addDropped w stats hsettle => exact h.dropsOnly (s.dropsOnly_rest _ _ _)
  | poll hpc hidle => exact h.dropsOnly (s.dropsOnly_rest _ _ _)
  | send w module env c l o htls hphase hpulled hmodule ho =>
    obtain ⟨o', ho', hafter⟩ := h.send htls (hkeeps l htls ⟨hphase, hpulled, hmodule⟩)
    cases ho.symm.trans ho'
    exact hafter hpulled
  | emit w env id value m o htls hphase hpulled ho =>
    have hcursor : (TlsWriter.mtk o.mtk).CursorInv s.svc.regs.core := trivial
    exact ⟨hinv, h.setTls hcursor, h.sizes⟩
  | corePush w hphase =>
    obtain ⟨hbufs, hempty⟩ := (s.tls w).corePush_bufs
    have hcursor := (h.inv.tls w).corePush.cursor_of_empty h.inv.svc.sound hempty
    refine ⟨hinv, h.setTls hcursor, fun x hx => ?_⟩
    have hx : x ∈ s.sent ∨ x ∈ (s.tls w).corePush.2.map (Handed.mk w) := by
      have hall : x ∈ s.written ++ s.batch ++ (s.ready ++ (s.tls w).corePush.2.map (Handed.mk w)) := hx
      simp only [sent, List.mem_append] at hall ⊢
      tauto
    exact hx.elim (h.sizes x) (h.sizes_tls hbufs x)
  | worker signal grown s' hw => exact h.workerStep hw

omit [DecidableEq W] in
/-- The service stream's steps never fail but where they cannot be taken. -/
theorem svc_not_badAccess (svc : SvcSys B) (ev : SvcEv B) : svc.step ev ≠ .error .badAccess := by
  cases ev with
  | serialize i fresh =>
    dsimp only [SvcSys.step]
    split
    · simp
    · simp [when_eq_badAccess]
  | move | writeService | recycle => simp [SvcSys.step, when_eq_badAccess]
  | use b m => simp [SvcSys.step, when_eq_badAccess]
  | attrRegister _ _ _ | registerModule _ _ _ _ | registerMtk _ _ | resolveLogDesc _ _ _ _ _ _ => simp [SvcSys.step]

/-- The worker stays inside the array of its sink, and does not write to buffers. -/
theorem workerStep_not_badAccess {contents : F → List UInt8} {writes : F → List Write} (hops : ops.Appends contents writes)
    (s : Session W B F) (signal grown : Bool) : s.workerStep ops signal grown ≠ .error .badAccess := by
  unfold Session.workerStep
  split
  · simp [when_eq_badAccess]
  · cases hmove : s.svc.step .move with
    | ok svc => simp [Except.map]
    | error e =>
      rintro h
      cases h
      exact svc_not_badAccess _ _ hmove
  · obtain ⟨sink, hsink⟩ := writeBatch_ok hops .svc s.sink grown (s.moved.map fun b => ⟨b.buf, b.used⟩) (n := s.moved.length)
    have hsink : s.serviceSink ops grown = .ok sink := hsink
    unfold Session.writeService
    rw [hsink]
    cases hwrite : s.svc.step .writeService with
    | error e =>
      rintro h
      cases h
      exact svc_not_badAccess _ _ hwrite
    | ok svc =>
      cases hrecycle : svc.step .recycle with
      | error e =>
        rintro h
        simp only [bind, Except.bind, hrecycle] at h
        cases h
        exact svc_not_badAccess _ _ hrecycle
      | ok svc' =>
        intro h
        simp only [bind, Except.bind, hrecycle] at h
        cases h
  · simp
  · simp
  · simp
  · simp
  · obtain ⟨sink, hsink⟩ := writeBatch_ok hops .data s.sink grown (s.images.map fun buf => ⟨buf, muSize buf⟩)
      (n := s.images.length)
    have hsink : s.dataSink ops grown = .ok sink := hsink
    unfold Session.flushReady
    rw [hsink]
    split <;> simp [bind, Except.bind, pure, Except.pure]
  · simp
  · simp

/-- A log call that stays inside its buffers keeps the alignment. -/
theorem Contained.keeps (h : s.Contained metrics threadId) {ev : SessionEv W B}
    (hstays : StaysInside s ev (s.step hash ops ev)) : OfCall (LogSys.KeepsAlignment hash) hash s ev := by
  obtain ⟨hgood, hsafe⟩ := hstays
  cases ev with
  | send w module env c =>
    intro l htls hcond
    have hw : (LogSys.alone l s.svc.regs.core).CursorInv := by
      have hcursor := h.cursor w
      rw [htls] at hcursor
      exact hcursor
    refine (hw.send hash).1.mp ?_
    rw [LogSys.step]
    cases ho : (LogSys.alone l s.svc.regs.core).log.send hash (LogSys.alone l s.svc.regs.core).core env
        { c with module := s.svc.regs.moduleOf module } with
    | error f =>
      have ho : l.send hash s.svc.regs.core env { c with module := s.svc.regs.moduleOf module } = .error f := ho
      refine absurd ?_ hgood
      dsimp only [Session.step]
      rw [htls]
      dsimp only
      rw [ho]
      exact if_pos hcond
    | ok o =>
      have ho : l.send hash s.svc.regs.core env { c with module := s.svc.regs.moduleOf module } = .ok o := ho
      have hstep : s.step hash ops (.send w module env c) =
          .ok (s.afterSend hash w { c with module := s.svc.regs.moduleOf module } o) := by
        dsimp only [Session.step]
        rw [htls]
        dsimp only
        rw [ho]
        exact if_pos hcond
      have hlog := (hsafe _ hstep).log w o.log (Function.update_self w _ s.tls)
      have hnone := send_unpulled hcond.2.1 ho
      refine ⟨_, rfl, fun hsome => (hlog hsome).1, fun hsome => (hlog hsome).2, fun b hb => ?_⟩
      rw [LogSys.after, hnone] at hb
      cases hb
  | _ => trivial

/-- A step whose log call keeps the alignment writes nowhere else. -/
theorem Contained.not_badAccess {contents : F → List UInt8} {writes : F → List Write} (hops : ops.Appends contents writes)
    (h : s.Contained metrics threadId) {ev : SessionEv W B} (hkeeps : OfCall (LogSys.KeepsAlignment hash) hash s ev) :
    s.step hash ops ev ≠ .error .badAccess := by
  cases ev with
  | service ev =>
    intro hbad
    obtain ⟨-, hbad⟩ := when_eq_badAccess.mp hbad
    cases hs : s.svc.step ev with
    | ok svc =>
      rw [hs] at hbad
      cases hbad
    | error e =>
      rw [hs] at hbad
      cases hbad
      exact svc_not_badAccess _ _ hs
  | send w module env c =>
    dsimp only [Session.step]
    cases htls : s.tls w with
    | mtk m => simp
    | log l =>
      intro hbad
      obtain ⟨hcond, hbad⟩ := when_eq_badAccess.mp hbad
      obtain ⟨o, ho, -⟩ := h.send htls (hkeeps l htls hcond)
      rw [ho] at hbad
      cases hbad
  | emit w env id value =>
    dsimp only [Session.step]
    cases htls : s.tls w with
    | log l => simp
    | mtk m =>
      intro hbad
      obtain ⟨-, hbad⟩ := when_eq_badAccess.mp hbad
      have hw := h.inv.tls w
      rw [htls] at hw
      have hm : m.Inv := by
        cases hw with
        | mtk m hkind hthread hinv hst hwhole hplain => exact hinv
      obtain ⟨o, ho, -⟩ := emit_cases hm { env with mtkCount := s.svc.regs.getMtkCount } id value
      rw [ho] at hbad
      cases hbad
  | worker signal grown => exact workerStep_not_badAccess hops s signal grown
  | setVerbosity _ _ => simp [Session.step]
  | attach _ | registerWriter _ | corePush _ | release _ | coreRelease => simp [Session.step, when_eq_badAccess]
  | pullDropped _ | addDropped _ | unregister _ | poll =>
    dsimp only [Session.step]
    split <;> simp [when_eq_badAccess]

/-- A step from a state with the invariant stays inside its buffers exactly when a log call keeps the alignment. -/
theorem Contained.stays_iff {contents : F → List UInt8} {writes : F → List Write} (hops : ops.Appends contents writes)
    (h : s.Contained metrics threadId) (ev : SessionEv W B) :
    StaysInside s ev (s.step hash ops ev) ↔ OfCall (LogSys.KeepsAlignment hash) hash s ev :=
  ⟨h.keeps, fun hkeeps => ⟨h.not_badAccess hops hkeeps, fun _ hs => (h.step hkeeps hs).safe⟩⟩

/-- On a run of a session every byte is written inside its buffer, every cursor stays where it may be, and no buffer is given to
the sink with more bytes than it has, exactly when every log call keeps the alignment of its writer's cursor. -/
theorem contained_iff {contents : F → List UInt8} {writes : F → List Write} (hops : ops.Appends contents writes)
    (hash : CStr → UInt32 → UInt64) (heap : B → Mem) (sink : SinkFile F) (hdr : Mem) (metrics : W → Bool)
    (threadId : W → UInt32) (evs : List (SessionEv W B)) :
    Runs.Along (step hash ops) StaysInside (init ops heap sink hdr metrics threadId) evs ↔
      Runs.Along (step hash ops) (fun s ev _ => OfCall (LogSys.KeepsAlignment hash) hash s ev)
        (init ops heap sink hdr metrics threadId) evs :=
  Runs.along_iff (I := Contained metrics threadId) (fun _ ev h => h.stays_iff hops ev)
    (fun _ ev _ h hs hR => h.step ((h.stays_iff hops ev).mp (hs ▸ hR)) hs) (contained_init ops heap sink hdr metrics threadId) evs

/-- On this run every byte is written inside its buffer. -/
theorem contained_oneRecord : Runs.Along (step LogSys.oneLine ScriptFile.ops) StaysInside oneWriter oneRecord := by
  have hkeeps : Runs.Along (step LogSys.oneLine ScriptFile.ops)
      (fun s ev _ => OfCall (LogSys.KeepsAlignment LogSys.oneLine) LogSys.oneLine s ev) oneWriter oneRecord := by
    decide +kernel
  exact (contained_iff ScriptFile.appends LogSys.oneLine _ _ _ _ _ oneRecord).mpr hkeeps

end Session

end P8
