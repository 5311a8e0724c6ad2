import P8.Session.Refines

/-!
# Verbosity: what a level keeps out

A module has the level it was given last, by its handle or by a registration under its name; records without a module have the
core's. As long as nobody gives it another one, a call below it leaves a session exactly as it was (`muted`): it takes no buffer
and makes no descriptor, whatever the other writers, the registrations and the worker do in between.
-/

namespace P8

open Bytes

namespace Registries

variable {regs : Registries} {module : Option Nat} {v : Level}

/-- Registries with the same modules and the same level for the records without one. -/
theorem getVerbosity_congr {regs' : Registries} (hmods : regs'.logMods = regs.logMods)
    (hdefault : regs'.core.defaultVerbosity = regs.core.defaultVerbosity) : regs'.getVerbosity module = regs.getVerbosity module := by
  cases module with
  | none => exact congrArg some hdefault
  | some i => rw [getVerbosity, getVerbosity, hmods]

/-- Registering an attribute sets no level. -/
theorem getVerbosity_attrRegister (alloc : Bool) (name : Option CStr) (type : AttrType) :
    (regs.attrRegister alloc name type).regs.getVerbosity module = regs.getVerbosity module := by
  have hcases := attrRegister_cases regs.core alloc name type
  unfold attrRegister
  generalize regs.core.attrRegister alloc name type = r at hcases ⊢
  cases hcases <;> exact getVerbosity_congr rfl rfl

/-- Registering a metric sets none. -/
theorem getVerbosity_registerMtk (alloc : Bool) (base : Option MtkBase) :
    (regs.registerMtk alloc base).regs.getVerbosity module = regs.getVerbosity module := by
  have hcases := registerMtk_cases regs alloc base
  generalize regs.registerMtk alloc base = r at hcases ⊢
  cases hcases <;> exact getVerbosity_congr rfl rfl

/-- A level given to another handle. -/
theorem getVerbosity_setVerbosity {module' : Option Nat} (hne : module' ≠ module) (v' : Level) :
    (regs.setVerbosity module' v').getVerbosity module = regs.getVerbosity module := by
  cases module' with
  | none =>
    cases module with
    | none => exact absurd rfl hne
    | some i => rfl
  | some j =>
    cases module with
    | none => rfl
    | some i =>
      have hji : j ≠ i := fun h => hne (congrArg some h)
      simp [setVerbosity, getVerbosity, hji]

/-- A registration that is not of the module's name. -/
theorem getVerbosity_registerModule (hv : regs.getVerbosity module = some v) (alloc : Bool) (name : Option CStr) (v' : Level)
    (handle : Bool) (hother : handle = true → ∀ i, module = some i → regs.findModule name ≠ some i) :
    (regs.registerModule alloc name v' handle).regs.getVerbosity module = some v := by
  have hcases := registerModule_cases regs alloc name v' handle
  cases module with
  | none =>
    generalize regs.registerModule alloc name v' handle = r at hcases ⊢
    cases hcases <;> exact hv
  | some i =>
    have hmod : ∀ n, name = some n → regs.core.initialized = true → n ≠ [] → handle = true → regs.logModMap n ≠ some i := by
      rintro n rfl hinit hne hhandle hmap
      refine hother hhandle i rfl ?_
      unfold findModule
      rw [hinit]
      cases n with
      | nil => exact absurd rfl hne
      | cons c n => exact hmap
    have hkept : ∀ j, j ≠ i → Option.map (fun m : LogModule => m.verbosity)
        ((regs.logMods.modify j fun m => { m with verbosity := v' })[i]?) = some v := by
      intro j hji
      rw [← hv]
      simp [getVerbosity, hji]
    unfold registerModule
    split
    · exact hv
    · rename_i hinit
      have hinit : regs.core.initialized = true := by simpa using hinit
      split
      · exact hv
      · exact hv
      · rename_i n hne
        split
        · exact hv
        · rename_i hhandle
          have hhandle : handle = true := by simpa using hhandle
          split
          · rename_i j hmap
            refine hkept j fun hji => hmod n rfl hinit (fun h => ?_) hhandle (hji ▸ hmap)
            subst h
            exact hne rfl
          · split
            · exact hv
            · have hlt : i < regs.logMods.length := by
                rw [getVerbosity, Option.map_eq_some_iff] at hv
                obtain ⟨m, hm, -⟩ := hv
                exact (List.getElem?_eq_some_iff.mp hm).1
              rw [getVerbosity, List.getElem?_append_left hlt]
              exact hv

end Registries

section

variable {hash : CStr → UInt32 → UInt64} {regs : Registries} {module : Option Nat} {v : Level} {l : Log} {env : SendEnv} {c : Call}

/-- The threshold `send` reads is the level of the module it is called with. -/
theorem minLevel_moduleOf (hv : regs.getVerbosity module = some v) (hatt : l.attached = true) :
    l.minLevel regs.core { c with module := regs.moduleOf module } = v := by
  cases module with
  | none =>
    rw [Log.minLevel]
    show (if l.attached then regs.core.defaultVerbosity else 0) = v
    rw [if_pos hatt]
    exact Option.some.inj hv
  | some i =>
    obtain ⟨m, hm, hmv⟩ := Option.map_eq_some_iff.mp hv
    have hmodule : regs.moduleOf (some i) = some m.toLogMod := by
      rw [Registries.moduleOf, Option.bind_some, hm, Option.map_some]
    rw [Log.minLevel, hmodule]
    exact hmv

/-- A call below the threshold, or of a writer that is not attached, ends at once. -/
theorem send_refused (h : l.attached = true → c.level < l.minLevel regs.core c) :
    l.send hash regs.core env c = .ok ⟨l, regs.core, [], [], .refused⟩ := by
  rw [Log.send, Log.prepare]
  by_cases hlevel : c.level < l.minLevel regs.core c
  · rw [if_pos hlevel]
  · have hatt : (!l.attached) = true := by
      rw [Bool.not_eq_true']
      exact Bool.eq_false_iff.mpr fun hatt => hlevel (h hatt)
    rw [if_neg hlevel, if_pos hatt]

/-- A lookup leaves the level of the records without a module as it is. -/
theorem Found.defaultVerbosity {core core' : Core} {k : UInt64} {d : LogDesc} (h : Found core k c core' d) :
    core'.defaultVerbosity = core.defaultVerbosity := by
  cases h with
  | known d hd => rfl
  | made d core' hnone hcore hhash hformat hargs =>
    subst hcore
    rfl

/-- And so does a call of `send`. -/
theorem send_defaultVerbosity {core : Core} (hl : l.Inv core) (hc : core.Sound) {o : Sent}
    (ho : l.send hash core env c = .ok o) : o.core.defaultVerbosity = core.defaultVerbosity := by
  have hfound := prepare_found hash env c hl
  have hcases := send_cases hash env c hl hc
  rw [ho] at hcases
  cases hcases with
  | idle o hp hi =>
    rw [hp] at hfound
    exact congrArg Core.defaultVerbosity hfound
  | accepted p l' g gap tp hp hb hroom hf =>
    rw [hp] at hfound
    exact Found.defaultVerbosity hfound
  | abandoned p l' released hp hb hroom hd =>
    rw [hp] at hfound
    exact Found.defaultVerbosity hfound

end

namespace Session

variable {W B F : Type} [DecidableEq W] [DecidableEq B] {hash : CStr → UInt32 → UInt64} {ops : FileOps F}
  {s s' : Session W B F} {metrics : W → Bool} {threadId : W → UInt32} {module : Option Nat} {v : Level}

/-- The step gives the module a level: by its handle, or by a registration under its name. -/
def Sets (module : Option Nat) (s : Session W B F) : SessionEv W B → Prop
  | .setVerbosity module' _ => module' = module
  | .service (.registerModule _ name _ handle) =>
    handle = true ∧ ∃ i, module = some i ∧ s.svc.regs.findModule (name.map Subtype.val) = some i
  | _ => False

/-- A step that does not give the module a level leaves it the one it has. -/
theorem level_step (hv : s.svc.regs.getVerbosity module = some v) (hi : s.Inv metrics threadId) {ev : SessionEv W B}
    (hnot : ¬ s.Sets module ev) (hs : s.step hash ops ev = .ok s') : s'.svc.regs.getVerbosity module = some v := by
  cases step_cases hs with
  | service ev svc hclient hstep =>
    cases ev with
    | attrRegister alloc name type =>
      cases hstep
      exact (Registries.getVerbosity_attrRegister alloc _ type).trans hv
    | registerMtk alloc base =>
      cases hstep
      exact (Registries.getVerbosity_registerMtk alloc base).trans hv
    | registerModule alloc name verbosity handle =>
      cases hstep
      exact Registries.getVerbosity_registerModule hv alloc _ verbosity handle
        fun hhandle i hmodule hfind => hnot ⟨hhandle, i, hmodule, hfind⟩
    | serialize i fresh =>
      obtain ⟨x, -, -, rfl⟩ := SvcSys.serialize_step hstep
      exact hv
    | use b m =>
      obtain ⟨-, hstep⟩ := when_eq_ok.mp hstep
      cases hstep
      exact hv
    | resolveLogDesc _ _ _ _ _ _ | move | writeService | recycle => cases hclient
  | setVerbosity module' v' => exact (Registries.getVerbosity_setVerbosity (fun h => hnot h) v').trans hv
  | send w m env c l o htls hphase hpulled hmodule ho =>
    have hw := hi.tls w
    rw [htls] at hw
    cases hw with
    | log l hkind hthread hinv hst =>
      have hsame : (s.svc.regs.withDescs o.core (hash c.file c.line)).regs.getVerbosity module =
          s.svc.regs.getVerbosity module :=
        Registries.getVerbosity_congr rfl (send_defaultVerbosity hinv hi.svc.sound ho)
      exact hsame.trans hv
  | worker signal grown s' hw =>
    cases hw with
    | svc svc hpc hmove =>
      obtain ⟨-, hmove⟩ := when_eq_ok.mp hmove
      cases hmove
      exact hv
    | writeSvc sink ok svc svc' hpc hsink hwrite hrecycle =>
      obtain ⟨-, hwrite⟩ := when_eq_ok.mp hwrite
      cases hwrite
      obtain ⟨-, hrecycle⟩ := when_eq_ok.mp hrecycle
      cases hrecycle
      exact hv
    | poll hpc hbusy =>
      rw [s.dropsOnly_pollStep.same]
      exact hv
    | _ => exact hv
  | _ => exact hv

/-- A call below the level of its module leaves everything as it is. -/
theorem send_muted (hv : s.svc.regs.getVerbosity module = some v) {w : W} {env : SendEnv} {c : Call} (hlevel : c.level < v)
    (hs : s.step hash ops (.send w module env c) = .ok s') : s' = s := by
  cases step_cases hs with
  | send w module env c l o htls hphase hpulled hmodule ho =>
    have hmuted : l.attached = true →
        c.level < l.minLevel s.svc.regs.core { c with module := s.svc.regs.moduleOf module } := by
      intro hatt
      rw [minLevel_moduleOf hv hatt]
      exact hlevel
    cases (send_refused hmuted).symm.trans ho
    have htransmit : (s.svc.regs.withDescs s.svc.regs.core (hash c.file c.line)).transmit = none := by
      unfold Registries.withDescs
      cases s.svc.regs.core.logDescs (hash c.file c.line) <;> simp
    have hsvc : s.svc.register (s.svc.regs.withDescs s.svc.regs.core (hash c.file c.line)) = s.svc := by
      unfold SvcSys.register
      rw [htransmit]
      simp [Registries.withDescs]
    have htls : Function.update s.tls w (.log l) = s.tls := by rw [← htls, Function.update_eq_self]
    unfold afterSend setTls
    dsimp only
    rw [htls, hsvc]
    rfl

/-- From the moment a module has a level until it is given another one, it keeps it, and a call below it leaves the session as it
is; so, too, for the records without a module. -/
theorem muted (heap : B → Mem) (sink : SinkFile F) (hdr : Mem) (metrics : W → Bool) (threadId : W → UInt32)
    {evs evs' : List (SessionEv W B)} (hr : (init ops heap sink hdr metrics threadId).run hash ops evs = .ok s)
    (hv : s.svc.regs.getVerbosity module = some v) (hnot : Runs.Along (step hash ops) (fun s ev _ => ¬ s.Sets module ev) s evs') :
    Runs.Along (step hash ops) (fun s ev out => s.svc.regs.getVerbosity module = some v ∧
      ∀ w env c, ev = .send w module env c → c.level < v → ∀ s', out = .ok s' → s' = s) s evs' := by
  have hi : s.Inv metrics threadId :=
    Runs.run_induction (inv_init ops heap sink hdr metrics threadId) (fun _ _ _ h hs => h.step hs) hr
  refine hnot.imp (I := fun s => s.Inv metrics threadId ∧ s.svc.regs.getVerbosity module = some v) (fun s ev h hnot => ?_)
    (fun s ev s' h hs hnot => ⟨h.1.step hs, level_step h.2 h.1 hnot hs⟩) ⟨hi, hv⟩
  refine ⟨h.2, ?_⟩
  rintro w env c rfl hlevel s' hs
  exact send_muted h.2 hlevel hs

/-- A module of level 3, and a record of level 0 between two batches. -/
theorem muted_oneWriter : ∃ s, oneWriter.run LogSys.oneLine ScriptFile.ops
      [.service (.registerModule true (some ⟨[110], by decide⟩) 3 true), .attach (), .registerWriter ()] = .ok s ∧
    Runs.Along (step LogSys.oneLine ScriptFile.ops) (fun s ev out => s.svc.regs.getVerbosity (some 0) = some 3 ∧
        ∀ w env c, ev = .send w (some 0) env c → c.level < 3 → ∀ s', out = .ok s' → s' = s) s
      [.setVerbosity none 5, .worker false true, .send () (some 0) LogSys.plenty (LogSys.textCall [104, 105])] := by
  have hall : (oneWriter.run LogSys.oneLine ScriptFile.ops
      [.service (.registerModule true (some ⟨[110], by decide⟩) 3 true), .attach (), .registerWriter ()]).toOption.any
        (fun s => s.svc.regs.getVerbosity (some 0) == some 3) = true := by
    decide +kernel
  obtain ⟨s, hr, hv⟩ := Runs.ok_of_any hall
  have hnot : ∀ s₁ : Session Unit Nat ScriptFile, ¬ Sets (some 0) s₁ (.setVerbosity none 5) := fun _ h => (by cases h)
  exact ⟨s, hr, muted _ _ _ _ _ hr (beq_iff_eq.mp hv)
    ⟨hnot _, fun _ _ => ⟨fun h => h, fun _ _ => ⟨fun h => h, fun _ _ => trivial⟩⟩⟩⟩

end Session

end P8
