import P8.Core.Construct

/-!
# Fallback: the null sink in place of one that cannot be had

`create_sink` answers a name it has no sink for with a null pointer, for the caller to fall back to the null sink. The
constructor takes that for a failed allocation and gives up. Only a sink that was made and does not open is replaced. So a
configuration is good for a core exactly if it names a sink that there is, or none.
-/

namespace P8

/-- What is taken for granted of a configuration and of the system: nothing is initialized yet, the sizes are accepted, the keys
that are read have strings, what is allocated is there, and nothing else is published meanwhile. -/
structure AcceptedConfig (env : Env) (casecmp : CStr → CStr → Bool) (parse : CStr → Option Json) (cfg : Option P8Config) (p : Proc)
    (j : Json) : Prop where
  reads : ReadsConfig env parse cfg p j
  sizes : (memoryConfig casecmp j).isSome = true
  maxMemorySize : ConfigKey.maxMemorySize.Readable env j
  initialMemorySize : ConfigKey.initialMemorySize.Readable env j
  sink : ConfigKey.sink.Readable env j
  outDir : sinkName j = some sinkFileBin → SectionReadable env j
  newBudget : env.newBudget = true
  newPool : env.newPool = true
  newSink : env.newSink = true
  newNull : env.newNull = true
  opens : env.openThrows = false
  create : env.create = true

/-- The call succeeds, and the core has an open sink, the file sink if that is asked for and opens and
the null sink otherwise. -/
structure FallsBack (env : Env) (j : Json) (r : Proc × Except Thrown Bool) : Prop where
  succeeds : r.2 = .ok true
  served : ∃ core sink, r.1.gpInstance = some core ∧ core.initialized = true ∧ core.sink = some sink ∧ sink.isOpen = true ∧
    (sink.kind = .file ↔ sinkName j = some sinkFileBin ∧ fileOpens env j = true)

variable {env : Env} {casecmp : CStr → CStr → Bool} {parse : CStr → Option Json} {cfg : Option P8Config} {p : Proc} {j : Json}

/-- An accepted configuration has sizes a pool can be made of. -/
theorem AcceptedConfig.hasPool (h : AcceptedConfig env casecmp parse cfg p j) : HasPool env casecmp j :=
  ⟨h.sizes, h.newBudget, h.newPool⟩

/-- With all the memory there is, the name decides whether there is a sink. -/
theorem AcceptedConfig.getsSink_iff (h : AcceptedConfig env casecmp parse cfg p j) : GetsSink env j ↔ Recognized j := by
  constructor
  · intro hgets
    exact hgets.2.1
  · intro hname
    exact ⟨h.newSink, hname, fun _ => Or.inr h.newNull⟩

/-- Only the worker can throw. -/
theorem AcceptedConfig.quiet_iff (h : AcceptedConfig env casecmp parse cfg p j) :
    Quiet env casecmp j ↔ (Recognized j → env.eventInit = true → env.threadStarts = true) := by
  constructor
  · intro hq hname
    exact (hq.sink h.hasPool).worker (h.getsSink_iff.mpr hname)
  · intro hworker
    refine ⟨h.maxMemorySize, h.initialMemorySize, fun _ => ⟨h.sink, fun _ => h.outDir, fun _ _ _ => h.opens, ?_⟩⟩
    intro hgets
    exact hworker (h.getsSink_iff.mp hgets)

/-- The sink that is chosen is open, and is the file sink just where that is asked for and opens. -/
theorem chosenSink_spec (env : Env) (j : Json) :
    (Build.chosenSink env j).isOpen = true ∧
      ((Build.chosenSink env j).kind = .file ↔ sinkName j = some sinkFileBin ∧ fileOpens env j = true) := by
  unfold Build.chosenSink
  split
  · rename_i h
    simp [h]
  · rename_i h
    simp [h]

/-- Sink problems are met with the null sink exactly where the name of the sink is one of those implemented, or missing, and the
worker can be started. -/
theorem fallsBack_iff (h : AcceptedConfig env casecmp parse cfg p j) :
    FallsBack env j (p8Initialize env casecmp parse cfg p) ↔
      Recognized j ∧ (env.eventInit = true → env.threadStarts = true) := by
  rw [p8Initialize_reads h.reads]
  constructor
  · intro hfalls
    have hq : Quiet env casecmp j := by
      by_contra hq
      obtain ⟨e, he⟩ := Build.configure_throws hq p.blank
      have hok := hfalls.succeeds
      rw [Proc.publish_throws he] at hok
      cases hok
    have hname : Recognized j := by
      by_contra hname
      have hno : ¬ GetsSink env j := fun hgets => hname (h.getsSink_iff.mp hgets)
      obtain ⟨c, hc⟩ := Build.configure_no_sink hq h.hasPool hno p.blank
      have hok := hfalls.succeeds
      rw [hc] at hok
      cases hok
    exact ⟨hname, h.quiet_iff.mp hq hname⟩
  · rintro ⟨hname, hworker⟩
    have hq : Quiet env casecmp j := h.quiet_iff.mpr fun _ => hworker
    obtain ⟨c, -, hc⟩ := Build.configure_gets hq h.hasPool (h.getsSink_iff.mpr hname) p.blank
    rw [hc]
    have hpublished : p.publish env ((p.blank.pooled c).served env (Build.chosenSink env j), none) =
        ({ gpInstance := some ((p.blank.pooled c).served env (Build.chosenSink env j)).core
           published := some ((p.blank.pooled c).served env (Build.chosenSink env j)).core
           shmHandle := true
           instanceCount := p.instanceCount + 1
           heap := ((p.blank.pooled c).served env (Build.chosenSink env j)).heap }, .ok true) := by
      simp only [Proc.publish, h.create]
      rfl
    rw [hpublished]
    exact ⟨rfl, _, _, rfl, rfl, rfl, chosenSink_spec env j⟩

/-- A configuration that only names its sink. -/
def sinkOnly (name : CStr) : CStr → Option Json := fun _ => some (.object [(bytes "sink", .string name)])

/-- A configuration that only names a sink is accepted. -/
theorem acceptedConfig_sinkOnly (name : CStr) :
    AcceptedConfig Env.fine (· == ·) (sinkOnly name) (some ⟨some []⟩) Proc.fresh (.object [(bytes "sink", .string name)]) where
  reads := ⟨rfl, rfl, rfl, [], rfl, rfl⟩
  sizes := rfl
  maxMemorySize := fun v hv => nomatch (show (none : Option Json) = some v from hv)
  initialMemorySize := fun v hv => nomatch (show (none : Option Json) = some v from hv)
  sink := fun v hv => ⟨⟨name, by simpa [Json.find?, ConfigKey.key] using hv.symm⟩, rfl⟩
  outDir := fun _ fileBin hv => nomatch (show (none : Option Json) = some fileBin from hv)
  newBudget := rfl
  newPool := rfl
  newSink := rfl
  newNull := rfl
  opens := rfl
  create := rfl

/-- A file sink without a section of its own. -/
theorem fallsBack_noSection :
    FallsBack Env.fine (.object [(bytes "sink", .string sinkFileBin)])
      (p8Initialize Env.fine (· == ·) (sinkOnly sinkFileBin) (some ⟨some []⟩) Proc.fresh) :=
  (fallsBack_iff (acceptedConfig_sinkOnly sinkFileBin)).mpr ⟨Or.inr (Or.inl (by decide)), fun _ => rfl⟩

/-- The network sink: there is none, and no null sink in its place. -/
theorem fallsBack_false :
    ∃ (env : Env) (casecmp : CStr → CStr → Bool) (parse : CStr → Option Json) (cfg : Option P8Config) (p : Proc) (j : Json),
      AcceptedConfig env casecmp parse cfg p j ∧ sinkName j = some sinkNetworkTcp ∧
        ¬ FallsBack env j (p8Initialize env casecmp parse cfg p) := by
  refine ⟨_, _, _, _, _, _, acceptedConfig_sinkOnly sinkNetworkTcp, by decide, fun h => ?_⟩
  have hno : (p8Initialize Env.fine (· == ·) (sinkOnly sinkNetworkTcp) (some ⟨some []⟩) Proc.fresh).2 = .ok false := by
    decide +kernel
  cases hno.symm.trans h.succeeds

end P8
