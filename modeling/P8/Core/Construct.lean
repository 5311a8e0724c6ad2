import P8.Pool.Config

/-!
# Construct: from the configuration text to a core

`cp8_core::cp8_core`, what it calls of the sinks, its destructor and `p8_initialize`, with the objects they allocate, and with
what the library they call may throw. A pointer is given by the object it points to. An exception in the constructor takes the
memory of the core and its members with it, but neither the pool nor the sink, which are raw pointers, nor the count of instances,
which the destructor takes back. `NothingThrows` is about the values in the configuration, and about the system.

`nlohmann::json::parse` is not part of the repository; `parse` is what it makes of a text, if it does not throw. What `c_shared`
answers is given as well.
-/

namespace P8

/-! ## The configuration -/

/-- A `nlohmann::json`, as far as the engine looks at it. -/
inductive Json where
  | null
  | boolean
  | number
  | string (s : List UInt8)
  | array
  | object (members : List (List UInt8 × Json))

/-- `contains` and `operator[]`. -/
def Json.find? (j : Json) (key : CStr) : Option Json :=
  match j with
  | .object members => (members.find? fun m => m.1 = key).map Prod.snd
  | _ => none

/-- The keys with strings. -/
inductive ConfigKey where
  | maxMemorySize | initialMemorySize | sink | outDir
  deriving DecidableEq

def ConfigKey.key : ConfigKey → CStr
  | .maxMemorySize => bytes "max_memory_size"
  | .initialMemorySize => bytes "initial_memory_size"
  | .sink => bytes "sink"
  | .outDir => bytes "OutDir"

/-- `P8_CFG_KEY_FILE_BIN`. -/
def keyFileBin : CStr := bytes "FileBin"

/-- `P8_CFG_VAL_SINK_FILE_BIN`. -/
def sinkFileBin : CStr := bytes "file.bin"

/-- `P8_CFG_VAL_SINK_NETWORK_TCP`. -/
def sinkNetworkTcp : CStr := bytes "network.tcp"

/-- `P8_CFG_VAL_SINK_NETWORK_NULL`. -/
def sinkNetworkNull : CStr := bytes "null"

/-- `s_p8_config`, as far as the construction may fail for it. -/
structure P8Config where
  mpJsonConfig : Option CStr

/-! ## The objects -/

inductive SinkKind where
  | null | file
  deriving DecidableEq

/-- A sink: `mb_configured` of a file sink, and whether it is open. -/
structure Sink where
  kind : SinkKind
  configured : Bool
  isOpen : Bool
  deriving DecidableEq

/-- A `cp8_core`: what its constructor sets. -/
structure CoreObj where
  memoryBudget : Option Nat
  dataPool : Option MemoryConfig
  sink : Option Sink
  initialized : Bool
  workerRunning : Bool
  deriving DecidableEq

/-- The members before the constructor's body. -/
def CoreObj.blank : CoreObj := ⟨none, none, none, false, false⟩

/-- The live objects of each kind; the buffers are the pool's. -/
structure Heap where
  cores : Nat
  budgets : Nat
  pools : Nat
  sinks : Nat
  deriving DecidableEq

/-- What the library throws: a wrong JSON type, no memory, no thread. -/
inductive Thrown where
  | typeError | badAlloc | systemError
  deriving DecidableEq

/-- What the system does: which allocations succeed, where the library runs out of memory (copying a string, `open`), what can be
created in the file system, whether the worker's event and thread can be made, and what `c_shared` says. -/
structure Env where
  newCore : Bool
  newBudget : Bool
  newPool : Bool
  newSink : Bool
  newNull : Bool
  copyThrows : ConfigKey → Bool
  openThrows : Bool
  directories : Bool
  svcFile : Bool
  dataFile : Bool
  eventInit : Bool
  threadStarts : Bool
  create : Bool
  reread : Option CoreObj

variable (env : Env)

/-- `contains` and `get<std::string>` of a key's value. -/
def ConfigKey.read (k : ConfigKey) (j : Json) : Except Thrown (Option (List UInt8)) :=
  match j.find? k.key with
  | none => .ok none
  | some (.string s) => if env.copyThrows k then .error .badAlloc else .ok (some s)
  | some _ => .error .typeError

/-- A string handed on as a C string, or as a null pointer if it is empty or missing. -/
def cArg : Option (List UInt8) → Option CStr
  | none => none
  | some s => if s = [] then none else some (s.takeWhile (· ≠ 0))

/-- `cp8_sink_file::cp8_sink_file`. -/
def sinkFile (j : Json) : Except Thrown Sink :=
  match j.find? keyFileBin with
  | none => .ok ⟨.file, false, false⟩
  | some fileBin =>
    match ConfigKey.outDir.read env fileBin with
    | .error e => .error e
    | .ok none => .ok ⟨.file, false, false⟩
    | .ok (some outDir) => .ok ⟨.file, outDir ≠ [], false⟩

/-- `cp8_sink_null::cp8_sink_null`. -/
def sinkNull : Sink := ⟨.null, false, false⟩

/-- `create_sink`. -/
def createSink (value : Option CStr) (j : Json) : Except Thrown (Option Sink) :=
  match value with
  | none => .ok (if env.newSink then some sinkNull else none)
  | some value =>
    if value = sinkFileBin then
      if env.newSink then (sinkFile env j).map some else .ok none
    else if value = sinkNetworkTcp then .ok none
    else if value = sinkNetworkNull then .ok (if env.newSink then some sinkNull else none)
    else .ok none

/-- `cp8_sink_iface::open` of either sink: the sink, and whether it is open. -/
def Sink.open (s : Sink) : Except Thrown (Sink × Bool) :=
  match s.kind with
  | .null => .ok ({ s with isOpen := true }, true)
  | .file =>
    if s.configured then
      if env.openThrows then .error .badAlloc
      else if env.directories && env.svcFile && env.dataFile then .ok ({ s with isOpen := true }, true)
      else .ok (s, false)
    else .ok (s, false)

/-! ## Constructor and destructor -/

/-- The heap and the core under construction. -/
structure Build where
  heap : Heap
  core : CoreObj

namespace Build

/-- Make the budget and the pool; a budget without a pool is given up again. -/
def makePool (b : Build) (cfg : MemoryConfig) : Build × Bool :=
  if env.newBudget then
    if env.newPool then
      ({ heap := { b.heap with budgets := b.heap.budgets + 1, pools := b.heap.pools + 1 }
         core := { b.core with memoryBudget := some cfg.maxMemorySize, dataPool := some cfg } }, true)
    else (b, false)
  else (b, false)

/-- `cp8_core::start_worker`. -/
def startWorker (b : Build) : Build × Option Thrown :=
  if env.eventInit then
    if env.threadStarts then ({ b with core := { b.core with workerRunning := true } }, none)
    else (b, some .systemError)
  else (b, none)

/-- The end of the constructor, with an open sink. -/
def finish (b : Build) (sink : Sink) : Build × Option Thrown :=
  -- what `write_hello` returns is only reported
  startWorker env { b with core := { b.core with sink := some sink, initialized := true } }

/-- The constructor from the opening of the sink on; a sink that does not open is deleted. -/
def openSink (b : Build) (sink : Sink) : Build × Option Thrown :=
  let made := { b with heap := { b.heap with sinks := b.heap.sinks + 1 } }
  match sink.open env with
  | .error e => ({ made with core := { b.core with sink := some sink } }, some e)
  | .ok (sink, true) => made.finish env sink
  | .ok (_, false) =>
    if env.newNull then made.finish env { sinkNull with isOpen := true }
    else (b, none)

/-- The constructor from the sink's name on. -/
def selectSink (b : Build) (j : Json) : Build × Option Thrown :=
  match ConfigKey.sink.read env j with
  | .error e => (b, some e)
  | .ok value =>
    match createSink env (cArg value) j with
    | .error e => (b, some e)
    | .ok none => (b, none)
    | .ok (some sink) => b.openSink env sink

variable (casecmp : CStr → CStr → Bool) (parse : CStr → Option Json)

/-- `cp8_core::init_buffer_pool`. -/
def initBufferPool (b : Build) (maxMemorySize initialMemorySize : Option CStr) : Build × Bool :=
  match P8.initBufferPool casecmp maxMemorySize initialMemorySize with
  | none => (b, false)
  -- what the pool's `init` returns is not looked at
  | some cfg => b.makePool env cfg

/-- The constructor from the JSON value on. -/
def configure (b : Build) (j : Json) : Build × Option Thrown :=
  match ConfigKey.maxMemorySize.read env j with
  | .error e => (b, some e)
  | .ok maxMemorySize =>
    match ConfigKey.initialMemorySize.read env j with
    | .error e => (b, some e)
    | .ok initialMemorySize =>
      match b.initBufferPool env casecmp (cArg maxMemorySize) (cArg initialMemorySize) with
      | (b, false) => (b, none)
      -- `init_header` comes in between, and neither fails nor allocates
      | (b, true) => b.selectSink env j

/-- The body of `cp8_core::cp8_core`. -/
def construct (b : Build) (cfg : P8Config) : Build × Option Thrown :=
  match cfg.mpJsonConfig with
  | none => (b, none)
  | some text =>
    match parse text with
    | none => (b, none)
    | some j => b.configure env casecmp j

end Build

/-- One less where there is one. -/
def without {α : Type} (n : Nat) (o : Option α) : Nat := if o.isSome then n - 1 else n

/-- `delete` of a core, with `cp8_core::~cp8_core`. -/
def Heap.delete (h : Heap) (c : CoreObj) : Heap where
  cores := h.cores - 1
  budgets := without h.budgets c.memoryBudget
  pools := without h.pools c.dataPool
  sinks := without h.sinks c.sink

/-- The end of a core whose constructor has thrown: its memory is freed and `mp_memory_budget` is reset, which frees the budget
unless a pool shares it. -/
def Heap.unwind (h : Heap) (c : CoreObj) : Heap :=
  { h with
    cores := h.cores - 1
    budgets := if c.dataPool.isSome then h.budgets else without h.budgets c.memoryBudget }

/-! ## The call -/

/-- What `p8_initialize` sees and changes: `gp_instance`, the published pointer, `gp_shm_handle`, `gu_instance_count` and the
objects. -/
structure Proc where
  gpInstance : Option CoreObj
  published : Option CoreObj
  shmHandle : Bool
  instanceCount : Nat
  heap : Heap
  deriving DecidableEq

/-- `delete` of a core just made. -/
def Proc.deleted (p : Proc) (b : Build) : Proc :=
  { p with instanceCount := p.instanceCount + 1 - 1, heap := b.heap.delete b.core }

/-- `p8_initialize` from the constructor on: an exception goes through, a core that is not initialized is deleted, and so is one
that is not the first to be published. -/
def Proc.publish (p : Proc) : Build × Option Thrown → Proc × Except Thrown Bool
  | (b, some e) => ({ p with instanceCount := p.instanceCount + 1, heap := b.heap.unwind b.core }, .error e)
  | (b, none) =>
    if b.core.initialized then
      if env.create then
        ({ gpInstance := some b.core
           published := some b.core
           shmHandle := true
           instanceCount := p.instanceCount + 1
           heap := b.heap }, .ok true)
      else
        match env.reread with
        | some c => ({ p.deleted b with gpInstance := some c }, .ok true)
        | none => (p.deleted b, .ok false)
    else (p.deleted b, .ok false)

/-- The memory of a core, before its constructor. -/
def Proc.blank (p : Proc) : Build := ⟨{ p.heap with cores := p.heap.cores + 1 }, .blank⟩

/-- `p8_initialize`. -/
def p8Initialize (casecmp : CStr → CStr → Bool) (parse : CStr → Option Json) (cfg : Option P8Config) (p : Proc) :
    Proc × Except Thrown Bool :=
  if p.gpInstance.isSome then (p, .ok true)
  else
    match p.published with
    | some c => ({ p with gpInstance := some c }, .ok true)
    | none =>
      match cfg with
      | none => (p, .ok false)
      | some cfg =>
        if env.newCore then p.publish env (p.blank.construct env casecmp parse cfg)
        else (p, .ok false)

/-! ## What a configuration says -/

section Values

variable {env : Env} {k : ConfigKey} {j : Json}

/-- The value of a key, if there is one, is a string, and it can be copied. -/
def ConfigKey.Readable (env : Env) (k : ConfigKey) (j : Json) : Prop :=
  ∀ v, j.find? k.key = some v → (∃ s, v = .string s) ∧ env.copyThrows k = false

/-- The string under a key. -/
def ConfigKey.value (k : ConfigKey) (j : Json) : Option (List UInt8) :=
  match j.find? k.key with
  | some (.string s) => some s
  | _ => none

/-- A key that can be read gives its string, and any other one throws. -/
theorem ConfigKey.read_of_readable (h : k.Readable env j) : k.read env j = .ok (k.value j) := by
  unfold ConfigKey.read ConfigKey.value
  cases hv : j.find? k.key with
  | none => rfl
  | some v =>
    obtain ⟨⟨s, rfl⟩, hcopy⟩ := h v hv
    simp [hcopy]

/-- A value of the wrong type is not read, it throws. -/
theorem ConfigKey.read_of_not_readable (h : ¬ k.Readable env j) : ∃ e, k.read env j = .error e := by
  unfold ConfigKey.read
  cases hv : j.find? k.key with
  | none =>
    refine absurd (fun v hv' => ?_) h
    rw [hv] at hv'
    cases hv'
  | some v =>
    cases v with
    | string s =>
      by_cases hcopy : env.copyThrows k = true
      · simp [hcopy]
      · refine absurd (fun v hv' => ?_) h
        rw [hv] at hv'
        cases hv'
        exact ⟨⟨s, rfl⟩, by simpa using hcopy⟩
    | null => exact ⟨_, rfl⟩
    | boolean => exact ⟨_, rfl⟩
    | number => exact ⟨_, rfl⟩
    | array => exact ⟨_, rfl⟩
    | object members => exact ⟨_, rfl⟩

/-- The directory of the file sink can be read, if there is a section that names it. -/
def SectionReadable (env : Env) (j : Json) : Prop :=
  ∀ fileBin, j.find? keyFileBin = some fileBin → ConfigKey.outDir.Readable env fileBin

/-- The file sink has a directory. -/
def configured (j : Json) : Bool :=
  match (j.find? keyFileBin).bind ConfigKey.outDir.value with
  | none => false
  | some outDir => outDir ≠ []

/-- A readable section gives a file sink that is configured with it. -/
theorem sinkFile_of_readable (h : SectionReadable env j) : sinkFile env j = .ok ⟨.file, configured j, false⟩ := by
  unfold sinkFile configured
  cases hsection : j.find? keyFileBin with
  | none => rfl
  | some fileBin =>
    simp only [ConfigKey.read_of_readable (h fileBin hsection), Option.bind_some]
    cases ConfigKey.outDir.value fileBin <;> rfl

/-- A section that cannot be read throws. -/
theorem sinkFile_of_not_readable (h : ¬ SectionReadable env j) : ∃ e, sinkFile env j = .error e := by
  unfold sinkFile
  cases hsection : j.find? keyFileBin with
  | none =>
    refine absurd (fun fileBin hv => ?_) h
    rw [hsection] at hv
    cases hv
  | some fileBin =>
    have hout : ¬ ConfigKey.outDir.Readable env fileBin := by
      intro hread
      refine h fun fileBin' hv => ?_
      rw [hsection] at hv
      cases hv
      exact hread
    obtain ⟨e, he⟩ := ConfigKey.read_of_not_readable hout
    exact ⟨e, by simp only [he]⟩

/-- The sizes that the pool is made with. -/
def memoryConfig (casecmp : CStr → CStr → Bool) (j : Json) : Option MemoryConfig :=
  initBufferPool casecmp (cArg (ConfigKey.maxMemorySize.value j)) (cArg (ConfigKey.initialMemorySize.value j))

/-- The name of the sink. -/
def sinkName (j : Json) : Option CStr := cArg (ConfigKey.sink.value j)

/-- The names for which there is a sink. -/
def Recognized (j : Json) : Prop := sinkName j = none ∨ sinkName j = some sinkFileBin ∨ sinkName j = some sinkNetworkNull

/-- The file sink opens. -/
def fileOpens (env : Env) (j : Json) : Bool := configured j && (env.directories && env.svcFile && env.dataFile)

/-- The constructor gets as far as its sink. -/
def HasPool (env : Env) (casecmp : CStr → CStr → Bool) (j : Json) : Prop :=
  (memoryConfig casecmp j).isSome = true ∧ env.newBudget = true ∧ env.newPool = true

/-- The constructor gets as far as its worker. -/
def GetsSink (env : Env) (j : Json) : Prop :=
  env.newSink = true ∧ Recognized j ∧ (sinkName j = some sinkFileBin → fileOpens env j = true ∨ env.newNull = true)

/-- Reading the sink's part of a configuration throws nothing. -/
structure QuietSink (env : Env) (j : Json) : Prop where
  sink : ConfigKey.sink.Readable env j
  outDir : env.newSink = true → sinkName j = some sinkFileBin → SectionReadable env j
  opens : env.newSink = true → sinkName j = some sinkFileBin → configured j = true → env.openThrows = false
  worker : GetsSink env j → env.eventInit = true → env.threadStarts = true

/-- No step that the constructor takes throws. -/
structure Quiet (env : Env) (casecmp : CStr → CStr → Bool) (j : Json) : Prop where
  maxMemorySize : ConfigKey.maxMemorySize.Readable env j
  initialMemorySize : ConfigKey.initialMemorySize.Readable env j
  sink : HasPool env casecmp j → QuietSink env j

end Values

/-! ## What the constructor does -/

namespace Build

variable {env : Env} {j : Json}

/-- The sink a core ends with: the one it is configured for if that opens, and the null sink otherwise. -/
def chosenSink (env : Env) (j : Json) : Sink :=
  if sinkName j = some sinkFileBin ∧ fileOpens env j = true then ⟨.file, true, true⟩ else ⟨.null, false, true⟩

/-- A core with its budget and pool. -/
def pooled (b : Build) (cfg : MemoryConfig) : Build where
  heap := { b.heap with budgets := b.heap.budgets + 1, pools := b.heap.pools + 1 }
  core := { b.core with memoryBudget := some cfg.maxMemorySize, dataPool := some cfg }

/-- A core with its sink and, if the event could be made, its worker. -/
def served (env : Env) (b : Build) (sink : Sink) : Build where
  heap := { b.heap with sinks := b.heap.sinks + 1 }
  core := { b.core with sink := some sink, initialized := true, workerRunning := b.core.workerRunning || env.eventInit }

/-- The end of the constructor throws where the event can be made and the thread cannot. -/
theorem finish_made (b : Build) (sink : Sink) :
    ((env.eventInit = true → env.threadStarts = true) →
      finish env { b with heap := { b.heap with sinks := b.heap.sinks + 1 } } sink = (b.served env sink, none)) ∧
    (¬ (env.eventInit = true → env.threadStarts = true) →
      ∃ e, (finish env { b with heap := { b.heap with sinks := b.heap.sinks + 1 } } sink).2 = some e) := by
  constructor
  · intro hworker
    unfold finish startWorker served
    by_cases hevent : env.eventInit = true
    · simp [hevent, hworker hevent]
    · simp [hevent]
  · intro hworker
    rw [Classical.not_imp] at hworker
    obtain ⟨hevent, hthread⟩ := hworker
    simp [finish, startWorker, hevent, hthread]

/-- How a null sink is opened. -/
theorem openSink_null (b : Build) :
    b.openSink env sinkNull = finish env { b with heap := { b.heap with sinks := b.heap.sinks + 1 } } ⟨.null, false, true⟩ :=
  rfl

/-- How a file sink is opened, if nothing is thrown. -/
theorem openSink_file (b : Build) (hopen : configured j = true → env.openThrows = false) :
    b.openSink env ⟨.file, configured j, false⟩ =
      if fileOpens env j = true then
        finish env { b with heap := { b.heap with sinks := b.heap.sinks + 1 } } ⟨.file, true, true⟩
      else if env.newNull = true then
        finish env { b with heap := { b.heap with sinks := b.heap.sinks + 1 } } ⟨.null, false, true⟩
      else (b, none) := by
  unfold openSink Sink.open fileOpens
  generalize (env.directories && env.svcFile && env.dataFile) = created
  cases hconf : configured j with
  | false => simp [sinkNull]
  | true =>
    have hquiet := hopen hconf
    cases created with
    | false => simp [hquiet, sinkNull]
    | true => simp [hquiet]

/-- The name decides which sink is made. -/
theorem createSink_eq (value : Option CStr) :
    createSink env value j =
      if value = some sinkFileBin then (if env.newSink then (sinkFile env j).map some else .ok none)
      else if value = none ∨ value = some sinkNetworkNull then .ok (if env.newSink then some sinkNull else none)
      else .ok none := by
  unfold createSink
  cases value with
  | none => simp
  | some value =>
    by_cases hfile : value = sinkFileBin
    · simp [hfile]
    · by_cases htcp : value = sinkNetworkTcp
      · subst htcp
        have hne : sinkNetworkTcp ≠ sinkNetworkNull := by decide
        simp [hfile, hne]
      · simp [hfile, htcp]

/-- With a readable name the selection goes by it. -/
theorem selectSink_of_readable (hread : ConfigKey.sink.Readable env j) (b : Build) :
    b.selectSink env j = match createSink env (sinkName j) j with
      | .error e => (b, some e)
      | .ok none => (b, none)
      | .ok (some sink) => b.openSink env sink := by
  rw [selectSink, ConfigKey.read_of_readable hread]
  rfl

/-- Without memory for it, or with another name, there is no sink. -/
theorem selectSink_no (hread : ConfigKey.sink.Readable env j) (hno : ¬ (env.newSink = true ∧ Recognized j)) (b : Build) :
    b.selectSink env j = (b, none) := by
  rw [selectSink_of_readable hread, createSink_eq]
  by_cases hnew : env.newSink = true
  · have hname : ¬ Recognized j := fun h => hno ⟨hnew, h⟩
    simp only [Recognized, not_or] at hname
    simp [hname]
  · simp only [Bool.not_eq_true] at hnew
    simp only [hnew, Bool.false_eq_true, if_false, ite_self]

/-- The null sink is there whenever there is memory for it. -/
theorem selectSink_null (hread : ConfigKey.sink.Readable env j) (hnew : env.newSink = true)
    (hname : sinkName j = none ∨ sinkName j = some sinkNetworkNull) (b : Build) :
    b.selectSink env j =
      finish env { b with heap := { b.heap with sinks := b.heap.sinks + 1 } } ⟨.null, false, true⟩ := by
  have hnot : sinkName j ≠ some sinkFileBin := by
    rcases hname with hname | hname
    · simp [hname]
    · rw [hname]
      decide
  rw [selectSink_of_readable hread, createSink_eq, if_neg hnot, if_pos hname, if_pos hnew]
  exact b.openSink_null

/-- The file sink is constructed from its section. -/
theorem selectSink_file (hread : ConfigKey.sink.Readable env j) (hnew : env.newSink = true)
    (hname : sinkName j = some sinkFileBin) (b : Build) :
    b.selectSink env j = match sinkFile env j with
      | .error e => (b, some e)
      | .ok sink => b.openSink env sink := by
  rw [selectSink_of_readable hread, createSink_eq, if_pos hname, if_pos hnew]
  cases sinkFile env j <;> rfl

/-- Whatever is not an open file sink is the null sink. -/
theorem chosenSink_null (h : ¬ (sinkName j = some sinkFileBin ∧ fileOpens env j = true)) :
    chosenSink env j = ⟨.null, false, true⟩ := if_neg h

/-- A file sink that opens is used. -/
theorem chosenSink_file (hname : sinkName j = some sinkFileBin) (hopens : fileOpens env j = true) :
    chosenSink env j = ⟨.file, true, true⟩ := if_pos ⟨hname, hopens⟩

/-- Where the sink's part throws nothing and there is a sink, the constructor comes to its end with it. -/
theorem selectSink_finish (hread : ConfigKey.sink.Readable env j)
    (houtDir : sinkName j = some sinkFileBin → SectionReadable env j)
    (hopen : sinkName j = some sinkFileBin → configured j = true → env.openThrows = false) (hgets : GetsSink env j)
    (b : Build) :
    b.selectSink env j =
      finish env { b with heap := { b.heap with sinks := b.heap.sinks + 1 } } (chosenSink env j) := by
  obtain ⟨hnew, hname, hfallback⟩ := hgets
  by_cases hfile : sinkName j = some sinkFileBin
  · rw [selectSink_file hread hnew hfile, sinkFile_of_readable (houtDir hfile)]
    dsimp only
    rw [openSink_file b (hopen hfile)]
    by_cases hopens : fileOpens env j = true
    · rw [if_pos hopens, chosenSink_file hfile hopens]
    · rw [if_neg hopens, if_pos ((hfallback hfile).resolve_left hopens), chosenSink_null (fun h => hopens h.2)]
  · rw [selectSink_null hread hnew (hname.imp_right (Or.resolve_left · hfile)), chosenSink_null (fun h => hfile h.1)]

/-- Where nothing throws and there is a sink, the core gets it, and its worker. -/
theorem selectSink_gets (hq : QuietSink env j) (hgets : GetsSink env j) (b : Build) :
    b.selectSink env j = (b.served env (chosenSink env j), none) := by
  rw [selectSink_finish hq.sink (hq.outDir hgets.1) (hq.opens hgets.1) hgets]
  exact (b.finish_made _).1 (hq.worker hgets)

/-- Where nothing throws and there is no sink, the constructor gives up. -/
theorem selectSink_none (hq : QuietSink env j) (hno : ¬ GetsSink env j) (b : Build) : b.selectSink env j = (b, none) := by
  by_cases hsink : env.newSink = true ∧ Recognized j
  · obtain ⟨hnew, hname⟩ := hsink
    have hfallback : ¬ (sinkName j = some sinkFileBin → fileOpens env j = true ∨ env.newNull = true) :=
      fun h => hno ⟨hnew, hname, h⟩
    rw [Classical.not_imp, not_or] at hfallback
    obtain ⟨hfile, hopens, hnull⟩ := hfallback
    rw [selectSink_file hq.sink hnew hfile, sinkFile_of_readable (hq.outDir hnew hfile)]
    dsimp only
    rw [openSink_file b (hq.opens hnew hfile), if_neg hopens, if_neg hnull]
  · exact selectSink_no hq.sink hsink b

/-- Everything else throws. -/
theorem selectSink_throws (hq : ¬ QuietSink env j) (b : Build) : ∃ e, (b.selectSink env j).2 = some e := by
  by_cases hread : ConfigKey.sink.Readable env j
  · by_cases houtDir : env.newSink = true → sinkName j = some sinkFileBin → SectionReadable env j
    · by_cases hopen : env.newSink = true → sinkName j = some sinkFileBin → configured j = true → env.openThrows = false
      · -- only the worker is left
        have hworker : ¬ (GetsSink env j → env.eventInit = true → env.threadStarts = true) :=
          fun h => hq ⟨hread, houtDir, hopen, h⟩
        rw [Classical.not_imp] at hworker
        obtain ⟨hgets, hworker⟩ := hworker
        rw [selectSink_finish hread (houtDir hgets.1) (hopen hgets.1) hgets]
        exact (b.finish_made _).2 hworker
      · -- the directory is named, and opening the file sink throws
        simp only [Classical.not_imp, Bool.not_eq_false] at hopen
        obtain ⟨hnew, hfile, hconf, hthrows⟩ := hopen
        refine ⟨.badAlloc, ?_⟩
        rw [selectSink_file hread hnew hfile, sinkFile_of_readable (houtDir hnew hfile)]
        simp [openSink, Sink.open, hconf, hthrows]
    · simp only [Classical.not_imp] at houtDir
      obtain ⟨hnew, hfile, hsection⟩ := houtDir
      obtain ⟨e, he⟩ := sinkFile_of_not_readable hsection
      exact ⟨e, by rw [selectSink_file hread hnew hfile, he]⟩
  · obtain ⟨e, he⟩ := ConfigKey.read_of_not_readable hread
    exact ⟨e, by rw [selectSink, he]⟩

variable {casecmp : CStr → CStr → Bool}

/-- The pool is made where the sizes are accepted and there is memory. -/
theorem initBufferPool_of_hasPool (h : HasPool env casecmp j) (b : Build) :
    ∃ cfg, memoryConfig casecmp j = some cfg ∧
      b.initBufferPool env casecmp (cArg (ConfigKey.maxMemorySize.value j)) (cArg (ConfigKey.initialMemorySize.value j)) =
        (b.pooled cfg, true) := by
  obtain ⟨hsizes, hbudget, hpool⟩ := h
  obtain ⟨cfg, hcfg⟩ := Option.isSome_iff_exists.mp hsizes
  refine ⟨cfg, hcfg, ?_⟩
  rw [memoryConfig] at hcfg
  simp only [initBufferPool, hcfg, makePool, if_pos hbudget, if_pos hpool, pooled]

/-- Sizes or memory that do not do for a pool leave the core without one. -/
theorem initBufferPool_of_not_hasPool (h : ¬ HasPool env casecmp j) (b : Build) :
    b.initBufferPool env casecmp (cArg (ConfigKey.maxMemorySize.value j)) (cArg (ConfigKey.initialMemorySize.value j)) =
      (b, false) := by
  unfold initBufferPool
  cases hcfg : P8.initBufferPool casecmp (cArg (ConfigKey.maxMemorySize.value j))
      (cArg (ConfigKey.initialMemorySize.value j)) with
  | none => rfl
  | some cfg =>
    have hsizes : (memoryConfig casecmp j).isSome = true := by rw [memoryConfig, hcfg]; rfl
    have hno : ¬ (env.newBudget = true ∧ env.newPool = true) := fun hnew => h ⟨hsizes, hnew⟩
    dsimp only
    rw [makePool]
    by_cases hbudget : env.newBudget = true
    · rw [if_pos hbudget, if_neg fun hpool => hno ⟨hbudget, hpool⟩]
    · rw [if_neg hbudget]

/-- The constructor up to the pool. -/
theorem configure_of_readable (hmax : ConfigKey.maxMemorySize.Readable env j)
    (hinitial : ConfigKey.initialMemorySize.Readable env j) (b : Build) :
    b.configure env casecmp j =
      match b.initBufferPool env casecmp (cArg (ConfigKey.maxMemorySize.value j))
        (cArg (ConfigKey.initialMemorySize.value j)) with
      | (b, false) => (b, none)
      | (b, true) => b.selectSink env j := by
  rw [configure, ConfigKey.read_of_readable hmax, ConfigKey.read_of_readable hinitial]

/-- Without a pool the construction ends there. -/
theorem configure_no_pool (hq : Quiet env casecmp j) (hno : ¬ HasPool env casecmp j) (b : Build) :
    b.configure env casecmp j = (b, none) := by
  rw [configure_of_readable hq.maxMemorySize hq.initialMemorySize, initBufferPool_of_not_hasPool hno]

/-- Without a sink it ends behind the pool. -/
theorem configure_no_sink (hq : Quiet env casecmp j) (hpool : HasPool env casecmp j) (hno : ¬ GetsSink env j) (b : Build) :
    ∃ cfg, b.configure env casecmp j = (b.pooled cfg, none) := by
  obtain ⟨cfg, -, hcfg⟩ := initBufferPool_of_hasPool hpool b
  refine ⟨cfg, ?_⟩
  rw [configure_of_readable hq.maxMemorySize hq.initialMemorySize, hcfg]
  exact selectSink_none (hq.sink hpool) hno _

/-- With both, the core is built from what the configuration says. -/
theorem configure_gets (hq : Quiet env casecmp j) (hpool : HasPool env casecmp j) (hgets : GetsSink env j) (b : Build) :
    ∃ cfg, memoryConfig casecmp j = some cfg ∧
      b.configure env casecmp j = ((b.pooled cfg).served env (chosenSink env j), none) := by
  obtain ⟨cfg, hsome, hcfg⟩ := initBufferPool_of_hasPool hpool b
  refine ⟨cfg, hsome, ?_⟩
  rw [configure_of_readable hq.maxMemorySize hq.initialMemorySize, hcfg]
  exact selectSink_gets (hq.sink hpool) hgets _

/-- A value of the wrong type ends the construction with an exception. -/
theorem configure_throws (hq : ¬ Quiet env casecmp j) (b : Build) : ∃ e, (b.configure env casecmp j).2 = some e := by
  by_cases hmax : ConfigKey.maxMemorySize.Readable env j
  · by_cases hinitial : ConfigKey.initialMemorySize.Readable env j
    · have hsink : ¬ (HasPool env casecmp j → QuietSink env j) := fun h => hq ⟨hmax, hinitial, h⟩
      rw [Classical.not_imp] at hsink
      obtain ⟨hpool, hsink⟩ := hsink
      obtain ⟨cfg, -, hcfg⟩ := initBufferPool_of_hasPool hpool b
      rw [configure_of_readable hmax hinitial, hcfg]
      exact selectSink_throws hsink _
    · obtain ⟨e, he⟩ := ConfigKey.read_of_not_readable hinitial
      exact ⟨e, by rw [configure, ConfigKey.read_of_readable hmax, he]⟩
  · obtain ⟨e, he⟩ := ConfigKey.read_of_not_readable hmax
    exact ⟨e, by rw [configure, he]⟩

end Build

/-! ## What the call leaves -/

variable {env : Env} {casecmp : CStr → CStr → Bool} {parse : CStr → Option Json} {cfg : Option P8Config} {p : Proc}

/-- A core as the constructor leaves it is deleted with everything it has. -/
theorem Proc.deleted_blank (p : Proc) : p.deleted p.blank = p := rfl

/-- Deleting a core that has a pool leaves the process as it was. -/
theorem Proc.deleted_pooled (p : Proc) (c : MemoryConfig) : p.deleted (p.blank.pooled c) = p := rfl

/-- So does deleting one that has a sink as well. -/
theorem Proc.deleted_served (p : Proc) (c : MemoryConfig) (sink : Sink) :
    p.deleted ((p.blank.pooled c).served env sink) = p := rfl

/-- The configuration that a call of `p8_initialize` reads, if it comes to read one. -/
def ReadsConfig (env : Env) (parse : CStr → Option Json) (cfg : Option P8Config) (p : Proc) (j : Json) : Prop :=
  p.gpInstance = none ∧ p.published = none ∧ env.newCore = true ∧
    ∃ text, cfg = some ⟨some text⟩ ∧ parse text = some j

/-- No step of the call throws. -/
def NothingThrows (env : Env) (casecmp : CStr → CStr → Bool) (parse : CStr → Option Json) (cfg : Option P8Config) (p : Proc) :
    Prop :=
  ∀ j, ReadsConfig env parse cfg p j → Quiet env casecmp j

/-- A configuration that a core can be made of, and a system that makes it. -/
def Good (env : Env) (casecmp : CStr → CStr → Bool) (parse : CStr → Option Json) (cfg : Option P8Config) : Prop :=
  env.newCore = true ∧ env.create = true ∧
    ∃ text j, cfg = some ⟨some text⟩ ∧ parse text = some j ∧ Quiet env casecmp j ∧ HasPool env casecmp j ∧ GetsSink env j

/-- No exception gets out of the call, and one that does not succeed changes nothing, so
that a later one with a good configuration succeeds. -/
structure LeavesNoTrace (casecmp : CStr → CStr → Bool) (parse : CStr → Option Json) (p : Proc)
    (r : Proc × Except Thrown Bool) : Prop where
  returns : ∃ b, r.2 = .ok b
  unchanged : r.2 ≠ .ok true → r.1 = p
  later : ∀ env cfg, Good env casecmp parse cfg → (p8Initialize env casecmp parse cfg r.1).2 = .ok true

/-- A call that reads its configuration. -/
theorem p8Initialize_reads {j : Json} (h : ReadsConfig env parse cfg p j) :
    p8Initialize env casecmp parse cfg p = p.publish env (p.blank.configure env casecmp j) := by
  obtain ⟨hinst, hpub, hnew, text, rfl, hparse⟩ := h
  simp only [p8Initialize, hinst, hpub, Option.isSome_none, Bool.false_eq_true, if_false, if_pos hnew, Build.construct, hparse]

/-- Of a call that does not come to read a configuration only a success can be seen. -/
theorem p8Initialize_not_reads (h : ∀ j, ¬ ReadsConfig env parse cfg p j) :
    (∃ b, (p8Initialize env casecmp parse cfg p).2 = .ok b) ∧
      ((p8Initialize env casecmp parse cfg p).2 ≠ .ok true → (p8Initialize env casecmp parse cfg p).1 = p) := by
  unfold p8Initialize
  split
  · exact ⟨⟨true, rfl⟩, fun _ => rfl⟩
  · rename_i hinst
    split
    · exact ⟨⟨true, rfl⟩, fun hne => absurd rfl hne⟩
    · rename_i hpub
      split
      · exact ⟨⟨false, rfl⟩, fun _ => rfl⟩
      · rename_i cfg
        split
        · rename_i hnew
          have hblank : p.blank.construct env casecmp parse cfg = (p.blank, none) := by
            unfold Build.construct
            split
            · rfl
            · rename_i text htext
              split
              · rfl
              · rename_i j hparse
                refine absurd ⟨by simpa using hinst, hpub, hnew, text, ?_, hparse⟩ (h j)
                cases cfg
                exact congrArg (fun t => some (P8Config.mk t)) htext
          rw [hblank]
          exact ⟨⟨false, rfl⟩, fun _ => p.deleted_blank⟩
        · exact ⟨⟨false, rfl⟩, fun _ => rfl⟩

/-- A good configuration succeeds, whatever the state. -/
theorem p8Initialize_good (h : Good env casecmp parse cfg) (p : Proc) : (p8Initialize env casecmp parse cfg p).2 = .ok true := by
  obtain ⟨hnew, hcreate, text, j, hcfg, hparse, hq, hpool, hgets⟩ := h
  cases hinst : p.gpInstance with
  | some c => simp [p8Initialize, hinst]
  | none =>
    cases hpub : p.published with
    | some c => simp [p8Initialize, hinst, hpub]
    | none =>
      obtain ⟨c, -, hc⟩ := Build.configure_gets hq hpool hgets p.blank
      rw [p8Initialize_reads ⟨hinst, hpub, hnew, text, hcfg, hparse⟩, hc]
      simp [Proc.publish, Build.served, hcreate]

/-- What becomes of a core: an exception goes through, and a core that does not stay is gone with all it had. -/
theorem Proc.publish_throws {r : Build × Option Thrown} {e : Thrown} (h : r.2 = some e) :
    (p.publish env r).2 = .error e := by
  obtain ⟨b, t⟩ := r
  cases h
  rfl

/-- Publishing throws nothing, and changes nothing unless it succeeds. -/
theorem Proc.publish_returns (b : Build) (h : p.deleted b = p) :
    (∃ ok, (p.publish env (b, none)).2 = .ok ok) ∧
      ((p.publish env (b, none)).2 ≠ .ok true → (p.publish env (b, none)).1 = p) := by
  simp only [publish]
  split
  · split
    · exact ⟨⟨true, rfl⟩, fun hne => absurd rfl hne⟩
    · cases env.reread with
      | some c => exact ⟨⟨true, rfl⟩, fun hne => absurd rfl hne⟩
      | none => exact ⟨⟨false, rfl⟩, fun _ => h⟩
  · exact ⟨⟨false, rfl⟩, fun _ => h⟩

/-- A call leaves no trace exactly if no step of it throws. -/
theorem leavesNoTrace_iff (env : Env) (casecmp : CStr → CStr → Bool) (parse : CStr → Option Json) (cfg : Option P8Config)
    (p : Proc) :
    LeavesNoTrace casecmp parse p (p8Initialize env casecmp parse cfg p) ↔ NothingThrows env casecmp parse cfg p := by
  have hlater (r : Proc × Except Thrown Bool) (env' : Env) (cfg' : Option P8Config) (h : Good env' casecmp parse cfg') :=
    p8Initialize_good h r.1
  constructor
  · intro h j hreads
    by_contra hq
    obtain ⟨e, he⟩ := Build.configure_throws hq p.blank
    obtain ⟨b, hb⟩ := h.returns
    rw [p8Initialize_reads hreads, Proc.publish_throws he] at hb
    cases hb
  · intro h
    by_cases hreads : ∃ j, ReadsConfig env parse cfg p j
    · obtain ⟨j, hreads⟩ := hreads
      have hq := h j hreads
      have hmade : ∃ b, p.blank.configure env casecmp j = (b, none) ∧ p.deleted b = p := by
        by_cases hpool : HasPool env casecmp j
        · by_cases hgets : GetsSink env j
          · obtain ⟨c, -, hc⟩ := Build.configure_gets hq hpool hgets p.blank
            exact ⟨_, hc, p.deleted_served c _⟩
          · obtain ⟨c, hc⟩ := Build.configure_no_sink hq hpool hgets p.blank
            exact ⟨_, hc, p.deleted_pooled c⟩
        · exact ⟨_, Build.configure_no_pool hq hpool p.blank, p.deleted_blank⟩
      obtain ⟨b, hb, hdeleted⟩ := hmade
      refine ⟨?_, ?_, hlater _⟩
      · rw [p8Initialize_reads hreads, hb]
        exact (Proc.publish_returns b hdeleted).1
      · rw [p8Initialize_reads hreads, hb]
        exact (Proc.publish_returns b hdeleted).2
    · have hnone : ∀ j, ¬ ReadsConfig env parse cfg p j := fun j hj => hreads ⟨j, hj⟩
      exact ⟨(p8Initialize_not_reads hnone).1, (p8Initialize_not_reads hnone).2, hlater _⟩

/-- A system in which everything succeeds. -/
def Env.fine : Env where
  newCore := true
  newBudget := true
  newPool := true
  newSink := true
  newNull := true
  copyThrows _ := false
  openThrows := false
  directories := true
  svcFile := true
  dataFile := true
  eventInit := true
  threadStarts := true
  create := true
  reread := none

/-- Nothing is initialized. -/
def Proc.fresh : Proc := ⟨none, none, false, 0, ⟨0, 0, 0, 0⟩⟩

/-- A configuration with a number for the name of the sink. -/
def numberedSink : CStr := bytes "\x7b\"sink\": 1\x7d"

/-- The exception leaves the pool, its budget and the count of instances behind. -/
theorem leavesNoTrace_false :
    let parse : CStr → Option Json := fun text => if text = numberedSink then some (.object [(bytes "sink", .number)]) else none
    let r := p8Initialize Env.fine (· == ·) parse (some ⟨some numberedSink⟩) Proc.fresh
    r.1 = ⟨none, none, false, 1, ⟨0, 1, 1, 0⟩⟩ ∧ ¬ LeavesNoTrace (· == ·) parse Proc.fresh r := by
  intro parse r
  have hr : r = (⟨none, none, false, 1, ⟨0, 1, 1, 0⟩⟩, .error .typeError) := by decide +kernel
  refine ⟨by rw [hr], fun h => ?_⟩
  obtain ⟨b, hb⟩ := h.returns
  rw [hr] at hb
  cases hb

end P8
