import P8.Core.DropStats
import P8.Core.Flow
import P8.Mtk.Packets
import P8.Service.CallSites
import P8.Service.Modules

/-!
# System: a core with its writers, its worker and its files

One machine of everything between the calls of an application and the two files: any number of log and metric writers, which hold
real buffers, the registries and the service stream, the ready queue, the worker's cycle and the file sink. `Flow` looks at the
same system with buffers reduced to numbers; here they are bytes.

A call of `send` or `emit` is one step, taken at the end of its wait if it waits for a buffer: what the worker pulls from the
writer meanwhile it might as well have pulled in front of the call (`send_pulled`). A step that would write outside a buffer is
bad. `writer` of a buffer handed over, `written` and `accepted` are history.
-/

namespace P8

open Bytes Framing

/-- A thread-local writer. -/
inductive TlsWriter where
  | log (l : Log)
  | mtk (m : Mtk)

namespace TlsWriter

/-- A writer right after its construction. -/
def init (metrics : Bool) (threadId : UInt32) : TlsWriter :=
  if metrics then .mtk (Mtk.init true threadId) else .log (Log.init true threadId)

/-- The buffers a writer holds, in delivery order. -/
def bufs : TlsWriter → List DataBuf
  | .log l => l.bufs
  | .mtk m => m.bufs

/-- `cp8_tls_writer::pull`. -/
def pull : TlsWriter → TlsWriter × List DataBuf
  | .log l => (.log l.pull.1, l.pull.2)
  | .mtk m => (.mtk m.pull.1, m.pull.2)

/-- `cp8_tls_writer::core_push`: the tail buffer goes behind the fragments, and all of them are submitted. -/
def corePush : TlsWriter → TlsWriter × List DataBuf
  | .log l => (.log { l with fragments := [], buffer := none, bufUsed := 0 }, l.fragments ++ l.buffer.toList)
  | .mtk m => (.mtk { m with fragments := [], buffer := none, bufUsed := 0 }, m.fragments ++ m.buffer.toList)

/-- `mu_dropped_logs` of a log writer and `mu_dropped_metrics` of a metric writer; the other counters stay zero. -/
def dropped : TlsWriter → DropKind → Nat
  | .log l, .logs => l.droppedLogs
  | .mtk m, .metrics => m.droppedMetrics
  | _, _ => 0

/-- `cp8_tls_writer::pull_dropped`: the counters are read and reset. -/
def pullDropped (t : TlsWriter) : TlsWriter × (DropKind → Nat) :=
  match t with
  | .log l => (.log { l with droppedLogs := 0 }, t.dropped)
  | .mtk m => (.mtk { m with droppedMetrics := 0 }, t.dropped)

end TlsWriter

/-- How far the worker is with `poll_dropped_stats` in its cycle: not begun; under the registry's lock, with the writers still to
read and what the others had; behind the lock, with the sum still to add; or over. -/
inductive DropPoll (W : Type) where
  | idle
  | reading (todo : List W) (sum : DropKind → Nat)
  | adding (sum : DropKind → Nat)
  | polled

namespace DropPoll

/-- `poll_dropped_stats` goes on. -/
def busy {W : Type} : DropPoll W → Bool
  | .idle | .polled => false
  | .reading _ _ | .adding _ => true

/-- `poll_dropped_stats` holds the registry's lock. -/
def locked {W : Type} : DropPoll W → Bool
  | .reading _ _ => true
  | .idle | .adding _ | .polled => false

/-- What it has read and has not added yet. -/
def held {W : Type} : DropPoll W → DropKind → Nat
  | .reading _ sum | .adding sum => sum
  | .idle | .polled => fun _ => 0

/-- How many steps it still takes. -/
def left {W : Type} : DropPoll W → Nat
  | .reading todo _ => todo.length + 2
  | .adding _ => 1
  | .idle | .polled => 0

end DropPoll

/-- How far a writer is with its counters, which its destructor reads and adds to the core's totals. -/
inductive Settling where
  | counting
  | taken (stats : DropKind → Nat)
  | settled

/-- What its destructor has read and has not added yet. -/
def Settling.held : Settling → DropKind → Nat
  | .taken stats => stats
  | .counting | .settled => fun _ => 0

/-- A data buffer that has left its writer. -/
structure Handed (W : Type) where
  writer : W
  buf : DataBuf

/-- What a call that returned true was asked to record. -/
inductive Item where
  | log (a : Accepted)
  | mtk (id : Int32) (value : UInt64)

deriving instance DecidableEq for CyclePc

/-- A core with its writers, its worker and its sink. -/
structure Session (W B F : Type) where
  svc : SvcSys B
  phase : W → WriterPhase
  tls : W → TlsWriter
  registry : List W
  refCount : Nat
  owned : Bool
  stopping : Bool
  ready : List (Handed W)
  pc : CyclePc W
  stop : Bool
  batch : List (Handed W)
  flushed : List (Handed W)
  sink : SinkFile F
  written : List (Handed W)
  accepted : List (W × Item)
  total : DropKind → Nat
  poll : DropPoll W
  settle : W → Settling

/-- The steps. A log call names its module by its handle. `grown` is what the sink is told when it asks for a larger array. With
`poll` the worker finds a poll of the drop counters due; `pullDropped` and `addDropped` are a destructor's. -/
inductive SessionEv (W B : Type) where
  | service (ev : SvcEv B)
  | setVerbosity (module : Option Nat) (verbosity : Level)
  | attach (w : W)
  | registerWriter (w : W)
  | send (w : W) (module : Option Nat) (env : SendEnv) (c : Call)
  | emit (w : W) (env : EmitEnv) (id : Int32) (value : UInt64)
  | corePush (w : W)
  | pullDropped (w : W)
  | addDropped (w : W)
  | unregister (w : W)
  | release (w : W)
  | coreRelease
  | poll
  | worker (signal grown : Bool)

/-- A step of the service stream that is taken by a client of the core: a registration, the serializing of its descriptor, or a
write to a buffer of its own. Log descriptors are asked for by `send`, and the other steps are the worker's. -/
def SvcEv.ofClient {B : Type} : SvcEv B → Bool
  | .attrRegister _ _ _ | .registerModule _ _ _ _ | .registerMtk _ _ | .serialize _ _ | .use _ _ => true
  | .resolveLogDesc _ _ _ _ _ _ | .move | .writeService | .recycle => false

/-- The module a handle names, as `send` reads it. -/
def Registries.moduleOf (regs : Registries) (module : Option Nat) : Option LogMod :=
  module.bind fun i => (regs.logMods[i]?).map LogModule.toLogMod

namespace Session

variable {W B F : Type} [DecidableEq W] [DecidableEq B]

/-- A core right after its construction, its sink open and its worker started; `metrics` says which writers are for metrics. -/
def init (ops : FileOps F) (heap : B → Mem) (sink : SinkFile F) (hdr : Mem) (metrics : W → Bool) (threadId : W → UInt32) :
    Session W B F :=
  { svc := SvcSys.init heap
    phase := fun _ => .absent
    tls := fun w => TlsWriter.init (metrics w) (threadId w)
    registry := []
    refCount := 1
    owned := true
    stopping := false
    ready := []
    pc := .wait
    stop := false
    batch := []
    flushed := []
    sink := (sink.writeHello ops hdr).1
    written := []
    accepted := []
    total := fun _ => 0
    poll := .idle
    settle := fun _ => .counting }

/-- The worker holds the registry's lock. -/
def locked (s : Session W B F) : Bool :=
  match s.pc with
  | .pull _ => true
  | _ => s.poll.locked

/-- A writer is further on in its life. -/
def enter (s : Session W B F) (w : W) (phase : WriterPhase) : Session W B F :=
  { s with phase := Function.update s.phase w phase }

/-- A writer is in another state. -/
def setTls (s : Session W B F) (w : W) (t : TlsWriter) : Session W B F := { s with tls := Function.update s.tls w t }

/-- A reference is given up; the last one stops the worker. -/
def releaseRef (s : Session W B F) : Session W B F :=
  { s with refCount := s.refCount - 1, stopping := s.stopping || s.refCount == 1 }

/-- The state after a call of `send` of the writer `w`; the descriptor it has made goes to its serializer. -/
def afterSend (hash : CStr → UInt32 → UInt64) (s : Session W B F) (w : W) (c : Call) (o : Sent) : Session W B F :=
  { s.setTls w (.log o.log) with
    svc := s.svc.register (s.svc.regs.withDescs o.core (hash c.file c.line))
    accepted := if o.outcome.result then s.accepted ++ [(w, .log ⟨c, o.core⟩)] else s.accepted }

/-- The state after a call of `emit` of the writer `w`. -/
def afterEmit (s : Session W B F) (w : W) (id : Int32) (value : UInt64) (o : Emitted) : Session W B F :=
  { s.setTls w (.mtk o.mtk) with
    accepted := if o.result then s.accepted ++ [(w, .mtk id value)] else s.accepted }

/-- The service buffers the worker has moved, and how much of each it asks to have written. -/
def moved (s : Session W B F) : List (SvcBuf Mem) := s.svc.worker.map fun b => ⟨s.svc.svc.heap b.buf, b.used⟩

/-- The data buffers of the worker's batch. -/
def images (s : Session W B F) : List Mem := s.batch.map fun h => h.buf.image

/-- The sink after `write_service`, which is not called for an empty list. -/
def serviceSink (ops : FileOps F) (grown : Bool) (s : Session W B F) : Except Halt (SinkFile F) :=
  if s.moved.length = 0 then .ok s.sink else (s.sink.writeService ops grown s.moved).map Prod.fst

/-- The sink after `write_data`, which is not called for an empty list. -/
def dataSink (ops : FileOps F) (grown : Bool) (s : Session W B F) : Except Halt (SinkFile F) :=
  if s.images.length = 0 then .ok s.sink else (s.sink.writeData ops grown s.images).map Prod.fst

/-- The worker writes the service buffers it has moved and gives them back. -/
def writeService (ops : FileOps F) (grown : Bool) (s : Session W B F) : Except Halt (Session W B F) := do
  let sink ← s.serviceSink ops grown
  let svc ← s.svc.step .writeService
  let svc ← svc.step .recycle
  return { s with svc := svc, sink := sink, pc := .ready }

/-- `flush_ready`, up to the recycling of the batch. -/
def flushReady (ops : FileOps F) (grown : Bool) (s : Session W B F) : Except Halt (Session W B F) := do
  let sink ← s.dataSink ops grown
  return { s with
    sink := sink, written := s.written ++ s.batch, flushed := s.batch, batch := [], pc := .recycle, poll := .idle }

/-- `cp8_core::accumulate_dropped`. -/
def accumulateDropped (s : Session W B F) (stats : DropKind → Nat) : Session W B F :=
  { s with total := fun k => s.total k + stats k }

/-- A writer's counters are read and reset. -/
def readDropped (s : Session W B F) (w : W) : Session W B F := s.setTls w (s.tls w).pullDropped.1

/-- A step of `poll_dropped_stats`. -/
def pollStep (s : Session W B F) : Session W B F :=
  match s.poll with
  | .idle | .polled => s
  | .reading [] sum => { s with poll := .adding sum }
  | .reading (w :: ws) sum =>
    { s.readDropped w with poll := .reading ws fun k => sum k + (s.tls w).pullDropped.2 k }
  | .adding sum => { s.accumulateDropped sum with poll := .polled }

/-- A step of `worker_main`. -/
def workerStep (ops : FileOps F) (s : Session W B F) (signal grown : Bool) : Except Halt (Session W B F) :=
  match s.pc with
  | .wait => when (signal = true → s.stopping = true) (.ok { s with stop := signal, pc := .svc })
  | .svc => (s.svc.step .move).map fun svc => { s with svc := svc, pc := .writeSvc }
  | .writeSvc => s.writeService ops grown
  | .ready => .ok { s with batch := s.batch ++ s.ready, ready := [], pc := .drain }
  | .drain => .ok { s with pc := .pull s.registry }
  | .pull [] => .ok { s with pc := .flush }
  | .pull (w :: ws) =>
    .ok { s.setTls w (s.tls w).pull.1 with batch := s.batch ++ (s.tls w).pull.2.map (Handed.mk w), pc := .pull ws }
  | .flush => if s.poll.busy then .ok s.pollStep else s.flushReady ops grown
  | .recycle => .ok { s with flushed := [], pc := if s.stop then .done else .wait }
  | .done => .error .disabled

/-- One step. -/
def step (hash : CStr → UInt32 → UInt64) (ops : FileOps F) (s : Session W B F) :
    SessionEv W B → Except Halt (Session W B F)
  | .service ev => when (ev.ofClient = true) ((s.svc.step ev).map fun svc => { s with svc := svc })
  | .setVerbosity module verbosity =>
    .ok { s with svc := { s.svc with regs := s.svc.regs.setVerbosity module verbosity } }
  | .attach w =>
    when (s.phase w = .absent ∧ 0 < s.refCount) (.ok { s.enter w .attached with refCount := s.refCount + 1 })
  | .registerWriter w =>
    when (s.phase w = .attached ∧ s.locked = false) (.ok { s.enter w .live with registry := w :: s.registry })
  | .send w module env c =>
    match s.tls w with
    | .mtk _ => .error .disabled
    | .log l =>
      when (s.phase w = .live ∧ env.pulled = false ∧ ∀ i ∈ module, i < s.svc.regs.logMods.length) <|
        match l.send hash s.svc.regs.core env { c with module := s.svc.regs.moduleOf module } with
        | .error _ => .error .badAccess
        | .ok o => .ok (s.afterSend hash w { c with module := s.svc.regs.moduleOf module } o)
  | .emit w env id value =>
    match s.tls w with
    | .log _ => .error .disabled
    | .mtk m =>
      when (s.phase w = .live ∧ env.pulled = false) <|
        match m.emit { env with mtkCount := s.svc.regs.getMtkCount } id value with
        | .error _ => .error .badAccess
        | .ok o => .ok (s.afterEmit w id value o)
  | .corePush w =>
    when (s.phase w = .live) (.ok
      { (s.setTls w (s.tls w).corePush.1).enter w .pushed with
        ready := s.ready ++ (s.tls w).corePush.2.map (Handed.mk w) })
  | .pullDropped w =>
    match s.settle w with
    | .counting =>
      when (s.phase w = .pushed) (.ok
        { s.readDropped w with settle := Function.update s.settle w (.taken (s.tls w).pullDropped.2) })
    | .taken _ | .settled => .error .disabled
  | .addDropped w =>
    match s.settle w with
    | .taken stats => .ok { s.accumulateDropped stats with settle := Function.update s.settle w .settled }
    | .counting | .settled => .error .disabled
  | .unregister w =>
    match s.settle w with
    | .settled =>
      when (s.phase w = .pushed ∧ s.locked = false)
        (.ok { s.enter w .unregistered with registry := s.registry.erase w })
    | .counting | .taken _ => .error .disabled
  | .release w => when (s.phase w = .unregistered) (.ok (s.enter w .gone).releaseRef)
  | .coreRelease => when (s.owned = true) (.ok { s.releaseRef with owned := false })
  | .poll =>
    match s.poll with
    | .idle => when (s.pc = .flush) (.ok { s with poll := .reading s.registry fun _ => 0 })
    | .reading _ _ | .adding _ | .polled => .error .disabled
  | .worker signal grown => s.workerStep ops signal grown

/-- A run of steps. -/
def run (hash : CStr → UInt32 → UInt64) (ops : FileOps F) (s : Session W B F) (evs : List (SessionEv W B)) :
    Except Halt (Session W B F) :=
  Runs.run (step hash ops) s evs

/-! ## What a step can do -/

variable {hash : CStr → UInt32 → UInt64} {ops : FileOps F} {s s' : Session W B F}

variable (ops) in
/-- What the worker's step can do, by where it is in its cycle. -/
inductive WorkerSteps (s : Session W B F) (signal grown : Bool) : Session W B F → Prop where
  | wait (hpc : s.pc = .wait) (hsignal : signal = true → s.stopping = true) :
    WorkerSteps s signal grown { s with stop := signal, pc := .svc }
  | svc (svc : SvcSys B) (hpc : s.pc = .svc) (hmove : s.svc.step .move = .ok svc) :
    WorkerSteps s signal grown { s with svc := svc, pc := .writeSvc }
  | writeSvc (sink : SinkFile F) (ok : Bool) (svc svc' : SvcSys B) (hpc : s.pc = .writeSvc)
      (hsink : s.sink.writeService ops grown s.moved = .ok (sink, ok))
      (hwrite : s.svc.step .writeService = .ok svc) (hrecycle : svc.step .recycle = .ok svc') :
    WorkerSteps s signal grown { s with svc := svc', sink := sink, pc := .ready }
  | ready (hpc : s.pc = .ready) :
    WorkerSteps s signal grown { s with batch := s.batch ++ s.ready, ready := [], pc := .drain }
  | drain (hpc : s.pc = .drain) : WorkerSteps s signal grown { s with pc := .pull s.registry }
  | pulled (hpc : s.pc = .pull []) : WorkerSteps s signal grown { s with pc := .flush }
  | pull (w : W) (ws : List W) (hpc : s.pc = .pull (w :: ws)) :
    WorkerSteps s signal grown
      { s.setTls w (s.tls w).pull.1 with batch := s.batch ++ (s.tls w).pull.2.map (Handed.mk w), pc := .pull ws }
  | poll (hpc : s.pc = .flush) (hbusy : s.poll.busy = true) : WorkerSteps s signal grown s.pollStep
  | flush (sink : SinkFile F) (ok : Bool) (hpc : s.pc = .flush) (hidle : s.poll.busy = false)
      (hsink : s.sink.writeData ops grown s.images = .ok (sink, ok)) :
    WorkerSteps s signal grown
      { s with
        sink := sink, written := s.written ++ s.batch, flushed := s.batch, batch := [], pc := .recycle, poll := .idle }
  | recycle (hpc : s.pc = .recycle) :
    WorkerSteps s signal grown { s with flushed := [], pc := if s.stop then .done else .wait }

variable (hash ops) in
/-- What a step can do, with what it asks for. -/
inductive Steps (s : Session W B F) : SessionEv W B → Session W B F → Prop where
  | service (ev : SvcEv B) (svc : SvcSys B) (hclient : ev.ofClient = true) (hstep : s.svc.step ev = .ok svc) :
    Steps s (.service ev) { s with svc := svc }
  | setVerbosity (module : Option Nat) (verbosity : Level) :
    Steps s (.setVerbosity module verbosity)
      { s with svc := { s.svc with regs := s.svc.regs.setVerbosity module verbosity } }
  | attach (w : W) (hphase : s.phase w = .absent) (hpos : 0 < s.refCount) :
    Steps s (.attach w) { s.enter w .attached with refCount := s.refCount + 1 }
  | registerWriter (w : W) (hphase : s.phase w = .attached) (hfree : s.locked = false) :
    Steps s (.registerWriter w) { s.enter w .live with registry := w :: s.registry }
  | send (w : W) (module : Option Nat) (env : SendEnv) (c : Call) (l : Log) (o : Sent) (htls : s.tls w = .log l)
      (hphase : s.phase w = .live) (hpulled : env.pulled = false) (hmodule : ∀ i ∈ module, i < s.svc.regs.logMods.length)
      (ho : l.send hash s.svc.regs.core env { c with module := s.svc.regs.moduleOf module } = .ok o) :
    Steps s (.send w module env c) (s.afterSend hash w { c with module := s.svc.regs.moduleOf module } o)
  | emit (w : W) (env : EmitEnv) (id : Int32) (value : UInt64) (m : Mtk) (o : Emitted) (htls : s.tls w = .mtk m)
      (hphase : s.phase w = .live) (hpulled : env.pulled = false)
      (ho : m.emit { env with mtkCount := s.svc.regs.getMtkCount } id value = .ok o) :
    Steps s (.emit w env id value) (s.afterEmit w id value o)
  | corePush (w : W) (hphase : s.phase w = .live) :
    Steps s (.corePush w)
      { (s.setTls w (s.tls w).corePush.1).enter w .pushed with
        ready := s.ready ++ (s.tls w).corePush.2.map (Handed.mk w) }
  | pullDropped (w : W) (hphase : s.phase w = .pushed) (hsettle : s.settle w = .counting) :
    Steps s (.pullDropped w)
      { s.readDropped w with settle := Function.update s.settle w (.taken (s.tls w).pullDropped.2) }
  | addDropped (w : W) (stats : DropKind → Nat) (hsettle : s.settle w = .taken stats) :
    Steps s (.addDropped w) { s.accumulateDropped stats with settle := Function.update s.settle w .settled }
  | unregister (w : W) (hphase : s.phase w = .pushed) (hsettle : s.settle w = .settled) (hfree : s.locked = false) :
    Steps s (.unregister w) { s.enter w .unregistered with registry := s.registry.erase w }
  | release (w : W) (hphase : s.phase w = .unregistered) : Steps s (.release w) (s.enter w .gone).releaseRef
  | coreRelease (howned : s.owned = true) : Steps s .coreRelease { s.releaseRef with owned := false }
  | poll (hpc : s.pc = .flush) (hidle : s.poll = .idle) : Steps s .poll { s with poll := .reading s.registry fun _ => 0 }
  | worker (signal grown : Bool) (s' : Session W B F) (h : WorkerSteps ops s signal grown s') :
    Steps s (.worker signal grown) s'

/-- A sink that is not called, since there is nothing to write, is as one that is given nothing. -/
theorem writeBatch_nil {sink sink' : SinkFile F} {w : OutFile} {grown : Bool} {entries : List Iovec} {n : Nat}
    (hlen : n = entries.length)
    (hs : (if n = 0 then Except.ok sink else (sink.writeBatch ops w grown entries).map Prod.fst) = .ok sink') :
    ∃ ok, sink.writeBatch ops w grown entries = .ok (sink', ok) := by
  split at hs
  · rename_i hzero
    cases hs
    exact ⟨true, by rw [SinkFile.writeBatch, if_pos (hlen ▸ hzero)]⟩
  · cases hb : sink.writeBatch ops w grown entries with
    | error e =>
      rw [hb] at hs
      cases hs
    | ok r =>
      rw [hb] at hs
      cases hs
      exact ⟨r.2, rfl⟩

/-- What a step that goes on with the result of another comes to. -/
theorem bind_eq_ok {α β : Type} {x : Except Halt α} {f : α → Except Halt β} {b : β} (h : x >>= f = .ok b) :
    ∃ a, x = .ok a ∧ f a = .ok b := by
  cases x with
  | error e => cases h
  | ok a => exact ⟨a, rfl, h⟩

/-- What a step that is the result of another comes to. -/
theorem map_eq_ok {α β : Type} {x : Except Halt α} {f : α → β} {b : β} (h : x.map f = .ok b) : ∃ a, x = .ok a ∧ f a = b := by
  cases x with
  | error e => cases h
  | ok a => exact ⟨a, rfl, Except.ok.inj h⟩

/-- What a step of the worker was. -/
theorem workerStep_cases {signal grown : Bool} (hs : s.workerStep ops signal grown = .ok s') :
    WorkerSteps ops s signal grown s' := by
  unfold Session.workerStep at hs
  split at hs
  · rename_i hpc
    obtain ⟨hsignal, hs⟩ := when_eq_ok.mp hs
    cases hs
    exact .wait hpc hsignal
  · rename_i hpc
    obtain ⟨svc, hmove, rfl⟩ := map_eq_ok hs
    exact .svc svc hpc hmove
  · rename_i hpc
    unfold Session.writeService at hs
    obtain ⟨sink, hsink, hs⟩ := bind_eq_ok hs
    obtain ⟨svc, hwrite, hs⟩ := bind_eq_ok hs
    obtain ⟨svc', hrecycle, hs⟩ := bind_eq_ok hs
    cases hs
    obtain ⟨ok, hok⟩ := writeBatch_nil (by simp) hsink
    exact .writeSvc sink ok svc svc' hpc hok hwrite hrecycle
  · rename_i hpc
    cases hs
    exact .ready hpc
  · rename_i hpc
    cases hs
    exact .drain hpc
  · rename_i hpc
    cases hs
    exact .pulled hpc
  · rename_i w ws hpc
    cases hs
    exact .pull w ws hpc
  · rename_i hpc
    split at hs
    · rename_i hbusy
      cases hs
      exact .poll hpc hbusy
    rename_i hidle
    unfold Session.flushReady at hs
    obtain ⟨sink, hsink, hs⟩ := bind_eq_ok hs
    cases hs
    obtain ⟨ok, hok⟩ := writeBatch_nil (by simp) hsink
    exact .flush sink ok hpc (Bool.eq_false_iff.mpr hidle) hok
  · rename_i hpc
    cases hs
    exact .recycle hpc
  · cases hs

/-- What a step was. -/
theorem step_cases {ev : SessionEv W B} (hs : s.step hash ops ev = .ok s') : Steps hash ops s ev s' := by
  cases ev with
  | service ev =>
    obtain ⟨hclient, hs⟩ := when_eq_ok.mp hs
    obtain ⟨svc, hstep, rfl⟩ := map_eq_ok hs
    exact .service ev svc hclient hstep
  | setVerbosity module verbosity =>
    cases hs
    exact .setVerbosity module verbosity
  | attach w =>
    obtain ⟨⟨hphase, hpos⟩, hs⟩ := when_eq_ok.mp hs
    cases hs
    exact .attach w hphase hpos
  | registerWriter w =>
    obtain ⟨⟨hphase, hfree⟩, hs⟩ := when_eq_ok.mp hs
    cases hs
    exact .registerWriter w hphase hfree
  | send w module env c =>
    dsimp only [Session.step] at hs
    split at hs
    · cases hs
    · rename_i l htls
      obtain ⟨⟨hphase, hpulled, hmodule⟩, hs⟩ := when_eq_ok.mp hs
      split at hs
      · cases hs
      · rename_i o ho
        cases hs
        exact .send w module env c l o htls hphase hpulled hmodule ho
  | emit w env id value =>
    dsimp only [Session.step] at hs
    split at hs
    · cases hs
    · rename_i m htls
      obtain ⟨⟨hphase, hpulled⟩, hs⟩ := when_eq_ok.mp hs
      split at hs
      · cases hs
      · rename_i o ho
        cases hs
        exact .emit w env id value m o htls hphase hpulled ho
  | corePush w =>
    obtain ⟨hphase, hs⟩ := when_eq_ok.mp hs
    cases hs
    exact .corePush w hphase
  | pullDropped w =>
    dsimp only [Session.step] at hs
    split at hs
    · rename_i hsettle
      obtain ⟨hphase, hs⟩ := when_eq_ok.mp hs
      cases hs
      exact .pullDropped w hphase hsettle
    · cases hs
    · cases hs
  | addDropped w =>
    dsimp only [Session.step] at hs
    split at hs
    · rename_i stats hsettle
      cases hs
      exact .addDropped w stats hsettle
    · cases hs
    · cases hs
  | unregister w =>
    dsimp only [Session.step] at hs
    split at hs
    · rename_i hsettle
      obtain ⟨⟨hphase, hfree⟩, hs⟩ := when_eq_ok.mp hs
      cases hs
      exact .unregister w hphase hsettle hfree
    · cases hs
    · cases hs
  | release w =>
    obtain ⟨hphase, hs⟩ := when_eq_ok.mp hs
    cases hs
    exact .release w hphase
  | coreRelease =>
    obtain ⟨howned, hs⟩ := when_eq_ok.mp hs
    cases hs
    exact .coreRelease howned
  | poll =>
    dsimp only [Session.step] at hs
    split at hs
    · rename_i hidle
      obtain ⟨hpc, hs⟩ := when_eq_ok.mp hs
      cases hs
      exact .poll hpc hidle
    · cases hs
    · cases hs
    · cases hs
  | worker signal grown => exact .worker signal grown s' (workerStep_cases hs)

/-! ## Steps of the statistics -/

/-- Two states differ in what is counted as dropped at most. -/
structure DropsOnly (s s' : Session W B F) : Prop where
  tls : ∀ w, s'.tls w = s.tls w ∨ s'.tls w = (s.tls w).pullDropped.1
  same : s' = { s with tls := s'.tls, total := s'.total, poll := s'.poll, settle := s'.settle }

omit [DecidableEq B] in
/-- Of the other writers nothing is read. -/
theorem readDropped_tls (s : Session W B F) (w u : W) :
    (s.readDropped w).tls u = s.tls u ∨ (s.readDropped w).tls u = (s.tls u).pullDropped.1 := by
  by_cases hu : u = w
  · subst hu
    exact Or.inr (Function.update_self u _ s.tls)
  · exact Or.inl (Function.update_of_ne hu _ s.tls)

omit [DecidableEq B] in
/-- `poll_dropped_stats` touches nothing but the counts. -/
theorem dropsOnly_pollStep (s : Session W B F) : s.DropsOnly s.pollStep := by
  unfold pollStep
  split
  · exact ⟨fun _ => Or.inl rfl, rfl⟩
  · exact ⟨fun _ => Or.inl rfl, rfl⟩
  · exact ⟨fun _ => Or.inl rfl, rfl⟩
  · exact ⟨s.readDropped_tls _, rfl⟩
  · exact ⟨fun _ => Or.inl rfl, rfl⟩

omit [DecidableEq B] in
/-- Nor does the destructor that reads its counters. -/
theorem dropsOnly_pullDropped (s : Session W B F) (w : W) (settle : W → Settling) :
    s.DropsOnly { s.readDropped w with settle := settle } := ⟨s.readDropped_tls w, rfl⟩

omit [DecidableEq W] [DecidableEq B] in
/-- Nor the one that adds them to the totals, nor the worker that begins a poll. -/
theorem dropsOnly_rest (s : Session W B F) (total : DropKind → Nat) (poll : DropPoll W) (settle : W → Settling) :
    s.DropsOnly { s with total := total, poll := poll, settle := settle } := ⟨fun _ => Or.inl rfl, rfl⟩

/-! ## A run -/

/-- A core with one log writer, and files that take everything. -/
def oneWriter : Session Unit Nat ScriptFile :=
  init ScriptFile.ops (fun _ _ => 0) (ScriptFile.opened []) (fun _ => 0) (fun _ => false) (fun _ => 7)

/-- A record, its descriptor, and all that follows until the worker has ended. -/
def oneRecord : List (SessionEv Unit Nat) :=
  [.attach (), .registerWriter (), .send () none LogSys.plenty (LogSys.textCall [104, 105]), .service (.serialize 0 (some 5)),
    .corePush (), .pullDropped (), .addDropped (), .unregister (), .release (), .coreRelease] ++
    List.replicate 8 (.worker true true)

end Session

end P8
