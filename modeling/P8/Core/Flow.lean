import Mathlib.Logic.Function.Basic
import P8.Lib.Sources
import P8.Steps

/-!
# Flow: data and descriptors on their way to the sink

The writers of a core, the ready queue, the service buffers and the worker's loop, with any number of writers. A step is what a
thread does under one lock: a writer parks its buffer or takes a new one, writes a record, hands over its buffers in its destructor,
enters and leaves the registry; a registration appends its entry to the service buffers; the worker goes from one lock of its cycle to
the next, the registry staying locked while it pulls. A call that waits for a buffer is two steps, and so is one that takes a buffer
and writes a record.

Of a data buffer only its place counts here, not its bytes: it is numbered when its writer takes it, and lists the descriptors its
records refer to. `written`, `recycled`, `rolledBack`, `svcWritten`, `svcDropped` and `oversized` are history.
-/

namespace P8

/-- A descriptor, by what a record calls it: the hash of a log descriptor, or the id of an attribute, a module or a metric. -/
inductive DescKey where
  | log (hash : UInt64)
  | attr (id : Int32)
  | mod (id : UInt16)
  | mtk (id : Int32)
  deriving DecidableEq

/-- A data buffer a writer has taken, its `serial`-th one. `cont` says that it is marked as continued by the writer's next one. -/
structure Filled (W : Type) where
  writer : W
  serial : Nat
  cont : Bool
  refs : List DescKey
  deriving DecidableEq

/-- How far a writer is: it counts as a reference of the core from `attached` on, it is registered from `live` to `pushed`. -/
inductive WriterPhase where
  | absent | attached | live | pushed | unregistered | gone
  deriving DecidableEq

/-- A writer: `mo_fragments`, `mp_buffer`, and the number of buffers it has taken. -/
structure WriterState (W : Type) where
  phase : WriterPhase
  fragments : List (Filled W)
  buffer : Option (Filled W)
  next : Nat

/-- Where `worker_main` stands: waiting for its event, in front of the service buffers' lock, of `write_service`, of the ready
queue's lock and of the registry's, with writers left to pull from, in front of `write_data`, of the recycling, or at its end. -/
inductive CyclePc (W : Type) where
  | wait
  | svc
  | writeSvc
  | ready
  | drain
  | pull (writers : List W)
  | flush
  | recycle
  | done

/-- A core with its writers and its worker. `ready`, `batch` and `svc`, `svcBatch` are the shared lists and the worker's own;
`flushed` is the batch between `write_data` and its recycling. -/
structure FlowSys (W : Type) where
  writer : W → WriterState W
  registry : List W
  refCount : Nat
  owned : Bool
  stopping : Bool
  ready : List (Filled W)
  pc : CyclePc W
  stop : Bool
  batch : List (Filled W)
  flushed : List (Filled W)
  registered : List DescKey
  svc : List DescKey
  svcBatch : List DescKey
  svcWritten : List DescKey
  svcDropped : List DescKey
  oversized : List DescKey
  written : List (List (Filled W))
  recycled : List (Filled W)
  rolledBack : List (Filled W)

/-- How the entry of a new descriptor fares: it is appended, there is no buffer for it, or it is larger than a buffer. -/
inductive EntryFate where
  | stored | noBuffer | tooLarge

/-- How a record ends: its last buffer is kept for the next record, or parked, or a rotation finds no buffer. -/
inductive RecordEnd where
  | kept | parked | discarded

/-- The steps. A record refers to `refs` and rotates into so many buffers. The worker's event wakes it with or without the signal
to stop. -/
inductive FlowEv (W : Type) where
  | register (d : DescKey) (fate : EntryFate)
  | attach (w : W)
  | registerWriter (w : W)
  | park (w : W)
  | fetch (w : W)
  | record (w : W) (refs : List DescKey) (rotations : Nat) (ending : RecordEnd)
  | corePush (w : W)
  | unregister (w : W)
  | release (w : W)
  | coreRelease
  | worker (signal : Bool)

namespace WriterState

variable {W : Type}

/-- The buffers a writer holds, in the order it filled them. -/
def held (st : WriterState W) : List (Filled W) := st.fragments ++ st.buffer.toList

/-- A full buffer is parked. -/
def park (st : WriterState W) : WriterState W :=
  match st.buffer with
  | some b => { st with fragments := st.fragments ++ [b], buffer := none }
  | none => st

/-- The writer `w` takes a new buffer. -/
def fetch (w : W) (st : WriterState W) : WriterState W :=
  { st with buffer := some ⟨w, st.next, false, []⟩, next := st.next + 1 }

/-- A record that goes on from the buffer `b` into so many new ones, numbered from `n` on: the buffers it leaves behind, marked as
continued, and its last one. -/
def rotate (refs : List DescKey) : Nat → Nat → Filled W → List (Filled W) × Filled W
  | 0, _, b => ([], b)
  | k + 1, n, b =>
    let r := rotate refs k (n + 1) ⟨b.writer, n, false, refs⟩
    ({ b with cont := true } :: r.1, r.2)

/-- A record begun in the buffer `b`, and the buffers given back if it is discarded: `rotate_fragment_buffer` parks the last one
before it looks for a new one, and `lbl_discard` takes back all that were parked since. -/
def record (refs : List DescKey) (rotations : Nat) (ending : RecordEnd) (st : WriterState W) (b : Filled W) :
    WriterState W × List (Filled W) :=
  let r := rotate refs rotations st.next { b with refs := b.refs ++ refs }
  match ending with
  | .kept => ({ st with fragments := st.fragments ++ r.1, buffer := some r.2, next := st.next + rotations }, [])
  | .parked => ({ st with fragments := st.fragments ++ r.1 ++ [r.2], buffer := none, next := st.next + rotations }, [])
  | .discarded =>
    let parked := st.fragments ++ r.1 ++ [{ r.2 with cont := true }]
    ({ st with fragments := parked.take st.fragments.length, buffer := none, next := st.next + rotations },
      parked.drop st.fragments.length)

/-- A writer whose buffers have been taken. -/
def emptied (st : WriterState W) : WriterState W := { st with fragments := [], buffer := none }

/-- A writer further on in its life. -/
def enter (phase : WriterPhase) (st : WriterState W) : WriterState W := { st with phase := phase }

end WriterState

namespace FlowSys

variable {W : Type} [DecidableEq W]

/-- A core right after its construction, its worker started. -/
def init : FlowSys W :=
  { writer := fun _ => ⟨.absent, [], none, 0⟩
    registry := []
    refCount := 1
    owned := true
    stopping := false
    ready := []
    pc := .wait
    stop := false
    batch := []
    flushed := []
    registered := []
    svc := []
    svcBatch := []
    svcWritten := []
    svcDropped := []
    oversized := []
    written := []
    recycled := []
    rolledBack := [] }

/-- The worker holds the registry's lock. -/
def locked (s : FlowSys W) : Bool :=
  match s.pc with
  | .pull _ => true
  | _ => false

/-- One writer is in another state. -/
def setWriter (s : FlowSys W) (w : W) (st : WriterState W) : FlowSys W := { s with writer := Function.update s.writer w st }

/-- A reference is given up; the last one stops the worker. -/
def releaseRef (s : FlowSys W) : FlowSys W :=
  { s with refCount := s.refCount - 1, stopping := s.stopping || s.refCount == 1 }

/-- The worker's step. -/
def workerStep (s : FlowSys W) (signal : Bool) : Except Halt (FlowSys W) :=
  match s.pc with
  | .wait => when (signal = true → s.stopping = true) (.ok { s with stop := signal, pc := .svc })
  | .svc => .ok { s with svcBatch := s.svc, svc := [], pc := .writeSvc }
  | .writeSvc => .ok { s with svcWritten := s.svcWritten ++ s.svcBatch, svcBatch := [], pc := .ready }
  | .ready => .ok { s with batch := s.batch ++ s.ready, ready := [], pc := .drain }
  | .drain => .ok { s with pc := .pull s.registry }
  | .pull [] => .ok { s with pc := .flush }
  | .pull (w :: ws) =>
    .ok { s.setWriter w (s.writer w).emptied with batch := s.batch ++ (s.writer w).held, pc := .pull ws }
  | .flush =>
    .ok { s with
      written := if s.batch = [] then s.written else s.written ++ [s.batch]
      flushed := s.batch
      batch := []
      pc := .recycle }
  | .recycle => .ok { s with recycled := s.recycled ++ s.flushed, flushed := [], pc := if s.stop then .done else .wait }
  | .done => .error .disabled

/-- One step. A descriptor is registered once, and a record refers to registered ones. -/
def step (s : FlowSys W) : FlowEv W → Except Halt (FlowSys W)
  | .register d fate =>
    when (d ∉ s.registered) (.ok
      { s with
        registered := s.registered ++ [d]
        svc := match fate with
          | .stored => s.svc ++ [d]
          | _ => s.svc
        svcDropped := match fate with
          | .noBuffer => s.svcDropped ++ [d]
          | _ => s.svcDropped
        oversized := match fate with
          | .tooLarge => s.oversized ++ [d]
          | _ => s.oversized })
  | .attach w =>
    when ((s.writer w).phase = .absent ∧ 0 < s.refCount) (.ok
      { s.setWriter w ((s.writer w).enter .attached) with refCount := s.refCount + 1 })
  | .registerWriter w =>
    when ((s.writer w).phase = .attached ∧ s.locked = false) (.ok
      { s.setWriter w ((s.writer w).enter .live) with registry := w :: s.registry })
  | .park w => when ((s.writer w).phase = .live) (.ok (s.setWriter w (s.writer w).park))
  | .fetch w =>
    when ((s.writer w).phase = .live ∧ (s.writer w).buffer = none) (.ok (s.setWriter w ((s.writer w).fetch w)))
  | .record w refs rotations ending =>
    match (s.writer w).buffer with
    | none => .error .disabled
    | some b =>
      let r := (s.writer w).record refs rotations ending b
      when ((s.writer w).phase = .live ∧ ∀ d ∈ refs, d ∈ s.registered) (.ok
        { s.setWriter w r.1 with rolledBack := s.rolledBack ++ r.2 })
  | .corePush w =>
    when ((s.writer w).phase = .live) (.ok
      { s.setWriter w ((s.writer w).emptied.enter .pushed) with ready := s.ready ++ (s.writer w).held })
  | .unregister w =>
    when ((s.writer w).phase = .pushed ∧ s.locked = false) (.ok
      { s.setWriter w ((s.writer w).enter .unregistered) with registry := s.registry.erase w })
  | .release w =>
    when ((s.writer w).phase = .unregistered) (.ok (s.setWriter w ((s.writer w).enter .gone)).releaseRef)
  | .coreRelease => when (s.owned = true) (.ok { s.releaseRef with owned := false })
  | .worker signal => s.workerStep signal

/-- A run of steps. -/
def run (s : FlowSys W) (evs : List (FlowEv W)) : Except Halt (FlowSys W) := Runs.run step s evs

/-- What the worker's step can do, by where it is in its cycle. -/
inductive WorkerSteps (s : FlowSys W) (signal : Bool) : FlowSys W → Prop where
  | wait (hpc : s.pc = .wait) (hsignal : signal = true → s.stopping = true) :
    WorkerSteps s signal { s with stop := signal, pc := .svc }
  | svc (hpc : s.pc = .svc) : WorkerSteps s signal { s with svcBatch := s.svc, svc := [], pc := .writeSvc }
  | writeSvc (hpc : s.pc = .writeSvc) :
    WorkerSteps s signal { s with svcWritten := s.svcWritten ++ s.svcBatch, svcBatch := [], pc := .ready }
  | ready (hpc : s.pc = .ready) : WorkerSteps s signal { s with batch := s.batch ++ s.ready, ready := [], pc := .drain }
  | drain (hpc : s.pc = .drain) : WorkerSteps s signal { s with pc := .pull s.registry }
  | pulled (hpc : s.pc = .pull []) : WorkerSteps s signal { s with pc := .flush }
  | pull (w : W) (ws : List W) (hpc : s.pc = .pull (w :: ws)) :
    WorkerSteps s signal { s.setWriter w (s.writer w).emptied with batch := s.batch ++ (s.writer w).held, pc := .pull ws }
  | flush (hpc : s.pc = .flush) :
    WorkerSteps s signal { s with
      written := if s.batch = [] then s.written else s.written ++ [s.batch]
      flushed := s.batch
      batch := []
      pc := .recycle }
  | recycle (hpc : s.pc = .recycle) :
    WorkerSteps s signal { s with
      recycled := s.recycled ++ s.flushed, flushed := [], pc := if s.stop then .done else .wait }

/-- What a step can do, with what it asks for. -/
inductive Steps (s : FlowSys W) : FlowEv W → FlowSys W → Prop where
  | register (d : DescKey) (fate : EntryFate) (hnew : d ∉ s.registered) :
    Steps s (.register d fate) { s with
      registered := s.registered ++ [d]
      svc := match fate with
        | .stored => s.svc ++ [d]
        | _ => s.svc
      svcDropped := match fate with
        | .noBuffer => s.svcDropped ++ [d]
        | _ => s.svcDropped
      oversized := match fate with
        | .tooLarge => s.oversized ++ [d]
        | _ => s.oversized }
  | attach (w : W) (hphase : (s.writer w).phase = .absent) (hpos : 0 < s.refCount) :
    Steps s (.attach w) { s.setWriter w ((s.writer w).enter .attached) with refCount := s.refCount + 1 }
  | registerWriter (w : W) (hphase : (s.writer w).phase = .attached) (hfree : s.locked = false) :
    Steps s (.registerWriter w) { s.setWriter w ((s.writer w).enter .live) with registry := w :: s.registry }
  | park (w : W) (hphase : (s.writer w).phase = .live) : Steps s (.park w) (s.setWriter w (s.writer w).park)
  | fetch (w : W) (hphase : (s.writer w).phase = .live) (hnone : (s.writer w).buffer = none) :
    Steps s (.fetch w) (s.setWriter w ((s.writer w).fetch w))
  | record (w : W) (refs : List DescKey) (rotations : Nat) (ending : RecordEnd) (b : Filled W)
      (hbuffer : (s.writer w).buffer = some b) (hphase : (s.writer w).phase = .live) (hrefs : ∀ d ∈ refs, d ∈ s.registered) :
    Steps s (.record w refs rotations ending)
      { s.setWriter w ((s.writer w).record refs rotations ending b).1 with
        rolledBack := s.rolledBack ++ ((s.writer w).record refs rotations ending b).2 }
  | corePush (w : W) (hphase : (s.writer w).phase = .live) :
    Steps s (.corePush w)
      { s.setWriter w ((s.writer w).emptied.enter .pushed) with ready := s.ready ++ (s.writer w).held }
  | unregister (w : W) (hphase : (s.writer w).phase = .pushed) (hfree : s.locked = false) :
    Steps s (.unregister w) { s.setWriter w ((s.writer w).enter .unregistered) with registry := s.registry.erase w }
  | release (w : W) (hphase : (s.writer w).phase = .unregistered) :
    Steps s (.release w) (s.setWriter w ((s.writer w).enter .gone)).releaseRef
  | coreRelease (howned : s.owned = true) : Steps s .coreRelease { s.releaseRef with owned := false }
  | worker (signal : Bool) (s' : FlowSys W) (h : WorkerSteps s signal s') : Steps s (.worker signal) s'

variable {s s' : FlowSys W}

/-- The worker does what its place in the cycle says. -/
theorem workerStep_cases {signal : Bool} (hs : s.workerStep signal = .ok s') : WorkerSteps s signal s' := by
  unfold FlowSys.workerStep at hs
  split at hs
  · rename_i hpc
    obtain ⟨hsignal, hs⟩ := when_eq_ok.mp hs
    cases hs
    exact .wait hpc hsignal
  · rename_i hpc
    cases hs
    exact .svc hpc
  · rename_i hpc
    cases hs
    exact .writeSvc hpc
  · rename_i hpc
    cases hs
    exact .ready hpc
  · rename_i hpc
    cases hs
    exact .drain hpc
  · rename_i hpc
    cases hs
    exact .pulled hpc
  · rename_i w ws hpc
    cases hs
    exact .pull w ws hpc
  · rename_i hpc
    cases hs
    exact .flush hpc
  · rename_i hpc
    cases hs
    exact .recycle hpc
  · cases hs

/-- A step of the system is one of these. -/
theorem step_cases {ev : FlowEv W} (hs : s.step ev = .ok s') : Steps s ev s' := by
  cases ev with
  | register d fate =>
    obtain ⟨hnew, hs⟩ := when_eq_ok.mp hs
    cases hs
    exact .register d fate hnew
  | attach w =>
    obtain ⟨⟨hphase, hpos⟩, hs⟩ := when_eq_ok.mp hs
    cases hs
    exact .attach w hphase hpos
  | registerWriter w =>
    obtain ⟨⟨hphase, hfree⟩, hs⟩ := when_eq_ok.mp hs
    cases hs
    exact .registerWriter w hphase hfree
  | park w =>
    obtain ⟨hphase, hs⟩ := when_eq_ok.mp hs
    cases hs
    exact .park w hphase
  | fetch w =>
    obtain ⟨⟨hphase, hnone⟩, hs⟩ := when_eq_ok.mp hs
    cases hs
    exact .fetch w hphase hnone
  | record w refs rotations ending =>
    dsimp only [FlowSys.step] at hs
    split at hs
    · cases hs
    · rename_i b hbuffer
      obtain ⟨⟨hphase, hrefs⟩, hs⟩ := when_eq_ok.mp hs
      cases hs
      exact .record w refs rotations ending b hbuffer hphase hrefs
  | corePush w =>
    obtain ⟨hphase, hs⟩ := when_eq_ok.mp hs
    cases hs
    exact .corePush w hphase
  | unregister w =>
    obtain ⟨⟨hphase, hfree⟩, hs⟩ := when_eq_ok.mp hs
    cases hs
    exact .unregister w hphase hfree
  | release w =>
    obtain ⟨hphase, hs⟩ := when_eq_ok.mp hs
    cases hs
    exact .release w hphase
  | coreRelease =>
    obtain ⟨howned, hs⟩ := when_eq_ok.mp hs
    cases hs
    exact .coreRelease howned
  | worker signal => exact .worker signal s' (workerStep_cases hs)

end FlowSys

end P8
