import Mathlib.Data.Fintype.Order
import Mathlib.Order.Fin.Basic
import P8.Lib.LockOrder

/-!
# Locks: in which order the library takes its locks

What the functions of the library do to its nine locks, from the first to the last: the branches a call takes are its arguments
here, and any sequence of calls by any threads is a run. Waiting for a buffer is the only wait besides that for a lock; a thread
parked there may wake at any time. What the worker does between two cycles (`mo_worker_event`), the sink and the joining of the
worker thread take none of the locks.
-/

namespace P8

open LockOrder

/-- The locks: `mo_writers_lock`, the spin lock of each writer, `mo_log_desc_mutex`, `mo_mtk_desc_mutex`, `mo_log_mod_mutex`,
`mo_attr_mutex`, `mo_svc_mutex`, `mo_ready_lock`, and the mutex of the buffer pool. -/
inductive Lock (W : Type) where
  | registry
  | spin (w : W)
  | logDesc
  | mtkDesc
  | logMod
  | attr
  | svc
  | ready
  | pool
  deriving DecidableEq

/-- The order in which locks are taken. -/
def Lock.rank {W : Type} : Lock W → Fin 6
  | .registry => 0
  | .spin _ => 1
  | .logDesc | .mtkDesc | .logMod => 2
  | .attr => 3
  | .svc | .ready => 4
  | .pool => 5

/-- What a function does to the locks. -/
abbrev Code (W : Type) : Type := List (Act (Lock W))

namespace Locking

variable {W : Type}

/-! ## Buffers -/

/-- `acquire_buffer(false)`. -/
def acquireBuffer : Code W := guarded .pool []

/-- `cp8_buffer_pool::acquire_wait` of a thread that parks so many times: the wait gives the mutex back and takes it again. -/
def acquireWait (parks : Nat) : Code W :=
  guarded .pool (List.replicate parks [.unlock .pool, .park, .lock .pool]).flatten

/-- `acquire_buffer(true)`, with what `acquire_wait` does where the pool is exhausted. -/
def acquireBufferWait : Option Nat → Code W
  | none => acquireBuffer
  | some parks => acquireBuffer ++ acquireWait parks

/-- `release_buffer`, and `release_buffers` of at least one buffer. -/
def releaseBuffer : Code W := guarded .pool []

/-! ## Registrations -/

/-- How a registration goes: it returns without a lock, it finds the name registered or fails to allocate, or it creates the
entry. A service entry may need a `fresh` buffer. -/
inductive RegisterPath where
  | refused
  | unchanged
  | created (fresh : Bool)

/-- The serialization of a service entry, by `svc_reserve`. -/
def serialize (fresh : Bool) : Code W := guarded .svc (if fresh then acquireBuffer else [])

/-- `attr_register`. -/
def attrRegister : RegisterPath → Code W
  | .refused => []
  | .unchanged => guarded .attr []
  | .created fresh => guarded .attr (serialize fresh)

/-- `attr_get`. -/
def attrGet (refused : Bool) : Code W := if refused then [] else guarded .attr []

/-- `sync_attr_cache`. -/
def syncAttrCache : Code W := guarded .attr []

/-- `register_module`. -/
def registerModule : RegisterPath → Code W
  | .refused => []
  | .unchanged => guarded .logMod []
  | .created fresh => guarded .logMod (serialize fresh)

/-- `encode_attr_blob`. -/
def encodeAttrBlob : Code W := guarded .attr []

/-- `register_mtk`. -/
def registerMtk : RegisterPath → Code W
  | .refused => []
  | .unchanged => guarded .mtkDesc []
  | .created fresh => guarded .mtkDesc (encodeAttrBlob ++ serialize fresh)

/-- `resolve_log_desc`, with the descriptor's entry where it creates one. -/
def resolveLogDesc : Option Bool → Code W
  | none => guarded .logDesc []
  | some fresh => guarded .logDesc (serialize fresh)

/-! ## Writers -/

/-- What a record does while it is written: it rotates into another buffer, or looks an attribute up that its cache lacks. -/
inductive RecordAct where
  | rotate
  | sync

/-- The locks of a `RecordAct`. -/
def RecordAct.code : RecordAct → Code W
  | .rotate => acquireBuffer
  | .sync => syncAttrCache

/-- How a call of `send` goes: whether its level is too low, whether the writer has a core, how it waits for a buffer if it has
none, and whether it gets one, how its descriptor is resolved if it is not the writer's, and whether it is, what the record does,
and how many buffers are given back when it is discarded. -/
structure SendPath where
  gated : Bool
  attached : Bool
  wait : Option (Option Nat)
  served : Bool
  resolve : Option (Option Bool)
  resolved : Bool
  record : List RecordAct
  discarded : Nat

/-- The wait for a buffer in `send` and `emit`, outside the writer's lock. -/
def takeBuffer (w : W) : Option (Option Nat) → Code W
  | none => []
  | some parks => .unlock (.spin w) :: acquireBufferWait parks ++ [.lock (.spin w)]

/-- The record of a call of `send`, from its descriptor to `lbl_discard`. -/
def sendRecord (p : SendPath) : Code W :=
  (match p.resolve with
    | none => []
    | some fresh => resolveLogDesc fresh) ++
  if p.resolved then (p.record.map RecordAct.code).flatten ++ (List.replicate p.discarded releaseBuffer).flatten else []

/-- `cp8_log::send`. -/
def send (w : W) (p : SendPath) : Code W :=
  if p.gated then []
  else guarded (.spin w) (if p.attached then takeBuffer w p.wait ++ if p.served then sendRecord p else [] else [])

/-- `cp8_mtk::emit`, unless it is `refused` without a core or for its id. -/
def emit (w : W) (refused : Bool) (wait : Option (Option Nat)) : Code W :=
  if refused then [] else guarded (.spin w) (takeBuffer w wait)

/-- `register_writer` and `unregister_writer`. -/
def registerWriter : Code W := guarded .registry []

/-- `core_push`, and `submit_chain` or `submit_buffer` if there are buffers. -/
def corePush (w : W) (submit : Bool) : Code W := guarded (.spin w) (if submit then guarded .ready [] else [])

/-- The end of a core: `stop_waiters` by `stop_worker` and by the destructor of the pool, which takes the mutex once more. -/
def destroyCore : Code W := guarded .pool [] ++ guarded .pool [] ++ guarded .pool []

/-- The destructor of a writer that has a core, whose `release` may be the `last`. -/
def destroyWriter (w : W) (submit last : Bool) : Code W :=
  corePush w submit ++ registerWriter ++ if last then destroyCore else []

/-! ## The worker -/

/-- `cp8_tls_writer::pull`. -/
def pull (w : W) : Code W := guarded (.spin w) []

/-- `drain_writers`. -/
def drainWriters (ws : List W) : Code W := guarded .registry (ws.map pull).flatten

/-- A cycle of `worker_main`: the number of service buffers it recycles, the writers it pulls from, and whether it polls the drop
counters and has data buffers to recycle. -/
structure CyclePath (W : Type) where
  svcBufs : Nat
  writers : List W
  polled : Bool
  flushed : Bool

/-- A cycle of `worker_main`. -/
def workerCycle (c : CyclePath W) : Code W :=
  guarded .svc [] ++ (List.replicate c.svcBufs releaseBuffer).flatten ++ guarded .ready [] ++ drainWriters c.writers ++
    (if c.polled then guarded .registry [] else []) ++ if c.flushed then releaseBuffer else []

/-! ## They obey the order -/

section

variable {held : List (Lock W)}

/-- Locks that are all held below a rank. -/
def Below (n : Fin 6) (held : List (Lock W)) : Prop := ∀ k ∈ held, k.rank < n

/-- With no lock held every lock may be taken. -/
theorem below_nil (n : Fin 6) : Below n ([] : List (Lock W)) := fun _ hk => (by cases hk)

/-- A lock taken above those held, seen from above it. -/
theorem below_cons (l : Lock W) (h : Below l.rank held) {n : Fin 6} (hl : l.rank < n) : Below n (l :: held) := by
  intro k hk
  rcases List.mem_cons.mp hk with rfl | hk
  · exact hl
  · exact (h k hk).trans hl

/-- Under a writer's spin lock every lock but a spin lock may. -/
theorem below_spin (w : W) {n : Fin 6} (h : 1 < n) : Below n [Lock.spin w] := below_cons (.spin w) (below_nil 1) h

/-- The pool's lock is the last one. -/
theorem acquireBuffer_obeys (h : Below 5 held) : Obeys Lock.rank held acquireBuffer held := Obeys.guarded h rfl

/-- Any number of buffers is given back one by one. -/
theorem releaseBuffers_obeys (h : Below 5 held) (n : Nat) :
    Obeys Lock.rank held (List.replicate n releaseBuffer).flatten held := by
  refine Obeys.flatten (fun p hp => ?_)
  rw [(List.mem_replicate.mp hp).2]
  exact Obeys.guarded h rfl

/-- A wait for a buffer obeys the order where nothing is held. -/
theorem acquireBufferWait_obeys (wait : Option Nat) : Obeys (L := Lock W) Lock.rank [] (acquireBufferWait wait) [] := by
  have hfast : Obeys (L := Lock W) Lock.rank [] acquireBuffer [] := acquireBuffer_obeys (below_nil 5)
  cases wait with
  | none => exact hfast
  | some parks =>
    refine hfast.append (Obeys.guarded (below_nil 5) (Obeys.flatten (fun p hp => ?_)))
    rw [(List.mem_replicate.mp hp).2]
    exact ⟨[], rfl, rfl, below_nil 5, rfl⟩

/-- A descriptor is serialized under the service lock, a buffer being taken from the pool under it. -/
theorem serialize_obeys (h : Below 4 held) (fresh : Bool) : Obeys Lock.rank held (serialize fresh) held := by
  refine Obeys.guarded h ?_
  cases fresh with
  | false => exact rfl
  | true => exact acquireBuffer_obeys (below_cons .svc h (by decide : (4 : Fin 6) < 5))

/-- The attributes are copied under their lock. -/
theorem syncAttrCache_obeys (h : Below 3 held) : Obeys Lock.rank held syncAttrCache held := Obeys.guarded h rfl

/-- On every path of `attr_register` the locks are taken in order. -/
theorem attrRegister_obeys (p : RegisterPath) : Obeys (L := Lock W) Lock.rank [] (attrRegister p) [] := by
  cases p with
  | refused => exact rfl
  | unchanged => exact Obeys.guarded (below_nil 3) rfl
  | created fresh =>
    exact Obeys.guarded (below_nil 3) (serialize_obeys (below_cons .attr (below_nil 3) (by decide : (3 : Fin 6) < 4)) fresh)

/-- On every path of `attr_get` as well. -/
theorem attrGet_obeys (refused : Bool) : Obeys (L := Lock W) Lock.rank [] (attrGet refused) [] := by
  cases refused with
  | false => exact Obeys.guarded (below_nil 3) rfl
  | true => exact rfl

/-- On every path of `register_module`. -/
theorem registerModule_obeys (p : RegisterPath) : Obeys (L := Lock W) Lock.rank [] (registerModule p) [] := by
  cases p with
  | refused => exact rfl
  | unchanged => exact Obeys.guarded (below_nil 2) rfl
  | created fresh =>
    exact Obeys.guarded (below_nil 2) (serialize_obeys (below_cons .logMod (below_nil 2) (by decide : (2 : Fin 6) < 4)) fresh)

/-- A metric's attributes are encoded, and their mutex given back, before its entry is serialized. -/
theorem registerMtk_obeys (p : RegisterPath) : Obeys (L := Lock W) Lock.rank [] (registerMtk p) [] := by
  cases p with
  | refused => exact rfl
  | unchanged => exact Obeys.guarded (below_nil 2) rfl
  | created fresh =>
    have hattr : Below 3 [Lock.mtkDesc (W := W)] := below_cons .mtkDesc (below_nil 2) (by decide : (2 : Fin 6) < 3)
    have hsvc : Below 4 [Lock.mtkDesc (W := W)] := below_cons .mtkDesc (below_nil 2) (by decide : (2 : Fin 6) < 4)
    exact Obeys.guarded (below_nil 2) (Obeys.append (Obeys.guarded hattr rfl) (serialize_obeys hsvc fresh))

/-- On every path of `resolve_log_desc`, under a writer's lock or not. -/
theorem resolveLogDesc_obeys (h : Below 2 held) (fresh : Option Bool) :
    Obeys Lock.rank held (resolveLogDesc fresh) held := by
  cases fresh with
  | none => exact Obeys.guarded h rfl
  | some fresh => exact Obeys.guarded h (serialize_obeys (below_cons .logDesc h (by decide : (2 : Fin 6) < 4)) fresh)

/-- A writer waits for a buffer with its own lock given back. -/
theorem takeBuffer_obeys (w : W) (wait : Option (Option Nat)) :
    Obeys Lock.rank [.spin w] (takeBuffer w wait) [.spin w] := by
  cases wait with
  | none => exact rfl
  | some parks => exact ⟨[], rfl, (acquireBufferWait_obeys parks).append ⟨below_nil 1, rfl⟩⟩

/-- On every path of a record, whose rotations take buffers under the writer's lock. -/
theorem sendRecord_obeys (w : W) (p : SendPath) : Obeys Lock.rank [.spin w] (sendRecord p) [.spin w] := by
  have hrecord : ∀ a : RecordAct, Obeys Lock.rank [.spin w] a.code [.spin w] := by
    intro a
    cases a with
    | rotate => exact acquireBuffer_obeys (below_spin w (by decide))
    | sync => exact syncAttrCache_obeys (below_spin w (by decide))
  refine Obeys.append (?_ : Obeys Lock.rank [.spin w] _ [.spin w]) ?_
  · cases p.resolve with
    | none => exact rfl
    | some fresh => exact resolveLogDesc_obeys (below_spin w (by decide)) fresh
  · split
    · refine Obeys.append (Obeys.flatten (fun c hc => ?_)) (releaseBuffers_obeys (below_spin w (by decide)) _)
      obtain ⟨a, -, rfl⟩ := List.mem_map.mp hc
      exact hrecord a
    · exact rfl

/-- On every path of `send`. -/
theorem send_obeys (w : W) (p : SendPath) : Obeys Lock.rank [] (send w p) [] := by
  unfold send
  split
  · exact rfl
  · refine Obeys.guarded (below_nil 1) ?_
    split
    · refine (takeBuffer_obeys w p.wait).append ?_
      split
      · exact sendRecord_obeys w p
      · exact rfl
    · exact rfl

/-- On every path of `emit`. -/
theorem emit_obeys (w : W) (refused : Bool) (wait : Option (Option Nat)) : Obeys Lock.rank [] (emit w refused wait) [] := by
  unfold emit
  split
  · exact rfl
  · exact Obeys.guarded (below_nil 1) (takeBuffer_obeys w wait)

/-- Registering a writer takes one lock. -/
theorem registerWriter_obeys : Obeys (L := Lock W) Lock.rank [] registerWriter [] := Obeys.guarded (below_nil 0) rfl

/-- Destroying the core takes them one after the other. -/
theorem destroyCore_obeys : Obeys (L := Lock W) Lock.rank [] destroyCore [] := by
  have hpool : Obeys (L := Lock W) Lock.rank [] (guarded .pool []) [] := Obeys.guarded (below_nil 5) rfl
  exact (hpool.append hpool).append hpool

/-- Destroying a writer takes them one after the other. -/
theorem destroyWriter_obeys (w : W) (submit last : Bool) : Obeys Lock.rank [] (destroyWriter w submit last) [] := by
  refine Obeys.append (Obeys.append (Obeys.guarded (below_nil 1) ?_) registerWriter_obeys) ?_
  · cases submit with
    | false => exact rfl
    | true => exact Obeys.guarded (below_spin w (by decide : (1 : Fin 6) < 4)) rfl
  · cases last with
    | false => exact rfl
    | true => exact destroyCore_obeys

/-- The worker holds the registry while it pulls, and takes the lock of one writer after the other. -/
theorem drainWriters_obeys (ws : List W) : Obeys Lock.rank [] (drainWriters ws) [] := by
  refine Obeys.guarded (below_nil 0) (Obeys.flatten (fun c hc => ?_))
  obtain ⟨w, -, rfl⟩ := List.mem_map.mp hc
  exact Obeys.guarded (below_cons .registry (below_nil 0) (by decide : (0 : Fin 6) < 1)) rfl

/-- On every path of the worker's cycle. -/
theorem workerCycle_obeys (c : CyclePath W) : Obeys Lock.rank [] (workerCycle c) [] := by
  have hsvc : Obeys (L := Lock W) Lock.rank [] (guarded .svc []) [] := Obeys.guarded (below_nil 4) rfl
  have hready : Obeys (L := Lock W) Lock.rank [] (guarded .ready []) [] := Obeys.guarded (below_nil 4) rfl
  have hbufs := releaseBuffers_obeys (W := W) (below_nil 5) c.svcBufs
  have hpoll : Obeys (L := Lock W) Lock.rank [] (if c.polled then guarded .registry [] else []) [] := by
    split
    · exact Obeys.guarded (below_nil 0) rfl
    · exact rfl
  have hflush : Obeys (L := Lock W) Lock.rank [] (if c.flushed then releaseBuffer else []) [] := by
    split
    · exact Obeys.guarded (below_nil 5) rfl
    · exact rfl
  exact ((((hsvc.append hbufs).append hready).append (drainWriters_obeys c.writers)).append hpoll).append hflush

/-- The worker takes its buffers where they are, and never waits for one. -/
theorem workerCycle_no_park (c : CyclePath W) : Act.park ∉ workerCycle c := by
  have hguard : ∀ l : Lock W, Act.park ∉ guarded l [] := fun l => no_park_guarded List.not_mem_nil
  have hflat : ∀ codes : List (Code W), (∀ code ∈ codes, Act.park ∉ code) → Act.park ∉ codes.flatten := by
    intro codes h hin
    obtain ⟨code, hcode, hpark⟩ := List.mem_flatten.mp hin
    exact h code hcode hpark
  have hif : ∀ (b : Bool) (l : Lock W), Act.park ∉ if b then guarded l [] else [] := by
    intro b l
    split
    · exact hguard l
    · exact List.not_mem_nil
  simp only [workerCycle, List.mem_append, not_or]
  refine ⟨⟨⟨⟨⟨hguard _, hflat _ (fun code hcode => ?_)⟩, hguard _⟩, no_park_guarded (hflat _ (fun code hcode => ?_))⟩,
    hif _ _⟩, hif _ _⟩
  · rw [(List.mem_replicate.mp hcode).2]
    exact hguard _
  · obtain ⟨w, -, rfl⟩ := List.mem_map.mp hcode
    exact hguard _

end

end Locking

/-! ## Runs -/

/-- The calls of the clients' threads. -/
inductive ClientOp (W : Type) where
  | send (w : W) (p : Locking.SendPath)
  | emit (w : W) (refused : Bool) (wait : Option (Option Nat))
  | attrRegister (p : Locking.RegisterPath)
  | attrGet (refused : Bool)
  | registerModule (p : Locking.RegisterPath)
  | registerMtk (p : Locking.RegisterPath)
  | construct
  | destroy (w : W) (submit last : Bool)

/-- The locks of a call. -/
def ClientOp.code {W : Type} : ClientOp W → Code W
  | .send w p => Locking.send w p
  | .emit w refused wait => Locking.emit w refused wait
  | .attrRegister p => Locking.attrRegister p
  | .attrGet refused => Locking.attrGet refused
  | .registerModule p => Locking.registerModule p
  | .registerMtk p => Locking.registerMtk p
  | .construct => Locking.registerWriter
  | .destroy w submit last => Locking.destroyWriter w submit last

/-- Every client call takes its locks in order. -/
theorem ClientOp.code_obeys {W : Type} (op : ClientOp W) : Obeys Lock.rank [] op.code [] := by
  cases op with
  | send w p => exact Locking.send_obeys w p
  | emit w refused wait => exact Locking.emit_obeys w refused wait
  | attrRegister p => exact Locking.attrRegister_obeys p
  | attrGet refused => exact Locking.attrGet_obeys refused
  | registerModule p => exact Locking.registerModule_obeys p
  | registerMtk p => exact Locking.registerMtk_obeys p
  | construct => exact Locking.registerWriter_obeys
  | destroy w submit last => exact Locking.destroyWriter_obeys w submit last

/-- What happens: a client begins a call, the worker, which is `none` among the threads, begins a cycle, or a thread does its next
action on a lock. -/
inductive LockEv (P W : Type) where
  | call (p : P) (op : ClientOp W)
  | cycle (c : Locking.CyclePath W)
  | next (t : Option P)

namespace LockSys

variable {P W : Type} [DecidableEq P] [DecidableEq W]

/-- An event as one of the threads and locks. -/
def ev : LockEv P W → Ev (Lock W) (Option P)
  | .call p op => .start (some p) op.code
  | .cycle c => .start none (Locking.workerCycle c)
  | .next t => .next t

/-- One step. -/
def step (s : State (Lock W) (Option P)) (e : LockEv P W) : Except Unit (State (Lock W) (Option P)) := LockOrder.step s (ev e)

/-- The invariant: the threads obey the order, and the worker never parks. -/
structure Inv (s : State (Lock W) (Option P)) : Prop where
  ordered : ∃ held, LockOrder.Inv Lock.rank s held
  worker : Act.park ∉ s.code none

/-- A step keeps the invariant. -/
theorem Inv.step {s s' : State (Lock W) (Option P)} (h : Inv s) {e : LockEv P W} (hs : step s e = .ok s') : Inv s' := by
  obtain ⟨held, hheld⟩ := h.ordered
  refine ⟨hheld.step hs (fun t code he => ?_), ?_⟩
  · cases e with
    | call p op =>
      cases he
      exact op.code_obeys
    | cycle c =>
      cases he
      exact Locking.workerCycle_obeys c
    | next t => cases he
  · cases e with
    | call p op =>
      obtain ⟨-, hcode⟩ := code_start hs
      rw [hcode, Function.update_of_ne (Option.some_ne_none p).symm]
      exact h.worker
    | cycle c =>
      obtain ⟨-, hcode⟩ := code_start hs
      rw [hcode, Function.update_self]
      exact Locking.workerCycle_no_park c
    | next t => exact no_park_next hs h.worker

omit [DecidableEq P] [DecidableEq W] in
theorem inv_init : Inv (init : State (Lock W) (Option P)) := ⟨⟨_, LockOrder.inv_init⟩, List.not_mem_nil⟩

/-- In a run of any threads' calls and the worker's cycles, no threads wait for each other's locks in a circle, a thread parked in
`acquire_wait` holds none of the locks, and the worker's cycle can always be completed, without waking a parked thread. -/
theorem deadlock_free {es : List (LockEv P W)} {s : State (Lock W) (Option P)} (hs : Runs.run step init es = .ok s) :
    ¬ Deadlocked s ∧ (∀ t, Parked s t → ∀ l, s.owner l ≠ some t) ∧
      ∃ (ts : List (Option P)) (s' : State (Lock W) (Option P)),
        Runs.run LockOrder.step s (ts.map .next) = .ok s' ∧ s'.code none = [] ∧
          Runs.Along LockOrder.step (fun s e _ => ∀ t, e = .next t → ¬ Parked s t) s (ts.map .next) := by
  have hinv : Inv s := Runs.run_induction inv_init (fun _ _ _ h hstep => h.step hstep) hs
  obtain ⟨held, hheld⟩ := hinv.ordered
  exact ⟨hheld.not_deadlocked, fun t hp l => hheld.parked_holds_nothing hp l, hheld.completes hinv.worker⟩

/-- A client parks in `send` while the worker is in the middle of a cycle, holding the registry and a writer's lock. -/
theorem deadlock_free_parked : ∃ s : State (Lock Nat) (Option Nat),
    Runs.run step init ([.call 0 (.send 7 ⟨false, true, some (some 1), true, none, true, [], 0⟩)] ++
      List.replicate 6 (.next (some 0)) ++ [.cycle ⟨0, [7], false, true⟩] ++ List.replicate 6 (.next none)) = .ok s ∧
    (¬ Deadlocked s ∧ (∀ t, Parked s t → ∀ l, s.owner l ≠ some t) ∧
      ∃ (ts : List (Option Nat)) (s' : State (Lock Nat) (Option Nat)),
        Runs.run LockOrder.step s (ts.map .next) = .ok s' ∧ s'.code none = [] ∧
          Runs.Along LockOrder.step (fun s e _ => ∀ t, e = .next t → ¬ Parked s t) s (ts.map .next)) ∧
    Parked s (some 0) ∧ s.owner (.spin 7) = some none := by
  obtain ⟨s, hs, hparked, howner⟩ : ∃ s : State (Lock Nat) (Option Nat),
      Runs.run step init ([.call 0 (.send 7 ⟨false, true, some (some 1), true, none, true, [], 0⟩)] ++
        List.replicate 6 (.next (some 0)) ++ [.cycle ⟨0, [7], false, true⟩] ++ List.replicate 6 (.next none)) = .ok s ∧
      Parked s (some 0) ∧ s.owner (.spin 7) = some none := ⟨_, rfl, ⟨_, rfl⟩, rfl⟩
  exact ⟨s, hs, deadlock_free hs, hparked, howner⟩

end LockSys

end P8
