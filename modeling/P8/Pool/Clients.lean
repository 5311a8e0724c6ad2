import P8.Pool.Buffers

/-!
# Clients: a pool, its clients and its destructor, step by step

The operations of `cp8_buffer_pool` as the steps of a machine. What runs under `mo_mutex` without looking at the budget is one
step. An operation that grows the pool is cut where it reads or writes the budget, which other pools change in between: `Pc`
says how far the thread that holds the mutex has come. `acquire_wait` is cut where its caller sleeps, and again between its
unlocking and its last access to the pool; a sleeping thread is woken by a notification of its condition variable, or for no
reason. The destructor runs against all that.

`held` are the buffers in the hands of clients, and `granted` and `returned` are the history of what the two kinds of acquire
gave.
-/

namespace P8

/-- Who asks for a buffer under the lock: `init` with so many still to allocate, `acquire_no_lock`, or `acquire_wait`. -/
inductive Job (T : Type) where
  | init (left : Nat)
  | acquire
  | wait (t : T)
  deriving DecidableEq

/-- How far the thread has come that holds the mutex: nobody does; before the loop of `try_reserve`; in it, with
`lz_current`; before the allocation; before the release after a failed one; in the destructor, before the release of the
pool's share. -/
inductive Pc (T : Type) where
  | idle
  | load (j : Job T)
  | check (j : Job T) (current : Nat)
  | alloc (j : Job T)
  | giveBack (j : Job T)
  | release (bytes : Nat)
  deriving DecidableEq

/-- The job of a thread in the middle of an operation that needs the budget. -/
def Pc.job {T : Type} : Pc T → Option (Job T)
  | .load j | .check j _ | .alloc j | .giveBack j => some j
  | .idle | .release _ => none

/-- How far the destructor has come: not begun; past `stop_waiters`; past the wait for `mu_inflight`; at its end. -/
inductive Dtor where
  | unborn | stopped | quiet | gone
  deriving DecidableEq

/-- A pool with its clients. `parked` are the threads in `wait`, and `asleep` says which of them have not been woken;
`returning` are those that have unlocked and not left yet. -/
structure PoolSys (B T : Type) where
  pool : Pool B T
  pc : Pc T
  dtor : Dtor
  held : List B
  parked : List T
  returning : List T
  asleep : T → Bool
  granted : List B
  returned : List (T × Option B)

/-- The steps of a pool. `recycle` is the one with a list, or the one with a single buffer. -/
inductive PoolEv (B T : Type) where
  | init (count : Nat)
  | acquire
  | acquireWait (t : T)
  | load
  | tryReserve (spurious : Bool)
  | alloc (buf : Option B)
  | giveBack
  | recycle (bufs : List (Option B))
  | stopWaiters
  | wakeUp (t : T)
  | relock (t : T)
  | leave (t : T)
  | dtorStop
  | dtorBarrier
  | dtorClear
  | dtorRelease

namespace PoolSys

variable {B T : Type}

/-- A pool right after its construction. -/
def init (bufferSize : Nat) : PoolSys B T :=
  { pool := Pool.init bufferSize
    pc := .idle
    dtor := .unborn
    held := []
    parked := []
    returning := []
    asleep := fun _ => false
    granted := []
    returned := [] }

/-- The threads inside `acquire_wait` that have queued. -/
def inside (s : PoolSys B T) : List T := s.parked ++ s.returning

/-- The buffers handed to waiters that have not returned yet. -/
def handed (s : PoolSys B T) : List B := s.inside.filterMap (fun t => (s.pool.nodes t).buf)

/-- The pool exists and its mutex is free. -/
def Open (s : PoolSys B T) : Prop := s.pc = .idle ∧ s.dtor ≠ .gone

variable [DecidableEq B] [DecidableEq T]

instance (s : PoolSys B T) : Decidable s.Open := inferInstanceAs (Decidable (_ ∧ _))

/-- `notify_all` on condition variables. -/
def notify (cvs : List (Fin 64)) (s : PoolSys B T) : PoolSys B T :=
  { s with asleep := fun t => s.asleep t && !cvs.contains (s.pool.nodes t).cv }

/-- `acquire_no_lock` gives nothing. `acquire_wait` goes on: it returns null where the pool is being shut down, and parks its
caller elsewhere. -/
def refuse (s : PoolSys B T) : Job T → PoolSys B T
  | .init _ | .acquire => { s with pc := .idle }
  | .wait t =>
    if s.pool.stopping then { s with pc := .idle, returned := s.returned ++ [(t, none)] }
    else
      { s with
        pc := .idle
        pool := s.pool.enqueue t
        parked := s.parked ++ [t]
        asleep := fun u => if u = t then true else s.asleep u }

/-- The end of `acquire_no_lock`: the first free buffer, if there is one. -/
def pullFirst (s : PoolSys B T) (j : Job T) : PoolSys B T :=
  match s.pool.free with
  | [] => s.refuse j
  | b :: free =>
    { s with
      pc := .idle
      pool := { s.pool with free := free }
      held := b :: s.held
      granted := s.granted ++ [b]
      returned := match j with
        | .wait t => s.returned ++ [(t, some b)]
        | _ => s.returned }

/-- What follows a buffer that was added to the pool. -/
def grown (s : PoolSys B T) : Job T → PoolSys B T
  | .init left => if left ≤ 1 then { s with pc := .idle } else { s with pc := .load (.init (left - 1)) }
  | j => s.pullFirst j

/-- `acquire_no_lock`, up to the budget. -/
def request (s : PoolSys B T) (j : Job T) : PoolSys B T :=
  if s.pool.free = [] then { s with pc := .load j } else s.pullFirst j

/-- Shut the waiters down. -/
def stop (s : PoolSys B T) : PoolSys B T := { s with pool := s.pool.stopWaiters.1 }.notify s.pool.stopWaiters.2

/-- One step of a pool, with what it does to the budget. -/
def step (b : Budget) (s : PoolSys B T) : PoolEv B T → Except Halt (Budget × PoolSys B T)
  | .init count => when s.Open <| .ok (b, if count = 0 then s else { s with pc := .load (.init count) })
  | .acquire => when s.Open <| .ok (b, s.request .acquire)
  | .acquireWait t => when (s.Open ∧ t ∉ s.inside) <| .ok (b, s.request (.wait t))
  | .load =>
    match s.pc with
    | .load j => .ok (b, { s with pc := .check j b.used })
    | _ => .error .disabled
  | .tryReserve spurious =>
    match s.pc with
    | .check j current =>
      match b.tryReserveRound s.pool.bufferSize current spurious with
      | .refused => .ok (b, s.refuse j)
      | .reserved b => .ok (b, { s with pc := .alloc j })
      | .again current => .ok (b, { s with pc := .check j current })
    | _ => .error .disabled
  | .alloc buf =>
    match s.pc, buf with
    | .alloc j, some x => .ok (b, { s with pool := s.pool.addBuffer x }.grown j)
    | .alloc j, none => .ok (b, { s with pc := .giveBack j })
    | _, _ => .error .disabled
  | .giveBack =>
    match s.pc with
    | .giveBack j => .ok (b.release s.pool.bufferSize, s.refuse j)
    | _ => .error .disabled
  | .recycle bufs =>
    when (s.Open ∧ bufs.reduceOption.Nodup ∧ ∀ x ∈ bufs.reduceOption, x ∈ s.held) <|
      match s.pool.recycleAll bufs with
      | .error e => .error e
      | .ok (pool, cvs) =>
        .ok (b, { s with pool := pool, held := s.held.filter (· ∉ bufs.reduceOption) }.notify cvs)
  | .stopWaiters => when s.Open <| .ok (b, s.stop)
  | .wakeUp t => when (t ∈ s.parked) <| .ok (b, { s with asleep := fun u => if u = t then false else s.asleep u })
  | .relock t =>
    when (s.pc = .idle ∧ t ∈ s.parked ∧ s.asleep t = false) <|
      if s.dtor = .gone then .error .badAccess
      else if (s.pool.nodes t).done then
        .ok (b, { s with parked := s.parked.erase t, returning := s.returning ++ [t] })
      else .ok (b, { s with asleep := fun u => if u = t then true else s.asleep u })
  | .leave t =>
    when (t ∈ s.returning) <|
      if s.dtor = .gone then .error .badAccess
      else
        .ok (b, { s with
          pool := { s.pool with inflight := s.pool.inflight - 1 }
          returning := s.returning.erase t
          held := (s.pool.nodes t).buf.toList ++ s.held
          returned := s.returned ++ [(t, (s.pool.nodes t).buf)] })
  | .dtorStop => when (s.Open ∧ s.dtor = .unborn) <| .ok (b, { s.stop with dtor := .stopped })
  | .dtorBarrier => when (s.dtor = .stopped ∧ s.pool.inflight = 0) <| .ok (b, { s with dtor := .quiet })
  | .dtorClear =>
    when (s.Open ∧ s.dtor = .quiet) <|
      .ok (b, { s with
        pool := { s.pool with all := [], free := [] }
        held := []
        pc := .release (s.pool.all.length * s.pool.bufferSize % 2 ^ 64) })
  | .dtorRelease =>
    match s.pc with
    | .release bytes => .ok (if 0 < bytes then b.release bytes else b, { s with pc := .idle, dtor := .gone })
    | _ => .error .disabled

/-- What a step of a pool can do, with what it asks for. -/
inductive Steps (b : Budget) (s : PoolSys B T) : PoolEv B T → Budget → PoolSys B T → Prop where
  | initNone (hopen : s.Open) : Steps b s (.init 0) b s
  | init (count : Nat) (hopen : s.Open) : Steps b s (.init count) b { s with pc := .load (.init count) }
  | acquire (hopen : s.Open) : Steps b s .acquire b (s.request .acquire)
  | acquireWait (t : T) (hopen : s.Open) (ht : t ∉ s.inside) : Steps b s (.acquireWait t) b (s.request (.wait t))
  | load (j : Job T) (hpc : s.pc = .load j) : Steps b s .load b { s with pc := .check j b.used }
  | refused (spurious : Bool) (j : Job T) (current : Nat) (hpc : s.pc = .check j current)
      (hround : b.tryReserveRound s.pool.bufferSize current spurious = .refused) :
    Steps b s (.tryReserve spurious) b (s.refuse j)
  | reserved (spurious : Bool) (j : Job T) (current : Nat) (b' : Budget) (hpc : s.pc = .check j current)
      (hround : b.tryReserveRound s.pool.bufferSize current spurious = .reserved b') :
    Steps b s (.tryReserve spurious) b' { s with pc := .alloc j }
  | again (spurious : Bool) (j : Job T) (current next : Nat) (hpc : s.pc = .check j current)
      (hround : b.tryReserveRound s.pool.bufferSize current spurious = .again next) :
    Steps b s (.tryReserve spurious) b { s with pc := .check j next }
  | alloc (j : Job T) (x : B) (hpc : s.pc = .alloc j) :
    Steps b s (.alloc (some x)) b ({ s with pool := s.pool.addBuffer x }.grown j)
  | allocFailed (j : Job T) (hpc : s.pc = .alloc j) : Steps b s (.alloc none) b { s with pc := .giveBack j }
  | giveBack (j : Job T) (hpc : s.pc = .giveBack j) : Steps b s .giveBack (b.release s.pool.bufferSize) (s.refuse j)
  | recycle (bufs : List (Option B)) (pool : Pool B T) (cvs : List (Fin 64)) (hopen : s.Open)
      (hnodup : bufs.reduceOption.Nodup) (hheld : ∀ x ∈ bufs.reduceOption, x ∈ s.held)
      (hp : s.pool.recycleAll bufs = .ok (pool, cvs)) :
    Steps b s (.recycle bufs) b ({ s with pool := pool, held := s.held.filter (· ∉ bufs.reduceOption) }.notify cvs)
  | stopWaiters (hopen : s.Open) : Steps b s .stopWaiters b s.stop
  | wakeUp (t : T) (ht : t ∈ s.parked) :
    Steps b s (.wakeUp t) b { s with asleep := fun u => if u = t then false else s.asleep u }
  | unlock (t : T) (hopen : s.Open) (ht : t ∈ s.parked) (hawake : s.asleep t = false) (hdone : (s.pool.nodes t).done = true) :
    Steps b s (.relock t) b { s with parked := s.parked.erase t, returning := s.returning ++ [t] }
  | sleep (t : T) (hopen : s.Open) (ht : t ∈ s.parked) (hawake : s.asleep t = false)
      (hdone : ¬ (s.pool.nodes t).done = true) :
    Steps b s (.relock t) b { s with asleep := fun u => if u = t then true else s.asleep u }
  | leave (t : T) (ht : t ∈ s.returning) (hdtor : s.dtor ≠ .gone) :
    Steps b s (.leave t) b { s with
      pool := { s.pool with inflight := s.pool.inflight - 1 }
      returning := s.returning.erase t
      held := (s.pool.nodes t).buf.toList ++ s.held
      returned := s.returned ++ [(t, (s.pool.nodes t).buf)] }
  | dtorStop (hopen : s.Open) (hdtor : s.dtor = .unborn) : Steps b s .dtorStop b { s.stop with dtor := .stopped }
  | dtorBarrier (hdtor : s.dtor = .stopped) (hinflight : s.pool.inflight = 0) :
    Steps b s .dtorBarrier b { s with dtor := .quiet }
  | dtorClear (hopen : s.Open) (hdtor : s.dtor = .quiet) :
    Steps b s .dtorClear b { s with
      pool := { s.pool with all := [], free := [] }
      held := []
      pc := .release (s.pool.all.length * s.pool.bufferSize % 2 ^ 64) }
  | dtorRelease (bytes : Nat) (hpc : s.pc = .release bytes) :
    Steps b s .dtorRelease (if 0 < bytes then b.release bytes else b) { s with pc := .idle, dtor := .gone }

/-- A step of the pool is one of these. -/
theorem step_cases {b b' : Budget} {s s' : PoolSys B T} {e : PoolEv B T} (hs : s.step b e = .ok (b', s')) :
    Steps b s e b' s' := by
  cases e with
  | init count =>
    obtain ⟨hopen, hs⟩ := when_eq_ok.mp hs
    cases hs
    split
    · rename_i hzero
      exact hzero ▸ .initNone hopen
    · exact .init count hopen
  | acquire =>
    obtain ⟨hopen, hs⟩ := when_eq_ok.mp hs
    cases hs
    exact .acquire hopen
  | acquireWait t =>
    obtain ⟨⟨hopen, ht⟩, hs⟩ := when_eq_ok.mp hs
    cases hs
    exact .acquireWait t hopen ht
  | load =>
    dsimp only [PoolSys.step] at hs
    split at hs
    · rename_i j hpc
      cases hs
      exact .load j hpc
    · cases hs
  | tryReserve spurious =>
    dsimp only [PoolSys.step] at hs
    split at hs
    · rename_i j current hpc
      split at hs
      · rename_i hround
        cases hs
        exact .refused spurious j current hpc hround
      · rename_i hround
        cases hs
        exact .reserved spurious j current _ hpc hround
      · rename_i hround
        cases hs
        exact .again spurious j current _ hpc hround
    · cases hs
  | alloc buf =>
    dsimp only [PoolSys.step] at hs
    split at hs
    · rename_i j x hpc
      cases hs
      exact .alloc j x hpc
    · rename_i j hpc
      cases hs
      exact .allocFailed j hpc
    · cases hs
  | giveBack =>
    dsimp only [PoolSys.step] at hs
    split at hs
    · rename_i j hpc
      cases hs
      exact .giveBack j hpc
    · cases hs
  | recycle bufs =>
    obtain ⟨⟨hopen, hnodup, hheld⟩, hs⟩ := when_eq_ok.mp hs
    split at hs
    · cases hs
    · rename_i pool cvs hp
      cases hs
      exact .recycle bufs pool cvs hopen hnodup hheld hp
  | stopWaiters =>
    obtain ⟨hopen, hs⟩ := when_eq_ok.mp hs
    cases hs
    exact .stopWaiters hopen
  | wakeUp t =>
    obtain ⟨ht, hs⟩ := when_eq_ok.mp hs
    cases hs
    exact .wakeUp t ht
  | relock t =>
    obtain ⟨⟨hpc, ht, hawake⟩, hs⟩ := when_eq_ok.mp hs
    split at hs
    · cases hs
    · rename_i hdtor
      split at hs
      · rename_i hdone
        cases hs
        exact .unlock t ⟨hpc, hdtor⟩ ht hawake hdone
      · rename_i hdone
        cases hs
        exact .sleep t ⟨hpc, hdtor⟩ ht hawake hdone
  | leave t =>
    obtain ⟨ht, hs⟩ := when_eq_ok.mp hs
    split at hs
    · cases hs
    · rename_i hdtor
      cases hs
      exact .leave t ht hdtor
  | dtorStop =>
    obtain ⟨⟨hopen, hdtor⟩, hs⟩ := when_eq_ok.mp hs
    cases hs
    exact .dtorStop hopen hdtor
  | dtorBarrier =>
    obtain ⟨⟨hdtor, hinflight⟩, hs⟩ := when_eq_ok.mp hs
    cases hs
    exact .dtorBarrier hdtor hinflight
  | dtorClear =>
    obtain ⟨⟨hopen, hdtor⟩, hs⟩ := when_eq_ok.mp hs
    cases hs
    exact .dtorClear hopen hdtor
  | dtorRelease =>
    dsimp only [PoolSys.step] at hs
    split at hs
    · rename_i bytes hpc
      cases hs
      exact .dtorRelease bytes hpc
    · cases hs

end PoolSys

end P8
