import Mathlib.Data.List.ReduceOption
import P8.Pool.Buffers

/-!
# Batch: recycling a list of buffers

`cp8_buffer_pool::recycle` takes one buffer, or a list of them. The first locks `mo_mutex` for its buffer. The second locks it once
and lets `kit::c_lst::clear` hand back the elements, so that the waiters are served and the free list grows while the list is gone
through. Both end in the same state.

`kit::c_lst` is not among the sources. `clear` is a parameter here, which is to call back from the first element to the last and to
leave the list empty (`FirstToLast`).
-/

namespace P8

/-- `clear` of a list of `α`, its callback working on a state `σ`: the state after it, and what is left of the list. -/
abbrev Clear (α σ : Type) : Type := (α → σ → Except Halt σ) → List α → σ → Except Halt (σ × List α)

/-- The callback is called from the first element to the last, and nothing is left. -/
structure FirstToLast {α σ : Type} (clear : Clear α σ) : Prop where
  nil : ∀ f s, clear f [] s = .ok (s, [])
  cons : ∀ f x xs s, clear f (x :: xs) s = (f x s).bind (clear f xs)

/-- A pool while buffers are recycled, with the condition variables notified so far and the number of times `mo_mutex` was locked. -/
structure Recycling (B T : Type) where
  pool : Pool B T
  notified : List (Fin 64)
  locks : Nat

namespace Recycling

variable {B T : Type} [DecidableEq T]

def lock (r : Recycling B T) : Recycling B T := { r with locks := r.locks + 1 }

/-- What is done with a buffer under the lock: it is handed to the oldest waiter, whose condition variable is notified, or goes to
the free list. -/
def handBack (b : B) (r : Recycling B T) : Except Halt (Recycling B T) :=
  (r.pool.recycle b).map (fun x => { r with pool := x.1, notified := r.notified ++ x.2 })

/-- `recycle(uint8_t *)`. -/
def recycle (buf : Option B) (r : Recycling B T) : Except Halt (Recycling B T) :=
  match buf with
  | none => .ok r
  | some b => r.lock.handBack b

/-- The callback of `recycle(kit::c_lst<uint8_t *> &)`. -/
def callback (buf : Option B) (r : Recycling B T) : Except Halt (Recycling B T) :=
  match buf with
  | none => .ok r
  | some b => r.handBack b

/-- `recycle(kit::c_lst<uint8_t *> &)`, with what is left of the list. -/
def recycleList (clear : Clear (Option B) (Recycling B T)) (bufs : List (Option B)) (r : Recycling B T) :
    Except Halt (Recycling B T × List (Option B)) :=
  if bufs.length = 0 then .ok (r, bufs) else clear callback bufs r.lock

/-- `recycle(uint8_t *)` called for each of the buffers in order. -/
def recycleEach : List (Option B) → Recycling B T → Except Halt (Recycling B T)
  | [], r => .ok r
  | buf :: bufs, r => (r.recycle buf).bind (recycleEach bufs)

variable {clear : Clear (Option B) (Recycling B T)}

/-- A buffer that is recycled before others. -/
theorem recycleAll_some (b : B) (bufs : List (Option B)) (p : Pool B T) :
    p.recycleAll (some b :: bufs) =
      (p.recycle b).bind (fun x => (x.1.recycleAll bufs).map (fun y => (y.1, x.2 ++ y.2))) := by
  rw [Pool.recycleAll]
  cases p.recycle b with
  | error e => rfl
  | ok x =>
    show (Pool.recycleAll bufs x.1).bind (fun y => .ok (y.1, x.2 ++ y.2)) = (Pool.recycleAll bufs x.1).map _
    cases Pool.recycleAll bufs x.1 <;> rfl

/-- Buffers recycled one by one: the lock is taken for each that is not null. -/
theorem recycleEach_eq (bufs : List (Option B)) (r : Recycling B T) :
    r.recycleEach bufs = (r.pool.recycleAll bufs).map
      (fun x => ⟨x.1, r.notified ++ x.2, r.locks + bufs.reduceOption.length⟩) := by
  induction bufs generalizing r with
  | nil => simp [recycleEach, Pool.recycleAll, Except.map]
  | cons buf bufs ih =>
    cases buf with
    | none =>
      rw [List.reduceOption_cons_of_none]
      exact ih r
    | some b =>
      rw [recycleEach, recycle, handBack, recycleAll_some, List.reduceOption_cons_of_some, List.length_cons]
      show ((r.pool.recycle b).map _).bind _ = _
      cases r.pool.recycle b with
      | error e => rfl
      | ok x =>
        -- the rest is recycled from the state the first buffer leaves
        show recycleEach bufs ⟨x.1, r.notified ++ x.2, r.locks + 1⟩ = ((x.1.recycleAll bufs).map _).map _
        rw [ih]
        cases Pool.recycleAll bufs x.1 with
        | error e => rfl
        | ok y => simp [Except.map, Nat.add_comm, Nat.add_left_comm]

/-- Buffers handed back under one lock. -/
theorem clear_callback (h : FirstToLast clear) (bufs : List (Option B)) (r : Recycling B T) :
    clear callback bufs r = (r.pool.recycleAll bufs).map (fun x => (⟨x.1, r.notified ++ x.2, r.locks⟩, [])) := by
  induction bufs generalizing r with
  | nil =>
    rw [h.nil]
    simp [Pool.recycleAll, Except.map]
  | cons buf bufs ih =>
    rw [h.cons]
    cases buf with
    | none => exact ih r
    | some b =>
      rw [callback, handBack, recycleAll_some]
      cases r.pool.recycle b with
      | error e => rfl
      | ok x =>
        show clear callback bufs ⟨x.1, r.notified ++ x.2, r.locks⟩ = ((x.1.recycleAll bufs).map _).map _
        rw [ih]
        cases Pool.recycleAll bufs x.1 with
        | error e => rfl
        | ok y => simp [Except.map]

/-- A list of buffers is recycled like each of them in order: in every state of a pool the outcome is the same, the pool, its
waiters' nodes and the condition variables notified, except that the mutex is locked once, and the list is empty. Where the
waiters are queued both return, the first buffers served the first waiters and the others are in the free list. -/
theorem recycle_batch (h : FirstToLast clear) (bufs : List (Option B)) (r : Recycling B T) :
    r.recycleList clear bufs =
      (r.recycleEach bufs).map (fun out => ({ out with locks := r.locks + min bufs.length 1 }, [])) ∧
    ∀ q, r.pool.Queue q → ∃ out cvs, r.recycleEach bufs = .ok out ∧ out.notified = r.notified ++ cvs ∧
      Pool.Recycled r.pool out.pool q bufs.reduceOption cvs := by
  constructor
  · rw [recycleEach_eq, recycleList]
    by_cases hempty : bufs.length = 0
    · obtain rfl := List.eq_nil_of_length_eq_zero hempty
      simp [Pool.recycleAll, Except.map]
    · have hone : min bufs.length 1 = 1 := by omega
      rw [if_neg hempty, clear_callback h, hone]
      show (Pool.recycleAll bufs r.pool).map _ = _
      cases Pool.recycleAll bufs r.pool <;> rfl
  · intro q hq
    obtain ⟨p, cvs, hp, hr⟩ := hq.recycleAll bufs
    refine ⟨⟨p, r.notified ++ cvs, r.locks + bufs.reduceOption.length⟩, cvs, ?_, rfl, hr⟩
    rw [recycleEach_eq, hp]
    rfl

end Recycling

/-- `clear` of a list. -/
def clearList {α σ : Type} : Clear α σ
  | _, [], s => .ok (s, [])
  | f, x :: xs, s => (f x s).bind (clearList f xs)

/-- Clearing as `std::list` does goes from the first to the last. -/
theorem firstToLast_clearList (α σ : Type) : FirstToLast (clearList : Clear α σ) :=
  ⟨fun _ _ => rfl, fun _ _ _ _ => rfl⟩

/-- Three buffers and a null one, with two waiters in the queue: the waiters are drained in the middle of the list. -/
theorem recycle_batch_twoWaiters :
    ∃ out, Recycling.recycleEach [some 10, none, some 11, some 12]
        ⟨((Pool.init 8192 : Pool Nat Nat).enqueue 0).enqueue 1, [], 0⟩ = .ok out ∧
      Recycling.recycleList clearList [some 10, none, some 11, some 12]
        ⟨((Pool.init 8192 : Pool Nat Nat).enqueue 0).enqueue 1, [], 0⟩ = .ok ({ out with locks := 1 }, []) ∧
      out.pool.served = [(0, some 10), (1, some 11)] ∧ out.pool.free = [12] ∧ out.pool.waitCount = 0 := by
  have hq : (((Pool.init 8192 : Pool Nat Nat).enqueue 0).enqueue 1).Queue [0, 1] :=
    ((Pool.queue_init 8192).enqueue (by decide)).enqueue (by decide)
  obtain ⟨heq, hall⟩ := Recycling.recycle_batch (firstToLast_clearList (Option Nat) (Recycling Nat Nat))
    [some 10, none, some 11, some 12] ⟨((Pool.init 8192 : Pool Nat Nat).enqueue 0).enqueue 1, [], 0⟩
  obtain ⟨out, cvs, hout, -, hr⟩ := hall [0, 1] hq
  refine ⟨out, hout, ?_, hr.served, hr.free, hr.queue.count⟩
  rw [heq, hout]
  rfl

end P8
