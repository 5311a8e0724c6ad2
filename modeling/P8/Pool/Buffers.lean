import Mathlib.Data.List.Perm.Basic
import P8.Protocol
import P8.Steps
import P8.Lib.LinkedQueue

/-!
# Buffers: the buffer pool and the memory budget

`cp8_memory_budget` and the operations of `cp8_buffer_pool` that run under its lock. A buffer is an address, of any type `B`;
a thread that waits is the address of its `s_waiter`, of any type `T`, and `nodes` is what is stored there. Each waiter parks on
one of 64 condition variables, and the operations return the indices of those they notify. `enqueued` and `served` are the
history of the waiters, which nothing reads.

The counters `mu_wait_count` and `mu_inflight` count threads that are parked and are natural numbers here. Everything that
counts bytes is a `size_t` and wraps.
-/

namespace P8

/-! ## The budget -/

/-- A `cp8_memory_budget`. -/
structure Budget where
  max : Nat
  used : Nat
  deriving DecidableEq

namespace Budget

/-- What a round of the loop of `try_reserve` does, once `lz_current` is there: give up, succeed, or go on with the value the
exchange found. -/
inductive Round where
  | refused
  | reserved (b : Budget)
  | again (current : Nat)

/-- A round of the loop of `try_reserve`; `spurious` says that the weak exchange fails for no reason. -/
def tryReserveRound (b : Budget) (bytes current : Nat) (spurious : Bool) : Round :=
  if b.max < current ∨ sizeSub b.max current < bytes then .refused
  else if b.used = current ∧ !spurious then .reserved { b with used := (current + bytes) % 2 ^ 64 }
  else .again b.used

/-- `cp8_memory_budget::release`. -/
def release (b : Budget) (bytes : Nat) : Budget := { b with used := sizeSub b.used bytes }

/-- A reservation that succeeds fits under the cap, and nothing wraps. -/
theorem reserved_spec {b b' : Budget} {bytes current : Nat} {spurious : Bool} (hmax : b.max < 2 ^ 64)
    (h : b.tryReserveRound bytes current spurious = .reserved b') :
    b'.max = b.max ∧ b'.used = b.used + bytes ∧ b'.used ≤ b'.max := by
  unfold tryReserveRound at h
  split at h
  · cases h
  · rename_i hfit
    split at h
    · rename_i hused
      obtain rfl := Round.reserved.inj h
      have hle : current ≤ b.max := Nat.le_of_not_lt (fun hlt => hfit (Or.inl hlt))
      have hbytes : bytes ≤ b.max - current := by
        rw [← sizeSub_of_le hle hmax]
        exact Nat.le_of_not_lt (fun hlt => hfit (Or.inr hlt))
      have hmod : (current + bytes) % 2 ^ 64 = current + bytes := Nat.mod_eq_of_lt (by omega)
      refine ⟨rfl, hmod.trans (by rw [hused.1]), ?_⟩
      have hfits : current + bytes ≤ b.max := by omega
      exact Nat.le_trans (Nat.le_of_eq hmod) hfits
    · cases h

/-- A reservation is refused where the cap leaves no room. -/
theorem refused_spec {b : Budget} {bytes current : Nat} {spurious : Bool} (hmax : b.max < 2 ^ 64)
    (h : b.tryReserveRound bytes current spurious = .refused) : b.max < current + bytes := by
  have hfull : b.max < current ∨ sizeSub b.max current < bytes := by
    refine Decidable.of_not_not (fun hfit => ?_)
    rw [tryReserveRound, if_neg hfit] at h
    split at h <;> exact Round.noConfusion h
  rcases hfull with hlt | hlt
  · omega
  · by_cases hle : current ≤ b.max
    · rw [sizeSub_of_le hle hmax] at hlt
      omega
    · omega

/-- A round that goes on goes on with what the budget has lent. -/
theorem again_spec {b : Budget} {bytes current next : Nat} {spurious : Bool}
    (h : b.tryReserveRound bytes current spurious = .again next) : next = b.used := by
  unfold tryReserveRound at h
  split at h
  · exact Round.noConfusion h
  · split at h
    · exact Round.noConfusion h
    · exact (Round.again.inj h).symm

/-- A release that does not exceed what is lent gives it back. -/
theorem release_spec {b : Budget} {bytes : Nat} (hle : bytes ≤ b.used) (hused : b.used < 2 ^ 64) :
    (b.release bytes).max = b.max ∧ (b.release bytes).used + bytes = b.used := by
  unfold release
  rw [sizeSub_of_le hle hused]
  exact ⟨rfl, Nat.sub_add_cancel hle⟩

end Budget

/-! ## The pool -/

/-- `s_waiter`; `cv` is the index of the condition variable it parks on. -/
structure Waiter (B T : Type) where
  next : Option T
  buf : Option B
  done : Bool
  cv : Fin 64

/-- A `cp8_buffer_pool` and the waiters' nodes on their threads' stacks. -/
structure Pool (B T : Type) where
  bufferSize : Nat
  free : List B
  all : List B
  waitHead : Option T
  waitTail : Option T
  waitCount : Nat
  stopping : Bool
  cvNext : UInt32
  inflight : Nat
  nodes : T → Waiter B T
  enqueued : List T
  served : List (T × Option B)

namespace Pool

variable {B T : Type} [DecidableEq T]

/-- A pool right after its construction. -/
def init (bufferSize : Nat) : Pool B T :=
  { bufferSize := bufferSize
    free := []
    all := []
    waitHead := none
    waitTail := none
    waitCount := 0
    stopping := false
    cvNext := 0
    inflight := 0
    nodes := fun _ => ⟨none, none, false, 0⟩
    enqueued := []
    served := [] }

/-- `mu_cv_next % mz_wait_cv_count`. -/
def shard (cvNext : UInt32) : Fin 64 := ⟨cvNext.toNat % 64, Nat.mod_lt _ (by decide)⟩

/-- The queueing of `acquire_wait`: the caller's node goes behind the last waiter. -/
def enqueue (t : T) (p : Pool B T) : Pool B T :=
  { p with
    nodes := fun u =>
      if u = t then ⟨none, none, false, shard p.cvNext⟩
      else if p.waitTail = some u then { p.nodes u with next := some t }
      else p.nodes u
    waitHead := if p.waitTail.isSome then p.waitHead else some t
    waitTail := some t
    waitCount := p.waitCount + 1
    cvNext := p.cvNext + 1
    inflight := p.inflight + 1
    enqueued := p.enqueued ++ [t] }

/-- The assignments to a waiter that is served. -/
def serve (w : T) (buf : Option B) (p : Pool B T) : Pool B T :=
  { p with
    nodes := fun u => if u = w then { p.nodes u with buf := buf, done := true } else p.nodes u
    served := p.served ++ [(w, buf)] }

/-- `try_handoff_no_lock`: the buffer goes to the oldest waiter, if there is one. -/
def tryHandoff (b : B) (p : Pool B T) : Except Halt (Option (Pool B T × Fin 64)) :=
  if p.waitCount = 0 then .ok none
  else
    match p.waitHead with
    | none => .error .badAccess
    | some w =>
      let p := { p with waitHead := (p.nodes w).next }
      let p := { p with waitTail := if p.waitHead.isNone then none else p.waitTail, waitCount := p.waitCount - 1 }
      .ok (some (p.serve w (some b), (p.nodes w).cv))

/-- `recycle` of one buffer. -/
def recycle (b : B) (p : Pool B T) : Except Halt (Pool B T × List (Fin 64)) :=
  match p.tryHandoff b with
  | .error e => .error e
  | .ok (some (p, cv)) => .ok (p, [cv])
  | .ok none => .ok ({ p with free := p.free ++ [b] }, [])

/-- `recycle` of a list of buffers; null ones are skipped. -/
def recycleAll : List (Option B) → Pool B T → Except Halt (Pool B T × List (Fin 64))
  | [], p => .ok (p, [])
  | none :: bs, p => recycleAll bs p
  | some b :: bs, p => do
    let (p, cvs) ← p.recycle b
    let (p, cvs') ← recycleAll bs p
    return (p, cvs ++ cvs')

/-- The loop of `stop_waiters`: every waiter from the head on is served with a null buffer. -/
def wakeAll : Nat → Pool B T → Pool B T
  | 0, p => p
  | fuel + 1, p =>
    match p.waitHead with
    | none => p
    | some w => wakeAll fuel ({ p with waitHead := (p.nodes w).next }.serve w none)

/-- `stop_waiters`. A waiter is counted when it is linked, so as many rounds as are counted are enough. -/
def stopWaiters (p : Pool B T) : Pool B T × List (Fin 64) :=
  ({ wakeAll p.waitCount { p with stopping := true } with waitTail := none, waitCount := 0 },
    if p.waitHead.isSome then List.finRange 64 else [])

/-- A new buffer is put to `mo_all` and `mo_free`. -/
def addBuffer (b : B) (p : Pool B T) : Pool B T := { p with all := p.all ++ [b], free := p.free ++ [b] }

/-! ## What the operations do to the queue -/

/-- The queue of waiters is the list `q`: its fields agree, the waiters in it have not been served, and those that have been
came before them. -/
structure Queue (p : Pool B T) (q : List T) : Prop where
  links : LinkedQueue.IsQueue (fun t => (p.nodes t).next) p.waitHead p.waitTail q
  count : p.waitCount = q.length
  unserved : ∀ t ∈ q, (p.nodes t).done = false ∧ (p.nodes t).buf = none
  order : p.served.map Prod.fst ++ q = p.enqueued

variable {p : Pool B T} {q : List T}

omit [DecidableEq T] in
theorem queue_init (bufferSize : Nat) : (init bufferSize : Pool B T).Queue [] :=
  ⟨LinkedQueue.isQueue_nil _, rfl, fun _ h => (by cases h), rfl⟩

/-- A thread that queues is the last one. -/
theorem Queue.enqueue (h : p.Queue q) {t : T} (ht : t ∉ q) : (p.enqueue t).Queue (q ++ [t]) where
  links := by
    refine h.links.enqueue (x := t) ht (fun y hy hne => ?_) (fun y hy => ?_) ?_
    · have hyt : y ≠ t := fun he => ht (he ▸ hy)
      simp only [Pool.enqueue, if_neg hyt, if_neg (Ne.symm hne)]
    · have hmem : y ∈ q := List.mem_of_getLast? (h.links.tail_eq ▸ hy)
      have hyt : y ≠ t := fun he => ht (he ▸ hmem)
      simp only [Pool.enqueue, if_neg hyt, if_pos hy]
    · simp only [Pool.enqueue, if_pos]
  count := by simp [Pool.enqueue, h.count]
  unserved := by
    intro u hu
    by_cases hut : u = t
    · simp [Pool.enqueue, hut]
    · have hmem : u ∈ q := by simpa [hut] using hu
      have hold := h.unserved u hmem
      simp only [Pool.enqueue, if_neg hut]
      split <;> exact hold
  order := by simp [Pool.enqueue, ← h.order]

/-- The node of a thread that queues, and the others' nodes. -/
theorem enqueue_node (p : Pool B T) (t u : T) :
    ((p.enqueue t).nodes u).done = (if u = t then false else (p.nodes u).done) ∧
      ((p.enqueue t).nodes u).buf = (if u = t then none else (p.nodes u).buf) := by
  simp only [Pool.enqueue]
  split
  · exact ⟨rfl, rfl⟩
  · split <;> exact ⟨rfl, rfl⟩

/-- A node that says it was served is none that queued just now. -/
theorem done_enqueue {p : Pool B T} {t u : T} (hd : ((p.enqueue t).nodes u).done = true) :
    u ≠ t ∧ (p.nodes u).done = true ∧ ((p.enqueue t).nodes u).buf = (p.nodes u).buf := by
  obtain ⟨hdone, hbuf⟩ := enqueue_node p t u
  have hut : u ≠ t := by
    intro he
    rw [hdone, if_pos he] at hd
    cases hd
  rw [if_neg hut] at hdone hbuf
  exact ⟨hut, hdone ▸ hd, hbuf⟩

/-- Without waiters there is no hand-off. -/
theorem Queue.tryHandoff_nil (h : p.Queue []) (b : B) : p.tryHandoff b = .ok none := by
  exact if_pos h.count

/-- The oldest waiter gets the buffer. -/
theorem Queue.tryHandoff_cons {w : T} (h : p.Queue (w :: q)) (b : B) :
    ∃ p', p.tryHandoff b = .ok (some (p', (p.nodes w).cv)) ∧ p'.Queue q ∧
      p' = { (p.serve w (some b)) with
        waitHead := p'.waitHead, waitTail := p'.waitTail, waitCount := p'.waitCount } := by
  obtain ⟨hhead, hlinks⟩ := h.links.dequeue
  have hne : ¬ p.waitCount = 0 := by
    rw [h.count]
    exact Nat.succ_ne_zero _
  have hw : w ∉ q := (List.nodup_cons.mp h.links.nodup).1
  have hnext : ∀ u, ((p.serve w (some b)).nodes u).next = (p.nodes u).next := by
    intro u
    simp only [serve]
    split <;> rfl
  refine ⟨_, by rw [tryHandoff, if_neg hne, hhead], ⟨?_, ?_, ?_, ?_⟩, rfl⟩
  · exact hlinks.congr (fun u _ => hnext u)
  · simp [serve, h.count]
  · intro u hu
    have huw : u ≠ w := fun he => hw (he ▸ hu)
    simpa [serve, huw] using h.unserved u (List.mem_cons_of_mem w hu)
  · simp [serve, ← h.order]

/-- What a list of threads has been handed, once one more of them was handed a buffer. -/
theorem filterMap_perm_cons {α β : Type} {l : List α} {f f' : α → Option β} {w : α} {b : β} (hw : w ∈ l) (hl : l.Nodup)
    (hf : f w = none) (hf' : f' w = some b) (hne : ∀ u ∈ l, u ≠ w → f' u = f u) :
    (l.filterMap f').Perm (b :: l.filterMap f) := by
  induction l with
  | nil => cases hw
  | cons u l ih =>
    obtain ⟨hu, hl⟩ := List.nodup_cons.mp hl
    rcases List.mem_cons.mp hw with rfl | hw
    · have hrest : l.filterMap f' = l.filterMap f := List.filterMap_congr (fun v hv =>
        hne v (List.mem_cons_of_mem w hv) (fun he => hu (he ▸ hv)))
      rw [List.filterMap_cons_some hf', List.filterMap_cons_none hf, hrest]
    · have hrest := ih hw hl (fun v hv => hne v (List.mem_cons_of_mem u hv))
      have huw : u ≠ w := fun he => hu (he ▸ hw)
      have hsame := hne u List.mem_cons_self huw
      cases hfu : f u with
      | none =>
        rw [List.filterMap_cons_none (hsame.trans hfu), List.filterMap_cons_none hfu]
        exact hrest
      | some c =>
        rw [List.filterMap_cons_some (hsame.trans hfu), List.filterMap_cons_some hfu]
        exact (hrest.cons c).trans (List.Perm.swap b c _)

/-- A pool after buffers were recycled one after the other: the first ones went to the waiters in front, in the order in
which these had queued, and the others to the free list; every waiter served was notified. -/
structure Recycled (p p' : Pool B T) (q : List T) (bs : List B) (cvs : List (Fin 64)) : Prop where
  queue : p'.Queue (q.drop bs.length)
  free : p'.free = p.free ++ bs.drop q.length
  served : p'.served = p.served ++ (q.zip bs).map (fun x => (x.1, some x.2))
  done : ∀ t, (p'.nodes t).done = true ↔ (p.nodes t).done = true ∨ t ∈ q.take bs.length
  cv : ∀ t, (p'.nodes t).cv = (p.nodes t).cv
  buf : ∀ t, t ∉ q.take bs.length → (p'.nodes t).buf = (p.nodes t).buf
  given : ∀ x ∈ q.zip bs, (p'.nodes x.1).buf = some x.2
  account : ∀ l : List T, l.Nodup → (∀ t ∈ q, t ∈ l) →
    (l.filterMap (fun t => (p'.nodes t).buf)).Perm (bs.take q.length ++ l.filterMap (fun t => (p.nodes t).buf))
  notified : ∀ t ∈ q.take bs.length, (p.nodes t).cv ∈ cvs
  same : p'.all = p.all ∧ p'.stopping = p.stopping ∧ p'.inflight = p.inflight ∧ p'.enqueued = p.enqueued ∧
    p'.bufferSize = p.bufferSize

omit [DecidableEq T] in
theorem Recycled.nil (h : p.Queue q) : Recycled p p q [] [] where
  queue := h
  free := by simp
  served := by simp
  done := by simp
  cv := fun _ => rfl
  buf := fun _ _ => rfl
  given := fun _ h => (by simp at h)
  account := fun l _ _ => by simp
  notified := fun _ h => (by simp at h)
  same := ⟨rfl, rfl, rfl, rfl, rfl⟩

omit [DecidableEq T] in
/-- The waiters that buffers are handed to are the first ones, as many as there are buffers. -/
theorem map_fst_zip_take (q : List T) (bs : List B) : (q.zip bs).map Prod.fst = q.take bs.length := by
  rw [List.zip_eq_zip_take_min, List.map_fst_zip (by simp), List.take_eq_take_iff]
  omega

omit [DecidableEq T] in
/-- A waiter that was served was given one of the buffers. -/
theorem Recycled.mem_zip {p' : Pool B T} {bs : List B} {cvs : List (Fin 64)} (h : Recycled p p' q bs cvs) {t : T}
    (ht : t ∈ q.take bs.length) : ∃ b, (t, b) ∈ q.zip bs ∧ (p'.nodes t).buf = some b := by
  rw [← map_fst_zip_take] at ht
  obtain ⟨⟨u, b⟩, hx, rfl⟩ := List.mem_map.mp ht
  exact ⟨b, hx, h.given _ hx⟩

/-- One buffer recycled. -/
theorem Queue.recycle (h : p.Queue q) (b : B) : ∃ p' cvs, p.recycle b = .ok (p', cvs) ∧ Recycled p p' q [b] cvs := by
  unfold Pool.recycle
  cases q with
  | nil =>
    rw [h.tryHandoff_nil]
    refine ⟨_, _, rfl, ⟨h.links, h.count, h.unserved, h.order⟩, by simp, by simp, by simp, fun _ => rfl, fun _ _ => rfl,
      fun _ h => (by simp at h), fun _ _ _ => (by simp), fun _ h => (by simp at h), rfl, rfl, rfl, rfl, rfl⟩
  | cons w q =>
    obtain ⟨p', hp', hqueue, heq⟩ := h.tryHandoff_cons b
    rw [hp']
    refine ⟨_, _, rfl, hqueue, ?_, ?_, ?_, ?_, ?_, ?_, ?_, ?_, ?_⟩
    · rw [heq]
      simp [serve]
    · rw [heq]
      simp [serve]
    · intro t
      rw [heq]
      by_cases ht : t = w <;> simp [serve, ht]
    · intro t
      rw [heq]
      by_cases ht : t = w <;> simp [serve, ht]
    · intro t ht
      have htw : t ≠ w := by simpa using ht
      rw [heq]
      simp [serve, htw]
    · intro x hx
      have hxw : x = (w, b) := by simpa using hx
      rw [heq, hxw]
      simp [serve]
    · intro l hl hq
      have hbuf := (h.unserved w List.mem_cons_self).2
      have htake : [b].take (w :: q).length = [b] := by simp
      rw [htake]
      refine filterMap_perm_cons (f := fun t => (p.nodes t).buf) (hq w List.mem_cons_self) hl hbuf ?_ (fun u _ hu => ?_)
      · rw [heq]
        simp [serve]
      · rw [heq]
        simp [serve, hu]
    · intro t ht
      have htw : t = w := by simpa using ht
      simp [htw]
    · rw [heq]
      exact ⟨rfl, rfl, rfl, rfl, rfl⟩

omit [DecidableEq T] in
/-- One buffer is recycled, then the others. -/
theorem Recycled.cons {p₁ p₂ : Pool B T} {b : B} {bs : List B} {cvs₁ cvs₂ : List (Fin 64)} (h : p.Queue q)
    (h₁ : Recycled p p₁ q [b] cvs₁) (h₂ : Recycled p₁ p₂ (q.drop 1) bs cvs₂) :
    Recycled p p₂ q (b :: bs) (cvs₁ ++ cvs₂) := by
  obtain ⟨hall, hstop, hin, henq, hsize⟩ := h₁.same
  obtain ⟨hall₂, hstop₂, hin₂, henq₂, hsize₂⟩ := h₂.same
  have htake : ∀ t, t ∈ q.take (b :: bs).length ↔ t ∈ q.take [b].length ∨ t ∈ (q.drop 1).take bs.length := by
    intro t
    cases q <;> simp
  refine ⟨?_, ?_, ?_, fun t => ?_, fun t => (h₂.cv t).trans (h₁.cv t), fun t ht => ?_, fun x hx => ?_, fun l hl hq => ?_,
    fun t ht => ?_, hall₂.trans hall, hstop₂.trans hstop, hin₂.trans hin, henq₂.trans henq, hsize₂.trans hsize⟩
  · have hq := h₂.queue
    rwa [List.drop_drop, Nat.add_comm] at hq
  · rw [h₂.free, h₁.free]
    cases q <;> simp
  · rw [h₂.served, h₁.served]
    cases q <;> simp
  · rw [h₂.done, h₁.done, htake, or_assoc]
  · rw [htake, not_or] at ht
    rw [h₂.buf t ht.2, h₁.buf t ht.1]
  · cases q with
    | nil => simp at hx
    | cons w q =>
      rcases List.mem_cons.mp hx with rfl | hx
      · have hlate : w ∉ ((w :: q).drop 1).take bs.length := fun hw =>
          (List.nodup_cons.mp h.links.nodup).1 (List.mem_of_mem_take hw)
        rw [h₂.buf w hlate]
        exact h₁.given (w, b) (by simp)
      · exact h₂.given x hx
  · have hperm₁ := h₁.account l hl hq
    have hperm₂ := h₂.account l hl (fun t ht => hq t (List.mem_of_mem_drop ht))
    refine hperm₂.trans ((hperm₁.append_left _).trans ?_)
    cases q with
    | nil => simp
    | cons w q =>
      simp only [List.drop_one, List.tail_cons, List.length_cons, List.take_succ_cons, List.take_nil]
      exact List.perm_middle
  · rcases (htake t).mp ht with h | h
    · exact List.mem_append_left _ (h₁.notified t h)
    · exact List.mem_append_right _ (h₁.cv t ▸ h₂.notified t h)

/-- Buffers recycled in one go are handed out in the order of the list. -/
theorem Queue.recycleAll (h : p.Queue q) (bufs : List (Option B)) :
    ∃ p' cvs, p.recycleAll bufs = .ok (p', cvs) ∧ Recycled p p' q bufs.reduceOption cvs := by
  induction bufs generalizing p q with
  | nil => exact ⟨p, [], rfl, Recycled.nil h⟩
  | cons ob bufs ih =>
    cases ob with
    | none =>
      obtain ⟨p', cvs, hp', hr⟩ := ih h
      exact ⟨p', cvs, hp', hr⟩
    | some b =>
      obtain ⟨p₁, cvs₁, hp₁, hr₁⟩ := h.recycle b
      obtain ⟨p₂, cvs₂, hp₂, hr₂⟩ := ih hr₁.queue
      refine ⟨p₂, cvs₁ ++ cvs₂, ?_, hr₁.cons h hr₂⟩
      rw [Pool.recycleAll, hp₁]
      simp only [bind, Except.bind, hp₂]
      rfl

/-- Recycling keeps the queue, whose first threads are served. -/
theorem Queue.recycled (h : p.Queue q) {bufs : List (Option B)} {p' : Pool B T} {cvs : List (Fin 64)}
    (hp : p.recycleAll bufs = .ok (p', cvs)) : Recycled p p' q bufs.reduceOption cvs := by
  obtain ⟨p₁, cvs₁, hp₁, hr⟩ := h.recycleAll bufs
  cases hp₁.symm.trans hp
  exact hr

/-- The loop of `stop_waiters` serves all waiters that are linked. -/
theorem wakeAll_chain (hchain : LinkedQueue.Chain (fun t => (p.nodes t).next) p.waitHead q) (hnodup : q.Nodup) {fuel : Nat}
    (hfuel : q.length ≤ fuel) :
    (p.wakeAll fuel).waitHead = none ∧ (p.wakeAll fuel).served = p.served ++ q.map (·, none) ∧
      (∀ t, (p.wakeAll fuel).nodes t = if t ∈ q then { p.nodes t with buf := none, done := true } else p.nodes t) ∧
      p.wakeAll fuel = { p with
        waitHead := (p.wakeAll fuel).waitHead, nodes := (p.wakeAll fuel).nodes, served := (p.wakeAll fuel).served } := by
  induction q generalizing p fuel with
  | nil =>
    have hhead : p.waitHead = none := hchain
    have hstay : p.wakeAll fuel = p := by
      cases fuel with
      | zero => rfl
      | succ fuel => rw [wakeAll, hhead]
    rw [hstay]
    exact ⟨hhead, by simp, by simp, rfl⟩
  | cons w q ih =>
    obtain ⟨fuel, rfl⟩ : ∃ k, fuel = k + 1 := ⟨fuel - 1, by simp only [List.length_cons] at hfuel; omega⟩
    obtain ⟨hhead, hrest⟩ := hchain
    obtain ⟨hw, hnodup⟩ := List.nodup_cons.mp hnodup
    have hnext : ∀ u, ((serve w none { p with waitHead := (p.nodes w).next }).nodes u).next = (p.nodes u).next := by
      intro u
      simp only [serve]
      split <;> rfl
    obtain ⟨hnone, hserved, hnodes, heq⟩ := ih (p := serve w none { p with waitHead := (p.nodes w).next })
      (hrest.congr (fun u _ => hnext u)) hnodup (Nat.le_of_succ_le_succ hfuel)
    have hround : p.wakeAll (fuel + 1) = wakeAll fuel (serve w none { p with waitHead := (p.nodes w).next }) := by
      rw [wakeAll, hhead]
    rw [hround]
    refine ⟨hnone, by rw [hserved]; simp [serve], fun t => ?_, by rw [heq]; rfl⟩
    rw [hnodes]
    by_cases htw : t = w
    · rw [htw, if_neg hw, if_pos List.mem_cons_self]
      simp [serve]
    · by_cases htq : t ∈ q <;> simp [serve, htw, htq]

/-- A pool after `stop_waiters`: nobody waits any more, and those who did were served with a null buffer and notified. -/
structure Stopped (p p' : Pool B T) (q : List T) (cvs : List (Fin 64)) : Prop where
  queue : p'.Queue []
  served : p'.served = p.served ++ q.map (·, none)
  done : ∀ t, (p'.nodes t).done = true ↔ (p.nodes t).done = true ∨ t ∈ q
  cv : ∀ t, (p'.nodes t).cv = (p.nodes t).cv
  buf : ∀ t, (p'.nodes t).buf = (p.nodes t).buf
  notified : ∀ t ∈ q, (p.nodes t).cv ∈ cvs
  stopping : p'.stopping = true
  same : p'.free = p.free ∧ p'.all = p.all ∧ p'.inflight = p.inflight ∧ p'.enqueued = p.enqueued ∧
    p'.bufferSize = p.bufferSize

/-- Stopping the waiters serves everybody in the queue with nothing. -/
theorem Queue.stopWaiters (h : p.Queue q) : Stopped p p.stopWaiters.1 q p.stopWaiters.2 := by
  obtain ⟨hnone, hserved, hnodes, heq⟩ := wakeAll_chain (p := { p with stopping := true }) h.links.chain h.links.nodup
    (Nat.le_of_eq h.count.symm)
  have hsame : ∀ t, (p.stopWaiters.1.nodes t).cv = (p.nodes t).cv ∧ (p.stopWaiters.1.nodes t).buf = (p.nodes t).buf ∧
      ((p.stopWaiters.1.nodes t).done = true ↔ (p.nodes t).done = true ∨ t ∈ q) := by
    intro t
    show ((wakeAll p.waitCount { p with stopping := true }).nodes t).cv = _ ∧
      ((wakeAll p.waitCount { p with stopping := true }).nodes t).buf = _ ∧
        (((wakeAll p.waitCount { p with stopping := true }).nodes t).done = true ↔ _)
    rw [hnodes]
    by_cases ht : t ∈ q
    · simp [ht, (h.unserved t ht).2]
    · simp [ht]
  refine
    { queue := ⟨?_, rfl, fun _ h' => (by cases h'), ?_⟩
      served := hserved
      done := fun t => (hsame t).2.2
      cv := fun t => (hsame t).1
      buf := fun t => (hsame t).2.1
      notified := fun t ht => ?_
      stopping := ?_
      same := ?_ }
  · show LinkedQueue.IsQueue _ (wakeAll p.waitCount { p with stopping := true }).waitHead none []
    rw [hnone]
    exact LinkedQueue.isQueue_nil _
  · show (wakeAll p.waitCount { p with stopping := true }).served.map Prod.fst ++ [] =
      (wakeAll p.waitCount { p with stopping := true }).enqueued
    rw [hserved, heq, ← h.order]
    simp [Function.comp_def]
  · have hhead : p.waitHead.isSome = true := by
      rw [Option.isSome_iff_ne_none]
      intro hn
      rw [h.links.head_eq_none_iff.mp hn] at ht
      cases ht
    show _ ∈ (if p.waitHead.isSome then List.finRange 64 else [])
    rw [if_pos hhead]
    exact List.mem_finRange _
  · show (wakeAll p.waitCount { p with stopping := true }).stopping = true
    rw [heq]
  · show (wakeAll p.waitCount { p with stopping := true }).free = _ ∧
      (wakeAll p.waitCount { p with stopping := true }).all = _ ∧
      (wakeAll p.waitCount { p with stopping := true }).inflight = _ ∧
      (wakeAll p.waitCount { p with stopping := true }).enqueued = _ ∧
      (wakeAll p.waitCount { p with stopping := true }).bufferSize = _
    rw [heq]
    exact ⟨rfl, rfl, rfl, rfl, rfl⟩

end Pool

end P8
