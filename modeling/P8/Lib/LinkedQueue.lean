import Mathlib.Data.List.Nodup

/-!
# Linked queues: a FIFO queue of nodes linked by pointers

An intrusive queue is a head pointer, a tail pointer and a link in each node. `IsQueue next head tail l` says that the nodes
from the head on are those of the list `l`, in order, and that the tail is its last one. The two operations of a queue, at the
level of the pointers, are operations on the list: a node is linked behind the last one (`IsQueue.enqueue`), and the first one
is taken off (`IsQueue.dequeue`). What a node carries besides its link plays no part.
-/

namespace LinkedQueue

variable {P : Type}

/-- Following the links from `p` on passes through the nodes of a list and ends there. -/
def Chain (next : P → Option P) : Option P → List P → Prop
  | p, [] => p = none
  | p, x :: xs => p = some x ∧ Chain next (next x) xs

/-- A queue that holds the nodes of a list, the oldest first. -/
structure IsQueue (next : P → Option P) (head tail : Option P) (l : List P) : Prop where
  chain : Chain next head l
  tail_eq : tail = l.getLast?
  nodup : l.Nodup

variable {next next' : P → Option P} {head tail : Option P} {l : List P} {x : P}

/-- Links outside a chain may change. -/
theorem Chain.congr {p : Option P} (h : Chain next p l) (hl : ∀ y ∈ l, next' y = next y) : Chain next' p l := by
  induction l generalizing p with
  | nil => exact h
  | cons y l ih =>
    obtain ⟨hp, hrest⟩ := h
    refine ⟨hp, ?_⟩
    rw [hl y List.mem_cons_self]
    exact ih hrest (fun z hz => hl z (List.mem_cons_of_mem y hz))

/-- A chain ends where its last link was null: there another node can be linked. -/
theorem Chain.snoc {p : Option P} {y : P} (h : Chain next p (l ++ [y])) (hnodup : (l ++ [y]).Nodup)
    (hkeep : ∀ z ∈ l, next' z = next z) (hlink : next' y = some x) (hnull : next' x = none) :
    Chain next' p (l ++ [y] ++ [x]) := by
  induction l generalizing p with
  | nil => exact ⟨h.1, hlink, hnull⟩
  | cons z l ih =>
    obtain ⟨hp, hrest⟩ := h
    refine ⟨hp, ?_⟩
    rw [hkeep z List.mem_cons_self]
    exact ih hrest (List.nodup_cons.mp hnodup).2 (fun w hw => hkeep w (List.mem_cons_of_mem z hw))

theorem isQueue_nil (next : P → Option P) : IsQueue next none none [] := ⟨rfl, rfl, List.nodup_nil⟩

/-- A node that is not in the queue is linked behind the last one. -/
theorem IsQueue.enqueue (h : IsQueue next head tail l) (hx : x ∉ l) (hkeep : ∀ y ∈ l, some y ≠ tail → next' y = next y)
    (hlink : ∀ y, tail = some y → next' y = some x) (hnull : next' x = none) :
    IsQueue next' (if tail.isSome then head else some x) (some x) (l ++ [x]) := by
  have hnodup : (l ++ [x]).Nodup := by
    rw [List.nodup_append]
    refine ⟨h.nodup, by simp, fun a ha b hb hab => ?_⟩
    rw [List.mem_singleton.mp hb] at hab
    exact hx (hab ▸ ha)
  refine ⟨?_, by simp, hnodup⟩
  rcases List.eq_nil_or_concat' l with rfl | ⟨l', y, rfl⟩
  · have htail : tail = none := h.tail_eq
    rw [htail]
    exact ⟨rfl, hnull⟩
  · have htail : tail = some y := by rw [h.tail_eq]; simp
    have hne : ∀ z ∈ l', some z ≠ tail := by
      intro z hz hzy
      rw [htail] at hzy
      cases hzy
      exact (List.nodup_append.mp h.nodup).2.2 y hz y (List.mem_singleton_self y) rfl
    rw [htail] at hlink ⊢
    refine Chain.snoc h.chain h.nodup (fun z hz => ?_) (hlink y rfl) hnull
    exact hkeep z (List.mem_append_left _ hz) (hne z hz)

/-- The first node is taken off; the tail goes with the last one. -/
theorem IsQueue.dequeue (h : IsQueue next head tail (x :: l)) :
    head = some x ∧ IsQueue next (next x) (if (next x).isNone then none else tail) l := by
  obtain ⟨hhead, hrest⟩ := h.chain
  refine ⟨hhead, hrest, ?_, (List.nodup_cons.mp h.nodup).2⟩
  cases l with
  | nil =>
    have hnull : next x = none := hrest
    rw [hnull]
    rfl
  | cons y l =>
    rw [hrest.1, h.tail_eq]
    rfl

/-- Links of nodes that are not in the queue do not matter. -/
theorem IsQueue.congr (h : IsQueue next head tail l) (hl : ∀ y ∈ l, next' y = next y) : IsQueue next' head tail l :=
  ⟨h.chain.congr hl, h.tail_eq, h.nodup⟩

/-- A queue is empty exactly when its head is null. -/
theorem IsQueue.head_eq_none_iff (h : IsQueue next head tail l) : head = none ↔ l = [] := by
  cases l with
  | nil => exact ⟨fun _ => rfl, fun _ => h.chain⟩
  | cons y l =>
    rw [h.chain.1]
    exact ⟨fun hn => (by cases hn), fun hn => (by cases hn)⟩

end LinkedQueue
