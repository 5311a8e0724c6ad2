import Mathlib.Data.List.Nodup

/-!
# Doubly linked lists: nodes linked both ways

An intrusive list is a head pointer and two links in each node. `IsList next prev head l` says that the nodes from the head on are
those of `l`, in order, each linked back to the one in front of it. A node is put at the front (`IsList.cons`) or taken out of
anywhere (`IsList.remove`), at the level of the pointers, and `iterate` walks over the nodes, whatever is done with each.
-/

namespace DoublyLinked

variable {P : Type}

/-- The nodes from `p` on are those of a list, the first one is linked back to `q`, and each other one to its predecessor. -/
def Links (next prev : P → Option P) : Option P → Option P → List P → Prop
  | _, p, [] => p = none
  | q, p, x :: xs => p = some x ∧ prev x = q ∧ Links next prev (some x) (next x) xs

/-- A list of the nodes `l`. -/
structure IsList (next prev : P → Option P) (head : Option P) (l : List P) : Prop where
  links : Links next prev none head l
  nodup : l.Nodup

variable {next next' prev prev' : P → Option P} {p q head : Option P} {l : List P} {x : P}

/-- The first node of a chain is where it begins. -/
theorem Links.head_eq (h : Links next prev q p l) : p = l.head? := by
  cases l with
  | nil => exact h
  | cons x xs => exact h.1

/-- Links of other nodes do not matter. -/
theorem Links.congr (h : Links next prev q p l) (hl : ∀ y ∈ l, next' y = next y ∧ prev' y = prev y) :
    Links next' prev' q p l := by
  induction l generalizing q p with
  | nil => exact h
  | cons x xs ih =>
    obtain ⟨hp, hq, hrest⟩ := h
    obtain ⟨⟨hn, hb⟩, hxs⟩ := List.forall_mem_cons.mp hl
    refine ⟨hp, hb.trans hq, ?_⟩
    rw [hn]
    exact ih hrest hxs

/-- Only the back link of its first node says what is in front of a list. -/
theorem Links.relink (h : Links next prev q p l) {q' : Option P} (hfirst : ∀ y, p = some y → prev' y = q')
    (hnext : ∀ y ∈ l, next' y = next y) (hprev : ∀ y ∈ l, p ≠ some y → prev' y = prev y) (hnodup : l.Nodup) :
    Links next' prev' q' p l := by
  cases l with
  | nil => exact h
  | cons x xs =>
    obtain ⟨hp, -, hrest⟩ := h
    obtain ⟨hx, -⟩ := List.nodup_cons.mp hnodup
    refine ⟨hp, hfirst x hp, ?_⟩
    rw [hnext x List.mem_cons_self]
    refine hrest.congr (fun y hy => ⟨hnext y (List.mem_cons_of_mem x hy), hprev y (List.mem_cons_of_mem x hy) ?_⟩)
    rw [hp]
    rintro he
    exact hx (Option.some.inj he ▸ hy)

/-- The back link of a node behind others is the last of these. -/
theorem Links.prev_eq {a b : List P} (h : Links next prev q p (a ++ x :: b)) : prev x = a.getLast?.or q := by
  induction a generalizing q p with
  | nil => exact h.2.1
  | cons y a ih =>
    rw [ih h.2.2, List.getLast?_cons]
    cases a.getLast? <;> rfl

/-- A node's successor is the next one of the chain. -/
theorem Links.next_eq {a b : List P} (h : Links next prev q p (a ++ x :: b)) : next x = b.head? := by
  induction a generalizing q p with
  | nil => exact h.2.2.head_eq
  | cons y a ih => exact ih h.2.2

theorem isList_nil (next prev : P → Option P) : IsList next prev none [] := ⟨rfl, List.nodup_nil⟩

/-- A node that is not in the list is put at its front. -/
theorem IsList.cons (h : IsList next prev head l) (hx : x ∉ l) (hnext : next' x = head) (hprev : prev' x = none)
    (hfirst : ∀ y, head = some y → prev' y = some x) (hkeep : ∀ y ∈ l, next' y = next y)
    (hback : ∀ y ∈ l, head ≠ some y → prev' y = prev y) : IsList next' prev' (some x) (x :: l) := by
  refine ⟨⟨rfl, hprev, ?_⟩, List.nodup_cons.mpr ⟨hx, h.nodup⟩⟩
  rw [hnext]
  exact h.links.relink hfirst hkeep hback h.nodup

section

variable [DecidableEq P]

/-- A node is taken out: who was linked to it is linked to what it was linked to. -/
theorem Links.remove {a b : List P} (h : Links next prev q p (a ++ x :: b)) (hnodup : (a ++ x :: b).Nodup)
    (hq : ∀ y ∈ b, q ≠ some y)
    (hnext : ∀ y ∈ a ++ b, next' y = if prev x = some y then next x else next y)
    (hprev : ∀ y ∈ a ++ b, prev' y = if next x = some y then prev x else prev y) :
    Links next' prev' q (if a = [] then next x else p) (a ++ b) := by
  induction a generalizing q p with
  | nil =>
    obtain ⟨-, hpx, hrest⟩ := h
    obtain ⟨hx, hb⟩ := List.nodup_cons.mp hnodup
    rw [if_pos rfl]
    refine hrest.relink (fun y hy => ?_) (fun y hy => ?_) (fun y hy hne => ?_) hb
    · have hmem : y ∈ b := List.mem_of_mem_head? (hrest.head_eq ▸ hy)
      rw [hprev y hmem, if_pos hy]
      exact hpx
    · rw [hnext y hy, hpx, if_neg (hq y hy)]
    · rw [hprev y hy, if_neg hne]
  | cons z a ih =>
    have hpx := h.prev_eq
    have hnx := h.next_eq
    obtain ⟨hp, hz, hrest⟩ := h
    obtain ⟨hza, hnodup'⟩ := List.nodup_cons.mp hnodup
    have hzb : ∀ y ∈ b, some z ≠ some y := by
      intro y hy he
      exact hza (Option.some.inj he ▸ List.mem_append_right a (List.mem_cons_of_mem x hy))
    have hmem : z ∈ z :: a ++ b := List.mem_cons_self
    have hih := ih hrest hnodup' hzb (fun y hy => hnext y (List.mem_cons_of_mem z hy))
      (fun y hy => hprev y (List.mem_cons_of_mem z hy))
    have hback : next x ≠ some z := by
      rw [hnx]
      intro hy
      exact hzb z (List.mem_of_mem_head? hy) rfl
    rw [if_neg (List.cons_ne_nil z a)]
    refine ⟨hp, ?_, ?_⟩
    · rw [hprev z hmem, if_neg hback]
      exact hz
    · -- the node in front of `x`, if it is this one, is linked to what is behind `x`
      have hfront : prev x = some z ↔ a = [] := by
        rw [hpx, List.getLast?_cons]
        cases a with
        | nil => exact iff_of_true rfl rfl
        | cons y a =>
          refine iff_of_false (fun he => ?_) (List.cons_ne_nil y a)
          have hlast : (y :: a).getLast? = some ((y :: a).getLast (List.cons_ne_nil y a)) := List.getLast?_eq_some_getLast _
          rw [hlast] at he
          have hin := List.getLast_mem (List.cons_ne_nil y a)
          have heq : (y :: a).getLast (List.cons_ne_nil y a) = z := Option.some.inj he
          rw [heq] at hin
          exact hza (List.mem_append_left _ hin)
      rw [hnext z hmem]
      by_cases ha : a = []
      · rw [if_pos ha] at hih
        rw [if_pos (hfront.mpr ha)]
        exact hih
      · rw [if_neg ha] at hih
        rw [if_neg (fun he => ha (hfront.mp he))]
        exact hih

/-- A node is taken out of a list by its neighbours' links alone. -/
theorem IsList.remove {a b : List P} (h : IsList next prev head (a ++ x :: b))
    (hnext : ∀ y ∈ a ++ b, next' y = if prev x = some y then next x else next y)
    (hprev : ∀ y ∈ a ++ b, prev' y = if next x = some y then prev x else prev y) :
    IsList next' prev' (if prev x = none then next x else head) (a ++ b) := by
  refine ⟨?_, h.nodup.sublist ((List.Sublist.refl a).append (List.sublist_cons_self x b))⟩
  have hfirst : prev x = none ↔ a = [] := by
    rw [h.links.prev_eq, Option.or_none, List.getLast?_eq_none_iff]
  have hrest := h.links.remove h.nodup (fun _ _ he => by cases he) hnext hprev
  by_cases ha : a = []
  · rw [if_pos ha] at hrest
    rw [if_pos (hfirst.mpr ha)]
    exact hrest
  · rw [if_neg ha] at hrest
    rw [if_neg (fun he => ha (hfirst.mp he))]
    exact hrest

end

/-- The neighbours of a node are in the list. -/
theorem IsList.mem_of_next (h : IsList next prev head l) (hx : x ∈ l) {y : P} (hy : next x = some y) : y ∈ l := by
  obtain ⟨a, b, rfl⟩ := List.append_of_mem hx
  rw [h.links.next_eq] at hy
  exact List.mem_append_right a (List.mem_cons_of_mem x (List.mem_of_mem_head? hy))

/-- A node's predecessor is in the list. -/
theorem IsList.mem_of_prev (h : IsList next prev head l) (hx : x ∈ l) {y : P} (hy : prev x = some y) : y ∈ l := by
  obtain ⟨a, b, rfl⟩ := List.append_of_mem hx
  rw [h.links.prev_eq, Option.or_none] at hy
  exact List.mem_append_left _ (List.mem_of_getLast? hy)

/-- The two links are inverse to each other. -/
theorem IsList.next_iff_prev (h : IsList next prev head l) {y : P} (hx : x ∈ l) (hy : y ∈ l) :
    next x = some y ↔ prev y = some x := by
  constructor
  · intro hn
    obtain ⟨a, b, rfl⟩ := List.append_of_mem hx
    have hb := h.links.next_eq
    rw [hn] at hb
    obtain ⟨b', rfl⟩ : ∃ b', b = y :: b' := by
      cases b with
      | nil => cases hb
      | cons z b' => exact ⟨b', by rw [Option.some.inj hb]⟩
    have hlinks := h.links
    rw [show a ++ x :: y :: b' = (a ++ [x]) ++ y :: b' by simp] at hlinks
    rw [hlinks.prev_eq]
    simp
  · intro hp
    obtain ⟨a, b, rfl⟩ := List.append_of_mem hy
    have ha := h.links.prev_eq
    rw [hp, Option.or_none] at ha
    obtain ⟨a', rfl⟩ : ∃ a', a = a' ++ [x] := by
      rcases List.eq_nil_or_concat' a with rfl | ⟨a', z, rfl⟩
      · cases ha
      · rw [List.getLast?_concat] at ha
        exact ⟨a', by rw [Option.some.inj ha]⟩
    have hlinks := h.links
    rw [List.append_assoc, List.singleton_append] at hlinks
    rw [hlinks.next_eq]
    rfl

/-! ## Going over the nodes -/

/-- Do something at each node from `p` on; none where the nodes are more than the fuel. -/
def iterate {σ : Type} (next : P → Option P) (body : P → σ → σ) : Nat → Option P → σ → Option σ
  | _, none, s => some s
  | 0, some _, _ => none
  | fuel + 1, some x, s => iterate next body fuel (next x) (body x s)

/-- Every node is visited once, in the order of the list, and the walk ends. -/
theorem Links.iterate_eq {σ : Type} (h : Links next prev q p l) (body : P → σ → σ) {fuel : Nat} (hfuel : l.length ≤ fuel)
    (s : σ) : iterate next body fuel p s = some (l.foldl (fun s x => body x s) s) := by
  induction l generalizing q p fuel s with
  | nil =>
    rw [show p = none from h]
    cases fuel <;> rfl
  | cons x xs ih =>
    obtain ⟨hp, -, hrest⟩ := h
    cases fuel with
    | zero => cases hfuel
    | succ fuel =>
      rw [hp, iterate]
      exact ih hrest (Nat.le_of_succ_le_succ hfuel) (body x s)

end DoublyLinked
