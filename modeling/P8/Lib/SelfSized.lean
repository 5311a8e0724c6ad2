/-!
# Self-sized items: a stream cut by the sizes its items begin with

A stream of items one after the other, each of which says its own length near its front. `cut` walks over the stream by these
lengths. It gives back the items of any stream made of items that say their length, whatever they contain. `walk` is the reader
that stops where no whole item is left: it gives back the items of such a stream also where the last one is torn.
-/

namespace SelfSized

variable {α : Type} (size : List α → Nat) (minSize : Nat)

/-- Cut a stream into items: at its front, `size` says how long the first one is. It fails at an item that is shorter than
`minSize` or longer than what is left. An item takes at least one symbol, so as many rounds as there are symbols are enough. -/
def cut : Nat → List α → Option (List (List α))
  | 0, s => if s.isEmpty then some [] else none
  | fuel + 1, s =>
    if s.isEmpty then some []
    else if size s < minSize ∨ s.length < size s then none
    else (cut fuel (s.drop (size s))).map (s.take (size s) :: ·)

/-- An item that says its length, whatever follows it. -/
structure Says (item : List α) : Prop where
  min_le : minSize ≤ item.length
  size_eq : ∀ rest, size (item ++ rest) = item.length

variable {size minSize}

/-- Items that say their sizes are cut again. -/
theorem cut_flatten {items : List (List α)} (hmin : 0 < minSize) (h : ∀ it ∈ items, Says size minSize it) {fuel : Nat}
    (hfuel : items.flatten.length ≤ fuel) : cut size minSize fuel items.flatten = some items := by
  induction items generalizing fuel with
  | nil => cases fuel <;> rfl
  | cons it items ih =>
    obtain ⟨hlen, hsize⟩ := h it List.mem_cons_self
    rw [List.flatten_cons, List.length_append] at hfuel
    obtain ⟨fuel, rfl⟩ : ∃ k, fuel = k + 1 := ⟨fuel - 1, by omega⟩
    have hne : (it ++ items.flatten).isEmpty = false := by
      rw [List.isEmpty_eq_false_iff]
      refine List.ne_nil_of_length_pos ?_
      rw [List.length_append]
      omega
    have hlast : items.flatten.length ≤ fuel := by omega
    have hrest := ih (fun x hx => h x (List.mem_cons_of_mem it hx)) hlast
    rw [List.flatten_cons, cut, hsize, hne, if_neg (by decide), if_neg (by rw [List.length_append]; omega), List.drop_left,
      List.take_left, hrest]
    rfl

variable (size minSize) in
/-- The items at the front of a stream, up to one that is not there as a whole. -/
def walk : Nat → List α → List (List α)
  | 0, _ => []
  | fuel + 1, s =>
    if s.length < minSize ∨ size s < minSize ∨ s.length < size s then []
    else s.take (size s) :: walk fuel (s.drop (size s))

/-- A stream that goes on begins with the same items. -/
theorem first_of_flatten {xs ys : List (List α)} (hmin : 0 < minSize) (hxs : ∀ it ∈ xs, Says size minSize it)
    (hys : ∀ it ∈ ys, Says size minSize it) (h : xs.flatten <+: ys.flatten) : xs <+: ys := by
  induction xs generalizing ys with
  | nil => exact List.nil_prefix
  | cons x xs ih =>
    obtain ⟨rest, hrest⟩ := h
    rw [List.flatten_cons, List.append_assoc] at hrest
    have hx := hxs x List.mem_cons_self
    cases ys with
    | nil =>
      have hlen := congrArg List.length hrest
      have hle := hx.min_le
      simp only [List.length_append, List.flatten_nil, List.length_nil] at hlen
      omega
    | cons y ys =>
      have hlen : x.length = y.length := by
        rw [← hx.size_eq (xs.flatten ++ rest), hrest, List.flatten_cons, (hys y List.mem_cons_self).size_eq]
      rw [List.flatten_cons] at hrest
      obtain ⟨rfl, hmore⟩ := List.append_inj hrest hlen
      rw [List.cons_prefix_cons]
      exact ⟨rfl, ih (fun it hit => hxs it (List.mem_cons_of_mem x hit)) (fun it hit => hys it (List.mem_cons_of_mem x hit))
        ⟨rest, hmore⟩⟩

/-- Nothing is read from what stops the walk, and everything before it is. -/
theorem walk_flatten_append {items : List (List α)} (hmin : 0 < minSize) (h : ∀ it ∈ items, Says size minSize it)
    {tail : List α} (htail : tail.length < minSize ∨ tail.length < size tail) {fuel : Nat}
    (hfuel : (items.flatten ++ tail).length ≤ fuel) : walk size minSize fuel (items.flatten ++ tail) = items := by
  induction items generalizing fuel with
  | nil =>
    cases fuel with
    | zero => rfl
    | succ fuel =>
      rw [List.flatten_nil, List.nil_append, walk, if_pos]
      rcases htail with hshort | hshort
      · exact Or.inl hshort
      · exact Or.inr (Or.inr hshort)
  | cons it items ih =>
    obtain ⟨hlen, hsize⟩ := h it List.mem_cons_self
    rw [List.flatten_cons, List.append_assoc, List.length_append] at hfuel
    obtain ⟨fuel, rfl⟩ : ∃ k, fuel = k + 1 := ⟨fuel - 1, by omega⟩
    have hrest := ih (fun x hx => h x (List.mem_cons_of_mem it hx)) (by omega : (items.flatten ++ tail).length ≤ fuel)
    have hstop : ¬ ((it ++ (items.flatten ++ tail)).length < minSize ∨ it.length < minSize ∨
        (it ++ (items.flatten ++ tail)).length < it.length) := by
      rw [List.length_append]
      omega
    rw [List.flatten_cons, List.append_assoc, walk, hsize, if_neg hstop, List.take_left, List.drop_left, hrest]

/-- A torn item stops the walk, where sizes are told by the front of an item. -/
theorem Says.torn {item tail : List α} (h : Says size minSize item) (hpre : tail <+: item) (hne : tail ≠ item)
    (hlocal : ∀ s rest, minSize ≤ s.length → size (s ++ rest) = size s) :
    tail.length < minSize ∨ tail.length < size tail := by
  obtain ⟨rest, rfl⟩ := hpre
  by_cases hlen : tail.length < minSize
  · exact Or.inl hlen
  · have hsize : size tail = (tail ++ rest).length := by
      rw [← hlocal tail rest (by omega), ← h.size_eq [], List.append_nil]
    have hpos : 0 < rest.length := by
      refine List.length_pos_iff.mpr fun hnil => hne ?_
      rw [hnil, List.append_nil]
    rw [List.length_append] at hsize
    exact Or.inr (by omega)

end SelfSized
