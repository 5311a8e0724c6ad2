import Mathlib.Data.List.Nodup

/-!
# Sources: one list fed by several sources

Items come from sources; each source numbers its items, and may mark one as joined to the next it makes. A list in which the items of
each source stand in their order (`InOrder`) has no item twice. In a list without a gap (`Joined`) each joined item is followed by
the next one of its source, unless that one is gone; such lists are put together from lists of the same kind.
-/

namespace Sources

variable {α S : Type} [DecidableEq S] (src : α → S) (seq : α → Nat)

/-- The items of one source. -/
def ofSource (w : S) (l : List α) : List α := l.filter (fun a => src a = w)

/-- The items of each source are numbered upwards. -/
def InOrder (l : List α) : Prop := ∀ w, ((ofSource src w l).map seq).Pairwise (· < ·)

section

variable {src seq} {w : S} {l l' : List α}

@[simp] theorem ofSource_append : ofSource src w (l ++ l') = ofSource src w l ++ ofSource src w l' := List.filter_append ..

/-- The elements of a source in a front are a front of its elements. -/
theorem ofSource_first (w : S) (l l' : List α) : ofSource src w l <+: ofSource src w (l ++ l') := by
  rw [ofSource_append]
  exact List.prefix_append _ _

/-- The elements of a source are those that have it. -/
theorem mem_ofSource {a : α} : a ∈ ofSource src w l ↔ a ∈ l ∧ src a = w := by simp [ofSource]

/-- A source's own list is all its own. -/
theorem ofSource_self (h : ∀ a ∈ l, src a = w) : ofSource src w l = l := by
  simpa [ofSource, List.filter_eq_self] using h

/-- A list of other sources' elements has none of this one. -/
theorem ofSource_other {v : S} (h : ∀ a ∈ l, src a = v) (hne : v ≠ w) : ofSource src w l = [] := by
  rw [ofSource, List.filter_eq_nil_iff]
  intro a ha
  simp [h a ha, hne]

/-- Items in order are all different. -/
theorem InOrder.nodup (h : InOrder src seq l) : (l.map (fun a => (src a, seq a))).Nodup := by
  induction l with
  | nil => exact List.nodup_nil
  | cons a l ih =>
    rw [List.map_cons, List.nodup_cons]
    refine ⟨fun hin => ?_, ih (fun w => ?_)⟩
    · obtain ⟨b, hb, heq⟩ := List.mem_map.mp hin
      obtain ⟨hsrc, hseq⟩ := Prod.ext_iff.mp heq
      have hord := h (src a)
      have hcons : ofSource src (src a) (a :: l) = a :: ofSource src (src a) l := List.filter_cons_of_pos (by simp)
      rw [hcons, List.map_cons, List.pairwise_cons] at hord
      have hlt := hord.1 (seq b) (List.mem_map_of_mem (mem_ofSource.mpr ⟨hb, hsrc⟩))
      rw [show seq b = seq a from hseq] at hlt
      exact Nat.lt_irrefl _ hlt
    · have hord := h w
      have hsub : (ofSource src w l).Sublist (ofSource src w (a :: l)) := (List.sublist_cons_self a l).filter _
      exact hord.sublist (hsub.map _)

end

/-! ## Joined items -/

variable (joined : α → Bool) (gone : List (S × Nat))

/-- An item is the next of another. -/
def Next (a b : α) : Prop := src b = src a ∧ seq b = seq a + 1

/-- Each joined item is followed by its next one, unless that is gone. -/
def Joined : List α → Prop
  | [] => True
  | a :: l => (joined a = true → (∃ b l', l = b :: l' ∧ Next src seq a b) ∨ (src a, seq a + 1) ∈ gone) ∧ Joined l

variable {src seq joined gone} {l l' : List α}

omit [DecidableEq S] in
/-- Two joined lists, one behind the other. -/
theorem Joined.append (h : Joined src seq joined gone l) (h' : Joined src seq joined gone l') :
    Joined src seq joined gone (l ++ l') := by
  induction l with
  | nil => exact h'
  | cons a l ih =>
    refine ⟨fun hj => ?_, ih h.2⟩
    rcases h.1 hj with ⟨b, rest, rfl, hnext⟩ | hgone
    · exact Or.inl ⟨b, rest ++ l', rfl, hnext⟩
    · exact Or.inr hgone

omit [DecidableEq S] in
/-- More that is gone breaks no join. -/
theorem Joined.mono {gone' : List (S × Nat)} (h : Joined src seq joined gone l) (hsub : ∀ x ∈ gone, x ∈ gone') :
    Joined src seq joined gone' l := by
  induction l with
  | nil => trivial
  | cons a l ih =>
    refine ⟨fun hj => ?_, ih h.2⟩
    rcases h.1 hj with hnext | hgone
    · exact Or.inl hnext
    · exact Or.inr (hsub _ hgone)

omit [DecidableEq S] in
/-- The front of a list, where what is cut off behind it is gone. -/
theorem Joined.of_append (h : Joined src seq joined gone (l ++ l')) (hgone : ∀ b ∈ l'.head?, (src b, seq b) ∈ gone) :
    Joined src seq joined gone l := by
  induction l with
  | nil => trivial
  | cons a l ih =>
    refine ⟨fun hj => ?_, ih h.2⟩
    rcases h.1 hj with ⟨b, rest, hrest, hnext⟩ | hg
    · cases l with
      | nil =>
        have hb := hgone b (by rw [show l' = b :: rest from hrest]; rfl)
        rw [hnext.1, hnext.2] at hb
        exact Or.inr hb
      | cons c l => exact Or.inl ⟨c, l, rfl, by cases hrest; exact hnext⟩
    · exact Or.inr hg

omit [DecidableEq S] in
/-- The last item of a list, drawn out into a list that begins in its place. -/
theorem Joined.draw_out {a : α} (h : Joined src seq joined gone (l ++ [a])) (h' : Joined src seq joined gone l')
    (hhead : ∃ b rest, l' = b :: rest ∧ src b = src a ∧ seq b = seq a) : Joined src seq joined gone (l ++ l') := by
  induction l with
  | nil => exact h'
  | cons c l ih =>
    refine ⟨fun hj => ?_, ih h.2⟩
    rcases h.1 hj with ⟨d, rest, hrest, hnext⟩ | hgone
    · cases l with
      | nil =>
        obtain ⟨b, rest', rfl, hsrc, hseq⟩ := hhead
        cases hrest
        exact Or.inl ⟨b, rest', rfl, hsrc.trans hnext.1, hseq.trans hnext.2⟩
      | cons e l => exact Or.inl ⟨e, l ++ l', rfl, by cases hrest; exact hnext⟩
    · exact Or.inr hgone

omit [DecidableEq S] in
/-- What follows a joined item. -/
theorem Joined.next (h : Joined src seq joined gone l) {pre post : List α} {a : α} (hl : l = pre ++ a :: post)
    (hj : joined a = true) : (∃ b post', post = b :: post' ∧ Next src seq a b) ∨ (src a, seq a + 1) ∈ gone := by
  induction pre generalizing l with
  | nil =>
    subst hl
    exact h.1 hj
  | cons c pre ih =>
    subst hl
    exact ih h.2 rfl

end Sources
