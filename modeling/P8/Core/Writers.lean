import P8.Lib.DoublyLinked
import P8.Core.DropStats

/-!
# Writers: the registry of a core's writers

The writers of a core are linked to each other, the last registered first. Elsewhere the registry is a list of writers, to which
`register_writer` adds at the front and from which `unregister_writer` erases (`registry`); here are the links, and that they are
that list. Each function runs under `mo_writers_lock` and is one step.
-/

namespace P8

/-- A call of `register_writer` or `unregister_writer`. -/
inductive WriterEv (W : Type) where
  | register (w : W)
  | unregister (w : W)

/-- `mp_writers_head`, the links of the writers and `mz_writers_count`. -/
structure Writers (W : Type) where
  head : Option W
  next : W → Option W
  prev : W → Option W
  count : Nat

namespace Writers

variable {W : Type} [DecidableEq W]

/-- A registry without writers. A writer is constructed with null links. -/
def init : Writers W := ⟨none, fun _ => none, fun _ => none, 0⟩

/-- `cp8_core::register_writer`. -/
def registerWriter (s : Writers W) (w : W) : Writers W :=
  let s := { s with prev := Function.update s.prev w none }
  let s := { s with next := Function.update s.next w s.head }
  let s := match s.head with
    | some h => { s with prev := Function.update s.prev h (some w) }
    | none => s
  { s with head := some w, count := s.count + 1 }

/-- `cp8_core::unregister_writer`. -/
def unregisterWriter (s : Writers W) (w : W) : Writers W :=
  let s := match s.prev w with
    | some p => { s with next := Function.update s.next p (s.next w) }
    | none => { s with head := s.next w }
  let s := match s.next w with
    | some n => { s with prev := Function.update s.prev n (s.prev w) }
    | none => s
  { s with
    next := Function.update s.next w none
    prev := Function.update s.prev w none
    count := s.count - 1 }

def step (s : Writers W) : WriterEv W → Writers W
  | .register w => s.registerWriter w
  | .unregister w => s.unregisterWriter w

/-- A run of calls. -/
def run (evs : List (WriterEv W)) : Writers W := evs.foldl step init

/-- The registry as a list. A writer is registered only when it is not, and unregistered only when it is. -/
def registry (l : List W) : WriterEv W → Except Halt (List W)
  | .register w => when (w ∉ l) <| .ok (w :: l)
  | .unregister w => when (w ∈ l) <| .ok (l.erase w)

omit [DecidableEq W] in
/-- `cp8_core::drain_writers`; `held w` are the buffers that `pull` takes from a writer. The writers are locked and at most
`fuel`. -/
def drainWriters {B : Type} (s : Writers W) (held : W → List B) (fuel : Nat) (data : List B) : Option (List B) :=
  DoublyLinked.iterate s.next (fun w data => data ++ held w) fuel s.head data

omit [DecidableEq W] in
/-- The loop of `cp8_core::poll_dropped_stats`; `dropped w` is what `pull_dropped` takes from a writer. -/
def pollDroppedStats (s : Writers W) (dropped : W → DropKind → Nat) (fuel : Nat) : Option (DropKind → Nat) :=
  DoublyLinked.iterate s.next (fun w sum k => sum k + dropped w k) fuel s.head (fun _ => 0)

/-- The links are those of a list, and who is not in it has none. -/
structure Inv (s : Writers W) (l : List W) : Prop where
  list : DoublyLinked.IsList s.next s.prev s.head l
  count : s.count = l.length
  outside : ∀ w, w ∉ l → s.next w = none ∧ s.prev w = none

omit [DecidableEq W] in
theorem inv_init : (init : Writers W).Inv [] :=
  ⟨DoublyLinked.isList_nil _ _, rfl, fun _ _ => ⟨rfl, rfl⟩⟩

variable {s : Writers W} {l : List W} {w : W}

/-- A writer registers: it is the first one. -/
theorem Inv.register (h : s.Inv l) (hw : w ∉ l) : (s.registerWriter w).Inv (w :: l) := by
  have hhead : ∀ y, s.head = some y → y ∈ l := fun y hy => List.mem_of_mem_head? (h.list.links.head_eq ▸ hy)
  have hnext : (s.registerWriter w).next = Function.update s.next w s.head := by
    simp only [registerWriter]
    split <;> rfl
  have hprev : ∀ y, (s.registerWriter w).prev y =
      if s.head = some y then some w else if y = w then none else s.prev y := by
    intro y
    simp only [registerWriter]
    split
    · rename_i x hx
      simp only [hx, Option.some.injEq, Function.update_apply, eq_comm]
    · rename_i hx
      simp [hx, Function.update_apply]
  have hcount : (s.registerWriter w).count = s.count + 1 := by
    simp only [registerWriter]
    split <;> rfl
  have hne : ∀ y ∈ l, y ≠ w := fun y hy he => hw (he ▸ hy)
  refine ⟨?_, ?_, fun y hy => ?_⟩
  · refine h.list.cons hw ?_ ?_ ?_ ?_ ?_
    · rw [hnext, Function.update_self]
    · rw [hprev, if_neg (fun he => hw (hhead w he)), if_pos rfl]
    · intro y hy
      rw [hprev, if_pos hy]
    · intro y hy
      rw [hnext, Function.update_of_ne (hne y hy)]
    · intro y hy hback
      rw [hprev, if_neg hback, if_neg (hne y hy)]
  · rw [hcount, h.count, List.length_cons]
  · rw [List.mem_cons, not_or] at hy
    obtain ⟨hyw, hyl⟩ := hy
    rw [hnext, Function.update_of_ne hyw, hprev, if_neg (fun he => hyl (hhead y he)), if_neg hyw]
    exact h.outside y hyl

/-- A writer leaves: its neighbours are linked to each other. -/
theorem Inv.unregister (h : s.Inv l) (hw : w ∈ l) : (s.unregisterWriter w).Inv (l.erase w) := by
  obtain ⟨a, b, rfl⟩ := List.append_of_mem hw
  have hmid := List.nodup_middle.mp h.list.nodup
  obtain ⟨hwab, -⟩ := List.nodup_cons.mp hmid
  have hprevw := h.list.links.prev_eq
  have hnextw := h.list.links.next_eq
  rw [Option.or_none] at hprevw
  have hp : ∀ y, s.prev w = some y → y ∈ a := fun y hy => List.mem_of_getLast? (hprevw ▸ hy)
  have hn : ∀ y, s.next w = some y → y ∈ b := fun y hy => List.mem_of_mem_head? (hnextw ▸ hy)
  have hpw : s.prev w ≠ some w := fun he => hwab (List.mem_append_left b (hp w he))
  have hnw : s.next w ≠ some w := fun he => hwab (List.mem_append_right a (hn w he))
  -- the first branch leaves the writer's own links alone
  have hnext : ∀ y, (s.unregisterWriter w).next y =
      if y = w then none else if s.prev w = some y then s.next w else s.next y := by
    intro y
    simp only [unregisterWriter]
    cases hpc : s.prev w <;> split <;> simp [Function.update_apply, eq_comm]
  have hprev : ∀ y, (s.unregisterWriter w).prev y =
      if y = w then none else if s.next w = some y then s.prev w else s.prev y := by
    intro y
    simp only [unregisterWriter]
    cases hpc : s.prev w with
    | none =>
      cases s.next w <;> simp [Function.update_apply, eq_comm, hpc]
    | some x =>
      have hxw : w ≠ x := fun he => hpw (hpc.trans (congrArg some he.symm))
      cases hnc : s.next w <;> simp [hnc, Function.update_apply, eq_comm, hpc, hxw]
  have hhead : (s.unregisterWriter w).head = if s.prev w = none then s.next w else s.head := by
    simp only [unregisterWriter]
    cases hpc : s.prev w <;> split <;> simp
  have hcount : (s.unregisterWriter w).count = s.count - 1 := by
    simp only [unregisterWriter]
    cases hpc : s.prev w <;> split <;> rfl
  have herase : (a ++ w :: b).erase w = a ++ b := by
    rw [List.erase_append_right _ (fun ha => hwab (List.mem_append_left b ha)), List.erase_cons_head]
  have hne : ∀ y ∈ a ++ b, y ≠ w := fun y hy he => hwab (he ▸ hy)
  rw [herase]
  refine ⟨?_, ?_, fun y hy => ?_⟩
  · rw [hhead]
    refine h.list.remove (fun y hy => ?_) (fun y hy => ?_)
    · rw [hnext, if_neg (hne y hy)]
    · rw [hprev, if_neg (hne y hy)]
  · rw [hcount, h.count, List.length_append, List.length_append, List.length_cons]
    omega
  · rw [hnext, hprev]
    by_cases hyw : y = w
    · rw [if_pos hyw, if_pos hyw]
      exact ⟨rfl, rfl⟩
    · rw [if_neg hyw, if_neg hyw, if_neg (fun he => hy (List.mem_append_left b (hp y he))),
        if_neg (fun he => hy (List.mem_append_right a (hn y he)))]
      refine h.outside y (fun hmem => hy ?_)
      rcases List.mem_append.mp hmem with ha | hb
      · exact List.mem_append_left b ha
      · exact List.mem_append_right a (List.mem_of_ne_of_mem hyw hb)

/-- One call keeps the invariant, with the list as it becomes. -/
theorem Inv.step (h : s.Inv l) {ev : WriterEv W} {l' : List W} (hl : registry l ev = .ok l') : (s.step ev).Inv l' := by
  cases ev with
  | register w =>
    obtain ⟨hw, hl⟩ := when_eq_ok.mp hl
    cases hl
    exact h.register hw
  | unregister w =>
    obtain ⟨hw, hl⟩ := when_eq_ok.mp hl
    cases hl
    exact h.unregister hw

/-- The invariant along a run. -/
theorem Inv.run (h : s.Inv l) {evs : List (WriterEv W)} {l' : List W} (hl : Runs.run registry l evs = .ok l') :
    (evs.foldl Writers.step s).Inv l' := by
  induction evs generalizing s l with
  | nil =>
    cases hl
    exact h
  | cons ev evs ih =>
    obtain ⟨l₁, hl₁, hl⟩ := Runs.run_cons hl
    exact ih (h.step hl₁) hl

/-! ## The registry is intact -/

/-- The links are those of the writers of `l`, the last registered first, and a walk over them does something at each of these,
once, in that order, and ends. -/
structure Intact (s : Writers W) (l : List W) : Prop where
  nodup : l.Nodup
  walk : ∀ fuel, l.length ≤ fuel →
    DoublyLinked.iterate s.next (fun w visited => visited ++ [w]) fuel s.head [] = some l
  first : ∀ w, s.head = some w → s.prev w = none
  inverse : ∀ u ∈ l, ∀ w ∈ l, s.next u = some w ↔ s.prev w = some u
  count : s.count = l.length
  unlinked : ∀ w, w ∉ l → s.next w = none ∧ s.prev w = none
  unreferenced : ∀ w, w ∉ l → s.head ≠ some w ∧ ∀ u ∈ l, s.next u ≠ some w ∧ s.prev u ≠ some w
  drain : ∀ {B : Type} (held : W → List B) (data : List B) (fuel : Nat), l.length ≤ fuel →
    s.drainWriters held fuel data = some (data ++ l.flatMap held)
  poll : ∀ (dropped : W → DropKind → Nat) (fuel : Nat), l.length ≤ fuel →
    s.pollDroppedStats dropped fuel = some (fun k => (l.map (fun w => dropped w k)).sum)

omit [DecidableEq W] in
/-- The invariant gives an intact list. -/
theorem Inv.intact (h : s.Inv l) : s.Intact l where
  nodup := h.list.nodup
  walk := fun fuel hfuel => by
    rw [h.list.links.iterate_eq _ hfuel, List.foldl_append_eq_append, ← List.flatMap_def, List.flatMap_singleton']
    rfl
  first := fun w hw => by
    cases l with
    | nil =>
      rw [show s.head = none from h.list.links] at hw
      cases hw
    | cons x xs =>
      obtain ⟨hx, hprev, -⟩ := h.list.links
      rw [hx] at hw
      rw [← Option.some.inj hw]
      exact hprev
  inverse := fun u hu w hw => h.list.next_iff_prev hu hw
  count := h.count
  unlinked := h.outside
  unreferenced := fun w hw =>
    ⟨fun he => hw (List.mem_of_mem_head? (h.list.links.head_eq ▸ he)),
      fun u hu => ⟨fun he => hw (h.list.mem_of_next hu he), fun he => hw (h.list.mem_of_prev hu he)⟩⟩
  drain := fun held data fuel hfuel => by
    rw [drainWriters, h.list.links.iterate_eq _ hfuel, List.foldl_append_eq_append, ← List.flatMap_def]
  poll := fun dropped fuel hfuel => by
    rw [pollDroppedStats, h.list.links.iterate_eq _ hfuel, Option.some.injEq]
    funext k
    have hsum : ∀ (xs : List W) (sum : DropKind → Nat),
        xs.foldl (fun sum w k => sum k + dropped w k) sum k = sum k + (xs.map (fun w => dropped w k)).sum := by
      intro xs
      induction xs with
      | nil => exact fun sum => rfl
      | cons x xs ih =>
        intro sum
        rw [List.foldl_cons, ih, List.map_cons, List.sum_cons, Nat.add_assoc]
    rw [hsum, Nat.zero_add]

/-- However often writers are registered, each while it is not, and unregistered, each while it is, the links are those of the
registered ones. -/
theorem writers_intact (evs : List (WriterEv W)) {l : List W} (hl : Runs.run registry [] evs = .ok l) :
    (run evs : Writers W).Intact l :=
  (inv_init.run hl).intact

/-- Of four writers the one in the middle, the first, the last and the only one are unregistered, and one comes back. -/
def churn : List (WriterEv Nat) :=
  [.register 1, .register 2, .register 3, .register 4, .unregister 2, .unregister 4, .unregister 1, .unregister 3,
    .register 2, .register 3]

/-- A run of writers that come and go. -/
theorem writers_intact_churn : Runs.run registry [] churn = .ok [3, 2] ∧ (run churn : Writers Nat).Intact [3, 2] :=
  ⟨rfl, writers_intact churn rfl⟩

end Writers

end P8
