import Mathlib.Algebra.Ring.Nat
import Mathlib.Algebra.BigOperators.Group.List.Basic
import P8.Steps

/-!
# DropStats: the loss statistics of a core

Each writer counts what its thread drops, and the counts reach the core on two ways: the worker's `poll_dropped_stats` reads and
resets the counters of all registered writers, and a writer's destructor reads and resets its own. Both add what they have
got to the core's totals later, in steps of their own. The steps of the machine are the atomic operations; the registry lock is
held while a poll reads. The counters are `uint64_t`, which one drop at a time does not overflow, and natural numbers here.

What has been got and not been added yet is in `polled` and `taken`; `drops` is the history.
-/

namespace P8

/-- What is counted: `mu_dropped_logs`, `mu_dropped_metrics`, `mu_dropped_traces`. -/
inductive DropKind where
  | logs | metrics | traces
  deriving DecidableEq, Repr

namespace DropKind

/-- The kinds in the order in which `pull_dropped` reads them and `accumulate_dropped` adds them. -/
def all : List DropKind := [logs, metrics, traces]

@[simp] theorem mem_all (k : DropKind) : k ∈ all := by cases k <;> decide

end DropKind

/-- How far `poll_dropped_stats` has come: under the registry lock, with the counters still to read; or behind it, with the
totals still to add to. -/
inductive PollPc (W : Type) where
  | idle
  | pulling (todo : List (W × DropKind))
  | adding (todo : List DropKind)

/-- How far a writer is: not constructed, or in use; or in its destructor, with the counters still to read, with the totals still
to add to, or about to leave the registry. -/
inductive WriterPc where
  | absent
  | alive
  | pulling (todo : List DropKind)
  | adding (todo : List DropKind)
  | leaving

/-- A core's totals, its registered writers and their counters, and how far the threads are that move the counts. -/
structure DropSys (W : Type) where
  total : DropKind → Nat
  writers : List W
  counter : W → DropKind → Nat
  poll : PollPc W
  polled : DropKind → Nat
  pc : W → WriterPc
  taken : W → DropKind → Nat
  drops : DropKind → Nat

/-- The steps: a writer is constructed, its thread drops something, the worker's poll begins and goes on, a writer's destructor
begins and goes on. -/
inductive DropEv (W : Type) where
  | construct (w : W)
  | drop (w : W) (k : DropKind)
  | pollBegin
  | pollStep
  | destroy (w : W)
  | destroyStep (w : W)

namespace DropSys

variable {W : Type}

/-- A core without writers. -/
def init : DropSys W :=
  { total := fun _ => 0
    writers := []
    counter := fun _ _ => 0
    poll := .idle
    polled := fun _ => 0
    pc := fun _ => .absent
    taken := fun _ _ => 0
    drops := fun _ => 0 }

/-- Nobody holds `mo_writers_lock` across steps. -/
def Unlocked (s : DropSys W) : Prop :=
  match s.poll with
  | .pulling _ => False
  | _ => True

instance (s : DropSys W) : Decidable s.Unlocked := by
  unfold Unlocked
  split <;> infer_instance

section

variable [DecidableEq W]

/-- A counter of one writer is set. -/
def put (f : W → DropKind → Nat) (w : W) (k : DropKind) (n : Nat) : W → DropKind → Nat :=
  fun u j => if u = w ∧ j = k then n else f u j

/-- A count is added to those of its kind. -/
def bump (f : DropKind → Nat) (k : DropKind) (n : Nat) : DropKind → Nat := fun j => if j = k then f j + n else f j

/-- A count of one kind is reset. -/
def clear (f : DropKind → Nat) (k : DropKind) : DropKind → Nat := fun j => if j = k then 0 else f j

/-- One step. -/
def step (s : DropSys W) : DropEv W → Except Halt (DropSys W)
  | .construct w =>
    match s.pc w with
    | .absent => when s.Unlocked <| .ok
        { s with
          writers := w :: s.writers
          counter := Function.update s.counter w (fun _ => 0)
          pc := Function.update s.pc w .alive }
    | _ => .error .disabled
  | .drop w k =>
    match s.pc w with
    | .alive => .ok { s with counter := put s.counter w k (s.counter w k + 1), drops := bump s.drops k 1 }
    | _ => .error .disabled
  | .pollBegin =>
    match s.poll with
    | .idle => .ok { s with poll := .pulling (s.writers.flatMap (fun w => DropKind.all.map (fun k => (w, k)))) }
    | _ => .error .disabled
  | .pollStep =>
    match s.poll with
    | .idle => .error .disabled
    | .pulling [] => .ok { s with poll := .adding DropKind.all }
    | .pulling ((w, k) :: todo) => .ok
        { s with
          poll := .pulling todo
          polled := bump s.polled k (s.counter w k)
          counter := put s.counter w k 0 }
    | .adding [] => .ok { s with poll := .idle }
    | .adding (k :: todo) => .ok
        { s with
          poll := .adding todo
          total := bump s.total k (s.polled k)
          polled := clear s.polled k }
  | .destroy w =>
    match s.pc w with
    | .alive => .ok { s with pc := Function.update s.pc w (.pulling DropKind.all) }
    | _ => .error .disabled
  | .destroyStep w =>
    match s.pc w with
    | .absent | .alive => .error .disabled
    | .pulling [] => .ok { s with pc := Function.update s.pc w (.adding DropKind.all) }
    | .pulling (k :: todo) => .ok
        { s with
          pc := Function.update s.pc w (.pulling todo)
          taken := put s.taken w k (s.counter w k)
          counter := put s.counter w k 0 }
    | .adding [] => .ok { s with pc := Function.update s.pc w .leaving }
    | .adding (k :: todo) => .ok
        { s with
          pc := Function.update s.pc w (.adding todo)
          total := bump s.total k (s.taken w k)
          taken := put s.taken w k 0 }
    | .leaving => when s.Unlocked <| .ok
        { s with writers := s.writers.erase w, pc := Function.update s.pc w .absent }

/-- A run of steps. -/
def run (s : DropSys W) (evs : List (DropEv W)) : Except Halt (DropSys W) := Runs.run step s evs

/-! ## What is conserved -/

/-- What is known of a writer's counters and of what its destructor has got, by how far it is. -/
def WriterOk (counter taken : DropKind → Nat) : WriterPc → Prop
  | .absent | .alive => ∀ k, taken k = 0
  | .pulling todo => todo.Nodup ∧ (∀ k ∈ todo, taken k = 0) ∧ ∀ k, k ∉ todo → counter k = 0
  | .adding todo => (∀ k, counter k = 0) ∧ ∀ k, k ∉ todo → taken k = 0
  | .leaving => ∀ k, counter k = 0 ∧ taken k = 0

/-- What is known of what a poll has got. -/
def PollOk (writers : List W) (polled : DropKind → Nat) : PollPc W → Prop
  | .idle => ∀ k, polled k = 0
  | .pulling todo => ∀ x ∈ todo, x.1 ∈ writers
  | .adding todo => ∀ k, k ∉ todo → polled k = 0

/-- The counts of a kind that are with the writers. -/
def withWriters (s : DropSys W) (k : DropKind) : Nat := (s.writers.map (fun w => s.counter w k + s.taken w k)).sum

/-- The invariant: every drop is in the totals, in what a poll or a destructor has got, or in a writer's counter. -/
structure Inv (s : DropSys W) : Prop where
  nodup : s.writers.Nodup
  registered : ∀ w, w ∈ s.writers ↔ s.pc w ≠ .absent
  writer : ∀ w, WriterOk (s.counter w) (s.taken w) (s.pc w)
  poll : PollOk s.writers s.polled s.poll
  balance : ∀ k, s.total k + s.polled k + s.withWriters k = s.drops k

omit [DecidableEq W] in
theorem inv_init : (init : DropSys W).Inv where
  nodup := List.nodup_nil
  registered := fun w => ⟨fun h => (by cases h), fun h => absurd rfl h⟩
  writer := fun _ _ => rfl
  poll := fun _ => rfl
  balance := fun _ => rfl

@[simp] theorem put_self (f : W → DropKind → Nat) (w : W) (k : DropKind) (n : Nat) : put f w k n w k = n := by
  simp [put]

/-- The other writers' counters. -/
theorem put_of_ne (f : W → DropKind → Nat) {w u : W} (h : u ≠ w) (k : DropKind) (n : Nat) : put f w k n u = f u := by
  funext j
  simp [put, h]

/-- The writer's other counters. -/
theorem put_kind (f : W → DropKind → Nat) (w : W) {k j : DropKind} (h : j ≠ k) (n : Nat) : put f w k n w j = f w j := by
  simp [put, h]

end

/-- A sum over the writers of which one's share has changed. -/
theorem sum_of_change {l : List W} (hl : l.Nodup) {w : W} (hw : w ∈ l) {f g : W → Nat} (h : ∀ u ∈ l, u ≠ w → g u = f u) :
    (l.map g).sum + f w = (l.map f).sum + g w := by
  induction l with
  | nil => cases hw
  | cons u l ih =>
    obtain ⟨hu, hl⟩ := List.nodup_cons.mp hl
    simp only [List.map_cons, List.sum_cons]
    rcases List.mem_cons.mp hw with rfl | hw
    · have hrest : l.map g = l.map f := List.map_congr_left (fun v hv =>
        h v (List.mem_cons_of_mem _ hv) (fun he => hu (he ▸ hv)))
      rw [hrest]
      omega
    · have hne : u ≠ w := fun he => hu (he ▸ hw)
      have hhead := h u List.mem_cons_self hne
      have htail := ih hl hw (fun v hv => h v (List.mem_cons_of_mem _ hv))
      omega

/-- While the writers are unlocked, a poll has not to do with which writers there are. -/
theorem PollOk.of_unlocked {s : DropSys W} {writers : List W} (h : PollOk s.writers s.polled s.poll) (hlock : s.Unlocked) :
    PollOk writers s.polled s.poll := by
  unfold Unlocked at hlock
  cases hp : s.poll with
  | pulling todo =>
    rw [hp] at hlock
    exact absurd hlock id
  | idle =>
    rw [hp] at h
    exact h
  | adding todo =>
    rw [hp] at h
    exact h

/-- A step that moves counts of one writer, or adds to them: the invariant holds again if what left one place is at another. -/
theorem Inv.ofWriter {s s' : DropSys W} (h : s.Inv) {w : W} (hw : w ∈ s.writers) (hwriters : s'.writers = s.writers)
    (hpc : ∀ u, u ≠ w → s'.pc u = s.pc u) (hhere : s'.pc w ≠ .absent) (hcounter : ∀ u, u ≠ w → s'.counter u = s.counter u)
    (htaken : ∀ u, u ≠ w → s'.taken u = s.taken u) (hwriter : WriterOk (s'.counter w) (s'.taken w) (s'.pc w))
    (hpoll : PollOk s'.writers s'.polled s'.poll)
    (hbal : ∀ k, s'.total k + s'.polled k + (s'.counter w k + s'.taken w k) + s.drops k =
      s.total k + s.polled k + (s.counter w k + s.taken w k) + s'.drops k) : s'.Inv where
  nodup := hwriters ▸ h.nodup
  registered := fun u => by
    rw [hwriters, h.registered u]
    by_cases hu : u = w
    · rw [hu]
      exact iff_of_true ((h.registered w).mp hw) hhere
    · rw [hpc u hu]
  writer := fun u => by
    by_cases hu : u = w
    · rw [hu]
      exact hwriter
    · rw [hpc u hu, hcounter u hu, htaken u hu]
      exact h.writer u
  poll := hpoll
  balance := fun k => by
    have hsum := sum_of_change (f := fun u => s.counter u k + s.taken u k) (g := fun u => s'.counter u k + s'.taken u k)
      h.nodup hw (fun u _ hu => by simp only [hcounter u hu, htaken u hu])
    have hold := h.balance k
    have hnew := hbal k
    unfold withWriters at hold ⊢
    rw [hwriters]
    omega

variable [DecidableEq W]

/-- A writer that is constructed has counted nothing. -/
theorem Inv.construct {s : DropSys W} (h : s.Inv) {w : W} (hpc : s.pc w = .absent) (hlock : s.Unlocked) :
    ({ s with
        writers := w :: s.writers
        counter := Function.update s.counter w (fun _ => 0)
        pc := Function.update s.pc w .alive } : DropSys W).Inv where
  nodup := List.nodup_cons.mpr ⟨fun hw => (h.registered w).mp hw hpc, h.nodup⟩
  registered := fun u => by
    by_cases hu : u = w
    · simp [hu]
    · simp [hu, h.registered u]
  writer := fun u => by
    by_cases hu : u = w
    · have hnone := h.writer w
      rw [hpc] at hnone
      simpa [hu, WriterOk] using hnone
    · simpa [hu] using h.writer u
  poll := h.poll.of_unlocked hlock
  balance := fun k => by
    have hw : w ∉ s.writers := fun hw => (h.registered w).mp hw hpc
    have hnone := h.writer w
    rw [hpc] at hnone
    have hrest : s.writers.map (fun u => Function.update s.counter w (fun _ => 0) u k + s.taken u k) =
        s.writers.map (fun u => s.counter u k + s.taken u k) := List.map_congr_left (fun u hu => by
      have hne : u ≠ w := fun he => hw (he ▸ hu)
      rw [Function.update_of_ne hne])
    have hold := h.balance k
    unfold withWriters at hold ⊢
    simp only [List.map_cons, List.sum_cons, Function.update_self, hrest, hnone k]
    omega

/-- A writer that leaves has handed its counts over. -/
theorem Inv.leave {s : DropSys W} (h : s.Inv) {w : W} (hpc : s.pc w = .leaving) (hlock : s.Unlocked) :
    ({ s with writers := s.writers.erase w, pc := Function.update s.pc w .absent } : DropSys W).Inv where
  nodup := h.nodup.erase w
  registered := fun u => by
    by_cases hu : u = w
    · simp [hu, h.nodup.not_mem_erase]
    · simp [hu, List.mem_erase_of_ne hu, h.registered u]
  writer := fun u => by
    by_cases hu : u = w
    · have hnone := h.writer w
      rw [hpc] at hnone
      simpa [hu, WriterOk] using fun k => (hnone k).2
    · simpa [hu] using h.writer u
  poll := h.poll.of_unlocked hlock
  balance := fun k => by
    have hw : w ∈ s.writers := (h.registered w).mpr (by rw [hpc]; exact fun he => by cases he)
    have hnone := h.writer w
    rw [hpc] at hnone
    have hsum := List.sum_map_erase (fun u => s.counter u k + s.taken u k) hw
    have hold := h.balance k
    unfold withWriters at hold ⊢
    have hzero := hnone k
    dsimp only at hsum ⊢
    omega

/-- A writer's destructor goes on, and no count moves. -/
theorem Inv.goOn {s : DropSys W} (h : s.Inv) {w : W} {pc pc' : WriterPc} (hpc : s.pc w = pc) (hhere : pc ≠ .absent)
    (hhere' : pc' ≠ .absent) (hwriter : WriterOk (s.counter w) (s.taken w) pc') :
    ({ s with pc := Function.update s.pc w pc' } : DropSys W).Inv := by
  have hw : w ∈ s.writers := (h.registered w).mpr (hpc ▸ hhere)
  refine h.ofWriter hw rfl (fun u hu => Function.update_of_ne hu _ _) ?_ (fun _ _ => rfl) (fun _ _ => rfl) ?_ h.poll
    (fun _ => rfl)
  · simpa using hhere'
  · simpa using hwriter

/-- A counter that was reset says no more than before. -/
theorem WriterOk.clearCounter {counter : W → DropKind → Nat} {taken : DropKind → Nat} {pc : WriterPc} (w : W)
    (h : WriterOk (counter w) taken pc) (k : DropKind) : WriterOk (put counter w k 0 w) taken pc := by
  have hclear : ∀ j, counter w j = 0 → put counter w k 0 w j = 0 := fun j hj => by
    by_cases hjk : j = k
    · rw [hjk, put_self]
    · rw [put_kind _ _ hjk, hj]
  cases pc with
  | absent => exact h
  | alive => exact h
  | pulling todo => exact ⟨h.1, h.2.1, fun j hj => hclear j (h.2.2 j hj)⟩
  | adding todo => exact ⟨fun j => hclear j (h.1 j), h.2⟩
  | leaving => exact fun j => ⟨hclear j (h j).1, (h j).2⟩

/-- A living writer counts a drop. -/
theorem Inv.drop {s : DropSys W} (h : s.Inv) {w : W} (hpc : s.pc w = .alive) (k : DropKind) :
    ({ s with counter := put s.counter w k (s.counter w k + 1), drops := bump s.drops k 1 } : DropSys W).Inv := by
  have hhere : s.pc w ≠ .absent := by simp [hpc]
  have hok := h.writer w
  rw [hpc] at hok
  refine h.ofWriter ((h.registered w).mpr hhere) rfl (fun _ _ => rfl) hhere (fun u hu => put_of_ne _ hu _ _) (fun _ _ => rfl)
    (by rw [hpc]; exact hok) h.poll (fun j => ?_)
  by_cases hj : j = k
  · simp [hj, bump]
    omega
  · simp [bump, hj, put_kind _ _ hj]

/-- A poll takes a counter of a writer. -/
theorem Inv.pollPull {s : DropSys W} (h : s.Inv) {w : W} {k : DropKind} {todo : List (W × DropKind)}
    (hp : s.poll = .pulling ((w, k) :: todo)) :
    ({ s with
        poll := .pulling todo
        polled := bump s.polled k (s.counter w k)
        counter := put s.counter w k 0 } : DropSys W).Inv := by
  have hpoll := h.poll
  rw [hp] at hpoll
  have hw : w ∈ s.writers := hpoll (w, k) List.mem_cons_self
  refine h.ofWriter hw rfl (fun _ _ => rfl) ((h.registered w).mp hw) (fun u hu => put_of_ne _ hu _ _) (fun _ _ => rfl)
    (WriterOk.clearCounter w (h.writer w) k) (fun x hx => hpoll x (List.mem_cons_of_mem _ hx)) (fun j => ?_)
  by_cases hj : j = k
  · subst hj
    simp [bump]
    omega
  · simp [bump, hj, put_kind _ _ hj]

omit [DecidableEq W] in
/-- A poll adds what it took to a total. -/
theorem Inv.pollAdd {s : DropSys W} (h : s.Inv) {k : DropKind} {todo : List DropKind} (hp : s.poll = .adding (k :: todo)) :
    ({ s with
        poll := .adding todo
        total := bump s.total k (s.polled k)
        polled := clear s.polled k } : DropSys W).Inv := by
  have hpoll := h.poll
  rw [hp] at hpoll
  refine ⟨h.nodup, h.registered, h.writer, fun j hj => ?_, fun j => ?_⟩
  · dsimp only [clear]
    split
    · rfl
    · rename_i hne
      exact hpoll j (fun hm => (List.mem_cons.mp hm).elim hne hj)
  · have hold := h.balance j
    by_cases hj : j = k
    · subst hj
      simp [bump, clear, withWriters] at hold ⊢
      omega
    · simpa [bump, clear, hj, withWriters] using hold

/-- A destructor takes a counter of its writer. -/
theorem Inv.destroyPull {s : DropSys W} (h : s.Inv) {w : W} {k : DropKind} {todo : List DropKind}
    (hpc : s.pc w = .pulling (k :: todo)) :
    ({ s with
        pc := Function.update s.pc w (.pulling todo)
        taken := put s.taken w k (s.counter w k)
        counter := put s.counter w k 0 } : DropSys W).Inv := by
  have hok := h.writer w
  rw [hpc] at hok
  obtain ⟨hnodup, htaken, hcounter⟩ := hok
  obtain ⟨hk, hnodup⟩ := List.nodup_cons.mp hnodup
  have hw : w ∈ s.writers := (h.registered w).mpr (by simp [hpc])
  refine h.ofWriter hw rfl (fun u hu => Function.update_of_ne hu _ _) (by simp) (fun u hu => put_of_ne _ hu _ _)
    (fun u hu => put_of_ne _ hu _ _) ?_ h.poll (fun j => ?_)
  · simp only [Function.update_self]
    refine ⟨hnodup, fun j hj => ?_, fun j hj => ?_⟩
    · have hne : j ≠ k := fun he => hk (he ▸ hj)
      rw [put_kind _ _ hne]
      exact htaken j (List.mem_cons_of_mem _ hj)
    · by_cases hne : j = k
      · rw [hne, put_self]
      · rw [put_kind _ _ hne]
        exact hcounter j (fun hm => (List.mem_cons.mp hm).elim hne hj)
  · by_cases hj : j = k
    · subst hj
      have hzero := htaken j List.mem_cons_self
      simp
      omega
    · simp [put_kind _ _ hj]

/-- A destructor adds what it took to a total. -/
theorem Inv.destroyAdd {s : DropSys W} (h : s.Inv) {w : W} {k : DropKind} {todo : List DropKind}
    (hpc : s.pc w = .adding (k :: todo)) :
    ({ s with
        pc := Function.update s.pc w (.adding todo)
        total := bump s.total k (s.taken w k)
        taken := put s.taken w k 0 } : DropSys W).Inv := by
  have hok := h.writer w
  rw [hpc] at hok
  obtain ⟨hcounter, htaken⟩ := hok
  have hw : w ∈ s.writers := (h.registered w).mpr (by simp [hpc])
  refine h.ofWriter hw rfl (fun u hu => Function.update_of_ne hu _ _) (by simp) (fun _ _ => rfl)
    (fun u hu => put_of_ne _ hu _ _) ?_ h.poll (fun j => ?_)
  · simp only [Function.update_self]
    refine ⟨hcounter, fun j hj => ?_⟩
    by_cases hne : j = k
    · rw [hne, put_self]
    · rw [put_kind _ _ hne]
      exact htaken j (fun hm => (List.mem_cons.mp hm).elim hne hj)
  · by_cases hj : j = k
    · subst hj
      simp [bump]
      omega
    · simp [bump, hj, put_kind _ _ hj]

omit [DecidableEq W] in
/-- Counting takes nothing away. -/
theorem le_bump (f : DropKind → Nat) (k : DropKind) (n : Nat) (j : DropKind) : f j ≤ bump f k n j := by
  unfold bump
  split <;> omega

/-- One step keeps the invariant, and no total decreases. -/
theorem Inv.step {s s' : DropSys W} {e : DropEv W} (h : s.Inv) (hs : s.step e = .ok s') :
    s'.Inv ∧ ∀ k, s.total k ≤ s'.total k := by
  cases e with
  | construct w =>
    dsimp only [DropSys.step] at hs
    split at hs
    · rename_i hpc
      obtain ⟨hlock, hs⟩ := when_eq_ok.mp hs
      cases hs
      exact ⟨h.construct hpc hlock, fun _ => Nat.le_refl _⟩
    · cases hs
  | drop w k =>
    dsimp only [DropSys.step] at hs
    split at hs
    · rename_i hpc
      cases hs
      exact ⟨h.drop hpc k, fun _ => Nat.le_refl _⟩
    · cases hs
  | pollBegin =>
    dsimp only [DropSys.step] at hs
    split at hs
    · cases hs
      refine ⟨⟨h.nodup, h.registered, h.writer, fun x hx => ?_, h.balance⟩, fun _ => Nat.le_refl _⟩
      obtain ⟨w, hw, hx⟩ := List.mem_flatMap.mp hx
      obtain ⟨k, -, rfl⟩ := List.mem_map.mp hx
      exact hw
    · cases hs
  | pollStep =>
    dsimp only [DropSys.step] at hs
    split at hs
    · cases hs
    · cases hs
      exact ⟨⟨h.nodup, h.registered, h.writer, fun k hk => absurd (DropKind.mem_all k) hk, h.balance⟩,
        fun _ => Nat.le_refl _⟩
    · rename_i w k todo hp
      cases hs
      exact ⟨h.pollPull hp, fun _ => Nat.le_refl _⟩
    · rename_i hp
      cases hs
      have hpoll := h.poll
      rw [hp] at hpoll
      exact ⟨⟨h.nodup, h.registered, h.writer, fun k => hpoll k List.not_mem_nil, h.balance⟩, fun _ => Nat.le_refl _⟩
    · rename_i k todo hp
      cases hs
      exact ⟨h.pollAdd hp, le_bump _ _ _⟩
  | destroy w =>
    dsimp only [DropSys.step] at hs
    split at hs
    · rename_i hpc
      cases hs
      have hok := h.writer w
      rw [hpc] at hok
      refine ⟨h.goOn hpc (by simp) (by simp) ?_, fun _ => Nat.le_refl _⟩
      exact ⟨by decide, fun k _ => hok k, fun k hk => absurd (DropKind.mem_all k) hk⟩
    · cases hs
  | destroyStep w =>
    have hok := h.writer w
    dsimp only [DropSys.step] at hs
    split at hs
    · cases hs
    · cases hs
    · rename_i hpc
      cases hs
      rw [hpc] at hok
      refine ⟨h.goOn hpc (by simp) (by simp) ?_, fun _ => Nat.le_refl _⟩
      exact ⟨fun k => hok.2.2 k List.not_mem_nil, fun k hk => absurd (DropKind.mem_all k) hk⟩
    · rename_i k todo hpc
      cases hs
      exact ⟨h.destroyPull hpc, fun _ => Nat.le_refl _⟩
    · rename_i hpc
      cases hs
      rw [hpc] at hok
      refine ⟨h.goOn hpc (by simp) (by simp) ?_, fun _ => Nat.le_refl _⟩
      exact fun k => ⟨hok.1 k, hok.2 k List.not_mem_nil⟩
    · rename_i k todo hpc
      cases hs
      exact ⟨h.destroyAdd hpc, le_bump _ _ _⟩
    · rename_i hpc
      obtain ⟨hlock, hs⟩ := when_eq_ok.mp hs
      cases hs
      exact ⟨h.leave hpc hlock, fun _ => Nat.le_refl _⟩

/-- In every state that the writers and the worker of a core can reach, each drop is in the core's totals, in what a poll or a
destructor has got, or in the counter of a registered writer, and nowhere twice. No total ever decreases; and without writers
and polls the totals are all the drops. -/
theorem drops_conserved (evs : List (DropEv W)) {s : DropSys W} (hr : init.run evs = .ok s) :
    (∀ k, s.total k + s.polled k + s.withWriters k = s.drops k) ∧
      (∀ e s', s.step e = .ok s' → ∀ k, s.total k ≤ s'.total k) ∧
      (s.writers = [] → s.poll = .idle → ∀ k, s.total k = s.drops k) := by
  have h : s.Inv := Runs.run_induction inv_init (fun _ _ _ hinv hs => (hinv.step hs).1) hr
  refine ⟨h.balance, fun e s' hs => (h.step hs).2, fun hnone hidle k => ?_⟩
  have hpoll := h.poll
  rw [hidle] at hpoll
  have hbal := h.balance k
  rw [hpoll k, withWriters, hnone] at hbal
  simpa using hbal

/-- A poll reads a writer's counters while the writer's destructor does. -/
def pollDuringDestroy : List (DropEv Nat) :=
  [.construct 0, .construct 1, .drop 0 .logs, .drop 1 .logs, .drop 1 .metrics, .destroy 1, .pollBegin, .pollStep,
    .destroyStep 1, .pollStep, .pollStep, .drop 0 .logs, .pollStep, .pollStep, .pollStep, .pollStep, .pollStep]

/-- A poll that meets a destructor between its two halves counts nothing twice. -/
theorem drops_conserved_pollDuringDestroy : ∃ s, init.run pollDuringDestroy = .ok s ∧ s.drops .logs = 3 ∧
    s.total .logs = 3 ∧ ∀ k, s.total k + s.polled k + s.withWriters k = s.drops k := by
  have hrun : ∃ s, init.run pollDuringDestroy = .ok s ∧ s.drops .logs = 3 ∧ s.total .logs = 3 := ⟨_, rfl, rfl, rfl⟩
  obtain ⟨s, hs, hdrops, htotal⟩ := hrun
  exact ⟨s, hs, hdrops, htotal, (drops_conserved pollDuringDestroy hs).1⟩

end DropSys

end P8
