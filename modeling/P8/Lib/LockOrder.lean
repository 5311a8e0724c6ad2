import Mathlib.Algebra.Order.BigOperators.Group.Finset
import Mathlib.Data.List.Nodup
import Mathlib.Data.Set.Basic
import Mathlib.Order.WellFounded
import P8.Lib.Runs

/-!
# Lock order: threads that take locks by rank do not deadlock

Threads run straight pieces of code, of which only the locks are looked at: each takes and gives back locks, and may park without
one. Every lock has a rank. Code that takes a lock only above those it holds, gives them back in the reverse order and parks
holding nothing obeys the order (`Obeys`). While all code does, no threads wait for each other in a circle (`not_deadlocked`),
a parked thread holds nothing (`parked_holds_nothing`), and a thread that does not park can be let through to the end of its
code without waking a parked thread (`completes`).
-/

namespace LockOrder

/-- What code does to the locks. -/
inductive Act (L : Type) where
  | lock (l : L)
  | unlock (l : L)
  | park

/-- A critical section. -/
def guarded {L : Type} (l : L) (body : List (Act L)) : List (Act L) := .lock l :: body ++ [.unlock l]

/-- A critical section parks only in its middle. -/
theorem no_park_guarded {L : Type} {l : L} {body : List (Act L)} (h : .park ∉ body) : .park ∉ guarded l body := by
  simp [guarded, h]

/-- The locks, each with the thread that holds it, and what is left of each thread's code. -/
structure State (L T : Type) where
  owner : L → Option T
  code : T → List (Act L)

/-- A thread begins a piece of code, or does the next action of its piece. -/
inductive Ev (L T : Type) where
  | start (t : T) (code : List (Act L))
  | next (t : T)

section

variable {L T : Type} [DecidableEq L] [DecidableEq T]

/-- No lock is held and no code begun. -/
def init : State L T := ⟨fun _ => none, fun _ => []⟩

/-- An action of a thread, with the code behind it. A held lock cannot be taken. -/
def State.act (s : State L T) (t : T) (rest : List (Act L)) : Act L → Except Unit (State L T)
  | .lock l =>
    match s.owner l with
    | some _ => .error ()
    | none => .ok ⟨Function.update s.owner l (some t), Function.update s.code t rest⟩
  | .unlock l => .ok ⟨Function.update s.owner l none, Function.update s.code t rest⟩
  | .park => .ok ⟨s.owner, Function.update s.code t rest⟩

/-- One step; an error is a step that is not enabled. -/
def step (s : State L T) : Ev L T → Except Unit (State L T)
  | .start t code =>
    match s.code t with
    | [] => .ok ⟨s.owner, Function.update s.code t code⟩
    | _ :: _ => .error ()
  | .next t =>
    match s.code t with
    | [] => .error ()
    | a :: rest => s.act t rest a

/-- A thread is parked. -/
def Parked (s : State L T) (t : T) : Prop := ∃ rest, s.code t = .park :: rest

/-- A thread waits for a lock that another holds. -/
def WaitsFor (s : State L T) (t u : T) : Prop := ∃ l rest, s.code t = .lock l :: rest ∧ s.owner l = some u

/-- Threads that all wait for one another. -/
def Deadlocked (s : State L T) : Prop := ∃ ts : Set T, ts.Nonempty ∧ ∀ t ∈ ts, ∃ u ∈ ts, WaitsFor s t u

end

/-! ## Code that obeys the order -/

section

variable {L ρ : Type} [LT ρ] (rank : L → ρ)

/-- Code begun with the locks `held`, the last one taken first, ends with the locks `held'`, and takes them by rank. -/
def Obeys : List L → List (Act L) → List L → Prop
  | held, [], held' => held = held'
  | held, .lock l :: code, held' => (∀ k ∈ held, rank k < rank l) ∧ Obeys (l :: held) code held'
  | held, .unlock l :: code, held' => ∃ rest, held = l :: rest ∧ Obeys rest code held'
  | held, .park :: code, held' => held = [] ∧ Obeys held code held'

variable {rank} {held held' held'' : List L} {code code' : List (Act L)}

/-- Two pieces of code that take their locks in order do so one behind the other. -/
theorem Obeys.append (h : Obeys rank held code held') (h' : Obeys rank held' code' held'') :
    Obeys rank held (code ++ code') held'' := by
  induction code generalizing held with
  | nil =>
    cases h
    exact h'
  | cons a code ih =>
    cases a with
    | lock l => exact ⟨h.1, ih h.2⟩
    | unlock l =>
      obtain ⟨rest, hheld, h⟩ := h
      exact ⟨rest, hheld, ih h⟩
    | park => exact ⟨h.1, ih h.2⟩

/-- Pieces that each obey the order do so one after the other. -/
theorem Obeys.flatten {pieces : List (List (Act L))} (h : ∀ p ∈ pieces, Obeys rank held p held) :
    Obeys rank held pieces.flatten held := by
  induction pieces with
  | nil => exact rfl
  | cons p ps ih => exact (h p List.mem_cons_self).append (ih (fun q hq => h q (List.mem_cons_of_mem p hq)))

/-- A critical section obeys the order where its lock is above those held. -/
theorem Obeys.guarded {l : L} (hl : ∀ k ∈ held, rank k < rank l) (h : Obeys rank (l :: held) code (l :: held)) :
    Obeys rank held (guarded l code) held :=
  ⟨hl, h.append ⟨held, rfl, rfl⟩⟩

/-- Code that is left of a thread that holds something does not park. -/
theorem Obeys.next (h : Obeys rank held code []) (hne : held ≠ []) :
    ∃ a rest, code = a :: rest ∧ a ≠ .park := by
  cases code with
  | nil => exact absurd h hne
  | cons a rest =>
    refine ⟨a, rest, rfl, ?_⟩
    rintro rfl
    exact hne h.1

end

/-! ## The invariant -/

section

variable {L T ρ : Type} [DecidableEq L] [DecidableEq T] [LT ρ] {rank : L → ρ} {s s' : State L T}

/-- The invariant: `held` are the locks of the threads, each thread's code obeys the order and ends without a lock, and only
finitely many threads have begun code. -/
structure Inv (rank : L → ρ) (s : State L T) (held : T → List L) : Prop where
  owner : ∀ l t, s.owner l = some t ↔ l ∈ held t
  nodup : ∀ t, (held t).Nodup
  obeys : ∀ t, Obeys rank (held t) (s.code t) []
  busy : ∃ ts : Finset T, ∀ t, t ∉ ts → s.code t = []

omit [DecidableEq L] [DecidableEq T] in
theorem inv_init : Inv rank (init : State L T) (fun _ => []) where
  owner := fun _ _ => by simp [init]
  nodup := fun _ => List.nodup_nil
  obeys := fun _ => rfl
  busy := ⟨∅, fun _ _ => rfl⟩

omit [DecidableEq L] in
/-- A thread's code is other code, begun with other locks. -/
theorem Inv.update {held : T → List L} (h : Inv rank s held) (t : T) (ls : List L) {code : List (Act L)}
    {owner : L → Option T} (howner : ∀ l u, owner l = some u ↔ l ∈ Function.update held t ls u) (hnodup : ls.Nodup)
    (hcode : Obeys rank ls code []) :
    Inv rank ⟨owner, Function.update s.code t code⟩ (Function.update held t ls) := by
  obtain ⟨ts, hts⟩ := h.busy
  refine ⟨howner, fun u => ?_, fun u => ?_, insert t ts, fun u hu => ?_⟩
  · rw [Function.update_apply]
    split
    · exact hnodup
    · exact h.nodup u
  · dsimp only
    by_cases hu : u = t
    · subst hu
      rwa [Function.update_self, Function.update_self]
    · rw [Function.update_of_ne hu, Function.update_of_ne hu]
      exact h.obeys u
  · rw [Finset.mem_insert, not_or] at hu
    dsimp only
    rw [Function.update_of_ne hu.1, hts u hu.2]

omit [DecidableEq L] in
/-- A thread's code is other code, begun with the locks it holds. -/
theorem Inv.update_code {held : T → List L} (h : Inv rank s held) {t : T} {code : List (Act L)}
    (hcode : Obeys rank (held t) code []) : Inv rank ⟨s.owner, Function.update s.code t code⟩ held := by
  have howner : ∀ l u, s.owner l = some u ↔ l ∈ Function.update held t (held t) u := by
    rw [Function.update_eq_self]
    exact h.owner
  have hsame := h.update t (held t) howner (h.nodup t) hcode
  rwa [Function.update_eq_self] at hsame

/-- An action of a thread keeps the locks accounted for. -/
theorem Inv.act {held : T → List L} (h : Inv rank s held) {t : T} {a : Act L} {rest : List (Act L)}
    (ht : s.code t = a :: rest) (hs : s.act t rest a = .ok s') : ∃ held', Inv rank s' held' := by
  have hcode := h.obeys t
  rw [ht] at hcode
  cases a with
  | lock l =>
    dsimp only [State.act] at hs
    cases hl : s.owner l with
    | some u =>
      rw [hl] at hs
      cases hs
    | none =>
      rw [hl] at hs
      cases hs
      have hfree : ∀ v, l ∉ held v := fun v hv => by
        rw [(h.owner l v).mpr hv] at hl
        cases hl
      refine ⟨_, h.update t (l :: held t) (fun k u => ?_) (List.nodup_cons.mpr ⟨hfree t, h.nodup t⟩) hcode.2⟩
      by_cases hk : k = l
      · subst hk
        by_cases hu : u = t
        · simp [hu]
        · simp [Function.update_of_ne hu, hfree u, Ne.symm hu]
      · rw [Function.update_of_ne hk, h.owner k u]
        by_cases hu : u = t
        · simp [hu, hk]
        · rw [Function.update_of_ne hu]
  | unlock l =>
    obtain ⟨ls, hls, hrest⟩ := hcode
    cases hs
    have hnodup := h.nodup t
    rw [hls, List.nodup_cons] at hnodup
    have hmine : ∀ u, l ∈ held u → u = t := fun u hu => by
      have ht : s.owner l = some t := (h.owner l t).mpr (by simp [hls])
      exact Option.some.inj (((h.owner l u).mpr hu).symm.trans ht)
    refine ⟨_, h.update t ls (fun k u => ?_) hnodup.2 hrest⟩
    by_cases hk : k = l
    · subst hk
      by_cases hu : u = t
      · simp [hu, hnodup.1]
      · simp only [Function.update_self, Function.update_of_ne hu, reduceCtorEq, false_iff]
        exact fun hin => hu (hmine u hin)
    · rw [Function.update_of_ne hk, h.owner k u]
      by_cases hu : u = t
      · simp [hu, hls, hk]
      · rw [Function.update_of_ne hu]
  | park =>
    cases hs
    exact ⟨held, h.update_code hcode.2⟩

/-- A step keeps the invariant, if the code it begins obeys the order. -/
theorem Inv.step {held : T → List L} (h : Inv rank s held) {ev : Ev L T} (hs : step s ev = .ok s')
    (hev : ∀ t code, ev = .start t code → Obeys rank [] code []) : ∃ held', Inv rank s' held' := by
  cases ev with
  | start t code =>
    dsimp only [LockOrder.step] at hs
    cases ht : s.code t with
    | cons a rest =>
      rw [ht] at hs
      cases hs
    | nil =>
      rw [ht] at hs
      cases hs
      have hnone : held t = [] := by
        have hcode := h.obeys t
        rw [ht] at hcode
        exact hcode
      exact ⟨held, h.update_code (hnone ▸ hev t code rfl)⟩
  | next t =>
    dsimp only [LockOrder.step] at hs
    cases ht : s.code t with
    | nil =>
      rw [ht] at hs
      cases hs
    | cons a rest =>
      rw [ht] at hs
      exact h.act ht hs

/-! ## What follows -/

omit [DecidableEq L] [DecidableEq T] in
/-- A parked thread holds nothing. -/
theorem Inv.parked_holds_nothing {held : T → List L} (h : Inv rank s held) {t : T} (hp : Parked s t) (l : L) :
    s.owner l ≠ some t := by
  obtain ⟨rest, ht⟩ := hp
  have hcode := h.obeys t
  rw [ht] at hcode
  rw [Ne, h.owner l t, hcode.1]
  exact List.not_mem_nil

omit [DecidableEq L] [DecidableEq T] in
/-- A thread waited for that waits itself waits for a higher lock. -/
theorem Inv.rank_lt {held : T → List L} (h : Inv rank s held) {u : T} {k l : L} {rest : List (Act L)}
    (hk : s.owner k = some u) (hu : s.code u = .lock l :: rest) : rank k < rank l := by
  have hcode := h.obeys u
  rw [hu] at hcode
  exact hcode.1 k ((h.owner k u).mp hk)

omit [DecidableEq L] [DecidableEq T] in
/-- No threads wait for one another: one of them would wait for a lock with the highest rank. -/
theorem Inv.not_deadlocked [WellFoundedGT ρ] {held : T → List L} (h : Inv rank s held) : ¬ Deadlocked s := by
  rintro ⟨ts, ⟨t, ht⟩, hwait⟩
  have hne : {r | ∃ t ∈ ts, ∃ l rest, s.code t = .lock l :: rest ∧ rank l = r}.Nonempty := by
    obtain ⟨u, -, l, rest, hcode, -⟩ := hwait t ht
    exact ⟨rank l, t, ht, l, rest, hcode, rfl⟩
  obtain ⟨r, ⟨t, ht, l, rest, hcode, rfl⟩, hmax⟩ := (wellFounded_gt (α := ρ)).has_min _ hne
  obtain ⟨u, hu, l', rest', hcode', howner⟩ := hwait t ht
  rw [hcode] at hcode'
  cases hcode'
  obtain ⟨v, -, l', rest', hu', -⟩ := hwait u hu
  exact hmax (rank l') ⟨u, hu, l', rest', hu', rfl⟩ (h.rank_lt howner hu')

/-- While a thread waits for a lock, it or a thread that holds a lock can do its next action. -/
theorem Inv.exists_enabled [WellFoundedGT ρ] {held : T → List L} (h : Inv rank s held) {t : T} {a : Act L}
    {rest : List (Act L)} (ht : s.code t = a :: rest) (hpark : a ≠ .park) :
    ∃ u, ¬ Parked s u ∧ ∃ s', LockOrder.step s (.next u) = .ok s' := by
  have hstep : ∀ (u : T) (a : Act L) (rest : List (Act L)), s.code u = a :: rest → a ≠ .park →
      (∃ s', s.act u rest a = .ok s') → ∃ u, ¬ Parked s u ∧ ∃ s', LockOrder.step s (.next u) = .ok s' := by
    rintro u a rest hu hpark ⟨s', hs'⟩
    refine ⟨u, ?_, s', by rw [LockOrder.step, hu]; exact hs'⟩
    rintro ⟨rest', hu'⟩
    rw [hu] at hu'
    cases hu'
    exact hpark rfl
  have hlock : ∀ r (u : T) (l : L) (rest : List (Act L)), rank l = r → s.code u = .lock l :: rest →
      ∃ u, ¬ Parked s u ∧ ∃ s', LockOrder.step s (.next u) = .ok s' := by
    intro r
    induction r using (wellFounded_gt (α := ρ)).induction with
    | h r ih =>
      rintro u l rest rfl hu
      cases hl : s.owner l with
      | none => exact hstep u _ rest hu nofun ⟨_, by rw [State.act, hl]⟩
      | some v =>
        have hv : l ∈ held v := (h.owner l v).mp hl
        obtain ⟨a', rest', hv', hpark'⟩ := (h.obeys v).next (List.ne_nil_of_mem hv)
        cases a' with
        | lock l' => exact ih (rank l') (h.rank_lt hl hv') v l' rest' rfl hv'
        | unlock l' => exact hstep v _ rest' hv' nofun ⟨_, rfl⟩
        | park => exact absurd rfl hpark'
  cases a with
  | lock l => exact hlock (rank l) t l rest rfl ht
  | unlock l => exact hstep t _ rest ht nofun ⟨_, rfl⟩
  | park => exact absurd rfl hpark

/-- Code is begun by a thread that has none. -/
theorem code_start {t : T} {code : List (Act L)} (hs : LockOrder.step s (.start t code) = .ok s') :
    s.code t = [] ∧ s'.code = Function.update s.code t code := by
  dsimp only [LockOrder.step] at hs
  cases ht : s.code t with
  | nil =>
    rw [ht] at hs
    cases hs
    exact ⟨rfl, rfl⟩
  | cons a rest =>
    rw [ht] at hs
    cases hs

/-- The next action of a thread is taken off its code. -/
theorem code_next {u : T} (hs : LockOrder.step s (.next u) = .ok s') :
    ∃ a rest, s.code u = a :: rest ∧ s'.code = Function.update s.code u rest := by
  dsimp only [LockOrder.step] at hs
  cases hu : s.code u with
  | nil =>
    rw [hu] at hs
    cases hs
  | cons a rest =>
    rw [hu] at hs
    refine ⟨a, rest, rfl, ?_⟩
    cases a with
    | lock l =>
      dsimp only [State.act] at hs
      cases hl : s.owner l with
      | some v =>
        rw [hl] at hs
        cases hs
      | none =>
        rw [hl] at hs
        cases hs
        rfl
    | unlock l =>
      cases hs
      rfl
    | park =>
      cases hs
      rfl

/-- Code without a park has none left in it later. -/
theorem no_park_next {t u : T} (hs : LockOrder.step s (.next u) = .ok s') (ht : .park ∉ s.code t) : .park ∉ s'.code t := by
  obtain ⟨a, rest, hu, hcode⟩ := code_next hs
  rw [hcode, Function.update_apply]
  split
  · rename_i htu
    rw [htu, hu] at ht
    exact fun hin => ht (List.mem_cons_of_mem _ hin)
  · exact ht

/-- A thread whose code does not park is let through to its end, by actions of threads that are not parked: there is always one
that can act, and each takes an action off the code that is left. -/
theorem Inv.completes [WellFoundedGT ρ] {held : T → List L} (h : Inv rank s held) {t : T} (ht : .park ∉ s.code t) :
    ∃ (us : List T) (s' : State L T), Runs.run LockOrder.step s (us.map .next) = .ok s' ∧ s'.code t = [] ∧
      Runs.Along LockOrder.step (fun s ev _ => ∀ u, ev = .next u → ¬ Parked s u) s (us.map .next) := by
  obtain ⟨ts, hts⟩ := h.busy
  obtain ⟨n, hn⟩ : ∃ n, ∑ u ∈ ts, (s.code u).length = n := ⟨_, rfl⟩
  induction n using Nat.strong_induction_on generalizing s held with
  | h n ih =>
    cases hcode : s.code t with
    | nil => exact ⟨[], s, rfl, hcode, trivial⟩
    | cons a rest =>
      have hpark : a ≠ .park := by
        rintro rfl
        exact ht (hcode ▸ List.mem_cons_self)
      obtain ⟨u, hu, s₁, hs₁⟩ := h.exists_enabled hcode hpark
      obtain ⟨b, rest', hb, hcode₁⟩ := code_next hs₁
      obtain ⟨held₁, h₁⟩ := h.step hs₁ (fun _ _ hev => (by cases hev))
      have hshort : ∀ v, (s₁.code v).length ≤ (s.code v).length := by
        intro v
        rw [hcode₁, Function.update_apply]
        split
        · rename_i hv
          rw [hv, hb, List.length_cons]
          exact Nat.le_succ _
        · exact Nat.le_refl _
      have hin : u ∈ ts := by
        by_contra hout
        rw [hts u hout] at hb
        cases hb
      have hlt : ∑ v ∈ ts, (s₁.code v).length < n := by
        rw [← hn]
        refine Finset.sum_lt_sum (fun v _ => hshort v) ⟨u, hin, ?_⟩
        rw [hcode₁, Function.update_self, hb, List.length_cons]
        exact Nat.lt_succ_self _
      have hts₁ : ∀ v, v ∉ ts → s₁.code v = [] := fun v hv =>
        List.length_eq_zero_iff.mp (Nat.le_zero.mp (by simpa [hts v hv] using hshort v))
      obtain ⟨us, s', hrun, hend, halong⟩ := ih _ hlt h₁ (no_park_next hs₁ ht) hts₁ rfl
      refine ⟨u :: us, s', ?_, hend, fun v hv => ?_, fun s₂ hs₂ => ?_⟩
      · rw [List.map_cons, Runs.run_step hs₁]
        exact hrun
      · cases hv
        exact hu
      · rw [hs₁] at hs₂
        cases hs₂
        exact halong

end

end LockOrder
