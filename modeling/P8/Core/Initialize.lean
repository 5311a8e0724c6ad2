import Mathlib.Logic.Function.Basic
import P8.Steps

/-!
# Initialize: concurrent calls of `p8_initialize`

Any number of threads in any number of DSOs call `p8_initialize` at the same time, none calls `p8_release`, and every
configuration is one a core can be constructed from. The steps are those between which another thread can come: the look at
`gp_instance`, the read of the cell, the construction, the exclusive create, the destruction of the core that lost, the second
read under the lock, and the store to `gp_instance`. `c_shared` is as its users rely on: `create` succeeds where the cell is
empty and nowhere else, and a pointer once published can be read.
-/

namespace P8

/-- How far a thread is in `p8_initialize`: not in it; before the look at `gp_instance`; before the read of the cell; before the
construction; before `create` with a new core; before the store of a core it has published; before the deletion of a core
that lost; before the second read; before the store of a core it has read; or behind the call, with its result. -/
inductive InitPc where
  | out
  | check
  | read
  | construct
  | create (c : Nat)
  | store (c : Nat)
  | discard (c : Nat)
  | reread
  | attach (c : Nat)
  | done (result : Bool)
  deriving DecidableEq

/-- The cell, the copies of `gp_instance`, the cores constructed so far and how often each was destroyed, and the threads. -/
structure InitSys (D T : Type) where
  cell : Option Nat
  gpInstance : D → Option Nat
  shmHandle : D → Bool
  next : Nat
  destroyed : Nat → Nat
  pc : T → InitPc

/-- The steps: a thread calls `p8_initialize`, or goes on in it. -/
inductive InitEv (T : Type) where
  | call (t : T)
  | go (t : T)

namespace InitSys

variable {D T : Type}

/-- Nothing is published, and nobody is in `p8_initialize`. -/
def init : InitSys D T := ⟨none, fun _ => none, fun _ => false, 0, fun _ => 0, fun _ => .out⟩

/-- A core that has been constructed and not destroyed. -/
def Alive (s : InitSys D T) (c : Nat) : Prop := c < s.next ∧ s.destroyed c = 0

variable [DecidableEq D] [DecidableEq T] (dso : T → D)

/-- A thread goes on elsewhere. -/
def moved (s : InitSys D T) (t : T) (pc : InitPc) : InitSys D T := { s with pc := Function.update s.pc t pc }

/-- One step. -/
def step (s : InitSys D T) : InitEv T → Except Halt (InitSys D T)
  | .call t =>
    match s.pc t with
    | .out | .done _ => .ok (s.moved t .check)
    | _ => .error .disabled
  | .go t =>
    match s.pc t with
    | .out | .done _ => .error .disabled
    | .check => .ok (s.moved t (if (s.gpInstance (dso t)).isSome then .done true else .read))
    | .read => .ok (s.moved t (match s.cell with
        | some c => .attach c
        | none => .construct))
    | .construct => .ok ({ s with next := s.next + 1 }.moved t (.create s.next))
    | .create c =>
      match s.cell with
      | none => .ok ({ s with cell := some c }.moved t (.store c))
      | some _ => .ok (s.moved t (.discard c))
    | .store c => .ok ({ s with
        gpInstance := Function.update s.gpInstance (dso t) (some c)
        shmHandle := Function.update s.shmHandle (dso t) true }.moved t (.done true))
    | .discard c => .ok ({ s with destroyed := Function.update s.destroyed c (s.destroyed c + 1) }.moved t .reread)
    | .reread => .ok (s.moved t (match s.cell with
        | some c => .attach c
        | none => .done false))
    | .attach c => .ok ({ s with gpInstance := Function.update s.gpInstance (dso t) (some c) }.moved t (.done true))

/-- A run of steps. -/
def run (s : InitSys D T) (evs : List (InitEv T)) : Except Halt (InitSys D T) := Runs.run (step dso) s evs

/-! ## One instance -/

/-- A core that a thread has constructed and not got rid of. -/
def Owns (pc : InitPc) (c : Nat) : Prop := pc = .create c ∨ pc = .discard c

/-- What is known where a thread is: a core it is about to store is the published one, and it goes to delete a core or reads
again only where one is published. -/
def PcOk (s : InitSys D T) (d : D) : InitPc → Prop
  | .store c | .attach c => s.cell = some c
  | .discard _ | .reread => s.cell ≠ none
  | .done result => result = true ∧ s.gpInstance d ≠ none
  | .out | .check | .read | .construct | .create _ => True

/-- The invariant: what any `gp_instance` holds is the published core, and of the others each is one thread's to destroy. -/
structure Inv (s : InitSys D T) : Prop where
  stored : ∀ d c, s.gpInstance d = some c → s.cell = some c
  pcs : ∀ t, s.PcOk (dso t) (s.pc t)
  published : ∀ c, s.cell = some c → s.Alive c ∧ ∀ t, ¬ Owns (s.pc t) c
  owned : ∀ t c, Owns (s.pc t) c → s.Alive c
  owner : ∀ t u c, Owns (s.pc t) c → Owns (s.pc u) c → t = u
  alive : ∀ c, s.Alive c → s.cell = some c ∨ ∃ t, Owns (s.pc t) c
  once : ∀ c, s.destroyed c ≤ 1 ∧ (s.next ≤ c → s.destroyed c = 0)

omit [DecidableEq D] [DecidableEq T] in
theorem inv_init : (init : InitSys D T).Inv dso where
  stored := fun _ _ h => (by cases h)
  pcs := fun _ => trivial
  published := fun _ h => (by cases h)
  owned := fun _ _ h => (by rcases h with h | h <;> cases h)
  owner := fun _ _ _ h => (by rcases h with h | h <;> cases h)
  alive := fun _ h => absurd h.1 (Nat.not_lt_zero _)
  once := fun _ => ⟨Nat.zero_le _, fun _ => rfl⟩

variable {dso} {s s' : InitSys D T}

omit [DecidableEq D] [DecidableEq T] in
/-- Where a thread is stays right while a core published stays published and no `gp_instance` is reset. -/
theorem PcOk.mono {d : D} {pc : InitPc} (h : s.PcOk d pc) (hcell : ∀ c, s.cell = some c → s'.cell = some c)
    (hinst : s.gpInstance d ≠ none → s'.gpInstance d ≠ none) : s'.PcOk d pc := by
  have hne : s.cell ≠ none → s'.cell ≠ none := fun hc => by
    obtain ⟨c, hc⟩ := Option.ne_none_iff_exists'.mp hc
    rw [hcell c hc]
    exact fun he => (by cases he)
  cases pc with
  | store c => exact hcell c h
  | attach c => exact hcell c h
  | discard c => exact hne h
  | reread => exact hne h
  | done result => exact ⟨h.1, hinst h.2⟩
  | out => trivial
  | check => trivial
  | read => trivial
  | construct => trivial
  | create c => trivial

omit [DecidableEq D] in
/-- A step that constructs, publishes and destroys no core. -/
theorem Inv.move (h : s.Inv dso) {t : T} {pc : InitPc} (hpc : s'.pc = Function.update s.pc t pc) (hcell : s'.cell = s.cell)
    (hnext : s'.next = s.next) (hdestroyed : s'.destroyed = s.destroyed)
    (hstored : ∀ d c, s'.gpInstance d = some c → s.cell = some c)
    (hinst : ∀ d, s.gpInstance d ≠ none → s'.gpInstance d ≠ none) (hok : s'.PcOk (dso t) pc)
    (howns : ∀ c, Owns pc c ↔ Owns (s.pc t) c) : s'.Inv dso := by
  have hownsAll : ∀ u c, Owns (s'.pc u) c ↔ Owns (s.pc u) c := fun u c => by
    rw [hpc]
    by_cases hu : u = t
    · rw [hu, Function.update_self]
      exact howns c
    · rw [Function.update_of_ne hu]
  have halive : ∀ c, s'.Alive c ↔ s.Alive c := fun c => by rw [Alive, Alive, hnext, hdestroyed]
  refine ⟨fun d c hc => ?_, fun u => ?_, fun c hc => ?_, fun u c hc => ?_, fun u v c hu hv => ?_, fun c hc => ?_, fun c => ?_⟩
  · rw [hcell]
    exact hstored d c hc
  · rw [hpc]
    by_cases hu : u = t
    · rw [hu, Function.update_self]
      exact hok
    · rw [Function.update_of_ne hu]
      exact (h.pcs u).mono (fun c hc => hcell ▸ hc) (hinst (dso u))
  · rw [halive]
    obtain ⟨ha, hno⟩ := h.published c (hcell ▸ hc)
    exact ⟨ha, fun u hu => hno u ((hownsAll u c).mp hu)⟩
  · rw [halive]
    exact h.owned u c ((hownsAll u c).mp hc)
  · exact h.owner u v c ((hownsAll u c).mp hu) ((hownsAll v c).mp hv)
  · rw [hcell]
    exact (h.alive c ((halive c).mp hc)).imp id (fun ⟨u, hu⟩ => ⟨u, (hownsAll u c).mpr hu⟩)
  · rw [hnext, hdestroyed]
    exact h.once c

/-- A thread that owns no core moves to where it owns none. -/
theorem not_owns_iff {pc pc' : InitPc} (h : ∀ c, ¬ Owns pc c) (h' : ∀ c, ¬ Owns pc' c) (c : Nat) : Owns pc' c ↔ Owns pc c :=
  iff_of_false (h' c) (h c)

/-- A caller at its store owns the core it has made. -/
theorem owns_create (c k : Nat) : Owns (.create c) k ↔ k = c := by
  simp [Owns, eq_comm]

/-- A caller that lost owns the core it has yet to delete. -/
theorem owns_discard (c k : Nat) : Owns (.discard c) k ↔ k = c := by
  simp [Owns, eq_comm]

omit [DecidableEq D] in
/-- A new core is its thread's. -/
theorem Inv.construct (h : s.Inv dso) {t : T} (hpc : s.pc t = .construct) :
    ({ s with next := s.next + 1 }.moved t (.create s.next) : InitSys D T).Inv dso := by
  have hself : ({ s with next := s.next + 1 }.moved t (.create s.next) : InitSys D T).pc t = .create s.next :=
    Function.update_self ..
  have hother : ∀ u, u ≠ t → ({ s with next := s.next + 1 }.moved t (.create s.next) : InitSys D T).pc u = s.pc u :=
    fun u hu => Function.update_of_ne hu _ _
  have hnew : ∀ u, ¬ Owns (s.pc u) s.next := fun u hu => Nat.lt_irrefl _ (h.owned u s.next hu).1
  have hgrow : ∀ c, s.Alive c → ({ s with next := s.next + 1 }.moved t (.create s.next) : InitSys D T).Alive c :=
    fun c hc => ⟨Nat.lt_succ_of_lt hc.1, hc.2⟩
  refine ⟨h.stored, fun u => ?_, fun c hc => ?_, fun u c hc => ?_, fun u v c hu hv => ?_, fun c hc => ?_, fun c => ?_⟩
  · by_cases hu : u = t
    · rw [hu, hself]
      trivial
    · rw [hother u hu]
      exact (h.pcs u).mono (fun c hc => hc) (fun hne => hne)
  · obtain ⟨ha, hno⟩ := h.published c hc
    refine ⟨hgrow c ha, fun u hu => ?_⟩
    by_cases hut : u = t
    · rw [hut, hself, owns_create] at hu
      exact absurd ha.1 (by omega)
    · rw [hother u hut] at hu
      exact hno u hu
  · by_cases hu : u = t
    · rw [hu, hself, owns_create] at hc
      rw [hc]
      exact ⟨Nat.lt_succ_self _, (h.once s.next).2 (Nat.le_refl _)⟩
    · rw [hother u hu] at hc
      exact hgrow c (h.owned u c hc)
  · by_cases hut : u = t
    · by_cases hvt : v = t
      · rw [hut, hvt]
      · rw [hut, hself, owns_create] at hu
        rw [hother v hvt, hu] at hv
        exact absurd hv (hnew v)
    · by_cases hvt : v = t
      · rw [hvt, hself, owns_create] at hv
        rw [hother u hut, hv] at hu
        exact absurd hu (hnew u)
      · rw [hother u hut] at hu
        rw [hother v hvt] at hv
        exact h.owner u v c hu hv
  · obtain ⟨hlt, hz⟩ := hc
    have hlt : c < s.next + 1 := hlt
    by_cases hnext : c = s.next
    · exact Or.inr ⟨t, by rw [hself, owns_create, hnext]⟩
    · refine (h.alive c ⟨by omega, hz⟩).imp id (fun ⟨u, hu⟩ => ⟨u, ?_⟩)
      have hut : u ≠ t := by
        rintro rfl
        rw [hpc] at hu
        rcases hu with hu | hu <;> cases hu
      rw [hother u hut]
      exact hu
  · exact ⟨(h.once c).1, fun hle => (h.once c).2 (Nat.le_of_succ_le hle)⟩

omit [DecidableEq D] in
/-- A core that is published is nobody's to destroy. -/
theorem Inv.publish (h : s.Inv dso) {t : T} {c : Nat} (hpc : s.pc t = .create c) (hcell : s.cell = none) :
    ({ s with cell := some c }.moved t (.store c) : InitSys D T).Inv dso := by
  have hself : ({ s with cell := some c }.moved t (.store c) : InitSys D T).pc t = .store c := Function.update_self ..
  have hother : ∀ u, u ≠ t → ({ s with cell := some c }.moved t (.store c) : InitSys D T).pc u = s.pc u :=
    fun u hu => Function.update_of_ne hu _ _
  have hmine : Owns (s.pc t) c := by rw [hpc, owns_create]
  have hstore : ∀ k, ¬ Owns (.store c) k := fun k hk => by rcases hk with hk | hk <;> cases hk
  have howns : ∀ u k, Owns (({ s with cell := some c }.moved t (.store c) : InitSys D T).pc u) k → u ≠ t ∧ Owns (s.pc u) k :=
    fun u k hk => by
      by_cases hut : u = t
      · rw [hut, hself] at hk
        exact absurd hk (hstore k)
      · rw [hother u hut] at hk
        exact ⟨hut, hk⟩
  refine ⟨fun d k hk => ?_, fun u => ?_, fun k hk => ?_, fun u k hk => h.owned u k (howns u k hk).2,
    fun u v k hu hv => h.owner u v k (howns u k hu).2 (howns v k hv).2, fun k hk => ?_, h.once⟩
  · have hnone := h.stored d k hk
    rw [hcell] at hnone
    cases hnone
  · by_cases hu : u = t
    · rw [hu, hself]
      rfl
    · rw [hother u hu]
      refine (h.pcs u).mono (fun k hk => ?_) (fun hne => hne)
      rw [hcell] at hk
      cases hk
  · obtain rfl := Option.some.inj hk
    refine ⟨h.owned t c hmine, fun u hu => ?_⟩
    obtain ⟨hut, hu⟩ := howns u c hu
    exact hut (h.owner u t c hu hmine)
  · rcases h.alive k hk with hsome | ⟨u, hu⟩
    · rw [hcell] at hsome
      cases hsome
    · by_cases hut : u = t
      · subst hut
        rw [hpc, owns_create] at hu
        exact Or.inl (by rw [hu]; rfl)
      · exact Or.inr ⟨u, by rw [hother u hut]; exact hu⟩

omit [DecidableEq D] in
/-- A core that lost is destroyed by its thread. -/
theorem Inv.discard (h : s.Inv dso) {t : T} {c : Nat} (hpc : s.pc t = .discard c) :
    ({ s with destroyed := Function.update s.destroyed c (s.destroyed c + 1) }.moved t .reread : InitSys D T).Inv dso := by
  generalize hs' : ({ s with destroyed := Function.update s.destroyed c (s.destroyed c + 1) }.moved t .reread :
    InitSys D T) = s'
  have hself : s'.pc t = .reread := by rw [← hs']; exact Function.update_self ..
  have hother : ∀ u, u ≠ t → s'.pc u = s.pc u := fun u hu => by rw [← hs']; exact Function.update_of_ne hu _ _
  have hcell : s'.cell = s.cell := by rw [← hs']; rfl
  have hinst : s'.gpInstance = s.gpInstance := by rw [← hs']; rfl
  have hnext : s'.next = s.next := by rw [← hs']; rfl
  have hgone : s'.destroyed c = s.destroyed c + 1 := by rw [← hs']; exact Function.update_self ..
  have hkeep : ∀ k, k ≠ c → s'.destroyed k = s.destroyed k := fun k hk => by rw [← hs']; exact Function.update_of_ne hk _ _
  have hmine : Owns (s.pc t) c := by rw [hpc, owns_discard]
  obtain ⟨hlt, hz⟩ := h.owned t c hmine
  have hok := h.pcs t
  rw [hpc] at hok
  have howns : ∀ u k, Owns (s'.pc u) k → k ≠ c ∧ Owns (s.pc u) k := fun u k hk => by
    by_cases hut : u = t
    · rw [hut, hself] at hk
      rcases hk with hk | hk <;> cases hk
    · rw [hother u hut] at hk
      refine ⟨?_, hk⟩
      rintro rfl
      exact hut (h.owner u t k hk hmine)
  have halive : ∀ k, k ≠ c → s.Alive k → s'.Alive k := fun k hk ha => ⟨hnext ▸ ha.1, by rw [hkeep k hk]; exact ha.2⟩
  refine ⟨fun d k hk => ?_, fun u => ?_, fun k hk => ?_, fun u k hk => ?_, fun u v k hu hv => ?_, fun k hk => ?_, fun k => ?_⟩
  · rw [hcell]
    exact h.stored d k (hinst ▸ hk)
  · by_cases hu : u = t
    · rw [hu, hself]
      exact fun hn => hok (hcell ▸ hn)
    · rw [hother u hu]
      exact (h.pcs u).mono (fun k hk => hcell ▸ hk) (fun hne => hinst ▸ hne)
  · obtain ⟨ha, hno⟩ := h.published k (hcell ▸ hk)
    have hne : k ≠ c := by
      rintro rfl
      exact hno t hmine
    exact ⟨halive k hne ha, fun u hu => hno u (howns u k hu).2⟩
  · obtain ⟨hne, hk⟩ := howns u k hk
    exact halive k hne (h.owned u k hk)
  · exact h.owner u v k (howns u k hu).2 (howns v k hv).2
  · obtain ⟨hlt', hz'⟩ := hk
    have hne : k ≠ c := by
      rintro rfl
      omega
    rw [hkeep k hne] at hz'
    rcases h.alive k ⟨hnext ▸ hlt', hz'⟩ with hsome | ⟨u, hu⟩
    · exact Or.inl (hcell ▸ hsome)
    · have hut : u ≠ t := by
        rintro rfl
        rw [hpc, owns_discard] at hu
        exact hne hu
      exact Or.inr ⟨u, by rw [hother u hut]; exact hu⟩
  · rw [hnext]
    by_cases hk : k = c
    · rw [hk, hgone, hz]
      exact ⟨Nat.le_refl _, fun hle => absurd hlt (Nat.not_lt.mpr hle)⟩
    · rw [hkeep k hk]
      exact h.once k

/-- The published core is stored in a `gp_instance`, and the call returns. -/
theorem Inv.store (h : s.Inv dso) {t : T} {c : Nat} {handle : D → Bool} (hcell : s.cell = some c)
    (howns : ∀ k, Owns (.done true) k ↔ Owns (s.pc t) k) :
    ({ s with gpInstance := Function.update s.gpInstance (dso t) (some c), shmHandle := handle }.moved t (.done true) :
      InitSys D T).Inv dso := by
  refine h.move rfl rfl rfl rfl (fun d k hk => ?_) (fun d hne => ?_) ⟨rfl, ?_⟩ howns
  · by_cases hd : d = dso t
    · subst hd
      have hself : Function.update s.gpInstance (dso t) (some c) (dso t) = some k := hk
      rw [Function.update_self] at hself
      rw [hcell, hself]
    · have hold : Function.update s.gpInstance (dso t) (some c) d = some k := hk
      rw [Function.update_of_ne hd] at hold
      exact h.stored d k hold
  · show Function.update s.gpInstance (dso t) (some c) d ≠ none
    by_cases hd : d = dso t
    · rw [hd, Function.update_self]
      exact fun he => (by cases he)
    · rw [Function.update_of_ne hd]
      exact hne
  · show Function.update s.gpInstance (dso t) (some c) (dso t) ≠ none
    rw [Function.update_self]
    exact fun he => (by cases he)

/-- One step keeps the invariant. -/
theorem Inv.step (h : s.Inv dso) {e : InitEv T} (hs : s.step dso e = .ok s') : s'.Inv dso := by
  cases e with
  | call t =>
    dsimp only [InitSys.step] at hs
    split at hs
    · rename_i hpc
      cases hs
      exact h.move rfl rfl rfl rfl h.stored (fun _ hne => hne) trivial
        (not_owns_iff (by simp [hpc, Owns]) (by simp [Owns]))
    · rename_i r hpc
      cases hs
      exact h.move rfl rfl rfl rfl h.stored (fun _ hne => hne) trivial
        (not_owns_iff (by simp [hpc, Owns]) (by simp [Owns]))
    · cases hs
  | go t =>
    have hok := h.pcs t
    dsimp only [InitSys.step] at hs
    split at hs
    · cases hs
    · cases hs
    · rename_i hpc
      cases hs
      refine h.move rfl rfl rfl rfl h.stored (fun _ hne => hne) ?_
        (not_owns_iff (by simp [hpc, Owns]) (fun c => by split <;> simp [Owns]))
      split
      · rename_i hsome
        exact ⟨rfl, fun hn => by rw [show s.gpInstance (dso t) = none from hn] at hsome; cases hsome⟩
      · trivial
    · rename_i hpc
      cases hs
      refine h.move rfl rfl rfl rfl h.stored (fun _ hne => hne) ?_
        (not_owns_iff (by simp [hpc, Owns]) (fun c => by split <;> simp [Owns]))
      split
      · rename_i c hc
        exact hc
      · trivial
    · rename_i hpc
      cases hs
      exact h.construct hpc
    · rename_i c hpc
      split at hs
      · rename_i hcell
        cases hs
        exact h.publish hpc hcell
      · rename_i k hcell
        cases hs
        refine h.move rfl rfl rfl rfl h.stored (fun _ hne => hne) ?_ (fun k => by rw [hpc, owns_create, owns_discard])
        show s.cell ≠ none
        rw [hcell]
        exact fun he => (by cases he)
    · rename_i c hpc
      cases hs
      rw [hpc] at hok
      exact h.store hok (not_owns_iff (by simp [hpc, Owns]) (by simp [Owns]))
    · rename_i c hpc
      cases hs
      exact h.discard hpc
    · rename_i hpc
      cases hs
      rw [hpc] at hok
      refine h.move rfl rfl rfl rfl h.stored (fun _ hne => hne) ?_
        (not_owns_iff (by simp [hpc, Owns]) (fun c => by split <;> simp [Owns]))
      split
      · rename_i c hc
        exact hc
      · rename_i hc
        exact absurd hc hok
    · rename_i c hpc
      cases hs
      rw [hpc] at hok
      exact h.store hok (not_owns_iff (by simp [hpc, Owns]) (by simp [Owns]))

/-- What is published stays published. -/
theorem step_cell {e : InitEv T} (hs : s.step dso e = .ok s') {c : Nat} (hc : s.cell = some c) : s'.cell = some c := by
  cases e with
  | call t =>
    dsimp only [InitSys.step] at hs
    split at hs <;> cases hs <;> exact hc
  | go t =>
    dsimp only [InitSys.step] at hs
    split at hs
    case h_6 k hpc =>
      rw [hc] at hs
      cases hs
      exact hc
    all_goals cases hs <;> exact hc

/-- The cell keeps its core on a run. -/
theorem run_cell {evs : List (InitEv T)} (hr : s.run dso evs = .ok s') {c : Nat} (hc : s.cell = some c) :
    s'.cell = some c :=
  Runs.run_induction (P := fun s : InitSys D T => s.cell = some c) hc (fun _ _ _ h hs => step_cell hs h) hr

/-- The steps a call has still to take, at most. -/
def left : InitPc → Nat
  | .check => 7
  | .read => 6
  | .construct => 5
  | .create _ => 4
  | .discard _ => 3
  | .reread => 2
  | .attach _ | .store _ => 1
  | .out | .done _ => 0

/-- A thread in the middle of a call can go on, and has fewer steps left then. -/
theorem go_left (s : InitSys D T) (t : T) (h : 0 < left (s.pc t)) :
    ∃ s', s.step dso (.go t) = .ok s' ∧ left (s'.pc t) < left (s.pc t) := by
  have hself : ∀ (s₁ : InitSys D T) pc, (s₁.moved t pc).pc t = pc := fun s₁ pc => Function.update_self ..
  simp only [InitSys.step]
  cases hpc : s.pc t with
  | out => simp [hpc, left] at h
  | done r => simp [hpc, left] at h
  | check =>
    refine ⟨_, rfl, ?_⟩
    rw [hself]
    split <;> simp [left]
  | read =>
    refine ⟨_, rfl, ?_⟩
    rw [hself]
    split <;> simp [left]
  | construct => exact ⟨_, rfl, by rw [hself]; simp [left]⟩
  | create c =>
    cases hcell : s.cell with
    | none => exact ⟨_, rfl, by rw [hself]; simp [left]⟩
    | some k => exact ⟨_, rfl, by rw [hself]; simp [left]⟩
  | store c => exact ⟨_, rfl, by rw [hself]; simp [left]⟩
  | discard c => exact ⟨_, rfl, by rw [hself]; simp [left]⟩
  | reread =>
    refine ⟨_, rfl, ?_⟩
    rw [hself]
    split <;> simp [left]
  | attach c => exact ⟨_, rfl, by rw [hself]; simp [left]⟩

/-- Nobody is in the middle of a call. -/
def Quiet (s : InitSys D T) : Prop := ∀ t, s.pc t = .out ∨ ∃ r, s.pc t = .done r

/-- However many threads in however many DSOs call `p8_initialize` at once, every call that returns returns true, and none can
be kept from returning; at most one core is ever published, whatever was stored in a `gp_instance` at any time is that core
and has not been destroyed, and no core is destroyed twice. Once all calls have returned, one core is alive, every DSO that
called has it, and each of the others was destroyed. -/
theorem single_instance {before since : List (InitEv T)} {s₀ : InitSys D T} (hbefore : init.run dso before = .ok s₀)
    (hsince : s₀.run dso since = .ok s) :
    (∀ t r, s.pc t = .done r → r = true) ∧
      (∀ t, 0 < left (s.pc t) → ∃ s', s.step dso (.go t) = .ok s' ∧ left (s'.pc t) < left (s.pc t)) ∧
      (∀ c, s₀.cell = some c → s.cell = some c) ∧
      (∀ d c, s₀.gpInstance d = some c → s.cell = some c ∧ s.Alive c) ∧
      (∀ c, s.destroyed c ≤ 1) ∧
      (s.Quiet → (∃ t, s.pc t ≠ .out) → ∃ c, s.cell = some c ∧ (∀ k, s.Alive k ↔ k = c) ∧
        (∀ t, s.pc t ≠ .out → s.gpInstance (dso t) = some c) ∧ ∀ k, k < s.next → k ≠ c → s.destroyed k = 1) := by
  have h₀ : s₀.Inv dso := Runs.run_induction (inv_init dso) (fun _ _ _ hinv hs => hinv.step hs) hbefore
  have h : s.Inv dso := Runs.run_induction h₀ (fun _ _ _ hinv hs => hinv.step hs) hsince
  refine ⟨fun t r hr => ?_, fun t ht => s.go_left t ht, fun c hc => run_cell hsince hc, fun d c hc => ?_, fun c => (h.once c).1,
    fun hquiet ⟨t, ht⟩ => ?_⟩
  · have hok := h.pcs t
    rw [hr] at hok
    exact hok.1
  · have hcell := run_cell hsince (h₀.stored d c hc)
    exact ⟨hcell, (h.published c hcell).1⟩
  · have hstored : ∀ u, s.pc u ≠ .out → ∃ c, s.gpInstance (dso u) = some c := fun u hu => by
      have hok := h.pcs u
      obtain ⟨r, hr⟩ := (hquiet u).resolve_left hu
      rw [hr] at hok
      exact Option.ne_none_iff_exists'.mp hok.2
    obtain ⟨c, hc⟩ := hstored t ht
    have hcell := h.stored _ c hc
    have hnobody : ∀ u k, ¬ Owns (s.pc u) k := fun u k hk => by
      rcases hquiet u with hu | ⟨r, hu⟩ <;> rw [hu] at hk <;> rcases hk with hk | hk <;> cases hk
    have hone : ∀ k, s.Alive k ↔ k = c := fun k => by
      refine ⟨fun hk => ?_, fun hk => hk ▸ (h.published c hcell).1⟩
      rcases h.alive k hk with hsome | ⟨u, hu⟩
      · exact Option.some.inj (hsome.symm.trans hcell)
      · exact absurd hu (hnobody u k)
    refine ⟨c, hcell, hone, fun u hu => ?_, fun k hk hne => ?_⟩
    · obtain ⟨k, hk⟩ := hstored u hu
      rw [hk, ← hcell]
      exact (h.stored _ k hk).symm
    · by_contra hd
      have hz : s.destroyed k = 0 := by
        have hle := (h.once k).1
        omega
      exact hne ((hone k).mp ⟨hk, hz⟩)

/-- Two threads of different DSOs that both construct a core. -/
def twoCallers : List (InitEv Bool) :=
  [.call true, .call false, .go true, .go false, .go true, .go false, .go true, .go false, .go false, .go true, .go true, .go true,
    .go false, .go true]

/-- Two callers race, each with a core of its own; the one that loses deletes it. -/
theorem single_instance_twoCallers : ∃ s : InitSys Bool Bool, init.run id twoCallers = .ok s ∧ s.next = 2 ∧
    s.gpInstance true = some 1 ∧ s.cell = some 1 ∧ s.destroyed 0 = 1 ∧ s.Alive 1 := by
  have hrun : ∃ s : InitSys Bool Bool, init.run id twoCallers = .ok s ∧ s.next = 2 ∧ s.gpInstance true = some 1 ∧
      s.destroyed 0 = 1 := ⟨_, rfl, rfl, rfl, rfl⟩
  obtain ⟨s, hs, hnext, hinst, hgone⟩ := hrun
  obtain ⟨-, -, -, hstored, -⟩ := single_instance hs (rfl : s.run id [] = .ok s)
  obtain ⟨hcell, halive⟩ := hstored true 1 hinst
  exact ⟨s, hs, hnext, hinst, hcell, hgone, halive⟩

end InitSys

end P8
