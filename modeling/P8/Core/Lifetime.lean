import Mathlib.Data.Finset.Card
import P8.Steps

/-!
# Lifetime: which core the copies of the library refer to

A process loads the library several times, once for each DSO, and each copy has its own `gp_instance` and `gp_shm_handle`. The
copies find each other's core through a cell in shared memory. A core counts its references: the copy that creates it has one
and each writer has one. A copy that attaches to a core through the cell has none, but its `p8_release` gives one up all the
same; `attached` counts these, as a history.

Cores are numbered in the order of their construction. The operations of `c_shared` are not part of the repository: `create`
puts a pointer into the empty cell, `read` gives the pointer in it and `unlink` empties it.
-/

namespace P8

/-- How the construction of a core by `p8_initialize` ends: no core (a null configuration, no memory), a core that is not
initialized, or one that is. -/
inductive Construction where
  | none | invalid | valid
  deriving DecidableEq

/-- The copies of the library in a process and the writers of its threads. A writer that exists has a core or a null `mp_core`;
`refs` and `destroyed` are the reference counts of the cores and how often each was destroyed. -/
structure Process (D W : Type) where
  next : Nat
  refs : Nat → Nat
  destroyed : Nat → Nat
  cell : Option Nat
  gpInstance : D → Option Nat
  shmHandle : D → Bool
  writer : W → Option (Option Nat)
  attached : Nat → Nat

/-- The calls: `p8_initialize` with what its construction and `c_shared::create` give, `get_global_core` and whether it gets
the lock of the cell in time, `p8_release`, and a writer's constructor in a DSO and its destructor. -/
inductive ProcessEv (D W : Type) where
  | p8Initialize (d : D) (made : Construction) (create : Bool)
  | getGlobalCore (d : D) (locked : Bool)
  | p8Release (d : D)
  | construct (w : W) (d : D) (locked : Bool)
  | destroy (w : W)

namespace Process

variable {D W : Type} [DecidableEq D] [DecidableEq W]

/-- A process before the first call. -/
def init : Process D W :=
  { next := 0
    refs := fun _ => 0
    destroyed := fun _ => 0
    cell := none
    gpInstance := fun _ => none
    shmHandle := fun _ => false
    writer := fun _ => none
    attached := fun _ => 0 }

/-- A DSO takes the core of the cell as its own. -/
def attach (p : Process D W) (d : D) (c : Nat) : Process D W :=
  { p with
    gpInstance := Function.update p.gpInstance d (some c)
    attached := Function.update p.attached c (p.attached c + 1) }

/-- A new core that is deleted again. -/
def discardNew (p : Process D W) : Process D W :=
  { p with next := p.next + 1, destroyed := Function.update p.destroyed p.next 1 }

/-- A new core that a DSO has published. -/
def publish (p : Process D W) (d : D) : Process D W :=
  { p with
    next := p.next + 1
    refs := Function.update p.refs p.next 1
    cell := some p.next
    gpInstance := Function.update p.gpInstance d (some p.next)
    shmHandle := Function.update p.shmHandle d true }

/-- `p8_initialize`. -/
def p8Initialize (p : Process D W) (d : D) (made : Construction) (create : Bool) : Process D W :=
  match p.gpInstance d, p.cell with
  | some _, _ => p
  | none, some c => p.attach d c
  | none, none =>
    match made with
    | .none => p
    | .invalid => p.discardNew
    | .valid => if create then p.publish d else p.discardNew

/-- `cp8_core::get_global_core`. -/
def getGlobalCore (p : Process D W) (d : D) (locked : Bool) : Process D W × Option Nat :=
  match p.gpInstance d with
  | some c => (p, some c)
  | none =>
    match p.cell with
    | some c => if locked then (p.attach d c, some c) else (p, none)
    | none => (p, none)

/-- `cp8_core::addref`. -/
def addref (p : Process D W) (c : Nat) : Except Halt (Process D W) :=
  if p.destroyed c ≠ 0 then .error .badAccess else .ok { p with refs := Function.update p.refs c (p.refs c + 1) }

/-- `cp8_core::release`. -/
def releaseRef (p : Process D W) (c : Nat) : Except Halt (Process D W) :=
  if p.destroyed c ≠ 0 then .error .badAccess
  else if p.refs c = 1 then
    .ok { p with refs := Function.update p.refs c 0, destroyed := Function.update p.destroyed c (p.destroyed c + 1) }
  else .ok { p with refs := Function.update p.refs c (p.refs c - 1) }

/-- One call. -/
def step (p : Process D W) : ProcessEv D W → Except Halt (Process D W)
  | .p8Initialize d made create => .ok (p.p8Initialize d made create)
  | .getGlobalCore d locked => .ok (p.getGlobalCore d locked).1
  | .p8Release d =>
    match p.gpInstance d with
    | none => .ok p
    | some c => do
      let p ← { p with shmHandle := Function.update p.shmHandle d false, cell := none }.releaseRef c
      return { p with gpInstance := Function.update p.gpInstance d none }
  | .construct w d locked =>
    match p.writer w, p.getGlobalCore d locked with
    | some _, _ => .error .disabled
    | none, (p, none) => .ok { p with writer := Function.update p.writer w (some none) }
    | none, (p, some c) => do
      let p ← p.addref c
      return { p with writer := Function.update p.writer w (some (some c)) }
  | .destroy w =>
    match p.writer w with
    | none => .error .disabled
    | some none => .ok { p with writer := Function.update p.writer w none }
    | some (some c) => do
      let p ← p.releaseRef c
      return { p with writer := Function.update p.writer w none }

/-! ## What is safe -/

/-- A core that a DSO or a writer refers to. -/
def Held (p : Process D W) (c : Nat) : Prop := (∃ d, p.gpInstance d = some c) ∨ ∃ w, p.writer w = some (some c)

/-- What is to hold at all times: nobody refers to a core that was destroyed, and a core is destroyed once nobody does, and
once only. -/
structure Safe (p : Process D W) : Prop where
  alive : ∀ c, p.Held c → p.destroyed c = 0
  once : ∀ c, p.destroyed c ≤ 1
  collected : ∀ c, c < p.next → ¬ p.Held c → p.destroyed c = 1

/-- A call uses no core that was destroyed, and what it leaves is safe. -/
def StaysSafe (_ : Process D W) (_ : ProcessEv D W) (r : Except Halt (Process D W)) : Prop :=
  r ≠ .error .badAccess ∧ ∀ p', r = .ok p' → p'.Safe

/-- A call that gives up a reference to a core. -/
def GivesUp (p : Process D W) (c : Nat) : ProcessEv D W → Prop
  | .p8Release d => p.gpInstance d = some c
  | .destroy w => p.writer w = some (some c)
  | _ => False

/-- No call gives up the last reference to a core that a DSO has attached to. -/
def KeepsAttached (p : Process D W) (e : ProcessEv D W) (_ : Except Halt (Process D W)) : Prop :=
  ∀ c, p.GivesUp c e → p.refs c = 1 → p.attached c = 0

/-- The DSOs and the writers that refer to a core. -/
structure Holders (p : Process D W) (c : Nat) (ds : Finset D) (ws : Finset W) : Prop where
  dso : ∀ d, d ∈ ds ↔ p.gpInstance d = some c
  writer : ∀ w, w ∈ ws ↔ p.writer w = some (some c)

/-- Those who refer to a core that is alive are one more for each attachment than its references. -/
def Counted (p : Process D W) (c : Nat) : Prop :=
  0 < p.refs c ∧ ∃ ds ws, p.Holders c ds ws ∧ ds.card + ws.card = p.refs c + p.attached c

/-- The invariant of safe runs. -/
structure Inv (p : Process D W) : Prop where
  fresh : ∀ c, p.next ≤ c → p.destroyed c = 0 ∧ p.attached c = 0 ∧ ¬ p.Held c
  counted : ∀ c, c < p.next → p.destroyed c = 0 → p.Counted c
  dead : ∀ c, p.destroyed c ≠ 0 → p.destroyed c = 1 ∧ ¬ p.Held c
  published : ∀ c, p.cell = some c → ∃ d, p.gpInstance d = some c

section

omit [DecidableEq D] [DecidableEq W]

theorem inv_init : (init : Process D W).Inv where
  fresh := fun c _ => ⟨rfl, rfl, fun h => by rcases h with ⟨d, h⟩ | ⟨w, h⟩ <;> cases h⟩
  counted := fun c hc => absurd hc (Nat.not_lt_zero c)
  dead := fun c hc => absurd rfl hc
  published := fun c hc => (by cases hc)

variable {p p' : Process D W} {c : Nat}

/-- The same threads and DSOs refer to a core. -/
def SameHolders (p p' : Process D W) (c : Nat) : Prop :=
  (∀ d, p'.gpInstance d = some c ↔ p.gpInstance d = some c) ∧ ∀ w, p'.writer w = some (some c) ↔ p.writer w = some (some c)

/-- Whether a core is held does not change with a call about others. -/
theorem SameHolders.held (h : SameHolders p p' c) : p'.Held c ↔ p.Held c :=
  or_congr (exists_congr h.1) (exists_congr h.2)

/-- Nor does it change whether it is counted correctly. -/
theorem SameHolders.counted (h : SameHolders p p' c) (hrefs : p'.refs c = p.refs c) (hatt : p'.attached c = p.attached c)
    (hc : p.Counted c) : p'.Counted c := by
  obtain ⟨hpos, ds, ws, hh, hcard⟩ := hc
  refine ⟨hrefs ▸ hpos, ds, ws, ⟨fun d => ?_, fun w => ?_⟩, by rw [hrefs, hatt, hcard]⟩
  · rw [hh.dso, h.1]
  · rw [hh.writer, h.2]

/-- A counted core is held. -/
theorem Counted.held (h : p.Counted c) : p.Held c := by
  obtain ⟨hpos, ds, ws, hh, hcard⟩ := h
  rcases Finset.eq_empty_or_nonempty ds with rfl | ⟨d, hd⟩
  · rcases Finset.eq_empty_or_nonempty ws with rfl | ⟨w, hw⟩
    · simp at hcard
      omega
    · exact Or.inr ⟨w, (hh.writer w).mp hw⟩
  · exact Or.inl ⟨d, (hh.dso d).mp hd⟩

/-- Whoever refers to a core refers to one that exists and is alive. -/
theorem Inv.alive (h : p.Inv) (hc : p.Held c) : c < p.next ∧ p.destroyed c = 0 := by
  refine ⟨Nat.lt_of_not_le (fun hle => (h.fresh c hle).2.2 hc), ?_⟩
  by_contra hne
  exact (h.dead c hne).2 hc

/-- The invariant makes every reference safe. -/
theorem Inv.safe (h : p.Inv) : p.Safe where
  alive := fun _ hc => (h.alive hc).2
  once := fun c => by
    by_cases hc : p.destroyed c = 0
    · omega
    · rw [(h.dead c hc).1]
  collected := fun c hlt hc => by
    by_cases hz : p.destroyed c = 0
    · exact absurd (h.counted c hlt hz).held hc
    · exact (h.dead c hz).1

/-- A step that leaves the holders of every core alone, up to those of `c`. -/
theorem Inv.frame (h : p.Inv) (hother : ∀ k, k ≠ c → SameHolders p p' k ∧ p'.refs k = p.refs k ∧
      p'.attached k = p.attached k ∧ p'.destroyed k = p.destroyed k)
    (hnext : p'.next = p.next) (hlt : c < p.next) (hcell : p'.cell = none ∨ p'.cell = p.cell ∧ ∀ d k, k ≠ c →
      p.gpInstance d = some k → p'.gpInstance d = some k)
    (hpub : p'.cell = some c → ∃ d, p'.gpInstance d = some c) (hc : p'.destroyed c = 0 ∧ p'.Counted c ∨
      p'.destroyed c = 1 ∧ ¬ p'.Held c) : p'.Inv where
  fresh := fun k hk => by
    have hne : k ≠ c := by omega
    obtain ⟨hsame, -, hatt, hdes⟩ := hother k hne
    rw [hsame.held, hatt, hdes]
    exact h.fresh k (hnext ▸ hk)
  counted := fun k hk hz => by
    by_cases hne : k = c
    · subst hne
      rcases hc with ⟨-, hcount⟩ | ⟨hone, -⟩
      · exact hcount
      · omega
    · obtain ⟨hsame, hrefs, hatt, hdes⟩ := hother k hne
      exact hsame.counted hrefs hatt (h.counted k (hnext ▸ hk) (hdes ▸ hz))
  dead := fun k hz => by
    by_cases hne : k = c
    · subst hne
      rcases hc with ⟨hzero, -⟩ | hgone
      · exact absurd hzero hz
      · exact hgone
    · obtain ⟨hsame, -, -, hdes⟩ := hother k hne
      rw [hsame.held, hdes]
      exact h.dead k (hdes ▸ hz)
  published := fun k hk => by
    by_cases hne : k = c
    · exact hne ▸ hpub (hne ▸ hk)
    · rcases hcell with hnone | ⟨hsame, hkeep⟩
      · rw [hnone] at hk
        cases hk
      · obtain ⟨d, hd⟩ := h.published k (hsame ▸ hk)
        exact ⟨d, hkeep d k hne hd⟩

end

/-! ## What the calls keep -/

variable {p p' : Process D W} {c : Nat}

omit [DecidableEq W] in
/-- Attaching to the core of the cell keeps the invariant. -/
theorem Inv.attach (h : p.Inv) {d : D} (hnone : p.gpInstance d = none) (hcell : p.cell = some c) : (p.attach d c).Inv := by
  obtain ⟨e, he⟩ := h.published c hcell
  obtain ⟨hlt, hz⟩ := h.alive (Or.inl ⟨e, he⟩)
  have hinst : ∀ u, u ≠ d → (p.attach d c).gpInstance u = p.gpInstance u := fun u hu => Function.update_of_ne hu _ _
  have hself : (p.attach d c).gpInstance d = some c := Function.update_self ..
  refine h.frame (fun k hk => ⟨⟨fun u => ?_, fun w => Iff.rfl⟩, rfl, Function.update_of_ne hk _ _, rfl⟩) rfl hlt
    (Or.inr ⟨rfl, fun u k _ hu => ?_⟩) (fun _ => ⟨d, hself⟩) (Or.inl ⟨hz, ?_⟩)
  · by_cases hu : u = d
    · subst hu
      rw [hself, hnone]
      exact iff_of_false (fun he => hk (Option.some.inj he).symm) (fun he => by cases he)
    · rw [hinst u hu]
  · have hne : u ≠ d := by
      rintro rfl
      rw [hnone] at hu
      cases hu
    rw [hinst u hne]
    exact hu
  · obtain ⟨hpos, ds, ws, hh, hcard⟩ := h.counted c hlt hz
    have hd : d ∉ ds := by
      rw [hh.dso, hnone]
      exact fun he => by cases he
    refine ⟨hpos, insert d ds, ws, ⟨fun u => ?_, hh.writer⟩, ?_⟩
    · by_cases hu : u = d
      · subst hu
        simp [hself]
      · rw [Finset.mem_insert, or_iff_right hu, hinst u hu]
        exact hh.dso u
    · have hatt : (p.attach d c).attached c = p.attached c + 1 := Function.update_self ..
      have hrefs : (p.attach d c).refs c = p.refs c := rfl
      rw [Finset.card_insert_of_notMem hd, hatt, hrefs]
      omega

omit [DecidableEq D] [DecidableEq W] in
/-- Deleting a core that was not published keeps it. -/
theorem Inv.discardNew (h : p.Inv) : p.discardNew.Inv := by
  obtain ⟨-, -, hfree⟩ := h.fresh p.next (Nat.le_refl _)
  have hdes : ∀ k, k ≠ p.next → p.discardNew.destroyed k = p.destroyed k := fun k hk => Function.update_of_ne hk _ _
  refine ⟨fun k hk => ?_, fun k hk hz => ?_, fun k hz => ?_, h.published⟩
  · have hk : p.next + 1 ≤ k := hk
    rw [hdes k (by omega)]
    exact h.fresh k (by omega)
  · have hk : k < p.next + 1 := hk
    by_cases hne : k = p.next
    · subst hne
      have hone : p.discardNew.destroyed p.next = 1 := Function.update_self ..
      omega
    · rw [hdes k hne] at hz
      have hsame : SameHolders p p.discardNew k := ⟨fun _ => Iff.rfl, fun _ => Iff.rfl⟩
      exact hsame.counted rfl rfl (h.counted k (by omega) hz)
  · by_cases hne : k = p.next
    · subst hne
      exact ⟨Function.update_self .., hfree⟩
    · rw [hdes k hne] at hz ⊢
      exact h.dead k hz

omit [DecidableEq W] in
/-- Publishing one keeps it. -/
theorem Inv.publish (h : p.Inv) {d : D} (hnone : p.gpInstance d = none) : (p.publish d).Inv := by
  obtain ⟨hz, hatt, hfree⟩ := h.fresh p.next (Nat.le_refl _)
  have hinst : ∀ u, u ≠ d → (p.publish d).gpInstance u = p.gpInstance u := fun u hu => Function.update_of_ne hu _ _
  have hself : (p.publish d).gpInstance d = some p.next := Function.update_self ..
  have hsame : ∀ k, k ≠ p.next → SameHolders p (p.publish d) k := fun k hk => by
    refine ⟨fun u => ?_, fun w => Iff.rfl⟩
    by_cases hu : u = d
    · subst hu
      rw [hself, hnone]
      exact iff_of_false (fun he => hk (Option.some.inj he).symm) (fun he => by cases he)
    · rw [hinst u hu]
  refine ⟨fun k hk => ?_, fun k hk hk' => ?_, fun k hk => ?_, fun k hk => ?_⟩
  · have hk : p.next + 1 ≤ k := hk
    rw [(hsame k (by omega)).held]
    exact h.fresh k (by omega)
  · have hk : k < p.next + 1 := hk
    by_cases hne : k = p.next
    · subst hne
      have hrefs : (p.publish d).refs p.next = 1 := Function.update_self ..
      refine ⟨by rw [hrefs]; exact Nat.one_pos, {d}, ∅, ⟨fun u => ?_, fun w => ?_⟩, ?_⟩
      · by_cases hu : u = d
        · subst hu
          simp [hself]
        · rw [Finset.mem_singleton, hinst u hu]
          exact iff_of_false hu (fun he => hfree (Or.inl ⟨u, he⟩))
      · exact iff_of_false (Finset.notMem_empty w) (fun he => hfree (Or.inr ⟨w, he⟩))
      · have hatt' : (p.publish d).attached p.next = 0 := hatt
        rw [hrefs, hatt']
        rfl
    · exact (hsame k hne).counted (Function.update_of_ne hne _ _) rfl (h.counted k (by omega) hk')
  · have hne : k ≠ p.next := by
      rintro rfl
      exact hk hz
    rw [(hsame k hne).held]
    exact h.dead k hk
  · obtain rfl := Option.some.inj hk
    exact ⟨d, hself⟩

omit [DecidableEq D] in
/-- A writer without a core comes or goes. -/
theorem Inv.bare (h : p.Inv) {w : W} {v : Option (Option Nat)} (hold : ∀ c, p.writer w ≠ some (some c))
    (hnew : ∀ c, v ≠ some (some c)) : ({ p with writer := Function.update p.writer w v } : Process D W).Inv := by
  have hsame : ∀ k, SameHolders p { p with writer := Function.update p.writer w v } k := fun k => by
    refine ⟨fun _ => Iff.rfl, fun u => ?_⟩
    by_cases hu : u = w
    · subst hu
      dsimp only
      rw [Function.update_self]
      exact iff_of_false (hnew k) (hold k)
    · dsimp only
      rw [Function.update_of_ne hu]
  refine ⟨fun k hk => ?_, fun k hk hz => ?_, fun k hz => ?_, h.published⟩
  · rw [(hsame k).held]
    exact h.fresh k hk
  · exact (hsame k).counted rfl rfl (h.counted k hk hz)
  · rw [(hsame k).held]
    exact h.dead k hz

omit [DecidableEq D] in
/-- A writer with a core comes. -/
theorem Inv.bind (h : p.Inv) {w : W} (hnone : p.writer w = none) (hc : p.Held c) :
    ({ p with
        refs := Function.update p.refs c (p.refs c + 1)
        writer := Function.update p.writer w (some (some c)) } : Process D W).Inv := by
  obtain ⟨hlt, hz⟩ := h.alive hc
  refine h.frame (fun k hk => ⟨⟨fun _ => Iff.rfl, fun u => ?_⟩, Function.update_of_ne hk _ _, rfl, rfl⟩) rfl hlt
    (Or.inr ⟨rfl, fun _ _ _ hu => hu⟩) (fun hcell => h.published c hcell) (Or.inl ⟨hz, ?_⟩)
  · by_cases hu : u = w
    · subst hu
      dsimp only
      rw [Function.update_self, hnone]
      exact iff_of_false (fun he => hk (Option.some.inj (Option.some.inj he)).symm) (fun he => by cases he)
    · dsimp only
      rw [Function.update_of_ne hu]
  · obtain ⟨hpos, ds, ws, hh, hcard⟩ := h.counted c hlt hz
    have hw : w ∉ ws := by
      rw [hh.writer, hnone]
      exact fun he => by cases he
    refine ⟨?_, ds, insert w ws, ⟨hh.dso, fun u => ?_⟩, ?_⟩
    · dsimp only
      rw [Function.update_self]
      omega
    · dsimp only
      by_cases hu : u = w
      · subst hu
        simp
      · rw [Finset.mem_insert, or_iff_right hu, Function.update_of_ne hu]
        exact hh.writer u
    · dsimp only
      rw [Finset.card_insert_of_notMem hw, Function.update_self]
      omega

omit [DecidableEq D] [DecidableEq W] in
/-- Who gives up a reference to a core refers to it. -/
theorem givesUp_held {e : ProcessEv D W} (he : p.GivesUp c e) : p.Held c := by
  cases e with
  | p8Release d => exact Or.inl ⟨d, he⟩
  | destroy w => exact Or.inr ⟨w, he⟩
  | p8Initialize d made create => cases he
  | getGlobalCore d locked => cases he
  | construct w d locked => cases he

/-- One of those who refer to a core gives up a reference to it. -/
structure Drops (p p' : Process D W) (c : Nat) : Prop where
  refs : p'.refs = Function.update p.refs c (p.refs c - 1)
  destroyed : p'.destroyed = if p.refs c = 1 then Function.update p.destroyed c 1 else p.destroyed
  next : p'.next = p.next
  attached : p'.attached = p.attached
  others : ∀ k, k ≠ c → SameHolders p p' k
  one : ∀ ds ws, p.Holders c ds ws → ∃ ds' ws', p'.Holders c ds' ws' ∧ ds'.card + ws'.card + 1 = ds.card + ws.card
  cell : p'.cell = none ∨ p'.cell = p.cell ∧ p'.gpInstance = p.gpInstance

omit [DecidableEq D] [DecidableEq W] in
/-- A reference is given up that is not the last one, or the last one to a core without attachments. -/
theorem Inv.drop (h : p.Inv) (hd : Drops p p' c) (hc : p.Held c) (hlast : p.refs c = 1 → p.attached c = 0) : p'.Inv := by
  obtain ⟨hlt, hz⟩ := h.alive hc
  obtain ⟨hpos, ds, ws, hh, hcard⟩ := h.counted c hlt hz
  obtain ⟨ds', ws', hh', hone⟩ := hd.one ds ws hh
  have hcell : p'.cell = none ∨ p'.cell = p.cell ∧ ∀ d k, k ≠ c → p.gpInstance d = some k → p'.gpInstance d = some k :=
    hd.cell.imp id (fun hsame => ⟨hsame.1, fun d k _ hk => by rw [hsame.2]; exact hk⟩)
  refine h.frame (fun k hk => ⟨hd.others k hk, ?_, by rw [hd.attached], ?_⟩) hd.next hlt hcell (fun hpub => ?_) ?_
  · rw [hd.refs, Function.update_of_ne hk]
  · rw [hd.destroyed]
    split
    · exact Function.update_of_ne hk _ _
    · rfl
  · rcases hd.cell with hnone | ⟨hsame, hinst⟩
    · rw [hnone] at hpub
      cases hpub
    · rw [hinst]
      exact h.published c (hsame ▸ hpub)
  · by_cases hrefs : p.refs c = 1
    · right
      have hatt := hlast hrefs
      refine ⟨by rw [hd.destroyed, if_pos hrefs, Function.update_self], ?_⟩
      have hds : ds' = ∅ := Finset.card_eq_zero.mp (by omega)
      have hws : ws' = ∅ := Finset.card_eq_zero.mp (by omega)
      rintro (⟨d, he⟩ | ⟨w, he⟩)
      · have hmem := (hh'.dso d).mpr he
        rw [hds] at hmem
        exact absurd hmem (Finset.notMem_empty d)
      · have hmem := (hh'.writer w).mpr he
        rw [hws] at hmem
        exact absurd hmem (Finset.notMem_empty w)
    · left
      have hless : p'.refs c = p.refs c - 1 := by rw [hd.refs, Function.update_self]
      refine ⟨by rw [hd.destroyed, if_neg hrefs, hz], by omega, ds', ws', hh', ?_⟩
      rw [hless, hd.attached]
      omega

omit [DecidableEq D] [DecidableEq W] in
/-- The last reference is given up to a core that somebody attached to: he refers to a core that is gone. -/
theorem Inv.drop_unsafe (h : p.Inv) (hd : Drops p p' c) (hc : p.Held c) (hrefs : p.refs c = 1) (hatt : p.attached c ≠ 0) :
    ¬ p'.Safe := by
  intro hsafe
  obtain ⟨hlt, hz⟩ := h.alive hc
  obtain ⟨hpos, ds, ws, hh, hcard⟩ := h.counted c hlt hz
  obtain ⟨ds', ws', hh', hone⟩ := hd.one ds ws hh
  have hgone : p'.destroyed c = 1 := by rw [hd.destroyed, if_pos hrefs, Function.update_self]
  have hheld : p'.Held c := by
    rcases Finset.eq_empty_or_nonempty ds' with rfl | ⟨d, hd'⟩
    · rcases Finset.eq_empty_or_nonempty ws' with rfl | ⟨w, hw⟩
      · simp at hone
        omega
      · exact Or.inr ⟨w, (hh'.writer w).mp hw⟩
    · exact Or.inl ⟨d, (hh'.dso d).mp hd'⟩
  have hzero := hsafe.alive c hheld
  omega

omit [DecidableEq D] [DecidableEq W] in
/-- What `cp8_core::release` does to a core that is alive. -/
theorem releaseRef_alive (hz : p.destroyed c = 0) : p.releaseRef c = .ok
    { p with
      refs := Function.update p.refs c (p.refs c - 1)
      destroyed := if p.refs c = 1 then Function.update p.destroyed c 1 else p.destroyed } := by
  unfold releaseRef
  rw [if_neg (by omega)]
  split
  · rename_i hrefs
    simp [hrefs, hz]
  · rfl

/-- What `p8_release` does where the core is alive. -/
theorem p8Release_alive {d : D} (hd : p.gpInstance d = some c) (hz : p.destroyed c = 0) : p.step (.p8Release d) = .ok
    { p with
      refs := Function.update p.refs c (p.refs c - 1)
      destroyed := if p.refs c = 1 then Function.update p.destroyed c 1 else p.destroyed
      cell := none
      gpInstance := Function.update p.gpInstance d none
      shmHandle := Function.update p.shmHandle d false } := by
  simp only [Process.step, hd]
  rw [releaseRef_alive (p := { p with shmHandle := Function.update p.shmHandle d false, cell := none }) hz]
  rfl

/-- `p8_release` and a writer's destructor give up a reference. -/
theorem Inv.step_drops (h : p.Inv) {e : ProcessEv D W} (he : p.GivesUp c e) : ∃ p', p.step e = .ok p' ∧ Drops p p' c := by
  cases e with
  | p8Release d =>
    have hd : p.gpInstance d = some c := he
    obtain ⟨-, hz⟩ := h.alive (Or.inl ⟨d, hd⟩)
    refine ⟨_, p8Release_alive hd hz, ?_⟩
    refine ⟨rfl, rfl, rfl, rfl, fun k hk => ⟨fun u => ?_, fun _ => Iff.rfl⟩, fun ds ws hh => ?_, Or.inl rfl⟩
    · dsimp only
      by_cases hu : u = d
      · subst hu
        rw [Function.update_self, hd]
        exact iff_of_false (fun he => by cases he) (fun he => hk (Option.some.inj he).symm)
      · rw [Function.update_of_ne hu]
    · have hmem : d ∈ ds := (hh.dso d).mpr hd
      refine ⟨ds.erase d, ws, ⟨fun u => ?_, hh.writer⟩, ?_⟩
      · dsimp only
        by_cases hu : u = d
        · subst hu
          simp
        · rw [Finset.mem_erase, Function.update_of_ne hu, hh.dso]
          exact and_iff_right hu
      · have hcard := Finset.card_erase_add_one hmem
        omega
  | destroy w =>
    have hw : p.writer w = some (some c) := he
    obtain ⟨-, hz⟩ := h.alive (Or.inr ⟨w, hw⟩)
    refine ⟨_, by simp only [Process.step, hw]; rw [releaseRef_alive hz]; rfl, ?_⟩
    refine ⟨rfl, rfl, rfl, rfl, fun k hk => ⟨fun _ => Iff.rfl, fun u => ?_⟩, fun ds ws hh => ?_, Or.inr ⟨rfl, rfl⟩⟩
    · dsimp only
      by_cases hu : u = w
      · subst hu
        rw [Function.update_self, hw]
        exact iff_of_false (fun he => by cases he) (fun he => hk (Option.some.inj (Option.some.inj he)).symm)
      · rw [Function.update_of_ne hu]
    · have hmem : w ∈ ws := (hh.writer w).mpr hw
      refine ⟨ds, ws.erase w, ⟨hh.dso, fun u => ?_⟩, ?_⟩
      · dsimp only
        by_cases hu : u = w
        · subst hu
          simp
        · rw [Finset.mem_erase, Function.update_of_ne hu, hh.writer]
          exact and_iff_right hu
      · have hcard := Finset.card_erase_add_one hmem
        omega
  | p8Initialize d made create => cases he
  | getGlobalCore d locked => cases he
  | construct w d locked => cases he

omit [DecidableEq W] in
/-- `get_global_core` keeps the invariant, and gives a core that somebody refers to. -/
theorem Inv.getGlobalCore (h : p.Inv) (d : D) (locked : Bool) :
    (p.getGlobalCore d locked).1.Inv ∧ (p.getGlobalCore d locked).1.writer = p.writer ∧
      ∀ c, (p.getGlobalCore d locked).2 = some c → (p.getGlobalCore d locked).1.Held c := by
  unfold Process.getGlobalCore
  split
  · rename_i k hk
    exact ⟨h, rfl, fun c hc => Or.inl ⟨d, hk.trans hc⟩⟩
  · rename_i hnone
    split
    · rename_i k hk
      split
      · refine ⟨h.attach hnone hk, rfl, fun c hc => Or.inl ⟨d, ?_⟩⟩
        rw [← hc]
        exact Function.update_self ..
      · exact ⟨h, rfl, fun _ hc => by cases hc⟩
    · exact ⟨h, rfl, fun _ hc => by cases hc⟩

/-- A call that gives no reference up keeps the invariant. -/
theorem Inv.step_keeps (h : p.Inv) {e : ProcessEv D W} (he : ∀ c, ¬ p.GivesUp c e) :
    p.step e ≠ .error .badAccess ∧ ∀ p', p.step e = .ok p' → p'.Inv := by
  cases e with
  | p8Initialize d made create =>
    refine ⟨fun hb => (by cases hb), fun p' hs => ?_⟩
    cases hs
    unfold Process.p8Initialize
    split
    · exact h
    · rename_i hnone hcell
      exact h.attach hnone hcell
    · rename_i hnone hcell
      split
      · exact h
      · exact h.discardNew
      · split
        · exact h.publish hnone
        · exact h.discardNew
  | getGlobalCore d locked =>
    refine ⟨fun hb => (by cases hb), fun p' hs => ?_⟩
    cases hs
    exact (h.getGlobalCore d locked).1
  | p8Release d =>
    cases hd : p.gpInstance d with
    | some c => exact absurd hd (he c)
    | none =>
      simp only [Process.step, hd]
      exact ⟨fun hb => (by cases hb), fun p' hs => (by cases hs; exact h)⟩
  | construct w d locked =>
    obtain ⟨hinv, hwriter, hheld⟩ := h.getGlobalCore d locked
    simp only [Process.step]
    split
    · exact ⟨fun hb => (by cases hb), fun p' hs => (by cases hs)⟩
    · rename_i p₁ hnone hglobal
      rw [hglobal] at hinv hwriter
      have hw : p₁.writer w = none := by rw [hwriter]; exact hnone
      refine ⟨fun hb => (by cases hb), fun p' hs => ?_⟩
      cases hs
      exact hinv.bare (fun c hc => by rw [hw] at hc; cases hc) (fun c hc => by cases hc)
    · rename_i p₁ c hnone hglobal
      rw [hglobal] at hinv hwriter hheld
      have hw : p₁.writer w = none := by rw [hwriter]; exact hnone
      have hc : p₁.Held c := hheld c rfl
      have hz : ¬ p₁.destroyed c ≠ 0 := fun hne => hne (hinv.alive hc).2
      rw [Process.addref, if_neg hz]
      refine ⟨fun hb => (by cases hb), fun p' hs => ?_⟩
      cases hs
      exact hinv.bind hw hc
  | destroy w =>
    cases hw : p.writer w with
    | none =>
      simp only [Process.step, hw]
      exact ⟨fun hb => (by cases hb), fun p' hs => (by cases hs)⟩
    | some core =>
      cases core with
      | some c => exact absurd hw (he c)
      | none =>
        simp only [Process.step, hw]
        refine ⟨fun hb => (by cases hb), fun p' hs => ?_⟩
        cases hs
        exact h.bare (fun c hc => by rw [hw] at hc; cases hc) (fun c hc => by cases hc)

/-- One call is safe exactly when it does not give up the last reference to a core that a DSO has attached to. -/
theorem Inv.staysSafe_iff (h : p.Inv) (e : ProcessEv D W) :
    StaysSafe p e (p.step e) ↔ KeepsAttached p e (p.step e) := by
  by_cases he : ∃ c, p.GivesUp c e
  · obtain ⟨c, hc⟩ := he
    obtain ⟨p', hs, hd⟩ := h.step_drops hc
    have hheld := givesUp_held hc
    refine ⟨fun hsafe k hk hrefs => ?_, fun hkeep => ?_⟩
    · by_contra hatt
      obtain ⟨p₁, hs₁, hd₁⟩ := h.step_drops hk
      exact h.drop_unsafe hd₁ (givesUp_held hk) hrefs hatt (hsafe.2 p₁ hs₁)
    · rw [hs]
      refine ⟨fun hb => (by cases hb), fun p₁ hp₁ => ?_⟩
      cases hp₁
      exact (h.drop hd hheld (hkeep c hc)).safe
  · rw [not_exists] at he
    obtain ⟨hok, hinv⟩ := h.step_keeps he
    exact iff_of_true ⟨hok, fun p' hs => (hinv p' hs).safe⟩ (fun c hc => absurd hc (he c))

/-- A safe call keeps the invariant. -/
theorem Inv.step (h : p.Inv) {e : ProcessEv D W} (hs : p.step e = .ok p') (hsafe : StaysSafe p e (.ok p')) : p'.Inv := by
  by_cases he : ∃ c, p.GivesUp c e
  · obtain ⟨c, hc⟩ := he
    rw [← hs, h.staysSafe_iff] at hsafe
    obtain ⟨p₁, hs₁, hd⟩ := h.step_drops hc
    obtain rfl := Except.ok.inj (hs.symm.trans hs₁)
    exact h.drop hd (givesUp_held hc) (hsafe c hc)
  · rw [not_exists] at he
    exact (h.step_keeps he).2 p' hs

/-- The calls of a run leave no DSO and no writer with a core that is gone, and every core is destroyed once, when nobody refers
to it any more, exactly when no call gives up the last reference to a core that a DSO has attached to. -/
theorem lifetime_iff (evs : List (ProcessEv D W)) :
    Runs.Along step StaysSafe (init : Process D W) evs ↔ Runs.Along step KeepsAttached (init : Process D W) evs :=
  Runs.along_iff (fun _ e h => Inv.staysSafe_iff h e) (fun _ _ _ h hs hsafe => h.step hs hsafe) inv_init evs

/-- One DSO creates a core, a second attaches to it, and the first releases it: the second refers to a core that is gone. -/
theorem lifetime_false : ∃ evs : List (ProcessEv Nat Nat), ¬ Runs.Along step StaysSafe (init : Process Nat Nat) evs := by
  refine ⟨[.p8Initialize 0 .valid true, .p8Initialize 1 .valid true, .p8Release 0], fun ⟨_, h⟩ => ?_⟩
  obtain ⟨-, h⟩ := h _ rfl
  obtain ⟨⟨-, h⟩, -⟩ := h _ rfl
  have hzero := (h _ rfl).alive 0 (Or.inl ⟨1, rfl⟩)
  exact absurd hzero (by decide)

end Process

end P8
