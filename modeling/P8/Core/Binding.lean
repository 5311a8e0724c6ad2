import P8.Core.Lifetime

/-!
# Binding: the core a thread's records go to

The calls of one thread, in a process with one copy of the library. `p8_log_sent` and `p8_mtk_emit` have a `thread_local` writer
each, which their first call on the thread constructs. The writer takes `gp_instance` as it is at that moment and keeps it, a
null pointer too: it holds a reference to its core and does not look at `gp_instance` again.
-/

namespace P8

/-- The functions with a writer of their own: `p8_log_sent` and `p8_mtk_emit`. -/
inductive Tls where
  | log | mtk
  deriving DecidableEq

/-- How `send` or `emit` ends: without a core, refused for a reason of its own, or with a record in a buffer of a core. -/
inductive CallResult where
  | noCore
  | refused
  | accepted (core : Nat)
  deriving DecidableEq

/-- The calls of a thread. `room` says that the writer does not refuse the record for a reason of its own. -/
inductive ThreadEv where
  | p8Initialize (made : Construction) (create : Bool)
  | p8Release
  | call (k : Tls) (locked room : Bool)

/-- One copy of the library and the writers of one thread. -/
abbrev Thread : Type := Process Unit Tls

namespace Thread

/-- The writer of a call, constructed by the first one. -/
def writerOf (p : Thread) (k : Tls) (locked : Bool) : Except Halt Thread :=
  match p.writer k with
  | some _ => .ok p
  | none => Process.step p (.construct k () locked)

/-- How `send` or `emit` ends with a writer. -/
def result (p : Thread) (k : Tls) (room : Bool) : CallResult :=
  match p.writer k with
  | some (some c) => if room then .accepted c else .refused
  | _ => .noCore

/-- One call of the thread. -/
def step (p : Thread) : ThreadEv → Except Halt Thread
  | .p8Initialize made create => Process.step p (.p8Initialize () made create)
  | .p8Release => Process.step p (.p8Release ())
  | .call k locked _ => p.writerOf k locked

/-- A run of calls. -/
def run (p : Thread) (evs : List ThreadEv) : Except Halt Thread := Runs.run step p evs

/-- What the thread expects of a call: an accepted record goes to the core that is initialized, and with one initialized the call
is not rejected for lack of a core. -/
def Follows (p : Thread) (r : CallResult) : Prop :=
  (∀ c, r = .accepted c → p.gpInstance () = some c) ∧ (r = .noCore → p.gpInstance () = none)

/-- The thread has not called a function yet. -/
def NotYet (k : Tls) (evs : List ThreadEv) : Prop := ∀ locked room, ThreadEv.call k locked room ∉ evs

/-- The invariant of a thread alone: nobody attaches to a core. -/
structure Inv (p : Thread) : Prop where
  process : Process.Inv p
  cell : p.cell ≠ none → p.gpInstance () ≠ none
  attached : ∀ c, p.attached c = 0

theorem inv_init : Inv (Process.init : Thread) :=
  ⟨Process.inv_init, fun h => absurd rfl h, fun _ => rfl⟩

variable {p p' : Thread} {k : Tls}

/-- With one copy of the library, `get_global_core` gives `gp_instance`. -/
theorem Inv.getGlobalCore (h : Inv p) (locked : Bool) : Process.getGlobalCore p () locked = (p, p.gpInstance ()) := by
  unfold Process.getGlobalCore
  split
  · rename_i c hc
    rw [hc]
  · rename_i hnone
    split
    · rename_i c hc
      exact absurd hnone (h.cell (by rw [hc]; exact fun he => (by cases he)))
    · rw [hnone]

/-- A call of a function that has a writer, or constructs it. -/
theorem Inv.writerOf (h : Inv p) (k : Tls) (locked : Bool) : ∃ p', p.writerOf k locked = .ok p' ∧ Inv p' ∧
    p'.gpInstance = p.gpInstance ∧ p'.writer k = some ((p.writer k).getD (p.gpInstance ())) ∧
      ∀ j, j ≠ k → p'.writer j = p.writer j := by
  unfold Thread.writerOf
  split
  · rename_i v hv
    exact ⟨p, rfl, h, rfl, by rw [hv]; rfl, fun _ _ => rfl⟩
  · rename_i hnone
    have hglobal := h.getGlobalCore locked
    have hwriter : ∀ v : Option (Option Nat), (Function.update p.writer k v) k = v := fun v => Function.update_self ..
    have hothers : ∀ (v : Option (Option Nat)) (j : Tls), j ≠ k → (Function.update p.writer k v) j = p.writer j :=
      fun v j hj => Function.update_of_ne hj _ _
    have hkeeps := h.process.step_keeps (e := .construct k () locked) (fun _ he => by cases he)
    simp only [Process.step, hnone, hglobal] at hkeeps ⊢
    cases hinst : p.gpInstance () with
    | none =>
      rw [hinst] at hkeeps
      exact ⟨_, rfl, ⟨hkeeps.2 _ rfl, h.cell, h.attached⟩, rfl, hwriter _, hothers _⟩
    | some c =>
      have halive : ¬ p.destroyed c ≠ 0 := fun hne => hne (h.process.alive (Or.inl ⟨(), hinst⟩)).2
      rw [hinst] at hkeeps
      simp only [Process.addref, if_neg halive] at hkeeps ⊢
      exact ⟨_, rfl, ⟨hkeeps.2 _ rfl, h.cell, h.attached⟩, rfl, hwriter _, hothers _⟩

/-- Where a thread is alone, `p8_initialize` attaches to no core. -/
theorem Inv.p8Initialize (h : Inv p) (made : Construction) (create : Bool) :
    Inv (Process.p8Initialize p () made create) ∧ (Process.p8Initialize p () made create).writer = p.writer := by
  have hproc := (h.process.step_keeps (e := .p8Initialize () made create) (fun _ he => by cases he)).2 _ rfl
  have hrest : ((Process.p8Initialize p () made create).cell ≠ none →
        (Process.p8Initialize p () made create).gpInstance () ≠ none) ∧
      (Process.p8Initialize p () made create).attached = p.attached ∧
      (Process.p8Initialize p () made create).writer = p.writer := by
    unfold Process.p8Initialize
    split
    · exact ⟨h.cell, rfl, rfl⟩
    · rename_i c hnone hcell
      exact absurd hnone (h.cell (by rw [hcell]; exact fun he => (by cases he)))
    · split
      · exact ⟨h.cell, rfl, rfl⟩
      · exact ⟨h.cell, rfl, rfl⟩
      · split
        · exact ⟨fun _ he => (by cases he), rfl, rfl⟩
        · exact ⟨h.cell, rfl, rfl⟩
  exact ⟨⟨hproc, hrest.1, fun c => by rw [hrest.2.1]; exact h.attached c⟩, hrest.2.2⟩

/-- Releasing the core keeps the invariant and leaves the writers alone. -/
theorem Inv.p8Release (h : Inv p) (hs : Process.step p (.p8Release ()) = .ok p') : Inv p' ∧ p'.writer = p.writer := by
  cases hinst : p.gpInstance () with
  | none =>
    simp only [Process.step, hinst] at hs
    cases hs
    exact ⟨h, rfl⟩
  | some c =>
    have hkeep := (h.process.staysSafe_iff (.p8Release ())).mpr (fun c _ _ => h.attached c)
    have hproc := h.process.step hs (hs ▸ hkeep)
    rw [Process.p8Release_alive hinst (h.process.alive (Or.inl ⟨(), hinst⟩)).2] at hs
    cases hs
    exact ⟨⟨hproc, fun hne => absurd rfl hne, h.attached⟩, rfl⟩

/-- One call keeps the invariant, and changes no writer but that of a function called for the first time. -/
theorem Inv.step {e : ThreadEv} (h : Inv p) (hs : Thread.step p e = .ok p') :
    Inv p' ∧ ∀ k, (p.writer k ≠ none ∨ ∀ locked room, e ≠ .call k locked room) → p'.writer k = p.writer k := by
  cases e with
  | call j locked room =>
    obtain ⟨p₁, hp₁, hinv, -, hj, hother⟩ := h.writerOf j locked
    obtain rfl := Except.ok.inj (hp₁.symm.trans hs)
    refine ⟨hinv, fun k hk => ?_⟩
    by_cases hkj : k = j
    · subst hkj
      rcases hk with hk | hk
      · obtain ⟨v, hv⟩ := Option.ne_none_iff_exists'.mp hk
        rw [hj, hv]
        rfl
      · exact absurd rfl (hk locked room)
    · exact hother k hkj
  | p8Initialize made create =>
    cases hs
    obtain ⟨hinv, hwriter⟩ := h.p8Initialize made create
    exact ⟨hinv, fun k _ => by rw [hwriter]⟩
  | p8Release =>
    obtain ⟨hinv, hwriter⟩ := h.p8Release hs
    exact ⟨hinv, fun k _ => by rw [hwriter]⟩

/-- A writer that exists stays what it is, and one that does not exist does not come before the first call. -/
theorem Inv.run {evs : List ThreadEv} (h : Inv p) (hr : Thread.run p evs = .ok p') :
    Inv p' ∧ (p.writer k ≠ none ∨ NotYet k evs → p'.writer k = p.writer k) := by
  induction evs generalizing p with
  | nil =>
    cases hr
    exact ⟨h, fun _ => rfl⟩
  | cons e evs ih =>
    obtain ⟨p₁, hs, hrest⟩ := Runs.run_cons hr
    obtain ⟨hinv, hwriter⟩ := h.step hs
    obtain ⟨hinv', hrun⟩ := ih hinv hrest
    refine ⟨hinv', fun hk => ?_⟩
    have hone : p₁.writer k = p.writer k := hwriter k (hk.imp id (fun hn locked room he => hn locked room (by simp [he])))
    rw [← hone]
    refine hrun (hk.imp (fun hne => hone ▸ hne) (fun hn locked room hm => hn locked room (List.mem_cons_of_mem _ hm)))

/-- A thread's calls of a function work with the instance of the moment of the first of them: an accepted record goes to that
instance, which is still alive, and a call is rejected for lack of a core where there was none. So they follow the instance of
the moment exactly when it is that one. -/
theorem bound_at_first_call (k : Tls) {before since : List ThreadEv} {p₀ p : Thread} (hnot : NotYet k before)
    (hfirst : since = [] ∨ ∃ locked room rest, since = .call k locked room :: rest)
    (hbefore : Thread.run Process.init before = .ok p₀) (hsince : Thread.run p₀ since = .ok p) (locked : Bool) :
    ∃ p', p.writerOf k locked = .ok p' ∧
      (∀ room, result p' k room = match p₀.gpInstance () with
        | some c => if room then .accepted c else .refused
        | none => .noCore) ∧
      (∀ c, p₀.gpInstance () = some c → p'.destroyed c = 0) ∧
      ((∀ room, Follows p (result p' k room)) ↔ p₀.gpInstance () = p.gpInstance ()) := by
  obtain ⟨h₀, hnone⟩ := inv_init.run (k := k) hbefore
  have hnone : p₀.writer k = none := hnone (Or.inr hnot)
  obtain ⟨h, -⟩ := h₀.run (k := k) hsince
  -- the writer, once constructed, holds the instance of the first call
  have hbound : (p.writer k).getD (p.gpInstance ()) = p₀.gpInstance () := by
    rcases hfirst with rfl | ⟨l, r, rest, rfl⟩
    · cases hsince
      rw [hnone]
      rfl
    · obtain ⟨p₁, hs, hrest⟩ := Runs.run_cons hsince
      obtain ⟨p₂, hp₂, h₂, -, hk, -⟩ := h₀.writerOf k l
      obtain rfl := Except.ok.inj (hp₂.symm.trans hs)
      have hlate := (h₂.run (k := k) hrest).2 (Or.inl (by rw [hk]; exact fun he => (by cases he)))
      rw [hlate, hk, hnone]
      rfl
  obtain ⟨p', hp', h', hinst, hk, -⟩ := h.writerOf k locked
  rw [hbound] at hk
  have hresult : ∀ room, result p' k room = match p₀.gpInstance () with
      | some c => if room then .accepted c else .refused
      | none => .noCore := fun room => by
    rw [result, hk]
    cases p₀.gpInstance () <;> rfl
  refine ⟨p', hp', hresult, fun c hc => (h'.process.alive (Or.inr ⟨k, by rw [hk, hc]⟩)).2, ?_⟩
  simp only [hresult]
  cases p₀.gpInstance () with
  | none =>
    refine ⟨fun hf => ((hf true).2 rfl).symm, fun he room => ⟨fun c hc => (by cases hc), fun _ => he.symm⟩⟩
  | some c =>
    refine ⟨fun hf => ((hf true).1 c rfl).symm, fun he room => ⟨fun c' hc => ?_, fun hc => ?_⟩⟩
    · cases room with
      | true =>
        cases hc
        exact he.symm
      | false => cases hc
    · cases room <;> cases hc

/-- A thread that has logged before the first initialization. -/
theorem bound_at_first_call_early : ∃ p p', Thread.run Process.init [.call .log true true, .p8Initialize .valid true] = .ok p ∧
    p.writerOf .log true = .ok p' ∧ result p' .log true = .noCore := by
  obtain ⟨p', hp', hresult, -⟩ := @bound_at_first_call .log [] _ Process.init _ (fun _ _ h => by cases h)
    (Or.inr ⟨true, true, [.p8Initialize .valid true], rfl⟩) rfl rfl true
  exact ⟨_, p', rfl, hp', hresult true⟩

/-- Calls do not always follow the instance of the moment: where the thread has called before the first initialization, a later
call is rejected for lack of a core. -/
theorem follows_false : ¬ ∀ (evs : List ThreadEv) (p p' : Thread) (k : Tls) (locked room : Bool),
    Thread.run Process.init evs = .ok p → p.writerOf k locked = .ok p' → Follows p (result p' k room) := by
  intro h
  have hfollows := h [.call .log true true, .p8Initialize .valid true] _ _ .log true true rfl rfl
  exact absurd (hfollows.2 rfl) (fun he => by cases he)

end Thread

end P8
