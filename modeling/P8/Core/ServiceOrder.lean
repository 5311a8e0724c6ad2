import P8.Core.Delivery

/-!
# ServiceOrder: descriptors and the data that refers to them

A sink is promised the descriptor batches before the data that refers to them. The worker moves the service buffers at the beginning
of its cycle and collects the data buffers later, and in between a descriptor can be registered and a record written that refers to
it: the data is then written in this cycle, and the descriptor in the next one. The promise is kept on exactly the runs in which no
buffer is collected that refers to a descriptor still in the service buffers, or to one too large for them.
-/

namespace P8

variable {W : Type} [DecidableEq W]

/-! ## What a record refers to -/

omit [DecidableEq W] in
/-- The buffers of a record refer to what its first one has referred to and to what the record does. -/
theorem WriterState.rotate_refs (refs : List DescKey) (k n : Nat) (b : Filled W) {d : DescKey} {t : Filled W}
    (ht : t ∈ (WriterState.rotate refs k n b).1 ++ [(WriterState.rotate refs k n b).2]) (hd : d ∈ t.refs) :
    d ∈ b.refs ∨ d ∈ refs := by
  induction k generalizing n b with
  | zero =>
    rw [List.mem_singleton.mp ht] at hd
    exact Or.inl hd
  | succ k ih =>
    rcases List.mem_cons.mp ht with rfl | ht
    · exact Or.inl hd
    · exact Or.inr ((ih (n + 1) ⟨b.writer, n, false, refs⟩ ht).elim id id)

omit [DecidableEq W] in
/-- A writer's buffers after a record refer to what they did before and to what the record does. -/
theorem WriterState.record_refs {st : WriterState W} {b : Filled W} (hb : st.buffer = some b) (refs : List DescKey) (k : Nat)
    (ending : RecordEnd) {d : DescKey} {t : Filled W} (ht : t ∈ (st.record refs k ending b).1.held) (hd : d ∈ t.refs) :
    (∃ u ∈ st.held, d ∈ u.refs) ∨ d ∈ refs := by
  have hheld : st.held = st.fragments ++ [b] := by rw [WriterState.held, hb, Option.toList_some]
  rw [hheld]
  have hspec := fun u hu => WriterState.rotate_refs refs k st.next { b with refs := b.refs ++ refs } (d := d) (t := u) hu
  unfold WriterState.record at ht
  generalize WriterState.rotate refs k st.next { b with refs := b.refs ++ refs } = r at ht hspec
  -- a discarded record leaves only what was parked before it
  have hmem : t ∈ st.fragments ∨ t ∈ r.1 ++ [r.2] := by
    cases ending with
    | kept => simpa [WriterState.held, or_assoc] using ht
    | parked => simpa [WriterState.held, or_assoc] using ht
    | discarded =>
      rw [WriterState.held] at ht
      simp only [List.append_assoc, List.take_left, Option.toList_none, List.append_nil] at ht
      exact Or.inl ht
  rcases hmem with hold | hnew
  · exact Or.inl ⟨t, List.mem_append_left _ hold, hd⟩
  · rcases hspec t hnew hd with hb' | hrefs
    · rcases List.mem_append.mp hb' with hb' | hrefs
      · exact Or.inl ⟨b, List.mem_append_right _ List.mem_cons_self, hb'⟩
      · exact Or.inr hrefs
    · exact Or.inr hrefs

namespace FlowSys

/-- A buffer that is on its way to the sink. -/
def Holds (s : FlowSys W) (t : Filled W) : Prop := t ∈ s.ready ∨ t ∈ s.batch ∨ ∃ w, t ∈ (s.writer w).held

/-- The invariant of the descriptors: each registered one is in one place, the worker has none of its own but in front of
`write_service`, and the buffers refer to registered ones only. -/
structure Described (s : FlowSys W) : Prop where
  places : ∀ d, s.svc.count d + s.oversized.count d + s.svcBatch.count d + (s.svcWritten.count d + s.svcDropped.count d) =
    if d ∈ s.registered then 1 else 0
  svcBatch : s.pc ≠ .writeSvc → s.svcBatch = []
  refs : ∀ t, s.Holds t → ∀ d ∈ t.refs, d ∈ s.registered

variable {s s' : FlowSys W} {w : W}

/-- A writer in another state: what it holds then, and what was there before. -/
theorem holds_setWriter {st : WriterState W} {t : Filled W} (ht : (s.setWriter w st).Holds t) : s.Holds t ∨ t ∈ st.held := by
  rcases ht with hready | hbatch | ⟨u, hu⟩
  · exact Or.inl (Or.inl hready)
  · exact Or.inl (Or.inr (Or.inl hbatch))
  · have hu' : t ∈ (Function.update s.writer w st u).held := hu
    by_cases huw : u = w
    · rw [huw, Function.update_self] at hu'
      exact Or.inr hu'
    · rw [Function.update_of_ne huw] at hu'
      exact Or.inl (Or.inr (Or.inr ⟨u, hu'⟩))

/-- A writer in another state that holds the same. -/
theorem holds_same (st : WriterState W) (hst : st.held = (s.writer w).held) {t : Filled W} (ht : (s.setWriter w st).Holds t) :
    s.Holds t :=
  (holds_setWriter ht).elim id (fun hin => Or.inr (Or.inr ⟨w, hst ▸ hin⟩))

/-- The worker moves buffers and makes none. -/
theorem workerStep_holds {signal : Bool} (hs : s.WorkerSteps signal s') {t : Filled W} (ht : s'.Holds t) : s.Holds t := by
  cases hs with
  | ready hpc =>
    rcases ht with hready | hbatch | hheld
    · cases hready
    · exact (List.mem_append.mp hbatch).elim (fun hb => Or.inr (Or.inl hb)) Or.inl
    · exact Or.inr (Or.inr hheld)
  | pull w ws hpc =>
    rcases ht with hready | hbatch | hheld
    · exact Or.inl hready
    · rcases List.mem_append.mp hbatch with hb | hw
      · exact Or.inr (Or.inl hb)
      · exact Or.inr (Or.inr ⟨w, hw⟩)
    · have hset : (s.setWriter w (s.writer w).emptied).Holds t := Or.inr (Or.inr hheld)
      exact (holds_setWriter hset).resolve_right (fun hin => (by cases hin))
  | flush hpc =>
    rcases ht with hready | hbatch | hheld
    · exact Or.inl hready
    · cases hbatch
    · exact Or.inr (Or.inr hheld)
  | wait | svc | writeSvc | drain | pulled | recycle => exact ht

/-- Only a record makes a buffer refer to something, and what it refers to is registered. -/
theorem step_refs {ev : FlowEv W} (hs : s.step ev = .ok s') {t : Filled W} (ht : s'.Holds t) {d : DescKey} (hd : d ∈ t.refs) :
    (∃ u, s.Holds u ∧ d ∈ u.refs) ∨ d ∈ s.registered := by
  cases step_cases hs with
  | register d fate hnew => exact Or.inl ⟨t, ht, hd⟩
  | attach w hphase hpos => exact Or.inl ⟨t, holds_same ((s.writer w).enter .attached) rfl ht, hd⟩
  | registerWriter w hphase hfree => exact Or.inl ⟨t, holds_same ((s.writer w).enter .live) rfl ht, hd⟩
  | park w hphase => exact Or.inl ⟨t, holds_same _ (WriterState.park_held _) ht, hd⟩
  | fetch w hphase hnone =>
    refine Or.inl ⟨t, (holds_setWriter ht).elim id (fun hin => ?_), hd⟩
    rw [WriterState.fetch_held hnone] at hin
    rcases List.mem_append.mp hin with hin | hnew
    · exact Or.inr (Or.inr ⟨w, hin⟩)
    · rw [List.mem_singleton.mp hnew] at hd
      cases hd
  | record w refs k ending b hbuffer hphase hrefs =>
    have hset : (s.setWriter w ((s.writer w).record refs k ending b).1).Holds t := ht
    rcases holds_setWriter hset with hold | hin
    · exact Or.inl ⟨t, hold, hd⟩
    · rcases WriterState.record_refs hbuffer refs k ending hin hd with ⟨u, hu, hdu⟩ | hnew
      · exact Or.inl ⟨u, Or.inr (Or.inr ⟨w, hu⟩), hdu⟩
      · exact Or.inr (hrefs d hnew)
  | corePush w hphase =>
    refine Or.inl ⟨t, ?_, hd⟩
    rcases ht with hready | hbatch | hheld
    · rcases List.mem_append.mp hready with hready | hin
      · exact Or.inl hready
      · exact Or.inr (Or.inr ⟨w, hin⟩)
    · exact Or.inr (Or.inl hbatch)
    · have hset : (s.setWriter w ((s.writer w).emptied.enter .pushed)).Holds t := Or.inr (Or.inr hheld)
      exact (holds_setWriter hset).resolve_right (fun hin => (by cases hin))
  | unregister w hphase hfree => exact Or.inl ⟨t, holds_same ((s.writer w).enter .unregistered) rfl ht, hd⟩
  | release w hphase => exact Or.inl ⟨t, holds_same ((s.writer w).enter .gone) rfl ht, hd⟩
  | coreRelease howned => exact Or.inl ⟨t, ht, hd⟩
  | worker signal s' hw => exact Or.inl ⟨t, workerStep_holds hw ht, hd⟩

/-- What a writer, or the owner of the core, does: it leaves the worker's own data and the descriptors alone. -/
theorem step_client {ev : FlowEv W} (hs : s.step ev = .ok s') (hworker : ∀ b, ev ≠ .worker b)
    (hregister : ∀ d fate, ev ≠ .register d fate) :
    ∃ writer registry refCount owned stopping ready rolledBack,
      s' = { s with
        writer := writer, registry := registry, refCount := refCount, owned := owned, stopping := stopping, ready := ready,
        rolledBack := rolledBack } := by
  cases step_cases hs with
  | register d fate hnew => exact absurd rfl (hregister d fate)
  | worker signal s' hw => exact absurd rfl (hworker signal)
  | _ => exact ⟨_, _, _, _, _, _, _, rfl⟩

omit [DecidableEq W] in
theorem described_init : (init : FlowSys W).Described where
  places := fun _ => rfl
  svcBatch := fun _ => rfl
  refs := by
    rintro t (ht | ht | ⟨w, ht⟩) <;> cases ht

/-- The worker passes the descriptors on. -/
theorem Described.workerStep (h : s.Described) {signal : Bool} (hs : s.WorkerSteps signal s') : s'.Described := by
  have hrefs : ∀ t, s'.Holds t → ∀ d ∈ t.refs, d ∈ s.registered := fun t ht => h.refs t (workerStep_holds hs ht)
  cases hs with
  | svc hpc =>
    refine { h with places := fun d => ?_, svcBatch := fun hne => absurd rfl hne, refs := hrefs }
    have hplaces := h.places d
    rw [h.svcBatch (by simp [hpc]), List.count_nil] at hplaces
    dsimp only
    rw [List.count_nil, ← hplaces]
    omega
  | writeSvc hpc =>
    refine { h with places := fun d => ?_, svcBatch := fun _ => rfl, refs := hrefs }
    have hplaces := h.places d
    dsimp only
    rw [List.count_nil, List.count_append, ← hplaces]
    omega
  | wait hpc hsignal => exact { h with svcBatch := fun _ => h.svcBatch (by simp [hpc]), refs := hrefs }
  | ready hpc | drain hpc | pulled hpc | pull w ws hpc | flush hpc | recycle hpc =>
    exact { h with svcBatch := fun _ => h.svcBatch (by simp [hpc]), refs := hrefs }

/-- A new descriptor goes to one place. -/
theorem Described.register (h : s.Described) {d : DescKey} {fate : EntryFate} (hs : s.step (.register d fate) = .ok s') :
    s'.Described := by
  obtain ⟨hnew, hs⟩ := when_eq_ok.mp hs
  cases hs
  refine ⟨fun e => ?_, h.svcBatch, fun t ht e he => List.mem_append_left _ (h.refs t ht e he)⟩
  have hplaces := h.places e
  have hcount : (if e ∈ s.registered ++ [d] then 1 else 0) = (if e ∈ s.registered then 1 else 0) + [d].count e := by
    by_cases hed : e = d
    · subst hed
      simp [hnew]
    · simp [hed, Ne.symm hed]
  dsimp only
  rw [hcount, ← hplaces]
  cases fate <;> simp only [List.count_append] <;> omega

/-- Every step keeps what is known of the places of descriptors. -/
theorem Described.step (h : s.Described) {ev : FlowEv W} (hs : s.step ev = .ok s') : s'.Described := by
  have hrefs : ∀ t, s'.Holds t → ∀ d ∈ t.refs, d ∈ s.registered := by
    intro t ht d hd
    rcases step_refs hs ht hd with ⟨u, hu, hdu⟩ | hreg
    · exact h.refs u hu d hdu
    · exact hreg
  cases ev with
  | register d fate => exact h.register hs
  | worker signal =>
    cases step_cases hs with
    | worker signal s' hw => exact h.workerStep hw
  | _ =>
    obtain ⟨_, _, _, _, _, _, _, rfl⟩ := step_client hs (by nofun) (by nofun)
    exact { h with refs := hrefs }

/-! ## The order -/

/-- The buffers that a step of the worker takes over: those in the ready queue, or those of the next writer. -/
def taken (s : FlowSys W) : FlowEv W → List (Filled W)
  | .worker _ =>
    match s.pc with
    | .ready => s.ready
    | .pull (w :: _) => (s.writer w).held
    | _ => []
  | _ => []

/-- The buffers that a step of the worker passes to `write_data`. -/
def passed (s : FlowSys W) : FlowEv W → List (Filled W)
  | .worker _ =>
    match s.pc with
    | .flush => s.batch
    | _ => []
  | _ => []

/-- What is passed to `write_data` refers to descriptors that have been passed to `write_service`, or were dropped for lack of a
buffer. -/
def DescriptorsFirst (s : FlowSys W) (ev : FlowEv W) (_ : Except Halt (FlowSys W)) : Prop :=
  ∀ t ∈ s.passed ev, ∀ d ∈ t.refs, d ∈ s.svcWritten ∨ d ∈ s.svcDropped

/-- What the worker takes over refers to no descriptor that is still in the service buffers, or that was too large for them. -/
def TakesKnown (s : FlowSys W) (ev : FlowEv W) (_ : Except Halt (FlowSys W)) : Prop :=
  ∀ t ∈ s.taken ev, ∀ d ∈ t.refs, d ∉ s.svc ∧ d ∉ s.oversized

instance {ev : FlowEv W} {r : Except Halt (FlowSys W)} : Decidable (s.DescriptorsFirst ev r) :=
  inferInstanceAs (Decidable (∀ t ∈ s.passed ev, ∀ d ∈ t.refs, d ∈ s.svcWritten ∨ d ∈ s.svcDropped))

instance {ev : FlowEv W} {r : Except Halt (FlowSys W)} : Decidable (s.TakesKnown ev r) :=
  inferInstanceAs (Decidable (∀ t ∈ s.taken ev, ∀ d ∈ t.refs, d ∉ s.svc ∧ d ∉ s.oversized))

/-- The same of the worker's batch. -/
def Known (s : FlowSys W) : Prop := ∀ t ∈ s.batch, ∀ d ∈ t.refs, d ∉ s.svc ∧ d ∉ s.oversized

/-- A step adds what it takes over to the worker's batch, or passes the batch on. -/
theorem step_batch {ev : FlowEv W} (hs : s.step ev = .ok s') :
    s'.batch = s.batch ++ s.taken ev ∨ s.pc = .flush ∧ s'.batch = [] ∧ s.taken ev = [] ∧ s.passed ev = s.batch := by
  cases step_cases hs with
  | worker signal s' hw =>
    cases hw with
    | wait hpc hsignal => simp [taken, passed, hpc]
    | svc hpc | writeSvc hpc | ready hpc | drain hpc | pulled hpc | pull w ws hpc | flush hpc | recycle hpc =>
      simp [taken, passed, hpc]
  | _ => exact Or.inl (List.append_nil _).symm

/-- What is in the service buffers stays there until the worker moves them, and what was too large stays so. -/
theorem step_waiting {ev : FlowEv W} (hs : s.step ev = .ok s') (hpc : s.pc ≠ .svc) {d : DescKey} (hd : d ∈ s.registered) :
    (d ∈ s'.svc ↔ d ∈ s.svc) ∧ (d ∈ s'.oversized ↔ d ∈ s.oversized) := by
  cases step_cases hs with
  | register e fate hnew =>
    have hne : d ≠ e := fun h => hnew (h ▸ hd)
    cases fate <;> simp [hne]
  | worker signal s' hw =>
    cases hw with
    | svc hsvc => exact absurd hsvc hpc
    | _ => exact ⟨Iff.rfl, Iff.rfl⟩
  | _ => exact ⟨Iff.rfl, Iff.rfl⟩

omit [DecidableEq W] in
/-- What a step passes to the sink is of the batch the worker holds. -/
theorem mem_passed {ev : FlowEv W} {t : Filled W} (ht : t ∈ s.passed ev) : s.pc = .flush ∧ t ∈ s.batch := by
  cases ev with
  | worker signal =>
    dsimp only [passed] at ht
    split at ht
    · rename_i hpc
      exact ⟨hpc, ht⟩
    · cases ht
  | _ => cases ht

omit [DecidableEq W] in
/-- What a step takes over is a buffer of a writer or of the ready queue. -/
theorem holds_taken {ev : FlowEv W} {t : Filled W} (ht : t ∈ s.taken ev) : s.Holds t := by
  cases ev with
  | worker signal =>
    dsimp only [taken] at ht
    split at ht
    · exact Or.inl ht
    · exact Or.inr (Or.inr ⟨_, ht⟩)
    · cases ht
  | _ => cases ht

/-- The worker knows of its batch after a step what it knew before and what it knows of the buffers it takes over. -/
theorem known_step (hinv : s.Inv) (h : s.Described) {ev : FlowEv W} (hs : s.step ev = .ok s')
    (hbatch : s'.batch = s.batch ++ s.taken ev) : s'.Known ↔ s.Known ∧ s.TakesKnown ev (.ok s') := by
  have hall : (s.Known ∧ s.TakesKnown ev (.ok s')) ↔ ∀ t ∈ s'.batch, ∀ d ∈ t.refs, d ∉ s.svc ∧ d ∉ s.oversized := by
    rw [hbatch]
    exact List.forall_mem_append.symm
  rw [hall]
  by_cases hpc : s.pc = .svc
  · -- the worker has no batch yet
    have hempty : s'.batch = [] := by
      rw [hbatch, hinv.batch (by rw [hpc]; rfl), List.nil_append]
      cases ev <;> simp [taken, hpc]
    simp [Known, hempty]
  · refine forall₂_congr (fun t ht => forall₂_congr (fun d hd => ?_))
    have hholds : s.Holds t := by
      rw [hbatch] at ht
      exact (List.mem_append.mp ht).elim (fun hb => Or.inr (Or.inl hb)) holds_taken
    obtain ⟨hsvc, hover⟩ := step_waiting hs hpc (h.refs t hholds d hd)
    rw [hsvc, hover]

omit [DecidableEq W] in
/-- A descriptor that waits no more, and was not too large, has been passed to `write_service` or was dropped. -/
theorem Described.settled_iff (h : s.Described) (hpc : s.pc ≠ .writeSvc) {d : DescKey} (hd : d ∈ s.registered) :
    d ∈ s.svcWritten ∨ d ∈ s.svcDropped ↔ d ∉ s.svc ∧ d ∉ s.oversized := by
  have hplaces := h.places d
  rw [h.svcBatch hpc, List.count_nil, if_pos hd] at hplaces
  simp only [← List.count_pos_iff]
  omega

omit [DecidableEq W] in
/-- A worker that is about to write its batch and knows it keeps the order, and only then. -/
theorem Described.known_iff (h : s.Described) (hpc : s.pc = .flush) :
    s.Known ↔ ∀ t ∈ s.batch, ∀ d ∈ t.refs, d ∈ s.svcWritten ∨ d ∈ s.svcDropped :=
  forall₂_congr (fun t ht => forall₂_congr (fun d hd =>
    (h.settled_iff (by simp [hpc]) (h.refs t (Or.inr (Or.inl ht)) d hd)).symm))

/-- What the worker takes over is known if the batch it goes to is known to the end. -/
theorem known_before (h : s.Inv ∧ s.Described) {ev : FlowEv W} (hs : s.step ev = .ok s')
    (hfirst : s.DescriptorsFirst ev (.ok s')) (hknown : s'.Known) : s.Known ∧ s.TakesKnown ev (.ok s') := by
  rcases step_batch hs with hbatch | ⟨hpc, -, htaken, hpassed⟩
  · exact (known_step h.1 h.2 hs hbatch).mp hknown
  · refine ⟨(h.2.known_iff hpc).mpr (fun t ht => hfirst t (by rwa [hpassed])), fun t ht => ?_⟩
    rw [htaken] at ht
    cases ht

/-- A step that takes over records only whose descriptors are known leaves such records only. -/
theorem known_after (h : s.Inv ∧ s.Described) {ev : FlowEv W} (hs : s.step ev = .ok s') (hknown : s.Known)
    (htakes : s.TakesKnown ev (.ok s')) : s'.Known := by
  rcases step_batch hs with hbatch | ⟨-, hempty, -, -⟩
  · exact (known_step h.1 h.2 hs hbatch).mpr ⟨hknown, htakes⟩
  · intro t ht
    rw [hempty] at ht
    cases ht

/-- If all that the worker takes over is known when it does, data follows its descriptors in the whole run; and in a run that does
not stop between a batch's beginning and its `write_data`, only then. -/
theorem descriptors_first_iff (evs : List (FlowEv W)) :
    (Runs.Along step TakesKnown init evs → Runs.Along step DescriptorsFirst init evs) ∧
      ∀ s, init.run evs = .ok s → s.batch = [] →
        (Runs.Along step DescriptorsFirst init evs ↔ Runs.Along step TakesKnown init evs) := by
  have hkeep : ∀ (s : FlowSys W) ev s', s.Inv ∧ s.Described → s.step ev = .ok s' → s'.Inv ∧ s'.Described :=
    fun s ev s' h hs => ⟨h.1.step hs, h.2.step hs⟩
  have hinit : (init : FlowSys W).Inv ∧ (init : FlowSys W).Described := ⟨inv_init, described_init⟩
  have hfirst : Runs.Along step TakesKnown init evs → Runs.Along step DescriptorsFirst (init : FlowSys W) evs := by
    intro h
    refine h.imp (I := fun s => (s.Inv ∧ s.Described) ∧ s.Known) (fun s ev hI _ t ht => ?_)
      (fun s ev s' hI hs hR => ⟨hkeep s ev s' hI.1 hs, known_after hI.1 hs hI.2 hR⟩) ⟨hinit, fun t ht => (by cases ht)⟩
    obtain ⟨hpc, hin⟩ := mem_passed ht
    exact (hI.1.2.known_iff hpc).mp hI.2 t hin
  refine ⟨hfirst, fun s hr hbatch => ⟨fun h => ?_, hfirst⟩⟩
  refine (h.of_pending (fun s => ¬ s.Known) hkeep (fun s ev s' hI hs hQ hor hknown => ?_) hinit hr
    (not_not_intro ?_)).2
  · obtain ⟨hbefore, htakes⟩ := known_before hI hs hQ hknown
    exact hor.elim (fun hno => hno hbefore) (fun hno => hno htakes)
  · intro t ht
    rw [hbatch] at ht
    cases ht

/-- A run of one writer whose record refers to a descriptor registered before the worker's cycle. -/
def inTime : List (FlowEv Unit) :=
  [.attach (), .registerWriter (), .register (.log 7) .stored, .fetch (), .record () [.log 7] 0 .kept] ++
    List.replicate 9 (.worker false)

/-- A record that is taken over behind its descriptor, which then is written first. -/
theorem descriptors_first_iff_inTime : Runs.Along step DescriptorsFirst init inTime ∧
    ∃ s, init.run inTime = .ok s ∧ s.svcWritten = [.log 7] ∧ s.written = [[⟨(), 0, false, [.log 7]⟩]] :=
  ⟨(descriptors_first_iff inTime).1 (by decide), _, rfl, rfl, rfl⟩

/-- A run in which the descriptor is registered, and the record written, after the worker has moved the service buffers. -/
def overtaking : List (FlowEv Unit) :=
  [.attach (), .registerWriter (), .worker false, .worker false, .register (.log 7) .stored, .fetch (),
    .record () [.log 7] 0 .kept] ++ List.replicate 6 (.worker false)

/-- The record reaches the sink before its descriptor. -/
theorem descriptors_first_false : ¬ Runs.Along step DescriptorsFirst init overtaking := by decide

end FlowSys

end P8
