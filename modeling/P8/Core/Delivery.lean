import Mathlib.Data.Finset.Card
import P8.Core.Tracks

/-!
# Delivery: every data buffer reaches the sink once, and in order

The invariant of a run follows the buffers over the places where they can be: a writer, the ready queue, the worker's batch, the
sink. A writer's buffers leave it all at once, so a record's buffers stay side by side; the ready queue holds buffers only of
writers that hold none any more, so what is pulled and what is queued do not change places. The worker ends only in a cycle begun
after the last reference was given up, and such a cycle leaves nothing behind.
-/

namespace P8

open Sources

variable {W : Type} [DecidableEq W]

/-! ## The invariant -/

/-- A writer that has handed over its buffers. -/
def WriterPhase.past : WriterPhase → Bool
  | .pushed | .unregistered | .gone => true
  | _ => false

/-- A writer that counts as a reference of its core. -/
def WriterPhase.counted : WriterPhase → Bool
  | .absent | .gone => false
  | _ => true

/-- The worker gathers its batch: it has moved the ready queue. -/
def CyclePc.gathering : CyclePc W → Bool
  | .drain | .pull _ | .flush => true
  | _ => false

/-- The worker has moved the ready queue in this cycle. -/
def CyclePc.collected : CyclePc W → Bool
  | .drain | .pull _ | .flush | .recycle | .done => true
  | _ => false

namespace FlowSys

/-- The buffers that were rolled back. -/
def gone (s : FlowSys W) : List (W × Nat) := s.rolledBack.map Filled.key

/-- The buffers that have left their writers, in the order in which they are or will be written. -/
def sent (s : FlowSys W) : List (Filled W) := s.written.flatten ++ s.batch ++ s.ready

/-- The invariant of the buffers: a writer's are as `Tracks` says, only a live writer holds any, and those in the ready queue are
of writers that hold none any more. -/
structure Inv (s : FlowSys W) : Prop where
  tracks : ∀ w, Tracks s.gone w (ofSource Filled.writer w s.sent) (s.writer w)
  idle : ∀ w, (s.writer w).phase ≠ .live → (s.writer w).held = []
  past : ∀ t ∈ s.ready, (s.writer t.writer).phase.past = true
  joined : ∀ batch ∈ s.written, Unbroken s.gone batch
  joinedBatch : Unbroken s.gone s.batch
  joinedReady : Unbroken s.gone s.ready
  batch : s.pc.gathering = false → s.batch = []
  recycled : s.recycled ++ s.flushed = s.written.flatten
  flushed : s.pc ≠ .recycle → s.flushed = []

/-- The invariant of the shutdown: the references are the owner's and the writers', the worker is told to stop when there are none,
and a cycle begun with the signal has left nothing in the ready queue. -/
structure Stopping (s : FlowSys W) : Prop where
  counted : ∃ ws : Finset W, (∀ w, w ∈ ws ↔ (s.writer w).phase.counted = true) ∧ s.refCount = ws.card + s.owned.toNat
  unowned : s.stopping = true ↔ s.refCount = 0
  signal : s.stop = true → s.stopping = true
  swept : s.stop = true → s.pc.collected = true → s.ready = []
  done : s.pc = .done → s.stop = true

omit [DecidableEq W] in
/-- A writer that does not exist holds nothing, and nothing of it is under way. -/
theorem tracks_init (w : W) : Tracks [] w [] ⟨.absent, [], none, 0⟩ where
  sorted := List.Pairwise.nil
  bound := fun _ h => (by cases h)
  lost := fun _ h => (by cases h)
  all := fun _ h => absurd h (Nat.not_lt_zero _)
  own := fun _ h => (by cases h)
  cur := fun _ h => (by cases h)
  joined := trivial

theorem inv_init : (init : FlowSys W).Inv where
  tracks := tracks_init
  idle := fun _ _ => rfl
  past := fun _ h => (by cases h)
  joined := fun _ h => (by cases h)
  joinedBatch := trivial
  joinedReady := trivial
  batch := fun _ => rfl
  recycled := rfl
  flushed := fun _ => rfl

omit [DecidableEq W] in
/-- Nobody counts on the worker yet. -/
theorem stopping_init : (init : FlowSys W).Stopping where
  counted := ⟨∅, fun _ => by simp [init, WriterPhase.counted], rfl⟩
  unowned := ⟨fun h => (by cases h), fun h => (by cases h)⟩
  signal := fun h => (by cases h)
  swept := fun h => (by cases h)
  done := fun h => (by cases h)

variable {s s' : FlowSys W} {w : W}

/-- A writer that is changed holds nothing outside of its life, if its new state does not. -/
theorem Inv.idle_update (h : s.Inv) {st : WriterState W} (hidle : st.phase ≠ .live → st.held = []) :
    ∀ u, (Function.update s.writer w st u).phase ≠ .live → (Function.update s.writer w st u).held = [] :=
  (Function.forall_update_iff s.writer (fun _ st => st.phase ≠ .live → st.held = [])).mpr ⟨hidle, fun u _ => h.idle u⟩

/-- The writers of the ready queue have their life behind them still. -/
theorem Inv.past_update (h : s.Inv) {st : WriterState W} (hpast : (s.writer w).phase.past = true → st.phase.past = true) :
    ∀ t ∈ s.ready, (Function.update s.writer w st t.writer).phase.past = true := by
  intro t ht
  have hold := h.past t ht
  by_cases htw : t.writer = w
  · rw [htw] at hold ⊢
    rw [Function.update_self]
    exact hpast hold
  · rw [Function.update_of_ne htw]
    exact hold

/-- A writer's buffers follow those sent. -/
theorem Inv.tracks_update (h : s.Inv) {st : WriterState W}
    (hst : Tracks s.gone w (ofSource Filled.writer w s.sent ++ (s.writer w).held) st) (u : W) :
    Tracks s.gone u (ofSource Filled.writer u s.sent ++ ofSource Filled.writer u (s.writer w).held)
      (Function.update s.writer w st u) := by
  by_cases hu : u = w
  · subst hu
    rw [ofSource_self (h.tracks u).own, Function.update_self]
    exact hst
  · rw [ofSource_other (h.tracks w).own (Ne.symm hu), List.append_nil, Function.update_of_ne hu]
    exact h.tracks u

/-- A writer does something to its buffers. -/
theorem Inv.setWriter (h : s.Inv) {st : WriterState W} {k : Nat} {rolled : List (Filled W)}
    (he : Extends s.gone w (s.writer w) st k rolled) (hidle : st.phase ≠ .live → st.held = [])
    (hpast : (s.writer w).phase.past = true → st.phase.past = true) :
    { s.setWriter w st with rolledBack := s.rolledBack ++ rolled }.Inv := by
  have hgone : ∀ x ∈ s.gone, x ∈ s.gone ++ rolled.map Filled.key := fun x hx => List.mem_append_left _ hx
  have hgone' : { s.setWriter w st with rolledBack := s.rolledBack ++ rolled }.gone = s.gone ++ rolled.map Filled.key :=
    List.map_append
  refine ⟨fun u => ?_, fun u hu => ?_, fun t ht => ?_, fun b hb => ?_, ?_, ?_, h.batch, h.recycled, h.flushed⟩
  · rw [hgone']
    show Tracks _ u (ofSource Filled.writer u s.sent) (Function.update s.writer w st u)
    by_cases hu : u = w
    · subst hu
      rw [Function.update_self]
      exact (h.tracks u).extends he
    · rw [Function.update_of_ne hu]
      exact (h.tracks u).other (Ne.symm hu) (fun t ht => he.own t (List.mem_append_right _ ht))
  · exact h.idle_update hidle u hu
  · exact h.past_update hpast t ht
  · rw [hgone']
    exact (h.joined b hb).mono hgone
  · rw [hgone']
    exact h.joinedBatch.mono hgone
  · rw [hgone']
    exact h.joinedReady.mono hgone

/-- A writer does something that rolls nothing back. -/
theorem Inv.setWriter' (h : s.Inv) {st : WriterState W} {k : Nat} (he : Extends s.gone w (s.writer w) st k [])
    (hidle : st.phase ≠ .live → st.held = []) (hpast : (s.writer w).phase.past = true → st.phase.past = true) :
    (s.setWriter w st).Inv := by
  have hs := h.setWriter he hidle hpast
  rw [List.append_nil] at hs
  exact hs

/-- A writer goes on in its life. -/
theorem Inv.enter (h : s.Inv) (w : W) (phase : WriterPhase) (hheld : (s.writer w).phase ≠ .live)
    (hpast : (s.writer w).phase.past = true → phase.past = true) : (s.setWriter w ((s.writer w).enter phase)).Inv :=
  h.setWriter' ((h.tracks w).enter phase) (fun _ => h.idle w hheld) hpast

/-- A destructor hands a writer's buffers over to the ready queue. -/
theorem Inv.corePush (h : s.Inv) (w : W) :
    { s.setWriter w ((s.writer w).emptied.enter .pushed) with ready := s.ready ++ (s.writer w).held }.Inv := by
  have hsent : ∀ u, ofSource Filled.writer u (s.written.flatten ++ s.batch ++ (s.ready ++ (s.writer w).held)) =
      ofSource Filled.writer u s.sent ++ ofSource Filled.writer u (s.writer w).held := by
    intro u
    simp [sent]
  have hst : Tracks s.gone w (ofSource Filled.writer w s.sent ++ (s.writer w).held) ((s.writer w).emptied.enter .pushed) :=
    { (h.tracks w).emptied with }
  refine ⟨fun u => ?_, h.idle_update (fun _ => rfl), fun t ht => ?_, h.joined, h.joinedBatch,
    h.joinedReady.append (h.tracks w).joined, h.batch, h.recycled, h.flushed⟩
  · show Tracks s.gone u (ofSource Filled.writer u (s.written.flatten ++ s.batch ++ (s.ready ++ (s.writer w).held)))
      (Function.update s.writer w _ u)
    rw [hsent]
    exact h.tracks_update hst u
  · rcases List.mem_append.mp ht with ht | ht
    · exact h.past_update (fun _ => rfl) t ht
    · show (Function.update s.writer w _ t.writer).phase.past = true
      rw [(h.tracks w).own t ht, Function.update_self]
      rfl

/-- The worker pulls what a writer holds. -/
theorem Inv.pull (h : s.Inv) {ws : List W} (hpc : s.pc = .pull (w :: ws)) :
    { s.setWriter w (s.writer w).emptied with batch := s.batch ++ (s.writer w).held, pc := .pull ws }.Inv := by
  have hown := (h.tracks w).own
  have hnone : ∀ u, ofSource Filled.writer u s.ready ++ ofSource Filled.writer u (s.writer w).held =
      ofSource Filled.writer u (s.writer w).held ++ ofSource Filled.writer u s.ready := by
    intro u
    by_cases hlive : (s.writer w).phase = .live
    · by_cases hu : u = w
      · subst hu
        have hready : ofSource Filled.writer u s.ready = [] := by
          refine List.filter_eq_nil_iff.mpr (fun t ht htu => ?_)
          have hpast := h.past t ht
          rw [of_decide_eq_true htu, hlive] at hpast
          cases hpast
        rw [hready, List.nil_append, List.append_nil]
      · rw [ofSource_other hown (Ne.symm hu), List.nil_append, List.append_nil]
    · rw [h.idle w hlive]
      simp [ofSource]
  have hsent : ∀ u, ofSource Filled.writer u (s.written.flatten ++ (s.batch ++ (s.writer w).held) ++ s.ready) =
      ofSource Filled.writer u s.sent ++ ofSource Filled.writer u (s.writer w).held := by
    intro u
    have hn := hnone u
    simp only [sent, ofSource_append, List.append_assoc] at hn ⊢
    rw [hn]
  refine ⟨fun u => ?_, h.idle_update (fun _ => rfl), h.past_update id, h.joined, h.joinedBatch.append (h.tracks w).joined,
    h.joinedReady, fun hg => (by cases hg), h.recycled, fun _ => h.flushed (by simp [hpc])⟩
  show Tracks s.gone u (ofSource Filled.writer u (s.written.flatten ++ (s.batch ++ (s.writer w).held) ++ s.ready))
    (Function.update s.writer w _ u)
  rw [hsent]
  exact h.tracks_update (h.tracks w).emptied u

/-- The worker's steps keep the invariant. -/
theorem Inv.workerStep (h : s.Inv) {signal : Bool} (hs : s.WorkerSteps signal s') : s'.Inv := by
  cases hs with
  | wait hpc hsignal =>
    exact { h with batch := fun _ => h.batch (by rw [hpc]; rfl), flushed := fun _ => h.flushed (by simp [hpc]) }
  | svc hpc | writeSvc hpc =>
    exact { h with batch := fun _ => h.batch (by rw [hpc]; rfl), flushed := fun _ => h.flushed (by simp [hpc]) }
  | ready hpc =>
    -- the ready queue comes in front of what is pulled
    have hbatch := h.batch (by rw [hpc]; rfl)
    refine { h with
      tracks := fun u => ?_, past := fun t ht => (by cases ht), joinedBatch := h.joinedBatch.append h.joinedReady,
      joinedReady := trivial, batch := fun hg => (by cases hg), flushed := fun _ => h.flushed (by simp [hpc]) }
    have htracks := h.tracks u
    simp only [sent, hbatch, List.append_nil, List.nil_append] at htracks ⊢
    exact htracks
  | drain hpc | pulled hpc =>
    exact { h with batch := fun hg => (by cases hg), flushed := fun _ => h.flushed (by simp [hpc]) }
  | pull w ws hpc => exact h.pull hpc
  | flush hpc =>
    have hflat : (if s.batch = [] then s.written else s.written ++ [s.batch]).flatten = s.written.flatten ++ s.batch := by
      split
      · rename_i hb
        rw [hb, List.append_nil]
      · simp
    refine { h with
      tracks := fun u => ?_, joined := fun b hb => ?_, joinedBatch := trivial, batch := fun _ => rfl, recycled := ?_,
      flushed := fun hne => absurd rfl hne }
    · have htracks := h.tracks u
      simp only [sent, hflat, List.append_nil] at htracks ⊢
      exact htracks
    · dsimp only at hb
      split at hb
      · exact h.joined b hb
      · rcases List.mem_append.mp hb with hb | hb
        · exact h.joined b hb
        · rw [List.mem_singleton.mp hb]
          exact h.joinedBatch
    · have hrec := h.recycled
      rw [h.flushed (by simp [hpc]), List.append_nil] at hrec
      dsimp only
      rw [hflat, hrec]
  | recycle hpc =>
    refine { h with
      batch := fun _ => h.batch (by rw [hpc]; rfl), recycled := ?_, flushed := fun _ => rfl }
    dsimp only
    rw [List.append_nil]
    exact h.recycled

/-- Every step keeps the invariant. -/
theorem Inv.step (h : s.Inv) {ev : FlowEv W} (hs : s.step ev = .ok s') : s'.Inv := by
  cases step_cases hs with
  | register d fate hnew => exact { h with }
  | attach w hphase hpos =>
    exact { h.enter w .attached (by simp [hphase]) (fun hp => by rw [hphase] at hp; cases hp) with }
  | registerWriter w hphase hfree =>
    exact { h.enter w .live (by simp [hphase]) (fun hp => by rw [hphase] at hp; cases hp) with }
  | park w hphase =>
    exact h.setWriter' (h.tracks w).park (fun hne => absurd ((s.writer w).park_phase.trans hphase) hne)
      (fun hp => by rwa [WriterState.park_phase])
  | fetch w hphase hnone =>
    exact h.setWriter' ((h.tracks w).fetch hnone) (fun hne => absurd hphase hne) (fun hp => hp)
  | record w refs rotations ending b hbuffer hphase hrefs =>
    have hrecord : ((s.writer w).record refs rotations ending b).1.phase = (s.writer w).phase := by
      cases ending <;> rfl
    exact h.setWriter ((h.tracks w).record hbuffer refs rotations ending) (fun hne => absurd (hrecord.trans hphase) hne)
      (fun hp => by rwa [hrecord])
  | corePush w hphase => exact h.corePush w
  | unregister w hphase hfree => exact { h.enter w .unregistered (by simp [hphase]) (fun _ => rfl) with }
  | release w hphase => exact { h.enter w .gone (by simp [hphase]) (fun _ => rfl) with }
  | coreRelease howned => exact { h with }
  | worker signal s' hw => exact h.workerStep hw

/-! ## The shutdown -/

omit [DecidableEq W] in
/-- A core that is told to stop has no writers. -/
theorem Stopping.not_counted (h : s.Stopping) (hstop : s.stopping = true) (u : W) : (s.writer u).phase.counted = false := by
  obtain ⟨ws, hws, hcount⟩ := h.counted
  rw [h.unowned.mp hstop] at hcount
  have hempty : ws = ∅ := Finset.card_eq_zero.mp (by omega)
  rw [hempty] at hws
  exact Bool.eq_false_iff.mpr (fun hu => Finset.notMem_empty u ((hws u).mpr hu))

/-- A writer's state is another one that counts as much. -/
theorem Stopping.setWriter (h : s.Stopping) (w : W) (st : WriterState W) (hst : st.phase.counted = (s.writer w).phase.counted) :
    (s.setWriter w st).Stopping := by
  obtain ⟨ws, hws, hcount⟩ := h.counted
  refine { h with counted := ⟨ws, fun u => ?_, hcount⟩ }
  show u ∈ ws ↔ (Function.update s.writer w st u).phase.counted = true
  by_cases hu : u = w
  · rw [hu, Function.update_self, hst]
    exact hws w
  · rw [Function.update_of_ne hu]
    exact hws u

omit [DecidableEq W] in
/-- A reference is given up, by a writer or by the owner. -/
theorem Stopping.releaseRef (h : s.Stopping) {writer : W → WriterState W} (ws : Finset W) (owned : Bool)
    (hws : ∀ u, u ∈ ws ↔ (writer u).phase.counted = true) (hcount : s.refCount = ws.card + owned.toNat + 1) :
    { s.releaseRef with writer := writer, owned := owned }.Stopping := by
  refine { h with
    counted := ⟨ws, hws, ?_⟩, unowned := ?_,
    signal := fun hstop => Bool.or_eq_true_iff.mpr (Or.inl (h.signal hstop)) }
  · show s.refCount - 1 = ws.card + owned.toNat
    omega
  · show (s.stopping || s.refCount == 1) = true ↔ s.refCount - 1 = 0
    rw [Bool.or_eq_true_iff, beq_iff_eq, h.unowned]
    omega

/-- The worker's steps keep what a shutdown relies on. -/
theorem Stopping.workerStep (h : s.Stopping) {signal : Bool} (hs : s.WorkerSteps signal s') : s'.Stopping := by
  cases hs with
  | wait hpc hsignal =>
    exact { h with signal := hsignal, swept := fun _ hc => (by cases hc), done := fun hd => (by cases hd) }
  | svc hpc | writeSvc hpc => exact { h with swept := fun _ hc => (by cases hc), done := fun hd => (by cases hd) }
  | ready hpc => exact { h with swept := fun _ _ => rfl, done := fun hd => (by cases hd) }
  | drain hpc | pulled hpc | flush hpc =>
    exact { h with swept := fun hstop _ => h.swept hstop (by rw [hpc]; rfl), done := fun hd => (by cases hd) }
  | pull w ws hpc =>
    have hset := h.setWriter w (s.writer w).emptied rfl
    exact { hset with swept := fun hstop _ => h.swept hstop (by rw [hpc]; rfl), done := fun hd => (by cases hd) }
  | recycle hpc =>
    refine { h with swept := fun hstop _ => h.swept hstop (by rw [hpc]; rfl), done := fun hd => ?_ }
    dsimp only at hd
    split at hd
    · assumption
    · cases hd

/-- A writer that takes a reference is one more. -/
theorem Stopping.attach (h : s.Stopping) {w : W} (hphase : (s.writer w).phase = .absent) (hpos : 0 < s.refCount) :
    { s.setWriter w ((s.writer w).enter .attached) with refCount := s.refCount + 1 }.Stopping := by
  obtain ⟨ws, hws, hcount⟩ := h.counted
  refine { h with
    counted := ⟨insert w ws, fun u => ?_, ?_⟩, unowned := ?_ }
  · show u ∈ insert w ws ↔ (Function.update s.writer w ((s.writer w).enter .attached) u).phase.counted = true
    rw [Finset.mem_insert]
    by_cases hu : u = w
    · rw [hu, Function.update_self]
      exact ⟨fun _ => rfl, fun _ => Or.inl rfl⟩
    · rw [Function.update_of_ne hu, hws u]
      exact ⟨fun hor => hor.resolve_left hu, Or.inr⟩
  · have hnew : w ∉ ws := fun hin => by
      have hcounted := (hws w).mp hin
      rw [hphase] at hcounted
      cases hcounted
    show s.refCount + 1 = (insert w ws).card + s.owned.toNat
    rw [Finset.card_insert_of_notMem hnew]
    omega
  · show s.stopping = true ↔ s.refCount + 1 = 0
    rw [h.unowned]
    omega

/-- A writer that gives its reference up is one less. -/
theorem Stopping.release (h : s.Stopping) {w : W} (hphase : (s.writer w).phase = .unregistered) :
    (s.setWriter w ((s.writer w).enter .gone)).releaseRef.Stopping := by
  obtain ⟨ws, hws, hcount⟩ := h.counted
  have hin : w ∈ ws := (hws w).mpr (by rw [hphase]; rfl)
  refine h.releaseRef (ws.erase w) s.owned (fun u => ?_) ?_
  · show u ∈ ws.erase w ↔ (Function.update s.writer w ((s.writer w).enter .gone) u).phase.counted = true
    rw [Finset.mem_erase]
    by_cases hu : u = w
    · rw [hu, Function.update_self]
      exact ⟨fun hand => absurd rfl hand.1, fun hc => (by cases hc)⟩
    · rw [Function.update_of_ne hu, hws u]
      exact ⟨fun hand => hand.2, fun hc => ⟨hu, hc⟩⟩
  · have hcard := Finset.card_erase_add_one hin
    omega

/-- Every step keeps the invariant of the shutdown. -/
theorem Stopping.step (h : s.Stopping) {ev : FlowEv W} (hs : s.step ev = .ok s') : s'.Stopping := by
  cases step_cases hs with
  | register d fate hnew => exact { h with }
  | attach w hphase hpos => exact h.attach hphase hpos
  | registerWriter w hphase hfree =>
    have hset := h.setWriter w ((s.writer w).enter .live) (by rw [hphase]; rfl)
    exact { hset with }
  | park w hphase => exact h.setWriter w (s.writer w).park (by rw [WriterState.park_phase])
  | fetch w hphase hnone => exact h.setWriter w ((s.writer w).fetch w) rfl
  | record w refs rotations ending b hbuffer hphase hrefs =>
    have hset := h.setWriter w ((s.writer w).record refs rotations ending b).1 (by cases ending <;> rfl)
    exact { hset with }
  | corePush w hphase =>
    have hset := h.setWriter w ((s.writer w).emptied.enter .pushed) (by rw [hphase]; rfl)
    refine { hset with swept := fun hstop _ => ?_ }
    have hnot := h.not_counted (h.signal hstop) w
    rw [hphase] at hnot
    cases hnot
  | unregister w hphase hfree =>
    have hset := h.setWriter w ((s.writer w).enter .unregistered) (by rw [hphase]; rfl)
    exact { hset with }
  | release w hphase => exact h.release hphase
  | coreRelease howned =>
    obtain ⟨ws, hws, hcount⟩ := h.counted
    refine h.releaseRef ws false hws ?_
    rw [hcount, howned]
    rfl
  | worker signal s' hw => exact h.workerStep hw

/-! ## The end of the worker -/

/-- The steps of a cycle begun with the signal to stop, and the one that gives it; a cycle begun without it has them to come. -/
def again (s : FlowSys W) : Nat := if s.stop = true then 0 else s.registry.length + 10

/-- How many steps the worker is away from its end, if the next event it waits for is the signal to stop. -/
def left (s : FlowSys W) : Nat :=
  match s.pc with
  | .wait => s.registry.length + 9
  | .svc => s.registry.length + 8 + s.again
  | .writeSvc => s.registry.length + 7 + s.again
  | .ready => s.registry.length + 6 + s.again
  | .drain => s.registry.length + 5 + s.again
  | .pull ws => ws.length + 3 + s.again
  | .flush => 2 + s.again
  | .recycle => 1 + s.again
  | .done => 0

/-- The worker of a core that is told to stop is never held up. -/
theorem workerStep_left (hstop : s.stopping = true) (hpc : s.pc ≠ .done) :
    ∃ s', s.step (.worker true) = .ok s' ∧ s'.stopping = true ∧ s'.left < s.left := by
  simp only [FlowSys.step, FlowSys.workerStep]
  cases hp : s.pc with
  | wait => exact ⟨_, when_eq_ok.mpr ⟨fun _ => hstop, rfl⟩, hstop, by simp [left, hp, again]⟩
  | svc => exact ⟨_, rfl, hstop, by simp only [left, hp, again]; omega⟩
  | writeSvc => exact ⟨_, rfl, hstop, by simp only [left, hp, again]; omega⟩
  | ready => exact ⟨_, rfl, hstop, by simp only [left, hp, again]; omega⟩
  | drain => exact ⟨_, rfl, hstop, by simp only [left, hp, again]; omega⟩
  | pull ws =>
    cases ws with
    | nil => exact ⟨_, rfl, hstop, by simp only [left, hp, again, List.length_nil]; omega⟩
    | cons w ws => exact ⟨_, rfl, hstop, by simp only [left, hp, again, setWriter, List.length_cons]; omega⟩
  | flush => exact ⟨_, rfl, hstop, by simp only [left, hp, again]; omega⟩
  | recycle =>
    refine ⟨_, rfl, hstop, ?_⟩
    cases hs : s.stop with
    | true => simp [left, hp, again, hs]
    | false =>
      simp only [left, hp, again, hs, Bool.false_eq_true, if_false]
      omega
  | done => exact absurd hp hpc

/-! ## The sink -/

/-- What the sink and the pool have seen of the data buffers. `ends` is about the destruction of the core: when its owner and all its
writers have given it up, the worker reaches its end. -/
structure Delivered (s : FlowSys W) : Prop where
  once : (s.written.flatten.map Filled.key).Nodup
  recycled : s.recycled ++ s.flushed = s.written.flatten
  ordered : ∀ w, ((ofSource Filled.writer w s.written.flatten).map Filled.serial).Pairwise (· < ·)
  adjacent : ∀ batch ∈ s.written, ∀ pre t post, batch = pre ++ t :: post → t.cont = true →
    (∃ u post', post = u :: post' ∧ u.writer = t.writer ∧ u.serial = t.serial + 1) ∨ (t.writer, t.serial + 1) ∈ s.gone
  kept : ∀ t ∈ s.written.flatten, t.serial < (s.writer t.writer).next ∧ t.key ∉ s.gone
  complete : s.pc = .done → s.recycled = s.written.flatten ∧
    ∀ w n, n < (s.writer w).next → (w, n) ∉ s.gone → (w, n) ∈ s.written.flatten.map Filled.key
  ends : s.owned = false → (∀ w, (s.writer w).phase = .absent ∨ (s.writer w).phase = .gone) →
    ∃ n s', s.run (List.replicate n (.worker true)) = .ok s' ∧ s'.pc = .done

omit [DecidableEq W] in
/-- A core that nothing refers to any more has been told to stop. -/
theorem Stopping.stopping (h : s.Stopping) (howned : s.owned = false)
    (hgone : ∀ w, (s.writer w).phase = .absent ∨ (s.writer w).phase = .gone) : s.stopping = true := by
  obtain ⟨ws, hws, hcount⟩ := h.counted
  have hempty : ws = ∅ := by
    refine Finset.eq_empty_of_forall_notMem (fun w hw => ?_)
    have hcounted := (hws w).mp hw
    rcases hgone w with hp | hp <;> rw [hp] at hcounted <;> cases hcounted
  rw [h.unowned, hcount, hempty, howned]
  rfl

/-- When the worker has ended, everything is where it should be. -/
theorem Inv.delivered (h : s.Inv) (hst : s.Stopping) : s.Delivered := by
  have hsource : ∀ w, ofSource Filled.writer w s.sent ++ (s.writer w).held =
      ofSource Filled.writer w s.written.flatten ++
        (ofSource Filled.writer w (s.batch ++ s.ready) ++ (s.writer w).held) := by
    intro w
    simp [sent]
  have hsorted : ∀ w, ((ofSource Filled.writer w s.written.flatten).map Filled.serial).Pairwise (· < ·) := by
    intro w
    have hall := (h.tracks w).sorted
    rw [hsource, List.map_append] at hall
    exact (List.pairwise_append.mp hall).1
  refine ⟨InOrder.nodup hsorted, h.recycled, hsorted, fun batch hb pre t post hl hc => (h.joined batch hb).next hl hc,
    fun t ht => ?_, fun hd => ?_, fun howned hgone => ?_⟩
  · have hmem : t.serial ∈ (ofSource Filled.writer t.writer s.sent ++ (s.writer t.writer).held).map Filled.serial := by
      rw [hsource]
      exact List.mem_map_of_mem (List.mem_append_left _ (mem_ofSource.mpr ⟨ht, rfl⟩))
    exact ⟨(h.tracks t.writer).bound _ hmem, fun hg => ((h.tracks t.writer).lost _ hg).2 hmem⟩
  · -- at the end of the worker there is no other place left for a buffer than the sink
    have hstop := hst.done hd
    have hflushed := h.flushed (by simp [hd])
    have hbatch := h.batch (by rw [hd]; rfl)
    have hready := hst.swept hstop (by rw [hd]; rfl)
    refine ⟨by rw [← h.recycled, hflushed, List.append_nil], fun w n hn hng => ?_⟩
    have hheld : (s.writer w).held = [] := by
      refine h.idle w (fun hlive => ?_)
      have hnot := hst.not_counted (hst.signal hstop) w
      rw [hlive] at hnot
      cases hnot
    have hin := ((h.tracks w).all n hn).resolve_right hng
    rw [hsource, hbatch, hready, hheld] at hin
    obtain ⟨t, ht, rfl⟩ := List.mem_map.mp hin
    have ht' : t ∈ ofSource Filled.writer w s.written.flatten := by simpa [ofSource] using ht
    obtain ⟨hwritten, rfl⟩ := mem_ofSource.mp ht'
    exact List.mem_map_of_mem hwritten
  · obtain ⟨n, s', hr', -, hdone⟩ :=
      Runs.run_until left (fun s' hs' hd => workerStep_left hs' hd) (hst.stopping howned hgone)
    exact ⟨n, s', hr', hdone⟩

/-- Of every number of writers and in every interleaving of their steps with the worker's, each data buffer that is not rolled back
reaches the sink once and is recycled once after that, a writer's buffers in the order it filled them, the fragments of a record
side by side; and when the core is gone, all of them have. -/
theorem data_delivered {s : FlowSys W} {evs : List (FlowEv W)} (hr : init.run evs = .ok s) : s.Delivered := by
  have hinv : s.Inv ∧ s.Stopping :=
    Runs.run_induction (P := fun s => s.Inv ∧ s.Stopping) ⟨inv_init, stopping_init⟩
      (fun _ _ _ h hs => ⟨h.1.step hs, h.2.step hs⟩) hr
  exact hinv.1.delivered hinv.2

/-- A run of two writers: one has a record of two fragments pulled and hands over another buffer at its end, as the other does. -/
def twoWriters : List (FlowEv Bool) :=
  [.attach false, .registerWriter false, .attach true, .registerWriter true, .register (.log 7) .stored, .fetch false,
    .record false [.log 7] 1 .kept] ++ List.replicate 10 (.worker false) ++
  [.fetch true, .record true [.log 7] 0 .kept, .fetch false, .record false [] 0 .parked, .corePush false, .unregister false,
    .release false, .corePush true, .unregister true, .release true, .coreRelease] ++ List.replicate 8 (.worker true)

/-- Two writers, one of which is pulled before the other one has registered. -/
theorem data_delivered_twoWriters :
    ∃ s, init.run twoWriters = .ok s ∧ s.pc = .done ∧
      s.written.map (List.map Filled.key) = [[(false, 0), (false, 1)], [(false, 2), (true, 0)]] ∧ s.Delivered := by
  have hrun : ∃ s, init.run twoWriters = .ok s ∧ s.pc = .done ∧
      s.written.map (List.map Filled.key) = [[(false, 0), (false, 1)], [(false, 2), (true, 0)]] := ⟨_, rfl, rfl, rfl⟩
  obtain ⟨s, hr, hend, hwritten⟩ := hrun
  exact ⟨s, hr, hend, hwritten, data_delivered hr⟩

end FlowSys

end P8
