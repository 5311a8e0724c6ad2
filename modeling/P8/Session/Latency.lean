import P8.Session.Calls
import P8.Session.Files

/-!
# Latency: how soon a record is in the data file

The worker works in cycles, and while it gathers a batch its writers go on. A record can just miss a batch: its writer has been
pulled already. It can miss the next one too: its writer has ended between the ready queue's being moved and its own pull, and its
buffers wait in the ready queue. The third batch has it (`data_file_recent`), whatever the writers and the worker do in between.
-/

namespace P8

open Bytes Framing Sources

namespace Session

variable {W B F : Type} [DecidableEq W] [DecidableEq B] {hash : CStr → UInt32 → UInt64} {ops : FileOps F}
  {contents : F → List UInt8} {writes : F → List Write} {hdr : Mem}
  {s s' : Session W B F} {metrics : W → Bool} {threadId : W → UInt32}

/-- The step is the worker's handing of its batch to the sink. -/
def flushes (s : Session W B F) : SessionEv W B → Bool
  | .worker _ _ => s.pc == .flush && !s.poll.busy
  | _ => false

/-- The calls of a writer among items. -/
def callsOf (w : W) (items : List (Laid W)) : List (W × Item) := (ofSource Laid.writer w items).map Laid.call

/-- The calls of a front are a front of the calls. -/
theorem callsOf_mono {w : W} {items items' : List (Laid W)} (h : items <+: items') : callsOf w items <+: callsOf w items' := by
  obtain ⟨l, rfl⟩ := h
  exact (ofSource_first w items l).map _

/-- The calls of a writer, told by the writer. -/
theorem callsOf_eq (w : W) (items : List (Laid W)) : ofSource Prod.fst w (items.map Laid.call) = callsOf w items :=
  List.filter_map

/-! ## How far items are -/

/-- How far some calls are when the worker has written `n` batches since they were accepted. Behind the first one they are in the
ready queue at the latest once their writer has been pulled, behind the second one in the next batch as soon as the ready queue has
been moved, and behind the third one they are written. -/
structure Stage (calls : W → List (W × Item)) (n : Nat) (s : Session W B F) (p : Placed W) : Prop where
  accepted : ∀ w, calls w <+: ofSource Prod.fst w s.accepted
  pulled : 1 ≤ n → ∀ ws, s.pc = .pull ws → ∀ w, w ∉ ws → calls w <+: callsOf w (p.out ++ p.next ++ p.queued)
  gathered : 1 ≤ n → s.pc = .flush → ∀ w, calls w <+: callsOf w (p.out ++ p.next ++ p.queued)
  shared : 2 ≤ n → ∀ w, calls w <+: callsOf w (p.out ++ p.next ++ p.queued)
  moved : 2 ≤ n → s.pc.gathering = true → ∀ w, calls w <+: callsOf w (p.out ++ p.next)
  written : 3 ≤ n → ∀ w, calls w <+: callsOf w p.out

variable {calls : W → List (W × Item)} {n : Nat} {p p' : Placed W}

omit [DecidableEq B] in
/-- Once the worker has pulled a writer, all it has accepted so far is on its way. -/
theorem Places.calls_eq (h : s.Places hash p) {w : W} (hnone : p.held w = []) :
    ofSource Prod.fst w s.accepted = callsOf w (p.out ++ p.next ++ p.queued) := by
  rw [h.accepted w, hnone, List.map_nil, List.append_nil]
  rfl

omit [DecidableEq B] in
/-- Steps that leave the worker where it is. -/
theorem Stage.of_pc (h : Stage calls n s p) (honward : s.Onward s' p p') (hpc : s'.pc = s.pc)
    (haccepted : ∀ w, ofSource Prod.fst w s.accepted <+: ofSource Prod.fst w s'.accepted) : Stage calls n s' p' where
  accepted w := (h.accepted w).trans (haccepted w)
  pulled hn ws hws w hw := (h.pulled hn ws (hpc ▸ hws) w hw).trans ((honward.queued w).map _)
  gathered hn hflush w := (h.gathered hn (hpc ▸ hflush) w).trans ((honward.queued w).map _)
  shared hn w := (h.shared hn w).trans ((honward.queued w).map _)
  moved hn hgather w := (h.moved hn (hpc ▸ hgather) w).trans (callsOf_mono honward.next)
  written hn w := (h.written hn w).trans (callsOf_mono honward.out)

omit [DecidableEq B] in
/-- Where the worker does not gather buffers it is enough how far they were. -/
theorem Stage.of_resting (h : Stage calls n s p) (honward : s.Onward s' p p') (haccepted : s'.accepted = s.accepted)
    (hpc : s'.pc.gathering = false) : Stage calls n s' p' where
  accepted w := haccepted.symm ▸ h.accepted w
  pulled _ ws hws := by
    rw [hws] at hpc
    cases hpc
  gathered _ hflush := by
    rw [hflush] at hpc
    cases hpc
  shared hn w := (h.shared hn w).trans ((honward.queued w).map _)
  moved _ hgather := by
    rw [hpc] at hgather
    cases hgather
  written hn w := (h.written hn w).trans (callsOf_mono honward.out)

/-- A step of the worker brings them on. -/
theorem Stage.workerStep (h : Stage calls n s p) (hplaces : s.Places hash p) (hplaces' : s'.Places hash p')
    (hflows : s.Flows) (henrolled : s.Enrolled) (honward : s.Onward s' p p') {signal grown : Bool}
    (hs : WorkerSteps ops s signal grown s') :
    Stage calls (n + if s.flushes (.worker signal grown : SessionEv W B) then 1 else 0) s' p' := by
  have hshared : 2 ≤ n → ∀ w, calls w <+: callsOf w (p'.out ++ p'.next ++ p'.queued) :=
    fun hn w => (h.shared hn w).trans ((honward.queued w).map _)
  have hwritten : 3 ≤ n → ∀ w, calls w <+: callsOf w p'.out := fun hn w => (h.written hn w).trans (callsOf_mono honward.out)
  have hmoved : 2 ≤ n → s.pc.gathering = true → ∀ w, calls w <+: callsOf w (p'.out ++ p'.next) :=
    fun hn hgather w => (h.moved hn hgather w).trans (callsOf_mono honward.next)
  have hnot : s.pc ≠ .flush → (n + if s.flushes (.worker signal grown : SessionEv W B) then 1 else 0) = n := by
    intro hpc
    simp [flushes, hpc]
  cases hs with
  | wait hpc _ | svc _ hpc _ | writeSvc _ _ _ _ hpc _ _ _ =>
    rw [hnot (by simp [hpc])]
    exact h.of_resting honward rfl rfl
  | recycle hpc =>
    rw [hnot (by simp [hpc])]
    refine h.of_resting honward rfl ?_
    show (if s.stop then CyclePc.done else .wait : CyclePc W).gathering = false
    cases s.stop <;> rfl
  | ready hpc =>
    rw [hnot (by simp [hpc])]
    exact
      { accepted := h.accepted
        pulled := fun _ ws hws => by cases hws
        gathered := fun _ hflush => by cases hflush
        shared := hshared
        moved := fun hn _ w => by
          rw [honward.ready hpc rfl]
          exact h.shared hn w
        written := hwritten }
  | drain hpc =>
    rw [hnot (by simp [hpc])]
    refine
      { accepted := h.accepted
        pulled := fun _ ws hws w hw => ?_
        gathered := fun _ hflush => by cases hflush
        shared := hshared
        moved := fun hn _ => hmoved hn (by rw [hpc]; rfl)
        written := hwritten }
    -- a writer that is not in the registry holds nothing
    cases hws
    have hidle := hflows.idle (fun hlive => hw ((henrolled.listed w).mpr (Or.inl hlive)))
    have hacc := h.accepted w
    rw [hplaces.calls_eq (hplaces.held_nil hidle)] at hacc
    exact hacc.trans ((honward.queued w).map _)
  | pulled hpc =>
    rw [hnot (by simp [hpc])]
    exact
      { accepted := h.accepted
        pulled := fun _ ws hws => by cases hws
        gathered := fun hn _ w => (h.pulled hn [] hpc w List.not_mem_nil).trans ((honward.queued w).map _)
        shared := hshared
        moved := fun hn _ => hmoved hn (by rw [hpc]; rfl)
        written := hwritten }
  | pull v vs hpc =>
    rw [hnot (by simp [hpc])]
    refine
      { accepted := h.accepted
        pulled := fun hn ws hws w hw => ?_
        gathered := fun _ hflush => by cases hflush
        shared := hshared
        moved := fun hn _ => hmoved hn (by rw [hpc]; rfl)
        written := hwritten }
    cases hws
    by_cases hwv : w = v
    · subst hwv
      have hall := hplaces'.calls_eq (honward.pull w vs hpc rfl)
      rw [← hall]
      exact h.accepted w
    · exact (h.pulled hn (v :: vs) hpc w (by simp [hwv, hw])).trans ((honward.queued w).map _)
  | poll hpc hbusy =>
    have hnone : s.flushes (.worker signal grown : SessionEv W B) = false := by simp [flushes, hbusy]
    have hsame := s.dropsOnly_pollStep.same
    rw [hnone]
    refine h.of_pc honward ?_ fun w => ?_
    · rw [hsame]
    · rw [hsame]
  | flush sink ok hpc hidle hsink =>
    have hone : s.flushes (.worker signal grown : SessionEv W B) = true := by simp [flushes, hpc, hidle]
    rw [if_pos hone]
    refine
      { accepted := h.accepted
        pulled := fun _ ws hws => by cases hws
        gathered := fun _ hflush => by cases hflush
        shared := fun hn w => (h.gathered (by omega) hpc w).trans ((honward.queued w).map _)
        moved := fun _ hgather => by cases hgather
        written := fun hn w => ?_ }
    rw [honward.flush hpc rfl]
    exact h.moved (by omega) (by rw [hpc]; rfl) w

/-- What has been accepted stays so. -/
theorem accepted_first {ev : SessionEv W B} (hs : s.step hash ops ev = .ok s') (w : W) :
    ofSource Prod.fst w s.accepted <+: ofSource Prod.fst w s'.accepted := by
  have hmore : ∀ (b : Bool) (x : W × Item),
      ofSource Prod.fst w s.accepted <+: ofSource Prod.fst w (if b then s.accepted ++ [x] else s.accepted) := by
    intro b x
    cases b with
    | false => exact List.prefix_refl _
    | true => exact ofSource_first w s.accepted [x]
  cases step_cases hs with
  | send w module env c l o htls hphase hpulled hmodule ho => exact hmore _ _
  | emit w env id value m o htls hphase hpulled ho => exact hmore _ _
  | worker signal grown s' hw =>
    cases hw with
    | poll hpc hbusy => rw [s.dropsOnly_pollStep.same]
    | _ => exact List.prefix_refl _
  | _ => exact List.prefix_refl _

/-- What a run knows of some calls: what it has established, and how far they are. -/
structure Watched (hash : CStr → UInt32 → UInt64) (contents : F → List UInt8) (sink : SinkFile F) (hdr : Mem)
    (metrics : W → Bool) (threadId : W → UInt32) (calls : W → List (W × Item)) (n : Nat) (s : Session W B F) : Prop where
  established : Established hash contents sink hdr metrics threadId s
  enrolled : s.Enrolled
  placed : ∃ p, s.Places hash p ∧ Stage calls n s p

/-- A step brings the calls on. -/
theorem Watched.step {sink : SinkFile F} (h : Watched hash contents sink hdr metrics threadId calls n s)
    (hops : ops.Appends contents writes) {ev : SessionEv W B} (hs : s.step hash ops ev = .ok s') (hfresh : OfCall (LogSys.BeginsFresh hash) hash s ev) :
    Watched hash contents sink hdr metrics threadId calls (n + if s.flushes ev then 1 else 0) s' := by
  refine ⟨h.established.step hops hs hfresh, h.enrolled.step hs, ?_⟩
  obtain ⟨p, hplaces, hstage⟩ := h.placed
  obtain ⟨p', hplaces', honward⟩ := hplaces.step h.established.flows h.established.inv hfresh hs
  refine ⟨p', hplaces', ?_⟩
  have hgone := accepted_first hs
  cases step_cases hs with
  | worker signal grown s' hw =>
    exact hstage.workerStep hplaces hplaces' h.established.flows h.enrolled honward hw
  | _ => exact hstage.of_pc honward rfl hgone

/-- Bounded latency. Whatever the writers, the registrations and the worker do in whatever order, what has been accepted by a moment
is in the data file when the worker has written three batches since: if the sink has dropped nothing, a receiver finds for each
thread the records and samples of `found`, which of every writer begin with the calls it had accepted by then. -/
theorem data_file_recent (hops : ops.Appends contents writes) (heap : B → Mem) {sink : SinkFile F}
    (hfiles : contents sink.svcFile = [] ∧ contents sink.dataFile = []) (hdr : Mem) (metrics : W → Bool)
    (threadId : W → UInt32) {evs evs' : List (SessionEv W B)}
    (hfresh : Runs.Along (step hash ops) (fun s ev _ => OfCall (LogSys.BeginsFresh hash) hash s ev)
      (init ops heap sink hdr metrics threadId) (evs ++ evs'))
    (hr : (init ops heap sink hdr metrics threadId).run hash ops evs = .ok s) (hr' : s.run hash ops evs' = .ok s')
    (hdropped : s'.sink.bytesDropped = 0) (hfits : ∀ w a, (w, Item.log a) ∈ s'.accepted → a.Fits hash)
    (hbatches : 3 ≤ Runs.count (step hash ops) flushes s evs') :
    ∃ found : List (W × Item), ReadsData hash s'.svc.regs.core threadId found (contents s'.sink.dataFile) ∧
      ∀ w, ofSource Prod.fst w s.accepted <+: ofSource Prod.fst w found ∧
        ofSource Prod.fst w found <+: ofSource Prod.fst w s'.accepted := by
  obtain ⟨hfresh, hfresh'⟩ := Runs.along_append hfresh hr
  have hest := established hops heap sink hdr metrics threadId hfresh hr
  have henrolled : s.Enrolled :=
    Runs.run_induction (enrolled_init ops heap sink hdr metrics threadId) (fun _ _ _ h hs => h.step hs) hr
  obtain ⟨p, hplaces⟩ := hest.tracked
  have hstage : Stage (fun w => ofSource Prod.fst w s.accepted) 0 s p :=
    { accepted := fun _ => List.prefix_refl _
      pulled := fun hn => by cases hn
      gathered := fun hn => by cases hn
      shared := fun hn => by cases hn
      moved := fun hn => by cases hn
      written := fun hn => by cases hn }
  have hend := hfresh'.count_induction (P := flushes)
    (Q := Watched hash contents sink hdr metrics threadId fun w => ofSource Prod.fst w s.accepted)
    ⟨hest, henrolled, p, hplaces, hstage⟩ (fun _ _ _ _ h hs hfresh => h.step hops hs hfresh) hr'
  obtain ⟨p', hplaces', hstage'⟩ := hend.placed
  have h := hend.established
  have hkept := h.kept.files hfiles hdropped
  refine ⟨p'.out.map Laid.call, hplaces'.reads h.inv h.kinds hkept hfits, fun w => ⟨?_, hplaces'.written_first w⟩⟩
  rw [callsOf_eq]
  exact hstage'.written (by omega) w

/-- Three cycles behind a record. -/
theorem data_file_recent_oneWriter : ∃ s s', oneWriter.run LogSys.oneLine ScriptFile.ops (oneRecord.take 3) = .ok s ∧
    s.run LogSys.oneLine ScriptFile.ops (List.replicate 27 (.worker false true)) = .ok s' ∧ s.accepted.length = 1 ∧
    ∃ found, ReadsData LogSys.oneLine s'.svc.regs.core (fun _ : Unit => 7) found s'.sink.dataFile.contents ∧
      ∀ w, ofSource Prod.fst w s.accepted <+: ofSource Prod.fst w found := by
  have hfresh : Runs.Along (step LogSys.oneLine ScriptFile.ops)
      (fun s ev _ => OfCall (LogSys.BeginsFresh LogSys.oneLine) LogSys.oneLine s ev) oneWriter
      (oneRecord.take 3 ++ List.replicate 27 (.worker false true)) := by
    decide +kernel
  have hall : (oneWriter.run LogSys.oneLine ScriptFile.ops (oneRecord.take 3)).toOption.any (fun s =>
      s.accepted.length == 1 &&
        decide (3 ≤ Runs.count (step LogSys.oneLine ScriptFile.ops) flushes s (List.replicate 27 (.worker false true))) &&
          (s.run LogSys.oneLine ScriptFile.ops (List.replicate 27 (.worker false true))).toOption.any fun s' =>
            s'.sink.bytesDropped == 0 && s'.accepted.all fun x => x.2.log?.all fun a => decide (a.Fits LogSys.oneLine)) = true := by
    decide +kernel
  obtain ⟨s, hr, hs⟩ := Runs.ok_of_any hall
  simp only [Bool.and_eq_true, beq_iff_eq, decide_eq_true_eq] at hs
  obtain ⟨⟨hlen, hbatches⟩, hs⟩ := hs
  obtain ⟨s', hr', hs'⟩ := Runs.ok_of_any hs
  simp only [Bool.and_eq_true, beq_iff_eq, List.all_eq_true] at hs'
  obtain ⟨found, hreads, hfound⟩ := data_file_recent ScriptFile.appends (fun _ _ => 0) ⟨rfl, rfl⟩ (fun _ => 0) (fun _ => false)
    (fun _ => 7) hfresh hr hr' hs'.1 (fun w a ha => of_decide_eq_true (hs'.2 _ ha)) hbatches
  exact ⟨s, s', hr, hr', hlen, found, hreads, fun w => (hfound w).1⟩

/-- Two batches are not enough: the record comes behind its writer's pull, and its writer ends behind the next move of the ready
queue. -/
example :
    (oneWriter.run LogSys.oneLine ScriptFile.ops
      ([.attach (), .registerWriter ()] ++ List.replicate 6 (.worker false true) ++
        [.send () none LogSys.plenty (LogSys.textCall [104, 105])] ++ List.replicate 7 (.worker false true) ++ [.corePush ()] ++
        List.replicate 4 (.worker false true))).toOption.map (fun s => (s.accepted.length, s.pc, s.written.length)) =
      some (1, .recycle, 0) := by
  decide +kernel

end Session

end P8
