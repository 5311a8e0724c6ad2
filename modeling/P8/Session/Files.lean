import P8.Log.Stream
import P8.Session.Streams
import P8.Sink.Lossless

/-!
# Files: what a receiver finds in the data file of a session

A receiver walks over the packets behind the hello header, gathers the bytes of the packets of one kind and one thread, and cuts
them into records or samples. If the sink has dropped nothing, each such stream is whole at every moment: it is cut to its end into
what the writers of that thread have recorded so far, in its order. `Kept` is what the sink was given, `Places` is what the buffers
given to it hold, and `data_file` is both together.
-/

namespace P8

open Bytes Framing Sources

/-! ## The receiver -/

/-- The bytes of the packets of a kind and a thread in a data file. -/
def threadStream (kind : UInt8) (thread : UInt32) (file : List UInt8) : List UInt8 :=
  gather (fun h => h.packetType == kind && h.threadId == thread) (readPackets (file.drop sizeofHello))

/-- The samples of a stream, cut by the size in each. -/
def readSamples (bs : List UInt8) : Option (List MtkItemDat) :=
  (SelfSized.cut mtkItemSize sizeofMtkItemDat bs.length bs).map (List.map MtkItemDat.decode)

/-- The record of a call of `send`. -/
def Item.log? : Item → Option Accepted
  | .log a => some a
  | .mtk _ _ => none

/-- The sample of a call of `emit`. -/
def Item.sample? : Item → Option (Int32 × UInt64)
  | .log _ => none
  | .mtk id value => some (id, value)

section

variable {W : Type} (threadId : W → UInt32) (thread : UInt32) (calls : List (W × Item))

/-- The records of a thread among some calls. -/
def logsOf : List Accepted := (calls.filter fun x => threadId x.1 == thread).filterMap fun x => x.2.log?

/-- The samples of a thread among some calls. -/
def samplesOf : List (Int32 × UInt64) := (calls.filter fun x => threadId x.1 == thread).filterMap fun x => x.2.sample?

end

/-- What a receiver finds in a data file: for each thread the records and the samples of its calls. -/
structure ReadsData {W : Type} (hash : CStr → UInt32 → UInt64) (core : Core) (threadId : W → UInt32) (calls : List (W × Item))
    (file : List UInt8) : Prop where
  logs : ∀ thread, ∃ items, walk (threadStream packetLogs thread file) = some items ∧
    List.Forall₂ (ReadsBack hash core) (logsOf threadId thread calls) items
  samples : ∀ thread, ∃ its, readSamples (threadStream packetMetrics thread file) = some its ∧
    its.map MtkItemDat.sample = samplesOf threadId thread calls

/-! ## Items read back -/

section

variable {W : Type} {hash : CStr → UInt32 → UInt64} {core : Core} {metrics : W → Bool} {threadId : W → UInt32}

/-- A call is one its writer can make. -/
def OfKind (metrics : W → Bool) (x : W × Item) : Prop := x.2.log?.isSome = !metrics x.1

/-- The items of a kind and a thread. -/
def selected (metrics : W → Bool) (threadId : W → UInt32) (kind : UInt8) (thread : UInt32) (items : List (Laid W)) :
    List (Laid W) :=
  items.filter fun x => packetType (metrics x.writer) == kind && threadId x.writer == thread

/-- The packets of logs are those of log writers. -/
theorem packetType_logs (b : Bool) : (packetType b == packetLogs) = !b := by
  cases b <;> rfl

/-- The packets of metrics are those of metric writers. -/
theorem packetType_metrics (b : Bool) : (packetType b == packetMetrics) = b := by
  cases b <;> rfl

/-- Records are cut and read. -/
theorem logs_read {items : List (Laid W)} (thread : UInt32) (hlies : ∀ x ∈ items, x.item.LiesOn hash x.bytes)
    (hkind : ∀ x ∈ items, OfKind metrics x.call)
    (hread : ∀ x ∈ items, ∀ a, x.item = .log a → a.Fits hash ∧ a.core.Grows core) :
    (∀ it ∈ (selected metrics threadId packetLogs thread items).map Laid.bytes, SaysItsSize it) ∧
      List.Forall₂ (ReadsBack hash core) (logsOf threadId thread (items.map Laid.call))
        ((selected metrics threadId packetLogs thread items).map Laid.bytes) := by
  induction items with
  | nil => exact ⟨fun it hit => (by cases hit), List.Forall₂.nil⟩
  | cons x items ih =>
    obtain ⟨hsizes, hreads⟩ := ih (fun y hy => hlies y (List.mem_cons_of_mem x hy))
      (fun y hy => hkind y (List.mem_cons_of_mem x hy)) (fun y hy => hread y (List.mem_cons_of_mem x hy))
    have hx : x.item.log?.isSome = !metrics x.writer := hkind x List.mem_cons_self
    unfold selected at hsizes ⊢
    unfold selected logsOf at hreads
    unfold logsOf
    rw [List.map_cons, List.filter_cons, List.filter_cons, packetType_logs, ← hx]
    show _ ∧ List.Forall₂ _ (List.filterMap _ (if (threadId x.writer == thread) = true then _ else _)) _
    by_cases hthread : (threadId x.writer == thread) = true
    · rw [if_pos hthread, hthread, Bool.and_true]
      have hlies := hlies x List.mem_cons_self
      have hread := hread x List.mem_cons_self
      obtain ⟨w, i, bytes⟩ := x
      cases i with
      | mtk id value => exact ⟨hsizes, hreads⟩
      | log a =>
        obtain ⟨hfits, hgrows⟩ := hread a rfl
        obtain ⟨hsized, hback⟩ := IsItem.readsBack hlies hfits hgrows
        exact ⟨List.forall_mem_cons.mpr ⟨hsized, hsizes⟩, List.Forall₂.cons hback hreads⟩
    · rw [if_neg hthread, Bool.eq_false_iff.mpr hthread, Bool.and_false]
      exact ⟨hsizes, hreads⟩

/-- Samples are cut and read. -/
theorem samples_read {items : List (Laid W)} (thread : UInt32) (hlies : ∀ x ∈ items, x.item.LiesOn hash x.bytes)
    (hkind : ∀ x ∈ items, OfKind metrics x.call) :
    ∃ its : List MtkItemDat, (selected metrics threadId packetMetrics thread items).map Laid.bytes = its.map MtkItemDat.encode ∧
      (∀ it ∈ its, it.size = UInt16.ofNat sizeofMtkItemDat) ∧
      its.map MtkItemDat.sample = samplesOf threadId thread (items.map Laid.call) := by
  induction items with
  | nil => exact ⟨[], rfl, fun it hit => (by cases hit), rfl⟩
  | cons x items ih =>
    obtain ⟨its, hbytes, hsizes, hsamples⟩ := ih (fun y hy => hlies y (List.mem_cons_of_mem x hy))
      (fun y hy => hkind y (List.mem_cons_of_mem x hy))
    have hx : x.item.log?.isSome = !metrics x.writer := hkind x List.mem_cons_self
    unfold selected at hbytes ⊢
    unfold samplesOf at hsamples ⊢
    rw [List.map_cons, List.filter_cons, List.filter_cons, packetType_metrics]
    show ∃ its, _ ∧ _ ∧ _ = List.filterMap _ (if (threadId x.writer == thread) = true then _ else _)
    by_cases hthread : (threadId x.writer == thread) = true
    · rw [if_pos hthread, hthread, Bool.and_true]
      have hlies := hlies x List.mem_cons_self
      obtain ⟨w, i, bytes⟩ := x
      cases i with
      | log a =>
        have hmetrics : metrics w = false := by simpa [Item.log?] using hx
        rw [show metrics (Laid.mk w (.log a) bytes).writer = false from hmetrics]
        exact ⟨its, hbytes, hsizes, hsamples⟩
      | mtk id value =>
        have hmetrics : metrics w = true := by simpa [Item.log?] using hx
        obtain ⟨it, hsample, hsize, hit⟩ := hlies
        have hit : bytes = it.encode := hit
        rw [show metrics (Laid.mk w (.mtk id value) bytes).writer = true from hmetrics]
        refine ⟨it :: its, ?_, List.forall_mem_cons.mpr ⟨hsize, hsizes⟩, ?_⟩
        · rw [if_pos rfl, List.map_cons, hbytes, List.map_cons, hit]
        · rw [List.map_cons, hsamples, hsample]
          rfl
    · rw [if_neg hthread, Bool.eq_false_iff.mpr hthread, Bool.and_false]
      exact ⟨its, hbytes, hsizes, hsamples⟩

/-- Encoded samples are cut and decoded. -/
theorem readSamples_flatten {its : List MtkItemDat} (hsizes : ∀ it ∈ its, it.size = UInt16.ofNat sizeofMtkItemDat) :
    readSamples (its.map MtkItemDat.encode).flatten = some its := by
  have hsays : ∀ bs ∈ its.map MtkItemDat.encode, SelfSized.Says mtkItemSize sizeofMtkItemDat bs := by
    intro bs hbs
    obtain ⟨it, hit, rfl⟩ := List.mem_map.mp hbs
    exact MtkItemDat.says (hsizes it hit)
  have hdecode : (its.map MtkItemDat.encode).map MtkItemDat.decode = its := by
    rw [List.map_map]
    refine (List.map_congr_left fun it _ => ?_).trans (List.map_id its)
    simpa using it.decode_encode []
  rw [readSamples, SelfSized.cut_flatten (by decide) hsays (Nat.le_refl _), Option.map_some, hdecode]

/-- What a receiver gathers from the packets of buffers that carry items, each stamped as its writer's. -/
theorem Streams.gathered {bufs : List (Handed W)} {items : List (Laid W)} (h : Streams hash bufs items)
    (hstamped : ∀ x ∈ bufs, x.buf.Stamped (packetType (metrics x.writer)) (threadId x.writer)) (kind : UInt8) (thread : UInt32) :
    gather (fun h => h.packetType == kind && h.threadId == thread) (DataBuf.wire (bufs.map Handed.buf)) =
      ((selected metrics threadId kind thread items).map Laid.bytes).flatten := by
  have hwoven := h.woven fun w => packetType (metrics w) == kind && threadId w == thread
  have hsel : ∀ x ∈ bufs, (x.buf.hdr.packetType == kind && x.buf.hdr.threadId == thread) =
      (packetType (metrics x.writer) == kind && threadId x.writer == thread) := by
    intro x hx
    rw [(hstamped x hx).packetType_eq, (hstamped x hx).threadId_eq]
  rw [gather_wire, List.filter_map, List.map_map, List.filter_congr (p := _ ∘ Handed.buf) hsel]
  rw [List.filter_map, List.map_map, List.filter_map, List.map_map] at hwoven
  exact hwoven.stream_eq

end

/-! ## A session -/

instance Accepted.Fits.decidable (hash : CStr → UInt32 → UInt64) (a : Accepted) : Decidable (a.Fits hash) :=
  decidable_of_iff ((∀ d ∈ a.core.logDescs (hash a.call.file a.call.line), paddedSize a.core.attrDescs d a.call ≤ 65535) ∧
      (registered a.core.attrDescs (a.call.attrs.getD [])).length ≤ 255)
    ⟨fun h => ⟨fun d hd => h.1 d hd, h.2⟩, fun h => ⟨fun d hd => h.size d hd, h.attrs⟩⟩

namespace Session

variable {W B F : Type} [DecidableEq W] [DecidableEq B] {hash : CStr → UInt32 → UInt64} {ops : FileOps F}
  {contents : F → List UInt8} {writes : F → List Write} {hdr : Mem}
  {s s' : Session W B F} {metrics : W → Bool} {threadId : W → UInt32}

variable (contents hdr) in
/-- The files hold all the worker has given to its sink. -/
structure Files (s : Session W B F) : Prop where
  svc : contents s.sink.svcFile = s.svc.sent.flatten
  data : contents s.sink.dataFile = hdr.read 0 sizeofHello ++ (DataBuf.wire (s.written.map Handed.buf)).flatten

variable (contents hdr) in
/-- All the worker has taken over it has given to its sink, which was `sink` when it was opened. -/
def Kept (sink : SinkFile F) (s : Session W B F) : Prop :=
  ∃ ok, Served contents sink s.sink s.svc.sent.flatten
    (hdr.read 0 sizeofHello ++ (DataBuf.wire (s.written.map Handed.buf)).flatten) ok

variable {sink : SinkFile F}

omit [DecidableEq W] [DecidableEq B] in
/-- A sink that has dropped nothing has kept everything. -/
theorem Kept.files (h : s.Kept contents hdr sink) (hfiles : contents sink.svcFile = [] ∧ contents sink.dataFile = [])
    (hdropped : s.sink.bytesDropped = 0) : s.Files contents hdr := by
  obtain ⟨ok, hserved⟩ := h
  have hle := hserved.dropped_le
  obtain ⟨hsvc, hdata⟩ := hserved.whole (by omega)
  rw [hfiles.1, List.nil_append] at hsvc
  rw [hfiles.2, List.nil_append] at hdata
  exact ⟨hsvc, hdata⟩

omit [DecidableEq W] [DecidableEq B] in
/-- A core that is opened has written the hello header. -/
theorem kept_init (hops : ops.Appends contents writes) (heap : B → Mem) (sink : SinkFile F) (hdr : Mem) (metrics : W → Bool)
    (threadId : W → UInt32) : (init ops heap sink hdr metrics threadId).Kept contents hdr sink := by
  obtain ⟨sink', ok, hcall, hserved⟩ := SinkFile.serve_served hops sink true (.hello hdr)
  have hsink : (sink.writeHello ops hdr).1 = sink' := congrArg Prod.fst (Except.ok.inj hcall)
  refine ⟨ok, ?_⟩
  show Served contents sink (sink.writeHello ops hdr).1 [] (hdr.read 0 sizeofHello ++ []) ok
  rw [hsink, List.append_nil]
  exact hserved

/-- The worker gives its sink all it takes over. -/
theorem Kept.workerStep (h : s.Kept contents hdr sink) (hops : ops.Appends contents writes) (hi : s.Inv metrics threadId)
    {signal grown : Bool} (hs : WorkerSteps ops s signal grown s') : s'.Kept contents hdr sink := by
  obtain ⟨ok₀, h⟩ := h
  cases hs with
  | wait _ _ | ready _ | drain _ | pulled _ | pull _ _ _ | recycle _ => exact ⟨ok₀, h⟩
  | svc svc hpc hmove =>
    obtain ⟨-, hmove⟩ := when_eq_ok.mp hmove
    cases hmove
    exact ⟨ok₀, h⟩
  | poll hpc hbusy =>
    rw [s.dropsOnly_pollStep.same]
    exact ⟨ok₀, h⟩
  | writeSvc sink' ok svc svc' hpc hsink hwrite hrecycle =>
    obtain ⟨-, hwrite⟩ := when_eq_ok.mp hwrite
    cases hwrite
    obtain ⟨-, hrecycle⟩ := when_eq_ok.mp hrecycle
    cases hrecycle
    obtain ⟨sink'', ok', hbatch, hserved⟩ :=
      SinkFile.writeBatch_served hops .svc s.sink grown (s.moved.map fun b => ⟨b.buf, b.used⟩)
    cases hsink.symm.trans hbatch
    rw [if_pos rfl, if_neg (by decide)] at hserved
    have hpayload : payload (s.moved.map fun b => ⟨b.buf, b.used⟩) =
        (s.svc.worker.map (SvcBuf.bytes s.svc.svc.heap)).flatten := by
      rw [payload, moved, List.map_map, List.flatMap_map, List.flatMap_def]
      rfl
    have hboth := h.trans hserved
    rw [hpayload, ← List.flatten_append, List.append_nil] at hboth
    exact ⟨_, hboth⟩
  | flush sink' ok hpc hidle hsink =>
    obtain ⟨sink'', ok', hbatch, hserved⟩ :=
      SinkFile.writeBatch_served hops .data s.sink grown (s.images.map fun buf => ⟨buf, muSize buf⟩)
    cases hsink.symm.trans hbatch
    rw [if_neg (by decide), if_pos rfl] at hserved
    have hpayload : payload (s.images.map fun buf => ⟨buf, muSize buf⟩) =
        (DataBuf.wire (s.batch.map Handed.buf)).flatten := by
      rw [payload, images, List.map_map, List.flatMap_map, List.flatMap_def, DataBuf.wire, List.map_map]
      refine congrArg List.flatten (List.map_congr_left fun x hx => ?_)
      have hmem : x ∈ s.sent := List.mem_append_left _ (List.mem_append_right _ hx)
      have hread := DataBuf.read_image (hi.stamped x hmem).counted
      rw [← DataBuf.muSize_image] at hread
      exact hread
    have hwire : (DataBuf.wire ((s.written ++ s.batch).map Handed.buf)).flatten =
        (DataBuf.wire (s.written.map Handed.buf)).flatten ++ (DataBuf.wire (s.batch.map Handed.buf)).flatten := by
      rw [List.map_append, DataBuf.wire, List.map_append, List.flatten_append]
      rfl
    have hboth := h.trans hserved
    rw [hpayload, List.append_nil, List.append_assoc, ← hwire] at hboth
    exact ⟨_, hboth⟩

/-- So it is at every step. -/
theorem Kept.step (h : s.Kept contents hdr sink) (hops : ops.Appends contents writes) (hi : s.Inv metrics threadId)
    {ev : SessionEv W B} (hs : s.step hash ops ev = .ok s') : s'.Kept contents hdr sink := by
  cases step_cases hs with
  | service ev svc hclient hstep =>
    have hsent := (service_ofClient hclient hstep).2.2
    obtain ⟨ok, h⟩ := h
    refine ⟨ok, ?_⟩
    rw [hsent]
    exact h
  | worker signal grown s' hw => exact h.workerStep hops hi hw
  | _ => exact h

/-- Every call accepted is one its writer can make. -/
def Kinds (metrics : W → Bool) (s : Session W B F) : Prop := ∀ x ∈ s.accepted, OfKind metrics x

omit [DecidableEq W] [DecidableEq B] in
/-- The kind of a writer is that of its state. -/
theorem Inv.kind (h : s.Inv metrics threadId) (w : W) :
    (∀ l, s.tls w = .log l → metrics w = false) ∧ ∀ m, s.tls w = .mtk m → metrics w = true := by
  have hw := h.tls w
  constructor
  · intro l htls
    rw [htls] at hw
    cases hw with
    | log l hkind hthread hinv hst => exact hkind
  · intro m htls
    rw [htls] at hw
    cases hw with
    | mtk m hkind hthread hinv hst hwhole hplain => exact hkind

/-- Every step keeps the kinds of the writers apart. -/
theorem Kinds.step (h : s.Kinds metrics) (hi : s.Inv metrics threadId) {ev : SessionEv W B}
    (hs : s.step hash ops ev = .ok s') : s'.Kinds metrics := by
  cases step_cases hs with
  | send w module env c l o htls hphase hpulled hmodule ho =>
    have hnew : OfKind metrics (w, .log ⟨{ c with module := s.svc.regs.moduleOf module }, o.core⟩) := by
      simp [OfKind, Item.log?, (hi.kind w).1 l htls]
    intro x hx
    simp only [afterSend] at hx
    split at hx
    · exact (List.mem_append.mp hx).elim (h x) (fun hx => List.mem_singleton.mp hx ▸ hnew)
    · exact h x hx
  | emit w env id value m o htls hphase hpulled ho =>
    have hnew : OfKind metrics (w, .mtk id value) := by
      simp [OfKind, Item.log?, (hi.kind w).2 m htls]
    intro x hx
    simp only [afterEmit] at hx
    split at hx
    · exact (List.mem_append.mp hx).elim (h x) (fun hx => List.mem_singleton.mp hx ▸ hnew)
    · exact h x hx
  | worker signal grown s' hw =>
    cases hw with
    | poll hpc hbusy =>
      rw [s.dropsOnly_pollStep.same]
      exact h
    | _ => exact h
  | _ => exact h

variable {p : Placed W}

omit [DecidableEq B] in
/-- The calls on the buffers written are among those accepted. -/
theorem Places.written_first (h : s.Places hash p) (w : W) :
    ofSource Prod.fst w (p.out.map Laid.call) <+: ofSource Prod.fst w s.accepted := by
  have hmap : ofSource Prod.fst w (p.out.map Laid.call) = (ofSource Laid.writer w p.out).map Laid.call := List.filter_map
  rw [hmap, h.accepted w, ofSource_append, ofSource_append, List.map_append, List.map_append, List.append_assoc,
    List.append_assoc]
  exact List.prefix_append _ _

omit [DecidableEq B] in
/-- A receiver of a data file that holds all the buffers written finds the calls on them. -/
theorem Places.reads (h : s.Places hash p) (hi : s.Inv metrics threadId) (hkinds : s.Kinds metrics)
    (hfiles : s.Files contents hdr) (hfits : ∀ w a, (w, Item.log a) ∈ s.accepted → a.Fits hash) :
    ReadsData hash s.svc.regs.core threadId (p.out.map Laid.call) (contents s.sink.dataFile) := by
  have hstamped : ∀ x ∈ s.written, x.buf.Stamped (packetType (metrics x.writer)) (threadId x.writer) :=
    fun x hx => hi.stamped x (List.mem_append_left _ (List.mem_append_left _ hx))
  have hcounted : ∀ b ∈ s.written.map Handed.buf, b.Counted := by
    intro b hb
    obtain ⟨x, hx, rfl⟩ := List.mem_map.mp hb
    exact (hstamped x hx).counted
  have hpackets : readPackets ((contents s.sink.dataFile).drop sizeofHello) = DataBuf.wire (s.written.map Handed.buf) := by
    rw [hfiles.data, List.drop_left' (Mem.length_read _ _ _), DataBuf.readPackets_wire hcounted]
  have hstream : ∀ kind thread, threadStream kind thread (contents s.sink.dataFile) =
      ((selected metrics threadId kind thread p.out).map Laid.bytes).flatten := by
    intro kind thread
    rw [threadStream, hpackets, h.written.gathered hstamped]
  have hcall : ∀ x ∈ p.out, x.call ∈ s.accepted := by
    intro x hx
    have hmem : x.call ∈ ofSource Prod.fst x.writer (p.out.map Laid.call) :=
      mem_ofSource.mpr ⟨List.mem_map_of_mem hx, rfl⟩
    exact (mem_ofSource.mp ((h.written_first x.writer).subset hmem)).1
  have hkind : ∀ x ∈ p.out, OfKind metrics x.call := fun x hx => hkinds _ (hcall x hx)
  refine ⟨fun thread => ?_, fun thread => ?_⟩
  · have hread : ∀ x ∈ p.out, ∀ a, x.item = .log a → a.Fits hash ∧ a.core.Grows s.svc.regs.core := by
      intro x hx a ha
      have hmem := hcall x hx
      rw [Laid.call, ha] at hmem
      exact ⟨hfits _ a hmem, hi.grown _ a hmem⟩
    obtain ⟨hsizes, hreads⟩ := logs_read thread h.written.lies hkind hread
    exact ⟨_, by rw [hstream]; exact walk_flatten hsizes, hreads⟩
  · obtain ⟨its, hbytes, hsizes, hsamples⟩ := samples_read thread h.written.lies hkind
    exact ⟨its, by rw [hstream, hbytes]; exact readSamples_flatten hsizes, hsamples⟩

omit [DecidableEq B] in
/-- When the worker has ended, all calls accepted are on the buffers written. -/
theorem Places.written_all (h : s.Places hash p) (hflows : s.Flows) (hpc : s.pc = .done) (w : W) :
    ofSource Prod.fst w (p.out.map Laid.call) = ofSource Prod.fst w s.accepted := by
  obtain ⟨hbatch, hready, htls⟩ := hflows.done hpc
  have hnext : p.next = [] := (hbatch ▸ h.batch : Streams hash [] p.next).nil_items
  have hqueued : p.queued = [] := (hready ▸ h.ready : Streams hash [] p.queued).nil_items
  have hmap : ofSource Prod.fst w (p.out.map Laid.call) = (ofSource Laid.writer w p.out).map Laid.call := List.filter_map
  rw [hmap, h.accepted w, hnext, hqueued, h.held_nil (htls w), List.append_nil, List.append_nil, List.map_nil, List.append_nil]

/-- What a run of a session has established: its invariants, where its items are, and what its sink was given. -/
structure Established (hash : CStr → UInt32 → UInt64) (contents : F → List UInt8) (sink : SinkFile F) (hdr : Mem)
    (metrics : W → Bool) (threadId : W → UInt32) (s : Session W B F) : Prop where
  inv : s.Inv metrics threadId
  flows : s.Flows
  tracked : s.Tracked hash
  kinds : s.Kinds metrics
  kept : s.Kept contents hdr sink

/-- A step whose discarded record began fresh keeps what has been established. -/
theorem Established.step (h : Established hash contents sink hdr metrics threadId s) (hops : ops.Appends contents writes)
    {ev : SessionEv W B} (hs : s.step hash ops ev = .ok s') (hfresh : OfCall (LogSys.BeginsFresh hash) hash s ev) :
    Established hash contents sink hdr metrics threadId s' where
  inv := h.inv.step hs
  flows := h.flows.step h.inv hs
  tracked := h.tracked.step h.flows h.inv hfresh hs
  kinds := h.kinds.step h.inv hs
  kept := h.kept.step hops h.inv hs

/-- Every run whose discarded records began right behind the header of their buffer has established it. -/
theorem established (hops : ops.Appends contents writes) (heap : B → Mem) (sink : SinkFile F) (hdr : Mem) (metrics : W → Bool)
    (threadId : W → UInt32) {evs : List (SessionEv W B)}
    (hfresh : Runs.Along (step hash ops) (fun s ev _ => OfCall (LogSys.BeginsFresh hash) hash s ev)
      (init ops heap sink hdr metrics threadId) evs)
    (hr : (init ops heap sink hdr metrics threadId).run hash ops evs = .ok s) :
    Established hash contents sink hdr metrics threadId s :=
  hfresh.induction (P := Established hash contents sink hdr metrics threadId)
    { inv := inv_init ops heap sink hdr metrics threadId
      flows := flows_init ops heap sink hdr metrics threadId
      tracked := tracked_init ops heap sink hdr metrics threadId
      kinds := fun _ hx => (by cases hx)
      kept := kept_init hops heap sink hdr metrics threadId }
    (fun _ _ _ h hs hfresh => h.step hops hs hfresh) hr

/-- The data file of a session, at any moment of any run on which a discarded record has begun right behind the header of its
buffer: if the sink has dropped nothing, a receiver finds for each thread exactly the records and samples of `calls`, which of every
writer are the first it has accepted, and all of them when the worker has ended. -/
theorem data_file (hops : ops.Appends contents writes) (heap : B → Mem) {sink : SinkFile F}
    (hfiles : contents sink.svcFile = [] ∧ contents sink.dataFile = []) (hdr : Mem) (metrics : W → Bool)
    (threadId : W → UInt32) {evs : List (SessionEv W B)}
    (hfresh : Runs.Along (step hash ops) (fun s ev _ => OfCall (LogSys.BeginsFresh hash) hash s ev)
      (init ops heap sink hdr metrics threadId) evs)
    (hr : (init ops heap sink hdr metrics threadId).run hash ops evs = .ok s) (hdropped : s.sink.bytesDropped = 0)
    (hfits : ∀ w a, (w, Item.log a) ∈ s.accepted → a.Fits hash) :
    ∃ calls : List (W × Item), ReadsData hash s.svc.regs.core threadId calls (contents s.sink.dataFile) ∧
      (∀ w, ofSource Prod.fst w calls <+: ofSource Prod.fst w s.accepted) ∧
      (s.pc = .done → ∀ w, ofSource Prod.fst w calls = ofSource Prod.fst w s.accepted) := by
  have h := established hops heap sink hdr metrics threadId hfresh hr
  obtain ⟨p, hplaces⟩ := h.tracked
  exact ⟨p.out.map Laid.call, hplaces.reads h.inv h.kinds (h.kept.files hfiles hdropped) hfits, hplaces.written_first,
    fun hpc => hplaces.written_all h.flows hpc⟩

/-- The record of `oneRecord` begins in a fresh buffer. -/
theorem oneRecord_fresh : Runs.Along (step LogSys.oneLine ScriptFile.ops)
    (fun s ev _ => OfCall (LogSys.BeginsFresh LogSys.oneLine) LogSys.oneLine s ev) oneWriter oneRecord := by
  decide +kernel

/-- The run of `oneRecord` leaves nothing behind. -/
theorem oneRecord_run : ∃ s, oneWriter.run LogSys.oneLine ScriptFile.ops oneRecord = .ok s ∧ s.pc = .done ∧
    s.accepted.length = 1 ∧ s.sink.bytesDropped = 0 ∧ (∀ w a, (w, Item.log a) ∈ s.accepted → a.Fits LogSys.oneLine) ∧
      (s.svc.inFlight = [] ∧ s.svc.unwritten = [] ∧ s.svc.waiting = []) ∧ s.svc.regs.core.attrDescs.length ≤ 2 ^ 31 := by
  have hall : (oneWriter.run LogSys.oneLine ScriptFile.ops oneRecord).toOption.any (fun s =>
      decide (s.pc = .done ∧ s.accepted.length = 1 ∧ s.sink.bytesDropped = 0) &&
        s.accepted.all (fun x => x.2.log?.all fun a => decide (a.Fits LogSys.oneLine)) &&
          (s.svc.inFlight ++ s.svc.unwritten).isEmpty && s.svc.waiting.isEmpty &&
            decide (s.svc.regs.core.attrDescs.length ≤ 2 ^ 31)) = true := by
    decide +kernel
  obtain ⟨s, hr, hs⟩ := Runs.ok_of_any hall
  simp only [Bool.and_eq_true, decide_eq_true_eq, List.isEmpty_iff, List.append_eq_nil_iff, List.all_eq_true] at hs
  obtain ⟨⟨⟨⟨⟨hpc, hlen, hdropped⟩, hfits⟩, hnone⟩, hwaiting⟩, hattrs⟩ := hs
  refine ⟨s, hr, hpc, hlen, hdropped, fun w a ha => ?_, ⟨hnone.1, hnone.2, hwaiting⟩, hattrs⟩
  exact of_decide_eq_true (hfits _ ha)

/-- The record of `oneRecord` is read in the data file. -/
theorem data_file_oneRecord : ∃ s, oneWriter.run LogSys.oneLine ScriptFile.ops oneRecord = .ok s ∧ s.accepted.length = 1 ∧
    ∃ calls, ReadsData LogSys.oneLine s.svc.regs.core (fun _ : Unit => 7) calls s.sink.dataFile.contents ∧
      ∀ w, ofSource Prod.fst w calls = ofSource Prod.fst w s.accepted := by
  obtain ⟨s, hr, hpc, hlen, hdropped, hfits, -, -⟩ := oneRecord_run
  obtain ⟨calls, hreads, -, hall⟩ := data_file ScriptFile.appends (fun _ _ => 0) ⟨rfl, rfl⟩
    (fun _ => 0) (fun _ => false) (fun _ => 7) oneRecord_fresh hr hdropped hfits
  exact ⟨s, hr, hlen, calls, hreads, hall hpc⟩

end Session

end P8
