import P8.Log.Times
import P8.Mtk.Run

/-!
# Times: the times in the headers of delivered metric buffers

A metric writer waits, takes a buffer and puts samples into the last one, each in one buffer: its buffers are a log of spans
in order, each marked with the timestamps a reader finds in the samples it holds. With the same fact of log buffers it is what
is said of the times of every buffer a client delivers.
-/

namespace P8

open Bytes Spans

/-- A metric buffer, and the timestamps of the samples a reader finds in it. -/
def DataBuf.timed (b : DataBuf) : DataBuf × List UInt64 := (b, (b.samples.getD []).map (·.timestamp))

/-- The clock readings of a step, in order, as those of a log writer. -/
def MtkOp.readings : MtkOp → List UInt64
  | .emit env _ _ => [env.bufTicks, env.itemTicks]
  | .pull => []

/-- The timestamps in a buffer are those of its samples. -/
theorem DataBuf.Holds.timed_eq {b : DataBuf} {items : List MtkItemDat} (h : b.Holds items) :
    b.timed = (b, items.map (·.timestamp)) := by
  rw [timed, h.samples_eq, Option.getD_some]

/-- A buffer of whole samples that has bytes has a timestamp. -/
theorem DataBuf.Whole.marked {b : DataBuf} (h : b.Whole) (hc : b.content ≠ 0) : b.timed.2 ≠ [] := by
  obtain ⟨items, hitems⟩ := h
  rw [hitems.timed_eq]
  intro hnil
  have hempty : items = [] := List.map_eq_nil_iff.mp hnil
  have hsize := hitems.size_eq
  rw [hempty] at hsize
  refine hc ?_
  simp [content, frame, hsize, mtkUsed]

/-- The span of a metric buffer. -/
def DataBuf.timedSpan (b : DataBuf) : Span UInt64 := DataBuf.span b.timed

/-- The span of the buffer a sample was put into. -/
theorem Mtk.Written.span_eq {m : Mtk} {env : EmitEnv} {id : Int32} {value : UInt64} {b b' : DataBuf}
    {items : List MtkItemDat} {o : Emitted} (h : m.Written env id value b b' items o) :
    b'.timedSpan = ⟨b.timedSpan.start, env.itemTicks, b.timedSpan.marks ++ [env.itemTicks]⟩ := by
  have hhdr := h.hdr
  rw [DataBuf.timedSpan, h.holds'.timed_eq, DataBuf.timedSpan, h.holds.timed_eq]
  simp only [DataBuf.span, List.map_append, List.map_singleton, Mtk.item]
  rw [hhdr]

namespace MtkSys

variable {s s' : MtkSys} {now : UInt64}

/-- A step keeps the buffers a log of spans in order; the time is then its last reading of the clock. -/
theorem step_upto {op : MtkOp} (hinv : s.mtk.Inv) (h : Upto now (s.bufs.map DataBuf.timedSpan)) (hs : s.step op = .ok s')
    (hclock : (now :: op.readings).Pairwise (· ≤ ·)) :
    Upto (op.readings.getLastD now) (s'.bufs.map DataBuf.timedSpan) := by
  cases op with
  | emit env id value =>
    simp only [MtkOp.readings, List.pairwise_cons, List.mem_cons, List.not_mem_nil, or_false, forall_eq_or_imp,
      forall_eq] at hclock
    obtain ⟨⟨hbuf, hlast⟩, hitem, -⟩ := hclock
    obtain ⟨o, ho, hcases⟩ := emit_cases hinv env id value
    rw [step, ho] at hs
    cases hs
    show Upto env.itemTicks _
    cases hcases with
    | refused hk => simpa [after, bufs] using h.wait hlast
    | dropped hk hwait hbufs hdropped hresult hinv' =>
      have hsame : (s.after id value o).bufs = s.bufs := by
        rw [bufs, bufs, ← hbufs, ← List.append_assoc]
        rfl
      rw [hsame]
      exact h.wait hlast
    | written b b' items hw hinv' =>
      have hnew : (s.after id value o).bufs = s.delivered ++ s.mtk.fragments ++ [b'] := by
        rw [bufs, after, List.append_assoc, hw.bufs, List.append_assoc]
      have hold : Upto env.itemTicks ((s.delivered ++ s.mtk.fragments ++ [b]).map DataBuf.timedSpan) := by
        rcases hw.source with hb | ⟨hb, b₀, -, rfl⟩
        · simpa [bufs, Mtk.bufs, hb] using h.wait hlast
        · have hfresh := ((h.wait hbuf).fresh 0).wait hitem
          have hspan : (b₀.start packetMetrics s.mtk.threadId env.bufTicks).timedSpan = ⟨env.bufTicks, 0, []⟩ := by
            rw [DataBuf.timedSpan, (DataBuf.holds_start b₀ s.mtk.threadId env.bufTicks).timed_eq]
            rfl
          rw [List.map_append, List.map_singleton, hspan]
          simpa [bufs, Mtk.bufs, hb] using hfresh
      rw [List.map_append, List.map_singleton] at hold
      rw [hnew, List.map_append, List.map_singleton, hw.span_eq]
      refine hold.mark ?_
      intro t ht
      rcases List.mem_append.mp ht with ht | ht
      · exact Or.inl ht
      · exact Or.inr (List.mem_singleton.mp ht)
  | pull =>
    cases hs
    obtain ⟨hpull, hempty, -⟩ := Mtk.pull_bufs s.mtk
    simpa [MtkOp.readings, bufs, hpull, hempty] using h

/-- Along a run whose clock does not go back the buffers stay a log of spans in order. -/
theorem run_upto {ops : List MtkOp} (hcarries : s.Carries) (h : Upto now (s.bufs.map DataBuf.timedSpan))
    (hr : s.run ops = .ok s') (hclock : (now :: ops.flatMap MtkOp.readings).Pairwise (· ≤ ·)) :
    ∃ now', Upto now' (s'.bufs.map DataBuf.timedSpan) := by
  induction ops generalizing s now with
  | nil =>
    cases hr
    exact ⟨now, h⟩
  | cons op ops ih =>
    obtain ⟨s₁, hs, hr⟩ := Runs.run_cons hr
    obtain ⟨hfirst, hrest⟩ := readings_cons hclock
    obtain ⟨s₂, hs₂, hcarries₂⟩ := hcarries.step op
    cases hs.symm.trans hs₂
    exact ih hcarries₂ (step_upto hcarries.inv h hs hfirst) hr hrest

/-- The times in the headers of a metric writer's delivered buffers bound the timestamps of their samples. -/
theorem run_times {attached : Bool} {threadId : UInt32} {ops : List MtkOp}
    (hr : (init attached threadId).run ops = .ok s) (hclock : (ops.flatMap MtkOp.readings).Pairwise (· ≤ ·)) :
    TimesBound (s.delivered.map DataBuf.timed) := by
  have hstart : (0 :: ops.flatMap MtkOp.readings).Pairwise (· ≤ ·) :=
    List.pairwise_cons.mpr ⟨fun t _ => UInt64.zero_le, hclock⟩
  obtain ⟨now, h⟩ := run_upto (carries_init attached threadId) (upto_nil 0) hr hstart
  obtain ⟨s₁, hs₁, hcarries⟩ := (carries_init attached threadId).run ops
  cases hr.symm.trans hs₁
  rw [bufs, List.map_append] at h
  have hupto : Upto now ((s.delivered.map DataBuf.timed).map DataBuf.span) := by
    rw [List.map_map]
    exact Upto.front h
  refine TimesBound.of_upto hupto ?_
  intro p hp
  obtain ⟨b, hb, rfl⟩ := List.mem_map.mp hp
  exact (hcarries.whole b (List.mem_append_left _ hb)).marked

end MtkSys

/-- Over a clock that does not go back, in every run of a log writer or of a metric writer: a delivered buffer that holds bytes
of records has a start time and a stop time between which the timestamp of each of these records lies, and along such buffers
neither time goes back. The run of the log writer is the one of `LogSys.step`. -/
theorem buffer_times (hash : CStr → UInt32 → UInt64) (attached : Bool) (threadId : UInt32) :
    (∀ ops s, (TimedSys.init attached threadId).run hash ops = .ok s → (ops.flatMap Op.readings).Pairwise (· ≤ ·) →
      (LogSys.init attached threadId).run hash ops = .ok s.sys ∧ s.stamps.length = s.sys.bufs.length ∧
        TimesBound (s.sys.delivered.zip s.stamps)) ∧
    ∀ ops s, (MtkSys.init attached threadId).run ops = .ok s → (ops.flatMap MtkOp.readings).Pairwise (· ≤ ·) →
      TimesBound (s.delivered.map DataBuf.timed) :=
  ⟨fun _ _ hr hclock => ⟨TimedSys.run_ok hr, TimedSys.run_times hr hclock⟩, fun _ _ hr hclock => MtkSys.run_times hr hclock⟩

/-- Two calls on one buffer, and two samples in one. -/
theorem buffer_times_two :
    (∃ s, (TimedSys.init true 7).run LogSys.oneLine [.send LogSys.plenty (LogSys.textCall [104, 105]),
        .send { LogSys.plenty with bufTicks := 3, itemTicks := 4 } (LogSys.textCall [106]), .pull] = .ok s ∧
      s.stamps = [[2, 4]] ∧ TimesBound (s.sys.delivered.zip s.stamps)) ∧
    ∃ s, (MtkSys.init true 7).run
        [.emit ⟨1, some LogSys.poolBuf, false, 1, 2⟩ 0 5, .emit ⟨1, none, false, 2, 2⟩ 0 6, .pull] = .ok s ∧
      TimesBound (s.delivered.map DataBuf.timed) := by
  obtain ⟨hlog, hmtk⟩ := buffer_times LogSys.oneLine true 7
  have hlog := hlog [.send LogSys.plenty (LogSys.textCall [104, 105]),
    .send { LogSys.plenty with bufTicks := 3, itemTicks := 4 } (LogSys.textCall [106]), .pull]
  have hmtk := hmtk [.emit ⟨1, some LogSys.poolBuf, false, 1, 2⟩ 0 5, .emit ⟨1, none, false, 2, 2⟩ 0 6, .pull]
  refine ⟨⟨_, rfl, rfl, ?_⟩, _, rfl, ?_⟩
  · exact (hlog _ rfl (by decide)).2.2
  · exact hmtk _ rfl (by decide)

end P8
