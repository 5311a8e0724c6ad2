import P8.Session.System

/-!
# Writers: what a call does to its writer

`send_pulled` and `emit_pulled` are why a call that waits for a buffer may be one step, at the end of its wait: a pull during the
wait leaves the same as one in front of the call. `TlsWriter.Inv` is the invariant of a log or a metric writer of a core, whose
buffers are stamped with its kind and its thread, and `Session.Inv` that of a session: its writers', its service stream's, and
that every buffer handed over is stamped as its writer's are.
-/

namespace P8

open Bytes Framing

/-! ## Pulls during a wait -/

section

variable {hash : CStr → UInt32 → UInt64} {core : Core} {l : Log} {env : SendEnv} {c : Call}

/-- A buffer that is taken without a pull delivers nothing. -/
theorem takeBuffer_unpulled (hpulled : env.pulled = false) : (l.takeBuffer env).2.1 = [] := by
  unfold Log.takeBuffer Log.pullWhile
  rw [hpulled]
  cases l.buffer with
  | some b => rfl
  | none => cases env.waited <;> rfl

/-- What a call has delivered up to its record. -/
def deliveredBefore : Except Sent Prepared → List DataBuf
  | .error o => o.delivered
  | .ok p => p.delivered

/-- A call that is not pulled while it waits delivers nothing. -/
theorem send_unpulled (hpulled : env.pulled = false) {o : Sent} (ho : l.send hash core env c = .ok o) : o.delivered = [] := by
  have hprep : deliveredBefore (l.prepare hash core env c) = [] := by
    rw [Log.prepare]
    by_cases hlevel : c.level < l.minLevel core c
    · rw [if_pos hlevel]
      rfl
    rw [if_neg hlevel]
    by_cases hatt : (!l.attached) = true
    · rw [if_pos hatt]
      rfl
    rw [if_neg hatt]
    have htake := takeBuffer_unpulled (l := l.parkFull) hpulled
    generalize l.parkFull.takeBuffer env = t at htake
    obtain ⟨l₁, delivered, ob⟩ := t
    cases ob with
    | none => exact htake
    | some b =>
      dsimp only
      generalize l₁.lookupDesc env core (hash c.file c.line) c = r
      obtain ⟨l₂, core₂, od⟩ := r
      cases od <;> exact htake
  rw [Log.send] at ho
  generalize l.prepare hash core env c = r at ho hprep
  cases r with
  | error o' =>
    cases ho
    exact hprep
  | ok p =>
    dsimp only at ho
    generalize p.log.writeRecord env p.core p.desc c p.buffer = w at ho
    cases w with
    | ok r =>
      cases ho
      exact hprep
    | error e =>
      cases e with
      | fault => cases ho
      | discard r =>
        cases ho
        exact hprep

/-- A pulled writer has no buffer, and none to park. -/
theorem Log.pull_empty (l : Log) : l.pull.1.buffer = none ∧ l.pull.1.parkFull = l.pull.1 := by
  unfold Log.pull Log.parkFull
  cases l.buffer <;> simp

/-- A pull takes a parked buffer as it takes a current one, but for the cursor. -/
theorem Log.pull_parkFull (hwaits : l.parkFull.buffer = none) :
    l.parkFull.pull = ({ l.pull.1 with bufUsed := l.bufUsed }, l.pull.2) := by
  unfold Log.parkFull at hwaits ⊢
  unfold Log.pull
  cases hb : l.buffer with
  | none => simp [hb]
  | some b =>
    simp only [hb] at hwaits ⊢
    split at hwaits
    · rename_i hfull
      rw [if_pos hfull]
    · rw [hb] at hwaits
      cases hwaits

/-- A buffer that was waited for, with a pull during the wait or in front of the call. -/
theorem Log.takeBuffer_pulled (hwaits : l.parkFull.buffer = none) {b : DataBuf} (hwaited : env.waited = some b) :
    ∃ l', l.parkFull.takeBuffer { env with pulled := true } = (l', l.pull.2, l'.buffer) ∧
      l.pull.1.parkFull.takeBuffer { env with pulled := false } = (l', [], l'.buffer) := by
  obtain ⟨hnone, hpark⟩ := l.pull_empty
  have hpull := Log.pull_parkFull hwaits
  simp only [Log.takeBuffer, Log.pullWhile, hwaits, hpark, hnone, hwaited, if_true, hpull]
  exact ⟨_, rfl, rfl⟩

/-- The same of a wait that ends without a buffer, but for the cursor, which a writer without a buffer does not have. -/
theorem Log.takeBuffer_pulled_none (hwaits : l.parkFull.buffer = none) (hwaited : env.waited = none) :
    ∃ l', l'.buffer = none ∧ l.pull.1.parkFull.takeBuffer { env with pulled := false } = (l', [], none) ∧
      l.parkFull.takeBuffer { env with pulled := true } = ({ l' with bufUsed := l.bufUsed }, l.pull.2, none) := by
  obtain ⟨hnone, hpark⟩ := l.pull_empty
  have hpull := Log.pull_parkFull hwaits
  simp only [Log.takeBuffer, Log.pullWhile, hwaits, hpark, hnone, hwaited, if_true, hpull]
  exact ⟨{ l.pull.1 with droppedLogs := l.pull.1.droppedLogs + 1 }, hnone, rfl, by rw [hnone]⟩

/-- For a call that waits for a buffer it is the same whether the worker pulls the writer during the wait or in front of the call,
but for the cursor of a writer that is left without a buffer, where the wait ends without one. -/
theorem send_pulled (hlevel : ¬ c.level < l.minLevel core c) (hatt : l.attached = true) (hwaits : l.parkFull.buffer = none) :
    (env.waited.isSome →
      l.send hash core { env with pulled := true } c =
        (l.pull.1.send hash core { env with pulled := false } c).map
          fun o => { o with delivered := l.pull.2 ++ o.delivered }) ∧
    (env.waited = none →
      ∃ o, l.pull.1.send hash core { env with pulled := false } c = .ok o ∧ o.log.buffer = none ∧
        l.send hash core { env with pulled := true } c =
          .ok { o with log := { o.log with bufUsed := l.bufUsed }, delivered := l.pull.2 ++ o.delivered }) := by
  have hpull : l.pull.1.attached = l.attached := by
    unfold Log.pull
    cases l.buffer <;> rfl
  have hlevel' : ¬ c.level < l.pull.1.minLevel core c := by
    rw [Log.minLevel, hpull]
    exact hlevel
  rw [Log.send, Log.send, Log.prepare, Log.prepare, if_neg hlevel, if_neg hlevel', hpull, hatt, if_neg (by decide),
    if_neg (by decide)]
  refine ⟨fun hsome => ?_, fun hnone => ?_⟩
  · obtain ⟨b, hwaited⟩ := Option.isSome_iff_exists.mp hsome
    obtain ⟨l', hpulled, hbefore⟩ := Log.takeBuffer_pulled hwaits hwaited
    rw [hpulled, hbefore]
    cases l'.buffer with
    | none => simp [Except.map]
    | some b₁ =>
      dsimp only
      have hlookup : l'.lookupDesc { env with pulled := true } core (hash c.file c.line) c =
          l'.lookupDesc { env with pulled := false } core (hash c.file c.line) c := rfl
      rw [hlookup]
      generalize l'.lookupDesc { env with pulled := false } core (hash c.file c.line) c = r
      obtain ⟨l₂, core₂, od⟩ := r
      cases od with
      | none => simp [Except.map]
      | some d =>
        dsimp only
        have hwrite : l₂.writeRecord { env with pulled := true } core₂ d c b₁ =
            l₂.writeRecord { env with pulled := false } core₂ d c b₁ := rfl
        rw [hwrite]
        generalize l₂.writeRecord { env with pulled := false } core₂ d c b₁ = w
        cases w with
        | ok r => simp [Except.map]
        | error e => cases e <;> simp [Except.map]
  · obtain ⟨l', hbuf, hbefore, hpulled⟩ := Log.takeBuffer_pulled_none hwaits hnone
    rw [hpulled, hbefore]
    exact ⟨_, rfl, hbuf, by simp⟩

/-- A writer that has parked a buffer is pulled while it waits for another: the parked one is delivered, the record is not. Where
the wait ends without a buffer, the call is counted. -/
theorem send_pulled_parked :
    ((({ Log.init true 7 with fragments := [LogSys.poolBuf] } : Log).send LogSys.oneLine Core.init
        { LogSys.plenty with pulled := true } (LogSys.textCall [104, 105])).toOption.any fun o =>
      o.outcome.result && o.delivered.length == 1 && o.log.buffer.isSome) = true ∧
    ∃ o, ({ Log.init true 7 with fragments := [LogSys.poolBuf] } : Log).send LogSys.oneLine Core.init
        { LogSys.plenty with waited := none, pulled := true } (LogSys.textCall [104, 105]) = .ok o ∧
      o.delivered.length = 1 ∧ o.log.bufs = [] ∧ o.log.droppedLogs = 1 := by
  refine ⟨?_, ?_⟩
  · rw [(send_pulled (by decide) rfl rfl).1 rfl]
    decide +kernel
  · obtain ⟨o, ho, -, hpulled⟩ := (@send_pulled LogSys.oneLine Core.init
      { Log.init true 7 with fragments := [LogSys.poolBuf] } { LogSys.plenty with waited := none }
      (LogSys.textCall [104, 105]) (by decide) rfl rfl).2 rfl
    cases ho
    exact ⟨_, hpulled, rfl, rfl, rfl⟩

end

section

variable {m : Mtk} {env : EmitEnv} {id : Int32} {value : UInt64}

/-- A pulled writer of samples has no buffer, and none to park. -/
theorem Mtk.pull_empty (m : Mtk) : m.pull.1.buffer = none ∧ m.pull.1.parkFull = m.pull.1 := by
  unfold Mtk.pull Mtk.parkFull
  cases m.buffer <;> simp

/-- A pull takes a parked buffer of samples as it takes a current one, but for the cursor. -/
theorem Mtk.pull_parkFull (hwaits : m.parkFull.buffer = none) :
    m.parkFull.pull = ({ m.pull.1 with bufUsed := m.bufUsed }, m.pull.2) := by
  unfold Mtk.parkFull at hwaits ⊢
  unfold Mtk.pull
  cases hb : m.buffer with
  | none => simp [hb]
  | some b =>
    simp only [hb] at hwaits ⊢
    split at hwaits
    · rename_i hfull
      rw [if_pos hfull]
    · rw [hb] at hwaits
      cases hwaits

/-- A buffer that was waited for, with a pull during the wait or in front of the call. -/
theorem Mtk.takeBuffer_pulled (hwaits : m.parkFull.buffer = none) {b : DataBuf} (hwaited : env.waited = some b) :
    ∃ m', m.parkFull.takeBuffer { env with pulled := true } = (m', m.pull.2, m'.buffer) ∧
      m.pull.1.parkFull.takeBuffer { env with pulled := false } = (m', [], m'.buffer) := by
  obtain ⟨hnone, hpark⟩ := m.pull_empty
  have hpull := Mtk.pull_parkFull hwaits
  simp only [Mtk.takeBuffer, Mtk.pullWhile, hwaits, hpark, hnone, hwaited, if_true, hpull]
  exact ⟨_, rfl, rfl⟩

/-- The same of a wait that ends without a buffer, but for the cursor. -/
theorem Mtk.takeBuffer_pulled_none (hwaits : m.parkFull.buffer = none) (hwaited : env.waited = none) :
    ∃ m', m'.buffer = none ∧ m.pull.1.parkFull.takeBuffer { env with pulled := false } = (m', [], none) ∧
      m.parkFull.takeBuffer { env with pulled := true } = ({ m' with bufUsed := m.bufUsed }, m.pull.2, none) := by
  obtain ⟨hnone, hpark⟩ := m.pull_empty
  have hpull := Mtk.pull_parkFull hwaits
  simp only [Mtk.takeBuffer, Mtk.pullWhile, hwaits, hpark, hnone, hwaited, if_true, hpull]
  exact ⟨{ m.pull.1 with droppedMetrics := m.pull.1.droppedMetrics + 1 }, hnone, rfl, by rw [hnone]⟩

/-- For a call of `emit`, too, a pull during the wait is one in front of the call, but for the cursor of a writer that is left
without a buffer. -/
theorem emit_pulled (hknown : m.known env id = true) (hwaits : m.parkFull.buffer = none) :
    (env.waited.isSome →
      m.emit { env with pulled := true } id value =
        (m.pull.1.emit { env with pulled := false } id value).map fun o => { o with delivered := m.pull.2 ++ o.delivered }) ∧
    (env.waited = none →
      ∃ o, m.pull.1.emit { env with pulled := false } id value = .ok o ∧ o.mtk.buffer = none ∧
        m.emit { env with pulled := true } id value =
          .ok { o with mtk := { o.mtk with bufUsed := m.bufUsed }, delivered := m.pull.2 ++ o.delivered }) := by
  have hknown₁ : m.known { env with pulled := true } id = true := hknown
  have hknown₂ : m.pull.1.known { env with pulled := false } id = true := by
    rw [← hknown]
    unfold Mtk.pull
    cases m.buffer <;> rfl
  rw [Mtk.emit, Mtk.emit, hknown₁, hknown₂]
  refine ⟨fun hsome => ?_, fun hnone => ?_⟩
  · obtain ⟨b, hwaited⟩ := Option.isSome_iff_exists.mp hsome
    obtain ⟨m', hpulled, hbefore⟩ := Mtk.takeBuffer_pulled hwaits hwaited
    rw [hpulled, hbefore]
    cases m'.buffer with
    | none => simp [Except.map]
    | some b₁ =>
      simp only [Bool.not_true, Bool.false_eq_true, if_false]
      split
      · simp [Except.map, Mtk.item]
      · rfl
  · obtain ⟨m', hbuf, hbefore, hpulled⟩ := Mtk.takeBuffer_pulled_none hwaits hnone
    rw [hpulled, hbefore]
    exact ⟨_, rfl, hbuf, by simp⟩

/-- The same of a writer of samples. -/
theorem emit_pulled_parked :
    ((({ Mtk.init true 7 with fragments := [LogSys.poolBuf] } : Mtk).emit
        { (⟨1, some LogSys.poolBuf, false, 1, 2⟩ : EmitEnv) with pulled := true } 0 5).toOption.any fun o =>
      o.result && o.delivered.length == 1 && o.mtk.buffer.isSome) = true ∧
    ∃ o, ({ Mtk.init true 7 with fragments := [LogSys.poolBuf] } : Mtk).emit ⟨1, none, true, 1, 2⟩ 0 5 = .ok o ∧
      o.delivered.length = 1 ∧ o.mtk.bufs = [] ∧ o.mtk.droppedMetrics = 1 := by
  refine ⟨?_, ?_⟩
  · rw [(emit_pulled (by decide) rfl).1 rfl]
    decide +kernel
  · obtain ⟨o, ho, -, hpulled⟩ := (@emit_pulled { Mtk.init true 7 with fragments := [LogSys.poolBuf] }
      ⟨1, none, false, 1, 2⟩ 0 5 (by decide) rfl).2 rfl
    cases ho
    exact ⟨_, hpulled, rfl, rfl, rfl⟩

/-- What a call that is not pulled does to the buffers of its writer: nothing, or the last one is written, and parked if it is full. -/
theorem emit_unpulled (h : m.Inv) (hpulled : env.pulled = false) {o : Emitted} (ho : m.emit env id value = .ok o) :
    o.delivered = [] ∧
      (o.result = false ∧ o.mtk.fragments = m.fragments ∧ o.mtk.buffer = m.buffer ∨
        o.result = true ∧ ∃ b', o.mtk.fragments = m.fragments ∧ o.mtk.buffer = some b' ∨
          o.mtk.fragments = m.fragments ++ [b'] ∧ o.mtk.buffer = none) := by
  have hput : ∀ m₁ : Mtk, ∀ b : DataBuf, ∀ it : MtkItemDat, m₁.fragments = m.fragments →
      ∃ b', (m₁.put b it).fragments = m.fragments ∧ (m₁.put b it).buffer = some b' ∨
        (m₁.put b it).fragments = m.fragments ++ [b'] ∧ (m₁.put b it).buffer = none := by
    intro m₁ b it hfragments
    unfold Mtk.put
    dsimp only
    split
    · exact ⟨_, Or.inr ⟨by rw [hfragments], rfl⟩⟩
    · exact ⟨_, Or.inl ⟨hfragments, rfl⟩⟩
  unfold Mtk.emit at ho
  split at ho
  · cases ho
    exact ⟨rfl, Or.inl ⟨rfl, rfl, rfl⟩⟩
  · rw [Mtk.parkFull_eq h] at ho
    unfold Mtk.takeBuffer Mtk.pullWhile at ho
    rw [hpulled] at ho
    cases hb : m.buffer with
    | some b =>
      rw [hb] at ho
      dsimp only at ho
      split at ho
      · cases ho
        exact ⟨rfl, Or.inr ⟨rfl, hput m b _ rfl⟩⟩
      · cases ho
    | none =>
      rw [hb] at ho
      cases hw : env.waited with
      | none =>
        rw [hw] at ho
        cases ho
        exact ⟨rfl, Or.inl ⟨rfl, rfl, hb⟩⟩
      | some b₀ =>
        rw [hw] at ho
        dsimp only [Bool.false_eq_true, if_false] at ho
        split at ho
        · cases ho
          exact ⟨rfl, Or.inr ⟨rfl, hput _ _ _ rfl⟩⟩
        · cases ho

end

/-! ## The invariant of a writer -/

/-- A pull takes all buffers and leaves the thread. -/
theorem Log.pull_bufs (l : Log) : l.pull.2 = l.bufs ∧ l.pull.1.bufs = [] ∧ l.pull.1.threadId = l.threadId := by
  unfold Log.pull Log.bufs
  cases l.buffer with
  | none => simp
  | some b => simp

/-- The type of a writer's packets. -/
def packetType (metrics : Bool) : UInt8 := if metrics then packetMetrics else packetLogs

namespace TlsWriter

/-- The invariant of a writer of the given kind and thread: its own, and its buffers are stamped; those of a metric writer hold
whole samples. -/
inductive Inv (core : Core) (metrics : Bool) (threadId : UInt32) : TlsWriter → Prop where
  | log (l : Log) (hkind : metrics = false) (hthread : l.threadId = threadId) (hinv : l.Inv core) (hst : l.Stamped) :
    Inv core metrics threadId (.log l)
  | mtk (m : Mtk) (hkind : metrics = true) (hthread : m.threadId = threadId) (hinv : m.Inv) (hst : m.Stamped)
      (hwhole : ∀ b ∈ m.bufs, b.Whole) (hplain : ∀ b ∈ m.bufs, b.frame.cont = false) : Inv core metrics threadId (.mtk m)

variable {core core' : Core} {metrics : Bool} {threadId : UInt32} {t : TlsWriter}

theorem inv_init (core : Core) (metrics : Bool) (threadId : UInt32) : (init metrics threadId).Inv core metrics threadId := by
  cases metrics with
  | false => exact .log _ rfl rfl (Log.inv_init _ _ _) (fun b hb => by cases hb)
  | true =>
    exact .mtk _ rfl rfl (Mtk.inv_init _ _) (fun b hb => by cases hb) (fun b hb => by cases hb) (fun b hb => by cases hb)

/-- A writer's invariant is kept while registries grow. -/
theorem Inv.grows (h : t.Inv core metrics threadId) (hg : core.Grows core') : t.Inv core' metrics threadId := by
  cases h with
  | log l hkind hthread hinv hst => exact .log l hkind hthread (hinv.grows hg) hst
  | mtk m hkind hthread hinv hst hwhole hplain => exact .mtk m hkind hthread hinv hst hwhole hplain

/-- A writer's buffers are stamped with its kind and its thread. -/
theorem Inv.stamped (h : t.Inv core metrics threadId) : ∀ b ∈ t.bufs, b.Stamped (packetType metrics) threadId := by
  cases h with
  | log l hkind hthread hinv hst =>
    subst hkind hthread
    exact hst
  | mtk m hkind hthread hinv hst hwhole hplain =>
    subst hkind hthread
    exact hst

/-- A pull takes all a writer holds. -/
theorem pull_bufs (t : TlsWriter) : t.pull.2 = t.bufs ∧ t.pull.1.bufs = [] := by
  cases t with
  | log l => exact ⟨l.pull_bufs.1, l.pull_bufs.2.1⟩
  | mtk m => exact ⟨m.pull_bufs.1, m.pull_bufs.2.1⟩

/-- And so does a destructor. -/
theorem corePush_bufs (t : TlsWriter) : t.corePush.2 = t.bufs ∧ t.corePush.1.bufs = [] := by
  cases t with
  | log l => exact ⟨rfl, rfl⟩
  | mtk m => exact ⟨rfl, rfl⟩

/-- Reading its counters takes nothing from a writer. -/
@[simp] theorem pullDropped_bufs (t : TlsWriter) : t.pullDropped.1.bufs = t.bufs := by
  cases t <;> rfl

/-- A pull keeps the invariant. -/
theorem Inv.pull (h : t.Inv core metrics threadId) : t.pull.1.Inv core metrics threadId := by
  cases h with
  | log l hkind hthread hinv hst =>
    obtain ⟨-, hempty, hsame⟩ := l.pull_bufs
    exact .log _ hkind (hsame.trans hthread) hinv.pull (fun b hb => by rw [hempty] at hb; cases hb)
  | mtk m hkind hthread hinv hst hwhole hplain =>
    obtain ⟨-, hempty, -, -, hsame⟩ := m.pull_bufs
    exact .mtk _ hkind (hsame.trans hthread) hinv.pull (fun b hb => by rw [hempty] at hb; cases hb)
      (fun b hb => by rw [hempty] at hb; cases hb) (fun b hb => by rw [hempty] at hb; cases hb)

/-- So does a destructor's `core_push`. -/
theorem Inv.corePush (h : t.Inv core metrics threadId) : t.corePush.1.Inv core metrics threadId := by
  cases h with
  | log l hkind hthread hinv hst =>
    exact .log _ hkind hthread ⟨hinv.cache, hinv.descs, fun b hb => by cases hb⟩ (fun b hb => by cases hb)
  | mtk m hkind hthread hinv hst hwhole hplain =>
    exact .mtk _ hkind hthread ⟨Nat.zero_le _, rfl, fun b hb => by cases hb⟩ (fun b hb => by cases hb)
      (fun b hb => by cases hb) (fun b hb => by cases hb)

/-- So does the reading of the counters. -/
theorem Inv.pullDropped (h : t.Inv core metrics threadId) : t.pullDropped.1.Inv core metrics threadId := by
  cases h with
  | log l hkind hthread hinv hst => exact .log _ hkind hthread ⟨hinv.cache, hinv.descs, hinv.cur⟩ hst
  | mtk m hkind hthread hinv hst hwhole hplain =>
    exact .mtk _ hkind hthread ⟨hinv.1, hinv.2, hinv.3⟩ hst hwhole hplain

/-- A call of `send` keeps the invariant, by the registries it leaves. -/
theorem Inv.send {hash : CStr → UInt32 → UInt64} {env : SendEnv} {c : Call} {l : Log}
    (h : (TlsWriter.log l).Inv core metrics threadId) (hc : core.Sound) {o : Sent} (ho : l.send hash core env c = .ok o) :
    (TlsWriter.log o.log).Inv o.core metrics threadId := by
  cases h with
  | log l hkind hthread hinv hst =>
    obtain ⟨hsame, hall⟩ := send_stamps hinv hc hst ho
    have hcases := send_cases hash env c hinv hc
    rw [ho] at hcases
    have hinv' : o.log.Inv o.core := by
      cases hcases with
      | idle o hp hi => exact hi.inv
      | accepted p l' g gap tp hp hb hroom hf => exact hf.inv
      | abandoned p l' released hp hb hroom hd => exact hd.inv
    refine .log _ hkind (hsame.trans hthread) hinv' (fun b hb => ?_)
    rw [hsame]
    exact hall b (List.mem_append_right _ hb)

/-- A call of `emit` keeps the invariant. -/
theorem Inv.emit {env : EmitEnv} {id : Int32} {value : UInt64} {m : Mtk} (h : (TlsWriter.mtk m).Inv core metrics threadId)
    {o : Emitted} (ho : m.emit env id value = .ok o) : (TlsWriter.mtk o.mtk).Inv core metrics threadId := by
  cases h with
  | mtk m hkind hthread hinv hst hwhole hplain =>
    obtain ⟨hsame, hall⟩ := emit_stamps hinv hst ho
    obtain ⟨o', ho', hcases⟩ := emit_cases hinv env id value
    rw [ho] at ho'
    cases ho'
    have hrest : o.mtk.Inv ∧ ∀ b ∈ o.delivered ++ o.mtk.bufs, b.Whole ∧ b.frame.cont = false := by
      have hboth : ∀ b ∈ m.bufs, b.Whole ∧ b.frame.cont = false := fun b hb => ⟨hwhole b hb, hplain b hb⟩
      cases hcases with
      | refused hk => exact ⟨hinv, hboth⟩
      | dropped hk hwait hbufs hdropped hresult hinv' =>
        rw [hbufs]
        exact ⟨hinv', hboth⟩
      | written b b' items hw hinv' =>
        have hsource : b.frame.cont = false := by
          rcases hw.source with hb | ⟨-, b₀, -, rfl⟩
          · exact hplain b (by simp [Mtk.bufs, hb])
          · rw [DataBuf.frame_start]
        have hflags : b'.hdr.flags = b.hdr.flags := by rw [hw.hdr]
        have hwritten : b'.frame.cont = false := by
          rw [← hsource, DataBuf.frame, DataBuf.frame, hflags]
        rw [hw.bufs]
        refine ⟨hinv', List.forall_mem_append.mpr ⟨fun x hx => hboth x (List.mem_append_left _ hx), ?_⟩⟩
        exact List.forall_mem_singleton.mpr ⟨⟨_, hw.holds'⟩, hwritten⟩
    refine .mtk _ hkind (hsame.trans hthread) hrest.1 (fun b hb => ?_) (fun b hb => ?_) (fun b hb => ?_)
    · rw [hsame]
      exact hall b (List.mem_append_right _ hb)
    · exact (hrest.2 b (List.mem_append_right _ hb)).1
    · exact (hrest.2 b (List.mem_append_right _ hb)).2

end TlsWriter

/-! ## The invariant of a session -/

/-- What a call of `send` makes of the registries is as good as what a registration does. -/
theorem send_good {hash : CStr → UInt32 → UInt64} {regs : Registries} {l : Log} {env : SendEnv} {c : Call}
    (h : l.Inv regs.core) (hc : regs.core.Sound) {o : Sent} (ho : l.send hash regs.core env c = .ok o) :
    (regs.withDescs o.core (hash c.file c.line)).Good regs := by
  have hfound := prepare_found hash env c h
  have hcases := send_cases hash env c h hc
  rw [ho] at hcases
  cases hcases with
  | idle o hp hi =>
    rw [hp] at hfound
    have hsame : o.core = regs.core := hfound
    rw [hsame]
    refine ⟨Registries.Grows.refl _, hc, fun x hx => ?_⟩
    cases hd : regs.core.logDescs (hash c.file c.line) <;> simp [Registries.withDescs, hd] at hx
  | accepted p l' g gap tp hp hb hroom hf =>
    rw [hp] at hfound
    exact Found.good hc hfound
  | abandoned p l' released hp hb hroom hd =>
    rw [hp] at hfound
    exact Found.good hc hfound

/-- A verbosity changes nothing of what was registered. -/
theorem Registries.grows_setVerbosity (regs : Registries) (module : Option Nat) (verbosity : Level) :
    regs.Grows (regs.setVerbosity module verbosity) := by
  cases module with
  | none => exact ⟨Core.grows_setVerbosity _ _, fun m hm => ⟨m, hm, rfl, rfl⟩, List.prefix_refl _⟩
  | some i =>
    refine ⟨Core.Grows.refl _, fun m hm => ?_, List.prefix_refl _⟩
    have hlabels := ModSys.label_modify regs.logMods i verbosity
    have hm' : m.label ∈ (regs.logMods.modify i (fun m => { m with verbosity := verbosity })).map LogModule.label := by
      rw [hlabels]
      exact List.mem_map_of_mem hm
    obtain ⟨m', hm', heq⟩ := List.mem_map.mp hm'
    obtain ⟨hid, hname⟩ := Prod.ext_iff.mp heq
    exact ⟨m', hm', hid, hname⟩

/-- A verbosity keeps the invariant of the service stream. -/
theorem SvcSys.Inv.setVerbosity {B : Type} {s : SvcSys B} (h : s.Inv) (module : Option Nat) (verbosity : Level) :
    { s with regs := s.regs.setVerbosity module verbosity }.Inv where
  sound := by
    cases module <;> exact h.sound
  formed := by
    intro x hx
    have hgrows := s.regs.grows_setVerbosity module verbosity
    exact ⟨(h.formed x hx).1.mono hgrows.core.attrs, (h.formed x hx).2.mono hgrows⟩
  accounted := h.accounted
  nodup := h.nodup
  idle := h.idle
  filled := h.filled
  fits := h.fits

namespace Session

variable {W B F : Type} [DecidableEq W] [DecidableEq B] {hash : CStr → UInt32 → UInt64} {ops : FileOps F}
  {s s' : Session W B F} {metrics : W → Bool} {threadId : W → UInt32}

/-- The buffers that have left their writers, in the order in which they are or will be written. -/
def sent (s : Session W B F) : List (Handed W) := s.written ++ s.batch ++ s.ready

variable (metrics threadId) in
/-- The invariant of a session: its writers' and its service stream's; the worker holds service buffers just where it is about to
write them; the buffers handed over are stamped as their writers'; and the registries have what they had when a record was
accepted. -/
structure Inv (s : Session W B F) : Prop where
  svc : s.svc.Inv
  holding : s.pc = .writeSvc → s.svc.phase = .holding
  resting : s.pc ≠ .writeSvc → s.svc.phase = .idle
  tls : ∀ w, (s.tls w).Inv s.svc.regs.core (metrics w) (threadId w)
  stamped : ∀ h ∈ s.sent, h.buf.Stamped (packetType (metrics h.writer)) (threadId h.writer)
  grown : ∀ w a, (w, Item.log a) ∈ s.accepted → a.core.Grows s.svc.regs.core

omit [DecidableEq W] [DecidableEq B] in
theorem inv_init (ops : FileOps F) (heap : B → Mem) (sink : SinkFile F) (hdr : Mem) (metrics : W → Bool)
    (threadId : W → UInt32) : (init ops heap sink hdr metrics threadId).Inv metrics threadId where
  svc := SvcSys.inv_init heap
  holding := fun h => by cases h
  resting := fun _ => rfl
  tls := fun w => TlsWriter.inv_init _ _ _
  stamped := fun h hh => by cases hh
  grown := fun w a ha => by cases ha

omit [DecidableEq W] in
/-- What a client's step of the service stream leaves alone. -/
theorem service_ofClient {svc svc' : SvcSys B} {ev : SvcEv B} (hev : ev.ofClient = true) (hs : svc.step ev = .ok svc') :
    svc.regs.core.Grows svc'.regs.core ∧ svc'.phase = svc.phase ∧ svc'.sent = svc.sent := by
  have hnot : ev.NotResolve := by
    cases ev with
    | resolveLogDesc _ _ _ _ _ _ => cases hev
    | _ => trivial
  refine ⟨(SiteSys.service_step hnot hs).1, ?_⟩
  cases ev with
  | serialize i fresh =>
    obtain ⟨x, -, -, rfl⟩ := SvcSys.serialize_step hs
    exact ⟨rfl, rfl⟩
  | use b m =>
    obtain ⟨-, hs⟩ := when_eq_ok.mp hs
    cases hs
    exact ⟨rfl, rfl⟩
  | attrRegister _ _ _ | registerModule _ _ _ _ | registerMtk _ _ =>
    cases hs
    exact ⟨rfl, rfl⟩
  | resolveLogDesc _ _ _ _ _ _ | move | writeService | recycle => cases hev

omit [DecidableEq B] in
/-- A writer is in another state, and nothing is handed over. -/
theorem Inv.setTls (h : s.Inv metrics threadId) {w : W} {t : TlsWriter}
    (ht : t.Inv s.svc.regs.core (metrics w) (threadId w)) (u : W) :
    (Function.update s.tls w t u).Inv s.svc.regs.core (metrics u) (threadId u) := by
  by_cases hu : u = w
  · subst hu
    rw [Function.update_self]
    exact ht
  · rw [Function.update_of_ne hu]
    exact h.tls u

omit [DecidableEq W] [DecidableEq B] in
/-- What a writer hands over is stamped as its other buffers. -/
theorem Inv.stamped_tls (h : s.Inv metrics threadId) {w : W} {bufs : List DataBuf} (hbufs : bufs = (s.tls w).bufs) :
    ∀ x ∈ bufs.map (Handed.mk w), x.buf.Stamped (packetType (metrics x.writer)) (threadId x.writer) := by
  intro x hx
  obtain ⟨b, hb, rfl⟩ := List.mem_map.mp hx
  rw [hbufs] at hb
  exact (h.tls w).stamped b hb

omit [DecidableEq B] in
/-- A call of `send` keeps the invariant. -/
theorem Inv.send (h : s.Inv metrics threadId) {w : W} {env : SendEnv} {c : Call} {l : Log} (htls : s.tls w = .log l)
    {o : Sent} (ho : l.send hash s.svc.regs.core env c = .ok o) : (s.afterSend hash w c o).Inv metrics threadId := by
  have hw := h.tls w
  rw [htls] at hw
  have hl : l.Inv s.svc.regs.core := by
    cases hw with
    | log l hkind hthread hinv hst => exact hinv
  have hgood := send_good hl h.svc.sound ho
  have hgrows : s.svc.regs.core.Grows o.core := hgood.grows.core
  refine
    { svc := h.svc.register hgood
      holding := h.holding
      resting := h.resting
      tls := fun u => ?_
      stamped := h.stamped
      grown := fun u a ha => ?_ }
  · show (Function.update s.tls w (.log o.log) u).Inv o.core (metrics u) (threadId u)
    by_cases hu : u = w
    · subst hu
      rw [Function.update_self]
      exact hw.send h.svc.sound ho
    · rw [Function.update_of_ne hu]
      exact (h.tls u).grows hgrows
  · show a.core.Grows o.core
    simp only [afterSend] at ha
    split at ha
    · rcases List.mem_append.mp ha with ha | ha
      · exact (h.grown u a ha).trans hgrows
      · cases List.mem_singleton.mp ha
        exact Core.Grows.refl _
    · exact (h.grown u a ha).trans hgrows

omit [DecidableEq B] in
theorem Inv.emit (h : s.Inv metrics threadId) {w : W} {env : EmitEnv} {id : Int32} {value : UInt64} {m : Mtk}
    (htls : s.tls w = .mtk m) {o : Emitted} (ho : m.emit env id value = .ok o) :
    (s.afterEmit w id value o).Inv metrics threadId := by
  have hw := h.tls w
  rw [htls] at hw
  refine { h with tls := h.setTls (hw.emit ho), grown := fun u a ha => ?_ }
  simp only [afterEmit] at ha
  split at ha
  · rcases List.mem_append.mp ha with ha | ha
    · exact h.grown u a ha
    · cases List.mem_singleton.mp ha
  · exact h.grown u a ha

omit [DecidableEq W] [DecidableEq B] in
/-- The statistics are no part of the invariant. -/
theorem Inv.dropsOnly (h : s.Inv metrics threadId) (hs : s.DropsOnly s') : s'.Inv metrics threadId := by
  obtain ⟨htls, hsame⟩ := hs
  rw [hsame]
  refine { h with tls := fun w => ?_ }
  rcases htls w with hw | hw
  · exact hw ▸ h.tls w
  · exact hw ▸ (h.tls w).pullDropped

omit [DecidableEq W] [DecidableEq B] in
/-- Nor are they any of the buffers. -/
theorem DropsOnly.bufs (hs : s.DropsOnly s') (w : W) : (s'.tls w).bufs = (s.tls w).bufs := by
  rcases hs.tls w with hw | hw
  · rw [hw]
  · rw [hw, TlsWriter.pullDropped_bufs]

/-- The worker keeps the invariant. -/
theorem Inv.workerStep (h : s.Inv metrics threadId) {signal grown : Bool} (hs : WorkerSteps ops s signal grown s') :
    s'.Inv metrics threadId := by
  cases hs with
  | wait hpc hsignal =>
    exact { h with holding := fun hp => (by cases hp), resting := fun _ => h.resting (by simp [hpc]) }
  | svc svc hpc hmove =>
    have hsvc := h.svc.step hmove
    obtain ⟨-, hmove⟩ := when_eq_ok.mp hmove
    cases hmove
    exact { h with svc := hsvc, holding := fun _ => rfl, resting := fun hp => absurd rfl hp }
  | writeSvc sink ok svc svc' hpc hsink hwrite hrecycle =>
    have hsvc := (h.svc.step hwrite).step hrecycle
    obtain ⟨-, hwrite⟩ := when_eq_ok.mp hwrite
    cases hwrite
    obtain ⟨-, hrecycle⟩ := when_eq_ok.mp hrecycle
    cases hrecycle
    exact { h with svc := hsvc, holding := fun hp => (by cases hp), resting := fun _ => rfl }
  | ready hpc =>
    refine { h with
      holding := fun hp => (by cases hp), resting := fun _ => h.resting (by simp [hpc]), stamped := fun x hx => h.stamped x ?_ }
    simpa [sent] using hx
  | drain hpc | pulled hpc =>
    exact { h with holding := fun hp => (by cases hp), resting := fun _ => h.resting (by simp [hpc]) }
  | pull w ws hpc =>
    have hnew := h.stamped_tls (w := w) (s.tls w).pull_bufs.1
    refine { h with
      holding := fun hp => by cases hp
      resting := fun _ => h.resting (by simp [hpc])
      tls := h.setTls (h.tls w).pull
      stamped := fun x hx => ?_ }
    have hx : x ∈ s.sent ∨ x ∈ (s.tls w).pull.2.map (Handed.mk w) := by
      simp only [sent, List.mem_append] at hx ⊢
      tauto
    exact hx.elim (h.stamped x) (hnew x)
  | poll hpc hbusy => exact h.dropsOnly s.dropsOnly_pollStep
  | flush sink ok hpc hidle hsink =>
    refine { h with
      holding := fun hp => (by cases hp), resting := fun _ => h.resting (by simp [hpc]), stamped := fun x hx => h.stamped x ?_ }
    simpa [sent] using hx
  | recycle hpc =>
    refine { h with holding := fun hp => ?_, resting := fun _ => h.resting (by simp [hpc]) }
    dsimp only at hp
    split at hp <;> cases hp

/-- Every step keeps the invariant. -/
theorem Inv.step (h : s.Inv metrics threadId) {ev : SessionEv W B} (hs : s.step hash ops ev = .ok s') :
    s'.Inv metrics threadId := by
  cases step_cases hs with
  | service ev svc hclient hstep =>
    obtain ⟨hcore, hphase, -⟩ := service_ofClient hclient hstep
    exact
      { h with
        svc := h.svc.step hstep
        holding := fun hp => hphase.trans (h.holding hp)
        resting := fun hp => hphase.trans (h.resting hp)
        tls := fun w => (h.tls w).grows hcore
        grown := fun w a ha => (h.grown w a ha).trans hcore }
  | setVerbosity module verbosity =>
    have hcore := (s.svc.regs.grows_setVerbosity module verbosity).core
    exact
      { h with
        svc := h.svc.setVerbosity module verbosity
        tls := fun w => (h.tls w).grows hcore
        grown := fun w a ha => (h.grown w a ha).trans hcore }
  | attach w hphase hpos => exact { h with }
  | registerWriter w hphase hfree => exact { h with }
  | send w module env c l o htls hphase hpulled hmodule ho => exact h.send htls ho
  | emit w env id value m o htls hphase hpulled ho => exact h.emit htls ho
  | corePush w hphase =>
    have hnew := h.stamped_tls (w := w) (s.tls w).corePush_bufs.1
    refine { h with tls := h.setTls (h.tls w).corePush, stamped := fun x hx => ?_ }
    have hx : x ∈ s.sent ∨ x ∈ (s.tls w).corePush.2.map (Handed.mk w) := by
      have hall : x ∈ s.written ++ s.batch ++ (s.ready ++ (s.tls w).corePush.2.map (Handed.mk w)) := hx
      simp only [sent, List.mem_append] at hall ⊢
      tauto
    exact hx.elim (h.stamped x) (hnew x)
  | pullDropped w hphase hsettle => exact h.dropsOnly (s.dropsOnly_pullDropped w _)
  | addDropped w stats hsettle => exact h.dropsOnly (s.dropsOnly_rest _ _ _)
  | unregister w hphase hsettle hfree => exact { h with }
  | release w hphase => exact { h with }
  | coreRelease howned => exact { h with }
  | poll hpc hidle => exact h.dropsOnly (s.dropsOnly_rest _ _ _)
  | worker signal grown s' hw => exact h.workerStep hw

end Session

end P8
