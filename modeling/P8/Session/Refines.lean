import P8.Core.Delivery
import P8.Session.Writers

/-!
# Refines: a session is a run of the abstract flow

`Flow` numbers the buffers of a writer and knows of their bytes only whether the next buffer goes on with the last record. Here
each step of a session is matched by steps of `Flow`, so that what was proved there of every interleaving holds of the buffers
with their bytes: a call of `send` parks the buffer, takes a new one, and writes a record with as many rotations as the bytes
have made, or less than that. The descriptors are not matched: a record of the outline refers to none, and what the service stream
has for the records of a session is in `Receiver` and `Stopped`. The polls of the drop counters leave the outline as it is.
-/

namespace P8

open Bytes Framing

/-! ## One writer -/

namespace TlsWriter

/-- `mo_fragments`. -/
def fragments : TlsWriter → List DataBuf
  | .log l => l.fragments
  | .mtk m => m.fragments

/-- `mp_buffer`. -/
def buffer : TlsWriter → Option DataBuf
  | .log l => l.buffer
  | .mtk m => m.buffer

/-- A writer's buffers are the parked ones and the current one. -/
theorem bufs_eq (t : TlsWriter) : t.bufs = t.fragments ++ t.buffer.toList := by
  cases t <;> rfl

variable {W : Type}

/-- The abstract writer `st` has as many buffers as the writer `t`, marked in the same way. -/
structure Outlines (t : TlsWriter) (st : WriterState W) : Prop where
  fragments : st.fragments.map Filled.cont = t.fragments.map (·.frame.cont)
  buffer : st.buffer.map Filled.cont = t.buffer.map (·.frame.cont)

variable {t t' : TlsWriter} {st : WriterState W}

/-- A writer and its outline hold as many buffers, marked alike. -/
theorem Outlines.held (h : t.Outlines st) : st.held.map Filled.cont = t.bufs.map (·.frame.cont) := by
  rw [WriterState.held, bufs_eq, List.map_append, List.map_append, h.fragments, ← Option.toList_map, h.buffer,
    Option.toList_map]

/-- Where one has a current buffer, the other has. -/
theorem Outlines.buffer_some (h : t.Outlines st) {b : DataBuf} (hb : t.buffer = some b) :
    ∃ x, st.buffer = some x ∧ x.cont = b.frame.cont := by
  have hmap := h.buffer
  rw [hb, Option.map_some, Option.map_eq_some_iff] at hmap
  exact hmap

/-- A writer whose buffers are all parked. -/
theorem Outlines.park (h : t.Outlines st) (hbufs : t'.bufs = t.bufs) (hnone : t'.buffer = none) : t'.Outlines st.park := by
  have hheld := h.held
  rw [← hbufs, bufs_eq, hnone, Option.toList_none, List.append_nil] at hheld
  have hpark : st.park.fragments = st.held ∧ st.park.buffer = none := by
    unfold WriterState.park WriterState.held
    cases hb : st.buffer with
    | none => simp [hb]
    | some b => simp
  refine ⟨?_, ?_⟩
  · rw [hpark.1, hheld]
  · rw [hpark.2, hnone]
    rfl

/-- A writer that has taken a new buffer behind those it had. -/
theorem Outlines.fresh (h : t.Outlines st) (w : W) {b : DataBuf} (hbufs : t'.bufs = t.bufs ++ [b]) (hb : t'.buffer = some b)
    (hcont : b.frame.cont = false) : t'.Outlines (st.park.fetch w) := by
  rw [bufs_eq, hb, Option.toList_some] at hbufs
  have hfragments := List.append_cancel_right hbufs
  have hparked : (TlsWriter.mtk ⟨true, t'.fragments, none, 0, 0, 0⟩).Outlines st.park := by
    refine h.park ?_ rfl
    rw [← hfragments]
    exact List.append_nil _
  refine ⟨hparked.fragments, ?_⟩
  rw [hb, Option.map_some, hcont]
  rfl

/-- A writer with the same buffers, but for the bytes in the last one. -/
theorem Outlines.same (h : t.Outlines st) (hfragments : t'.fragments = t.fragments)
    (hbuffer : t'.buffer.map (·.frame.cont) = t.buffer.map (·.frame.cont)) : t'.Outlines st :=
  ⟨by rw [hfragments]; exact h.fragments, by rw [hbuffer]; exact h.buffer⟩

/-- A writer whose counters were read. -/
theorem Outlines.pullDropped (h : t.Outlines st) : t.pullDropped.1.Outlines st := by
  cases t <;> exact h.same rfl rfl

end TlsWriter

section

variable {W : Type}

/-- The buffers a record leaves behind are marked, and its last one is not. -/
theorem rotate_conts (refs : List DescKey) (k n : Nat) {b : Filled W} (hb : b.cont = false) :
    (WriterState.rotate refs k n b).1.map Filled.cont = List.replicate k true ∧
      (WriterState.rotate refs k n b).2.cont = false := by
  induction k generalizing n b with
  | zero => exact ⟨rfl, hb⟩
  | succ k ih =>
    obtain ⟨hleft, hlast⟩ := ih (n + 1) (b := ⟨b.writer, n, false, refs⟩) rfl
    refine ⟨?_, hlast⟩
    rw [WriterState.rotate, List.map_cons, hleft, List.replicate_succ]

variable {t t' : TlsWriter} {st : WriterState W} {b : Filled W} {k : Nat}

/-- A record that is finished: its buffers but the last one are marked as continued. -/
theorem TlsWriter.Outlines.finish (h : t.Outlines st) (hcont : b.cont = false)
    (hbufs : t'.bufs.map (·.frame.cont) = t.fragments.map (·.frame.cont) ++ List.replicate k true ++ [false]) :
    t'.Outlines (st.record [] k (if t'.buffer.isSome then .kept else .parked) b).1 := by
  obtain ⟨hleft, hlast⟩ := rotate_conts [] k st.next (b := { b with refs := b.refs ++ [] }) hcont
  rw [TlsWriter.bufs_eq] at hbufs
  cases hsome : t'.buffer with
  | none =>
    rw [hsome, Option.toList_none, List.append_nil] at hbufs
    refine ⟨?_, by rw [hsome]; rfl⟩
    rw [hbufs, ← h.fragments, ← hleft, ← hlast]
    simp [WriterState.record]
  | some x =>
    rw [hsome, Option.toList_some, List.map_append, List.map_singleton] at hbufs
    obtain ⟨hfragments, hx⟩ := List.append_inj' hbufs rfl
    refine ⟨?_, ?_⟩
    · rw [hfragments, ← h.fragments, ← hleft]
      simp [WriterState.record]
    · rw [hsome, Option.map_some, List.singleton_inj.mp hx, ← hlast]
      rfl

/-- A record that is discarded. -/
theorem TlsWriter.Outlines.discard (h : t.Outlines st) (hfragments : t'.fragments = t.fragments) (hnone : t'.buffer = none) :
    t'.Outlines (st.record [] 0 .discarded b).1 := by
  refine ⟨?_, by rw [hnone]; rfl⟩
  rw [hfragments, ← h.fragments]
  simp [WriterState.record, WriterState.rotate]

end

/-! ## What a writer does to the abstract flow -/

section

variable {W : Type} [DecidableEq W]

/-- The writer `w` can bring itself to the state `st`, and nothing else changes but what is rolled back. -/
def Moves (w : W) (f : FlowSys W) (st : WriterState W) : Prop :=
  ∃ evs rolledBack, f.run evs = .ok { f.setWriter w st with rolledBack := rolledBack }

variable {w : W} {f : FlowSys W} {st : WriterState W}

/-- Doing nothing is a run. -/
theorem Moves.refl (w : W) (f : FlowSys W) : Moves w f (f.writer w) := by
  refine ⟨[], f.rolledBack, ?_⟩
  show Except.ok f = _
  rw [FlowSys.setWriter, Function.update_eq_self]

/-- One more step of the writer. -/
theorem Moves.step (h : Moves w f st) (ev : FlowEv W) {st' : WriterState W}
    (hstep : ∀ rolledBack, ∃ rolledBack', { f.setWriter w st with rolledBack := rolledBack }.step ev =
      .ok { f.setWriter w st' with rolledBack := rolledBack' }) : Moves w f st' := by
  obtain ⟨evs, rolledBack, hrun⟩ := h
  obtain ⟨rolledBack', hs⟩ := hstep rolledBack
  refine ⟨evs ++ [ev], rolledBack', ?_⟩
  rw [FlowSys.run, Runs.run_append hrun, Runs.run_step hs]
  rfl

/-- Parking the current buffer is one. -/
theorem Moves.park (h : Moves w f st) (hlive : st.phase = .live) : Moves w f st.park := by
  refine h.step (.park w) (fun rolledBack => ⟨rolledBack, ?_⟩)
  simp [FlowSys.step, FlowSys.setWriter, when, hlive]

/-- Fetching a buffer is one. -/
theorem Moves.fetch (h : Moves w f st) (hlive : st.phase = .live) (hnone : st.buffer = none) :
    Moves w f (st.fetch w) := by
  refine h.step (.fetch w) (fun rolledBack => ⟨rolledBack, ?_⟩)
  simp [FlowSys.step, FlowSys.setWriter, when, hlive, hnone]

/-- A record is one. -/
theorem Moves.record (h : Moves w f st) (hlive : st.phase = .live) {b : Filled W} (hb : st.buffer = some b) (k : Nat)
    (ending : RecordEnd) : Moves w f (st.record [] k ending b).1 := by
  refine h.step (.record w [] k ending) (fun rolledBack => ⟨rolledBack ++ (st.record [] k ending b).2, ?_⟩)
  simp [FlowSys.step, FlowSys.setWriter, when, hlive, hb]

/-- The writer `w` of the abstract flow can follow the writer `t`. -/
def Follows (w : W) (f : FlowSys W) (t : TlsWriter) : Prop :=
  ∃ st, Moves w f st ∧ st.phase = .live ∧ t.Outlines st

variable {t t' : TlsWriter}

/-- A writer that parks its current buffer is followed. -/
theorem Follows.park (h : Follows w f t) (hbufs : t'.bufs = t.bufs) (hnone : t'.buffer = none) : Follows w f t' := by
  obtain ⟨st, hmoves, hlive, hout⟩ := h
  exact ⟨st.park, hmoves.park hlive, st.park_phase.trans hlive, hout.park hbufs hnone⟩

/-- One that gets a fresh buffer is followed. -/
theorem Follows.fresh (h : Follows w f t) {b : DataBuf} (hbufs : t'.bufs = t.bufs ++ [b]) (hb : t'.buffer = some b)
    (hcont : b.frame.cont = false) : Follows w f t' := by
  obtain ⟨st, hmoves, hlive, hout⟩ := h
  have hnone : st.park.buffer = none := by
    unfold WriterState.park
    cases hst : st.buffer with
    | none => exact hst
    | some x => rfl
  have hparked := st.park_phase.trans hlive
  exact ⟨st.park.fetch w, (hmoves.park hlive).fetch hparked hnone, hparked, hout.fresh w hbufs hb hcont⟩

/-- One whose buffers stay the same, with their marks, is followed. -/
theorem Follows.same (h : Follows w f t) (hfragments : t'.fragments = t.fragments)
    (hbuffer : t'.buffer.map (·.frame.cont) = t.buffer.map (·.frame.cont)) : Follows w f t' := by
  obtain ⟨st, hmoves, hlive, hout⟩ := h
  exact ⟨st, hmoves, hlive, hout.same hfragments hbuffer⟩

omit [DecidableEq W] in
/-- A record does not change a writer's phase. -/
theorem record_phase (st : WriterState W) (refs : List DescKey) (k : Nat) (ending : RecordEnd) (b : Filled W) :
    (st.record refs k ending b).1.phase = st.phase := by
  cases ending <;> rfl

/-- A record is finished in the buffer the writer has. -/
theorem Follows.finish (h : Follows w f t) {b : DataBuf} (hb : t.buffer = some b) (hcont : b.frame.cont = false) {k : Nat}
    (hbufs : t'.bufs.map (·.frame.cont) = t.fragments.map (·.frame.cont) ++ List.replicate k true ++ [false]) :
    Follows w f t' := by
  obtain ⟨st, hmoves, hlive, hout⟩ := h
  obtain ⟨x, hx, hxcont⟩ := hout.buffer_some hb
  exact ⟨_, hmoves.record hlive hx k _, (record_phase st [] k _ x).trans hlive, hout.finish (hxcont.trans hcont) hbufs⟩

/-- A record is discarded. -/
theorem Follows.discard (h : Follows w f t) {b : DataBuf} (hb : t.buffer = some b) (hfragments : t'.fragments = t.fragments)
    (hnone : t'.buffer = none) : Follows w f t' := by
  obtain ⟨st, hmoves, hlive, hout⟩ := h
  obtain ⟨x, hx, -⟩ := hout.buffer_some hb
  exact ⟨_, hmoves.record hlive hx 0 .discarded, (record_phase st [] 0 _ x).trans hlive, hout.discard hfragments hnone⟩

end

/-! ## The calls -/

section

variable {W : Type} [DecidableEq W] {w : W} {f : FlowSys W} {hash : CStr → UInt32 → UInt64} {core : Core} {l : Log}
  {env : SendEnv} {c : Call}

/-- A call that returns without writing. -/
theorem Idle.follows {o : Sent} (hi : Idle core l o) (hnone : o.delivered = []) (h : Follows w f (.log l)) :
    Follows w f (.log o.log) := by
  rcases hi.bufs with ⟨hbufs, hbuffer | ⟨hbuffer, -⟩⟩ | ⟨b, hframe, hbuffer, -, hbufs⟩
  · rw [hnone] at hbufs
    exact h.park hbufs hbuffer
  · rw [hnone, List.nil_append, Log.bufs, Log.bufs, hbuffer] at hbufs
    exact h.same (List.append_cancel_right hbufs) (congrArg _ hbuffer)
  · rw [hnone] at hbufs
    exact h.fresh hbufs hbuffer (by rw [hframe])

/-- A writer about to write a record. -/
theorem Begins.follows {p : Prepared} (hb : Begins hash core l c p) (hnone : p.delivered = []) (h : Follows w f (.log l)) :
    Follows w f (.log p.log) := by
  rcases hb.bufs with ⟨hbufs, hbuffer, -, -⟩ | ⟨hbufs, hframe, -⟩
  · rw [hnone, List.nil_append, hb.bufs_eq, Log.bufs, hbuffer, Option.toList_some] at hbufs
    refine h.same (List.append_cancel_right hbufs) (congrArg _ ?_)
    exact hb.buffer.trans hbuffer.symm
  · rw [hnone] at hbufs
    exact h.fresh hbufs hb.buffer (by rw [hframe])

/-- A finished record: the buffers it has left are marked, its last one is not. -/
theorem Finished.conts {d : LogDesc} {b : DataBuf} {l' : Log} {g : LogItemDat} {gap : List UInt8} {tp : Tape UInt8}
    (hf : Finished l env core d c b l' g gap tp) :
    ∃ k, l'.bufs.map (·.frame.cont) = l.fragments.map (·.frame.cont) ++ List.replicate k true ++ [false] := by
  obtain ⟨rest, hdone, hrest⟩ := hf.spill.bounds
  have hmarked : rest.map Frame.cont = List.replicate rest.length true := by
    rw [List.map_eq_replicate_iff]
    intro x hx
    obtain ⟨pre, post, hsplit⟩ := List.append_of_mem hx
    exact (hrest pre x post hsplit).1
  have hall := congrArg (List.map Frame.cont) hf.bufs
  rw [List.map_map, List.map_append, hdone, List.map_append, List.map_map, hmarked] at hall
  exact ⟨rest.length, hall⟩

/-- A call of `send` is followed by the abstract writer. -/
theorem send_follows (h : l.Inv core) (hc : core.Sound) (hpulled : env.pulled = false) {o : Sent}
    (ho : l.send hash core env c = .ok o) (hf : Follows w f (.log l)) : Follows w f (.log o.log) := by
  have hnone := send_unpulled hpulled ho
  have hcases := send_cases hash env c h hc
  rw [ho] at hcases
  cases hcases with
  | idle o hp hi => exact hi.follows hnone hf
  | accepted p l' g gap tp hp hb hroom hfin =>
    obtain ⟨k, hk⟩ := hfin.conts
    exact (hb.follows hnone hf).finish hb.buffer hb.unflagged hk
  | abandoned p l' released hp hb hroom hd =>
    exact (hb.follows hnone hf).discard hb.buffer hd.fragments hd.buffer

/-- A call of `emit` is followed by the abstract writer. -/
theorem emit_follows {m : Mtk} {env : EmitEnv} {id : Int32} {value : UInt64} (h : m.Inv)
    (hplain : ∀ b ∈ m.bufs, b.frame.cont = false) (hpulled : env.pulled = false) {o : Emitted}
    (ho : m.emit env id value = .ok o) (hplain' : ∀ b ∈ o.mtk.bufs, b.frame.cont = false) (hf : Follows w f (.mtk m)) :
    Follows w f (.mtk o.mtk) := by
  obtain ⟨-, ⟨-, hfragments, hbuffer⟩ | ⟨-, b', hb'⟩⟩ := emit_unpulled h hpulled ho
  · exact hf.same hfragments (congrArg _ hbuffer)
  · have hbufs : o.mtk.bufs = m.fragments ++ [b'] := by
      rcases hb' with ⟨hfragments, hbuffer⟩ | ⟨hfragments, hbuffer⟩ <;> simp [Mtk.bufs, hfragments, hbuffer]
    have hcont : b'.frame.cont = false := hplain' b' (by rw [hbufs]; simp)
    have hconts : (TlsWriter.mtk o.mtk).bufs.map (·.frame.cont) =
        m.fragments.map (·.frame.cont) ++ List.replicate 0 true ++ [false] := by
      rw [show (TlsWriter.mtk o.mtk).bufs = m.fragments ++ [b'] from hbufs, List.map_append, List.map_singleton, hcont]
      simp
    cases hbuffer : m.buffer with
    | some b =>
      have hb : b ∈ m.bufs := by simp [Mtk.bufs, hbuffer]
      exact hf.finish hbuffer (hplain b hb) hconts
    | none =>
      -- the new buffer, before the sample is written to it
      have hnew : Follows w f (.mtk { m with buffer := some b' }) :=
        hf.fresh (by simp [TlsWriter.bufs, Mtk.bufs, hbuffer]) rfl hcont
      exact hnew.finish rfl hcont hconts

end

/-! ## The refinement -/

/-- What is left of a buffer in the abstract flow: its writer, and whether the writer's next one goes on with its last record. -/
def Handed.outline {W : Type} (h : Handed W) : W × Bool := (h.writer, h.buf.frame.cont)

def Filled.outline {W : Type} (t : Filled W) : W × Bool := (t.writer, t.cont)

namespace Session

variable {W B F : Type} [DecidableEq W] [DecidableEq B] {hash : CStr → UInt32 → UInt64} {ops : FileOps F}
  {s s' : Session W B F} {f : FlowSys W} {metrics : W → Bool} {threadId : W → UInt32}

/-- The abstract flow `f` is the session `s` without the bytes: who is in which phase, and which buffers are where. The descriptors
and what a record refers to are left out, and so are the drop counters. -/
structure Outline (s : Session W B F) (f : FlowSys W) : Prop where
  phase : ∀ w, (f.writer w).phase = s.phase w
  tls : ∀ w, (s.tls w).Outlines (f.writer w)
  registry : f.registry = s.registry
  refCount : f.refCount = s.refCount
  owned : f.owned = s.owned
  stopping : f.stopping = s.stopping
  pc : f.pc = s.pc
  stop : f.stop = s.stop
  ready : f.ready.map Filled.outline = s.ready.map Handed.outline
  batch : f.batch.map Filled.outline = s.batch.map Handed.outline
  flushed : f.flushed.map Filled.outline = s.flushed.map Handed.outline
  written : f.written.flatten.map Filled.outline = s.written.map Handed.outline

omit [DecidableEq W] [DecidableEq B] in
theorem outline_init (ops : FileOps F) (heap : B → Mem) (sink : SinkFile F) (hdr : Mem) (metrics : W → Bool)
    (threadId : W → UInt32) : (init ops heap sink hdr metrics threadId).Outline FlowSys.init where
  phase := fun _ => rfl
  tls := by
    intro w
    show (TlsWriter.init (metrics w) (threadId w)).Outlines _
    cases metrics w <;> exact ⟨rfl, rfl⟩
  registry := rfl
  refCount := rfl
  owned := rfl
  stopping := rfl
  pc := rfl
  stop := rfl
  ready := rfl
  batch := rfl
  flushed := rfl
  written := rfl

omit [DecidableEq W] [DecidableEq B] in
/-- Where the registry is free in a session, it is free in its outline. -/
theorem Outline.unlocked (h : s.Outline f) (hfree : s.locked = false) : f.locked = false := by
  unfold FlowSys.locked
  unfold Session.locked at hfree
  rw [h.pc]
  cases hpc : s.pc with
  | pull ws =>
    rw [hpc] at hfree
    cases hfree
  | _ => rfl

omit [DecidableEq B] in
/-- What a writer hands over, abstractly. -/
theorem Outline.handed (h : s.Outline f) (hinv : f.Inv) {w : W} {bufs : List DataBuf} (hbufs : bufs = (s.tls w).bufs) :
    (f.writer w).held.map Filled.outline = (bufs.map (Handed.mk w)).map Handed.outline := by
  have hout : (f.writer w).held.map Filled.outline = ((f.writer w).held.map Filled.cont).map (Prod.mk w) := by
    rw [List.map_map]
    exact List.map_congr_left (fun t ht => by rw [Filled.outline, (hinv.tracks w).own t ht]; rfl)
  rw [hout, (h.tls w).held, hbufs, List.map_map, List.map_map]
  rfl

omit [DecidableEq B] in
/-- A writer is in another state, and its outline is. -/
theorem Outline.setTls (h : s.Outline f) {w : W} {t : TlsWriter} {st : WriterState W} (ht : t.Outlines st) (u : W) :
    (Function.update s.tls w t u).Outlines (Function.update f.writer w st u) := by
  by_cases hu : u = w
  · subst hu
    rw [Function.update_self, Function.update_self]
    exact ht
  · rw [Function.update_of_ne hu, Function.update_of_ne hu]
    exact h.tls u

omit [DecidableEq B] in
/-- A writer that enters a phase does so in the outline. -/
theorem Outline.enter (h : s.Outline f) (w : W) (phase : WriterPhase) :
    ∀ u, (Function.update f.writer w ((f.writer w).enter phase) u).phase = Function.update s.phase w phase u ∧
      (s.tls u).Outlines (Function.update f.writer w ((f.writer w).enter phase) u) := by
  intro u
  by_cases hu : u = w
  · subst hu
    rw [Function.update_self, Function.update_self]
    exact ⟨rfl, (h.tls u).fragments, (h.tls u).buffer⟩
  · rw [Function.update_of_ne hu, Function.update_of_ne hu]
    exact ⟨h.phase u, h.tls u⟩

omit [DecidableEq B] in
/-- A writer's state is another one of the same phase. -/
theorem Outline.phase_update (h : s.Outline f) {w : W} {st : WriterState W} (hst : st.phase = s.phase w) (u : W) :
    (Function.update f.writer w st u).phase = s.phase u := by
  by_cases hu : u = w
  · subst hu
    rw [Function.update_self]
    exact hst
  · rw [Function.update_of_ne hu]
    exact h.phase u

omit [DecidableEq B] in
/-- A call of a writer, which the abstract one follows. -/
theorem Outline.call (h : s.Outline f) {w : W} (hlive : s.phase w = .live) {t : TlsWriter}
    (hfollows : Follows w f (s.tls w) → Follows w f t) {s' : Session W B F}
    (hs' : s' = { s.setTls w t with svc := s'.svc, accepted := s'.accepted }) :
    ∃ evs f', f.run evs = .ok f' ∧ s'.Outline f' := by
  obtain ⟨st, ⟨evs, rolledBack, hrun⟩, hst, hout⟩ :=
    hfollows ⟨f.writer w, Moves.refl w f, (h.phase w).trans hlive, h.tls w⟩
  refine ⟨evs, _, hrun, ?_⟩
  rw [hs']
  exact { h with phase := h.phase_update (hst.trans hlive.symm), tls := h.setTls hout }

omit [DecidableEq W] [DecidableEq B] in
/-- The statistics are no part of the outline. -/
theorem Outline.dropsOnly (h : s.Outline f) (hs : s.DropsOnly s') : s'.Outline f := by
  obtain ⟨htls, hsame⟩ := hs
  rw [hsame]
  refine { h with tls := fun w => ?_ }
  rcases htls w with hw | hw
  · exact hw ▸ h.tls w
  · exact hw ▸ (h.tls w).pullDropped

/-- While a poll goes on, the worker goes on with it. -/
theorem WorkerSteps.of_busy {signal grown : Bool} (hs : WorkerSteps ops s signal grown s') (hpc : s.pc = .flush)
    (hbusy : s.poll.busy = true) : s' = s.pollStep := by
  cases hs with
  | poll _ _ => rfl
  | flush sink ok _ hidle hsink => exact absurd hbusy (Bool.eq_false_iff.mp hidle)
  | _ => simp_all

/-- The worker's other steps are those of the abstract worker. -/
theorem Outline.workerStep (h : s.Outline f) (hinv : f.Inv) {signal grown : Bool} (hs : WorkerSteps ops s signal grown s')
    (hidle : ¬(s.pc = .flush ∧ s.poll.busy = true)) : ∃ f', f.step (.worker signal) = .ok f' ∧ s'.Outline f' := by
  rw [FlowSys.step, FlowSys.workerStep]
  cases hs with
  | wait hpc hsignal =>
    rw [h.pc, hpc]
    exact ⟨_, when_eq_ok.mpr ⟨fun hstop => h.stopping.trans (hsignal hstop), rfl⟩, { h with pc := rfl, stop := rfl }⟩
  | svc svc hpc hmove =>
    rw [h.pc, hpc]
    exact ⟨_, rfl, { h with pc := rfl }⟩
  | writeSvc sink ok svc svc' hpc hsink hwrite hrecycle =>
    rw [h.pc, hpc]
    exact ⟨_, rfl, { h with pc := rfl }⟩
  | ready hpc =>
    rw [h.pc, hpc]
    refine ⟨_, rfl, { h with pc := rfl, ready := rfl, batch := ?_ }⟩
    rw [List.map_append, List.map_append, h.batch, h.ready]
  | drain hpc =>
    rw [h.pc, hpc]
    exact ⟨_, rfl, { h with pc := congrArg CyclePc.pull h.registry }⟩
  | pulled hpc =>
    rw [h.pc, hpc]
    exact ⟨_, rfl, { h with pc := rfl }⟩
  | pull w ws hpc =>
    rw [h.pc, hpc]
    have hempty : (s.tls w).pull.1.Outlines (f.writer w).emptied := by
      have hbufs := (s.tls w).pull_bufs.2
      rw [TlsWriter.bufs_eq, List.append_eq_nil_iff, Option.toList_eq_nil_iff] at hbufs
      exact ⟨by rw [hbufs.1]; rfl, by rw [hbufs.2]; rfl⟩
    refine ⟨_, rfl, { h with phase := h.phase_update (h.phase w), tls := h.setTls hempty, pc := rfl, batch := ?_ }⟩
    rw [List.map_append, List.map_append, h.batch, h.handed hinv (s.tls w).pull_bufs.1]
  | poll hpc hbusy => exact absurd ⟨hpc, hbusy⟩ hidle
  | flush sink ok hpc hdone hsink =>
    rw [h.pc, hpc]
    refine ⟨_, rfl, { h with pc := rfl, batch := rfl, flushed := h.batch, written := ?_ }⟩
    rw [List.map_append, ← h.written, ← h.batch, ← List.map_append]
    dsimp only
    split
    · rename_i hbatch
      rw [hbatch, List.append_nil]
    · rw [List.flatten_append, List.flatten_singleton]
  | recycle hpc =>
    rw [h.pc, hpc]
    exact ⟨_, rfl, { h with pc := by rw [h.stop], flushed := rfl }⟩

/-- Every step is a run of the abstract flow. -/
theorem Outline.step (h : s.Outline f) (hinv : f.Inv) (hi : s.Inv metrics threadId) {ev : SessionEv W B}
    (hs : s.step hash ops ev = .ok s') : ∃ evs f', f.run evs = .ok f' ∧ s'.Outline f' := by
  have hone : ∀ (ev : FlowEv W) {f' : FlowSys W}, f.step ev = .ok f' → s'.Outline f' →
      ∃ evs f', f.run evs = .ok f' ∧ s'.Outline f' := fun ev _ hstep hout => ⟨[ev], _, Runs.run_step hstep [], hout⟩
  have hnone : s'.Outline f → ∃ evs f', f.run evs = .ok f' ∧ s'.Outline f' := fun hout => ⟨[], f, rfl, hout⟩
  cases step_cases hs with
  | service ev svc hclient hstep => exact hnone { h with }
  | setVerbosity module verbosity => exact hnone { h with }
  | attach w hphase hpos =>
    refine hone (.attach w) (when_eq_ok.mpr ⟨⟨(h.phase w).trans hphase, by rw [h.refCount]; exact hpos⟩, rfl⟩) ?_
    exact
      { h with
        phase := fun u => (h.enter w .attached u).1
        tls := fun u => (h.enter w .attached u).2
        refCount := congrArg (· + 1) h.refCount }
  | registerWriter w hphase hfree =>
    refine hone (.registerWriter w) (when_eq_ok.mpr ⟨⟨(h.phase w).trans hphase, h.unlocked hfree⟩, rfl⟩) ?_
    exact
      { h with
        phase := fun u => (h.enter w .live u).1
        tls := fun u => (h.enter w .live u).2
        registry := congrArg (w :: ·) h.registry }
  | send w module env c l o htls hphase hpulled hmodule ho =>
    have hw := hi.tls w
    rw [htls] at hw
    refine h.call (t := .log o.log) hphase (fun hf => ?_) rfl
    rw [htls] at hf
    cases hw with
    | log l hkind hthread hinv hst => exact send_follows hinv hi.svc.sound hpulled ho hf
  | emit w env id value m o htls hphase hpulled ho =>
    have hw := hi.tls w
    rw [htls] at hw
    have hw' := hw.emit ho
    refine h.call (t := .mtk o.mtk) hphase (fun hf => ?_) rfl
    rw [htls] at hf
    cases hw with
    | mtk m hkind hthread hinv hst hwhole hplain =>
      cases hw' with
      | mtk m' _ _ _ _ _ hplain' =>
        have hpulled' : ({ env with mtkCount := s.svc.regs.getMtkCount } : EmitEnv).pulled = false := hpulled
        exact emit_follows hinv hplain hpulled' ho hplain' hf
  | corePush w hphase =>
    refine hone (.corePush w) (when_eq_ok.mpr ⟨(h.phase w).trans hphase, rfl⟩) ?_
    have hempty : (s.tls w).corePush.1.Outlines ((f.writer w).emptied.enter .pushed) := by
      have hbufs := (s.tls w).corePush_bufs.2
      rw [TlsWriter.bufs_eq, List.append_eq_nil_iff, Option.toList_eq_nil_iff] at hbufs
      exact ⟨by rw [hbufs.1]; rfl, by rw [hbufs.2]; rfl⟩
    refine { h with phase := fun u => ?_, tls := h.setTls hempty, ready := ?_ }
    · show (Function.update f.writer w _ u).phase = Function.update s.phase w .pushed u
      by_cases hu : u = w
      · subst hu
        rw [Function.update_self, Function.update_self]
        rfl
      · rw [Function.update_of_ne hu, Function.update_of_ne hu]
        exact h.phase u
    · rw [List.map_append, h.ready, h.handed hinv (s.tls w).corePush_bufs.1, ← List.map_append]
  | pullDropped w hphase hsettle => exact hnone (h.dropsOnly (s.dropsOnly_pullDropped w _))
  | addDropped w stats hsettle => exact hnone (h.dropsOnly (s.dropsOnly_rest _ _ _))
  | unregister w hphase hsettle hfree =>
    refine hone (.unregister w) (when_eq_ok.mpr ⟨⟨(h.phase w).trans hphase, h.unlocked hfree⟩, rfl⟩) ?_
    exact
      { h with
        phase := fun u => (h.enter w .unregistered u).1
        tls := fun u => (h.enter w .unregistered u).2
        registry := congrArg (·.erase w) h.registry }
  | release w hphase =>
    refine hone (.release w) (when_eq_ok.mpr ⟨(h.phase w).trans hphase, rfl⟩) ?_
    exact
      { h with
        phase := fun u => (h.enter w .gone u).1
        tls := fun u => (h.enter w .gone u).2
        refCount := congrArg (· - 1) h.refCount
        stopping := by
          show (f.stopping || f.refCount == 1) = (s.stopping || s.refCount == 1)
          rw [h.stopping, h.refCount] }
  | coreRelease howned =>
    refine hone .coreRelease (when_eq_ok.mpr ⟨h.owned.trans howned, rfl⟩) ?_
    exact
      { h with
        refCount := congrArg (· - 1) h.refCount
        owned := rfl
        stopping := by
          show (f.stopping || f.refCount == 1) = (s.stopping || s.refCount == 1)
          rw [h.stopping, h.refCount] }
  | poll hpc hidle => exact hnone (h.dropsOnly (s.dropsOnly_rest _ _ _))
  | worker signal grown s' hw =>
    by_cases hpoll : s.pc = .flush ∧ s.poll.busy = true
    · refine hnone ?_
      rw [hw.of_busy hpoll.1 hpoll.2]
      exact h.dropsOnly s.dropsOnly_pollStep
    · obtain ⟨f', hstep, hout⟩ := h.workerStep hinv hw hpoll
      exact hone (.worker signal) hstep hout

/-- Refinement: whatever the calls, the registrations and the worker do in whatever order, a session is, without its bytes, its
descriptors and its drop counters, what a run of the abstract flow leads to. -/
theorem refines_flow (ops : FileOps F) (heap : B → Mem) (sink : SinkFile F) (hdr : Mem) (metrics : W → Bool)
    (threadId : W → UInt32) {evs : List (SessionEv W B)}
    (hr : (init ops heap sink hdr metrics threadId).run hash ops evs = .ok s) :
    ∃ fevs f, FlowSys.init.run fevs = .ok f ∧ s.Outline f := by
  have hsim := Runs.run_simulates
    (R := fun (s : Session W B F) f => s.Inv metrics threadId ∧ f.Inv ∧ s.Outline f)
    (fun s f ev s' ⟨hi, hf, hout⟩ hs => by
      obtain ⟨fevs, f', hrun, hout'⟩ := hout.step hf hi hs
      exact ⟨fevs, f', hrun, hi.step hs, Runs.run_induction hf (fun _ _ _ h hs => h.step hs) hrun, hout'⟩)
    ⟨inv_init ops heap sink hdr metrics threadId, FlowSys.inv_init, outline_init ops heap sink hdr metrics threadId⟩ hr
  obtain ⟨fevs, f, hrun, -, -, hout⟩ := hsim
  exact ⟨fevs, f, hrun, hout⟩

/-- On this run one buffer is written, in the session and in its outline. -/
theorem refines_flow_oneRecord : ∃ s, oneWriter.run LogSys.oneLine ScriptFile.ops oneRecord = .ok s ∧
    s.written.length = 1 ∧ ∃ fevs f, FlowSys.init.run fevs = .ok f ∧ s.Outline f := by
  have hall : (oneWriter.run LogSys.oneLine ScriptFile.ops oneRecord).toOption.any (fun s => s.written.length == 1) = true := by
    decide +kernel
  obtain ⟨s, hr, hlen⟩ := Runs.ok_of_any hall
  exact ⟨s, hr, beq_iff_eq.mp hlen, refines_flow ScriptFile.ops _ _ _ _ _ hr⟩

/-! ## What it says of the buffers -/

/-- A session whose outline the abstract flow can reach. -/
def Flows (s : Session W B F) : Prop := ∃ f : FlowSys W, s.Outline f ∧ f.Inv ∧ f.Stopping

omit [DecidableEq B] in
theorem flows_init (ops : FileOps F) (heap : B → Mem) (sink : SinkFile F) (hdr : Mem) (metrics : W → Bool)
    (threadId : W → UInt32) : (init ops heap sink hdr metrics threadId).Flows :=
  ⟨FlowSys.init, outline_init ops heap sink hdr metrics threadId, FlowSys.inv_init, FlowSys.stopping_init⟩

/-- Every step of a session is followed by the engine. -/
theorem Flows.step (h : s.Flows) (hi : s.Inv metrics threadId) {ev : SessionEv W B} (hs : s.step hash ops ev = .ok s') :
    s'.Flows := by
  obtain ⟨f, hout, hf, hstop⟩ := h
  obtain ⟨fevs, f', hrun, hout'⟩ := hout.step hf hi hs
  have hinv : f'.Inv ∧ f'.Stopping :=
    Runs.run_induction (P := fun f => f.Inv ∧ f.Stopping) ⟨hf, hstop⟩
      (fun _ _ _ h hs => ⟨h.1.step hs, h.2.step hs⟩) hrun
  exact ⟨f', hout', hinv.1, hinv.2⟩

omit [DecidableEq B] in
/-- Only a live writer holds buffers. -/
theorem Flows.idle (h : s.Flows) {w : W} (hw : s.phase w ≠ .live) : (s.tls w).bufs = [] := by
  obtain ⟨f, hout, hf, -⟩ := h
  have hheld := (hout.tls w).held
  rw [hf.idle w (by rw [hout.phase]; exact hw)] at hheld
  exact List.map_eq_nil_iff.mp hheld.symm

omit [DecidableEq B] in
/-- The writers of the ready queue hold none any more. -/
theorem Flows.past (h : s.Flows) {x : Handed W} (hx : x ∈ s.ready) : (s.tls x.writer).bufs = [] := by
  obtain ⟨f, hout, hf, hstop⟩ := h
  have hmem : x.outline ∈ f.ready.map Filled.outline := by
    rw [hout.ready]
    exact List.mem_map_of_mem hx
  obtain ⟨t, ht, heq⟩ := List.mem_map.mp hmem
  have hwriter : t.writer = x.writer := congrArg Prod.fst heq
  have hpast := hf.past t ht
  rw [hout.phase, hwriter] at hpast
  refine Flows.idle ⟨f, hout, hf, hstop⟩ (fun hlive => ?_)
  rw [hlive] at hpast
  cases hpast

omit [DecidableEq B] in
/-- At the end of the worker no buffer is left anywhere but in the sink. -/
theorem Flows.done (h : s.Flows) (hpc : s.pc = .done) : s.batch = [] ∧ s.ready = [] ∧ ∀ w, (s.tls w).bufs = [] := by
  obtain ⟨f, hout, hf, hstop⟩ := h
  have hpc' : f.pc = .done := hout.pc.trans hpc
  have hbatch := hout.batch
  have hready := hout.ready
  rw [hf.batch (by rw [hpc']; rfl)] at hbatch
  rw [hstop.swept (hstop.done hpc') (by rw [hpc']; rfl)] at hready
  refine ⟨List.map_eq_nil_iff.mp hbatch.symm, List.map_eq_nil_iff.mp hready.symm, fun w => ?_⟩
  refine Flows.idle ⟨f, hout, hf, hstop⟩ (fun hlive => ?_)
  have hnot := hstop.not_counted (hstop.signal (hstop.done hpc')) w
  rw [hout.phase, hlive] at hnot
  cases hnot

/-! ## The end of the worker -/

/-- How many steps the worker is away from its end, if the next event it waits for is the signal to stop. -/
def left (s : Session W B F) : Nat :=
  { (FlowSys.init : FlowSys W) with registry := s.registry, pc := s.pc, stop := s.stop }.left + s.poll.left

/-- The sink takes every batch. -/
theorem writeBatch_ok {contents : F → List UInt8} {writes : F → List Write} (h : ops.Appends contents writes) (w : OutFile)
    (sink : SinkFile F) (grown : Bool) (entries : List Iovec) {n : Nat} :
    ∃ sink', (if n = 0 then Except.ok sink else (sink.writeBatch ops w grown entries).map Prod.fst) = .ok sink' := by
  split
  · exact ⟨sink, rfl⟩
  · obtain ⟨sink', ok, hbatch, -⟩ := SinkFile.writeBatch_accounts h w sink grown entries
    exact ⟨sink', by rw [hbatch]; rfl⟩

/-- Where the writers hold nothing, the worker only moves the buffers it has and those in the ready queue. -/
theorem WorkerSteps.sent_eq {signal grown : Bool} (hs : WorkerSteps ops s signal grown s') (hnone : ∀ w, (s.tls w).bufs = []) :
    s'.sent = s.sent ∧ ∀ w, (s'.tls w).bufs = [] := by
  cases hs with
  | ready hpc => exact ⟨by simp [sent], hnone⟩
  | pull w ws hpc =>
    obtain ⟨hbufs, hempty⟩ := (s.tls w).pull_bufs
    refine ⟨by simp [sent, hbufs, hnone w, setTls], fun u => ?_⟩
    show (Function.update s.tls w (s.tls w).pull.1 u).bufs = []
    by_cases hu : u = w
    · subst hu
      rw [Function.update_self, hempty]
    · rw [Function.update_of_ne hu, hnone u]
  | poll hpc hbusy =>
    have hdrops := s.dropsOnly_pollStep
    exact ⟨by rw [hdrops.same]; rfl, fun u => (hdrops.bufs u).trans (hnone u)⟩
  | flush sink ok hpc hidle hsink => exact ⟨by simp [sent], hnone⟩
  | _ => exact ⟨rfl, hnone⟩

end Session

end P8
