import P8.Core.Delivery
import P8.Session.System

/-!
# Calls: where every call has gone

A call that is let in is recorded or counted as dropped, and never both: a log call is let in if it passes its threshold, its
writer has a core and the descriptor of its source line is there or can be made; a sample, if its metric is known. A drop that was
counted is in the counter of its writer until a poll or the writer's destructor reads it, then with the one that has read it, and in
the core's totals when that one has added it (`calls_settled`).
-/

namespace P8

open Bytes

/-- What a call is counted as. -/
def Item.kind : Item → DropKind
  | .log _ => .logs
  | .mtk _ _ => .metrics

/-- The call is let in. -/
def Log.admits (hash : CStr → UInt32 → UInt64) (l : Log) (core : Core) (env : SendEnv) (c : Call) : Bool :=
  !decide (c.level < l.minLevel core c) && l.attached &&
    match l.parkFull.takeBuffer env with
    | (_, _, none) => true
    | (l, _, some _) => (l.lookupDesc env core (hash c.file c.line) c).2.2.isSome

namespace TlsWriter

/-- A pull reads no counter. -/
@[simp] theorem dropped_pull (t : TlsWriter) (k : DropKind) : t.pull.1.dropped k = t.dropped k := by
  cases t with
  | log l =>
    show (TlsWriter.log l.pull.1).dropped k = _
    unfold Log.pull
    cases l.buffer <;> cases k <;> rfl
  | mtk m =>
    show (TlsWriter.mtk m.pull.1).dropped k = _
    unfold Mtk.pull
    cases m.buffer <;> cases k <;> rfl

@[simp] theorem dropped_corePush (t : TlsWriter) (k : DropKind) : t.corePush.1.dropped k = t.dropped k := by
  cases t <;> cases k <;> rfl

@[simp] theorem dropped_init (metrics : Bool) (threadId : UInt32) (k : DropKind) :
    (TlsWriter.init metrics threadId).dropped k = 0 := by
  cases metrics <;> cases k <;> rfl

/-- A counter that was read is zero again. -/
@[simp] theorem dropped_pullDropped (t : TlsWriter) (k : DropKind) : t.pullDropped.1.dropped k = 0 := by
  cases t <;> cases k <;> rfl

/-- What is read is what was counted. -/
@[simp] theorem pullDropped_snd (t : TlsWriter) : t.pullDropped.2 = t.dropped := by
  cases t <;> rfl

end TlsWriter

section

variable {hash : CStr → UInt32 → UInt64} {core : Core} {l : Log} {env : SendEnv} {c : Call}

/-- Parking a full buffer drops nothing. -/
theorem droppedLogs_parkFull (l : Log) : l.parkFull.droppedLogs = l.droppedLogs := by
  unfold Log.parkFull
  split
  · split <;> rfl
  · rfl

/-- Nor does a pull while the writer waits. -/
theorem droppedLogs_pullWhile (pulled : Bool) (l : Log) : (l.pullWhile pulled).1.droppedLogs = l.droppedLogs := by
  unfold Log.pullWhile
  cases pulled with
  | false => rfl
  | true => exact (TlsWriter.log l).dropped_pull .logs

/-- The wait for a buffer counts a drop if it ends without one. -/
theorem droppedLogs_takeBuffer (env : SendEnv) (l : Log) :
    (l.takeBuffer env).1.droppedLogs = l.droppedLogs + if (l.takeBuffer env).2.2.isSome then 0 else 1 := by
  unfold Log.takeBuffer
  cases l.buffer with
  | some b => rfl
  | none =>
    have hpull := droppedLogs_pullWhile env.pulled l
    generalize l.pullWhile env.pulled = r at hpull
    obtain ⟨l', delivered⟩ := r
    dsimp only at hpull ⊢
    rw [← hpull]
    cases env.waited <;> rfl

/-- A descriptor that cannot be made is not counted here. -/
theorem droppedLogs_lookupDesc (env : SendEnv) (core : Core) (k : UInt64) (c : Call) (l : Log) :
    (l.lookupDesc env core k c).1.droppedLogs = l.droppedLogs := by
  unfold Log.lookupDesc
  cases l.descMap k with
  | some d => rfl
  | none =>
    dsimp only
    generalize core.resolveLogDesc env.descAlloc k c.file c.line c.function c.format = r
    obtain ⟨core', d⟩ := r
    cases d <;> rfl

/-- A call that is let in returns true or counts a drop; one that is not does neither. -/
theorem send_counts {o : Sent} (ho : l.send hash core env c = .ok o) :
    (if o.outcome.result then 1 else 0) + o.log.droppedLogs =
      l.droppedLogs + if l.admits hash core env c then 1 else 0 := by
  rw [Log.send] at ho
  by_cases hlevel : c.level < l.minLevel core c
  · rw [Log.prepare, if_pos hlevel] at ho
    cases ho
    simp [Log.admits, hlevel, Outcome.result]
  cases hatt : l.attached with
  | false =>
    rw [Log.prepare, if_neg hlevel, hatt] at ho
    cases ho
    simp [Log.admits, hatt, Outcome.result]
  | true =>
    have htake := droppedLogs_takeBuffer env l.parkFull
    rw [droppedLogs_parkFull] at htake
    rw [Log.prepare, if_neg hlevel, hatt, if_neg (by decide)] at ho
    rcases ht : l.parkFull.takeBuffer env with ⟨l₁, delivered, _ | b⟩
    · -- the wait has ended without a buffer
      rw [ht] at htake ho
      cases ho
      simpa [Log.admits, hlevel, hatt, ht, Outcome.result] using htake
    rw [ht] at htake ho
    have hlookup := droppedLogs_lookupDesc env core (hash c.file c.line) c l₁
    rcases hl : l₁.lookupDesc env core (hash c.file c.line) c with ⟨l₂, core₂, _ | d⟩
    · -- no descriptor: neither recorded nor counted
      rw [hl] at hlookup
      simp only [hl] at ho
      cases ho
      simp_all [Log.admits, Outcome.result]
    rw [hl] at hlookup
    simp only [hl] at ho
    have hadmits : l.admits hash core env c = true := by simp [Log.admits, hlevel, hatt, ht, hl]
    have hcount : l₂.droppedLogs = l.droppedLogs := by simpa using hlookup.trans htake
    rw [if_pos hadmits]
    cases hw : l₂.writeRecord env core₂ d c b with
    | ok r =>
      rw [hw] at ho
      cases ho
      have hfinish : (l₂.finish r).droppedLogs = l₂.droppedLogs := by
        unfold Log.finish
        dsimp only
        split <;> rfl
      simp [Outcome.result, hfinish, hcount, Nat.add_comm]
    | error e =>
      rw [hw] at ho
      cases e with
      | fault => cases ho
      | discard r =>
        cases ho
        simp [Outcome.result, Log.discard, hcount]

/-- A metric writer's wait for a buffer counts in the same way. -/
theorem droppedMetrics_takeBuffer (env : EmitEnv) (m : Mtk) :
    (m.takeBuffer env).1.droppedMetrics = m.droppedMetrics + if (m.takeBuffer env).2.2.isSome then 0 else 1 := by
  unfold Mtk.takeBuffer
  cases m.buffer with
  | some b => rfl
  | none =>
    have hpull : (m.pullWhile env.pulled).1.droppedMetrics = m.droppedMetrics := by
      unfold Mtk.pullWhile
      cases env.pulled with
      | false => rfl
      | true => exact (TlsWriter.mtk m).dropped_pull .metrics
    generalize m.pullWhile env.pulled = r at hpull
    obtain ⟨m', delivered⟩ := r
    dsimp only at hpull ⊢
    rw [← hpull]
    cases env.waited <;> rfl

/-- So it is with samples. -/
theorem emit_counts {m : Mtk} {env : EmitEnv} {id : Int32} {value : UInt64} {o : Emitted} (ho : m.emit env id value = .ok o) :
    (if o.result then 1 else 0) + o.mtk.droppedMetrics = m.droppedMetrics + if m.known env id then 1 else 0 := by
  have hpark : m.parkFull.droppedMetrics = m.droppedMetrics := by
    unfold Mtk.parkFull
    split
    · split <;> rfl
    · rfl
  have htake := droppedMetrics_takeBuffer env m.parkFull
  rw [hpark] at htake
  unfold Mtk.emit at ho
  cases hknown : m.known env id with
  | false =>
    rw [hknown] at ho
    cases ho
    simp
  | true =>
    rw [hknown, if_neg (by decide)] at ho
    generalize m.parkFull.takeBuffer env = t at htake ho
    obtain ⟨m₁, delivered, ob⟩ := t
    cases ob with
    | none =>
      cases ho
      simpa using htake
    | some b =>
      dsimp only at htake ho
      rw [Option.isSome_some, if_pos rfl, Nat.add_zero] at htake
      split at ho
      · cases ho
        have hput : (m₁.put b (Mtk.item env id value)).droppedMetrics = m₁.droppedMetrics := by
          unfold Mtk.put
          dsimp only
          split <;> rfl
        simp [hput, htake, Nat.add_comm]
      · cases ho

end

namespace Session

variable {W B F : Type} [DecidableEq W] [DecidableEq B] {hash : CStr → UInt32 → UInt64} {ops : FileOps F} {s s' : Session W B F}

/-! ## Counters outside the registry -/

/-- The registry has the writers in use, each once. A writer's counters are zero when its destructor has read them, and outside the
registry nothing is counted. -/
structure Enrolled (s : Session W B F) : Prop where
  nodup : s.registry.Nodup
  listed : ∀ w, w ∈ s.registry ↔ s.phase w = .live ∨ s.phase w = .pushed
  settling : ∀ w, s.settle w ≠ .counting → (s.phase w).past = true ∧ ∀ k, (s.tls w).dropped k = 0
  outside : ∀ w, w ∉ s.registry → ∀ k, (s.tls w).dropped k = 0 ∧ (s.settle w).held k = 0

omit [DecidableEq W] [DecidableEq B] in
theorem enrolled_init (ops : FileOps F) (heap : B → Mem) (sink : SinkFile F) (hdr : Mem) (metrics : W → Bool)
    (threadId : W → UInt32) : (init ops heap sink hdr metrics threadId).Enrolled where
  nodup := List.nodup_nil
  listed := fun w => by simp [init]
  settling := fun w h => absurd rfl h
  outside := fun w _ k => ⟨TlsWriter.dropped_init (metrics w) (threadId w) k, rfl⟩

omit [DecidableEq B] in
/-- A writer that goes on in its life, not into the registry nor out of it. -/
theorem Enrolled.enter (h : s.Enrolled) (w : W) (phase : WriterPhase)
    (hin : phase = .live ∨ phase = .pushed ↔ s.phase w = .live ∨ s.phase w = .pushed)
    (hpast : (s.phase w).past = true → phase.past = true) : (s.enter w phase).Enrolled where
  nodup := h.nodup
  listed := fun u => by
    rw [show (s.enter w phase).registry = s.registry from rfl, h.listed u]
    show _ ↔ Function.update s.phase w phase u = .live ∨ Function.update s.phase w phase u = .pushed
    by_cases hu : u = w
    · subst hu
      rw [Function.update_self, hin]
    · rw [Function.update_of_ne hu]
  settling := fun u hsettle => by
    obtain ⟨hold, hread⟩ := h.settling u hsettle
    refine ⟨?_, hread⟩
    show (Function.update s.phase w phase u).past = true
    by_cases hu : u = w
    · subst hu
      rw [Function.update_self]
      exact hpast hold
    · rw [Function.update_of_ne hu]
      exact hold
  outside := h.outside

omit [DecidableEq B] in
/-- A writer has other counters: where it is live, or where nothing is counted that was not. -/
theorem Enrolled.setTls (h : s.Enrolled) {w : W} {t : TlsWriter}
    (ht : s.phase w = .live ∨ ∀ k, (s.tls w).dropped k = 0 → t.dropped k = 0) : (s.setTls w t).Enrolled := by
  have hzero : ∀ u, (u = w → s.phase w ≠ .live) → ∀ k, (s.tls u).dropped k = 0 →
      (Function.update s.tls w t u).dropped k = 0 := by
    intro u hlive k hk
    by_cases hu : u = w
    · subst hu
      rw [Function.update_self]
      exact ht.resolve_left (hlive rfl) k hk
    · rw [Function.update_of_ne hu]
      exact hk
  refine ⟨h.nodup, h.listed, fun u hsettle => ?_, fun u hu k => ?_⟩
  · obtain ⟨hpast, hread⟩ := h.settling u hsettle
    refine ⟨hpast, fun k => hzero u (fun he hlive => ?_) k (hread k)⟩
    rw [← he] at hlive
    rw [hlive] at hpast
    cases hpast
  · obtain ⟨hdropped, hheld⟩ := h.outside u hu k
    refine ⟨hzero u (fun he hlive => ?_) k hdropped, hheld⟩
    rw [← he] at hlive
    exact hu ((h.listed u).mpr (Or.inl hlive))

omit [DecidableEq B] in
/-- A destructor goes on with its counters, which it has read. -/
theorem Enrolled.settle (h : s.Enrolled) {w : W} (settling : Settling) (hpast : (s.phase w).past = true)
    (hread : ∀ k, (s.tls w).dropped k = 0) (hheld : w ∉ s.registry → ∀ k, settling.held k = 0) :
    { s with settle := Function.update s.settle w settling }.Enrolled := by
  refine ⟨h.nodup, h.listed, fun u hsettle => ?_, fun u hu k => ?_⟩
  · have hsettle : Function.update s.settle w settling u ≠ .counting := hsettle
    by_cases huw : u = w
    · subst huw
      exact ⟨hpast, hread⟩
    · rw [Function.update_of_ne huw] at hsettle
      exact h.settling u hsettle
  · show _ ∧ (Function.update s.settle w settling u).held k = 0
    by_cases huw : u = w
    · subst huw
      rw [Function.update_self]
      exact ⟨hread k, hheld hu k⟩
    · rw [Function.update_of_ne huw]
      exact h.outside u hu k

omit [DecidableEq B] in
/-- A writer gets into the registry. -/
theorem Enrolled.register (h : s.Enrolled) {w : W} (hphase : s.phase w = .attached) :
    { s.enter w .live with registry := w :: s.registry }.Enrolled := by
  have hnot : w ∉ s.registry := fun hw => by
    have hin := (h.listed w).mp hw
    simp [hphase] at hin
  have hcounting : s.settle w = .counting := by
    by_contra hne
    have hpast := (h.settling w hne).1
    rw [hphase] at hpast
    cases hpast
  refine ⟨List.nodup_cons.mpr ⟨hnot, h.nodup⟩, fun u => ?_, fun u hsettle => ?_, fun u hu k => ?_⟩
  · show _ ↔ Function.update s.phase w .live u = .live ∨ Function.update s.phase w .live u = .pushed
    by_cases hu : u = w
    · simp [hu]
    · rw [List.mem_cons, Function.update_of_ne hu, h.listed u]
      simp [hu]
  · have hu : u ≠ w := fun he => hsettle (he ▸ hcounting)
    show (Function.update s.phase w .live u).past = true ∧ _
    rw [Function.update_of_ne hu]
    exact h.settling u hsettle
  · exact h.outside u (fun hmem => hu (List.mem_cons_of_mem w hmem)) k

omit [DecidableEq B] in
/-- A writer leaves the registry when its counters have been added. -/
theorem Enrolled.unregister (h : s.Enrolled) {w : W} (hsettle : s.settle w = .settled) :
    { s.enter w .unregistered with registry := s.registry.erase w }.Enrolled := by
  refine ⟨h.nodup.erase w, fun u => ?_, fun u hsettle => ?_, fun u hu k => ?_⟩
  · show _ ↔ Function.update s.phase w .unregistered u = .live ∨ Function.update s.phase w .unregistered u = .pushed
    by_cases hu : u = w
    · simp [hu, h.nodup.not_mem_erase]
    · rw [List.mem_erase_of_ne hu, Function.update_of_ne hu, h.listed u]
  · obtain ⟨hpast, hread⟩ := h.settling u hsettle
    refine ⟨?_, hread⟩
    show (Function.update s.phase w .unregistered u).past = true
    by_cases hu : u = w
    · rw [hu, Function.update_self]
      rfl
    · rw [Function.update_of_ne hu]
      exact hpast
  · by_cases huw : u = w
    · refine ⟨(h.settling u (by rw [huw, hsettle]; simp)).2 k, ?_⟩
      show (s.settle u).held k = 0
      rw [huw, hsettle]
      rfl
    · exact h.outside u (fun hmem => hu ((List.mem_erase_of_ne huw).mpr hmem)) k

omit [DecidableEq B] in
/-- A poll reads counters, and never in the way of a destructor. -/
theorem Enrolled.pollStep (h : s.Enrolled) : s.pollStep.Enrolled := by
  unfold Session.pollStep
  split
  · exact h
  · exact h
  · exact { h with }
  · exact { h.setTls (Or.inr fun k _ => TlsWriter.dropped_pullDropped _ k) with }
  · exact { h with }

/-- Every step keeps the registry as it should be. -/
theorem Enrolled.step (h : s.Enrolled) {ev : SessionEv W B} (hs : s.step hash ops ev = .ok s') : s'.Enrolled := by
  cases step_cases hs with
  | service _ _ _ _ | setVerbosity _ _ | coreRelease _ | poll _ _ => exact { h with }
  | attach w hphase hpos =>
    exact { h.enter w .attached (by simp [hphase]) (by simp [hphase, WriterPhase.past]) with }
  | registerWriter w hphase hfree => exact h.register hphase
  | send w module env c l o htls hphase hpulled hmodule ho => exact { h.setTls (t := .log o.log) (Or.inl hphase) with }
  | emit w env id value m o htls hphase hpulled ho => exact { h.setTls (t := .mtk o.mtk) (Or.inl hphase) with }
  | corePush w hphase =>
    have hsame := h.setTls (w := w) (Or.inr fun k hk => ((s.tls w).dropped_corePush k).trans hk)
    have hlive : (s.setTls w (s.tls w).corePush.1).phase w = .live := hphase
    exact { hsame.enter w .pushed (by simp [hlive]) (fun _ => rfl) with }
  | pullDropped w hphase hsettle =>
    have hread := h.setTls (w := w) (Or.inr fun k _ => (s.tls w).dropped_pullDropped k)
    refine hread.settle _ (by rw [show (s.setTls w _).phase = s.phase from rfl, hphase]; rfl) (fun k => ?_) fun hw => ?_
    · show (Function.update s.tls w _ w).dropped k = 0
      rw [Function.update_self, TlsWriter.dropped_pullDropped]
    · exact absurd ((h.listed w).mpr (Or.inr hphase)) hw
  | addDropped w stats hsettle =>
    obtain ⟨hpast, hread⟩ := h.settling w (by simp [hsettle])
    exact { h.settle .settled hpast hread (fun _ _ => rfl) with }
  | unregister w hphase hsettle hfree => exact h.unregister hsettle
  | release w hphase =>
    exact { h.enter w .gone (by simp [hphase]) (fun _ => rfl) with }
  | worker signal grown s' hw =>
    cases hw with
    | pull w ws hpc =>
      exact { h.setTls (w := w) (Or.inr fun k hk => ((s.tls w).dropped_pull k).trans hk) with }
    | poll hpc hbusy => exact h.pollStep
    | _ => exact { h with }

/-! ## The counts -/

/-- The step is a call of the kind that is let in. -/
def admits (hash : CStr → UInt32 → UInt64) (k : DropKind) (s : Session W B F) : SessionEv W B → Bool
  | .send w module env c =>
    k == .logs &&
      match s.tls w with
      | .log l => l.admits hash s.svc.regs.core env { c with module := s.svc.regs.moduleOf module }
      | .mtk _ => false
  | .emit w env id _ =>
    k == .metrics &&
      match s.tls w with
      | .log _ => false
      | .mtk m => m.known { env with mtkCount := s.svc.regs.getMtkCount } id
  | _ => false

/-- The calls of a kind that were recorded. -/
def recorded (k : DropKind) (s : Session W B F) : Nat := (s.accepted.filter fun x => x.2.kind == k).length

/-- What the registered writers have counted and their destructors have read, and what is in no total yet. -/
def withWriters (k : DropKind) (s : Session W B F) : Nat :=
  (s.registry.map fun w => (s.tls w).dropped k + (s.settle w).held k).sum

/-- The calls of a kind that were recorded or counted as dropped, wherever the count is. -/
def settled (k : DropKind) (s : Session W B F) : Nat :=
  s.recorded k + s.total k + s.poll.held k + s.withWriters k

omit [DecidableEq B] in
/-- The share of one writer has changed: a writer that is not in the registry has none. -/
theorem Enrolled.withWriters_change (h : s.Enrolled) (s' : Session W B F) (k : DropKind) (w : W) (hregistry : s'.registry = s.registry)
    (hother : ∀ u, u ≠ w → s'.tls u = s.tls u ∧ s'.settle u = s.settle u)
    (hnone : w ∉ s.registry → (s'.tls w).dropped k + (s'.settle w).held k = 0) :
    s'.withWriters k + ((s.tls w).dropped k + (s.settle w).held k) =
      s.withWriters k + ((s'.tls w).dropped k + (s'.settle w).held k) := by
  have hsame : ∀ u, u ≠ w → (s'.tls u).dropped k + (s'.settle u).held k = (s.tls u).dropped k + (s.settle u).held k := by
    intro u hu
    rw [(hother u hu).1, (hother u hu).2]
  unfold withWriters
  rw [hregistry]
  by_cases hw : w ∈ s.registry
  · exact DropSys.sum_of_change (f := fun u => (s.tls u).dropped k + (s.settle u).held k)
      (g := fun u => (s'.tls u).dropped k + (s'.settle u).held k) h.nodup hw (fun u _ hu => hsame u hu)
  · obtain ⟨hdropped, hheld⟩ := h.outside w hw k
    rw [hnone hw, hdropped, hheld]
    refine congrArg (fun l => List.sum l + 0) (List.map_congr_left fun u hu => hsame u ?_)
    exact fun he => hw (he ▸ hu)

omit [DecidableEq B] in
/-- A call of a live writer that records or counts so many. -/
theorem Enrolled.settled_call (h : s.Enrolled) {k : DropKind} {w : W} (hlive : s.phase w = .live) {b : Bool} {x : Item}
    {t : TlsWriter} {n : Nat} (hcount : (if b = true ∧ x.kind = k then 1 else 0) + t.dropped k = (s.tls w).dropped k + n)
    (hs' : s' = { s.setTls w t with svc := s'.svc, accepted := if b then s.accepted ++ [(w, x)] else s.accepted }) :
    s'.settled k = s.settled k + n := by
  have hin : w ∈ s.registry := (h.listed w).mpr (Or.inl hlive)
  have htls : s'.tls = Function.update s.tls w t := by
    rw [hs']
    rfl
  have hshare := h.withWriters_change s' k w (by rw [hs']; rfl)
    (fun u hu => ⟨by rw [htls, Function.update_of_ne hu], by rw [hs']; rfl⟩) (fun hw => absurd hin hw)
  have hheld : (s'.settle w).held k = (s.settle w).held k := by
    rw [hs']
    rfl
  rw [htls, Function.update_self, hheld] at hshare
  have hrecorded : s'.recorded k = s.recorded k + if b = true ∧ x.kind = k then 1 else 0 := by
    unfold recorded
    rw [hs']
    cases b with
    | false => simp
    | true =>
      rw [if_pos rfl, List.filter_append, List.length_append]
      by_cases hk : x.kind = k <;> simp [hk]
  have htotal : s'.total k = s.total k := by
    rw [hs']
    rfl
  have hpoll : s'.poll = s.poll := by
    rw [hs']
    rfl
  unfold settled
  rw [hrecorded, htotal, hpoll]
  omega

omit [DecidableEq W] [DecidableEq B] in
/-- A step that records nothing, where what is counted is at another place. -/
theorem settled_of {k : DropKind} (haccepted : s'.accepted = s.accepted)
    (hsum : s'.total k + s'.poll.held k + s'.withWriters k = s.total k + s.poll.held k + s.withWriters k) :
    s'.settled k = s.settled k := by
  unfold settled recorded
  rw [haccepted]
  omega

omit [DecidableEq W] [DecidableEq B] in
/-- A step that changes neither what writers have counted nor what was read. -/
theorem withWriters_congr {k : DropKind} (hregistry : s'.registry = s.registry)
    (htls : ∀ w, (s'.tls w).dropped k = (s.tls w).dropped k) (hsettle : s'.settle = s.settle) :
    s'.withWriters k = s.withWriters k := by
  unfold withWriters
  rw [hregistry, hsettle]
  exact congrArg List.sum (List.map_congr_left fun w _ => by rw [htls w])

omit [DecidableEq B] in
/-- The counters of a writer are read: what it had counted is its share no longer. -/
theorem Enrolled.withWriters_read (h : s.Enrolled) (s' : Session W B F) (k : DropKind) (w : W) (settle : W → Settling)
    (hother : ∀ u, u ≠ w → settle u = s.settle u) (hnone : w ∉ s.registry → (settle w).held k = 0)
    (hs' : s' = { s.readDropped w with poll := s'.poll, settle := settle }) :
    s'.withWriters k + ((s.tls w).dropped k + (s.settle w).held k) = s.withWriters k + (settle w).held k := by
  have htls : s'.tls = Function.update s.tls w (s.tls w).pullDropped.1 := by
    rw [hs']
    rfl
  have hsettle : s'.settle = settle := by rw [hs']
  have hregistry : s'.registry = s.registry := by
    rw [hs']
    rfl
  have hzero : (s'.tls w).dropped k = 0 := by rw [htls, Function.update_self, TlsWriter.dropped_pullDropped]
  have hshare := h.withWriters_change s' k w hregistry
    (fun u hu => ⟨by rw [htls, Function.update_of_ne hu], by rw [hsettle, hother u hu]⟩)
    (fun hw => by rw [hzero, hsettle, hnone hw])
  rwa [hzero, hsettle, Nat.zero_add] at hshare

omit [DecidableEq B] in
/-- A poll takes a counter over, and hands its sum over to the total. -/
theorem Enrolled.settled_pollStep (h : s.Enrolled) (k : DropKind) : s.pollStep.settled k = s.settled k := by
  unfold Session.pollStep
  split
  · rfl
  · rfl
  · rename_i sum hpoll
    refine settled_of rfl ?_
    rw [hpoll]
    rfl
  · rename_i w ws sum hpoll
    refine settled_of rfl ?_
    have hread := h.withWriters_read { s.readDropped w with poll := .reading ws fun k => sum k + (s.tls w).pullDropped.2 k } k w
      s.settle (fun _ _ => rfl) (fun hw => (h.outside w hw k).2) rfl
    have hheld : s.poll.held k = sum k := by
      rw [hpoll]
      rfl
    have hsnd : (s.tls w).pullDropped.2 k = (s.tls w).dropped k := by rw [TlsWriter.pullDropped_snd]
    rw [hheld]
    show s.total k + (sum k + (s.tls w).pullDropped.2 k) + _ = _
    rw [hsnd]
    omega
  · rename_i sum hpoll
    refine settled_of rfl ?_
    rw [hpoll]
    rfl

omit [DecidableEq B] in
/-- A destructor takes the counters of its writer over. -/
theorem Enrolled.settled_pullDropped (h : s.Enrolled) (k : DropKind) {w : W} (hphase : s.phase w = .pushed)
    (hsettle : s.settle w = .counting) :
    ({ s.readDropped w with settle := Function.update s.settle w (.taken (s.tls w).pullDropped.2) } :
      Session W B F).settled k = s.settled k := by
  refine settled_of rfl ?_
  have hin : w ∈ s.registry := (h.listed w).mpr (Or.inr hphase)
  have hread := h.withWriters_read
    { s.readDropped w with settle := Function.update s.settle w (.taken (s.tls w).pullDropped.2) } k w
    (Function.update s.settle w (.taken (s.tls w).pullDropped.2)) (fun u hu => Function.update_of_ne hu ..) (fun hw => absurd hin hw) rfl
  have hheld : (Settling.taken (s.tls w).pullDropped.2).held k = (s.tls w).dropped k := by
    rw [TlsWriter.pullDropped_snd]
    rfl
  have hnone : (s.settle w).held k = 0 := by
    rw [hsettle]
    rfl
  rw [Function.update_self, hheld, hnone] at hread
  exact congrArg (s.total k + s.poll.held k + ·) (Nat.add_right_cancel hread)

omit [DecidableEq B] in
/-- It hands them over to the totals. -/
theorem Enrolled.settled_addDropped (h : s.Enrolled) (k : DropKind) {w : W} {stats : DropKind → Nat}
    (hsettle : s.settle w = .taken stats) :
    ({ s.accumulateDropped stats with settle := Function.update s.settle w .settled } : Session W B F).settled k =
      s.settled k := by
  have hold : (s.settle w).held k = stats k := by
    rw [hsettle]
    rfl
  have hnew : (Function.update s.settle w Settling.settled w).held k = 0 := by
    rw [Function.update_self]
    rfl
  have hnone : w ∉ s.registry → (s.tls w).dropped k + (Function.update s.settle w Settling.settled w).held k = 0 := by
    intro hw
    rw [hnew, (h.outside w hw k).1]
  have hshare : ({ s.accumulateDropped stats with settle := Function.update s.settle w .settled } :
      Session W B F).withWriters k + ((s.tls w).dropped k + (s.settle w).held k) =
      s.withWriters k + ((s.tls w).dropped k + (Function.update s.settle w Settling.settled w).held k) :=
    h.withWriters_change _ k w rfl (fun u hu => ⟨rfl, Function.update_of_ne hu ..⟩) hnone
  refine settled_of rfl ?_
  show s.total k + stats k + s.poll.held k + ({ s.accumulateDropped stats with
    settle := Function.update s.settle w .settled } : Session W B F).withWriters k = _
  rw [hold, hnew] at hshare
  omega

omit [DecidableEq B] in
/-- A writer has counted nothing when it gets into the registry. -/
theorem Enrolled.settled_register (h : s.Enrolled) (k : DropKind) {w : W} (hphase : s.phase w = .attached) :
    ({ s.enter w .live with registry := w :: s.registry } : Session W B F).settled k = s.settled k := by
  have hnot : w ∉ s.registry := fun hw => by
    have hin := (h.listed w).mp hw
    simp [hphase] at hin
  obtain ⟨hdropped, hheld⟩ := h.outside w hnot k
  have hshare : ({ s.enter w .live with registry := w :: s.registry } : Session W B F).withWriters k =
      (s.tls w).dropped k + (s.settle w).held k + s.withWriters k := List.sum_cons
  refine settled_of rfl ?_
  rw [hshare, hdropped, hheld]
  exact congrArg _ (Nat.zero_add _)

omit [DecidableEq B] in
/-- And it leaves nothing behind when it leaves it. -/
theorem Enrolled.settled_unregister (h : s.Enrolled) (k : DropKind) {w : W} (hphase : s.phase w = .pushed)
    (hsettle : s.settle w = .settled) :
    ({ s.enter w .unregistered with registry := s.registry.erase w } : Session W B F).settled k = s.settled k := by
  refine settled_of rfl ?_
  have hin : w ∈ s.registry := (h.listed w).mpr (Or.inr hphase)
  have hread := (h.settling w (by simp [hsettle])).2 k
  have hheld : (s.settle w).held k = 0 := by
    rw [hsettle]
    rfl
  have hshare := List.sum_map_erase (fun u => (s.tls u).dropped k + (s.settle u).held k) hin
  rw [hread, hheld, Nat.zero_add] at hshare
  exact congrArg (s.total k + s.poll.held k + ·) hshare

/-- One step settles the call it is, if it is let in. -/
theorem Enrolled.settled_step (h : s.Enrolled) (k : DropKind) {ev : SessionEv W B} (hs : s.step hash ops ev = .ok s') :
    s'.settled k = s.settled k + if admits hash k s ev then 1 else 0 := by
  have hsame : ∀ {s' : Session W B F}, s'.accepted = s.accepted → s'.total = s.total → s'.poll.held k = s.poll.held k →
      s'.registry = s.registry → (∀ u, (s'.tls u).dropped k = (s.tls u).dropped k) → s'.settle = s.settle →
        s'.settled k = s.settled k := by
    intro s' haccepted htotal hpoll hregistry htls hsettle
    exact settled_of haccepted (by rw [htotal, hpoll, withWriters_congr hregistry htls hsettle])
  have hupdate : ∀ {w : W} {t : TlsWriter}, t.dropped k = (s.tls w).dropped k →
      ∀ u, (Function.update s.tls w t u).dropped k = (s.tls u).dropped k := by
    intro w t ht u
    by_cases hu : u = w
    · subst hu
      rw [Function.update_self, ht]
    · rw [Function.update_of_ne hu]
  cases step_cases hs with
  | send w module env c l o htls hphase hpulled hmodule ho =>
    refine h.settled_call hphase (b := o.outcome.result)
      (x := .log ⟨{ c with module := s.svc.regs.moduleOf module }, o.core⟩) (t := .log o.log) ?_ rfl
    rw [admits, htls]
    cases k with
    | logs =>
      have hcount := send_counts ho
      simpa [Item.kind, TlsWriter.dropped] using hcount
    | metrics => simp [Item.kind, TlsWriter.dropped]
    | traces => simp [Item.kind, TlsWriter.dropped]
  | emit w env id value m o htls hphase hpulled ho =>
    refine h.settled_call hphase (b := o.result) (x := .mtk id value) (t := .mtk o.mtk) ?_ rfl
    rw [admits, htls]
    cases k with
    | metrics =>
      have hcount := emit_counts ho
      simpa [Item.kind, TlsWriter.dropped] using hcount
    | logs => simp [Item.kind, TlsWriter.dropped]
    | traces => simp [Item.kind, TlsWriter.dropped]
  | registerWriter w hphase hfree => exact h.settled_register k hphase
  | corePush w hphase => exact hsame rfl rfl rfl rfl (hupdate ((s.tls w).dropped_corePush k)) rfl
  | pullDropped w hphase hsettle => exact h.settled_pullDropped k hphase hsettle
  | addDropped w stats hsettle => exact h.settled_addDropped k hsettle
  | unregister w hphase hsettle hfree => exact h.settled_unregister k hphase hsettle
  | poll hpc hidle =>
    refine settled_of rfl ?_
    rw [hidle]
    rfl
  | worker signal grown s' hw =>
    cases hw with
    | pull w ws hpc => exact hsame rfl rfl rfl rfl (hupdate ((s.tls w).dropped_pull k)) rfl
    | poll hpc hbusy => exact h.settled_pollStep k
    | flush sink ok hpc hidle hsink =>
      refine hsame rfl rfl ?_ rfl (fun _ => rfl) rfl
      cases hpoll : s.poll with
      | idle | polled => rfl
      | reading _ _ | adding _ =>
        rw [hpoll] at hidle
        cases hidle
    | _ => exact hsame rfl rfl rfl rfl (fun _ => rfl) rfl
  | _ => exact hsame rfl rfl rfl rfl (fun _ => rfl) rfl

/-- Every call is settled: at every moment of every run the calls of a kind that were let in are as many as those recorded, those in
the core's total of drops, those a poll or a destructor has read and not added yet, and those in the counters of the writers. -/
theorem calls_settled (heap : B → Mem) (sink : SinkFile F) (hdr : Mem) (metrics : W → Bool) (threadId : W → UInt32)
    {evs : List (SessionEv W B)} (hr : (init ops heap sink hdr metrics threadId).run hash ops evs = .ok s) (k : DropKind) :
    Runs.count (step hash ops) (admits hash k) (init ops heap sink hdr metrics threadId) evs =
      s.recorded k + s.total k + s.poll.held k +
        (s.registry.map fun w => (s.tls w).dropped k + (s.settle w).held k).sum := by
  have hinit : (init ops heap sink hdr metrics threadId : Session W B F).settled k = 0 := rfl
  have hcount := Runs.count_eq (P := admits hash k) (I := Enrolled) (settled k)
    (fun _ _ _ h hs => ⟨h.step hs, h.settled_step k hs⟩) (enrolled_init ops heap sink hdr metrics threadId) hr
  rw [hinit, Nat.zero_add] at hcount
  exact hcount.symm

/-- Four calls: the first waits for a buffer in vain, and a poll takes its drop over; so does the second, whose writer ends before
its destructor has added its drop; the third is recorded; and the last is below the threshold. -/
def polled : List (SessionEv Unit Nat) :=
  [.attach (), .registerWriter (), .send () none { LogSys.plenty with waited := none } (LogSys.textCall [104])] ++
    List.replicate 7 (.worker false true) ++ [.poll, .worker false true] ++
    [.send () none { LogSys.plenty with waited := none } (LogSys.textCall [105]),
      .send () none LogSys.plenty (LogSys.textCall [106]), .setVerbosity none 2,
      .send () none LogSys.plenty (LogSys.textCall [107])] ++
    List.replicate 3 (.worker false true) ++ [.corePush (), .pullDropped ()]

/-- On this run one call is recorded, one is in the totals and one is on its way there. -/
theorem calls_settled_polled : ∃ s, oneWriter.run LogSys.oneLine ScriptFile.ops polled = .ok s ∧
    s.recorded .logs = 1 ∧ s.total .logs = 1 ∧ (s.settle ()).held .logs = 1 ∧
      s.recorded .logs + s.total .logs + s.poll.held .logs +
        (s.registry.map fun w => (s.tls w).dropped .logs + (s.settle w).held .logs).sum = 3 := by
  have hall : (oneWriter.run LogSys.oneLine ScriptFile.ops polled).toOption.any (fun s =>
      decide (s.recorded .logs = 1 ∧ s.total .logs = 1 ∧ (s.settle ()).held .logs = 1)) = true := by
    decide +kernel
  have hcount : Runs.count (step LogSys.oneLine ScriptFile.ops) (admits LogSys.oneLine .logs) oneWriter polled = 3 := by
    decide +kernel
  obtain ⟨s, hr, hs⟩ := Runs.ok_of_any hall
  obtain ⟨hrecorded, htotal, hheld⟩ := of_decide_eq_true hs
  exact ⟨s, hr, hrecorded, htotal, hheld, (calls_settled _ _ _ _ _ hr .logs).symm.trans hcount⟩

end Session

end P8
