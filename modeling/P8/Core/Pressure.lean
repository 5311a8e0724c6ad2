import Mathlib.Logic.Function.Basic
import P8.Steps

/-!
# Pressure: the debounced wake of the worker

`notify_pressure` and the part of `worker_main` that decides when the worker looks at the writers again. A thread that finds
`mb_wake_pending` set returns at once, and relies on a wake that somebody else has signalled. The worker clears the flag
between its `drain_writers` pass and the flush, so that the flag is still set while the pass is already under way: what a
thread parked behind the pass is then announced to nobody.

The event keeps a wake until the worker takes it, and a stop for good. `uncovered` says that some `notify_pressure` has
returned since the last pass began.
-/

namespace P8

/-- How far a thread is in `notify_pressure`: before the load of `mb_wake_pending`, before the exchange, or before `notify`. -/
inductive NotifyPc where
  | out | load | claim | signal
  deriving DecidableEq

/-- What ends a wait of the worker: `mu_event_wake`, `mu_event_stop`, or the timeout. -/
inductive Signal where
  | wake | stop | timeout
  deriving DecidableEq

/-- How far the worker is in its cycle: in `wait`; before the pass over the writers; in it; behind it; behind the clear of the
flag; out of the loop. -/
inductive WorkerPc where
  | wait
  | awake (cause : Signal)
  | draining (cause : Signal)
  | drained (cause : Signal)
  | flushing (cause : Signal)
  | exited
  deriving DecidableEq

/-- The flag, the event, the worker and the threads that notify it. -/
structure WakeSys (T : Type) where
  wakePending : Bool
  wake : Bool
  stop : Bool
  worker : WorkerPc
  thread : T → NotifyPc
  uncovered : Bool

/-- The steps of the worker and of the threads. `submit` is the `notify` of `submit_buffer` and `submit_chain`. -/
inductive WakeEv (T : Type) where
  | call (t : T)
  | load (t : T)
  | exchange (t : T)
  | signal (t : T)
  | submit
  | stop
  | wakeUp (cause : Signal)
  | drainBegin
  | drainEnd
  | clear
  | flushed

namespace WakeSys

variable {T : Type} [DecidableEq T]

/-- A worker that waits for its first signal. -/
def init : WakeSys T := ⟨false, false, false, .wait, fun _ => .out, false⟩

/-- A thread's call has returned. -/
def returned (s : WakeSys T) (t : T) : WakeSys T :=
  { s with thread := Function.update s.thread t .out, uncovered := true }

/-- One step. -/
def step (s : WakeSys T) : WakeEv T → Except Halt (WakeSys T)
  | .call t => when (s.thread t = .out) <| .ok { s with thread := Function.update s.thread t .load }
  | .load t => when (s.thread t = .load) <| .ok <|
      if s.wakePending then s.returned t else { s with thread := Function.update s.thread t .claim }
  | .exchange t => when (s.thread t = .claim) <| .ok <|
      if s.wakePending then s.returned t
      else { s with wakePending := true, thread := Function.update s.thread t .signal }
  | .signal t => when (s.thread t = .signal) <| .ok <| { s with wake := true }.returned t
  | .submit => .ok { s with wake := true }
  | .stop => .ok { s with stop := true }
  | .wakeUp cause =>
    match s.worker, cause with
    | .wait, .wake => when (s.wake = true) <| .ok { s with wake := false, worker := .awake .wake }
    | .wait, .stop => when (s.stop = true) <| .ok { s with worker := .awake .stop }
    | .wait, .timeout => .ok { s with worker := .awake .timeout }
    | _, _ => .error .disabled
  | .drainBegin =>
    match s.worker with
    | .awake cause => .ok { s with worker := .draining cause, uncovered := false }
    | _ => .error .disabled
  | .drainEnd =>
    match s.worker with
    | .draining cause => .ok { s with worker := .drained cause }
    | _ => .error .disabled
  | .clear =>
    match s.worker with
    | .drained cause => .ok { s with worker := .flushing cause, wakePending := false }
    | _ => .error .disabled
  | .flushed =>
    match s.worker with
    | .flushing cause => .ok { s with worker := if cause = .stop then .exited else .wait }
    | _ => .error .disabled

/-- A run of steps. -/
def run (s : WakeSys T) (evs : List (WakeEv T)) : Except Halt (WakeSys T) := Runs.run step s evs

/-- The worker has a signal still to take, or a thread is about to give it one. -/
def Signalled (s : WakeSys T) : Prop := s.wake = true ∨ s.stop = true ∨ ∃ t, s.thread t = .signal

/-- The worker is blocked and nothing will wake it, though a call of `notify_pressure` has returned since its last pass. -/
def Lost (s : WakeSys T) : Prop := s.worker = .wait ∧ ¬ s.Signalled ∧ s.uncovered = true

/-- A thread finds the flag set at its load or at its exchange. -/
def Suppressed (s : WakeSys T) (e : WakeEv T) : Prop :=
  s.wakePending = true ∧ ∃ t, e = .load t ∧ s.thread t = .load ∨ e = .exchange t ∧ s.thread t = .claim

/-- The worker's pass over the writers has begun, and the flag has not been cleared yet. -/
def InPass (s : WakeSys T) : Prop := ∃ cause, s.worker = .draining cause ∨ s.worker = .drained cause

/-- No thread finds the flag set while the worker is between the beginning of its pass and the clear, unless the worker has a
signal still to take. -/
def InTime (s : WakeSys T) (e : WakeEv T) : Prop := s.Suppressed e → s.InPass → s.Signalled

/-- The invariant of runs in which nobody finds the flag set too late. -/
structure Inv (s : WakeSys T) : Prop where
  pending : s.wakePending = true → s.Signalled ∨ (∃ cause, s.worker = .awake cause) ∨ s.InPass
  covered : s.uncovered = true → s.Signalled ∨ (∃ cause, s.worker = .awake cause) ∨ s.worker = .exited

omit [DecidableEq T] in
theorem inv_init : (init : WakeSys T).Inv :=
  ⟨fun h => (by cases h), fun h => (by cases h)⟩

omit [DecidableEq T] in
/-- A signal that the worker has not taken stays. -/
theorem Signalled.mono {s s' : WakeSys T} (h : s.Signalled) (hwake : s.wake = true → s'.wake = true)
    (hstop : s.stop = true → s'.stop = true) (hthread : ∀ t, s.thread t = .signal → s'.thread t = .signal) :
    s'.Signalled := by
  rcases h with h | h | ⟨t, h⟩
  · exact Or.inl (hwake h)
  · exact Or.inr (Or.inl (hstop h))
  · exact Or.inr (Or.inr ⟨t, hthread t h⟩)

/-- The other threads are where they were. -/
theorem keepsSignal {s : WakeSys T} {t : T} {pc : NotifyPc} (ht : s.thread t ≠ .signal) (u : T)
    (hu : s.thread u = .signal) : Function.update s.thread t pc u = .signal := by
  have hne : u ≠ t := fun he => ht (he ▸ hu)
  rw [Function.update_of_ne hne]
  exact hu

/-- A call that finds the flag set in time is covered: the worker has a signal still to take, or has not begun its pass. -/
theorem Inv.returned {s : WakeSys T} (h : s.Inv) {t : T} (ht : s.thread t ≠ .signal) (hpending : s.wakePending = true)
    (htime : s.InPass → s.Signalled) : (s.returned t).Inv := by
  have hmono : s.Signalled → (s.returned t).Signalled := fun hsig =>
    hsig.mono (fun hw => hw) (fun hw => hw) (fun u hu => keepsSignal ht u hu)
  refine ⟨fun _ => ?_, fun _ => ?_⟩
  · rcases h.pending hpending with hsig | hawake | hpass
    · exact Or.inl (hmono hsig)
    · exact Or.inr (Or.inl hawake)
    · exact Or.inr (Or.inr hpass)
  · rcases h.pending hpending with hsig | hawake | hpass
    · exact Or.inl (hmono hsig)
    · exact Or.inr (Or.inl hawake)
    · exact Or.inl (hmono (htime hpass))

omit [DecidableEq T] in
/-- Once the worker is in its pass, only a signal covers what is not covered yet. -/
theorem Inv.signalled {s : WakeSys T} (h : s.Inv) (hawake : ∀ cause, s.worker ≠ .awake cause) (hexit : s.worker ≠ .exited)
    (hu : s.uncovered = true) : s.Signalled := by
  rcases h.covered hu with hsig | ⟨cause, hc⟩ | he
  · exact hsig
  · exact absurd hc (hawake cause)
  · exact absurd he hexit

omit [DecidableEq T] in
/-- Where no signal is taken and the worker stays where it is, what was covered is so still. -/
theorem Inv.keep {s s' : WakeSys T} (h : s.Inv) (hpending : s'.wakePending = true → s.wakePending = true ∨ s'.Signalled)
    (hcovered : s'.uncovered = true → s.uncovered = true ∨ s'.Signalled) (hworker : s'.worker = s.worker)
    (hsignal : s.Signalled → s'.Signalled) : s'.Inv := by
  refine ⟨fun hp => ?_, fun hu => ?_⟩
  · rcases hpending hp with hp | hsig
    · refine (h.pending hp).imp hsignal (fun hrest => ?_)
      rw [InPass, hworker]
      exact hrest
    · exact Or.inl hsig
  · rcases hcovered hu with hu | hsig
    · refine (h.covered hu).imp hsignal (fun hrest => ?_)
      rw [hworker]
      exact hrest
    · exact Or.inl hsig

/-- One step that is in time keeps the invariant. -/
theorem Inv.step {s s' : WakeSys T} {e : WakeEv T} (h : s.Inv) (hs : s.step e = .ok s') (htime : s.InTime e) : s'.Inv := by
  cases e with
  | call t =>
    obtain ⟨ht, hs⟩ := when_eq_ok.mp hs
    cases hs
    refine h.keep Or.inl Or.inl rfl (fun hsig => hsig.mono id id (fun u hu => keepsSignal ?_ u hu))
    rw [ht]
    decide
  | load t =>
    obtain ⟨ht, hs⟩ := when_eq_ok.mp hs
    have hout : s.thread t ≠ .signal := by
      rw [ht]
      decide
    split at hs
    · rename_i hpending
      cases hs
      exact h.returned hout hpending (htime ⟨hpending, t, Or.inl ⟨rfl, ht⟩⟩)
    · cases hs
      exact h.keep Or.inl Or.inl rfl (fun hsig => hsig.mono id id (fun u hu => keepsSignal hout u hu))
  | exchange t =>
    obtain ⟨ht, hs⟩ := when_eq_ok.mp hs
    have hout : s.thread t ≠ .signal := by
      rw [ht]
      decide
    split at hs
    · rename_i hpending
      cases hs
      exact h.returned hout hpending (htime ⟨hpending, t, Or.inr ⟨rfl, ht⟩⟩)
    · cases hs
      have hsig : ({ s with wakePending := true, thread := Function.update s.thread t .signal } : WakeSys T).Signalled :=
        Or.inr (Or.inr ⟨t, Function.update_self ..⟩)
      exact h.keep (fun _ => Or.inr hsig) Or.inl rfl (fun _ => hsig)
  | signal t =>
    obtain ⟨-, hs⟩ := when_eq_ok.mp hs
    cases hs
    have hsig : (({ s with wake := true } : WakeSys T).returned t).Signalled := Or.inl rfl
    exact h.keep Or.inl (fun _ => Or.inr hsig) rfl (fun _ => hsig)
  | submit =>
    cases hs
    exact h.keep Or.inl Or.inl rfl (fun _ => Or.inl rfl)
  | stop =>
    cases hs
    exact h.keep Or.inl Or.inl rfl (fun _ => Or.inr (Or.inl rfl))
  | wakeUp cause =>
    dsimp only [WakeSys.step] at hs
    split at hs
    · obtain ⟨-, hs⟩ := when_eq_ok.mp hs
      cases hs
      exact ⟨fun _ => Or.inr (Or.inl ⟨_, rfl⟩), fun _ => Or.inr (Or.inl ⟨_, rfl⟩)⟩
    · obtain ⟨-, hs⟩ := when_eq_ok.mp hs
      cases hs
      exact ⟨fun _ => Or.inr (Or.inl ⟨_, rfl⟩), fun _ => Or.inr (Or.inl ⟨_, rfl⟩)⟩
    · cases hs
      exact ⟨fun _ => Or.inr (Or.inl ⟨_, rfl⟩), fun _ => Or.inr (Or.inl ⟨_, rfl⟩)⟩
    · cases hs
  | drainBegin =>
    dsimp only [WakeSys.step] at hs
    split at hs
    · cases hs
      exact ⟨fun _ => Or.inr (Or.inr ⟨_, Or.inl rfl⟩), fun hu => (by cases hu)⟩
    · cases hs
  | drainEnd =>
    dsimp only [WakeSys.step] at hs
    split at hs
    · rename_i cause hworker
      cases hs
      have hsig := h.signalled (by simp [hworker]) (by simp [hworker])
      exact ⟨fun _ => Or.inr (Or.inr ⟨_, Or.inr rfl⟩), fun hu => Or.inl (hsig hu)⟩
    · cases hs
  | clear =>
    dsimp only [WakeSys.step] at hs
    split at hs
    · rename_i cause hworker
      cases hs
      have hsig := h.signalled (by simp [hworker]) (by simp [hworker])
      exact ⟨fun hp => (by cases hp), fun hu => Or.inl (hsig hu)⟩
    · cases hs
  | flushed =>
    dsimp only [WakeSys.step] at hs
    split at hs
    · rename_i cause hworker
      cases hs
      refine ⟨fun hp => ?_, fun hu => ?_⟩
      · rcases h.pending hp with hsig | ⟨c, hc⟩ | ⟨c, hc⟩
        · exact Or.inl hsig
        · rw [hworker] at hc
          cases hc
        · rw [hworker] at hc
          rcases hc with hc | hc <;> cases hc
      · exact Or.inl (h.signalled (by simp [hworker]) (by simp [hworker]) hu)
    · cases hs

/-- Where no thread finds the flag set while a pass is under way, no notification is lost: whenever the worker is blocked
without a signal to take, a whole pass has begun since the last call of `notify_pressure` has returned. -/
theorem not_lost {evs : List (WakeEv T)} {s : WakeSys T} (htime : Runs.Along step (fun s e _ => s.InTime e) init evs)
    (hr : init.run evs = .ok s) : ¬ s.Lost := by
  have h : s.Inv := htime.induction inv_init (fun _ _ _ hinv hs ht => hinv.step hs ht) hr
  rintro ⟨hworker, hnone, hu⟩
  rcases h.covered hu with hsig | ⟨c, hc⟩ | hexit
  · exact hnone hsig
  · rw [hworker] at hc
    cases hc
  · rw [hworker] at hexit
    cases hexit

omit [DecidableEq T] in
/-- A step that is no look at the flag, or finds it clear, or comes before the pass, is in time. -/
theorem inTime_of {s : WakeSys T} {e : WakeEv T}
    (h : (∀ t, e ≠ .load t ∧ e ≠ .exchange t) ∨ s.wakePending = false ∨ ∃ cause, s.worker = .awake cause) : s.InTime e := by
  rintro ⟨hpending, t, he⟩ ⟨cause, hpass⟩
  rcases h with hne | hclear | ⟨c, hawake⟩
  · rcases he with ⟨rfl, -⟩ | ⟨rfl, -⟩
    · exact absurd rfl (hne t).1
    · exact absurd rfl (hne t).2
  · rw [hpending] at hclear
    cases hclear
  · rw [hawake] at hpass
    rcases hpass with hpass | hpass <;> cases hpass

/-- A thread is suppressed before the pass begins, and the pass covers it. -/
def beforePass : List (WakeEv Nat) :=
  [.call 0, .load 0, .exchange 0, .signal 0, .wakeUp .wake, .call 1, .load 1, .drainBegin, .drainEnd, .clear, .flushed]

/-- A signal in front of the pass is not lost. -/
theorem not_lost_beforePass : ∃ s, init.run beforePass = .ok s ∧ s.worker = .wait ∧ ¬ s.Lost := by
  have htime : Runs.Along step (fun s e _ => s.InTime e) init beforePass := by
    have hother : ∀ (s : WakeSys Nat) (e : WakeEv Nat), (∀ t, e ≠ .load t ∧ e ≠ .exchange t) → s.InTime e :=
      fun _ _ he => inTime_of (Or.inl he)
    refine ⟨hother _ _ (by simp), fun s₁ h₁ => ?_⟩
    cases h₁
    refine ⟨inTime_of (Or.inr (Or.inl rfl)), fun s₂ h₂ => ?_⟩
    cases h₂
    refine ⟨inTime_of (Or.inr (Or.inl rfl)), fun s₃ h₃ => ?_⟩
    cases h₃
    refine ⟨hother _ _ (by simp), fun s₄ h₄ => ?_⟩
    cases h₄
    refine ⟨hother _ _ (by simp), fun s₅ h₅ => ?_⟩
    cases h₅
    refine ⟨hother _ _ (by simp), fun s₆ h₆ => ?_⟩
    cases h₆
    refine ⟨inTime_of (Or.inr (Or.inr ⟨_, rfl⟩)), fun s₇ h₇ => ?_⟩
    cases h₇
    exact ⟨hother _ _ (by simp), fun _ _ => ⟨hother _ _ (by simp), fun _ _ => ⟨hother _ _ (by simp),
      fun _ _ => ⟨hother _ _ (by simp), fun _ _ => trivial⟩⟩⟩⟩
  have hrun : ∃ s, init.run beforePass = .ok s ∧ s.worker = .wait := ⟨_, rfl, rfl⟩
  obtain ⟨s, hs, hworker⟩ := hrun
  exact ⟨s, hs, hworker, not_lost htime hs⟩

/-- A thread parks its buffers behind the pass, finds the flag set and returns; the worker blocks without a signal. -/
theorem lost_behindPass : ∃ (evs : List (WakeEv Nat)) (s : WakeSys Nat), init.run evs = .ok s ∧ s.Lost := by
  refine ⟨[.call 0, .load 0, .exchange 0, .signal 0, .wakeUp .wake, .drainBegin, .call 1, .load 1, .drainEnd, .clear,
    .flushed], _, rfl, rfl, ?_, rfl⟩
  rintro (h | h | ⟨t, h⟩)
  · cases h
  · cases h
  · by_cases h₀ : t = 0
    · subst h₀
      cases h
    · by_cases h₁ : t = 1
      · subst h₁
        cases h
      · simp [returned, init] at h

end WakeSys

end P8
