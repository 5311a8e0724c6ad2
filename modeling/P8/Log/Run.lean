import Mathlib.Data.List.Forall2
import P8.Lib.Runs
import P8.Log.Step

/-!
# Run: one writer over a run of calls

A `LogSys` is one `cp8_log` with the registries of its core, the buffers pulled from it so far, in delivery order, and those
it gave back to the pool. `accepted` records the calls that returned true, with the registries of that moment; it is what the
results are stated about and nothing reads it. A run is any sequence of sends and pulls on the writer, with registrations by
anyone between them.

`send_cases` is what one call of `send` can do. `Carries` says that the buffers delivered and held are frames of exactly the
accepted records; every step keeps it except a discard of a record that shares its buffer with earlier ones.
-/

namespace P8

open Bytes Framing

/-- A call that returned true, and the registries when it did. -/
structure Accepted where
  call : Call
  core : Core

/-- One writer, its core's registries, and what has left the writer. -/
structure LogSys where
  log : Log
  core : Core
  delivered : List DataBuf
  released : List DataBuf
  accepted : List Accepted

/-- What can happen to a writer between two of its own calls, and the calls themselves. -/
inductive Op where
  | send (env : SendEnv) (c : Call)
  | pull
  | attrRegister (alloc : Bool) (name : Option CStr) (type : AttrType)
  | resolveLogDesc (alloc : Bool) (hash : UInt64) (file : CStr) (line : UInt32) (function format : Option CStr)
  | setVerbosity (verbosity : Level)

namespace LogSys

/-- A writer right after its construction. -/
def init (attached : Bool) (threadId : UInt32) : LogSys := ⟨Log.init attached threadId, Core.init, [], [], []⟩

/-- The state after a call of `send`. -/
def after (s : LogSys) (c : Call) (o : Sent) : LogSys where
  log := o.log
  core := o.core
  delivered := s.delivered ++ o.delivered
  released := s.released ++ o.released
  accepted := if o.outcome.result then s.accepted ++ [⟨c, o.core⟩] else s.accepted

/-- One step of a run. -/
def step (hash : CStr → UInt32 → UInt64) (s : LogSys) : Op → Except Fault LogSys
  | .send env c =>
    match s.log.send hash s.core env c with
    | .ok o => .ok (s.after c o)
    | .error f => .error f
  | .pull => .ok { s with log := s.log.pull.1, delivered := s.delivered ++ s.log.pull.2 }
  | .attrRegister alloc name type => .ok { s with core := (s.core.attrRegister alloc name type).1 }
  | .resolveLogDesc alloc h file line function format =>
    .ok { s with core := (s.core.resolveLogDesc alloc h file line function format).1 }
  | .setVerbosity verbosity => .ok { s with core := s.core.setVerbosity verbosity }

/-- A run; it ends at the first write outside a buffer. -/
def run (hash : CStr → UInt32 → UInt64) (s : LogSys) (ops : List Op) : Except Fault LogSys := Runs.run (step hash) s ops

/-- The buffers delivered and held, in order. -/
def bufs (s : LogSys) : List DataBuf := s.delivered ++ s.log.bufs

/-- The buffers that have left or are still to leave the writer for the sink, as a reader cuts them. -/
def frames (s : LogSys) : List (Frame UInt8) := (s.delivered ++ s.log.bufs).map DataBuf.frame

/-- The invariant of a run. -/
structure Inv (s : LogSys) : Prop where
  sound : s.core.Sound
  log : s.log.Inv s.core

theorem inv_init (attached : Bool) (threadId : UInt32) : (LogSys.init attached threadId).Inv :=
  ⟨Core.sound_init, Log.inv_init _ _ _⟩

end LogSys

/-! ## One call -/

section

variable {hash : CStr → UInt32 → UInt64} {core : Core} {l : Log} {env : SendEnv} {c : Call}

/-- What a call of `send` does: it returns without writing, or its record is finished, or its record is discarded. -/
inductive SendCases (hash : CStr → UInt32 → UInt64) (core : Core) (l : Log) (env : SendEnv) (c : Call) : Sent → Prop where
  | idle (o : Sent) (hp : l.prepare hash core env c = .error o) (h : Idle core l o) : SendCases hash core l env c o
  | accepted (p : Prepared) (l' : Log) (g : LogItemDat) (gap : List UInt8) (tp : Tape UInt8)
      (hp : l.prepare hash core env c = .ok p) (hb : Begins hash core l c p) (hroom : p.log.Room p.core.attrDescs)
      (h : Finished p.log env p.core p.desc c p.buffer l' g gap tp) :
      SendCases hash core l env c ⟨l', p.core, p.delivered, [], .accepted⟩
  | abandoned (p : Prepared) (l' : Log) (released : List DataBuf)
      (hp : l.prepare hash core env c = .ok p) (hb : Begins hash core l c p) (hroom : p.log.Room p.core.attrDescs)
      (h : Discarded p.log env p.core p.desc c p.buffer l' released) :
      SendCases hash core l env c ⟨l', p.core, p.delivered, released, .abandoned⟩

/-- The descriptor of a record that begins was made by the parser. -/
theorem Begins.argList {p : Prepared} (hb : Begins hash core l c p) : ArgList logMaxArgs p.desc.args :=
  (hb.sound _ _ hb.desc).2

/-- The buffer of a record that begins is not continued yet. -/
theorem Begins.unflagged {p : Prepared} (hb : Begins hash core l c p) : p.buffer.frame.cont = false := by
  rw [(hb.inv.cur _ hb.buffer).2.2]

variable (hash env c) in
/-- A call of `send` does one of the three, or it writes outside the buffer, which it does only where the cursor is past the
end of the buffer already. -/
theorem send_cases (h : l.Inv core) (hc : core.Sound) :
    match l.send hash core env c with
    | .ok o => SendCases hash core l env c o
    | .error _ => ∃ p, l.prepare hash core env c = .ok p ∧ l.buffer = some p.buffer ∧ p.log.bufUsed = l.bufUsed ∧
        bufMax < p.log.bufUsed := by
  have hprep := prepare_spec hash env c h hc
  rw [Log.send]
  cases hp : l.prepare hash core env c with
  | error o =>
    rw [hp] at hprep
    exact SendCases.idle o hp hprep
  | ok p =>
    rw [hp] at hprep
    have hb : Begins hash core l c p := hprep
    by_cases hle : p.log.bufUsed ≤ bufMax
    · have hroom := hb.room h hle
      have hspec := writeRecord_spec env c hb.argList hroom hb.unflagged
      dsimp only
      cases hw : p.log.writeRecord env p.core p.desc c p.buffer with
      | ok r =>
        rw [hw] at hspec
        obtain ⟨hd, hr⟩ := hspec
        obtain ⟨g, gap, tp, hfin⟩ := finish_spec hroom hb.inv hr
        exact SendCases.accepted p _ g gap tp hp hb hroom hfin
      | error e =>
        rw [hw] at hspec
        cases e with
        | fault => exact hspec.elim
        | discard r =>
          obtain ⟨hd, hr⟩ := hspec
          exact SendCases.abandoned p _ _ hp hb hroom (discard_spec hroom hb.inv hr)
    · have hw : p.log.writeRecord env p.core p.desc c p.buffer = .error .fault := by
        rw [Log.writeRecord, if_neg (by omega)]
      dsimp only
      rw [hw]
      rcases hb.bufs with ⟨-, hbuf, hused, -⟩ | ⟨-, -, hused⟩
      · exact ⟨p, rfl, hbuf, hused, by omega⟩
      · rw [hused] at hle
        exact absurd (by decide) hle

/-- A call that has its buffer and its descriptor is accepted when every further buffer is there. -/
theorem send_accepted (h : l.Inv core) (hc : core.Sound) {p : Prepared} (hp : l.prepare hash core env c = .ok p)
    (hle : p.log.bufUsed ≤ bufMax) (hacq : ∀ i, (env.acquire i).isSome) :
    ∃ l' g gap tp, l.send hash core env c = .ok ⟨l', p.core, p.delivered, [], .accepted⟩ ∧
      Finished p.log env p.core p.desc c p.buffer l' g gap tp := by
  have hcases := send_cases hash env c h hc
  cases ho : l.send hash core env c with
  | error f =>
    rw [ho] at hcases
    obtain ⟨p', hp', -, -, hlt⟩ := hcases
    rw [hp] at hp'
    cases hp'
    omega
  | ok o =>
    rw [ho] at hcases
    cases hcases with
    | idle o hp' hi =>
      rw [hp] at hp'
      cases hp'
    | accepted p' l' g gap tp hp' hb hroom hf =>
      rw [hp] at hp'
      cases hp'
      exact ⟨l', g, gap, tp, rfl, hf⟩
    | abandoned p' l' released hp' hb hroom hd =>
      obtain ⟨i, -, hnone⟩ := hd.refused
      have hsome := hacq i
      rw [hnone] at hsome
      cases hsome

end

/-! ## Runs -/

namespace LogSys

variable {hash : CStr → UInt32 → UInt64} {s s' : LogSys} {op : Op}

/-- A step of a call is one of the cases of `send`. -/
theorem Inv.step_send {env : SendEnv} {c : Call} (h : s.Inv) (hs : s.step hash (.send env c) = .ok s') :
    ∃ o, s.log.send hash s.core env c = .ok o ∧ SendCases hash s.core s.log env c o ∧ s' = s.after c o := by
  have hcases := send_cases hash env c h.log h.sound
  rw [LogSys.step] at hs
  cases ho : s.log.send hash s.core env c with
  | error f =>
    rw [ho] at hs
    cases hs
  | ok o =>
    rw [ho] at hs hcases
    cases hs
    exact ⟨o, rfl, hcases, rfl⟩

/-- A step keeps the invariant. -/
theorem Inv.step (h : s.Inv) (hs : s.step hash op = .ok s') : s'.Inv := by
  cases op with
  | send env c =>
    obtain ⟨o, -, hcases, rfl⟩ := h.step_send hs
    cases hcases with
    | idle o hp hi => exact ⟨hi.sound, hi.inv⟩
    | accepted p l' g gap tp hp hb hroom hf => exact ⟨hb.sound, hf.inv⟩
    | abandoned p l' released hp hb hroom hd => exact ⟨hb.sound, hd.inv⟩
  | pull =>
    cases hs
    refine ⟨h.sound, ?_⟩
    dsimp only
    rw [Log.pull]
    cases hb : s.log.buffer with
    | some b => exact ⟨h.log.cache, h.log.descs, fun _ h' => by cases h'⟩
    | none => exact ⟨h.log.cache, h.log.descs, fun _ h' => by cases h'⟩
  | attrRegister alloc name type =>
    cases hs
    exact ⟨Core.sound_attrRegister h.sound _ _ _, h.log.grows (Core.grows_attrRegister _ _ _ _)⟩
  | resolveLogDesc alloc k file line function format =>
    cases hs
    exact ⟨Core.sound_resolveLogDesc h.sound _ _ _ _ _ _, h.log.grows (Core.grows_resolveLogDesc _ _ _ _ _ _ _)⟩
  | setVerbosity verbosity =>
    cases hs
    exact ⟨h.sound, h.log.grows (Core.grows_setVerbosity _ _)⟩

/-- The invariant along a run. -/
theorem Inv.run {ops : List Op} (h : s.Inv) (hr : s.run hash ops = .ok s') : s'.Inv :=
  Runs.run_induction h (fun _ _ _ hs hst => hs.step hst) hr

end LogSys

/-! ## What the buffers carry -/

/-- The bytes of an accepted record: a header, the record's body, and a gap of padding. -/
def IsItem (hash : CStr → UInt32 → UInt64) (a : Accepted) (it : List UInt8) : Prop :=
  ∃ l env d g gap, a.core.logDescs (hash a.call.file a.call.line) = some d ∧ d.hash = hash a.call.file a.call.line ∧
    ArgList logMaxArgs d.args ∧
    it = (finalHdr l env a.core.attrDescs d a.call g).encode ++ payload (bodyPieces a.core.attrDescs d a.call) ++ gap ∧
    gap.length = padOf (recordSize a.core.attrDescs d a.call)

/-- The buffers delivered and held are frames of the accepted records, in order, and of nothing else. -/
def LogSys.Carries (hash : CStr → UInt32 → UInt64) (s : LogSys) : Prop :=
  ∃ items, Framed s.frames items ∧ List.Forall₂ (IsItem hash) s.accepted items

section

variable {hash : CStr → UInt32 → UInt64} {s s' : LogSys} {env : SendEnv} {c : Call}

/-- A writer about to write a record carries what it carried. -/
theorem Begins.frames {p : Prepared} (hb : Begins hash s.core s.log c p) {items : List (List UInt8)}
    (h : Framed s.frames items) :
    Framed ((s.delivered ++ p.delivered ++ p.log.fragments).map DataBuf.frame ++ [⟨p.log.curBytes p.buffer, false⟩]) items := by
  have hcur := (hb.inv.cur _ hb.buffer).2.2
  have hall : (s.delivered ++ p.delivered ++ p.log.fragments).map DataBuf.frame ++ [⟨p.log.curBytes p.buffer, false⟩] =
      (s.delivered ++ (p.delivered ++ p.log.bufs)).map DataBuf.frame := by
    rw [hb.bufs_eq, ← hcur]
    simp
  rw [hall]
  rcases hb.bufs with ⟨hsame, -⟩ | ⟨hfresh, hframe, -⟩
  · rw [hsame]
    exact h
  · rw [hfresh, ← List.append_assoc, List.map_append, List.map_singleton, hframe]
    exact h.snoc_empty

/-- A finished record is one more item on the frames. -/
theorem Finished.frames {p : Prepared} {l' : Log} {g : LogItemDat} {gap : List UInt8} {tp : Tape UInt8}
    (hf : Finished p.log env p.core p.desc c p.buffer l' g gap tp) {delivered : List DataBuf} {items : List (List UInt8)}
    (h : Framed ((delivered ++ p.log.fragments).map DataBuf.frame ++ [⟨p.log.curBytes p.buffer, false⟩]) items) :
    Framed ((delivered ++ l'.bufs).map DataBuf.frame)
      (items ++ [(finalHdr p.log env p.core.attrDescs p.desc c g).encode ++
        payload (bodyPieces p.core.attrDescs p.desc c) ++ gap]) := by
  obtain ⟨rest, hdone, hspill⟩ := hf.spill.rebase
  have hne : (finalHdr p.log env p.core.attrDescs p.desc c g).encode ≠ [] := by
    intro h0
    have h1 := congrArg List.length h0
    rw [LogItemDat.length_encode] at h1
    cases h1
  have hnew := h.spill gap hne (hspill ((delivered ++ p.log.fragments).map DataBuf.frame))
  rw [List.map_append, hf.bufs, hdone]
  simpa using hnew

/-- What is carried depends on the frames and the accepted calls alone. -/
theorem LogSys.Carries.of_frames {s₁ s₂ : LogSys} (h : s₁.Carries hash) (hf : s₂.frames = s₁.frames)
    (ha : s₂.accepted = s₁.accepted) : s₂.Carries hash := by
  obtain ⟨items, hi, hacc⟩ := h
  exact ⟨items, hf ▸ hi, ha ▸ hacc⟩

/-- A pull moves buffers, and changes none of them. -/
theorem LogSys.bufs_pull (s : LogSys) :
    LogSys.bufs { s with log := s.log.pull.1, delivered := s.delivered ++ s.log.pull.2 } = s.bufs := by
  unfold LogSys.bufs Log.pull Log.bufs
  cases s.log.buffer <;> simp

/-- Hence it changes nothing of what they carry. -/
theorem LogSys.frames_pull (s : LogSys) :
    LogSys.frames { s with log := s.log.pull.1, delivered := s.delivered ++ s.log.pull.2 } = s.frames :=
  congrArg (List.map DataBuf.frame) s.bufs_pull

/-- A call that does not discard a record keeps what the buffers carry, an accepted record being added. -/
theorem LogSys.Carries.send (h : s.Carries hash) {o : Sent} (ho : SendCases hash s.core s.log env c o)
    (hne : o.outcome ≠ .abandoned) : (s.after c o).Carries hash := by
  obtain ⟨items, hframes, hitems⟩ := h
  cases ho with
  | idle o hp hi =>
    have hres : o.outcome.result = false := by
      rcases hi.outcome with h1 | h1 <;> rw [h1] <;> rfl
    have hacc : (s.after c o).accepted = s.accepted := by simp [LogSys.after, hres]
    refine ⟨items, ?_, hacc ▸ hitems⟩
    rw [LogSys.frames, LogSys.after, List.append_assoc]
    rcases hi.bufs with ⟨hsame, -⟩ | ⟨b, hframe, -, -, hfresh⟩
    · rw [hsame]
      exact hframes
    · rw [hfresh, ← List.append_assoc, List.map_append, List.map_singleton, hframe]
      exact hframes.snoc_empty
  | accepted p l' g gap tp hp hb hroom hf =>
    refine ⟨_, hf.frames (hb.frames hframes), ?_⟩
    refine List.rel_append hitems (List.Forall₂.cons ?_ List.Forall₂.nil)
    exact ⟨p.log, env, p.desc, g, gap, hb.desc, (hb.sound _ _ hb.desc).1, hb.argList, rfl, hf.gap_length⟩
  | abandoned p l' released hp hb hroom hd => exact absurd rfl hne

/-- A step keeps what the buffers carry, if a record that it discards leaves it so. -/
theorem LogSys.Carries.step {op : Op} (h : s.Carries hash) (hinv : s.Inv) (hs : s.step hash op = .ok s')
    (hdiscard : ∀ env c o, op = .send env c → s.log.send hash s.core env c = .ok o → o.outcome = .abandoned →
      (s.after c o).Carries hash) : s'.Carries hash := by
  cases op with
  | send env c =>
    obtain ⟨o, ho, hcases, rfl⟩ := hinv.step_send hs
    by_cases hab : o.outcome = .abandoned
    · exact hdiscard env c o rfl ho hab
    · exact h.send hcases hab
  | pull =>
    cases hs
    exact h.of_frames s.frames_pull rfl
  | attrRegister alloc name type =>
    cases hs
    exact h
  | resolveLogDesc alloc k file line function format =>
    cases hs
    exact h
  | setVerbosity verbosity =>
    cases hs
    exact h

end

/-! ## Plain calls -/

namespace LogSys

/-- A buffer of the pool, whatever it held before. -/
def poolBuf : DataBuf := ⟨⟨0, 0, 0, 0, 0, 0⟩, fun _ => 0⟩

/-- Every acquisition succeeds. -/
def plenty : SendEnv := ⟨some poolBuf, false, fun _ => some poolBuf, 1, 2, true⟩

/-- A string argument. -/
def strArg (s : CStr) : VaArg := ⟨0, 0, 0, some s, none, none⟩

/-- A call without attributes. -/
def plainCall (format : CStr) (args : Nat → VaArg) : Call := ⟨0, none, 0, 1, [97], none, none, some format, args⟩

/-- A call with the format `%s`. -/
def textCall (s : CStr) : Call := plainCall [0x25, 0x73] (fun _ => strArg s)

/-- The source line of every call has the hash 1. -/
def oneLine (_ : CStr) (_ : UInt32) : UInt64 := 1

end LogSys

end P8
