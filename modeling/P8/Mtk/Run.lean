import P8.Lib.Runs
import P8.Mtk.Emit

/-!
# Run: one metric writer over a run of calls

A `MtkSys` is one `cp8_mtk`, the buffers pulled from it so far, in delivery order, and the id and value of every `emit` that
returned true, which nothing reads. `emit_cases` is what one call can do; `MtkSys.Carries` says that the buffers delivered and
held hold exactly the accepted samples, each buffer whole ones, and every step keeps it.
-/

namespace P8

open Bytes

/-! ## One call -/

/-- The invariant of a writer: its cursor is a multiple of 8 inside the buffer, and the current buffer holds the samples up to
the cursor and has room for one more. -/
structure Mtk.Inv (m : Mtk) : Prop where
  used_le : m.bufUsed ≤ bufMax
  aligned : m.bufUsed % 8 = 0
  cur : ∀ b, m.buffer = some b →
    ∃ items, b.Holds items ∧ m.bufUsed = mtkUsed items.length ∧ mtkUsed (items.length + 1) ≤ bufMax

/-- A sample is written: behind those of the current buffer, or into a buffer waited for. -/
structure Mtk.Written (m : Mtk) (env : EmitEnv) (id : Int32) (value : UInt64) (b b' : DataBuf) (items : List MtkItemDat)
    (o : Emitted) : Prop where
  known : m.known env id = true
  source : m.buffer = some b ∨ (m.buffer = none ∧ ∃ b₀, env.waited = some b₀ ∧
    b = b₀.start packetMetrics m.threadId env.bufTicks)
  holds : b.Holds items
  holds' : b'.Holds (items ++ [item env id value])
  hdr : b'.hdr = { b.hdr with size := b'.hdr.size, stopTime := env.itemTicks }
  bufs : o.delivered ++ o.mtk.bufs = m.fragments ++ [b']
  dropped : o.mtk.droppedMetrics = m.droppedMetrics
  result : o.result = true

/-- What a call of `emit` does: the id is refused, or the wait ends without a buffer, or the sample is written. -/
inductive EmitCases (m : Mtk) (env : EmitEnv) (id : Int32) (value : UInt64) : Emitted → Prop where
  | refused (h : m.known env id = false) : EmitCases m env id value ⟨m, [], false⟩
  | dropped {o : Emitted} (h : m.known env id = true) (hwait : m.buffer = none ∧ env.waited = none)
      (hbufs : o.delivered ++ o.mtk.bufs = m.bufs) (hdropped : o.mtk.droppedMetrics = m.droppedMetrics + 1) (hresult : o.result = false) (hinv : o.mtk.Inv) :
      EmitCases m env id value o
  | written {o : Emitted} (b b' : DataBuf) (items : List MtkItemDat) (h : m.Written env id value b b' items o)
      (hinv : o.mtk.Inv) : EmitCases m env id value o

namespace Mtk

theorem inv_init (attached : Bool) (threadId : UInt32) : (init attached threadId).Inv :=
  ⟨Nat.zero_le _, rfl, fun _ h => by cases h⟩

/-- The room behind a cursor inside the buffer. -/
theorem bufMax_sub {used : Nat} (h : used ≤ bufMax) : sizeSub bufMax used = bufMax - used :=
  sizeSub_of_le h (by decide)

/-- The check in front of a write never parks a buffer: the one behind the last write did. -/
theorem parkFull_eq {m : Mtk} (h : m.Inv) : m.parkFull = m := by
  unfold parkFull
  split
  · rename_i b hb
    obtain ⟨items, -, hused, hroom⟩ := h.cur b hb
    have hle := h.used_le
    rw [mtkUsed, Nat.mul_succ] at hroom
    rw [mtkUsed] at hused
    rw [bufMax_sub hle, if_neg (by omega)]
  · rfl

/-- A pull hands over the buffers in order and leaves an empty writer. -/
theorem pull_bufs (m : Mtk) : m.pull.2 = m.bufs ∧ m.pull.1.bufs = [] ∧ m.pull.1.buffer = none ∧
    m.pull.1.droppedMetrics = m.droppedMetrics ∧ m.pull.1.threadId = m.threadId := by
  unfold pull bufs
  cases m.buffer with
  | none => simp
  | some b => simp

/-- A pull keeps the invariant. -/
theorem Inv.pull {m : Mtk} (h : m.Inv) : m.pull.1.Inv := by
  have hnone := (pull_bufs m).2.2.1
  refine ⟨?_, ?_, fun b hb => by rw [hnone] at hb; cases hb⟩
  · unfold Mtk.pull
    split
    · exact Nat.zero_le _
    · exact h.used_le
  · unfold Mtk.pull
    split
    · rfl
    · exact h.aligned

/-- A pull while the call waits takes what the writer holds, or there is none. -/
theorem pullWhile_bufs {m : Mtk} (pulled : Bool) (hb : m.buffer = none) :
    (m.pullWhile pulled).2 ++ (m.pullWhile pulled).1.fragments = m.fragments ∧ (m.pullWhile pulled).1.buffer = none ∧
      (m.pullWhile pulled).1.droppedMetrics = m.droppedMetrics ∧ (m.pullWhile pulled).1.threadId = m.threadId := by
  cases pulled with
  | false => simp [pullWhile, hb]
  | true => simp [pullWhile, pull, hb]

theorem Inv.pullWhile {m : Mtk} (h : m.Inv) (pulled : Bool) : (m.pullWhile pulled).1.Inv := by
  cases pulled with
  | false => exact h
  | true => exact h.pull

/-- Behind a write of a sample the writer keeps its invariant, and its buffers are the ones before with the written one. -/
theorem put_spec (m : Mtk) (it : MtkItemDat) {b : DataBuf} {items : List MtkItemDat} (hb : b.Holds items)
    (hused : m.bufUsed = mtkUsed items.length) (hroom : mtkUsed (items.length + 1) ≤ bufMax)
    (hsize : it.size = UInt16.ofNat sizeofMtkItemDat) :
    ∃ b', (m.put b it).bufs = m.fragments ++ [b'] ∧ b'.Holds (items ++ [it]) ∧
      b'.hdr = { b.hdr with size := b'.hdr.size, stopTime := it.timestamp } ∧
      (m.put b it).droppedMetrics = m.droppedMetrics ∧ (m.put b it).Inv := by
  have hnext : mtkUsed items.length + sizeofMtkItemDat = mtkUsed (items.length + 1) := by
    simp [mtkUsed, Nat.mul_succ, Nat.add_assoc]
  have haligned : mtkUsed (items.length + 1) % 8 = 0 := by
    simp only [mtkUsed, sizeofMtkItemDat, sizeofDataBufHdr]
    omega
  have hholds := hb.write hsize hroom it.timestamp
  unfold put
  simp only [hused, hnext]
  refine ⟨_, ?_, hholds, rfl, ?_, ?_⟩
  · split
    · simp [bufs]
    · simp [bufs]
  · split
    · rfl
    · rfl
  · split
    · exact ⟨Nat.zero_le _, rfl, fun _ h => by cases h⟩
    · rename_i hspace
      refine ⟨hroom, haligned, ?_⟩
      intro b₁ hb₁
      cases hb₁
      refine ⟨_, hholds, by simp, ?_⟩
      rw [bufMax_sub hroom] at hspace
      rw [List.length_append, List.length_singleton]
      simp only [mtkUsed, sizeofMtkItemDat] at *
      omega

end Mtk

/-- A call of `emit` does one of the three, and never writes outside its buffer. -/
theorem emit_cases {m : Mtk} (h : m.Inv) (env : EmitEnv) (id : Int32) (value : UInt64) :
    ∃ o, m.emit env id value = .ok o ∧ EmitCases m env id value o := by
  unfold Mtk.emit
  cases hknown : m.known env id with
  | false => exact ⟨_, rfl, .refused hknown⟩
  | true =>
    rw [Mtk.parkFull_eq h, Mtk.takeBuffer]
    cases hb : m.buffer with
    | some b =>
      obtain ⟨items, hholds, hused, hroom⟩ := h.cur b hb
      obtain ⟨b', hbufs, hholds', hhdr, hdropped, hinv⟩ :=
        Mtk.put_spec m (Mtk.item env id value) hholds hused hroom rfl
      have hfits : m.bufUsed + sizeofMtkItemDat ≤ bufMax := by
        simpa [hused, mtkUsed, Nat.mul_succ, Nat.add_assoc] using hroom
      simp only [Bool.not_true, Bool.false_eq_true, if_false, if_pos hfits]
      refine ⟨_, rfl, .written b b' items ⟨hknown, Or.inl hb, hholds, hholds', hhdr, ?_, hdropped, rfl⟩ hinv⟩
      exact hbufs
    | none =>
      obtain ⟨hpull, hnone, hdropped, hthread⟩ := Mtk.pullWhile_bufs env.pulled hb
      have hinv := h.pullWhile env.pulled
      generalize m.pullWhile env.pulled = mp at *
      obtain ⟨mp, delivered⟩ := mp
      have hnone : mp.buffer = none := hnone
      cases hw : env.waited with
      | none =>
        refine ⟨_, rfl, .dropped hknown ⟨hb, hw⟩ ?_ (congrArg (· + 1) hdropped) rfl ⟨hinv.used_le, hinv.aligned, hinv.cur⟩⟩
        simpa [Mtk.bufs, hb, hnone] using hpull
      | some b₀ =>
        have hstart := DataBuf.holds_start b₀ mp.threadId env.bufTicks
        obtain ⟨b', hbufs, hholds', hhdr, hdropped', hinv'⟩ :=
          Mtk.put_spec
            { mp with
              buffer := some (b₀.start packetMetrics mp.threadId env.bufTicks)
              bufUsed := sizeofDataBufHdr }
            (Mtk.item env id value) hstart rfl (by decide) rfl
        have hsource : ∃ b₁, env.waited = some b₁ ∧
            b₀.start packetMetrics mp.threadId env.bufTicks = b₁.start packetMetrics m.threadId env.bufTicks :=
          ⟨b₀, hw, by rw [hthread]⟩
        refine ⟨_, rfl, .written _ b' [] ⟨hknown, Or.inr ⟨hb, hsource⟩, hstart, hholds', hhdr, ?_, ?_, rfl⟩ hinv'⟩
        · rw [hbufs, ← hpull, List.append_assoc]
        · exact hdropped'.trans hdropped

/-- A call returns true exactly when the core knows the id and a buffer is at hand, the current one or one waited for. -/
theorem EmitCases.result_iff {m : Mtk} {env : EmitEnv} {id : Int32} {value : UInt64} {o : Emitted}
    (h : EmitCases m env id value o) :
    o.result = true ↔ m.known env id = true ∧ (m.buffer.isSome ∨ env.waited.isSome) := by
  cases h with
  | refused hk => simp [hk]
  | dropped hk hwait hbufs hdropped hresult hinv => simp [hwait.1, hwait.2, hresult]
  | written b b' items hw hinv =>
    rcases hw.source with hb | ⟨-, b₀, hb₀, -⟩
    · simp [hw.result, hw.known, hb]
    · simp [hw.result, hw.known, hb₀]

/-! ## Runs -/

/-- One metric writer, and what has left it. -/
structure MtkSys where
  mtk : Mtk
  delivered : List DataBuf
  accepted : List (Int32 × UInt64)

/-- What can happen to a metric writer. -/
inductive MtkOp where
  | emit (env : EmitEnv) (id : Int32) (value : UInt64)
  | pull

/-- The id and the value of a sample. -/
def MtkItemDat.sample (it : MtkItemDat) : Int32 × UInt64 := (it.id, it.value)

/-- The samples a reader finds in buffers, walked in order; none where one of them cannot be read. -/
def walkSamples : List DataBuf → Option (List MtkItemDat)
  | [] => some []
  | b :: bs => b.samples.bind (fun items => (walkSamples bs).map (items ++ ·))

/-- A walk over buffers goes on behind the first of them. -/
theorem walkSamples_append {as bs : List DataBuf} {xs ys : List MtkItemDat} (ha : walkSamples as = some xs)
    (hb : walkSamples bs = some ys) : walkSamples (as ++ bs) = some (xs ++ ys) := by
  induction as generalizing xs with
  | nil =>
    cases ha
    exact hb
  | cons a as ih =>
    rw [walkSamples, Option.bind_eq_some_iff] at ha
    obtain ⟨items, ha₁, ha₂⟩ := ha
    obtain ⟨rest, hrest, rfl⟩ := Option.map_eq_some_iff.mp ha₂
    rw [List.cons_append, walkSamples, ha₁, Option.bind_some, ih hrest, Option.map_some, List.append_assoc]

/-- A buffer that holds samples is walked to its end. -/
theorem DataBuf.Holds.walk {b : DataBuf} {items : List MtkItemDat} (h : b.Holds items) : walkSamples [b] = some items := by
  simp [walkSamples, h.samples_eq]

/-- A buffer of whole samples. -/
def DataBuf.Whole (b : DataBuf) : Prop := ∃ items, b.Holds items

/-- Buffers of whole samples can be walked. -/
theorem walkSamples_whole {bs : List DataBuf} (h : ∀ b ∈ bs, b.Whole) : ∃ items, walkSamples bs = some items := by
  induction bs with
  | nil => exact ⟨[], rfl⟩
  | cons b bs ih =>
    obtain ⟨items, hb⟩ := h b List.mem_cons_self
    obtain ⟨rest, hrest⟩ := ih (fun x hx => h x (List.mem_cons_of_mem b hx))
    have hall : walkSamples ([b] ++ bs) = some (items ++ rest) := walkSamples_append hb.walk hrest
    exact ⟨items ++ rest, hall⟩

namespace MtkSys

/-- A writer right after its construction. -/
def init (attached : Bool) (threadId : UInt32) : MtkSys := ⟨Mtk.init attached threadId, [], []⟩

/-- The state after a call of `emit`. -/
def after (s : MtkSys) (id : Int32) (value : UInt64) (o : Emitted) : MtkSys where
  mtk := o.mtk
  delivered := s.delivered ++ o.delivered
  accepted := if o.result then s.accepted ++ [(id, value)] else s.accepted

/-- One step of a run. -/
def step (s : MtkSys) : MtkOp → Except Fault MtkSys
  | .emit env id value =>
    match s.mtk.emit env id value with
    | .ok o => .ok (s.after id value o)
    | .error f => .error f
  | .pull => .ok { s with mtk := s.mtk.pull.1, delivered := s.delivered ++ s.mtk.pull.2 }

/-- A run; it ends at the first write outside a buffer. -/
def run (s : MtkSys) (ops : List MtkOp) : Except Fault MtkSys := Runs.run step s ops

/-- The buffers delivered and those still held, in order. -/
def bufs (s : MtkSys) : List DataBuf := s.delivered ++ s.mtk.bufs

/-- The buffers are made of whole samples, and hold the accepted ones in order and nothing else. -/
structure Carries (s : MtkSys) : Prop where
  inv : s.mtk.Inv
  whole : ∀ b ∈ s.bufs, b.Whole
  walk : ∃ items, walkSamples s.bufs = some items ∧ items.map MtkItemDat.sample = s.accepted

theorem carries_init (attached : Bool) (threadId : UInt32) : (init attached threadId).Carries := by
  refine ⟨Mtk.inv_init _ _, ?_, [], rfl, rfl⟩
  intro b hb
  cases hb

end MtkSys

/-- Behind the buffers in front of it, the buffer a sample is written to holds what was walked before and that sample. -/
theorem Mtk.Written.walk {m : Mtk} {env : EmitEnv} {id : Int32} {value : UInt64} {b b' : DataBuf}
    {items : List MtkItemDat} {o : Emitted} (h : m.Written env id value b b' items o) {front : List DataBuf}
    (hwhole : ∀ x ∈ front ++ m.bufs, x.Whole) {before : List MtkItemDat}
    (hwalk : walkSamples (front ++ m.bufs) = some before) :
    walkSamples (front ++ m.fragments ++ [b']) = some (before ++ [Mtk.item env id value]) := by
  obtain ⟨xs, hxs⟩ : ∃ xs, walkSamples (front ++ m.fragments) = some xs := by
    refine walkSamples_whole (fun x hx => hwhole x ?_)
    rw [Mtk.bufs, ← List.append_assoc]
    exact List.mem_append_left _ hx
  have hnew := walkSamples_append hxs h.holds'.walk
  have hbefore : before = xs ++ items := by
    rcases h.source with hb | ⟨hb, b₀, -, rfl⟩
    · have hold := walkSamples_append hxs h.holds.walk
      rw [Mtk.bufs, hb, Option.toList_some, ← List.append_assoc, hold] at hwalk
      exact (Option.some.inj hwalk).symm
    · have hempty : items = [] := by
        have hnil := (DataBuf.holds_start b₀ m.threadId env.bufTicks).samples_eq
        exact Option.some.inj (h.holds.samples_eq.symm.trans hnil)
      rw [Mtk.bufs, hb, Option.toList_none, List.append_nil, hxs] at hwalk
      rw [hempty, List.append_nil]
      exact (Option.some.inj hwalk).symm
  rw [hnew, hbefore, List.append_assoc]

namespace MtkSys

variable {s s' : MtkSys}

/-- A step of a run keeps what the buffers carry, and never writes outside a buffer. -/
theorem Carries.step (h : s.Carries) (op : MtkOp) : ∃ s', s.step op = .ok s' ∧ s'.Carries := by
  cases op with
  | emit env id value =>
    obtain ⟨o, ho, hcases⟩ := emit_cases h.inv env id value
    refine ⟨s.after id value o, by rw [MtkSys.step, ho], ?_⟩
    obtain ⟨items, hwalk, hacc⟩ := h.walk
    cases hcases with
    | refused hk => exact ⟨h.inv, by simpa [after, bufs] using h.whole, items, by simpa [after, bufs] using hwalk, hacc⟩
    | dropped hk hwait hbufs hdropped hresult hinv =>
      have hsame : (s.after id value o).bufs = s.bufs := by
        rw [bufs, bufs, ← hbufs, ← List.append_assoc]
        rfl
      refine ⟨hinv, by rw [hsame]; exact h.whole, items, by rw [hsame]; exact hwalk, ?_⟩
      rw [hacc, after, hresult]
      rfl
    | written b b' its hw hinv =>
      have hnew : (s.after id value o).bufs = s.delivered ++ s.mtk.fragments ++ [b'] := by
        rw [bufs, after, List.append_assoc, hw.bufs, List.append_assoc]
      refine ⟨hinv, ?_, items ++ [Mtk.item env id value], ?_, ?_⟩
      · rw [hnew]
        intro x hx
        rcases List.mem_append.mp hx with hx | hx
        · refine h.whole x ?_
          rw [bufs, Mtk.bufs, ← List.append_assoc]
          exact List.mem_append_left _ hx
        · rw [List.mem_singleton.mp hx]
          exact ⟨_, hw.holds'⟩
      · rw [hnew]
        exact hw.walk h.whole hwalk
      · rw [List.map_append, hacc, after, hw.result]
        rfl
  | pull =>
    obtain ⟨hpull, hempty, -⟩ := Mtk.pull_bufs s.mtk
    refine ⟨_, rfl, h.inv.pull, ?_, ?_⟩
    · simpa [bufs, hpull, hempty] using h.whole
    · simpa [bufs, hpull, hempty] using h.walk

/-- Every run ends, without a write outside a buffer, and its buffers carry the accepted samples. -/
theorem Carries.run (h : s.Carries) (ops : List MtkOp) : ∃ s', s.run ops = .ok s' ∧ s'.Carries := by
  induction ops generalizing s with
  | nil => exact ⟨s, rfl, h⟩
  | cons op ops ih =>
    obtain ⟨s₁, hs₁, h₁⟩ := h.step op
    obtain ⟨s', hs', h'⟩ := ih h₁
    exact ⟨s', by rw [MtkSys.run, Runs.run_step hs₁]; exact hs', h'⟩

end MtkSys

/-- Over any run of emits and pulls the delivered buffers, and behind them those still held, hold exactly the samples of the
emits that returned true, in call order and each whole in one buffer; an emit returns true exactly when the core knows the id
and a buffer is at hand, and one that returns false leaves all buffers as they are and counts a dropped sample just where the
core knows the id. -/
theorem metrics_carried (attached : Bool) (threadId : UInt32) (ops : List MtkOp) :
    ∃ s, (MtkSys.init attached threadId).run ops = .ok s ∧
      s.mtk.bufUsed % 8 = 0 ∧ s.mtk.bufUsed ≤ bufMax ∧
      (∀ b ∈ s.delivered, ∃ items, b.samples = some items ∧ b.hdr.size.toNat = 24 + 24 * items.length ∧
        b.hdr.size.toNat ≤ bufMax) ∧
      (∃ items held, walkSamples s.delivered = some items ∧ walkSamples s.mtk.bufs = some held ∧
        (items ++ held).map MtkItemDat.sample = s.accepted) ∧
      ∀ env id value, ∃ o, s.mtk.emit env id value = .ok o ∧
        (o.result = true ↔ s.mtk.known env id = true ∧ (s.mtk.buffer.isSome ∨ env.waited.isSome)) ∧
        (o.result = false → o.delivered ++ o.mtk.bufs = s.mtk.bufs ∧
          o.mtk.droppedMetrics = s.mtk.droppedMetrics + (if s.mtk.known env id then 1 else 0)) := by
  obtain ⟨s, hs, h⟩ := (MtkSys.carries_init attached threadId).run ops
  refine ⟨s, hs, h.inv.aligned, h.inv.used_le, ?_, ?_, ?_⟩
  · intro b hb
    obtain ⟨items, hitems⟩ := h.whole b (List.mem_append_left _ hb)
    exact ⟨items, hitems.samples_eq, hitems.size_eq, hitems.size_eq ▸ hitems.fits⟩
  · obtain ⟨items, hitems⟩ := walkSamples_whole (fun b hb => h.whole b (List.mem_append_left _ hb))
    obtain ⟨held, hheld⟩ := walkSamples_whole (fun b hb => h.whole b (List.mem_append_right _ hb))
    obtain ⟨all, hall, hacc⟩ := h.walk
    have happ := walkSamples_append hitems hheld
    refine ⟨items, held, hitems, hheld, ?_⟩
    rw [← hacc, Option.some.inj (hall.symm.trans happ)]
  · intro env id value
    obtain ⟨o, ho, hcases⟩ := emit_cases h.inv env id value
    refine ⟨o, ho, hcases.result_iff, ?_⟩
    intro hfalse
    cases hcases with
    | refused hk => simp [hk]
    | dropped hk hwait hbufs hdropped hresult hinv => exact ⟨hbufs, by rw [hdropped, hk]; rfl⟩
    | written b b' items hw hinv =>
      rw [hw.result] at hfalse
      cases hfalse

end P8
