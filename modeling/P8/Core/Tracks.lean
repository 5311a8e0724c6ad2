import Mathlib.Data.List.Range
import P8.Core.Flow

/-!
# Tracks: the buffers of one writer

What has left a writer, what it holds and what it rolled back are together the buffers it has taken, each once, and the first two are
in the order it took them. What a writer does under its lock only adds to the end of what it holds, or takes from there (`Extends`).
-/

namespace P8

open Sources

variable {W : Type} [DecidableEq W]

/-- What a buffer is told by: its writer and its number. -/
def Filled.key (t : Filled W) : W × Nat := (t.writer, t.serial)

/-- Buffers in which each continued one is followed by the writer's next, if that has not been rolled back. -/
abbrev Unbroken (gone : List (W × Nat)) (l : List (Filled W)) : Prop := Joined Filled.writer Filled.serial Filled.cont gone l

/-! ## One writer -/

/-- The buffers of the writer `w`: `out` have left it, `gone` are those rolled back by any writer. -/
structure Tracks (gone : List (W × Nat)) (w : W) (out : List (Filled W)) (st : WriterState W) : Prop where
  sorted : ((out ++ st.held).map Filled.serial).Pairwise (· < ·)
  bound : ∀ n ∈ (out ++ st.held).map Filled.serial, n < st.next
  lost : ∀ n, (w, n) ∈ gone → n < st.next ∧ n ∉ (out ++ st.held).map Filled.serial
  all : ∀ n, n < st.next → n ∈ (out ++ st.held).map Filled.serial ∨ (w, n) ∈ gone
  own : ∀ t ∈ st.held, t.writer = w
  cur : ∀ b, st.buffer = some b → b.serial + 1 = st.next ∧ b.cont = false
  joined : Unbroken gone st.held

/-- What a writer does to its buffers under its lock: it takes `k` new ones, and rolls some of the last ones back. -/
structure Extends (gone : List (W × Nat)) (w : W) (st st' : WriterState W) (k : Nat) (rolled : List (Filled W)) : Prop where
  next : st'.next = st.next + k
  serials : st'.held.map Filled.serial ++ rolled.map Filled.serial =
    st.held.map Filled.serial ++ List.range' st.next k
  own : ∀ t ∈ st'.held ++ rolled, t.writer = w
  cur : ∀ b, st'.buffer = some b → b.serial + 1 = st'.next ∧ b.cont = false
  joined : Unbroken (gone ++ rolled.map Filled.key) st'.held

section

variable {gone : List (W × Nat)} {w : W} {out : List (Filled W)} {st st' : WriterState W} {k : Nat}
  {rolled : List (Filled W)}

omit [DecidableEq W] in
/-- What a step adds to a writer is tracked, and what it rolls back is gone. -/
theorem Tracks.extends (h : Tracks gone w out st) (he : Extends gone w st st' k rolled) :
    Tracks (gone ++ rolled.map Filled.key) w out st' := by
  have hserials : (out ++ st'.held).map Filled.serial ++ rolled.map Filled.serial =
      (out ++ st.held).map Filled.serial ++ List.range' st.next k := by
    rw [List.map_append, List.append_assoc, he.serials, List.map_append, List.append_assoc]
  have hsorted : ((out ++ st'.held).map Filled.serial ++ rolled.map Filled.serial).Pairwise (· < ·) := by
    rw [hserials, List.pairwise_append]
    refine ⟨h.sorted, List.pairwise_lt_range' .., fun n hn m hm => ?_⟩
    have hlt := h.bound n hn
    have hle := (List.mem_range'_1.mp hm).1
    omega
  have hmem : ∀ n, n ∈ (out ++ st'.held).map Filled.serial ∨ n ∈ rolled.map Filled.serial ↔
      n ∈ (out ++ st.held).map Filled.serial ∨ st.next ≤ n ∧ n < st.next + k := by
    intro n
    rw [← List.mem_append, hserials, List.mem_append, List.mem_range'_1]
  have hkeys : ∀ n, (w, n) ∈ rolled.map Filled.key ↔ n ∈ rolled.map Filled.serial := by
    intro n
    constructor
    · intro hn
      obtain ⟨t, ht, heq⟩ := List.mem_map.mp hn
      exact List.mem_map.mpr ⟨t, ht, congrArg Prod.snd heq⟩
    · intro hn
      obtain ⟨t, ht, rfl⟩ := List.mem_map.mp hn
      exact List.mem_map.mpr ⟨t, ht, by rw [Filled.key, he.own t (List.mem_append_right _ ht)]⟩
  have hlt : ∀ n, n ∈ (out ++ st'.held).map Filled.serial ∨ n ∈ rolled.map Filled.serial → n < st'.next := by
    intro n hn
    rw [he.next]
    rcases (hmem n).mp hn with hn | hn
    · have hold := h.bound n hn
      omega
    · exact hn.2
  refine ⟨(List.pairwise_append.mp hsorted).1, fun n hn => hlt n (Or.inl hn), fun n hn => ?_, fun n hn => ?_,
    fun t ht => he.own t (List.mem_append_left _ ht), he.cur, he.joined⟩
  · rcases List.mem_append.mp hn with hold | hnew
    · obtain ⟨hbound, hnot⟩ := h.lost n hold
      rw [he.next]
      refine ⟨by omega, fun hin => ?_⟩
      rcases (hmem n).mp (Or.inl hin) with hin | hin
      · exact hnot hin
      · omega
    · have hrolled := (hkeys n).mp hnew
      refine ⟨hlt n (Or.inr hrolled), fun hin => ?_⟩
      exact Nat.lt_irrefl n ((List.pairwise_append.mp hsorted).2.2 n hin n hrolled)
  · rw [he.next] at hn
    rw [List.mem_append, hkeys]
    have hwhere : n ∈ (out ++ st.held).map Filled.serial ∨ (w, n) ∈ gone ∨ st.next ≤ n ∧ n < st.next + k := by
      rcases Nat.lt_or_ge n st.next with hold | hnew
      · exact (h.all n hold).imp_right Or.inl
      · exact Or.inr (Or.inr ⟨hnew, hn⟩)
    rcases hwhere with hin | hin | hin
    · exact ((hmem n).mpr (Or.inl hin)).imp_right Or.inr
    · exact Or.inr (Or.inl hin)
    · exact ((hmem n).mpr (Or.inr hin)).imp_right Or.inr

omit [DecidableEq W] in
/-- What another writer rolls back is nothing to this one. -/
theorem Tracks.other (h : Tracks gone w out st) {v : W} (hv : v ≠ w) (hrolled : ∀ t ∈ rolled, t.writer = v) :
    Tracks (gone ++ rolled.map Filled.key) w out st := by
  refine { h with lost := fun n hn => ?_, all := fun n hn => ?_, joined := ?_ }
  · rcases List.mem_append.mp hn with hold | hnew
    · exact h.lost n hold
    · obtain ⟨t, ht, heq⟩ := List.mem_map.mp hnew
      exact absurd ((hrolled t ht).symm.trans (congrArg Prod.fst heq)) hv
  · exact (h.all n hn).imp_right (List.mem_append_left _)
  · exact h.joined.mono (fun x hx => List.mem_append_left _ hx)

omit [DecidableEq W] in
/-- All a writer holds leaves it. -/
theorem Tracks.emptied (h : Tracks gone w out st) : Tracks gone w (out ++ st.held) st.emptied := by
  have hheld : st.emptied.held = [] := rfl
  refine ⟨?_, ?_, ?_, ?_, fun t ht => (by cases ht), fun b hb => (by cases hb), trivial⟩ <;>
    rw [hheld, List.append_nil]
  · exact h.sorted
  · exact h.bound
  · exact h.lost
  · exact h.all

end

/-! ## What a writer does -/

omit [DecidableEq W] in
@[simp] theorem WriterState.enter_held (st : WriterState W) (phase : WriterPhase) : (st.enter phase).held = st.held := rfl

omit [DecidableEq W] in
@[simp] theorem WriterState.park_held (st : WriterState W) : st.park.held = st.held := by
  unfold WriterState.park
  split
  · rename_i b hb
    simp [WriterState.held, hb]
  · rfl

omit [DecidableEq W] in
@[simp] theorem WriterState.park_phase (st : WriterState W) : st.park.phase = st.phase := by
  unfold WriterState.park
  split <;> rfl

omit [DecidableEq W] in
/-- A buffer that is fetched is the last one. -/
theorem WriterState.fetch_held {st : WriterState W} (hnone : st.buffer = none) (w : W) :
    (st.fetch w).held = st.held ++ [⟨w, st.next, false, []⟩] := by
  simp [WriterState.fetch, WriterState.held, hnone]

section

variable {gone : List (W × Nat)} {w : W} {out : List (Filled W)} {st : WriterState W}

omit [DecidableEq W] in
/-- The buffers of a record are numbered upwards, and each but the last is continued by the next. -/
theorem WriterState.rotate_spec (gone : List (W × Nat)) (refs : List DescKey) (k n : Nat) (b : Filled W) (hn : b.serial + 1 = n) (hb : b.cont = false) :
    ((WriterState.rotate refs k n b).1 ++ [(WriterState.rotate refs k n b).2]).map Filled.serial = b.serial :: List.range' n k ∧
      (∀ t ∈ (WriterState.rotate refs k n b).1 ++ [(WriterState.rotate refs k n b).2], t.writer = b.writer) ∧
      (WriterState.rotate refs k n b).2.serial + 1 = n + k ∧ (WriterState.rotate refs k n b).2.cont = false ∧
      Unbroken gone ((WriterState.rotate refs k n b).1 ++ [(WriterState.rotate refs k n b).2]) := by
  induction k generalizing n b with
  | zero => exact ⟨rfl, by simp [WriterState.rotate], hn, hb, fun hj => Bool.noConfusion (hb.symm.trans hj), trivial⟩
  | succ k ih =>
    obtain ⟨hserials, hwriter, hlast, hcont, hjoined⟩ := ih (n + 1) ⟨b.writer, n, false, refs⟩ rfl rfl
    rw [WriterState.rotate]
    generalize WriterState.rotate refs k (n + 1) ⟨b.writer, n, false, refs⟩ = r at hserials hwriter hlast hcont hjoined ⊢
    refine ⟨?_, fun t ht => ?_, by rw [hlast]; omega, hcont, fun _ => ?_, hjoined⟩
    · rw [List.cons_append, List.map_cons, hserials, List.range'_succ]
    · rcases List.mem_cons.mp ht with rfl | ht
      · rfl
      · exact hwriter t ht
    · cases hl : r.1 ++ [r.2] with
      | nil => simp at hl
      | cons c l =>
        rw [hl] at hserials hwriter
        refine Or.inl ⟨c, l, by rw [← hl]; rfl, hwriter c List.mem_cons_self, ?_⟩
        have hc : c.serial = n := (List.cons.inj hserials).1
        rw [hc, ← hn]

omit [DecidableEq W] in
/-- A writer goes on in its life with the buffers it holds. -/
theorem Tracks.enter (h : Tracks gone w out st) (phase : WriterPhase) : Extends gone w st (st.enter phase) 0 [] where
  next := rfl
  serials := by simp
  own := by
    rw [List.append_nil]
    exact h.own
  cur := h.cur
  joined := by
    rw [List.map_nil, List.append_nil]
    exact h.joined

omit [DecidableEq W] in
/-- Parking the current buffer changes no order. -/
theorem Tracks.park (h : Tracks gone w out st) : Extends gone w st st.park 0 [] := by
  have hnext : st.park.next = st.next := by
    unfold WriterState.park
    split <;> rfl
  refine ⟨hnext, by simp, by simpa using h.own, fun b hb => ?_, by simpa using h.joined⟩
  unfold WriterState.park at hb ⊢
  split at hb
  · cases hb
  · exact h.cur b hb

omit [DecidableEq W] in
/-- Fetching a buffer adds one with the next number. -/
theorem Tracks.fetch (h : Tracks gone w out st) (hnone : st.buffer = none) : Extends gone w st (st.fetch w) 1 [] := by
  have hheld := WriterState.fetch_held hnone w
  refine ⟨rfl, by simp [hheld], fun t ht => ?_, fun b hb => ?_, ?_⟩
  · rw [hheld, List.append_nil] at ht
    rcases List.mem_append.mp ht with ht | ht
    · exact h.own t ht
    · rw [List.mem_singleton.mp ht]
  · cases hb
    exact ⟨rfl, rfl⟩
  · rw [hheld]
    exact (h.joined.mono (fun x hx => List.mem_append_left _ hx)).append ⟨fun hj => (by cases hj), trivial⟩

omit [DecidableEq W] in
/-- A record adds the buffers it fetches, and rolls back what a discard gives up. -/
theorem Tracks.record (h : Tracks gone w out st) {b : Filled W} (hb : st.buffer = some b) (refs : List DescKey) (k : Nat)
    (ending : RecordEnd) :
    Extends gone w st (st.record refs k ending b).1 k (st.record refs k ending b).2 := by
  have hheld : st.held = st.fragments ++ [b] := by rw [WriterState.held, hb, Option.toList_some]
  have hown : ∀ t ∈ st.fragments ++ [b], t.writer = w := hheld ▸ h.own
  have hbw : b.writer = w := hown b (List.mem_append_right _ List.mem_cons_self)
  obtain ⟨hnext, hcont⟩ := h.cur b hb
  have hspec := fun g => WriterState.rotate_spec g refs k st.next { b with refs := b.refs ++ refs } hnext hcont
  unfold WriterState.record
  generalize WriterState.rotate refs k st.next { b with refs := b.refs ++ refs } = r at hspec ⊢
  obtain ⟨hserials, hwriter, hlast, hrcont, hrjoined⟩ := hspec gone
  have hhead : ∃ c rest, r.1 ++ [r.2] = c :: rest ∧ c.writer = b.writer ∧ c.serial = b.serial := by
    cases hl : r.1 ++ [r.2] with
    | nil => simp at hl
    | cons c rest =>
      rw [hl] at hserials hwriter
      exact ⟨c, rest, rfl, hwriter c List.mem_cons_self, (List.cons.inj hserials).1⟩
  -- what is kept goes on behind the fragments; the record's first buffer is the writer's current one
  have hkept : ∀ st' : WriterState W, st'.next = st.next + k → st'.held = st.fragments ++ (r.1 ++ [r.2]) →
      (∀ b', st'.buffer = some b' → b' = r.2) → Extends gone w st st' k [] := by
    intro st' hnext' hheld' hbuf
    refine ⟨hnext', ?_, fun t ht => ?_, fun b' hb' => ?_, ?_⟩
    · rw [hheld', hheld, List.map_append, hserials]
      simp
    · rw [hheld', List.append_nil] at ht
      rcases List.mem_append.mp ht with ht | ht
      · exact hown t (List.mem_append_left _ ht)
      · exact (hwriter t ht).trans hbw
    · rw [hbuf b' hb', hnext']
      exact ⟨hlast, hrcont⟩
    · rw [hheld', List.map_nil, List.append_nil]
      have hold := h.joined
      rw [hheld] at hold
      exact hold.draw_out hrjoined hhead
  cases ending with
  | kept => exact hkept _ rfl (by simp [WriterState.held]) (fun b' hb' => (Option.some.inj hb').symm)
  | parked => exact hkept _ rfl (by simp [WriterState.held]) (fun b' hb' => (by cases hb'))
  | discarded =>
    have htake : (st.fragments ++ r.1 ++ [{ r.2 with cont := true }]).take st.fragments.length = st.fragments := by
      rw [List.append_assoc, List.take_left]
    have hdrop : (st.fragments ++ r.1 ++ [{ r.2 with cont := true }]).drop st.fragments.length =
        r.1 ++ [{ r.2 with cont := true }] := by
      rw [List.append_assoc, List.drop_left]
    have hmap : (r.1 ++ [{ r.2 with cont := true }]).map Filled.serial = (r.1 ++ [r.2]).map Filled.serial := by simp
    have hheld' : ({ st with
        fragments := (st.fragments ++ r.1 ++ [{ r.2 with cont := true }]).take st.fragments.length
        buffer := none
        next := st.next + k } : WriterState W).held = st.fragments := by
      rw [WriterState.held, htake, Option.toList_none, List.append_nil]
    have hrolled : ∀ t ∈ r.1 ++ [{ r.2 with cont := true }], t.writer = w := by
      intro t ht
      rcases List.mem_append.mp ht with ht | ht
      · exact (hwriter t (List.mem_append_left _ ht)).trans hbw
      · rw [List.mem_singleton.mp ht]
        exact (hwriter r.2 (List.mem_append_right _ List.mem_cons_self)).trans hbw
    have hfirst : b.key ∈ (r.1 ++ [{ r.2 with cont := true }]).map Filled.key := by
      have hserial : b.serial ∈ (r.1 ++ [{ r.2 with cont := true }]).map Filled.serial := by
        rw [hmap, hserials]
        exact List.mem_cons_self
      obtain ⟨t, ht, hts⟩ := List.mem_map.mp hserial
      exact List.mem_map.mpr ⟨t, ht, Prod.ext ((hrolled t ht).trans hbw.symm) hts⟩
    dsimp only
    rw [hdrop]
    refine ⟨rfl, ?_, fun t ht => ?_, fun b' hb' => (by cases hb'), ?_⟩
    · rw [hheld', hmap, hserials, hheld]
      simp
    · rw [hheld'] at ht
      rcases List.mem_append.mp ht with ht | ht
      · exact hown t (List.mem_append_left _ ht)
      · exact hrolled t ht
    · rw [hheld']
      have hold := h.joined
      rw [hheld] at hold
      refine (hold.mono (fun x hx => List.mem_append_left _ hx)).of_append (fun c hc => ?_)
      cases hc
      exact List.mem_append_right _ hfirst

end

end P8
