/-!
# Spans: intervals of a clock, one behind the other

A log of spans: each has the time it was started at, the time it was last stopped at, and the times of the marks put into it. A
span without marks is one just started, and its stop time means nothing yet. `Upto now` says that the log is in order at a time:
every marked span covers its marks, and ends before any later span starts. The rules are what a writer of such a log does: it
waits, starts a span, marks the last one, goes on in a new one, and drops spans from the end.

A time is any type with a preorder.
-/

namespace Spans

variable {τ : Type} [LE τ]

structure Span (τ : Type) where
  start : τ
  stop : τ
  marks : List τ

/-- A marked span covers its marks. -/
structure Span.Covers (s : Span τ) : Prop where
  le : s.marks ≠ [] → s.start ≤ s.stop
  marks : ∀ t ∈ s.marks, s.start ≤ t ∧ t ≤ s.stop

/-- A log of spans in order at the time `now`. -/
structure Upto (now : τ) (ss : List (Span τ)) : Prop where
  started : ∀ s ∈ ss, s.start ≤ now
  stopped : ∀ s ∈ ss, s.marks ≠ [] → s.stop ≤ now
  covers : ∀ s ∈ ss, s.Covers
  ordered : ss.Pairwise (fun x y => x.marks ≠ [] → x.stop ≤ y.start)

/-- No span goes beyond any time. -/
theorem upto_nil (now : τ) : Upto now [] :=
  ⟨by simp, by simp, by simp, List.Pairwise.nil⟩

variable {now t : τ} {ss : List (Span τ)}

/-- Spans dropped from the end leave the order of the others. -/
theorem Upto.front {rest : List (Span τ)} (h : Upto now (ss ++ rest)) : Upto now ss where
  started := fun s hs => h.started s (List.mem_append_left _ hs)
  stopped := fun s hs => h.stopped s (List.mem_append_left _ hs)
  covers := fun s hs => h.covers s (List.mem_append_left _ hs)
  ordered := (List.pairwise_append.mp h.ordered).1

/-- A span put behind the others: it starts when all of them have stopped. -/
theorem Upto.snoc (h : Upto now ss) {s : Span τ} (hstart : s.start ≤ now) (hstop : s.marks ≠ [] → s.stop ≤ now)
    (hcovers : s.Covers) (hbefore : ∀ x ∈ ss, x.marks ≠ [] → x.stop ≤ s.start) : Upto now (ss ++ [s]) where
  started := by
    intro x hx
    rcases List.mem_append.mp hx with hx | hx
    · exact h.started x hx
    · rw [List.mem_singleton.mp hx]
      exact hstart
  stopped := by
    intro x hx
    rcases List.mem_append.mp hx with hx | hx
    · exact h.stopped x hx
    · rw [List.mem_singleton.mp hx]
      exact hstop
  covers := by
    intro x hx
    rcases List.mem_append.mp hx with hx | hx
    · exact h.covers x hx
    · rw [List.mem_singleton.mp hx]
      exact hcovers
  ordered := by
    refine List.pairwise_append.mpr ⟨h.ordered, List.pairwise_singleton _ _, ?_⟩
    intro x hx y hy
    rw [List.mem_singleton.mp hy]
    exact hbefore x hx

variable [Std.IsPreorder τ]

/-- Waiting keeps the order. -/
theorem Upto.wait (h : Upto now ss) (ht : now ≤ t) : Upto t ss where
  started := fun s hs => Std.le_trans (h.started s hs) ht
  stopped := fun s hs hm => Std.le_trans (h.stopped s hs hm) ht
  covers := h.covers
  ordered := h.ordered

/-- A span is started now, and not marked yet. -/
theorem Upto.fresh (h : Upto now ss) (stop : τ) : Upto now (ss ++ [⟨now, stop, []⟩]) := by
  refine h.snoc (Std.le_refl now) (fun hm => absurd rfl hm) ⟨fun hm => absurd rfl hm, ?_⟩ h.stopped
  intro t ht
  cases ht

/-- The last span is stopped now; a mark put into it is of this moment. -/
theorem Upto.mark {s : Span τ} (h : Upto now (ss ++ [s])) {marks : List τ} (hm : ∀ t ∈ marks, t ∈ s.marks ∨ t = now) :
    Upto now (ss ++ [⟨s.start, now, marks⟩]) := by
  have hlast : s ∈ ss ++ [s] := List.mem_append_right _ (List.mem_singleton.mpr rfl)
  have hstart := h.started s hlast
  refine h.front.snoc hstart (fun _ => Std.le_refl now) ⟨fun _ => hstart, ?_⟩ ?_
  · intro t ht
    rcases hm t ht with ht | rfl
    · have hne : s.marks ≠ [] := List.ne_nil_of_mem ht
      exact ⟨((h.covers s hlast).marks t ht).1, Std.le_trans ((h.covers s hlast).marks t ht).2 (h.stopped s hlast hne)⟩
    · exact ⟨hstart, Std.le_refl t⟩
  · intro x hx
    exact (List.pairwise_append.mp h.ordered).2.2 x hx s (List.mem_singleton.mpr rfl)

/-- The log goes on in new spans, all of this moment. -/
theorem Upto.more (h : Upto now ss) {new : List (Span τ)}
    (hnew : ∀ s ∈ new, s.start = now ∧ s.stop = now ∧ ∀ t ∈ s.marks, t = now) : Upto now (ss ++ new) := by
  induction new generalizing ss with
  | nil =>
    rw [List.append_nil]
    exact h
  | cons s new ih =>
    obtain ⟨hstart, hstop, hmarks⟩ := hnew s List.mem_cons_self
    have hs : Upto now (ss ++ [s]) := by
      refine h.snoc (hstart ▸ Std.le_refl _) (fun _ => hstop ▸ Std.le_refl _) ⟨fun _ => ?_, ?_⟩ ?_
      · rw [hstart, hstop]
        exact Std.le_refl now
      · intro t ht
        rw [hstart, hstop, hmarks t ht]
        exact ⟨Std.le_refl now, Std.le_refl now⟩
      · intro x hx hm
        rw [hstart]
        exact h.stopped x hx hm
    have hall := ih hs (fun x hx => hnew x (List.mem_cons_of_mem s hx))
    rwa [List.append_assoc] at hall

/-- Along the marked spans of a log both times do not decrease. -/
theorem Upto.monotone (h : Upto now ss) :
    ss.Pairwise (fun x y => x.marks ≠ [] → y.marks ≠ [] → x.start ≤ y.start ∧ x.stop ≤ y.stop) := by
  refine List.Pairwise.imp_of_mem ?_ h.ordered
  intro x y hx hy hxy hmx hmy
  have hle := hxy hmx
  exact ⟨Std.le_trans ((h.covers x hx).le hmx) hle, Std.le_trans hle ((h.covers y hy).le hmy)⟩

end Spans
