/-!
# Framing: items cut over frames of bounded capacity

A writer puts items one after the other into frames that hold at most `cap` symbols. An item is a run of pieces: a block is
never cut, so it moves to a fresh frame when the current one has no room for it, and a text is cut wherever a frame is full.
A frame that is left while an item is being written is marked as continued in the next one.

`Tape` is the frames left so far and the current one; `Tape.emit` writes pieces. `Spill` says how written symbols lie over
the frames, whatever pieces they came from, and is what the invariants are proved from. `Woven` is what stays of it where the
frames of several writers are put into one list. `Layout` is the same computation on lengths alone: where the writing ends, how
many frames were left, and how many symbols of capacity were left unused in them.
-/

namespace Framing

variable {α : Type}

/-- A frame: its symbols, and whether its last item continues in the next frame. -/
structure Frame (α : Type) where
  data : List α
  cont : Bool

/-- The symbols of a run of frames, one after the other. -/
def stream (fs : List (Frame α)) : List α := (fs.map (·.data)).flatten

/-- The frames left so far, and the symbols of the current one. -/
structure Tape (α : Type) where
  done : List (Frame α)
  cur : List α

/-- A part of an item: a block is kept in one frame, a text may be cut anywhere. -/
inductive Piece (α : Type) where
  | block (data : List α)
  | text (data : List α)

/-- The symbols of a piece. -/
def Piece.data : Piece α → List α
  | .block xs => xs
  | .text xs => xs

/-- The symbols of a run of pieces. -/
def payload (ps : List (Piece α)) : List α := (ps.map Piece.data).flatten

namespace Tape

/-- Everything written. -/
def all (t : Tape α) : List α := stream t.done ++ t.cur

/-- Leave the current frame in the middle of an item. -/
def rotate (t : Tape α) : Tape α := ⟨t.done ++ [⟨t.cur, true⟩], []⟩

/-- Put symbols into the current frame. -/
def put (t : Tape α) (xs : List α) : Tape α := ⟨t.done, t.cur ++ xs⟩

variable (cap : Nat)

/-- Write a block: into a fresh frame when the current one has no room for it. -/
def block (t : Tape α) (xs : List α) : Tape α := if cap < t.cur.length + xs.length then t.rotate.put xs else t.put xs

/-- Write one symbol of a text: into a fresh frame when the current one is full. -/
def char (t : Tape α) (x : α) : Tape α := if cap ≤ t.cur.length then t.rotate.put [x] else t.put [x]

/-- Write a text, symbol by symbol. -/
def text (t : Tape α) (xs : List α) : Tape α := xs.foldl (char cap) t

/-- Write a piece. -/
def piece (t : Tape α) : Piece α → Tape α
  | .block xs => t.block cap xs
  | .text xs => t.text cap xs

/-- Write pieces one after the other. -/
def emit (t : Tape α) (ps : List (Piece α)) : Tape α := ps.foldl (piece cap) t

end Tape

@[simp] theorem stream_nil : stream ([] : List (Frame α)) = [] := rfl

@[simp] theorem stream_append (fs gs : List (Frame α)) : stream (fs ++ gs) = stream fs ++ stream gs := by
  simp [stream]

@[simp] theorem stream_cons (f : Frame α) (fs : List (Frame α)) : stream (f :: fs) = f.data ++ stream fs := by
  simp [stream]

@[simp] theorem payload_nil : payload ([] : List (Piece α)) = [] := rfl

@[simp] theorem payload_cons (p : Piece α) (ps : List (Piece α)) : payload (p :: ps) = p.data ++ payload ps := by
  simp [payload]

@[simp] theorem payload_append (ps qs : List (Piece α)) : payload (ps ++ qs) = payload ps ++ payload qs := by
  simp [payload]

/-! ## Texts as runs of chunks -/

namespace Tape

variable {cap : Nat}

/-- A text written in two parts is the text written whole. -/
theorem text_append (t : Tape α) (xs ys : List α) : t.text cap (xs ++ ys) = (t.text cap xs).text cap ys := by
  simp [text]

/-- A text that fits into the rest of the current frame is put there whole. -/
theorem text_of_fits (t : Tape α) (xs : List α) (h : t.cur.length + xs.length ≤ cap) : t.text cap xs = t.put xs := by
  induction xs generalizing t with
  | nil => simp [text, put]
  | cons x xs ih =>
    have hlen : t.cur.length + (xs.length + 1) ≤ cap := h
    have hx : char cap t x = t.put [x] := by
      rw [char, if_neg (by omega)]
    have hih := ih (t.put [x]) (by simp [put]; omega)
    rw [text, List.foldl_cons, hx]
    exact hih.trans (by simp [put])

/-- A text that begins at a full frame and fits into one frame is put into a fresh frame. -/
theorem text_of_full (t : Tape α) (xs : List α) (hne : xs ≠ []) (hfull : cap ≤ t.cur.length) (hlen : xs.length ≤ cap) :
    t.text cap xs = t.rotate.put xs := by
  cases xs with
  | nil => exact absurd rfl hne
  | cons x xs =>
    have hx : char cap t x = t.rotate.put [x] := by rw [char, if_pos hfull]
    rw [text, List.foldl_cons, hx]
    refine (text_of_fits _ xs ?_).trans (by simp [put])
    simp only [List.length_cons] at hlen
    simp [put, rotate]
    omega

end Tape

/-! ## How written symbols lie over the frames -/

/-- `Spill t xs t'`: `t'` is `t` with the symbols `xs` written behind what it holds. They go into the current frame; where
that frame is left, it is marked as continued and at least one more symbol follows. -/
inductive Spill : Tape α → List α → Tape α → Prop where
  | stay (fs : List (Frame α)) (cur xs : List α) : Spill ⟨fs, cur⟩ xs ⟨fs, cur ++ xs⟩
  | turn (fs : List (Frame α)) (cur xs ys : List α) (t' : Tape α) (hys : ys ≠ [])
      (h : Spill ⟨fs ++ [⟨cur ++ xs, true⟩], []⟩ ys t') : Spill ⟨fs, cur⟩ (xs ++ ys) t'

namespace Spill

theorem refl (t : Tape α) : Spill t [] t := by
  have h := Spill.stay t.done t.cur []
  rwa [List.append_nil] at h

/-- What fits the current frame is put there. -/
theorem put (t : Tape α) (xs : List α) : Spill t xs (t.put xs) := Spill.stay t.done t.cur xs

/-- Or it is put into a fresh frame, the current one being left. -/
theorem rotate_put (t : Tape α) (xs : List α) (h : xs ≠ []) : Spill t xs (t.rotate.put xs) := by
  have h1 : Spill ⟨t.done ++ [⟨t.cur ++ [], true⟩], []⟩ xs (t.rotate.put xs) := by
    rw [List.append_nil]
    exact Spill.put t.rotate xs
  exact Spill.turn t.done t.cur [] xs _ h h1

/-- Symbols written in two parts are written in one. -/
theorem trans {t t' t'' : Tape α} {xs ys : List α} (h : Spill t xs t') (h' : Spill t' ys t'') :
    Spill t (xs ++ ys) t'' := by
  induction h with
  | stay fs cur xs =>
    generalize ht : (⟨fs, cur ++ xs⟩ : Tape α) = s at h'
    cases h' with
    | stay fs' cur' ys =>
      cases ht
      rw [List.append_assoc]
      exact Spill.stay fs cur (xs ++ ys)
    | turn fs' cur' ys zs t' hz h =>
      cases ht
      rw [← List.append_assoc]
      exact Spill.turn fs cur (xs ++ ys) zs _ hz (by rwa [← List.append_assoc])
  | turn fs cur xs ys t' hy _ ih =>
    rw [List.append_assoc]
    exact Spill.turn fs cur xs _ _ (by simp [hy]) (ih h')

/-- Nothing is lost: what is on the tape afterwards is what was there and the symbols written. -/
theorem all_eq {t t' : Tape α} {xs : List α} (h : Spill t xs t') : t'.all = t.all ++ xs := by
  induction h with
  | stay fs cur xs => simp [Tape.all]
  | turn fs cur xs ys t' _ _ ih => rw [ih]; simp [Tape.all]

/-- The frames left before stay as they were, and what was written does not depend on them. -/
theorem rebase {t t' : Tape α} {xs : List α} (h : Spill t xs t') :
    ∃ rest, t'.done = t.done ++ rest ∧ ∀ gs, Spill ⟨gs, t.cur⟩ xs ⟨gs ++ rest, t'.cur⟩ := by
  induction h with
  | stay fs cur xs => exact ⟨[], by simp, fun gs => by simpa using Spill.stay gs cur xs⟩
  | turn fs cur xs ys t' hy _ ih =>
    obtain ⟨rest, hd, hr⟩ := ih
    refine ⟨⟨cur ++ xs, true⟩ :: rest, by rw [hd]; simp, fun gs => ?_⟩
    have h1 := hr (gs ++ [⟨cur ++ xs, true⟩])
    rw [List.append_assoc] at h1
    exact Spill.turn gs cur xs ys _ hy h1

/-- What was written lies in the frame that was current, or a frame was left and is marked as continued. -/
theorem stays_or_turns {t t' : Tape α} {xs : List α} (h : Spill t xs t') :
    t' = t.put xs ∨ ∃ f ∈ t'.done, f.cont = true := by
  cases h with
  | stay fs cur xs => exact Or.inl rfl
  | turn fs cur xs ys t' hy h =>
    obtain ⟨rest, hdone, -⟩ := h.rebase
    refine Or.inr ⟨⟨cur ++ xs, true⟩, ?_, rfl⟩
    rw [hdone]
    simp

/-- The frame that was current before begins with what it held, be it current still or left since. -/
theorem first {t t' : Tape α} {xs : List α} (h : Spill t xs t') (pad : List α) :
    ∃ ys cont rest, t'.done ++ [⟨t'.cur ++ pad, false⟩] = t.done ++ ⟨t.cur ++ ys, cont⟩ :: rest := by
  cases h with
  | stay fs cur xs => exact ⟨xs ++ pad, false, [], by simp⟩
  | turn fs cur xs ys t' hy h =>
    obtain ⟨rest, hdone, -⟩ := h.rebase
    exact ⟨xs, true, rest ++ [⟨t'.cur ++ pad, false⟩], by simp [hdone]⟩

/-- Every frame left while the symbols were written is marked as continued, and its end lies strictly before the end of
what was written. -/
theorem bounds {t t' : Tape α} {xs : List α} (h : Spill t xs t') :
    ∃ rest, t'.done = t.done ++ rest ∧ ∀ pre f post, rest = pre ++ f :: post →
      f.cont = true ∧ t.all.length ≤ (stream (t.done ++ pre ++ [f])).length ∧
        (stream (t.done ++ pre ++ [f])).length < t'.all.length := by
  induction h with
  | stay fs cur xs => exact ⟨[], by simp, fun pre f post hp => by simp at hp⟩
  | turn fs cur xs ys t' hy hs ih =>
    obtain ⟨rest, hd, hr⟩ := ih
    refine ⟨⟨cur ++ xs, true⟩ :: rest, by rw [hd]; simp, ?_⟩
    intro pre f post hp
    have hall := hs.all_eq
    have hpos : 0 < ys.length := List.length_pos_iff.mpr hy
    cases pre with
    | nil =>
      simp only [List.nil_append, List.cons.injEq] at hp
      obtain ⟨rfl, rfl⟩ := hp
      refine ⟨rfl, by simp [Tape.all], ?_⟩
      rw [hall]
      simp [Tape.all]
      omega
    | cons g pre =>
      simp only [List.cons_append, List.cons.injEq] at hp
      obtain ⟨rfl, rfl⟩ := hp
      obtain ⟨hc, hlo, hhi⟩ := hr pre f post rfl
      have hassoc : fs ++ (⟨cur ++ xs, true⟩ :: pre) ++ [f] = fs ++ [⟨cur ++ xs, true⟩] ++ pre ++ [f] := by simp
      rw [hassoc]
      refine ⟨hc, ?_, hhi⟩
      simp only [Tape.all, stream_append, stream_cons, stream_nil, List.length_append, List.append_nil]
        at hlo ⊢
      omega

end Spill

variable {cap : Nat}

/-- A block goes behind what is on the tape. A block without symbols must find the frame not overfull. -/
theorem spill_block (t : Tape α) (xs : List α) (h : t.cur.length ≤ cap) : Spill t xs (t.block cap xs) := by
  unfold Tape.block
  split
  · rename_i hlt
    refine Spill.rotate_put t xs ?_
    rintro rfl
    simp at hlt
    omega
  · exact Spill.put t xs

/-- A text spills where it has to. -/
theorem spill_text (t : Tape α) (xs : List α) : Spill t xs (t.text cap xs) := by
  induction xs generalizing t with
  | nil => exact Spill.refl t
  | cons x xs ih =>
    have hx : Spill t [x] (Tape.char cap t x) := by
      unfold Tape.char
      split
      · exact Spill.rotate_put t [x] (by simp)
      · exact Spill.put t [x]
    exact hx.trans (ih _)

/-- A block is at most one frame long. -/
def Piece.Fits (cap : Nat) : Piece α → Prop
  | .block xs => xs.length ≤ cap
  | .text _ => True

namespace Tape

/-- A block leaves the current frame within its capacity. -/
theorem cur_block_le (t : Tape α) (xs : List α) (h : xs.length ≤ cap) : (t.block cap xs).cur.length ≤ cap := by
  unfold block
  split
  · simpa [rotate, put] using h
  · simp [put]
    omega

/-- So does a text. -/
theorem cur_text_le (hcap : 0 < cap) (t : Tape α) (xs : List α) (h : t.cur.length ≤ cap) :
    (t.text cap xs).cur.length ≤ cap := by
  induction xs generalizing t with
  | nil => exact h
  | cons x xs ih =>
    apply ih
    unfold char
    split
    · simp [rotate, put]
      omega
    · simp [put]
      omega

theorem cur_piece_le (hcap : 0 < cap) (t : Tape α) (p : Piece α) (h : t.cur.length ≤ cap) (hp : p.Fits cap) :
    (t.piece cap p).cur.length ≤ cap := by
  cases p with
  | block xs => exact cur_block_le t xs hp
  | text xs => exact cur_text_le hcap t xs h

end Tape

/-- A piece spills where it has to. -/
theorem spill_piece (t : Tape α) (p : Piece α) (h : t.cur.length ≤ cap) : Spill t p.data (t.piece cap p) := by
  cases p with
  | block xs => exact spill_block t xs h
  | text xs => exact spill_text t xs

/-- Pieces that fit their frames are written behind what is on the tape, in order. -/
theorem spill_emit (hcap : 0 < cap) (t : Tape α) (ps : List (Piece α)) (h : t.cur.length ≤ cap)
    (hp : ∀ p ∈ ps, p.Fits cap) : Spill t (payload ps) (t.emit cap ps) := by
  induction ps generalizing t with
  | nil => exact Spill.refl t
  | cons p ps ih =>
    rw [payload_cons]
    exact (spill_piece t p h).trans (ih _ (Tape.cur_piece_le hcap t p h (hp p List.mem_cons_self))
      (fun q hq => hp q (List.mem_cons_of_mem p hq)))

/-- A block that does not fit behind nothing does not fit at all, so no frame is left empty for one. -/
theorem left_block (t : Tape α) (xs : List α) (h : xs.length ≤ cap) :
    ∃ rest, (t.block cap xs).done = t.done ++ rest ∧ ∀ f ∈ rest, f.data ≠ [] := by
  unfold Tape.block
  split
  · rename_i hlt
    refine ⟨[⟨t.cur, true⟩], rfl, fun f hf => ?_⟩
    rw [List.mem_singleton.mp hf]
    have hpos : 0 < t.cur.length := by omega
    exact List.ne_nil_of_length_pos hpos
  · exact ⟨[], by simp [Tape.put], fun f hf => by cases hf⟩

/-- No frame that a text leaves is empty. -/
theorem left_text (hcap : 0 < cap) (t : Tape α) (xs : List α) :
    ∃ rest, (t.text cap xs).done = t.done ++ rest ∧ ∀ f ∈ rest, f.data ≠ [] := by
  induction xs generalizing t with
  | nil => exact ⟨[], by simp [Tape.text], fun f hf => by cases hf⟩
  | cons x xs ih =>
    obtain ⟨rest, hrest, hne⟩ := ih (Tape.char cap t x)
    have hchar : ∃ first, (Tape.char cap t x).done = t.done ++ first ∧ ∀ f ∈ first, f.data ≠ [] := by
      unfold Tape.char
      split
      · refine ⟨[⟨t.cur, true⟩], rfl, fun f hf => ?_⟩
        rw [List.mem_singleton.mp hf]
        have hpos : 0 < t.cur.length := by omega
        exact List.ne_nil_of_length_pos hpos
      · exact ⟨[], by simp [Tape.put], fun f hf => by cases hf⟩
    obtain ⟨first, hfirst, hne'⟩ := hchar
    refine ⟨first ++ rest, ?_, List.forall_mem_append.mpr ⟨hne', hne⟩⟩
    rw [← List.append_assoc, ← hfirst]
    exact hrest

/-- No frame is left empty: a frame is left for a piece that does not fit behind what is in it. -/
theorem left_emit (hcap : 0 < cap) (t : Tape α) (ps : List (Piece α)) (hp : ∀ p ∈ ps, p.Fits cap) :
    ∃ rest, (t.emit cap ps).done = t.done ++ rest ∧ ∀ f ∈ rest, f.data ≠ [] := by
  induction ps generalizing t with
  | nil => exact ⟨[], by simp [Tape.emit], fun f hf => by cases hf⟩
  | cons p ps ih =>
    obtain ⟨rest, hrest, hne⟩ := ih (t.piece cap p) (fun q hq => hp q (List.mem_cons_of_mem p hq))
    have hpiece : ∃ first, (t.piece cap p).done = t.done ++ first ∧ ∀ f ∈ first, f.data ≠ [] := by
      cases p with
      | block xs => exact left_block t xs (hp _ List.mem_cons_self)
      | text xs => exact left_text hcap t xs
    obtain ⟨first, hfirst, hne'⟩ := hpiece
    refine ⟨first ++ rest, ?_, List.forall_mem_append.mpr ⟨hne', hne⟩⟩
    rw [← List.append_assoc, ← hfirst]
    exact hrest

/-! ## Amending a frame after the fact -/

/-- Change the symbols of the frame at position `k`, the current one standing behind the frames left. -/
def Tape.amend (k : Nat) (g : List α → List α) (t : Tape α) : Tape α :=
  if k < t.done.length then ⟨t.done.modify k (fun f => ⟨g f.data, f.cont⟩), t.cur⟩ else ⟨t.done, g t.cur⟩

/-- The element at the end of a front is modified. -/
theorem modify_length_append {β : Type} (l : List β) (x : β) (r : List β) (f : β → β) :
    (l ++ x :: r).modify l.length f = l ++ f x :: r := by
  induction l with
  | nil => simp
  | cons y l ih => simp [ih]

/-- Changing the symbols that stood in the current frame before a writing, after that writing, comes to the same as having
had the changed symbols from the start. -/
theorem Spill.amend {t t' : Tape α} {xs : List α} (h : Spill t xs t') (g : List α → List α) (cur' : List α)
    (hg : ∀ ys, g (t.cur ++ ys) = cur' ++ ys) : Spill ⟨t.done, cur'⟩ xs (t'.amend t.done.length g) := by
  cases h with
  | stay fs cur xs =>
    have h1 : Tape.amend fs.length g ⟨fs, cur ++ xs⟩ = ⟨fs, cur' ++ xs⟩ := by
      simp [Tape.amend, ← hg]
    rw [h1]
    exact Spill.stay fs cur' xs
  | turn fs cur xs ys t' hy hs =>
    obtain ⟨rest, hd, hr⟩ := hs.rebase
    have h1 : t'.amend fs.length g = ⟨fs ++ [⟨cur' ++ xs, true⟩] ++ rest, t'.cur⟩ := by
      have hlt : fs.length < t'.done.length := by simp [hd]
      have hm : t'.done.modify fs.length (fun f => ⟨g f.data, f.cont⟩) = fs ++ [⟨cur' ++ xs, true⟩] ++ rest := by
        rw [hd, List.append_assoc, List.append_assoc, ← hg xs]
        exact modify_length_append fs _ rest _
      rw [Tape.amend, if_pos hlt, hm]
    rw [h1]
    exact Spill.turn fs cur' xs ys _ hy (hr _)

/-! ## Items and where they are cut -/

/-- The position `n` of a stream of items lies inside one of them: some of its symbols come before, some after. -/
def Inside (items : List (List α)) (n : Nat) : Prop :=
  ∃ pre it post, items = pre ++ it :: post ∧ pre.flatten.length < n ∧ n < pre.flatten.length + it.length

/-- Frames that carry a run of items, one after the other and nothing else, a frame being marked as continued exactly when
its end lies inside an item. -/
structure Framed (fs : List (Frame α)) (items : List (List α)) : Prop where
  stream_eq : stream fs = items.flatten
  cont_iff : ∀ pre f post, fs = pre ++ f :: post → (f.cont = true ↔ Inside items (stream (pre ++ [f])).length)

/-- A position inside an item lies in front of the end. -/
theorem Inside.lt {items : List (List α)} {n : Nat} (h : Inside items n) : n < items.flatten.length := by
  obtain ⟨pre, it, post, rfl, -, hlt⟩ := h
  simp only [List.flatten_append, List.flatten_cons, List.length_append]
  omega

/-- One more item adds the positions inside it and no others. -/
theorem inside_append (items : List (List α)) (it : List α) (n : Nat) :
    Inside (items ++ [it]) n ↔ Inside items n ∨ (items.flatten.length < n ∧ n < items.flatten.length + it.length) := by
  constructor
  · rintro ⟨pre, x, post, he, hlo, hhi⟩
    rcases List.eq_nil_or_concat post with rfl | ⟨post', y, rfl⟩
    · obtain ⟨rfl, hx⟩ := List.append_inj' he rfl
      cases hx
      exact Or.inr ⟨hlo, hhi⟩
    · have he' : items ++ [it] = (pre ++ x :: post') ++ [y] := by simpa using he
      obtain ⟨rfl, -⟩ := List.append_inj' he' rfl
      exact Or.inl ⟨pre, x, post', rfl, hlo, hhi⟩
  · rintro (⟨pre, x, post, rfl, hlo, hhi⟩ | ⟨hlo, hhi⟩)
    · exact ⟨pre, x, post ++ [it], by simp, hlo, hhi⟩
    · exact ⟨items, it, [], rfl, hlo, hhi⟩

theorem framed_nil : Framed ([] : List (Frame α)) [] :=
  ⟨rfl, fun pre f post h => by simp at h⟩

/-- The positions inside the items of two streams, one behind the other. -/
theorem inside_append_iff (items items' : List (List α)) (n : Nat) :
    Inside (items ++ items') n ↔
      Inside items n ∨ items.flatten.length ≤ n ∧ Inside items' (n - items.flatten.length) := by
  constructor
  · rintro ⟨pre, it, post, he, hlo, hhi⟩
    rcases List.append_eq_append_iff.mp he with ⟨mid, rfl, hitems'⟩ | ⟨mid, rfl, hitems'⟩
    · rw [List.flatten_append, List.length_append] at hlo hhi
      exact Or.inr ⟨by omega, mid, it, post, hitems', by omega, by omega⟩
    · cases mid with
      | nil =>
        rw [List.nil_append] at hitems'
        rw [List.append_nil]
        refine Or.inr ⟨by omega, [], it, post, hitems'.symm, ?_, ?_⟩
        · rw [List.flatten_nil, List.length_nil]
          omega
        · rw [List.flatten_nil, List.length_nil]
          omega
      | cons x mid =>
        obtain ⟨rfl, -⟩ := List.cons.inj hitems'
        exact Or.inl ⟨pre, it, mid, rfl, hlo, hhi⟩
  · rintro (⟨pre, it, post, rfl, hlo, hhi⟩ | ⟨hle, pre, it, post, rfl, hlo, hhi⟩)
    · exact ⟨pre, it, post ++ items', by simp, hlo, hhi⟩
    · refine ⟨items ++ pre, it, post, by simp, ?_, ?_⟩
      · rw [List.flatten_append, List.length_append]
        omega
      · rw [List.flatten_append, List.length_append]
        omega

/-- Two runs of framed items are one, where the first ends with an item. -/
theorem Framed.append {fs gs : List (Frame α)} {items items' : List (List α)} (h : Framed fs items) (h' : Framed gs items') :
    Framed (fs ++ gs) (items ++ items') := by
  refine ⟨by rw [stream_append, h.stream_eq, h'.stream_eq, List.flatten_append], ?_⟩
  intro pre f post he
  rw [inside_append_iff]
  rcases List.append_eq_append_iff.mp he with ⟨mid, rfl, hgs⟩ | ⟨mid, rfl, hgs⟩
  · -- the frame is one of the second run
    have hlen : (stream (fs ++ mid ++ [f])).length = items.flatten.length + (stream (mid ++ [f])).length := by
      rw [List.append_assoc, stream_append, h.stream_eq, List.length_append]
    rw [hlen, Nat.add_sub_cancel_left, h'.cont_iff mid f post hgs]
    refine ⟨fun hin => Or.inr ⟨Nat.le_add_right _ _, hin⟩, fun hin => hin.elim (fun hlt => ?_) And.right⟩
    have hlt := hlt.lt
    omega
  · cases mid with
    | nil =>
      rw [List.nil_append] at hgs
      have hlen : (stream (pre ++ [f])).length = items.flatten.length + (stream ([] ++ [f])).length := by
        rw [stream_append, List.nil_append, List.length_append, ← h.stream_eq, List.append_nil]
      rw [hlen, Nat.add_sub_cancel_left, h'.cont_iff [] f post hgs.symm]
      refine ⟨fun hin => Or.inr ⟨Nat.le_add_right _ _, hin⟩, fun hin => hin.elim (fun hlt => ?_) And.right⟩
      have hlt := hlt.lt
      omega
    | cons x mid =>
      obtain ⟨rfl, -⟩ := List.cons.inj hgs
      rw [h.cont_iff pre f mid rfl]
      refine ⟨Or.inl, fun hin => hin.elim id (fun hlater => ?_)⟩
      -- the end of a frame of the first run is not behind the first run
      obtain ⟨hle, hin⟩ := hlater
      have hpos : 0 < (stream (pre ++ [f])).length - items.flatten.length := by
        obtain ⟨_, _, _, -, hlo, -⟩ := hin
        omega
      have hlen := congrArg List.length h.stream_eq
      simp only [stream_append, stream_cons, stream_nil, List.append_nil, List.length_append] at hlen hpos
      omega

/-- Closing a frame without continuing it changes nothing else: an empty frame may be added behind. -/
theorem Framed.snoc_empty {fs : List (Frame α)} {items : List (List α)} (h : Framed fs items) :
    Framed (fs ++ [⟨[], false⟩]) items := by
  refine ⟨by simp [h.stream_eq], ?_⟩
  intro pre f post he
  rcases List.eq_nil_or_concat post with rfl | ⟨post', y, rfl⟩
  · obtain ⟨rfl, hx⟩ := List.append_inj' he rfl
    cases hx
    simp only [Bool.false_eq_true, false_iff]
    intro hin
    have := hin.lt
    simp [h.stream_eq] at this
  · have he' : fs ++ [⟨[], false⟩] = (pre ++ f :: post') ++ [y] := by simpa using he
    obtain ⟨rfl, -⟩ := List.append_inj' he' rfl
    exact h.cont_iff pre f post' rfl

/-- A frame that holds nothing and is not continued may be taken away. -/
theorem Framed.of_snoc_empty {fs : List (Frame α)} {items : List (List α)} (h : Framed (fs ++ [⟨[], false⟩]) items) :
    Framed fs items := by
  refine ⟨by simpa using h.stream_eq, ?_⟩
  rintro pre f post rfl
  exact h.cont_iff pre f (post ++ [⟨[], false⟩]) (by simp)

/-- Writing an item behind framed items, its head into the current frame, frames one item more, whatever follows the last
written symbol in the last frame counting as part of the item. -/
theorem Framed.spill {fs : List (Frame α)} {cur hd xs : List α} {items : List (List α)} {t' : Tape α}
    (h : Framed (fs ++ [⟨cur, false⟩]) items) (pad : List α) (hhd : hd ≠ []) (hs : Spill ⟨fs, cur ++ hd⟩ xs t') :
    Framed (t'.done ++ [⟨t'.cur ++ pad, false⟩]) (items ++ [hd ++ xs ++ pad]) := by
  obtain ⟨rest, hdone, hrest⟩ := hs.bounds
  dsimp only at hdone hrest
  have hall := hs.all_eq
  have hit : items.flatten = stream fs ++ cur := by
    rw [← h.stream_eq]
    simp
  have hpos : 0 < hd.length := List.length_pos_iff.mpr hhd
  refine ⟨?_, ?_⟩
  · have h1 : stream t'.done ++ t'.cur = stream fs ++ (cur ++ hd) ++ xs := hall
    rw [stream_append, stream_cons, stream_nil, List.append_nil, ← List.append_assoc, h1]
    simp [hit]
  · intro pre f post he
    rw [inside_append, hit]
    rw [hdone] at he
    have hlen : t'.all.length = (stream fs).length + cur.length + hd.length + xs.length := by
      rw [hall]
      simp [Tape.all]
      omega
    rcases List.eq_nil_or_concat post with rfl | ⟨post', y, rfl⟩
    · -- the last frame ends with the item
      obtain ⟨rfl, hx⟩ := List.append_inj' he rfl
      cases hx
      have hend : (stream (fs ++ rest ++ [⟨t'.cur ++ pad, false⟩])).length = t'.all.length + pad.length := by
        simp [Tape.all, hdone]
        omega
      simp only [Bool.false_eq_true, false_iff, hend, hlen, not_or]
      refine ⟨fun hin => ?_, ?_⟩
      · have := hin.lt
        rw [hit, List.length_append] at this
        omega
      · simp only [List.length_append]
        omega
    · have he' : fs ++ rest ++ [⟨t'.cur ++ pad, false⟩] = (pre ++ f :: post') ++ [y] := by simpa using he
      obtain ⟨he'', -⟩ := List.append_inj' he' rfl
      rcases List.append_eq_append_iff.mp he'' with ⟨mid, rfl, hr⟩ | ⟨mid, hf, hr⟩
      · -- a frame left while the item was written
        obtain ⟨hc, hlo, hhi⟩ := hrest mid f post' hr
        simp only [Tape.all, List.length_append] at hlo
        refine ⟨fun _ => Or.inr ⟨?_, ?_⟩, fun _ => hc⟩
        · simp only [List.length_append]
          omega
        · simp only [List.length_append]
          omega
      · -- a frame from before, or the one the item began in
        cases mid with
        | nil =>
          simp only [List.append_nil, List.nil_append] at hf hr
          obtain ⟨hc, hlo, hhi⟩ := hrest [] f post' (by simp [← hr])
          subst hf
          simp only [Tape.all, List.length_append, List.append_nil] at hlo hhi
          refine ⟨fun _ => Or.inr ⟨?_, ?_⟩, fun _ => hc⟩
          · simp only [List.length_append]
            omega
          · simp only [List.length_append]
            simp only [Tape.all, List.length_append] at hlen
            omega
        | cons g mid =>
          simp only [List.cons_append, List.cons.injEq] at hr
          obtain ⟨rfl, hr⟩ := hr
          have hold := h.cont_iff pre f (mid ++ [⟨cur, false⟩]) (by simp [hf])
          rw [hold]
          refine ⟨Or.inl, ?_⟩
          rintro (hin | ⟨hlo, -⟩)
          · exact hin
          · exfalso
            rw [hf] at hlo
            simp only [stream_append, stream_cons, stream_nil, List.length_append, List.length_nil] at hlo
            omega

/-! ## Frames of several sources -/

/-- Frames and items of several sources, each with its source: whatever sources are selected, the frames of these carry the items of
these. -/
def Woven {S : Type} (fs : List (S × Frame α)) (items : List (S × List α)) : Prop :=
  ∀ sel : S → Bool, Framed ((fs.filter (sel ·.1)).map Prod.snd) ((items.filter (sel ·.1)).map Prod.snd)

namespace Woven

variable {S : Type} {fs gs : List (S × Frame α)} {items items' : List (S × List α)}

theorem nil : Woven ([] : List (S × Frame α)) [] := fun _ => framed_nil

/-- Two weavings, one behind the other. -/
theorem append (h : Woven fs items) (h' : Woven gs items') : Woven (fs ++ gs) (items ++ items') := by
  intro sel
  rw [List.filter_append, List.map_append, List.filter_append, List.map_append]
  exact (h sel).append (h' sel)

/-- The frames of one source. -/
theorem one {fs : List (Frame α)} {items : List (List α)} (h : Framed fs items) (w : S) :
    Woven (fs.map (Prod.mk w)) (items.map (Prod.mk w)) := by
  intro sel
  have hsnd : ∀ {β : Type} (l : List β), (l.map (Prod.mk w)).map Prod.snd = l := by
    intro β l
    rw [List.map_map]
    exact List.map_id l
  cases hsel : sel w with
  | true =>
    rw [List.filter_eq_self.mpr (by simp [hsel]), List.filter_eq_self.mpr (by simp [hsel]), hsnd, hsnd]
    exact h
  | false =>
    rw [List.filter_eq_nil_iff.mpr (by simp [hsel]), List.filter_eq_nil_iff.mpr (by simp [hsel])]
    exact framed_nil

/-- A source without frames has no items, none of them being empty. -/
theorem no_items (h : Woven fs items) (hne : ∀ x ∈ items, x.2 ≠ []) {w : S} (hw : ∀ f ∈ fs, f.1 ≠ w) :
    ∀ x ∈ items, x.1 ≠ w := by
  classical
  intro x hx heq
  have hframed := h (fun v => decide (v = w))
  rw [List.filter_eq_nil_iff.mpr (fun f hf => by simpa using hw f hf)] at hframed
  have hmem : x.2 ∈ (items.filter fun x => decide (x.1 = w)).map Prod.snd :=
    List.mem_map_of_mem (List.mem_filter.mpr ⟨hx, by simpa using heq⟩)
  exact hne x hx (List.flatten_eq_nil_iff.mp hframed.stream_eq.symm x.2 hmem)

end Woven

/-! ## Lengths alone -/

/-- Where a writing stands: the length of the current frame, the symbols of capacity left unused in the frames left, and the
number of frames left. -/
structure Layout where
  pos : Nat
  skipped : Nat
  turns : Nat
  deriving DecidableEq, Repr

namespace Layout

variable (cap : Nat)

/-- Write a block of `n` symbols. -/
def block (l : Layout) (n : Nat) : Layout :=
  if cap < l.pos + n then ⟨n, l.skipped + (cap - l.pos), l.turns + 1⟩ else ⟨l.pos + n, l.skipped, l.turns⟩

/-- Write one symbol of a text. -/
def char (l : Layout) : Layout :=
  if cap ≤ l.pos then ⟨1, l.skipped, l.turns + 1⟩ else ⟨l.pos + 1, l.skipped, l.turns⟩

/-- Write a text of `n` symbols. -/
def text (l : Layout) : Nat → Layout
  | 0 => l
  | n + 1 => text (l.char cap) n

/-- Write a piece. -/
def piece (l : Layout) : Piece α → Layout
  | .block xs => l.block cap xs.length
  | .text xs => l.text cap xs.length

/-- Write pieces one after the other. -/
def emit (l : Layout) (ps : List (Piece α)) : Layout := ps.foldl (piece cap) l

end Layout

/-- Pieces written in two parts are written whole. -/
theorem Tape.emit_append (t : Tape α) (ps qs : List (Piece α)) : t.emit cap (ps ++ qs) = (t.emit cap ps).emit cap qs :=
  List.foldl_append

theorem Layout.emit_append (l : Layout) (ps qs : List (Piece α)) : l.emit cap (ps ++ qs) = (l.emit cap ps).emit cap qs :=
  List.foldl_append

/-- A layout describes a tape that has left `k` frames when it counts what the tape holds. -/
def Layout.Of (k : Nat) (l : Layout) (t : Tape α) : Prop :=
  t.cur.length = l.pos ∧ t.done.length = k + l.turns

/-- A block is laid out as it is written. -/
theorem Layout.Of.block {k : Nat} {l : Layout} {t : Tape α} (h : l.Of k t) (xs : List α) :
    (l.block cap xs.length).Of k (t.block cap xs) := by
  obtain ⟨hp, hd⟩ := h
  unfold Layout.block Tape.block
  rw [hp]
  split
  · exact ⟨by simp [Tape.rotate, Tape.put], by simp [Tape.rotate, Tape.put, hd]; omega⟩
  · exact ⟨by simp [Tape.put, hp], hd⟩

theorem Layout.Of.text {k : Nat} {l : Layout} {t : Tape α} (h : l.Of k t) (xs : List α) :
    (l.text cap xs.length).Of k (t.text cap xs) := by
  induction xs generalizing l t with
  | nil => exact h
  | cons x xs ih =>
    apply ih
    obtain ⟨hp, hd⟩ := h
    unfold Layout.char Tape.char
    rw [hp]
    split
    · exact ⟨by simp [Tape.rotate, Tape.put], by simp [Tape.rotate, Tape.put, hd]; omega⟩
    · exact ⟨by simp [Tape.put, hp], hd⟩

theorem Layout.Of.piece {k : Nat} {l : Layout} {t : Tape α} (h : l.Of k t) (p : Piece α) :
    (l.piece cap p).Of k (t.piece cap p) := by
  cases p with
  | block xs => exact h.block xs
  | text xs => exact h.text xs

/-- The layout of pieces describes the tape they are written to. -/
theorem Layout.Of.emit {k : Nat} {l : Layout} {t : Tape α} (h : l.Of k t) (ps : List (Piece α)) :
    (l.emit cap ps).Of k (t.emit cap ps) := by
  induction ps generalizing l t with
  | nil => exact h
  | cons p ps ih => exact ih (h.piece p)

/-- No capacity is lost but what was skipped: every frame left was filled with symbols and skipped ones. -/
structure Layout.Balanced (cap n : Nat) (l l' : Layout) : Prop where
  pos_le : l'.pos ≤ cap
  turns_le : l.turns ≤ l'.turns
  balance : l'.pos + cap * l'.turns + l.skipped = l.pos + cap * l.turns + n + l'.skipped

/-- Balances add up. -/
theorem Layout.Balanced.trans {n m : Nat} {l l' l'' : Layout} (h : Layout.Balanced cap n l l')
    (h' : Layout.Balanced cap m l' l'') : Layout.Balanced cap (n + m) l l'' := by
  obtain ⟨-, ht, hb⟩ := h
  obtain ⟨hp', ht', hb'⟩ := h'
  exact ⟨hp', by omega, by omega⟩

/-- The balance of a block. -/
theorem Layout.balanced_block (l : Layout) (n : Nat) (hl : l.pos ≤ cap) (hn : n ≤ cap) :
    Layout.Balanced cap n l (l.block cap n) := by
  unfold Layout.block
  split
  · exact ⟨hn, by simp, by simp [Nat.mul_add]; omega⟩
  · exact ⟨by simp; omega, Nat.le_refl _, by simp; omega⟩

/-- The balance of a text. -/
theorem Layout.balanced_text (hcap : 0 < cap) (l : Layout) (n : Nat) (hl : l.pos ≤ cap) :
    Layout.Balanced cap n l (l.text cap n) := by
  induction n generalizing l with
  | zero => exact ⟨hl, Nat.le_refl _, by simp [Layout.text]⟩
  | succ n ih =>
    have hc : Layout.Balanced cap 1 l (l.char cap) := by
      unfold Layout.char
      split
      · exact ⟨hcap, by simp, by simp [Nat.mul_add]; omega⟩
      · exact ⟨by simp; omega, Nat.le_refl _, by simp; omega⟩
    rw [Layout.text, Nat.add_comm n 1]
    exact hc.trans (ih _ hc.pos_le)

/-- A text laid out in two parts is laid out whole. -/
theorem Layout.text_add (l : Layout) (n m : Nat) : l.text cap (n + m) = (l.text cap n).text cap m := by
  induction n generalizing l with
  | zero => rw [Nat.zero_add, Layout.text]
  | succ n ih => rw [Nat.add_right_comm, Layout.text, Layout.text, ih]

/-- A text that fits the current frame does not leave it. -/
theorem Layout.text_of_le (l : Layout) (n : Nat) (h : l.pos + n ≤ cap) : l.text cap n = ⟨l.pos + n, l.skipped, l.turns⟩ := by
  induction n generalizing l with
  | zero => rfl
  | succ n ih =>
    have hc : l.char cap = ⟨l.pos + 1, l.skipped, l.turns⟩ := by rw [Layout.char, if_neg (by omega)]
    rw [Layout.text, hc, ih _ (by dsimp only; omega), Nat.add_right_comm, Nat.add_assoc]

/-- A text leaves no capacity unused. -/
theorem Layout.text_skipped (l : Layout) (n : Nat) : (l.text cap n).skipped = l.skipped := by
  induction n generalizing l with
  | zero => rfl
  | succ n ih =>
    rw [Layout.text, ih, Layout.char]
    split <;> rfl

/-- A text that begins at a full frame leaves it. -/
theorem Layout.turns_lt_text (hcap : 0 < cap) (l : Layout) {n : Nat} (hn : 0 < n) (hfull : cap ≤ l.pos) :
    l.turns < (l.text cap n).turns := by
  obtain ⟨m, rfl⟩ : ∃ m, n = m + 1 := ⟨n - 1, by omega⟩
  have hc : l.char cap = ⟨1, l.skipped, l.turns + 1⟩ := by rw [Layout.char, if_pos hfull]
  have hb := Layout.balanced_text hcap ⟨1, l.skipped, l.turns + 1⟩ m hcap
  rw [Layout.text, hc]
  exact Nat.lt_of_lt_of_le (Nat.lt_succ_self _) hb.turns_le

/-- The balance of pieces that fit their frames. -/
theorem Layout.balanced_emit (hcap : 0 < cap) (l : Layout) (ps : List (Piece α)) (hl : l.pos ≤ cap)
    (hp : ∀ p ∈ ps, p.Fits cap) : Layout.Balanced cap (payload ps).length l (l.emit cap ps) := by
  induction ps generalizing l with
  | nil => exact ⟨hl, Nat.le_refl _, by simp [Layout.emit]⟩
  | cons p ps ih =>
    have h1 : Layout.Balanced cap p.data.length l (l.piece cap p) := by
      cases p with
      | block xs => exact balanced_block l xs.length hl (hp _ List.mem_cons_self)
      | text xs => exact balanced_text hcap l xs.length hl
    rw [payload_cons, List.length_append]
    exact h1.trans (ih _ h1.pos_le (fun q hq => hp q (List.mem_cons_of_mem p hq)))

end Framing
