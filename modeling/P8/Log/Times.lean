import P8.Lib.Spans
import P8.Log.Headers
import P8.Log.Sizes

/-!
# Times: the times in the headers of delivered buffers

A `TimedSys` is a writer with, for each buffer delivered or held, the positions at which the records that have bytes in it begin in
the writer's bytes. They are found by looking: a call of `send` has put bytes into a buffer just where the buffer holds more of them
behind the call than in front of it, and its record begins where the writer's bytes ended. The timestamp of a record is the one in
the header that lies at its position (`timestampAt`). Over a clock that does not go back the buffers are a log of spans in order,
each marked with the timestamps of its records.
-/

namespace P8

open Bytes Framing Spans

/-- The number of bytes a buffer holds behind its header. -/
def DataBuf.content (b : DataBuf) : Nat := b.frame.data.length

/-- The marks of each buffer behind a call with the mark `t`, by what the buffers held before. -/
def restamp {α : Type} (t : α) : List DataBuf → List (List α) → List DataBuf → List (List α)
  | _, _, [] => []
  | [], _, b :: bs => (if 0 < b.content then [t] else []) :: restamp t [] [] bs
  | x :: xs, ss, b :: bs =>
    (if x.content < b.content then ss.headD [] ++ [t] else ss.headD []) :: restamp t xs ss.tail bs

/-- The timestamp of the record that begins at a position of a writer's bytes. -/
def timestampAt (bs : List UInt8) (pos : Nat) : UInt64 := (LogItemDat.decode (bs.drop pos)).timestamp

/-- The timestamps of the records that begin at these positions of the bytes on these buffers. -/
def timestamps (bufs : List DataBuf) (begins : List (List Nat)) : List (List UInt64) :=
  begins.map (List.map (timestampAt (stream (bufs.map DataBuf.frame))))

/-- The clock readings of a step, in order. One that the call does not make may be taken to be any time between the others. -/
def Op.readings : Op → List UInt64
  | .send env _ => [env.bufTicks, env.itemTicks]
  | _ => []

/-- A writer, and the positions at which the records with bytes in each of its buffers begin. -/
structure TimedSys where
  sys : LogSys
  begins : List (List Nat)

namespace TimedSys

/-- A writer right after its construction. -/
def init (attached : Bool) (threadId : UInt32) : TimedSys := ⟨LogSys.init attached threadId, []⟩

/-- One step of a run. -/
def step (hash : CStr → UInt32 → UInt64) (s : TimedSys) (op : Op) : Except Fault TimedSys :=
  match s.sys.step hash op with
  | .ok sys => .ok ⟨sys, restamp (stream s.sys.frames).length s.sys.bufs s.begins sys.bufs⟩
  | .error f => .error f

/-- The timestamps of the records with bytes in each buffer. -/
def stamps (s : TimedSys) : List (List UInt64) := timestamps s.sys.bufs s.begins

/-- A run; it ends at the first write outside a buffer. -/
def run (hash : CStr → UInt32 → UInt64) (s : TimedSys) (ops : List Op) : Except Fault TimedSys := Runs.run (step hash) s ops

/-- The positions change nothing: a run is a run of the writer. -/
theorem run_sys (hash : CStr → UInt32 → UInt64) (ops : List Op) (s : TimedSys) :
    (s.run hash ops).map TimedSys.sys = s.sys.run hash ops := by
  induction ops generalizing s with
  | nil => rfl
  | cons op ops ih =>
    rw [run, LogSys.run, Runs.run, Runs.run, step]
    cases s.sys.step hash op with
    | error f => rfl
    | ok sys => exact ih _

/-- A run that ends, ends for the writer as well. -/
theorem run_ok {hash : CStr → UInt32 → UInt64} {ops : List Op} {s s' : TimedSys} (hr : s.run hash ops = .ok s') :
    s.sys.run hash ops = .ok s'.sys := by
  rw [← run_sys, hr]
  rfl

end TimedSys

/-! ## What is said of buffers and their records -/

/-- The span of a buffer. -/
def DataBuf.span (p : DataBuf × List UInt64) : Span UInt64 := ⟨p.1.hdr.startTime, p.1.hdr.stopTime, p.2⟩

/-- Buffers with the timestamps of their records: one that holds bytes has a record, its times bound the timestamps of its
records, and from one such buffer to a later one neither time goes back. -/
structure TimesBound (ps : List (DataBuf × List UInt64)) : Prop where
  marked : ∀ p ∈ ps, p.1.content ≠ 0 → p.2 ≠ []
  le : ∀ p ∈ ps, p.2 ≠ [] → p.1.hdr.startTime ≤ p.1.hdr.stopTime
  bounds : ∀ p ∈ ps, ∀ t ∈ p.2, p.1.hdr.startTime ≤ t ∧ t ≤ p.1.hdr.stopTime
  monotone : ps.Pairwise (fun p q => p.2 ≠ [] → q.2 ≠ [] →
    p.1.hdr.startTime ≤ q.1.hdr.startTime ∧ p.1.hdr.stopTime ≤ q.1.hdr.stopTime)

/-- Buffers that form a log of spans in order have their times bound. -/
theorem TimesBound.of_upto {now : UInt64} {ps : List (DataBuf × List UInt64)} (h : Upto now (ps.map DataBuf.span))
    (hm : ∀ p ∈ ps, p.1.content ≠ 0 → p.2 ≠ []) : TimesBound ps where
  marked := hm
  le := fun _ hp hne => (h.covers _ (List.mem_map_of_mem hp)).le hne
  bounds := fun _ hp t ht => (h.covers _ (List.mem_map_of_mem hp)).marks t ht
  monotone := List.pairwise_map.mp h.monotone

/-- The buffers in front are bounded as well. -/
theorem TimesBound.front {ps qs : List (DataBuf × List UInt64)} (h : TimesBound (ps ++ qs)) : TimesBound ps where
  marked := fun p hp => h.marked p (List.mem_append_left _ hp)
  le := fun p hp => h.le p (List.mem_append_left _ hp)
  bounds := fun p hp => h.bounds p (List.mem_append_left _ hp)
  monotone := (List.pairwise_append.mp h.monotone).1

/-! ## Marks behind a step -/

section

variable {α : Type}

/-- Buffers that stay as they are at the front keep their marks, whatever becomes of those behind. -/
theorem restamp_front (t : α) (front old new : List DataBuf) {ss : List (List α)} (ss' : List (List α))
    (h : front.length = ss.length) :
    restamp t (front ++ old) (ss ++ ss') (front ++ new) = ss ++ restamp t old ss' new := by
  induction front generalizing ss with
  | nil =>
    rw [List.eq_nil_of_length_eq_zero h.symm]
    rfl
  | cons b front ih =>
    cases ss with
    | nil => cases h
    | cons s ss =>
      rw [List.cons_append, List.cons_append, List.cons_append, restamp, if_neg (Nat.lt_irrefl _)]
      rw [List.tail_cons, ih (Nat.succ.inj h)]
      rfl

/-- Buffers that stay as they are keep their marks. -/
theorem restamp_same (t : α) (bufs : List DataBuf) {ss : List (List α)} (h : bufs.length = ss.length) :
    restamp t bufs ss bufs = ss := by
  have hf := restamp_front t bufs [] [] [] h
  simp only [List.append_nil] at hf
  rw [hf, restamp, List.append_nil]

/-- A buffer without bytes, put behind the others before a call, changes nothing of what is found behind it. -/
theorem restamp_fresh (t : α) (bufs new : List DataBuf) {b : DataBuf} (hb : b.content = 0) {ss : List (List α)}
    (h : bufs.length = ss.length) : restamp t (bufs ++ [b]) (ss ++ [[]]) new = restamp t bufs ss new := by
  induction bufs generalizing ss new with
  | nil =>
    rw [List.eq_nil_of_length_eq_zero h.symm]
    cases new with
    | nil => rfl
    | cons x new => simp [restamp, hb]
  | cons y bufs ih =>
    cases ss with
    | nil => cases h
    | cons s ss =>
      cases new with
      | nil => rfl
      | cons x new =>
        rw [List.cons_append, List.cons_append, restamp, restamp, List.tail_cons, List.tail_cons,
          ih new (Nat.succ.inj h)]
        rfl

/-- Buffers given back from the end take their marks with them. -/
theorem restamp_drop (t : α) (front old : List DataBuf) {ss : List (List α)} (ss' : List (List α))
    (h : front.length = ss.length) : restamp t (front ++ old) (ss ++ ss') front = ss := by
  have hf := restamp_front t front old [] ss' h
  rw [List.append_nil, restamp, List.append_nil] at hf
  exact hf

/-- Marks may be renamed before or after a call. -/
theorem map_restamp {β : Type} (f : α → β) (t : α) (old new : List DataBuf) (ss : List (List α)) :
    (restamp t old ss new).map (List.map f) = restamp (f t) old (ss.map (List.map f)) new := by
  induction new generalizing old ss with
  | nil => simp [restamp]
  | cons b new ih =>
    cases old with
    | nil =>
      simp only [restamp, List.map_cons, ih, List.map_nil]
      split <;> rfl
    | cons x old =>
      cases ss with
      | nil =>
        simp only [restamp, List.map_cons, ih, List.map_nil, List.headD_nil, List.tail_nil]
        split <;> rfl
      | cons s ss =>
        simp only [restamp, List.map_cons, ih, List.headD_cons, List.tail_cons]
        split <;> simp

/-- There is one list of marks for each buffer. -/
theorem length_restamp (t : α) (old new : List DataBuf) (ss : List (List α)) :
    (restamp t old ss new).length = new.length := by
  induction new generalizing old ss with
  | nil => simp [restamp]
  | cons b new ih =>
    cases old with
    | nil => simp [restamp, ih]
    | cons x old => simp [restamp, ih]

/-- The marks of fresh buffers. -/
theorem mem_restamp_nil {t : α} {new : List DataBuf} {p : DataBuf × List α}
    (h : p ∈ new.zip (restamp t [] [] new)) : p.1 ∈ new ∧ (p.1.content ≠ 0 → p.2 ≠ []) ∧ ∀ x ∈ p.2, x = t := by
  induction new with
  | nil => cases h
  | cons b new ih =>
    rw [restamp, List.zip_cons_cons] at h
    rcases List.mem_cons.mp h with rfl | h
    · refine ⟨List.mem_cons_self, ?_, ?_⟩
      · intro hc
        simp [Nat.pos_of_ne_zero hc]
      · intro x hx
        dsimp only at hx
        split at hx
        · exact List.mem_singleton.mp hx
        · cases hx
    · obtain ⟨hmem, hrest⟩ := ih h
      exact ⟨List.mem_cons_of_mem b hmem, hrest⟩

end

/-! ## The invariant -/

/-- A writer's buffers and their timestamps at the time `now`: each buffer with bytes has a record, and the buffers form a log
of spans in order. -/
structure Dating (now : UInt64) (bufs : List DataBuf) (ss : List (List UInt64)) : Prop where
  length_eq : bufs.length = ss.length
  marked : ∀ p ∈ bufs.zip ss, p.1.content ≠ 0 → p.2 ≠ []
  upto : Upto now ((bufs.zip ss).map DataBuf.span)

theorem dating_nil (now : UInt64) : Dating now [] [] :=
  ⟨rfl, by simp, upto_nil now⟩

/-- Time goes by. -/
theorem Dating.wait {now t : UInt64} {bufs : List DataBuf} {ss : List (List UInt64)} (h : Dating now bufs ss)
    (ht : now ≤ t) : Dating t bufs ss :=
  ⟨h.length_eq, h.marked, h.upto.wait ht⟩

/-- A fresh buffer behind the others. -/
theorem Dating.fresh {now : UInt64} {bufs : List DataBuf} {ss : List (List UInt64)} (h : Dating now bufs ss) {b : DataBuf}
    (hb : b.content = 0) (hstart : b.hdr.startTime = now) : Dating now (bufs ++ [b]) (ss ++ [[]]) := by
  have hzip : (bufs ++ [b]).zip (ss ++ [[]]) = bufs.zip ss ++ [(b, [])] := List.zip_append h.length_eq
  refine ⟨?_, ?_, ?_⟩
  · rw [List.length_append, List.length_append, h.length_eq]
    rfl
  · rw [hzip]
    intro p hp hc
    rcases List.mem_append.mp hp with hp | hp
    · exact h.marked p hp hc
    · rw [List.mem_singleton.mp hp] at hc
      exact absurd hb hc
  · rw [hzip, List.map_append, List.map_singleton, DataBuf.span, hstart]
    exact h.upto.fresh _

/-- Buffers that stay as they are stay dated. -/
theorem Dating.same {now : UInt64} {bufs : List DataBuf} {ss : List (List UInt64)} (h : Dating now bufs ss) (t : UInt64) :
    Dating now bufs (restamp t bufs ss bufs) := by
  rw [restamp_same t bufs h.length_eq]
  exact h

/-- Buffers given back from the end leave the dating of the others, and their timestamps are forgotten. -/
theorem Dating.drop {now t : UInt64} {front old : List DataBuf} {ss : List (List UInt64)}
    (h : Dating now (front ++ old) ss) : Dating now front (restamp t (front ++ old) ss front) := by
  obtain ⟨ss₁, ss₂, rfl, hlen⟩ : ∃ ss₁ ss₂, ss = ss₁ ++ ss₂ ∧ front.length = ss₁.length := by
    have hlen := h.length_eq
    rw [List.length_append] at hlen
    refine ⟨ss.take front.length, ss.drop front.length, (List.take_append_drop _ _).symm, ?_⟩
    rw [List.length_take]
    omega
  have hzip : (front ++ old).zip (ss₁ ++ ss₂) = front.zip ss₁ ++ old.zip ss₂ := List.zip_append hlen
  rw [restamp_drop t front old ss₂ hlen]
  have hmarked := h.marked
  have hupto := h.upto
  rw [hzip] at hmarked hupto
  rw [List.map_append] at hupto
  exact ⟨hlen, fun p hp => hmarked p (List.mem_append_left _ hp), hupto.front⟩

/-- A record written at the moment `now`: into the last buffer, whose start time stays, and perhaps further ones. -/
theorem Dating.record {now : UInt64} {front : List DataBuf} {b first : DataBuf} {more : List DataBuf}
    {ss : List (List UInt64)} (h : Dating now (front ++ [b]) ss) (hstart : first.hdr.startTime = b.hdr.startTime)
    (hstop : first.hdr.stopTime = now) (hmore : ∀ x ∈ more, x.hdr.startTime = now ∧ x.hdr.stopTime = now) :
    Dating now (front ++ first :: more) (restamp now (front ++ [b]) ss (front ++ first :: more)) := by
  obtain ⟨ss₁, s, rfl, hlen⟩ : ∃ ss₁ s, ss = ss₁ ++ [s] ∧ front.length = ss₁.length := by
    have hlen := h.length_eq
    rw [List.length_append, List.length_singleton] at hlen
    refine ⟨ss.dropLast, ss.getLast (by rintro rfl; cases hlen), (List.dropLast_append_getLast _).symm, ?_⟩
    rw [List.length_dropLast]
    omega
  have hzip : (front ++ [b]).zip (ss₁ ++ [s]) = front.zip ss₁ ++ [(b, s)] := List.zip_append hlen
  have hmarked := h.marked
  have hupto := h.upto
  rw [hzip] at hmarked hupto
  rw [List.map_append, List.map_singleton] at hupto
  rw [restamp_front now front [b] (first :: more) [s] hlen, restamp, List.headD_cons, List.tail_cons]
  generalize hs' : (if b.content < first.content then s ++ [now] else s) = s'
  have hzip' : (front ++ first :: more).zip (ss₁ ++ s' :: restamp now [] [] more) =
      front.zip ss₁ ++ [(first, s')] ++ more.zip (restamp now [] [] more) := by
    rw [List.zip_append hlen, List.zip_cons_cons, List.append_assoc]
    rfl
  refine ⟨?_, ?_, ?_⟩
  · simp [hlen, length_restamp]
  · rw [hzip']
    intro p hp hc
    rcases List.mem_append.mp hp with hp | hp
    · rcases List.mem_append.mp hp with hp | hp
      · exact hmarked p (List.mem_append_left _ hp) hc
      · rw [List.mem_singleton.mp hp] at hc ⊢
        rw [← hs']
        split
        · simp
        · rename_i hle
          refine hmarked (b, s) (by simp) ?_
          dsimp only at hc ⊢
          omega
    · exact (mem_restamp_nil hp).2.1 hc
  · rw [hzip', List.map_append, List.map_append, List.map_singleton]
    have hfirst : DataBuf.span (first, s') = ⟨(DataBuf.span (b, s)).start, now, s'⟩ := by
      simp [DataBuf.span, hstart, hstop]
    rw [hfirst]
    refine (hupto.mark ?_).more ?_
    · intro t ht
      rw [← hs'] at ht
      split at ht
      · rcases List.mem_append.mp ht with ht | ht
        · exact Or.inl ht
        · exact Or.inr (List.mem_singleton.mp ht)
      · exact Or.inl ht
    · intro x hx
      obtain ⟨p, hp, rfl⟩ := List.mem_map.mp hx
      obtain ⟨hmem, -, hstamps⟩ := mem_restamp_nil hp
      exact ⟨(hmore p.1 hmem).1, (hmore p.1 hmem).2, hstamps⟩

/-! ## The positions of the records -/

/-- A timestamp stays where it is while its header does. -/
theorem timestampAt_front {bs bs' : List UInt8} (h : bs <+: bs') {pos : Nat} (hpos : pos + sizeofLogItemDat ≤ bs.length) :
    timestampAt bs' pos = timestampAt bs pos := by
  obtain ⟨more, rfl⟩ := h
  have hsize : sizeofLogItemDat = 40 := rfl
  simp only [timestampAt, LogItemDat.decode, LogItemDat.field]
  rw [List.drop_append_of_le_length (by omega), List.drop_append_of_le_length (by rw [List.length_drop]; omega),
    List.take_append_of_le_length (by rw [List.length_drop, List.length_drop]; omega)]

/-- A record that begins at the end of some bytes has the timestamp of its header. -/
theorem timestampAt_end (bs rest : List UInt8) (h : LogItemDat) : timestampAt (bs ++ (h.encode ++ rest)) bs.length = h.timestamp := by
  rw [timestampAt, List.drop_left, LogItemDat.decode_encode]

/-- The header of a record lies in front of the end of each buffer with bytes of the record. -/
def Within (bufs : List DataBuf) (begins : List (List Nat)) : Prop :=
  ∀ i ps, begins[i]? = some ps → ∀ pos ∈ ps,
    pos + sizeofLogItemDat ≤ (stream ((bufs.take (i + 1)).map DataBuf.frame)).length

section

variable {bufs front old more : List DataBuf} {begins bs bs' : List (List Nat)} {b first : DataBuf} {pos : Nat}

/-- The bytes of buffers grow with their number. -/
theorem stream_take_le (bufs : List DataBuf) (n : Nat) :
    stream ((bufs.take n).map DataBuf.frame) <+: stream (bufs.map DataBuf.frame) := by
  have hsplit : bufs.map DataBuf.frame = (bufs.take n).map DataBuf.frame ++ (bufs.drop n).map DataBuf.frame := by
    rw [← List.map_append, List.take_append_drop]
  rw [hsplit, stream_append]
  exact List.prefix_append _ _

/-- Timestamps are those in the bytes up to there, whatever comes behind. -/
theorem Within.timestamps_eq {bufs' : List DataBuf} (h : Within bufs begins)
    (hpre : stream (bufs.map DataBuf.frame) <+: stream (bufs'.map DataBuf.frame)) :
    begins.map (List.map (timestampAt (stream (bufs'.map DataBuf.frame)))) = timestamps bufs begins := by
  refine List.map_congr_left fun ps hps => List.map_congr_left fun pos hpos => timestampAt_front hpre ?_
  obtain ⟨i, hi⟩ := List.getElem?_of_mem hps
  exact Nat.le_trans (h i ps hi pos hpos) (stream_take_le bufs (i + 1)).length_le

/-- The buffers in front keep their positions. -/
theorem Within.drop (h : Within (front ++ old) (bs ++ bs')) (hlen : front.length = bs.length) : Within front bs := by
  intro i ps hi pos hpos
  have hlt := (List.getElem?_eq_some_iff.mp hi).1
  have hold := h i ps (by rw [List.getElem?_append_left hlt]; exact hi) pos hpos
  rwa [List.take_append_of_le_length (by omega)] at hold

/-- A fresh buffer has none. -/
theorem Within.fresh (h : Within bufs begins) (hlen : bufs.length = begins.length) (b : DataBuf) :
    Within (bufs ++ [b]) (begins ++ [[]]) := by
  intro i ps hi pos hpos
  rcases Nat.lt_or_ge i begins.length with hlt | hge
  · rw [List.getElem?_append_left hlt] at hi
    rw [List.take_append_of_le_length (by omega)]
    exact h i ps hi pos hpos
  · rw [List.getElem?_append_right hge] at hi
    rw [List.mem_singleton.mp (List.mem_of_getElem? hi)] at hpos
    cases hpos

/-- A record is put into the last buffer, its header there, and perhaps into further ones. -/
theorem Within.record (h : Within (front ++ [b]) begins) (hlen : (front ++ [b]).length = begins.length)
    (hgrown : b.content + sizeofLogItemDat ≤ first.content) :
    Within (front ++ first :: more) (restamp (stream ((front ++ [b]).map DataBuf.frame)).length (front ++ [b]) begins
      (front ++ first :: more)) := by
  obtain ⟨bs, ps, rfl⟩ : ∃ bs ps, begins = bs ++ [ps] :=
    ⟨begins.dropLast, begins.getLast (by rintro rfl; simp at hlen), (List.dropLast_append_getLast _).symm⟩
  have hlen' : front.length = bs.length := by simpa using hlen
  rw [restamp_front _ front [b] (first :: more) [ps] hlen', restamp, List.headD_cons, List.tail_cons]
  have hlast : ∀ x : DataBuf, (stream ((front ++ [x]).map DataBuf.frame)).length =
      (stream (front.map DataBuf.frame)).length + x.content := by
    intro x
    simp [DataBuf.content]
  -- the header of the new record is in the first buffer it is put into
  have hnew : ∀ n, front.length < n → (stream ((front ++ [b]).map DataBuf.frame)).length + sizeofLogItemDat ≤
      (stream (((front ++ first :: more).take n).map DataBuf.frame)).length := by
    intro n hn
    have hpre := (stream_take_le ((front ++ first :: more).take n) (front.length + 1)).length_le
    have htake : ((front ++ first :: more).take n).take (front.length + 1) = front ++ [first] := by
      rw [List.take_take, Nat.min_eq_left hn, List.take_append, List.take_of_length_le (Nat.le_succ _)]
      simp
    rw [htake, hlast] at hpre
    rw [hlast]
    omega
  intro i qs hi pos hpos
  rcases Nat.lt_trichotomy i bs.length with hlt | heq | hgt
  · rw [List.getElem?_append_left hlt] at hi
    have hold := h i qs (by rw [List.getElem?_append_left hlt]; exact hi) pos hpos
    rw [List.take_append_of_le_length (by omega)] at hold ⊢
    exact hold
  · subst heq
    rw [List.getElem?_append_right (Nat.le_refl _), Nat.sub_self, List.getElem?_cons_zero] at hi
    cases hi
    have hold : ∀ pos ∈ ps, pos + sizeofLogItemDat ≤ (stream ((front ++ [b]).map DataBuf.frame)).length := by
      intro pos hpos
      have hold := h bs.length ps (by simp) pos hpos
      rwa [← hlen', List.take_of_length_le (by simp)] at hold
    have hall := hnew (bs.length + 1) (by omega)
    split at hpos
    · rcases List.mem_append.mp hpos with hpos | hpos
      · have hpos := hold pos hpos
        omega
      · rw [List.mem_singleton.mp hpos]
        exact hall
    · have hpos := hold pos hpos
      omega
  · rw [List.getElem?_append_right (Nat.le_of_lt hgt)] at hi
    obtain ⟨j, hj⟩ : ∃ j, i - bs.length = j + 1 := ⟨i - bs.length - 1, by omega⟩
    rw [hj, List.getElem?_cons_succ] at hi
    -- a buffer taken for the record has bytes of no other
    have hlt := (List.getElem?_eq_some_iff.mp hi).1
    rw [length_restamp] at hlt
    have hmem : (more[j], qs) ∈ more.zip (restamp (stream ((front ++ [b]).map DataBuf.frame)).length [] [] more) :=
      List.mem_of_getElem? (List.getElem?_zip_eq_some.mpr ⟨List.getElem?_eq_getElem hlt, hi⟩)
    rw [(mem_restamp_nil hmem).2.2 pos hpos]
    exact hnew (i + 1) (by omega)

end

/-- A writer's buffers at the time `now`, with the positions of the records that have bytes in them: their timestamps are dated. -/
structure Timed (now : UInt64) (bufs : List DataBuf) (begins : List (List Nat)) : Prop where
  within : Within bufs begins
  dating : Dating now bufs (timestamps bufs begins)

namespace Timed

variable {now t : UInt64} {bufs front old : List DataBuf} {begins : List (List Nat)} {b : DataBuf}

theorem nil (now : UInt64) : Timed now [] [] := ⟨fun i ps hi => by simp at hi, dating_nil now⟩

/-- There is one list of positions for each buffer. -/
theorem length_eq (h : Timed now bufs begins) : bufs.length = begins.length := by
  simpa [timestamps] using h.dating.length_eq

/-- Time goes by. -/
theorem wait (h : Timed now bufs begins) (ht : now ≤ t) : Timed t bufs begins := ⟨h.within, h.dating.wait ht⟩

/-- A fresh buffer behind the others. -/
theorem fresh (h : Timed now bufs begins) (hb : b.content = 0) (hstart : b.hdr.startTime = now) :
    Timed now (bufs ++ [b]) (begins ++ [[]]) := by
  refine ⟨h.within.fresh h.length_eq b, ?_⟩
  have hsame : timestamps (bufs ++ [b]) (begins ++ [[]]) = timestamps bufs begins ++ [[]] := by
    have hpre : stream (bufs.map DataBuf.frame) <+: stream ((bufs ++ [b]).map DataBuf.frame) := by
      rw [List.map_append, stream_append]
      exact List.prefix_append _ _
    rw [timestamps, List.map_append, h.within.timestamps_eq hpre]
    rfl
  rw [hsame]
  exact h.dating.fresh hb hstart

/-- Buffers that stay as they are. -/
theorem same (h : Timed now bufs begins) (pos : Nat) : Timed now bufs (restamp pos bufs begins bufs) := by
  rw [restamp_same pos bufs h.length_eq]
  exact h

/-- Buffers given back from the end. -/
theorem drop (h : Timed now (front ++ old) begins) (pos : Nat) : Timed now front (restamp pos (front ++ old) begins front) := by
  obtain ⟨bs, bs', rfl, hlen⟩ : ∃ bs bs', begins = bs ++ bs' ∧ front.length = bs.length := by
    have hlen := h.length_eq
    rw [List.length_append] at hlen
    refine ⟨begins.take front.length, begins.drop front.length, (List.take_append_drop _ _).symm, ?_⟩
    rw [List.length_take]
    omega
  have hwithin := h.within.drop hlen
  have hdating := h.dating.drop (t := now)
  have hpre : stream (front.map DataBuf.frame) <+: stream ((front ++ old).map DataBuf.frame) := by
    rw [List.map_append, stream_append]
    exact List.prefix_append _ _
  rw [timestamps, List.map_append, hwithin.timestamps_eq hpre, restamp_drop now front old _ (by rw [timestamps, List.length_map, hlen])]
    at hdating
  rw [restamp_drop pos front old bs' hlen]
  exact ⟨hwithin, hdating⟩

/-- A record with the header `hdr` is written at the moment `now`, behind the bytes on the buffers. -/
theorem record (h : Timed now (front ++ [b]) begins) {first : DataBuf} {more : List DataBuf} {hdr : LogItemDat}
    {rest : List UInt8} (hstream : stream ((front ++ first :: more).map DataBuf.frame) =
      stream ((front ++ [b]).map DataBuf.frame) ++ (hdr.encode ++ rest)) (hnow : hdr.timestamp = now)
    (hgrown : b.content + sizeofLogItemDat ≤ first.content) (hstart : first.hdr.startTime = b.hdr.startTime)
    (hstop : first.hdr.stopTime = now) (hmore : ∀ x ∈ more, x.hdr.startTime = now ∧ x.hdr.stopTime = now) :
    Timed now (front ++ first :: more) (restamp (stream ((front ++ [b]).map DataBuf.frame)).length (front ++ [b]) begins
      (front ++ first :: more)) := by
  refine ⟨h.within.record h.length_eq hgrown, ?_⟩
  have hold := h.within.timestamps_eq (hstream ▸ List.prefix_append _ _)
  have hnew : timestampAt (stream ((front ++ first :: more).map DataBuf.frame))
      (stream ((front ++ [b]).map DataBuf.frame)).length = now := by
    rw [hstream, timestampAt_end, hnow]
  rw [timestamps, map_restamp, hold, hnew]
  exact h.dating.record hstart hstop hmore

/-- What a call has found to write to: the buffers are dated at the time of its record, and what is found behind the call is the
same, whether a fresh buffer is counted among those from before or not. -/
theorem waits {delivered bufs' : List DataBuf} {env : SendEnv} (h : Timed now (delivered ++ bufs) begins)
    (hw : Waits env bufs bufs') (hbuf : now ≤ env.bufTicks) (hitem : env.bufTicks ≤ env.itemTicks) :
    ∃ begins', Timed env.itemTicks (delivered ++ bufs') begins' ∧
      stream ((delivered ++ bufs').map DataBuf.frame) = stream ((delivered ++ bufs).map DataBuf.frame) ∧
      ∀ (pos : Nat) new, restamp pos (delivered ++ bufs) begins new = restamp pos (delivered ++ bufs') begins' new := by
  rcases hw with rfl | ⟨b, rfl, hstart, hdata⟩
  · exact ⟨begins, h.wait (UInt64.le_trans hbuf hitem), rfl, fun _ _ => rfl⟩
  · have hcontent : b.content = 0 := by rw [DataBuf.content, hdata, List.length_nil]
    refine ⟨begins ++ [[]], ?_, by simp [hdata], fun pos new => ?_⟩
    · rw [← List.append_assoc]
      exact ((h.wait hbuf).fresh hcontent hstart).wait hitem
    · rw [← List.append_assoc]
      exact (restamp_fresh pos _ new hcontent h.length_eq).symm

end Timed

/-! ## Runs -/

/-- The buffers of a record that was written to its end. -/
theorem accepted_times {hash : CStr → UInt32 → UInt64} {core : Core} {l l' : Log} {env : SendEnv} {c : Call} {p : Prepared}
    (hp : l.prepare hash core env c = .ok p) (hb : Begins hash core l c p) (hroom : p.log.Room p.core.attrDescs)
    (ho : l.send hash core env c = .ok ⟨l', p.core, p.delivered, [], .accepted⟩) :
    ∃ first more, l'.bufs = p.log.fragments ++ first :: more ∧ first.hdr.startTime = p.buffer.hdr.startTime ∧
      first.hdr.stopTime = env.itemTicks ∧
      ∀ x ∈ more, x.hdr.startTime = env.itemTicks ∧ x.hdr.stopTime = env.itemTicks := by
  have hspec := writeRecord_spec env c hb.argList hroom hb.unflagged
  rw [Log.send, hp] at ho
  dsimp only at ho
  cases hw : p.log.writeRecord env p.core p.desc c p.buffer with
  | ok r =>
    rw [hw] at ho hspec
    cases ho
    obtain ⟨hdr, hr⟩ := hspec
    exact finish_times hw hr.of
  | error e =>
    rw [hw] at ho
    cases e with
    | fault => cases ho
    | discard r =>
      have houtcome := congrArg Sent.outcome (Except.ok.inj ho)
      cases houtcome

/-- The first buffer of a finished record holds its header behind what it held. -/
theorem Finished.grown {core : Core} {l l' : Log} {env : SendEnv} {d : LogDesc} {c : Call} {b first : DataBuf} {g : LogItemDat}
    {gap : List UInt8} {tp : Tape UInt8} (hf : Finished l env core d c b l' g gap tp) {more : List DataBuf}
    (hbufs : l'.bufs = l.fragments ++ first :: more) : (l.curBytes b).length + sizeofLogItemDat ≤ first.content := by
  obtain ⟨ys, cont, rest, hfirst⟩ := hf.spill.first gap
  rw [← hf.bufs, hbufs, List.map_append, List.map_cons] at hfirst
  have hframe := (List.cons.inj (List.append_cancel_left hfirst)).1
  rw [DataBuf.content, hframe]
  simp only [List.length_append, LogItemDat.length_encode]
  omega

/-- A call of `send` keeps the buffers dated. -/
theorem Timed.send {hash : CStr → UInt32 → UInt64} {now : UInt64} {s : LogSys} {begins : List (List Nat)} (hinv : s.Inv)
    (h : Timed now s.bufs begins) {env : SendEnv} {c : Call} {o : Sent} (ho : s.log.send hash s.core env c = .ok o)
    (hbuf : now ≤ env.bufTicks) (hitem : env.bufTicks ≤ env.itemTicks) :
    Timed env.itemTicks (s.after c o).bufs
      (restamp (stream s.frames).length s.bufs begins (s.after c o).bufs) := by
  have hcases := send_cases hash env c hinv.log hinv.sound
  have hwaits := prepare_waits hash env c hinv.log hinv.sound
  rw [ho] at hcases
  cases hcases with
  | idle o hp hi =>
    rw [hp] at hwaits
    obtain ⟨begins', hd, -, hsame⟩ := h.waits hwaits hbuf hitem
    have hbufs : (s.after c o).bufs = s.delivered ++ (o.delivered ++ o.log.bufs) := List.append_assoc _ _ _
    rw [hbufs, LogSys.bufs, hsame, restamp_same _ _ hd.length_eq]
    exact hd
  | accepted p l' g gap tp hp hb hroom hf =>
    rw [hp] at hwaits
    obtain ⟨first, more, hbufs, hstart, hstop, hmore⟩ := accepted_times hp hb hroom ho
    obtain ⟨begins', hd, hstream, hsame⟩ := h.waits hwaits hbuf hitem
    have hfront : s.delivered ++ (p.delivered ++ p.log.bufs) =
        (s.delivered ++ p.delivered ++ p.log.fragments) ++ [p.buffer] := by
      simp only [hb.bufs_eq, List.append_assoc]
    have hnew : (s.after c ⟨l', p.core, p.delivered, [], .accepted⟩).bufs =
        (s.delivered ++ p.delivered ++ p.log.fragments) ++ first :: more := by
      simp only [LogSys.bufs, LogSys.after, hbufs, List.append_assoc]
    have hbytes := LogSys.stream_accepted hb hf
    have hcur : p.buffer.content = (p.log.curBytes p.buffer).length := by
      rw [DataBuf.content, (hb.inv.cur _ hb.buffer).2.2]
    rw [itemOf, List.append_assoc, List.append_assoc] at hbytes
    rw [LogSys.frames, ← LogSys.bufs, LogSys.frames, ← LogSys.bufs, hnew] at hbytes
    rw [hfront] at hd hstream
    have hs : stream (s.bufs.map DataBuf.frame) =
        stream (((s.delivered ++ p.delivered ++ p.log.fragments) ++ [p.buffer]).map DataBuf.frame) := hstream.symm
    rw [hs] at hbytes
    rw [hnew, LogSys.bufs, hsame, hfront, LogSys.frames, ← LogSys.bufs, hs]
    exact hd.record hbytes rfl (hcur ▸ hf.grown hbufs) hstart hstop hmore
  | abandoned p l' released hp hb hroom hd' =>
    rw [hp] at hwaits
    obtain ⟨begins', hd, -, hsame⟩ := h.waits hwaits hbuf hitem
    have hfront : s.delivered ++ (p.delivered ++ p.log.bufs) =
        (s.delivered ++ p.delivered ++ p.log.fragments) ++ [p.buffer] := by
      simp only [hb.bufs_eq, List.append_assoc]
    have hnew : (s.after c ⟨l', p.core, p.delivered, released, .abandoned⟩).bufs =
        s.delivered ++ p.delivered ++ p.log.fragments := by
      simp [LogSys.bufs, LogSys.after, Log.bufs, hd'.buffer, hd'.fragments]
    rw [hnew, LogSys.bufs, hsame, hfront]
    rw [hfront] at hd
    exact hd.drop _

/-- The pairs of a front come first. -/
theorem zip_front {α β : Type} (xs ys : List α) (zs : List β) : ∃ more, (xs ++ ys).zip zs = xs.zip zs ++ more := by
  induction xs generalizing zs with
  | nil => exact ⟨ys.zip zs, rfl⟩
  | cons x xs ih =>
    cases zs with
    | nil => exact ⟨[], rfl⟩
    | cons z zs =>
      obtain ⟨more, hmore⟩ := ih zs
      exact ⟨more, by rw [List.cons_append, List.zip_cons_cons, hmore, List.zip_cons_cons, List.cons_append]⟩

/-- A clock that does not go back during a run does not during its first step, and not from the end of that on. -/
theorem readings_cons {ι : Type} {readings : ι → List UInt64} {now : UInt64} {op : ι} {ops : List ι}
    (h : (now :: (op :: ops).flatMap readings).Pairwise (· ≤ ·)) :
    (now :: readings op).Pairwise (· ≤ ·) ∧
      ((readings op).getLastD now :: ops.flatMap readings).Pairwise (· ≤ ·) := by
  rw [List.flatMap_cons, ← List.cons_append, List.pairwise_append] at h
  obtain ⟨hfirst, hrest, hbetween⟩ := h
  exact ⟨hfirst, List.pairwise_cons.mpr ⟨hbetween _ List.getLastD_mem_cons, hrest⟩⟩

namespace TimedSys

variable {hash : CStr → UInt32 → UInt64} {s s' : TimedSys} {now : UInt64}

/-- A step is one of the writer, with the positions found behind it. -/
theorem step_eq_ok {op : Op} (hs : s.step hash op = .ok s') :
    ∃ sys, s.sys.step hash op = .ok sys ∧
      s' = ⟨sys, restamp (stream s.sys.frames).length s.sys.bufs s.begins sys.bufs⟩ := by
  rw [step] at hs
  cases hst : s.sys.step hash op with
  | error f =>
    rw [hst] at hs
    cases hs
  | ok sys =>
    rw [hst] at hs
    cases hs
    exact ⟨sys, rfl, rfl⟩

/-- A step keeps the writer's invariant. -/
theorem step_inv {op : Op} (hinv : s.sys.Inv) (hs : s.step hash op = .ok s') : s'.sys.Inv := by
  obtain ⟨sys, hst, rfl⟩ := step_eq_ok hs
  exact hinv.step hst

/-- A step keeps the buffers dated; the time is then its last reading of the clock. -/
theorem step_timed {op : Op} (hinv : s.sys.Inv) (h : Timed now s.sys.bufs s.begins) (hs : s.step hash op = .ok s')
    (hclock : (now :: op.readings).Pairwise (· ≤ ·)) :
    Timed (op.readings.getLastD now) s'.sys.bufs s'.begins := by
  obtain ⟨sys, hst, rfl⟩ := step_eq_ok hs
  cases op with
  | send env c =>
    obtain ⟨o, ho, -, rfl⟩ := hinv.step_send hst
    simp only [Op.readings, List.pairwise_cons, List.mem_cons, List.not_mem_nil, or_false, forall_eq_or_imp,
      forall_eq] at hclock
    exact h.send hinv ho hclock.1.1 hclock.2.1
  | pull =>
    cases hst
    have hbufs := LogSys.bufs_pull s.sys
    rw [hbufs]
    exact h.same _
  | attrRegister alloc name type =>
    cases hst
    exact h.same _
  | resolveLogDesc alloc k file line function format =>
    cases hst
    exact h.same _
  | setVerbosity verbosity =>
    cases hst
    exact h.same _

/-- Along a run whose clock does not go back the buffers stay dated. -/
theorem run_timed {ops : List Op} (hinv : s.sys.Inv) (h : Timed now s.sys.bufs s.begins) (hr : s.run hash ops = .ok s')
    (hclock : (now :: ops.flatMap Op.readings).Pairwise (· ≤ ·)) : ∃ now', Timed now' s'.sys.bufs s'.begins := by
  induction ops generalizing s now with
  | nil =>
    cases hr
    exact ⟨now, h⟩
  | cons op ops ih =>
    obtain ⟨s₁, hs, hr⟩ := Runs.run_cons hr
    obtain ⟨hfirst, hrest⟩ := readings_cons hclock
    exact ih (step_inv hinv hs) (step_timed hinv h hs hfirst) hr hrest

/-- The times in the headers of a writer's delivered buffers bound the timestamps in the headers of their records. -/
theorem run_times {attached : Bool} {threadId : UInt32} {ops : List Op}
    (hr : (init attached threadId).run hash ops = .ok s) (hclock : (ops.flatMap Op.readings).Pairwise (· ≤ ·)) :
    s.stamps.length = s.sys.bufs.length ∧ TimesBound (s.sys.delivered.zip s.stamps) := by
  have hstart : (0 :: ops.flatMap Op.readings).Pairwise (· ≤ ·) :=
    List.pairwise_cons.mpr ⟨fun t _ => UInt64.zero_le, hclock⟩
  obtain ⟨now, h⟩ := run_timed (LogSys.inv_init attached threadId) (Timed.nil 0) hr hstart
  refine ⟨h.dating.length_eq.symm, ?_⟩
  have hbound := TimesBound.of_upto h.dating.upto h.dating.marked
  obtain ⟨more, hmore⟩ := zip_front s.sys.delivered s.sys.log.bufs s.stamps
  rw [← stamps, LogSys.bufs, hmore] at hbound
  exact hbound.front

end TimedSys

end P8
