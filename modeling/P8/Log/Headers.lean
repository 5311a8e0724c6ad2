import P8.Log.Step

/-!
# Headers: what writing does to the headers of buffers

A write of a record stores bytes and moves the cursor; the header of a buffer changes only when the writer leaves it for
another. `Steady` is said of a property of records that both keep, and every write keeps such a property (`putBody_keeps`). The
one used is `Dated`: which times the headers of a record's buffers carry.
-/

namespace P8

open Bytes Framing

/-- The same buffer headers, and what else no store changes. -/
structure Rec.SameHdrs (r r' : Rec) : Prop where
  fragments : r'.fragments.map (·.hdr) = r.fragments.map (·.hdr)
  buffer : r'.buffer.hdr = r.buffer.hdr
  fragCommit : r'.fragCommit = r.fragCommit
  timestamp : r'.timestamp = r.timestamp
  threadId : r'.threadId = r.threadId

/-- A property that neither a store nor a rotation ends. -/
structure Steady (P : Rec → Prop) : Prop where
  touch : ∀ r {r'}, r.SameHdrs r' → P r → P r'
  turn : ∀ {acquire r r'}, r.rotateFragmentBuffer acquire = .ok r' → P r → P r'

/-- The record a write ends with, if it does not stop, has the property. -/
def Keeps (P : Rec → Prop) (x : Except Stop Rec) : Prop := ∀ r, x = .ok r → P r

/-- A state that has the property keeps it. -/
theorem Keeps.ok {P : Rec → Prop} {r : Rec} (h : P r) : Keeps P (.ok r) := by
  intro r' hr
  cases hr
  exact h

/-- An error keeps everything. -/
theorem Keeps.error {P : Rec → Prop} (e : Stop) : Keeps P (.error e) := by
  intro r' hr
  cases hr

/-- What two steps keep one after the other. -/
theorem Keeps.bind {P : Rec → Prop} {x : Except Stop Rec} {f : Rec → Except Stop Rec} (hx : Keeps P x)
    (hf : ∀ r, P r → Keeps P (f r)) : Keeps P (x >>= f) := by
  intro r' hr
  cases x with
  | error e => cases hr
  | ok r => exact hf r (hx r rfl) r' hr

section

variable {P : Rec → Prop} (hP : Steady P) {acquire : Nat → Option DataBuf} {r : Rec} (h : P r)
include hP h

/-- A rotation keeps what is steady. -/
theorem rotate_keeps : Keeps P (r.rotate acquire) := by
  have hdst : P { r with bufUsed := r.dst } := hP.touch r ⟨rfl, rfl, rfl, rfl, rfl⟩ h
  exact Keeps.bind (fun r' hr => hP.turn hr hdst) (fun r' h' => Keeps.ok (hP.touch r' ⟨rfl, rfl, rfl, rfl, rfl⟩ h'))

/-- A store keeps it. -/
theorem store_keeps (bs : List UInt8) : Keeps P (r.store bs) := by
  unfold Rec.store
  split
  · exact Keeps.ok (hP.touch r ⟨rfl, rfl, rfl, rfl, rfl⟩ h)
  · exact Keeps.error _

theorem advance_keeps (t : Tally) (n : Nat) : P (r.advance t n) := by
  cases t <;> exact hP.touch r ⟨rfl, rfl, rfl, rfl, rfl⟩ h

theorem modifyHdr_keeps (f : LogItemDat → LogItemDat) : P (r.modifyHdr f) := by
  obtain ⟨frs, b, he, -, -, hhdrs, hb⟩ := modifyHdr_eq r f
  rw [he]
  exact hP.touch r ⟨hhdrs, hb, rfl, rfl, rfl⟩ h

/-- A block keeps it. -/
theorem putBlock_keeps (t : Tally) (size : Nat) (bs : List UInt8) : Keeps P (r.putBlock acquire t size bs) := by
  have hspace : Keeps P (r.ensureSpace acquire size) := by
    unfold Rec.ensureSpace
    split
    · exact rotate_keeps hP h
    · exact Keeps.ok h
  exact hspace.bind (fun r₁ h₁ => (store_keeps hP h₁ bs).bind (fun r₂ h₂ => Keeps.ok (advance_keeps hP h₂ t size)))

/-- So does a text over several buffers. -/
theorem copyFragmented_keeps (t : Tally) (src : List UInt8) : Keeps P (r.copyFragmented acquire t src) := by
  have hloop : ∀ n src r, P r → Keeps P (Rec.copyLoop acquire t n src r) := by
    intro n
    induction n with
    | zero => exact fun _ r h => Keeps.ok h
    | succ n ih =>
      intro src r h
      rw [Rec.copyLoop]
      split
      · exact Keeps.ok h
      · have hleave : Keeps P (r.leaveFull acquire) := by
          unfold Rec.leaveFull
          split
          · exact rotate_keeps hP h
          · exact Keeps.ok h
        exact hleave.bind (fun r₁ h₁ => (store_keeps hP h₁ _).bind (fun r₂ h₂ => ih _ _ (advance_keeps hP h₂ t _)))
  exact hloop _ _ _ h

theorem putString_keeps (t : Tally) (src : List UInt8) : Keeps P (r.putString acquire t src) :=
  (putBlock_keeps hP h t _ _).bind (fun _ h₁ => copyFragmented_keeps hP h₁ t _)

theorem putArgs_keeps (va : Nat → VaArg) (i : Nat) (as : List LogVarg) : Keeps P (r.putArgs acquire va i as) := by
  induction as generalizing r i with
  | nil => exact Keeps.ok h
  | cons a as ih =>
    have harg : Keeps P (r.putArg acquire a (va i)) := by
      unfold Rec.putArg
      split
      · exact putString_keeps hP h _ _
      · exact putBlock_keeps hP h _ _ _
    exact harg.bind (fun r₁ h₁ => ih h₁ (i + 1))

theorem putAttrValue_keeps (d : AttrDesc) (a : AttrVal) : Keeps P (r.putAttrValue acquire d a) := by
  unfold Rec.putAttrValue
  split
  · exact (putBlock_keeps hP h _ _ _).bind (fun _ h₁ => putString_keeps hP h₁ _ _)
  · exact putBlock_keeps hP h _ _ _

/-- Writing all attributes keeps it. -/
theorem putAttrs_keeps (core : Core) (as : List AttrVal) : Keeps P (r.putAttrs acquire core as) := by
  induction as generalizing r with
  | nil => exact Keeps.ok h
  | cons a as ih =>
    have hcache : P { r with attrCache := Rec.cacheFor core r.attrCache (Core.attrIndex a.id) } :=
      hP.touch r ⟨rfl, rfl, rfl, rfl, rfl⟩ h
    have hattr : Keeps P (r.putAttr acquire core a) := by
      unfold Rec.putAttr
      split
      · exact Keeps.ok h
      · dsimp only
        split
        · exact Keeps.ok hcache
        · exact (putAttrValue_keeps hP hcache _ a).bind
            (fun r₁ h₁ => Keeps.ok (hP.touch r₁ ⟨rfl, rfl, rfl, rfl, rfl⟩ h₁))
    exact hattr.bind (fun r₁ h₁ => ih h₁)

/-- Writing the item behind its header keeps what stores and rotations keep. -/
theorem putBody_keeps (core : Core) (d : LogDesc) (c : Call) : Keeps P (r.putBody acquire core d c) :=
  (putArgs_keeps hP h c.args 0 d.args).bind (fun _ h₁ => putAttrs_keeps hP (modifyHdr_keeps hP h₁ _) core _)

end

/-! ## The times in the headers -/

/-- The headers of the buffers a record has left, and of the one it is in. -/
def Rec.hdrs (r : Rec) : List DataBufHdr := (r.fragments.map (·.hdr)).drop r.fragCommit ++ [r.buffer.hdr]

/-- The first buffer of a record keeps its start time; the others start at the record's time, and those left stop at it. -/
structure Dated (start : UInt64) (r : Rec) : Prop where
  commit : r.fragCommit ≤ r.fragments.length
  first : (r.hdrs.head?).map (·.startTime) = some start
  later : ∀ h ∈ r.hdrs.tail, h.startTime = r.timestamp
  parked : ∀ h ∈ r.hdrs.dropLast, h.stopTime = r.timestamp

/-- A rotation dates the buffer it leaves and the one it takes with the record's time. -/
theorem rotateFragmentBuffer_hdrs {acquire : Nat → Option DataBuf} {r r' : Rec}
    (hr : r.rotateFragmentBuffer acquire = .ok r') (hcommit : r.fragCommit ≤ r.fragments.length) :
    r'.fragCommit ≤ r'.fragments.length ∧ r'.timestamp = r.timestamp ∧
      ∃ cut fresh, r'.hdrs = (r.fragments.map (·.hdr)).drop r.fragCommit ++ [cut] ++ [fresh] ∧
        cut.startTime = r.buffer.hdr.startTime ∧ cut.stopTime = r.timestamp ∧ fresh.startTime = r.timestamp := by
  rw [Rec.rotateFragmentBuffer] at hr
  cases hb : acquire (r.fragments.length - r.fragCommit) with
  | none =>
    rw [hb] at hr
    cases hr
  | some b =>
    rw [hb] at hr
    cases hr
    refine ⟨?_, rfl, (r.buffer.cut r.bufUsed r.timestamp).hdr,
      (b.start r.buffer.hdr.packetType r.threadId r.timestamp).hdr, ?_, rfl, rfl, rfl⟩
    · rw [List.length_append]
      exact Nat.le_add_right_of_le hcommit
    · rw [Rec.hdrs, List.map_append, List.drop_append_of_le_length (by rw [List.length_map]; exact hcommit)]
      rfl

/-- The time in a buffer's header is steady. -/
theorem steady_dated (start : UInt64) : Steady (Dated start) where
  touch := by
    intro r r' hs h
    have hhdrs : r'.hdrs = r.hdrs := by rw [Rec.hdrs, hs.fragments, hs.fragCommit, hs.buffer, Rec.hdrs]
    have hlen : r'.fragments.length = r.fragments.length := by simpa using congrArg List.length hs.fragments
    refine ⟨?_, ?_, ?_, ?_⟩
    · rw [hs.fragCommit, hlen]
      exact h.commit
    · rw [hhdrs]
      exact h.first
    · rw [hhdrs, hs.timestamp]
      exact h.later
    · rw [hhdrs, hs.timestamp]
      exact h.parked
  turn := by
    intro acquire r r' hr h
    obtain ⟨hcommit, htime, cut, fresh, hhdrs, hstart, hstop, hfresh⟩ := rotateFragmentBuffer_hdrs hr h.commit
    obtain ⟨-, hfirst, hlater, hparked⟩ := h
    rw [Rec.hdrs] at hfirst hlater hparked
    generalize (r.fragments.map (·.hdr)).drop r.fragCommit = hs at *
    refine ⟨hcommit, ?_, ?_, ?_⟩
    · rw [hhdrs]
      cases hs with
      | nil => simpa [hstart] using hfirst
      | cons x hs => simpa using hfirst
    · rw [hhdrs, htime]
      intro x hx
      cases hs with
      | nil =>
        have hx : x = fresh := by simpa using hx
        rw [hx]
        exact hfresh
      | cons y hs =>
        simp only [List.cons_append, List.tail_cons, List.mem_append, List.mem_singleton] at hx hlater
        rcases hx with (hx | hx) | hx
        · exact hlater x (Or.inl hx)
        · rw [hx, hstart]
          exact hlater _ (Or.inr rfl)
        · rw [hx]
          exact hfresh
    · rw [hhdrs, htime]
      intro x hx
      rw [List.dropLast_concat] at hx hparked
      rcases List.mem_append.mp hx with hx | hx
      · exact hparked x hx
      · rw [List.mem_singleton.mp hx]
        exact hstop

/-- A record just begun. -/
theorem dated_begin (l : Log) (env : SendEnv) (b : DataBuf) : Dated b.hdr.startTime (l.beginRecord env b) := by
  have hhdrs : (l.beginRecord env b).hdrs = [b.hdr] := by
    simp [Rec.hdrs, Log.beginRecord]
  refine ⟨Nat.le_refl _, ?_, ?_, ?_⟩
  · rw [hhdrs]
    rfl
  · rw [hhdrs]
    intro h hh
    cases hh
  · rw [hhdrs]
    intro h hh
    cases hh

/-- The buffers of a written record: the one it began in with its start time, the others with the record's, and all of them
stopped at the record's time. -/
theorem finish_times {l : Log} {env : SendEnv} {core : Core} {d : LogDesc} {c : Call} {b : DataBuf} {r : Rec}
    (hr : l.writeRecord env core d c b = .ok r) (hof : r.Of l env) :
    ∃ first more, (l.finish r).bufs = l.fragments ++ first :: more ∧ first.hdr.startTime = b.hdr.startTime ∧
      first.hdr.stopTime = env.itemTicks ∧
      ∀ x ∈ more, x.hdr.startTime = env.itemTicks ∧ x.hdr.stopTime = env.itemTicks := by
  have hdated : Dated b.hdr.startTime r := by
    rw [Log.writeRecord] at hr
    split at hr
    · have hbegun := modifyHdr_keeps (steady_dated b.hdr.startTime) (dated_begin l env b) (l.beginHdr env d c)
      exact putBody_keeps (steady_dated _) hbegun core d c r hr
    · cases hr
  have hcomplete : Dated b.hdr.startTime r.complete := modifyHdr_keeps (steady_dated _) hdated _
  have hofc : r.complete.Of l env := hof.modifyHdr _
  have htime : r.timestamp = env.itemTicks := hof.timestamp
  have hbufs : (l.finish r).bufs = r.complete.fragments ++ [r.complete.buffer.close (r.dst + padOf r.itemSize) r.timestamp] := by
    rw [Log.finish]
    split <;> simp [Log.bufs]
  have hsplit : r.complete.fragments = l.fragments ++ r.complete.fragments.drop l.fragments.length := by
    have h := List.take_append_drop l.fragments.length r.complete.fragments
    rw [hofc.earlier] at h
    exact h.symm
  obtain ⟨-, hfirst, hlater, hparked⟩ := hcomplete
  rw [Rec.hdrs, hofc.commit, ← List.map_drop] at hfirst hlater hparked
  rw [hofc.timestamp] at hlater hparked
  rw [List.dropLast_concat] at hparked
  rw [hbufs, hsplit, htime]
  have hstart : (r.complete.buffer.close (r.dst + padOf r.itemSize) env.itemTicks).hdr.startTime =
      r.complete.buffer.hdr.startTime := rfl
  have hstop : (r.complete.buffer.close (r.dst + padOf r.itemSize) env.itemTicks).hdr.stopTime = env.itemTicks := rfl
  generalize r.complete.buffer.close (r.dst + padOf r.itemSize) env.itemTicks = last at *
  generalize r.complete.fragments.drop l.fragments.length = rest at *
  cases rest with
  | nil =>
    refine ⟨last, [], by rw [List.append_nil], ?_, hstop, by simp⟩
    simpa [hstart] using hfirst
  | cons x rest =>
    refine ⟨x, rest ++ [last], by simp, by simpa using hfirst, ?_, ?_⟩
    · exact hparked x.hdr (List.mem_map_of_mem List.mem_cons_self)
    · intro y hy
      rcases List.mem_append.mp hy with hy | hy
      · have hy' : y.hdr ∈ rest.map (·.hdr) := List.mem_map_of_mem hy
        exact ⟨hlater y.hdr (List.mem_append_left _ hy'), hparked y.hdr (List.mem_cons_of_mem _ hy')⟩
      · rw [List.mem_singleton.mp hy]
        exact ⟨hstart.trans (hlater r.complete.buffer.hdr (by simp)), hstop⟩

/-! ## The buffers in front of a record -/

/-- The buffers of a writer once a call has looked for one to write to: the same, or a fresh one behind them. -/
def Waits (env : SendEnv) (bufs bufs' : List DataBuf) : Prop :=
  bufs' = bufs ∨ ∃ b, bufs' = bufs ++ [b] ∧ b.hdr.startTime = env.bufTicks ∧ b.frame.data = []

/-- A call that takes a buffer leaves the buffers, or adds the one it waited for. -/
theorem takeBuffer_waits {l l' : Log} {env : SendEnv} {delivered : List DataBuf} {ob : Option DataBuf}
    (ht : l.takeBuffer env = (l', delivered, ob)) : Waits env l.bufs (delivered ++ l'.bufs) := by
  obtain ⟨-, -, rfl, rfl, -⟩ | ⟨-, -, ⟨-, -, hbufs⟩ | ⟨b, -, -, -, hframe, hstart, hbufs⟩⟩ := takeBuffer_cases ht
  · exact Or.inl rfl
  · exact Or.inl hbufs
  · exact Or.inr ⟨b, hbufs, hstart, congrArg Frame.data hframe⟩

/-- Up to the record a call of `send` at most puts a fresh buffer behind those of its writer. -/
theorem prepare_waits (hash : CStr → UInt32 → UInt64) (env : SendEnv) (c : Call) {core : Core} {l : Log} (h : l.Inv core)
    (hc : core.Sound) :
    match l.prepare hash core env c with
    | .error o => Waits env l.bufs (o.delivered ++ o.log.bufs)
    | .ok p => Waits env l.bufs (p.delivered ++ p.log.bufs) := by
  rw [Log.prepare]
  by_cases hlevel : c.level < l.minLevel core c
  · rw [if_pos hlevel]
    exact Or.inl rfl
  · rw [if_neg hlevel]
    by_cases hatt : (!l.attached) = true
    · rw [if_pos hatt]
      exact Or.inl rfl
    · rw [if_neg hatt]
      obtain ⟨hpinv, hpbufs, -⟩ := parkFull_spec h
      obtain ⟨l₁, delivered, ob, ht⟩ : ∃ l₁ delivered ob, l.parkFull.takeBuffer env = (l₁, delivered, ob) := ⟨_, _, _, rfl⟩
      have hwaits := takeBuffer_waits ht
      have hinv₁ := (takeBuffer_spec hpinv ht).1
      rw [hpbufs] at hwaits
      rw [ht]
      cases ob with
      | none => exact hwaits
      | some b =>
        dsimp only
        obtain ⟨l₂, core₂, od, hl⟩ : ∃ l₂ core₂ od,
            l₁.lookupDesc env core (hash c.file c.line) c = (l₂, core₂, od) := ⟨_, _, _, rfl⟩
        have hbufs₂ := (lookupDesc_spec hinv₁ hc hl).2.2.2.2.1
        rw [← hbufs₂] at hwaits
        rw [hl]
        cases od with
        | none => exact hwaits
        | some d => exact hwaits

end P8
