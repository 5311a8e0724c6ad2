import Mathlib.Data.List.Nodup
import Mathlib.Data.List.Perm.Basic
import P8.Service.Buffers
import P8.Steps

/-!
# Stream: the service stream under any interleaving

Any number of threads register attributes, modules, metrics and log descriptors while the worker takes the service buffers.
A registration is two steps, since others may run between them: the registry is changed under its mutex, then the descriptor is
serialized under `mo_svc_mutex`. The descriptors between the two are `inFlight`. The steps do not ask whether the registry's
mutex is still held, so they allow every order the code allows and more.

The pool may give out a buffer, or none, whenever it is asked; it never gives out one that the service part or the worker
holds. A buffer it does not hold is anybody's to write.
-/

namespace P8

open Bytes

/-- A C string: there is no NUL inside. -/
abbrev CString : Type := { s : CStr // (0 : UInt8) ∉ s }

/-- Where the worker is: before it moves `mo_svc_buffers` to its own list, before `write_service`, or before it gives the
buffers back. -/
inductive SvcPhase where
  | idle | holding | written
  deriving DecidableEq

/-- A core's registries and service buffers, with the descriptors on the way to their serializer, the worker's list `lo_bufs`,
and what `write_service` was given so far, buffer by buffer. The last three fields are history: the descriptors created, those
whose entry was written, and those whose reservation failed, in the order of these events. -/
structure SvcSys (B : Type) where
  regs : Registries
  inFlight : List SvcDesc
  svc : Svc B
  worker : List (SvcBuf B)
  phase : SvcPhase
  sent : List (List UInt8)
  created : List SvcDesc
  written : List SvcDesc
  unwritten : List SvcDesc

/-- The steps: registrations, the serializing of a descriptor in flight, the worker's three, and a write by a user of the pool
to a buffer. -/
inductive SvcEv (B : Type) where
  | attrRegister (alloc : Bool) (name : Option CString) (type : AttrType)
  | registerModule (alloc : Bool) (name : Option CString) (verbosity : Level) (handle : Bool)
  | registerMtk (alloc : Bool) (base : Option MtkBase)
  | resolveLogDesc (alloc : Bool) (hash : UInt64) (file : CStr) (line : UInt32) (function format : Option CStr)
  | serialize (i : Nat) (fresh : Option B)
  | move
  | writeService
  | recycle
  | use (b : B) (m : Mem)

namespace SvcSys

variable {B : Type} [DecidableEq B]

/-- A core right after its construction. -/
def init (heap : B → Mem) : SvcSys B := ⟨Registries.init, [], ⟨heap, [], 0⟩, [], .idle, [], [], [], []⟩

/-- The buffers of the pool that hold service entries. -/
def held (s : SvcSys B) : List B := (s.worker ++ s.svc.buffers).map (·.buf)

/-- The buffers whose entries have not been given to `write_service`. -/
def waiting (s : SvcSys B) : List (SvcBuf B) := (if s.phase = .holding then s.worker else []) ++ s.svc.buffers

/-- A registration, whatever it returns. -/
def register {α : Type} (s : SvcSys B) (r : Registered α) : SvcSys B :=
  { s with
    regs := r.regs
    inFlight := s.inFlight ++ r.transmit.toList
    created := s.created ++ r.transmit.toList }

/-- The serializing of the descriptor `x`, which is the `i`-th in flight. -/
def serialized (s : SvcSys B) (i : Nat) (fresh : Option B) (x : SvcDesc) : SvcSys B :=
  let (svc, wrote) := s.svc.transmit fresh x
  { s with
    inFlight := s.inFlight.eraseIdx i
    svc := svc
    written := if wrote then s.written ++ [x] else s.written
    unwritten := if wrote then s.unwritten else s.unwritten ++ [x] }

/-- One step. -/
def step (s : SvcSys B) : SvcEv B → Except Halt (SvcSys B)
  | .attrRegister alloc name type => .ok (s.register (s.regs.attrRegister alloc (name.map Subtype.val) type))
  | .registerModule alloc name verbosity handle =>
    .ok (s.register (s.regs.registerModule alloc (name.map Subtype.val) verbosity handle))
  | .registerMtk alloc base => .ok (s.register (s.regs.registerMtk alloc base))
  | .resolveLogDesc alloc hash file line function format =>
    .ok (s.register (s.regs.resolveLogDesc alloc hash file line function format))
  | .serialize i fresh =>
    match s.inFlight[i]? with
    | none => .error .disabled
    | some x => when (∀ b ∈ fresh, b ∉ s.held) (.ok (s.serialized i fresh x))
  | .move => when (s.phase = .idle) (.ok { s with
      svc := { s.svc with buffers := [] }
      worker := s.svc.buffers
      phase := .holding })
  | .writeService => when (s.phase = .holding) (.ok { s with
      sent := s.sent ++ s.worker.map (SvcBuf.bytes s.svc.heap)
      phase := .written })
  | .recycle => when (s.phase = .written) (.ok { s with
      worker := []
      phase := .idle })
  | .use b m => when (b ∉ s.held) (.ok { s with svc := { s.svc with heap := Function.update s.svc.heap b m } })

/-- A run of steps. -/
def run (s : SvcSys B) (evs : List (SvcEv B)) : Except Halt (SvcSys B) := Runs.run step s evs

/-! ## What the buffers hold -/

/-- The bytes of a run of entries. -/
def entryBytes (xs : List SvcDesc) : List UInt8 := xs.flatMap (·.entry.bytes)

/-- A buffer holds the entries of these descriptors and nothing else. -/
structure Holds (heap : B → Mem) (b : SvcBuf B) (xs : List SvcDesc) : Prop where
  bytes_eq : b.bytes heap = entryBytes xs
  used_le : b.used ≤ dataBufferSize

/-- What was sent and what waits, buffer by buffer, is the entries written, in the order they were. -/
structure Filled (heap : B → Mem) (waiting : List (SvcBuf B)) (sent : List (List UInt8)) (written : List SvcDesc)
    (out : List (List SvcDesc)) (now : List (SvcBuf B × List SvcDesc)) : Prop where
  sent_eq : sent = out.map entryBytes
  sent_le : ∀ xs ∈ out, (entryBytes xs).length ≤ dataBufferSize
  waiting_eq : waiting = now.map Prod.fst
  holds : ∀ p ∈ now, Holds heap p.1 p.2
  written_eq : written = (out ++ now.map Prod.snd).flatten

omit [DecidableEq B] in
/-- The bytes of entries in two parts. -/
theorem entryBytes_append (xs ys : List SvcDesc) : entryBytes (xs ++ ys) = entryBytes xs ++ entryBytes ys := by
  simp [entryBytes]

section

variable {heap heap' : B → Mem} {waiting front : List (SvcBuf B)} {sent : List (List UInt8)} {written : List SvcDesc}
  {out : List (List SvcDesc)} {now : List (SvcBuf B × List SvcDesc)} {x : SvcDesc}

omit [DecidableEq B] in
/-- Buffers keep what they hold while nobody writes to them. -/
theorem Filled.congr (h : Filled heap waiting sent written out now) (hheap : ∀ b ∈ waiting, heap' b.buf = heap b.buf) :
    Filled heap' waiting sent written out now where
  sent_eq := h.sent_eq
  sent_le := h.sent_le
  waiting_eq := h.waiting_eq
  holds := by
    intro p hp
    have hmem : p.1 ∈ waiting := by
      rw [h.waiting_eq]
      exact List.mem_map_of_mem hp
    refine ⟨?_, (h.holds p hp).used_le⟩
    rw [SvcBuf.bytes, hheap p.1 hmem]
    exact (h.holds p hp).bytes_eq
  written_eq := h.written_eq

omit [DecidableEq B] in
/-- An entry is added to the last buffer. -/
theorem Filled.append {b : SvcBuf B} {padded : Nat} (h : Filled heap (front ++ [b]) sent written out now)
    (hroom : b.used + padded ≤ dataBufferSize)
    (hbytes : (heap' b.buf).read 0 (b.used + padded) = b.bytes heap ++ x.entry.bytes)
    (hheap : ∀ c ∈ front, heap' c.buf = heap c.buf) :
    ∃ now', Filled heap' (front ++ [⟨b.buf, b.used + padded⟩]) sent (written ++ [x]) out now' := by
  obtain ⟨now₀, last, rfl, hfront, hlast⟩ := List.map_eq_append_iff.mp h.waiting_eq.symm
  obtain ⟨⟨c, xs⟩, rfl, rfl⟩ := List.map_eq_singleton_iff.mp hlast
  have hb := h.holds (c, xs) (by simp)
  refine ⟨now₀ ++ [(⟨c.buf, c.used + padded⟩, xs ++ [x])], h.sent_eq, h.sent_le, by simp [hfront], fun p hp => ?_, ?_⟩
  · rcases List.mem_append.mp hp with hp | hp
    · have hmem : p.1 ∈ front := by
        rw [← hfront]
        exact List.mem_map_of_mem hp
      have hold := h.holds p (List.mem_append_left _ hp)
      refine ⟨?_, hold.used_le⟩
      rw [SvcBuf.bytes, hheap p.1 hmem]
      exact hold.bytes_eq
    · obtain rfl := List.mem_singleton.mp hp
      refine ⟨?_, hroom⟩
      rw [entryBytes_append, ← hb.bytes_eq]
      simpa [entryBytes, SvcBuf.bytes] using hbytes
  · rw [h.written_eq]
    simp

omit [DecidableEq B] in
/-- An entry is the first of a new buffer. -/
theorem Filled.open {b : B} {padded : Nat} (h : Filled heap waiting sent written out now) (hroom : padded ≤ dataBufferSize)
    (hbytes : (heap' b).read 0 padded = x.entry.bytes) (hheap : ∀ c ∈ waiting, heap' c.buf = heap c.buf) :
    Filled heap' (waiting ++ [⟨b, padded⟩]) sent (written ++ [x]) out (now ++ [(⟨b, padded⟩, [x])]) where
  sent_eq := h.sent_eq
  sent_le := h.sent_le
  waiting_eq := by simp [h.waiting_eq]
  holds := by
    intro p hp
    rcases List.mem_append.mp hp with hp | hp
    · exact (h.congr hheap).holds p hp
    · obtain rfl := List.mem_singleton.mp hp
      exact ⟨by simpa [entryBytes, SvcBuf.bytes] using hbytes, hroom⟩
  written_eq := by simp [h.written_eq]

omit [DecidableEq B] in
/-- The first buffers that wait are sent. -/
theorem Filled.send {bufs : List (SvcBuf B)} (h : Filled heap (bufs ++ waiting) sent written out now) :
    ∃ out' now', Filled heap waiting (sent ++ bufs.map (SvcBuf.bytes heap)) written out' now' := by
  obtain ⟨now₁, now₂, rfl, hbufs, hwaiting⟩ := List.map_eq_append_iff.mp h.waiting_eq.symm
  have hbytes : bufs.map (SvcBuf.bytes heap) = (now₁.map Prod.snd).map entryBytes := by
    rw [← hbufs, List.map_map, List.map_map]
    exact List.map_congr_left (fun p hp => (h.holds p (List.mem_append_left _ hp)).bytes_eq)
  refine ⟨out ++ now₁.map Prod.snd, now₂, by rw [h.sent_eq, hbytes, List.map_append], ?_, hwaiting.symm,
    fun p hp => h.holds p (List.mem_append_right _ hp), by rw [h.written_eq]; simp⟩
  intro xs hxs
  rcases List.mem_append.mp hxs with hxs | hxs
  · exact h.sent_le xs hxs
  · obtain ⟨p, hp, rfl⟩ := List.mem_map.mp hxs
    have hold := h.holds p (List.mem_append_left _ hp)
    rw [← hold.bytes_eq, SvcBuf.bytes, Mem.length_read]
    exact hold.used_le

end

/-! ## The invariant -/

/-- The invariant: the descriptors created are well formed, registered, and each in flight, written or unwritten; no buffer is
held twice; and the buffers hold the entries written. -/
structure Inv (s : SvcSys B) : Prop where
  sound : s.regs.core.Sound
  formed : ∀ x ∈ s.created, x.WellFormed s.regs.core.attrDescs ∧ x.RegisteredIn s.regs
  accounted : s.created.Perm (s.written ++ s.unwritten ++ s.inFlight)
  nodup : s.held.Nodup
  idle : s.phase = .idle → s.worker = []
  filled : ∃ out now, Filled s.svc.heap s.waiting s.sent s.written out now
  fits : ∀ x ∈ s.written, x.entry.padded ≤ dataBufferSize

omit [DecidableEq B] in
theorem inv_init (heap : B → Mem) : (init heap).Inv where
  sound := Core.sound_init
  formed := fun _ hx => (by cases hx)
  accounted := List.Perm.refl _
  nodup := List.nodup_nil
  idle := fun _ => rfl
  filled := ⟨[], [], rfl, fun _ hxs => (by cases hxs), rfl, fun _ hp => (by cases hp), rfl⟩
  fits := fun _ hx => (by cases hx)

variable {s s' : SvcSys B}

omit [DecidableEq B] in
/-- A buffer that waits is held. -/
theorem mem_held_of_waiting {b : SvcBuf B} (hb : b ∈ s.waiting) : b.buf ∈ s.held := by
  refine List.mem_map_of_mem ?_
  unfold waiting at hb
  rcases List.mem_append.mp hb with hb | hb
  · split at hb
    · exact List.mem_append_left _ hb
    · cases hb
  · exact List.mem_append_right _ hb

omit [DecidableEq B] in
/-- No buffer waits twice. -/
theorem nodup_waiting (h : s.held.Nodup) : (s.waiting.map (·.buf)).Nodup := by
  have hsub : List.Sublist s.waiting (s.worker ++ s.svc.buffers) := by
    unfold waiting
    split
    · exact List.Sublist.refl _
    · exact List.sublist_append_right _ _
  exact h.sublist (hsub.map _)

omit [DecidableEq B] in
/-- A good registration keeps the invariant. -/
theorem Inv.register {α : Type} (h : s.Inv) {r : Registered α} (hr : r.Good s.regs) : (s.register r).Inv where
  sound := hr.sound
  formed := by
    intro x hx
    rcases List.mem_append.mp hx with hx | hx
    · exact ⟨(h.formed x hx).1.mono hr.grows.core.attrs, (h.formed x hx).2.mono hr.grows⟩
    · exact hr.formed x (Option.mem_toList.mp hx)
  accounted := by
    show (s.created ++ _).Perm (s.written ++ s.unwritten ++ (s.inFlight ++ _))
    rw [← List.append_assoc]
    exact h.accounted.append_right _
  nodup := h.nodup
  idle := h.idle
  filled := h.filled
  fits := h.fits

omit [DecidableEq B] in
/-- One of the descriptors in flight is taken out of them. -/
theorem perm_take (written unwritten : List SvcDesc) {inFlight : List SvcDesc} {i : Nat} {x : SvcDesc} (hx : inFlight[i]? = some x) :
    (written ++ unwritten ++ inFlight).Perm (written ++ [x] ++ unwritten ++ inFlight.eraseIdx i) ∧
      (written ++ unwritten ++ inFlight).Perm (written ++ (unwritten ++ [x]) ++ inFlight.eraseIdx i) := by
  obtain ⟨hi, rfl⟩ := List.getElem?_eq_some_iff.mp hx
  have htake := (List.getElem_cons_eraseIdx_perm hi).symm
  constructor
  · refine (htake.append_left _).trans ?_
    rw [List.append_assoc, List.append_assoc, List.append_assoc]
    exact List.Perm.append_left _ List.perm_middle
  · refine (htake.append_left _).trans (List.Perm.of_eq ?_)
    simp

/-- What the serializing of a descriptor leaves, by the outcome of the serializer. -/
theorem Inv.serialized (h : s.Inv) {i : Nat} {fresh : Option B} {x : SvcDesc} (hx : s.inFlight[i]? = some x)
    (hfree : ∀ b ∈ fresh, b ∉ s.held) : (s.serialized i fresh x).Inv := by
  have hw := s.svc.transmit_wrote fresh x
  have hperm := perm_take s.written s.unwritten hx
  have hnd := h.nodup
  obtain ⟨out, now, hf⟩ := h.filled
  unfold SvcSys.serialized
  generalize hres : s.svc.transmit fresh x = res at hw
  cases hw with
  | oversized hlarge =>
    exact ⟨h.sound, h.formed, h.accounted.trans hperm.2, h.nodup, h.idle, h.filled, h.fits⟩
  | exhausted hsize hfresh =>
    exact ⟨h.sound, h.formed, h.accounted.trans hperm.2, h.nodup, h.idle, h.filled, h.fits⟩
  | appended front b heap hbuffers hroom hbytes hother =>
    refine ⟨h.sound, h.formed, h.accounted.trans hperm.1, ?_, h.idle, ?_, ?_⟩
    · simpa [held, hbuffers] using hnd
    · have hwait : s.waiting = ((if s.phase = .holding then s.worker else []) ++ front) ++ [b] := by
        rw [waiting, hbuffers, List.append_assoc]
      have hne : ∀ c ∈ (if s.phase = .holding then s.worker else []) ++ front, c.buf ≠ b.buf := by
        intro c hc heq
        have hnw := nodup_waiting hnd
        rw [hwait, List.map_append, List.nodup_append] at hnw
        exact hnw.2.2 _ (List.mem_map_of_mem hc) _ (by simp) heq
      rw [hwait] at hf
      obtain ⟨now', hf'⟩ := hf.append hroom hbytes (fun c hc => hother c.buf (hne c hc))
      exact ⟨out, now', by simpa [waiting] using hf'⟩
    · exact List.forall_mem_append.mpr ⟨h.fits, List.forall_mem_singleton.mpr (Nat.le_trans (Nat.le_add_left _ _) hroom)⟩
  | opened y heap hfresh hroom hbytes hother =>
    have hnew : y ∉ s.held := hfree y hfresh
    refine ⟨h.sound, h.formed, h.accounted.trans hperm.1, ?_, h.idle, ⟨out, now ++ [(⟨y, x.entry.padded⟩, [x])], ?_⟩, ?_⟩
    · have : (s.held ++ [y]).Nodup := List.nodup_append.mpr ⟨hnd, List.nodup_singleton y, fun a ha b hb => by
        rw [List.mem_singleton.mp hb]
        rintro rfl
        exact hnew ha⟩
      simpa [held] using this
    · have hopen := hf.open (b := y) hroom hbytes (fun c hc => hother c.buf (by
        rintro rfl
        exact hnew (mem_held_of_waiting hc)))
      simpa [waiting] using hopen
    · exact List.forall_mem_append.mpr ⟨h.fits, List.forall_mem_singleton.mpr hroom⟩

/-- The serializing step takes a descriptor in flight and a free buffer. -/
theorem serialize_step {i : Nat} {fresh : Option B} (hs : s.step (.serialize i fresh) = .ok s') :
    ∃ x, s.inFlight[i]? = some x ∧ (∀ b ∈ fresh, b ∉ s.held) ∧ s' = s.serialized i fresh x := by
  simp only [SvcSys.step] at hs
  split at hs
  · cases hs
  · rename_i x hx
    obtain ⟨hfree, hs⟩ := when_eq_ok.mp hs
    cases hs
    exact ⟨x, hx, hfree, rfl⟩

/-- Every step keeps it. -/
theorem Inv.step (h : s.Inv) {ev : SvcEv B} (hs : s.step ev = .ok s') : s'.Inv := by
  have hname : ∀ name : Option CString, ∀ n ∈ name.map Subtype.val, (0 : UInt8) ∉ n := by
    intro name n hn
    obtain ⟨c, -, rfl⟩ := Option.map_eq_some_iff.mp hn
    exact c.2
  cases ev with
  | attrRegister alloc name type =>
    cases hs
    exact h.register (Registries.good_attrRegister h.sound alloc (hname name) type)
  | registerModule alloc name verbosity handle =>
    cases hs
    exact h.register (Registries.good_registerModule h.sound alloc (hname name) verbosity handle)
  | registerMtk alloc base =>
    cases hs
    exact h.register (Registries.good_registerMtk h.sound alloc base)
  | resolveLogDesc alloc hash file line function format =>
    cases hs
    exact h.register (Registries.good_resolveLogDesc h.sound alloc hash file line function format)
  | serialize i fresh =>
    obtain ⟨x, hx, hfree, rfl⟩ := serialize_step hs
    exact h.serialized hx hfree
  | move =>
    obtain ⟨hphase, hs⟩ := when_eq_ok.mp hs
    cases hs
    have hworker := h.idle hphase
    have hheld : s.held = s.svc.buffers.map (·.buf) := by rw [held, hworker, List.nil_append]
    have hwaiting : s.waiting = s.svc.buffers := by simp [waiting, hphase]
    obtain ⟨out, now, hf⟩ := h.filled
    refine ⟨h.sound, h.formed, h.accounted, ?_, fun hp => (by cases hp), ⟨out, now, ?_⟩, h.fits⟩
    · rw [held, List.append_nil, ← hheld]
      exact h.nodup
    · rw [waiting, if_pos rfl, List.append_nil, ← hwaiting]
      exact hf
  | writeService =>
    obtain ⟨hphase, hs⟩ := when_eq_ok.mp hs
    cases hs
    obtain ⟨out, now, hf⟩ := h.filled
    have hwaiting : s.waiting = s.worker ++ s.svc.buffers := by rw [waiting, if_pos hphase]
    rw [hwaiting] at hf
    obtain ⟨out', now', hf'⟩ := hf.send
    exact ⟨h.sound, h.formed, h.accounted, h.nodup, fun hp => (by cases hp), ⟨out', now', hf'⟩, h.fits⟩
  | recycle =>
    obtain ⟨hphase, hs⟩ := when_eq_ok.mp hs
    cases hs
    have hnd := h.nodup
    rw [held, List.map_append] at hnd
    obtain ⟨out, now, hf⟩ := h.filled
    have hwaiting : s.waiting = s.svc.buffers := by simp [waiting, hphase]
    rw [hwaiting] at hf
    exact ⟨h.sound, h.formed, h.accounted, (List.nodup_append.mp hnd).2.1, fun _ => rfl, ⟨out, now, hf⟩, h.fits⟩
  | use b m =>
    obtain ⟨hb, hs⟩ := when_eq_ok.mp hs
    cases hs
    obtain ⟨out, now, hf⟩ := h.filled
    refine ⟨h.sound, h.formed, h.accounted, h.nodup, h.idle, ⟨out, now, hf.congr (fun c hc => ?_)⟩, h.fits⟩
    refine Function.update_of_ne (fun he => hb ?_) _ _
    rw [← he]
    exact mem_held_of_waiting hc

/-- The invariant along a run. -/
theorem Inv.run {evs : List (SvcEv B)} (h : s.Inv) (hr : s.run evs = .ok s') : s'.Inv :=
  Runs.run_induction h (fun _ _ _ hi hs => hi.step hs) hr

/-! ## Framing and round trip -/

/-- An entry shows a descriptor: its numbers, its argument types or its attributes, and of each of its strings a prefix. The
attributes of a metric are those registered of the ones it was given, up to 255. -/
inductive Shows : SvcDesc → SvcEntry → Prop where
  | attr (d : AttrDesc) (name : List UInt8) (hname : name <+: d.name) :
    Shows (.attr d) (.attr d.id d.type.code name)
  | log (d : LogDesc) (file function format : List UInt8) (hfile : file <+: d.file) (hfunction : function <+: d.function.getD [])
      (hformat : format <+: d.format.getD []) : Shows (.log d) (.log d.line d.hash file function format d.args)
  | mod (m : LogModule) (name : List UInt8) (hname : name <+: m.name) :
    Shows (.mod m) (.mod m.id (UInt8.ofNat m.verbosity.val) name)
  | mtk (d : MtkDesc) (attrs : List (AttrDesc × AttrVal)) (blob : List UInt8) (count : UInt8)
      (name description unit : List UInt8) (hname : name <+: d.name) (hdescription : description <+: d.description.getD [])
      (hunit : unit <+: d.unit.getD []) :
    Shows (.mtk d attrs blob count) (.mtk d.id d.min d.max d.flags name description unit (attrs.map attrValue))

/-- An entry shows what it says it shows. -/
theorem shows_shown (x : SvcDesc) : Shows x x.shown := by
  cases x with
  | attr d => exact .attr d _ (svcStr_front _)
  | log d => exact .log d _ _ _ (svcStr_front _) (svcStr_front _) (svcStr_front _)
  | mod m => exact .mod m _ (svcStr_front _)
  | mtk d attrs blob count => exact .mtk d attrs blob count _ _ _ (svcStr_front _) (svcStr_front _) (svcStr_front _)

/-- The bytes of a service buffer are cut into entries, each of a multiple of 8 bytes, by the sizes in their headers, with
nothing left over, and they are a buffer's. -/
def Framed (bytes : List UInt8) (entries : List (List UInt8)) : Prop :=
  svcWalk bytes = some entries ∧ entries.flatten = bytes ∧ (∀ e ∈ entries, 8 ∣ e.length) ∧ bytes.length ≤ dataBufferSize

/-- The service stream of a core. `delivered` and `pending` are the entries of the buffers given to `write_service` and of
those that wait for it. -/
structure ServiceStream (s : SvcSys B) (delivered pending : List (List (List UInt8))) : Prop where
  /-- Every buffer is framed. -/
  sent_framed : List.Forall₂ Framed s.sent delivered
  waiting_framed : List.Forall₂ Framed (s.waiting.map (SvcBuf.bytes s.svc.heap)) pending
  /-- The entries are those of the successful reservations, in their order. -/
  entries_eq : (delivered ++ pending).flatten = s.written.map (·.entry.bytes)
  /-- Every entry is decoded as the registered descriptor it was written for, and only zeros are left. -/
  decoded : ∀ x ∈ s.written, x.RegisteredIn s.regs ∧
    ∃ e k, decodeEntry s.regs.core.attrDescs x.entry.bytes = some (e, List.replicate k 0) ∧ Shows x e
  /-- No byte of a buffer the worker has taken is written. -/
  taken_kept : ∀ ev s', s.step ev = .ok s' → ∀ b ∈ s.worker, s'.svc.heap b.buf = s.svc.heap b.buf
  /-- A failed reservation changes no buffer. -/
  failed_kept : ∀ i fresh s', s.step (.serialize i fresh) = .ok s' → s'.written = s.written →
    s'.svc.buffers = s.svc.buffers ∧ s'.svc.heap = s.svc.heap

omit [DecidableEq B] in
/-- The bytes of entries that fit into a buffer are framed. -/
theorem framed_entryBytes {xs : List SvcDesc} (hfits : ∀ x ∈ xs, x.entry.padded ≤ dataBufferSize)
    (hlen : (entryBytes xs).length ≤ dataBufferSize) : Framed (entryBytes xs) (xs.map (·.entry.bytes)) := by
  have hflat : entryBytes xs = (xs.map (·.entry.bytes)).flatten := List.flatMap_def
  refine ⟨?_, hflat.symm, fun e he => ?_, hlen⟩
  · rw [hflat]
    refine SelfSized.cut_flatten (by decide) (fun it hit => ?_) (Nat.le_refl _)
    obtain ⟨x, hx, rfl⟩ := List.mem_map.mp hit
    exact says_entry (hfits x hx)
  · obtain ⟨x, hx, rfl⟩ := List.mem_map.mp he
    rw [length_bytes]
    exact padded_dvd x

/-- A serializer writes to no buffer the worker has taken. -/
theorem Inv.serialized_kept (h : s.Inv) {i : Nat} {fresh : Option B} {x : SvcDesc} (hfree : ∀ b ∈ fresh, b ∉ s.held)
    {b : SvcBuf B} (hb : b ∈ s.worker) : (s.serialized i fresh x).svc.heap b.buf = s.svc.heap b.buf := by
  have hw := s.svc.transmit_wrote fresh x
  unfold SvcSys.serialized
  generalize s.svc.transmit fresh x = res at hw
  cases hw with
  | oversized _ => rfl
  | exhausted _ _ => rfl
  | appended front c heap hbuffers _ _ hother =>
    refine hother b.buf (fun heq => ?_)
    have hnd := h.nodup
    rw [held, List.map_append, List.nodup_append] at hnd
    exact hnd.2.2 _ (List.mem_map_of_mem hb) _ (List.mem_map_of_mem (by rw [hbuffers]; simp)) heq
  | opened y heap hfresh _ _ hother =>
    refine hother b.buf ?_
    rintro rfl
    exact hfree _ hfresh (List.mem_map_of_mem (List.mem_append_left _ hb))

/-- A step writes to no buffer the worker has taken. -/
theorem Inv.taken_kept (h : s.Inv) {ev : SvcEv B} (hs : s.step ev = .ok s') {b : SvcBuf B} (hb : b ∈ s.worker) :
    s'.svc.heap b.buf = s.svc.heap b.buf := by
  cases ev with
  | serialize i fresh =>
    obtain ⟨x, -, hfree, rfl⟩ := serialize_step hs
    exact h.serialized_kept hfree hb
  | use c m =>
    obtain ⟨hc, hs⟩ := when_eq_ok.mp hs
    cases hs
    refine Function.update_of_ne (fun he => hc ?_) _ _
    rw [← he]
    exact List.mem_map_of_mem (List.mem_append_left _ hb)
  | move | writeService | recycle =>
    obtain ⟨-, hs⟩ := when_eq_ok.mp hs
    cases hs
    rfl
  | _ =>
    cases hs
    rfl

/-- A reservation that fails changes no buffer. -/
theorem failed_kept {i : Nat} {fresh : Option B} (hs : s.step (.serialize i fresh) = .ok s')
    (hfailed : s'.written = s.written) : s'.svc.buffers = s.svc.buffers ∧ s'.svc.heap = s.svc.heap := by
  obtain ⟨x, -, -, rfl⟩ := serialize_step hs
  have hw := s.svc.transmit_wrote fresh x
  unfold SvcSys.serialized at hfailed ⊢
  generalize s.svc.transmit fresh x = res at hw hfailed
  cases hw with
  | oversized _ => exact ⟨rfl, rfl⟩
  | exhausted _ _ => exact ⟨rfl, rfl⟩
  | appended _ _ _ _ _ _ _ => simp at hfailed
  | opened _ _ _ _ _ _ => simp at hfailed

/-- The invariant gives the service stream. -/
theorem Inv.serviceStream (h : s.Inv) : ∃ delivered pending, s.ServiceStream delivered pending := by
  obtain ⟨out, now, hf⟩ := h.filled
  have hfits : ∀ xs ∈ out ++ now.map Prod.snd, ∀ x ∈ xs, x.entry.padded ≤ dataBufferSize := by
    intro xs hxs x hx
    refine h.fits x ?_
    rw [hf.written_eq]
    exact List.mem_flatten.mpr ⟨xs, hxs, hx⟩
  refine ⟨out.map (·.map (·.entry.bytes)), (now.map Prod.snd).map (·.map (·.entry.bytes)), ?_, ?_, ?_, ?_,
    fun ev s' hs b hb => h.taken_kept hs hb, fun i fresh s' hs hfailed => failed_kept hs hfailed⟩
  · rw [hf.sent_eq, List.forall₂_map_left_iff, List.forall₂_map_right_iff, List.forall₂_same]
    exact fun xs hxs => framed_entryBytes (hfits xs (List.mem_append_left _ hxs)) (hf.sent_le xs hxs)
  · rw [hf.waiting_eq, List.map_map, List.map_map, List.forall₂_map_left_iff, List.forall₂_map_right_iff, List.forall₂_same]
    intro p hp
    have hold := hf.holds p hp
    have hmem : p.2 ∈ out ++ now.map Prod.snd := List.mem_append_right _ (List.mem_map_of_mem hp)
    show Framed (p.1.bytes s.svc.heap) _
    rw [hold.bytes_eq]
    refine framed_entryBytes (hfits p.2 hmem) ?_
    rw [← hold.bytes_eq, SvcBuf.bytes, Mem.length_read]
    exact hold.used_le
  · rw [hf.written_eq, ← List.map_append, List.map_flatten]
  · intro x hx
    have hcreated : x ∈ s.created :=
      h.accounted.mem_iff.mpr (List.mem_append_left _ (List.mem_append_left _ hx))
    obtain ⟨hformed, hreg⟩ := h.formed x hcreated
    obtain ⟨k, hk⟩ := decode_entry hformed
    exact ⟨hreg, x.shown, k, hk, shows_shown x⟩

/-- Framing and round trip: whatever order registrations, serializers and the worker run in and whenever the pool is empty,
every service buffer is cut into its entries without rest, the entries are those of the successful reservations in their order,
and each is decoded as the descriptor it was written for. -/
theorem stream_framed (heap : B → Mem) (evs : List (SvcEv B)) {s : SvcSys B} (hr : (init heap).run evs = .ok s) :
    ∃ delivered pending, s.ServiceStream delivered pending :=
  ((inv_init heap).run hr).serviceStream

/-- A name of one letter. -/
def oneLetter : CString := ⟨[97], by decide⟩

/-- A run in which three attributes are registered: the entry of the second is the first to be written, and the worker takes it; for
the first there is no buffer then, and the third gets one. -/
def threeAttrs : List (SvcEv Nat) :=
  [.attrRegister true (some oneLetter) .i64, .attrRegister true (some ⟨[98], by decide⟩) .str,
    .attrRegister true (some ⟨[99], by decide⟩) .u64, .serialize 1 (some 5), .move, .serialize 0 none, .serialize 0 (some 6),
    .writeService]

/-- On this run two descriptors are written into one buffer, and the third one finds none. -/
theorem threeAttrs_run : ∃ s, (init (fun _ _ => 7)).run threeAttrs = .ok s ∧
    s.created.length = 3 ∧ s.written.length = 2 ∧ s.sent.length = 1 ∧ s.svc.droppedSvc = 1 := by
  obtain ⟨s, hr, hs⟩ := Runs.ok_of_any (x := (init (fun _ _ => 7)).run threeAttrs)
    (p := fun s => decide (s.created.length = 3 ∧ s.written.length = 2 ∧ s.sent.length = 1 ∧ s.svc.droppedSvc = 1))
    (by decide +kernel)
  exact ⟨s, hr, of_decide_eq_true hs⟩

/-- On this run the two are framed, delivered and decoded. -/
theorem stream_framed_threeAttrs : ∃ s, (init (fun _ _ => 7)).run threeAttrs = .ok s ∧
    (s.written.length = 2 ∧ s.sent.length = 1 ∧ s.svc.droppedSvc = 1) ∧ ∃ delivered pending, s.ServiceStream delivered pending := by
  obtain ⟨s, hr, -, hcounts⟩ := threeAttrs_run
  exact ⟨s, hr, hcounts, stream_framed _ threeAttrs hr⟩

end SvcSys

end P8
