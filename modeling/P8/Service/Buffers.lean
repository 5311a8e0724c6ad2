import Mathlib.Logic.Function.Basic
import P8.Service.Entry

/-!
# Buffers: the service buffers of a core

`svc_acquire_new`, `svc_reserve` and what the serializers do with the block they get. The list `mo_svc_buffers` is from the first
buffer to the last; the memory of every buffer of the pool is in `heap`. One reservation asks the pool for a buffer at most once,
so a call comes with the one it would be given, if any.

`Wrote` is what a serializer leaves: a new entry at the end of the last buffer, or the first entry of a new one, or nothing.
-/

namespace P8

open Bytes

/-- `s_p8_svc_buf`. -/
structure SvcBuf (B : Type) where
  buf : B
  used : Nat
  deriving DecidableEq

/-- The service part of a core: the memory of the buffers, `mo_svc_buffers` and `mu_dropped_svc`. -/
structure Svc (B : Type) where
  heap : B → Mem
  buffers : List (SvcBuf B)
  droppedSvc : Nat

/-- What a buffer handed to `write_service` carries. -/
def SvcBuf.bytes {B : Type} (heap : B → Mem) (b : SvcBuf B) : List UInt8 := (heap b.buf).read 0 b.used

namespace Svc

variable {B : Type} [DecidableEq B]

/-- `cp8_core::svc_acquire_new`; `fresh` is what `acquire_buffer(false)` gives. -/
def svcAcquireNew (s : Svc B) (fresh : Option B) : Svc B × Option (SvcBuf B) :=
  match fresh with
  | none => ({ s with droppedSvc := s.droppedSvc + 1 }, none)
  | some b => ({ s with buffers := s.buffers ++ [⟨b, 0⟩] }, some ⟨b, 0⟩)

/-- The buffer an entry goes to at first: the last one, or a new one. -/
def current (s : Svc B) (fresh : Option B) : Svc B × Option (SvcBuf B) :=
  match s.buffers.getLast? with
  | none => s.svcAcquireNew fresh
  | some cur => (s, some cur)

/-- The buffer that has room for the entry: that one, or a new one. -/
def roomFor (s : Svc B) (fresh : Option B) (padded : Nat) (cur : SvcBuf B) : Svc B × Option (SvcBuf B) :=
  if dataBufferSize < cur.used + padded then s.svcAcquireNew fresh else (s, some cur)

/-- Zero the block behind the last buffer's entries and count it as used. -/
def takeBlock (s : Svc B) (padded : Nat) (cur : SvcBuf B) : Svc B :=
  { s with
    heap := Function.update s.heap cur.buf ((s.heap cur.buf).write cur.used (List.replicate padded 0))
    buffers := s.buffers.dropLast ++ [{ cur with used := cur.used + padded }] }

/-- `cp8_core::svc_reserve`: the buffer and the offset of the block reserved in it. -/
def svcReserve (s : Svc B) (fresh : Option B) (padded : Nat) : Svc B × Option (B × Nat) :=
  if dataBufferSize < padded then (s, none)
  else
    match s.current fresh with
    | (s, none) => (s, none)
    | (s, some cur) =>
      match s.roomFor fresh padded cur with
      | (s, none) => (s, none)
      | (s, some cur) => (s.takeBlock padded cur, some (cur.buf, cur.used))

/-- What every serializer does: reserve the block, and make its stores there if it got one. -/
def serialize (s : Svc B) (fresh : Option B) (e : Entry) : Svc B × Bool :=
  match s.svcReserve fresh e.padded with
  | (s, none) => (s, false)
  | (s, some (b, dst)) => ({ s with heap := Function.update s.heap b ((s.heap b).stores dst e.stores) }, true)

/-- `cp8_core::serialize_attr_desc`. -/
def serializeAttrDesc (s : Svc B) (fresh : Option B) (d : AttrDesc) : Svc B × Bool := s.serialize fresh d.entry

/-- `cp8_core::serialize_log_desc`. -/
def serializeLogDesc (s : Svc B) (fresh : Option B) (d : LogDesc) : Svc B × Bool := s.serialize fresh d.entry

/-- `cp8_core::serialize_log_mod`. -/
def serializeLogMod (s : Svc B) (fresh : Option B) (m : LogModule) : Svc B × Bool := s.serialize fresh m.entry

/-- `cp8_core::serialize_mtk_desc`. -/
def serializeMtkDesc (s : Svc B) (fresh : Option B) (d : MtkDesc) (blob : List UInt8) (count : UInt8) : Svc B × Bool :=
  s.serialize fresh (d.entry blob count)

/-- The serializer a descriptor is passed to. -/
def transmit (s : Svc B) (fresh : Option B) : SvcDesc → Svc B × Bool
  | .attr d => s.serializeAttrDesc fresh d
  | .log d => s.serializeLogDesc fresh d
  | .mod m => s.serializeLogMod fresh m
  | .mtk d _ blob count => s.serializeMtkDesc fresh d blob count

/-! ## What a serializer leaves -/

/-- The three outcomes of a serializer, `true` where an entry was written: it is behind the entries of the buffer that is now
last, all other buffers are as they were. -/
inductive Wrote (s : Svc B) (fresh : Option B) (e : Entry) : Svc B × Bool → Prop where
  | oversized (h : dataBufferSize < e.padded) : Wrote s fresh e (s, false)
  | exhausted (h : e.padded ≤ dataBufferSize) (hfresh : fresh = none) :
    Wrote s fresh e ({ s with droppedSvc := s.droppedSvc + 1 }, false)
  | appended (front : List (SvcBuf B)) (b : SvcBuf B) (heap : B → Mem) (hbuffers : s.buffers = front ++ [b])
      (hroom : b.used + e.padded ≤ dataBufferSize) (hbytes : (heap b.buf).read 0 (b.used + e.padded) = b.bytes s.heap ++ e.bytes)
      (hother : ∀ x, x ≠ b.buf → heap x = s.heap x) :
    Wrote s fresh e (⟨heap, front ++ [⟨b.buf, b.used + e.padded⟩], s.droppedSvc⟩, true)
  | opened (x : B) (heap : B → Mem) (hfresh : fresh = some x) (hroom : e.padded ≤ dataBufferSize)
      (hbytes : (heap x).read 0 e.padded = e.bytes) (hother : ∀ y, y ≠ x → heap y = s.heap y) :
    Wrote s fresh e (⟨heap, s.buffers ++ [⟨x, e.padded⟩], s.droppedSvc⟩, true)

variable {s : Svc B} {fresh : Option B} {e : Entry}

/-- The stores in the block taken behind `used` bytes add the entry's bytes to them. -/
theorem read_block (m : Mem) (used : Nat) (he : Ascends e.padded 0 e.stores) :
    ((m.write used (List.replicate e.padded 0)).stores used e.stores).read 0 (used + e.padded) =
      m.read 0 used ++ e.bytes := by
  rw [Mem.read_add, Nat.zero_add, Mem.read_stores he, Mem.read_stores_of_le e.stores (by omega),
    Mem.read_write_of_le _ _ _ (by omega)]
  rfl

/-- What a serializer leaves when it gets the block behind the entries of the last buffer `cur`. -/
theorem serialize_block (s' : Svc B) {front : List (SvcBuf B)} {cur : SvcBuf B} (hres : s.svcReserve fresh e.padded =
      (s'.takeBlock e.padded cur, some (cur.buf, cur.used))) (hbuffers : s'.buffers = front ++ [cur])
    (he : Ascends e.padded 0 e.stores) : ∃ heap,
      s.serialize fresh e = (⟨heap, front ++ [⟨cur.buf, cur.used + e.padded⟩], s'.droppedSvc⟩, true) ∧
      (heap cur.buf).read 0 (cur.used + e.padded) = cur.bytes s'.heap ++ e.bytes ∧
      ∀ x, x ≠ cur.buf → heap x = s'.heap x := by
  have htake : s'.takeBlock e.padded cur =
      ⟨Function.update s'.heap cur.buf ((s'.heap cur.buf).write cur.used (List.replicate e.padded 0)),
        front ++ [⟨cur.buf, cur.used + e.padded⟩], s'.droppedSvc⟩ := by
    rw [takeBlock, hbuffers, List.dropLast_concat]
  rw [serialize, hres, htake]
  refine ⟨_, rfl, ?_, fun x hx => ?_⟩
  · dsimp only
    rw [Function.update_self, Function.update_self]
    exact read_block _ _ he
  · dsimp only
    rw [Function.update_of_ne hx, Function.update_of_ne hx]

/-- What a serializer leaves that asks the pool for a buffer. -/
theorem wrote_acquireNew (he : Ascends e.padded 0 e.stores) (hsize : e.padded ≤ dataBufferSize)
    (hres : s.svcReserve fresh e.padded =
      match s.svcAcquireNew fresh with
      | (s', none) => (s', none)
      | (s', some cur) => (s'.takeBlock e.padded cur, some (cur.buf, cur.used))) :
    Wrote s fresh e (s.serialize fresh e) := by
  cases fresh with
  | none =>
    have hnone : s.serialize none e = ({ s with droppedSvc := s.droppedSvc + 1 }, false) := by
      rw [serialize, hres]
      rfl
    rw [hnone]
    exact .exhausted hsize rfl
  | some x =>
    obtain ⟨heap, hser, hbytes, hother⟩ := serialize_block { s with buffers := s.buffers ++ [⟨x, 0⟩] } hres rfl he
    rw [hser]
    simp only [Nat.zero_add] at hbytes ⊢
    exact .opened x heap rfl hsize hbytes hother

/-- A serializer leaves one of its outcomes. -/
theorem serialize_wrote (s : Svc B) (fresh : Option B) (he : Ascends e.padded 0 e.stores) :
    Wrote s fresh e (s.serialize fresh e) := by
  by_cases hsize : dataBufferSize < e.padded
  · have hnone : s.serialize fresh e = (s, false) := by
      rw [serialize, svcReserve, if_pos hsize]
    rw [hnone]
    exact .oversized hsize
  have hle : e.padded ≤ dataBufferSize := by omega
  cases hlast : s.buffers.getLast? with
  | none =>
    -- the first entry since the worker took the buffers: a new buffer has room for it
    refine wrote_acquireNew he hle ?_
    rw [svcReserve, if_neg hsize, current, hlast]
    cases fresh with
    | none => rfl
    | some x =>
      simp only [svcAcquireNew, roomFor, if_neg (by omega : ¬ dataBufferSize < 0 + e.padded)]
  | some cur =>
    obtain ⟨front, hfront⟩ : ∃ front, s.buffers = front ++ [cur] := List.getLast?_eq_some_iff.mp hlast
    by_cases hfull : dataBufferSize < cur.used + e.padded
    · refine wrote_acquireNew he hle ?_
      rw [svcReserve, if_neg hsize, current, hlast]
      simp only [roomFor, if_pos hfull]
    · have hres : s.svcReserve fresh e.padded = (s.takeBlock e.padded cur, some (cur.buf, cur.used)) := by
        rw [svcReserve, if_neg hsize, current, hlast]
        simp only [roomFor, if_neg hfull]
      obtain ⟨heap, hser, hbytes, hother⟩ := serialize_block _ hres hfront he
      rw [hser]
      exact .appended front cur heap hfront (by omega) hbytes hother

/-- The serializer of a descriptor leaves one of the outcomes of its entry. -/
theorem transmit_wrote (s : Svc B) (fresh : Option B) (x : SvcDesc) : Wrote s fresh x.entry (s.transmit fresh x) := by
  have h := serialize_wrote s fresh (ascends_entry x)
  cases x <;> exact h

end Svc

end P8
