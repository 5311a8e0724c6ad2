import P8.Lib.SelfSized
import P8.Log.Send

/-!
# Emit: writing a metric sample

`cp8_mtk::emit`, and `pull` as a metric writer has it. A sample has a fixed size, so a record is never continued in another
buffer: a buffer that cannot take one more is parked, before a write or behind it, and the write itself is always a whole
sample. As in `send`, the wait for a buffer is made with the lock released, and the worker may pull the writer meanwhile.

A value is the 64 bits of a `double`.
-/

namespace P8

open Bytes

/-- `P8_PACKET_METRICS`. -/
def packetMetrics : UInt8 := 3

/-- `sizeof(s_p8_mtk_item_dat)`. -/
def sizeofMtkItemDat : Nat := 24

/-- `s_p8_mtk_item_dat`, a metric sample. -/
structure MtkItemDat where
  timestamp : UInt64
  value : UInt64
  id : Int32
  size : UInt16
  flags : UInt8
  attrsCount : UInt8

namespace MtkItemDat

/-- The 24 bytes of a sample. -/
def encode (h : MtkItemDat) : List UInt8 :=
  leBytes 8 h.timestamp.toNat ++ leBytes 8 h.value.toNat ++ leBytes 4 h.id.toUInt32.toNat ++ leBytes 2 h.size.toNat ++
    leBytes 1 h.flags.toNat ++ leBytes 1 h.attrsCount.toNat

/-- A sample read from the bytes it lies on. -/
def decode (bs : List UInt8) : MtkItemDat where
  timestamp := UInt64.ofNat (LogItemDat.field bs 0 8)
  value := UInt64.ofNat (LogItemDat.field bs 8 8)
  id := (UInt32.ofNat (LogItemDat.field bs 16 4)).toInt32
  size := UInt16.ofNat (LogItemDat.field bs 20 2)
  flags := UInt8.ofNat (LogItemDat.field bs 22 1)
  attrsCount := UInt8.ofNat (LogItemDat.field bs 23 1)

@[simp] theorem length_encode (h : MtkItemDat) : h.encode.length = sizeofMtkItemDat := by
  simp [encode, sizeofMtkItemDat]

/-- A sample is read back from its bytes, whatever follows them. -/
theorem decode_encode (h : MtkItemDat) (rest : List UInt8) : decode (h.encode ++ rest) = h := by
  simp [decode, encode, LogItemDat.field_skip, LogItemDat.field_front, LogItemDat.ofNat64_leVal,
    LogItemDat.ofNat32_leVal, LogItemDat.ofNat16_leVal, LogItemDat.ofNat8_leVal, Int32.toInt32_toUInt32]

end MtkItemDat

/-! ## The writer -/

/-- A `cp8_mtk`. `attached` says that `mp_core` is not null. -/
structure Mtk where
  attached : Bool
  fragments : List DataBuf
  buffer : Option DataBuf
  bufUsed : Nat
  threadId : UInt32
  droppedMetrics : Nat

/-- What a call of `emit` meets. -/
structure EmitEnv where
  /-- `get_mtk_count()`. -/
  mtkCount : UInt32
  /-- `acquire_buffer(true)`. -/
  waited : Option DataBuf
  /-- The worker pulls the writer while the call waits. -/
  pulled : Bool
  /-- The clock when the buffer is taken, and when the sample is written. -/
  bufTicks : UInt64
  itemTicks : UInt64

/-- The state a call of `emit` leaves, the buffers a pull took during the call, and what the call returns. -/
structure Emitted where
  mtk : Mtk
  delivered : List DataBuf
  result : Bool

namespace Mtk

/-- A writer right after its construction. -/
def init (attached : Bool) (threadId : UInt32) : Mtk := ⟨attached, [], none, 0, threadId, 0⟩

/-- The buffers of a writer, in delivery order. -/
def bufs (m : Mtk) : List DataBuf := m.fragments ++ m.buffer.toList

/-- `cp8_tls_writer::pull`. -/
def pull (m : Mtk) : Mtk × List DataBuf :=
  match m.buffer with
  | some b => ({ m with fragments := [], buffer := none, bufUsed := 0 }, m.fragments ++ [b])
  | none => ({ m with fragments := [] }, m.fragments)

/-- The core knows the metric: the writer has one, and the id is not negative and below the count. -/
def known (m : Mtk) (env : EmitEnv) (id : Int32) : Bool := m.attached && !(id < 0 || env.mtkCount ≤ id.toUInt32)

/-- Park a buffer that cannot take another sample, before a write. -/
def parkFull (m : Mtk) : Mtk :=
  match m.buffer with
  | some b =>
    if sizeSub bufMax m.bufUsed < sizeofMtkItemDat then { m with fragments := m.fragments ++ [b], buffer := none } else m
  | none => m

/-- The worker's pull while the call waits, if there is one. -/
def pullWhile (pulled : Bool) (m : Mtk) : Mtk × List DataBuf := if pulled then m.pull else (m, [])

/-- The current buffer, or a new one waited for; none of them when the wait ends without a buffer. -/
def takeBuffer (env : EmitEnv) (m : Mtk) : Mtk × List DataBuf × Option DataBuf :=
  match m.buffer with
  | some b => (m, [], some b)
  | none =>
    match m.pullWhile env.pulled, env.waited with
    | (m, delivered), none => ({ m with droppedMetrics := m.droppedMetrics + 1 }, delivered, none)
    | (m, delivered), some b =>
      let b := b.start packetMetrics m.threadId env.bufTicks
      ({ m with buffer := some b, bufUsed := sizeofDataBufHdr }, delivered, some b)

/-- The sample a call writes. -/
def item (env : EmitEnv) (id : Int32) (value : UInt64) : MtkItemDat where
  timestamp := env.itemTicks
  value := value
  id := id
  size := UInt16.ofNat sizeofMtkItemDat
  flags := 0
  attrsCount := 0

/-- Write a sample behind the last one, and park the buffer if it cannot take another. -/
def put (m : Mtk) (b : DataBuf) (h : MtkItemDat) : Mtk :=
  let used := m.bufUsed + sizeofMtkItemDat
  let b := { b with mem := b.mem.write m.bufUsed h.encode }
  let b := b.close used h.timestamp
  if sizeSub bufMax used < sizeofMtkItemDat then
    { m with fragments := m.fragments ++ [b], buffer := none, bufUsed := 0 }
  else { m with buffer := some b, bufUsed := used }

/-- `cp8_mtk::emit`. -/
def emit (m : Mtk) (env : EmitEnv) (id : Int32) (value : UInt64) : Except Fault Emitted :=
  if !m.known env id then .ok ⟨m, [], false⟩
  else
    match m.parkFull.takeBuffer env with
    | (m, delivered, none) => .ok ⟨m, delivered, false⟩
    | (m, delivered, some b) =>
      if m.bufUsed + sizeofMtkItemDat ≤ bufMax then .ok ⟨m.put b (item env id value), delivered, true⟩
      else .error .outOfBounds

end Mtk

/-! ## The samples of a buffer -/

/-- The size in a sample's header. -/
def mtkItemSize (bs : List UInt8) : Nat := LogItemDat.field bs 20 2

/-- The samples of a buffer: its bytes up to the header's size, cut by the size in each sample. -/
def DataBuf.samples (b : DataBuf) : Option (List MtkItemDat) :=
  (SelfSized.cut mtkItemSize sizeofMtkItemDat (b.hdr.size.toNat - sizeofDataBufHdr)
    (b.mem.read sizeofDataBufHdr (b.hdr.size.toNat - sizeofDataBufHdr))).map (List.map MtkItemDat.decode)

/-- The bytes a buffer of `n` samples takes. -/
def mtkUsed (n : Nat) : Nat := sizeofDataBufHdr + sizeofMtkItemDat * n

/-- A buffer that holds the given samples and nothing else. -/
structure DataBuf.Holds (b : DataBuf) (items : List MtkItemDat) : Prop where
  size_eq : b.hdr.size.toNat = mtkUsed items.length
  fits : mtkUsed items.length ≤ bufMax
  bytes : b.mem.read sizeofDataBufHdr (sizeofMtkItemDat * items.length) = items.flatMap MtkItemDat.encode
  sizes : ∀ it ∈ items, it.size = UInt16.ofNat sizeofMtkItemDat

/-- Samples take 24 bytes each. -/
theorem length_flatMap_encode (items : List MtkItemDat) :
    (items.flatMap MtkItemDat.encode).length = sizeofMtkItemDat * items.length := by
  induction items with
  | nil => rfl
  | cons it items ih =>
    rw [List.flatMap_cons, List.length_append, ih, MtkItemDat.length_encode, List.length_cons, Nat.mul_succ, Nat.add_comm]

/-- A sample says its own size, whatever follows it. -/
theorem MtkItemDat.says {it : MtkItemDat} (h : it.size = UInt16.ofNat sizeofMtkItemDat) :
    SelfSized.Says mtkItemSize sizeofMtkItemDat it.encode := by
  refine ⟨by rw [length_encode], ?_⟩
  intro rest
  have hsize : leVal (leBytes 2 it.size.toNat) = sizeofMtkItemDat := by
    rw [h]
    decide
  simpa [mtkItemSize, encode, LogItemDat.field_skip, LogItemDat.field_front, sizeofMtkItemDat] using hsize

/-- A reader finds in a buffer exactly the samples it holds. -/
theorem DataBuf.Holds.samples_eq {b : DataBuf} {items : List MtkItemDat} (h : b.Holds items) :
    b.samples = some items := by
  have hlen : b.hdr.size.toNat - sizeofDataBufHdr = sizeofMtkItemDat * items.length := by
    rw [h.size_eq, mtkUsed, Nat.add_sub_cancel_left]
  have hsays : ∀ x ∈ items.map MtkItemDat.encode, SelfSized.Says mtkItemSize sizeofMtkItemDat x := by
    intro x hx
    obtain ⟨it, hit, rfl⟩ := List.mem_map.mp hx
    exact MtkItemDat.says (h.sizes it hit)
  have hdecode : (items.map MtkItemDat.encode).map MtkItemDat.decode = items := by
    rw [List.map_map]
    refine (List.map_congr_left fun it _ => ?_).trans (List.map_id items)
    simpa using it.decode_encode []
  rw [DataBuf.samples, hlen, h.bytes, List.flatMap_def,
    SelfSized.cut_flatten (by decide) hsays (by rw [← List.flatMap_def, length_flatMap_encode]), Option.map_some, hdecode]

/-- A sample written behind those a buffer holds is one more of them. -/
theorem DataBuf.Holds.write {b : DataBuf} {items : List MtkItemDat} (h : b.Holds items) {it : MtkItemDat}
    (hsize : it.size = UInt16.ofNat sizeofMtkItemDat) (hroom : mtkUsed (items.length + 1) ≤ bufMax) (stopTime : UInt64) :
    ({ b with mem := b.mem.write (mtkUsed items.length) it.encode }.close (mtkUsed (items.length + 1)) stopTime).Holds
      (items ++ [it]) := by
  have hlt : mtkUsed (items.length + 1) < 65536 := Nat.lt_of_le_of_lt hroom (by decide)
  refine ⟨?_, ?_, ?_, ?_⟩
  · rw [List.length_append, List.length_singleton]
    simpa [DataBuf.close] using Nat.mod_eq_of_lt hlt
  · rw [List.length_append, List.length_singleton]
    exact hroom
  · have hread := Mem.read_write_append b.mem sizeofDataBufHdr (sizeofMtkItemDat * items.length) it.encode
    rw [h.bytes, MtkItemDat.length_encode] at hread
    rw [List.length_append, List.length_singleton, List.flatMap_append, List.flatMap_singleton]
    exact hread
  · intro x hx
    rcases List.mem_append.mp hx with hx | hx
    · exact h.sizes x hx
    · rw [List.mem_singleton.mp hx]
      exact hsize

/-- A buffer just taken into use holds no samples. -/
theorem DataBuf.holds_start (b : DataBuf) (threadId : UInt32) (ticks : UInt64) :
    (b.start packetMetrics threadId ticks).Holds [] :=
  ⟨rfl, by decide, rfl, by simp⟩

end P8
