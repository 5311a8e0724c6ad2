import P8.Lib.Bytes

/-!
# Protocol: the wire structures of a data buffer

The constants and structures of `api/p8_protocol.h` that the writers fill in, for the 64-bit little-endian target. A buffer
header is kept as its fields: it takes the first 24 bytes of a buffer and no item is ever written there. An item header is
stored in the buffer's bytes, because it is patched after its item was written and may lie in a buffer already left.
-/

namespace P8

open Bytes

/-- A C string: its bytes before the terminating NUL. -/
abbrev CStr : Type := List UInt8

/-- `cp8_core::mz_data_buffer_size`: the size of a pool buffer. -/
def dataBufferSize : Nat := 8192

/-- `sizeof(s_p8_data_buf_hdr)`. -/
def sizeofDataBufHdr : Nat := 24

/-- `sizeof(s_p8_log_item_dat)`. -/
def sizeofLogItemDat : Nat := 40

/-- `P8_PACKET_LOGS`. -/
def packetLogs : UInt8 := 1

/-- `P8_DATA_FLAG_FRAGMENT`: the buffer's tail data continues in the next buffer for the same thread. -/
def dataFlagFragment : UInt8 := 1

/-- Subtraction of `size_t` values, which wraps. -/
def sizeSub (a b : Nat) : Nat := (a + 2 ^ 64 - b) % 2 ^ 64

/-- A difference that does not wrap. -/
theorem sizeSub_of_le {a b : Nat} (h : b ≤ a) (ha : a < 2 ^ 64) : sizeSub a b = a - b := by
  unfold sizeSub
  omega

/-- `s_p8_data_buf_hdr`, the header of every data buffer. -/
structure DataBufHdr where
  packetType : UInt8
  flags : UInt8
  size : UInt16
  threadId : UInt32
  startTime : UInt64
  stopTime : UInt64

/-! ## Argument types -/

/-- `s_p8_log_varg`: the type of a variable argument and, for a fixed-size one, the size of its slot (for a string, whether
its directive had a width). -/
structure LogVarg where
  type : UInt8
  size : UInt8
  deriving DecidableEq, Repr

namespace ArgType

/-! The codes `P8_LOG_ARG_TYPE_XXX`; an 8-bit character and an 8-bit integer share one. -/

def char : UInt8 := 0x01
def int8 : UInt8 := 0x01
def int16 : UInt8 := 0x03
def int32 : UInt8 := 0x04
def int64 : UInt8 := 0x05
def double : UInt8 := 0x06
def pvoid : UInt8 := 0x07
def ustr16 : UInt8 := 0x08
def stra : UInt8 := 0x09
def ustr8 : UInt8 := 0x0A
def ustr32 : UInt8 := 0x0B
def char32 : UInt8 := 0x0C
def intmax : UInt8 := 0x0D
def ldouble : UInt8 := 0x0E

end ArgType

/-- The argument is one of the four string types. -/
def LogVarg.isStr (a : LogVarg) : Bool :=
  a.type == ArgType.ustr8 || a.type == ArgType.stra || a.type == ArgType.ustr16 || a.type == ArgType.ustr32

/-- `P8_SIZE_OF_ARG`: the size of an argument's slot, its size rounded up to 8 bytes. -/
def sizeOfArg (size : Nat) : UInt8 := UInt8.ofNat ((size + 7) / 8 * 8)

/-! ## The item header -/

/-- `s_p8_log_item_dat`, the header of a log record; `tail` is the two bytes of padding behind the last field. -/
structure LogItemDat where
  hash : UInt64
  timestamp : UInt64
  traceId : UInt64
  threadId : UInt32
  level : UInt8
  processor : UInt8
  argsSize : UInt16
  size : UInt16
  modId : UInt16
  attrsCount : UInt8
  flags : UInt8
  tail : UInt16

namespace LogItemDat

/-- The 40 bytes of an item header. -/
def encode (h : LogItemDat) : List UInt8 :=
  leBytes 8 h.hash.toNat ++ leBytes 8 h.timestamp.toNat ++ leBytes 8 h.traceId.toNat ++ leBytes 4 h.threadId.toNat ++
    leBytes 1 h.level.toNat ++ leBytes 1 h.processor.toNat ++ leBytes 2 h.argsSize.toNat ++ leBytes 2 h.size.toNat ++
    leBytes 2 h.modId.toNat ++ leBytes 1 h.attrsCount.toNat ++ leBytes 1 h.flags.toNat ++ leBytes 2 h.tail.toNat

/-- The number stored in the `n` bytes at offset `off`. -/
def field (bs : List UInt8) (off n : Nat) : Nat := leVal ((bs.drop off).take n)

/-- An item header read from the bytes it lies on. -/
def decode (bs : List UInt8) : LogItemDat where
  hash := UInt64.ofNat (field bs 0 8)
  timestamp := UInt64.ofNat (field bs 8 8)
  traceId := UInt64.ofNat (field bs 16 8)
  threadId := UInt32.ofNat (field bs 24 4)
  level := UInt8.ofNat (field bs 28 1)
  processor := UInt8.ofNat (field bs 29 1)
  argsSize := UInt16.ofNat (field bs 30 2)
  size := UInt16.ofNat (field bs 32 2)
  modId := UInt16.ofNat (field bs 34 2)
  attrsCount := UInt8.ofNat (field bs 36 1)
  flags := UInt8.ofNat (field bs 37 1)
  tail := UInt16.ofNat (field bs 38 2)

@[simp] theorem length_encode (h : LogItemDat) : h.encode.length = sizeofLogItemDat := by
  simp [encode, sizeofLogItemDat]

/-- A field behind a run of bytes does not see them. -/
theorem field_skip (pre bs : List UInt8) (off n : Nat) (h : pre.length ≤ off) :
    field (pre ++ bs) off n = field bs (off - pre.length) n := by
  rw [field, field, List.drop_append, List.drop_of_length_le h, List.nil_append]

/-- A field at the front is the number its own bytes spell. -/
theorem field_front (mid post : List UInt8) (n : Nat) (h : mid.length = n) : field (mid ++ post) 0 n = leVal mid := by
  rw [field, List.drop_zero, List.take_left' h]

/-- Eight bytes, read and stored, are as they were. -/
theorem ofNat64_leVal (x : UInt64) : UInt64.ofNat (leVal (leBytes 8 x.toNat)) = x := by
  rw [leVal_leBytes_of_lt (by simpa using x.toNat_lt), UInt64.ofNat_toNat]

theorem ofNat32_leVal (x : UInt32) : UInt32.ofNat (leVal (leBytes 4 x.toNat)) = x := by
  rw [leVal_leBytes_of_lt (by simpa using x.toNat_lt), UInt32.ofNat_toNat]

theorem ofNat16_leVal (x : UInt16) : UInt16.ofNat (leVal (leBytes 2 x.toNat)) = x := by
  rw [leVal_leBytes_of_lt (by simpa using x.toNat_lt), UInt16.ofNat_toNat]

theorem ofNat8_leVal (x : UInt8) : UInt8.ofNat (leVal (leBytes 1 x.toNat)) = x := by
  rw [leVal_leBytes_of_lt (by simpa using x.toNat_lt), UInt8.ofNat_toNat]

/-- A header is read back from its bytes, whatever follows them. -/
theorem decode_encode (h : LogItemDat) (rest : List UInt8) : decode (h.encode ++ rest) = h := by
  simp [decode, encode, field_skip, field_front, ofNat64_leVal, ofNat32_leVal, ofNat16_leVal, ofNat8_leVal]

end LogItemDat

end P8
