import P8.Writer

/-!
# Send: writing a log record

`cp8_log::send`, from the verbosity gate to the parked buffer or the discarded record. A call comes with everything it reads
from outside: its arguments as `va_arg` would give them for any type asked for (`VaArg`), and in `SendEnv` the outcomes of
its buffer acquisitions, the clock, and whether the worker pulls the writer while the call waits for a buffer with the lock
released. Everything else happens under the writer's lock.

The hash of a source line is vendored code and a parameter.
-/

namespace P8

open Bytes Framing

/-! ## Calls -/

/-- What `va_arg` gives at one position of the argument list, for each type it may be asked for. -/
structure VaArg where
  u64 : UInt64
  f64 : UInt64
  ldbl : BitVec 128
  str8 : Option CStr
  str16 : Option (List UInt16)
  str32 : Option (List UInt32)

/-- The parameters of a call of `send`; `attrs` is `ip_attrs` with its `iz_attrs` elements. -/
structure Call where
  level : Level
  module : Option LogMod
  traceId : UInt64
  line : UInt32
  file : CStr
  function : Option CStr
  attrs : Option (List AttrVal)
  format : Option CStr
  args : Nat → VaArg

/-- What a call of `send` meets. -/
structure SendEnv where
  /-- `acquire_buffer(true)`. -/
  waited : Option DataBuf
  /-- The worker pulls the writer while the call waits. -/
  pulled : Bool
  /-- `acquire_buffer(false)` at each rotation of the record. -/
  acquire : Nat → Option DataBuf
  /-- The clock when the buffer is taken, and when the record is begun. -/
  bufTicks : UInt64
  itemTicks : UInt64
  /-- A new log descriptor can be allocated. -/
  descAlloc : Bool

/-! ## Arguments and attributes -/

/-- The bytes of the string an argument points to; a null pointer has none. -/
def LogVarg.strBytes (a : LogVarg) (v : VaArg) : List UInt8 :=
  if a.type = ArgType.ustr16 then (v.str16.getD []).flatMap (fun u => leBytes 2 u.toNat)
  else if a.type = ArgType.ustr32 then (v.str32.getD []).flatMap (fun u => leBytes 4 u.toNat)
  else v.str8.getD []

/-- The bytes of a value of fixed size. -/
def LogVarg.fixedBytes (a : LogVarg) (v : VaArg) : List UInt8 :=
  if a.size = 8 then
    if a.type ≠ ArgType.double then leBytes 8 v.u64.toNat else leBytes 8 v.f64.toNat
  else if a.type = ArgType.ldouble then leBytes 16 v.ldbl.toNat
  else []

/-- The length a string of `n` bytes is written with. -/
def strLen (n : Nat) : UInt16 := if 65535 < n then 65535 else UInt16.ofNat n

namespace Rec

variable (acquire : Nat → Option DataBuf)

/-- A string: its length, then its bytes up to that length. -/
def putString (t : Tally) (src : List UInt8) (r : Rec) : Except Stop Rec := do
  let r ← putBlock acquire t 2 (leBytes 2 (strLen src.length).toNat) r
  copyFragmented acquire t (src.take (strLen src.length).toNat) r

/-- One round of the loop over the descriptor's arguments. -/
def putArg (a : LogVarg) (v : VaArg) (r : Rec) : Except Stop Rec :=
  if a.isStr then putString acquire .args (a.strBytes v) r
  else putBlock acquire .args a.size.toNat (a.fixedBytes v) r

/-- The loop over the descriptor's arguments, from position `i` of the argument list on. -/
def putArgs (va : Nat → VaArg) : Nat → List LogVarg → Rec → Except Stop Rec
  | _, [], r => .ok r
  | i, a :: as, r => do
    let r ← putArg acquire a (va i) r
    putArgs va (i + 1) as r

/-- The bytes of an attribute id. -/
def idBytes (id : Int32) : List UInt8 := leBytes 4 id.toUInt32.toNat

/-- A registered attribute: id and value, by its registered type. -/
def putAttrValue (d : AttrDesc) (a : AttrVal) (r : Rec) : Except Stop Rec :=
  if d.type = .str then do
    let r ← putBlock acquire .attrs 4 (idBytes a.id) r
    putString acquire .attrs (a.str.getD []) r
  else putBlock acquire .attrs 12 (idBytes a.id ++ leBytes 8 a.u64.toNat) r

/-- The attribute cache once it was looked up at an index: synced with the registry where it is too short. -/
def cacheFor (core : Core) (cache : List AttrDesc) (idx : Nat) : List AttrDesc :=
  if cache.length ≤ idx then core.syncAttrCache cache else cache

/-- One round of the loop over the attributes. An attribute that is not registered is skipped. -/
def putAttr (core : Core) (a : AttrVal) (r : Rec) : Except Stop Rec :=
  if a.id < 0 then .ok r
  else
    let idx := Core.attrIndex a.id
    let cache := cacheFor core r.attrCache idx
    match cache[idx]? with
    | none => .ok { r with attrCache := cache }
    | some d => do
      let r ← putAttrValue acquire d a { r with attrCache := cache }
      return { r with attrsCount := r.attrsCount + 1 }

/-- The loop over the attributes. -/
def putAttrs (core : Core) : List AttrVal → Rec → Except Stop Rec
  | [], r => .ok r
  | a :: as, r => do
    let r ← putAttr acquire core a r
    putAttrs core as r

/-- `lz_size` without its padding. -/
def itemSize (r : Rec) : Nat := sizeofLogItemDat + r.argsWritten + r.attrsWritten

/-- The item from behind its header to its last attribute. -/
def putBody (core : Core) (d : LogDesc) (c : Call) (r : Rec) : Except Stop Rec := do
  let r ← putArgs acquire c.args 0 d.args r
  let r := r.modifyHdr (fun h => { h with argsSize := UInt16.ofNat r.argsWritten })
  putAttrs acquire core (c.attrs.getD []) r

end Rec

/-- `lz_pad`: what is missing to the next multiple of 8. -/
def padOf (size : Nat) : Nat := (size + 7) / 8 * 8 - size

/-- The fields of the header that are known at the end of the record. -/
def Rec.complete (r : Rec) : Rec :=
  r.modifyHdr (fun h =>
    { h with attrsCount := r.attrsCount, size := UInt16.ofNat (r.itemSize + padOf r.itemSize) })

/-- The fields of the header of a record that is given up. -/
def Rec.giveUp (r : Rec) : Rec :=
  r.modifyHdr (fun h =>
    { h with
      argsSize := UInt16.ofNat r.argsWritten
      attrsCount := r.attrsCount
      size := UInt16.ofNat r.itemSize })

/-- The header of a buffer at the end of a record. -/
def DataBuf.close (b : DataBuf) (used : Nat) (stopTime : UInt64) : DataBuf :=
  { b with hdr := { b.hdr with size := UInt16.ofNat used, stopTime := stopTime } }

/-! ## The writer between records -/

/-- A `cp8_log`. `attached` says that `mp_core` is not null. -/
structure Log where
  attached : Bool
  fragments : List DataBuf
  buffer : Option DataBuf
  bufUsed : Nat
  threadId : UInt32
  droppedLogs : Nat
  attrCache : List AttrDesc
  descMap : UInt64 → Option LogDesc

/-- How a call of `send` ends: refused before anything is written, dropped because the wait for a buffer ended without one,
abandoned in the middle of the record, or accepted. -/
inductive Outcome where
  | refused | dropped | abandoned | accepted
  deriving DecidableEq, Repr

/-- What `send` returns. -/
def Outcome.result (o : Outcome) : Bool := o == .accepted

/-- A write outside the buffer it is meant for. -/
inductive Fault where
  | outOfBounds
  deriving DecidableEq, Repr

/-- The state a call of `send` leaves, with the buffers a pull took during the call and those given back to the pool. -/
structure Sent where
  log : Log
  core : Core
  delivered : List DataBuf
  released : List DataBuf
  outcome : Outcome

/-- A writer about to write a record, its current buffer and the record's descriptor. -/
structure Prepared where
  log : Log
  core : Core
  delivered : List DataBuf
  desc : LogDesc
  buffer : DataBuf

/-- `P8_LOG_MIN_BUFFER_SPACE`. -/
def logMinBufferSpace : Nat := 32

namespace Log

/-- A writer right after its construction. -/
def init (attached : Bool) (threadId : UInt32) : Log := ⟨attached, [], none, 0, threadId, 0, [], fun _ => none⟩

/-- `cp8_tls_writer::pull`. -/
def pull (l : Log) : Log × List DataBuf :=
  match l.buffer with
  | some b => ({ l with fragments := [], buffer := none, bufUsed := 0 }, l.fragments ++ [b])
  | none => ({ l with fragments := [] }, l.fragments)

/-- `le_min`. -/
def minLevel (l : Log) (core : Core) (c : Call) : Level :=
  match c.module with
  | some m => m.verbosity
  | none => if l.attached then core.defaultVerbosity else 0

/-- `lu_mod_id`. -/
def modId (c : Call) : UInt16 :=
  match c.module with
  | some m => m.id
  | none => 0xFFFF

/-- Park a buffer that cannot take another header. -/
def parkFull (l : Log) : Log :=
  match l.buffer with
  | some b =>
    if sizeSub bufMax l.bufUsed < logMinBufferSpace + sizeofLogItemDat then
      { l with fragments := l.fragments ++ [b], buffer := none }
    else l
  | none => l

/-- The worker's pull while the call waits, if there is one. -/
def pullWhile (pulled : Bool) (l : Log) : Log × List DataBuf := if pulled then l.pull else (l, [])

/-- The current buffer, or a new one waited for; none of them when the wait ends without a buffer. -/
def takeBuffer (env : SendEnv) (l : Log) : Log × List DataBuf × Option DataBuf :=
  match l.buffer with
  | some b => (l, [], some b)
  | none =>
    match l.pullWhile env.pulled, env.waited with
    | (l, delivered), none => ({ l with droppedLogs := l.droppedLogs + 1 }, delivered, none)
    | (l, delivered), some b =>
      let b := b.start packetLogs l.threadId env.bufTicks
      ({ l with buffer := some b, bufUsed := sizeofDataBufHdr }, delivered, some b)

/-- The descriptor of a source line: the writer's, or the core's. -/
def lookupDesc (env : SendEnv) (core : Core) (lineHash : UInt64) (c : Call) (l : Log) : Log × Core × Option LogDesc :=
  match l.descMap lineHash with
  | some d => (l, core, some d)
  | none =>
    match core.resolveLogDesc env.descAlloc lineHash c.file c.line c.function c.format with
    | (core', none) => (l, core', none)
    | (core', some d) =>
      ({ l with descMap := fun h => if h = lineHash then some d else l.descMap h }, core', some d)

/-- The fields a record's header is begun with; the sizes are assigned later. -/
def beginHdr (l : Log) (env : SendEnv) (d : LogDesc) (c : Call) (h : LogItemDat) : LogItemDat :=
  { h with
    hash := d.hash
    timestamp := env.itemTicks
    traceId := c.traceId
    threadId := l.threadId
    level := UInt8.ofNat c.level.val
    processor := 0
    attrsCount := 0
    modId := modId c
    flags := 0 }

/-- The writer at the end of the buffer `b`, before a record's header is written. -/
def beginRecord (l : Log) (env : SendEnv) (b : DataBuf) : Rec :=
  { fragments := l.fragments
    buffer := b
    bufUsed := l.bufUsed
    threadId := l.threadId
    attrCache := l.attrCache
    fragCommit := l.fragments.length
    hdr := l.bufUsed
    timestamp := env.itemTicks
    dst := l.bufUsed + sizeofLogItemDat
    argsWritten := 0
    attrsWritten := 0
    attrsCount := 0 }

/-- The whole record, up to its last attribute. -/
def writeRecord (l : Log) (env : SendEnv) (core : Core) (d : LogDesc) (c : Call) (b : DataBuf) : Except Stop Rec :=
  if l.bufUsed + sizeofLogItemDat ≤ bufMax then
    Rec.putBody env.acquire core d c ((l.beginRecord env b).modifyHdr (l.beginHdr env d c))
  else .error .fault

/-- The end of a written record: patch the header, pad, and park the buffer if hardly any space is left. -/
def finish (l : Log) (r : Rec) : Log :=
  let used := r.dst + padOf r.itemSize
  let b := r.complete.buffer.close used r.timestamp
  if sizeSub bufMax used < logMinBufferSpace then
    { l with fragments := r.complete.fragments ++ [b], buffer := none, bufUsed := 0, attrCache := r.attrCache }
  else { l with fragments := r.complete.fragments, buffer := some b, bufUsed := used, attrCache := r.attrCache }

/-- `lbl_discard`: patch the header, and give the buffers from `lz_frag_commit` on back, the last one first. -/
def discard (l : Log) (r : Rec) : Log × List DataBuf :=
  let r := r.giveUp
  ({ l with
      fragments := r.fragments.take r.fragCommit
      buffer := none
      bufUsed := 0
      attrCache := r.attrCache
      droppedLogs := l.droppedLogs + 1 },
    (r.fragments.drop r.fragCommit).reverse)

/-- `send` up to `lz_frag_commit`: the gate, the buffer and the descriptor. An error is an early return. -/
def prepare (hash : CStr → UInt32 → UInt64) (l : Log) (core : Core) (env : SendEnv) (c : Call) : Except Sent Prepared :=
  if c.level < l.minLevel core c then .error ⟨l, core, [], [], .refused⟩
  else if !l.attached then .error ⟨l, core, [], [], .refused⟩
  else
    match l.parkFull.takeBuffer env with
    | (l, delivered, none) => .error ⟨l, core, delivered, [], .dropped⟩
    | (l, delivered, some b) =>
      match l.lookupDesc env core (hash c.file c.line) c with
      | (l, core, none) => .error ⟨l, core, delivered, [], .refused⟩
      | (l, core, some d) => .ok ⟨l, core, delivered, d, b⟩

/-- `cp8_log::send`. -/
def send (hash : CStr → UInt32 → UInt64) (l : Log) (core : Core) (env : SendEnv) (c : Call) : Except Fault Sent :=
  match l.prepare hash core env c with
  | .error s => .ok s
  | .ok p =>
    match p.log.writeRecord env p.core p.desc c p.buffer with
    | .ok r => .ok ⟨p.log.finish r, p.core, p.delivered, [], .accepted⟩
    | .error (.discard r) => .ok ⟨(p.log.discard r).1, p.core, p.delivered, (p.log.discard r).2, .abandoned⟩
    | .error .fault => .error .outOfBounds

end Log

end P8
