import P8.Core.Hello
import P8.Service.Buffers
import P8.Steps

/-!
# File: the file sink

`cp8_sink_file` writes a batch of buffers with scatter/gather writes of at most `mz_max_iov` entries each, from an array it keeps
and grows. `kit::c_file` is seen through what the sink calls of it (`FileOps`), and `FileOps.Appends` is what it promises: a
`write_v` appends some first part of what it is given, and says how much. A buffer is given by the memory its pointer points to,
and what the array holds beyond the entries stored in it is whatever the memory there holds.

Bytes are counted with numbers that do not wrap.
-/

namespace P8

open Bytes

/-- `cp8_sink_file::mz_max_iov`. -/
def maxIov : Nat := 1024

/-- `kit::s_iovec`. -/
structure Iovec where
  data : Mem
  size : Nat

/-- The bytes an entry stands for. -/
def Iovec.bytes (e : Iovec) : List UInt8 := e.data.read 0 e.size

@[simp] theorem Iovec.length_bytes (e : Iovec) : e.bytes.length = e.size := by simp [Iovec.bytes]

/-- The size of a run of entries. -/
def totalSize (entries : List Iovec) : Nat := (entries.map Iovec.size).sum

/-- The bytes of a run of entries. -/
def payload (entries : List Iovec) : List UInt8 := entries.flatMap Iovec.bytes

@[simp] theorem totalSize_nil : totalSize [] = 0 := rfl

@[simp] theorem totalSize_cons (e : Iovec) (es : List Iovec) : totalSize (e :: es) = e.size + totalSize es := by
  simp [totalSize]

@[simp] theorem totalSize_append (as bs : List Iovec) : totalSize (as ++ bs) = totalSize as + totalSize bs := by
  simp [totalSize]

@[simp] theorem payload_nil : payload [] = [] := rfl

@[simp] theorem payload_append (as bs : List Iovec) : payload (as ++ bs) = payload as ++ payload bs := by simp [payload]

@[simp] theorem length_payload (entries : List Iovec) : (payload entries).length = totalSize entries := by
  simp [payload, totalSize, List.length_flatMap]

/-! ## The file -/

/-- What the sink calls of `kit::c_file`. -/
structure FileOps (F : Type) where
  isOpen : F → Bool
  writeV : F → List Iovec → F × Nat

/-- A call of `write_v` and its result. -/
structure Write where
  entries : List Iovec
  count : Nat

/-- What a call of `write_v` has appended. -/
def Write.appended (x : Write) : List UInt8 := (payload x.entries).take x.count

/-- Everything is written. -/
def Write.Complete (x : Write) : Prop := x.count = totalSize x.entries

/-- A complete write appends all its entries. -/
theorem Write.Complete.appended_eq {x : Write} (h : x.Complete) : x.appended = payload x.entries := by
  rw [Write.appended, h, ← length_payload, List.take_length]

/-- What is promised of a file, for calls with as many entries as `write_v` accepts; `writes` are the calls made on it. -/
structure FileOps.Appends {F : Type} (ops : FileOps F) (contents : F → List UInt8) (writes : F → List Write) : Prop where
  count_le : ∀ f es, es.length ≤ maxIov → (ops.writeV f es).2 ≤ totalSize es
  writes_eq : ∀ f es, es.length ≤ maxIov → writes (ops.writeV f es).1 = writes f ++ [⟨es, (ops.writeV f es).2⟩]
  contents_eq : ∀ f es, es.length ≤ maxIov →
    contents (ops.writeV f es).1 = contents f ++ (payload es).take (ops.writeV f es).2

/-! ## The sink -/

/-- Which of the two files. -/
inductive OutFile where
  | svc | data
  deriving DecidableEq

/-- `cp8_sink_file`: the files, the array `mp_iov` with its capacity, and the counters. -/
structure SinkFile (F : Type) where
  svcFile : F
  dataFile : F
  iov : Nat → Iovec
  iovCap : Nat
  bytesWritten : Nat
  bytesDropped : Nat
  writeErrors : Nat

/-- `s_p8_data_buf_hdr::mu_size` of the header a buffer begins with. -/
def muSize (buf : Mem) : Nat := leVal (buf.read 2 2)

namespace SinkFile

variable {F : Type}

def file (s : SinkFile F) : OutFile → F
  | .svc => s.svcFile
  | .data => s.dataFile

def setFile (s : SinkFile F) (w : OutFile) (f : F) : SinkFile F :=
  match w with
  | .svc => { s with svcFile := f }
  | .data => { s with dataFile := f }

/-- `cp8_sink_file::grow_iov`; `grown` says whether `realloc` gives the memory. -/
def growIov (s : SinkFile F) (grown : Bool) (needed : Nat) : SinkFile F × Bool :=
  if needed ≤ s.iovCap then (s, true)
  else if grown then ({ s with iovCap := needed }, true)
  else (s, false)

/-- `cp8_sink_file::drop_batch`. -/
def dropBatch (s : SinkFile F) (total : Nat) : SinkFile F × Bool :=
  if total = 0 then (s, true)
  else ({ s with bytesDropped := s.bytesDropped + total, writeErrors := s.writeErrors + 1 }, false)

/-- One round of the loop of `write_entries`. The result of `write_v` is at most the size of the chunk. -/
def writeChunk (ops : FileOps F) (w : OutFile) (s : SinkFile F) (ok : Bool) (chunk : List Iovec) : SinkFile F × Bool :=
  let chunkSize := totalSize chunk
  let (f, written) := ops.writeV (s.file w) chunk
  let s := { s.setFile w f with bytesWritten := s.bytesWritten + written }
  if written ≠ chunkSize then
    ({ s with bytesDropped := s.bytesDropped + (chunkSize - written), writeErrors := s.writeErrors + 1 }, false)
  else (s, ok)

/-- The loop of `write_entries`. -/
def writeChunks (ops : FileOps F) (w : OutFile) (s : SinkFile F) (ok : Bool) (entries : List Iovec) : SinkFile F × Bool :=
  if entries = [] then (s, ok)
  else
    let (s, ok) := s.writeChunk ops w ok (entries.take maxIov)
    s.writeChunks ops w ok (entries.drop maxIov)
termination_by entries.length
decreasing_by
  rename_i h
  have hpos := List.length_pos_iff.mpr h
  rw [List.length_drop, maxIov]
  omega

/-- `cp8_sink_file::write_entries`. -/
def writeEntries (ops : FileOps F) (w : OutFile) (s : SinkFile F) (entries : List Iovec) (total : Nat) : SinkFile F × Bool :=
  if total = 0 then (s, true)
  else if ops.isOpen (s.file w) then s.writeChunks ops w true entries
  else s.dropBatch total

/-- A store into the array. -/
def storeIov (s : SinkFile F) (i : Nat) (e : Iovec) : Except Halt (SinkFile F) :=
  if i < s.iovCap then .ok { s with iov := Function.update s.iov i e } else .error .badAccess

/-- The loop that fills the array from entry `i` on and adds up the sizes. -/
def fillIov (s : SinkFile F) (i total : Nat) : List Iovec → Except Halt (SinkFile F × Nat)
  | [] => .ok (s, total)
  | e :: es => do
    let s ← s.storeIov i e
    s.fillIov (i + 1) (total + e.size) es

/-- The first entries of the array. -/
def readIov (s : SinkFile F) (count : Nat) : List Iovec := (List.range count).map s.iov

/-- `write_data` and `write_service`, for the entries their loops make of the buffers. -/
def writeBatch (ops : FileOps F) (w : OutFile) (s : SinkFile F) (grown : Bool) (entries : List Iovec) :
    Except Halt (SinkFile F × Bool) :=
  if entries.length = 0 then .ok (s, true)
  else
    match s.growIov grown entries.length with
    | (s, false) => .ok (s.dropBatch (totalSize entries))
    | (s, true) => do
      let (s, total) ← s.fillIov 0 0 entries
      .ok (s.writeEntries ops w (s.readIov entries.length) total)

/-- `cp8_sink_file::write_hello`. -/
def writeHello (ops : FileOps F) (s : SinkFile F) (hdr : Mem) : SinkFile F × Bool :=
  s.writeEntries ops .data [⟨hdr, sizeofHello⟩] sizeofHello

/-- `cp8_sink_file::write_data`. -/
def writeData (ops : FileOps F) (s : SinkFile F) (grown : Bool) (bufs : List Mem) : Except Halt (SinkFile F × Bool) :=
  s.writeBatch ops .data grown (bufs.map fun buf => ⟨buf, muSize buf⟩)

/-- `cp8_sink_file::write_service`. -/
def writeService (ops : FileOps F) (s : SinkFile F) (grown : Bool) (bufs : List (SvcBuf Mem)) :
    Except Halt (SinkFile F × Bool) :=
  s.writeBatch ops .svc grown (bufs.map fun b => ⟨b.buf, b.used⟩)

/-- The other file stays as it is. -/
theorem file_setFile_of_ne (s : SinkFile F) {w v : OutFile} (h : v ≠ w) (f : F) : (s.setFile w f).file v = s.file v := by
  cases w <;> cases v <;> first | rfl | exact absurd rfl h

@[simp] theorem setFile_counters (s : SinkFile F) (w : OutFile) (f : F) :
    (s.setFile w f).bytesWritten = s.bytesWritten ∧ (s.setFile w f).bytesDropped = s.bytesDropped ∧
      (s.setFile w f).writeErrors = s.writeErrors := by
  cases w <;> exact ⟨rfl, rfl, rfl⟩

/-! ## What a call does -/

variable {ops : FileOps F} {contents : F → List UInt8} {writes : F → List Write}

variable (contents writes) in
/-- What has become of a sink that was given `total` bytes for a file and has made the writes `new`. -/
structure Wrote (w : OutFile) (s s' : SinkFile F) (total : Nat) (new : List Write) : Prop where
  balance : s'.bytesWritten + s'.bytesDropped = s.bytesWritten + s.bytesDropped + total
  written_le : s.bytesWritten ≤ s'.bytesWritten
  dropped_le : s.bytesDropped ≤ s'.bytesDropped
  errors_le : s.writeErrors ≤ s'.writeErrors
  errors_iff : s'.writeErrors = s.writeErrors ↔ s'.bytesDropped = s.bytesDropped
  writes_eq : writes (s'.file w) = writes (s.file w) ++ new
  contents_eq : contents (s'.file w) = contents (s.file w) ++ new.flatMap Write.appended
  nonempty : ∀ x ∈ new, x.entries ≠ []
  count_le : ∀ x ∈ new, x.count ≤ totalSize x.entries
  other : ∀ v, v ≠ w → s'.file v = s.file v

variable {w : OutFile} {s s' s'' : SinkFile F} {total total' : Nat} {new new' : List Write}

theorem Wrote.refl (w : OutFile) (s : SinkFile F) : Wrote contents writes w s s 0 [] where
  balance := rfl
  written_le := le_rfl
  dropped_le := le_rfl
  errors_le := le_rfl
  errors_iff := ⟨fun _ => rfl, fun _ => rfl⟩
  writes_eq := by simp
  contents_eq := by simp
  nonempty := by simp
  count_le := by simp
  other := fun _ _ => rfl

/-- Two calls, one behind the other. -/
theorem Wrote.trans (h : Wrote contents writes w s s' total new) (h' : Wrote contents writes w s' s'' total' new') :
    Wrote contents writes w s s'' (total + total') (new ++ new') := by
  have hfirst := h.errors_iff
  have hsecond := h'.errors_iff
  have hbal := h.balance
  have hbal' := h'.balance
  have hdropped := h.dropped_le
  have hdropped' := h'.dropped_le
  have herrors := h.errors_le
  have herrors' := h'.errors_le
  refine ⟨by omega, Nat.le_trans h.written_le h'.written_le, by omega, by omega, by omega, ?_, ?_, ?_, ?_, ?_⟩
  · rw [h'.writes_eq, h.writes_eq, List.append_assoc]
  · rw [h'.contents_eq, h.contents_eq, List.append_assoc, List.flatMap_append]
  · intro x hx
    rcases List.mem_append.mp hx with hx | hx
    · exact h.nonempty x hx
    · exact h'.nonempty x hx
  · intro x hx
    rcases List.mem_append.mp hx with hx | hx
    · exact h.count_le x hx
    · exact h'.count_le x hx
  · intro v hv
    rw [h'.other v hv, h.other v hv]

/-- A batch that is dropped is accounted for, and nothing is written. -/
theorem dropBatch_spec (contents : F → List UInt8) (writes : F → List Write) (w : OutFile) (s : SinkFile F) (total : Nat) :
    Wrote contents writes w s (s.dropBatch total).1 total [] ∧
      ((s.dropBatch total).2 = true ↔ (s.dropBatch total).1.bytesDropped = s.bytesDropped) := by
  unfold dropBatch
  split
  · rename_i hzero
    subst hzero
    exact ⟨Wrote.refl w s, by simp⟩
  · rename_i hpos
    refine ⟨⟨?_, le_rfl, ?_, ?_, ?_, ?_, ?_, ?_, ?_, ?_⟩, by simp [hpos]⟩
    · simp [Nat.add_assoc]
    · simp
    · simp
    · simp [hpos]
    · cases w <;> simp [file]
    · cases w <;> simp [file]
    · simp
    · simp
    · intro v _
      cases v <;> rfl

/-- One call of `write_v`, with its bytes counted. -/
theorem Wrote.one (h : ops.Appends contents writes) {chunk : List Iovec} (hne : chunk ≠ []) (hlen : chunk.length ≤ maxIov)
    {count : Nat} (hcount : (ops.writeV (s.file w) chunk).2 = count) (hfile : s'.file w = (ops.writeV (s.file w) chunk).1)
    (hother : ∀ v, v ≠ w → s'.file v = s.file v) (hwritten : s'.bytesWritten = s.bytesWritten + count)
    (hdropped : s'.bytesDropped = s.bytesDropped + (totalSize chunk - count))
    (herrors : s'.writeErrors = s.writeErrors + if count ≠ totalSize chunk then 1 else 0) :
    Wrote contents writes w s s' (totalSize chunk) [⟨chunk, count⟩] := by
  have hle := h.count_le (s.file w) chunk hlen
  rw [hcount] at hle
  refine ⟨by omega, by omega, by omega, by omega, ?_, ?_, ?_, ?_, ?_, hother⟩
  · split at herrors
    · omega
    · omega
  · rw [hfile, h.writes_eq _ _ hlen, hcount]
  · rw [hfile, h.contents_eq _ _ hlen, hcount]
    simp [Write.appended]
  · simpa using hne
  · simpa using hle

/-- One round writes its chunk, as far as the file takes it. -/
theorem writeChunk_spec (h : ops.Appends contents writes) (w : OutFile) (s : SinkFile F) (ok : Bool) {chunk : List Iovec}
    (hne : chunk ≠ []) (hlen : chunk.length ≤ maxIov) :
    Wrote contents writes w s (s.writeChunk ops w ok chunk).1 (totalSize chunk) [⟨chunk, (ops.writeV (s.file w) chunk).2⟩] ∧
      ((s.writeChunk ops w ok chunk).2 = true ↔
        ok = true ∧ (s.writeChunk ops w ok chunk).1.bytesDropped = s.bytesDropped) := by
  have hle := h.count_le (s.file w) chunk hlen
  rcases hr : ops.writeV (s.file w) chunk with ⟨f, count⟩
  have hfile : f = (ops.writeV (s.file w) chunk).1 := by rw [hr]
  have hcount : (ops.writeV (s.file w) chunk).2 = count := by rw [hr]
  have hother (v : OutFile) (hv : v ≠ w) : (s.setFile w f).file v = s.file v := s.file_setFile_of_ne hv f
  obtain ⟨hwritten, hdropped, herrors⟩ := s.setFile_counters w f
  rw [hcount] at hle
  simp only [writeChunk, hr]
  split
  · rename_i hshort
    refine ⟨Wrote.one h hne hlen hcount ?_ (fun v hv => ?_) rfl ?_ ?_, ?_⟩
    · exact (by cases w <;> rfl : _ = f).trans hfile
    · exact (by cases v <;> rfl : _ = (s.setFile w f).file v).trans (hother v hv)
    · rw [hdropped]
    · rw [herrors, if_pos hshort]
    · simp only [hdropped, Bool.false_eq_true, false_iff, not_and]
      intro _
      omega
  · rename_i hfull
    refine ⟨Wrote.one h hne hlen hcount ?_ (fun v hv => ?_) rfl ?_ ?_, ?_⟩
    · exact (by cases w <;> rfl : _ = f).trans hfile
    · exact (by cases v <;> rfl : _ = (s.setFile w f).file v).trans (hother v hv)
    · show (s.setFile w f).bytesDropped = _
      omega
    · rw [if_neg hfull, Nat.add_zero, ← herrors]
    · simp

/-- The loop writes all entries in chunks, one after the other. -/
theorem writeChunks_spec (h : ops.Appends contents writes) (w : OutFile) (s : SinkFile F) (ok : Bool)
    (entries : List Iovec) :
    ∃ new, Wrote contents writes w s (s.writeChunks ops w ok entries).1 (totalSize entries) new ∧
      new.flatMap Write.entries = entries ∧
      ((s.writeChunks ops w ok entries).2 = true ↔
        ok = true ∧ (s.writeChunks ops w ok entries).1.bytesDropped = s.bytesDropped) := by
  fun_induction writeChunks ops w s ok entries with
  | case1 s ok => exact ⟨[], Wrote.refl w s, rfl, by simp⟩
  | case2 s ok entries hne s₁ ok₁ hs₁ ih =>
    obtain ⟨new, hwrote, hentries, hok⟩ := ih
    have hlen : (entries.take maxIov).length ≤ maxIov := List.length_take_le maxIov entries
    have hsome : entries.take maxIov ≠ [] := by simp [hne, maxIov]
    obtain ⟨hfirst, hok₁⟩ := writeChunk_spec h w s ok hsome hlen
    rw [hs₁] at hfirst hok₁
    dsimp only at hfirst hok₁
    have htotal : totalSize entries = totalSize (entries.take maxIov) + totalSize (entries.drop maxIov) := by
      rw [← totalSize_append, List.take_append_drop]
    refine ⟨_, htotal ▸ hfirst.trans hwrote, ?_, ?_⟩
    · simp [hentries]
    · rw [hok, hok₁]
      have hle := hfirst.dropped_le
      have hle' := hwrote.dropped_le
      constructor
      · rintro ⟨⟨hok, heq⟩, heq'⟩
        exact ⟨hok, by omega⟩
      · rintro ⟨hok, heq⟩
        exact ⟨⟨hok, by omega⟩, by omega⟩

/-- All entries are given to the file if it is open. -/
theorem writeEntries_spec (h : ops.Appends contents writes) (w : OutFile) (s : SinkFile F) (entries : List Iovec) :
    ∃ new, Wrote contents writes w s (s.writeEntries ops w entries (totalSize entries)).1 (totalSize entries) new ∧
      (ops.isOpen (s.file w) = true → totalSize entries ≠ 0 → new.flatMap Write.entries = entries) ∧
      (new = [] ∨ new.flatMap Write.entries = entries) ∧
      ((s.writeEntries ops w entries (totalSize entries)).2 = true ↔
        (s.writeEntries ops w entries (totalSize entries)).1.bytesDropped = s.bytesDropped) := by
  unfold writeEntries
  split
  · rename_i hzero
    exact ⟨[], hzero ▸ Wrote.refl w s, fun _ hne => absurd hzero hne, Or.inl rfl, by simp⟩
  · split
    · obtain ⟨new, hwrote, hentries, hok⟩ := writeChunks_spec h w s true entries
      exact ⟨new, hwrote, fun _ _ => hentries, Or.inr hentries, by simpa using hok⟩
    · rename_i hclosed
      obtain ⟨hwrote, hok⟩ := dropBatch_spec contents writes w s (totalSize entries)
      exact ⟨[], hwrote, fun hopen => absurd hopen hclosed, Or.inl rfl, hok⟩

/-- The array and its capacity do not matter to what is written. -/
theorem Wrote.of_iov {iov : Nat → Iovec} {cap : Nat}
    (h : Wrote contents writes w { s with iov := iov, iovCap := cap } s' total new) : Wrote contents writes w s s' total new :=
  ⟨h.balance, h.written_le, h.dropped_le, h.errors_le, h.errors_iff, h.writes_eq, h.contents_eq, h.nonempty, h.count_le,
    h.other⟩

/-- The loop that fills the array stays inside it, and leaves there exactly the entries it was given. -/
theorem fillIov_spec (s : SinkFile F) (i total : Nat) (entries : List Iovec) (hcap : i + entries.length ≤ s.iovCap) :
    ∃ iov, s.fillIov i total entries = .ok ({ s with iov := iov }, total + totalSize entries) ∧
      (∀ j < i, iov j = s.iov j) ∧ (List.range' i entries.length).map iov = entries := by
  induction entries generalizing s i total with
  | nil => exact ⟨s.iov, rfl, fun _ _ => rfl, rfl⟩
  | cons e es ih =>
    rw [List.length_cons] at hcap
    have hlt : i < s.iovCap := by omega
    obtain ⟨iov, hfill, hbefore, hentries⟩ := ih { s with iov := Function.update s.iov i e } (i + 1) (total + e.size)
      (by show i + 1 + es.length ≤ s.iovCap; omega)
    refine ⟨iov, ?_, fun j hj => ?_, ?_⟩
    · rw [fillIov, storeIov, if_pos hlt]
      refine hfill.trans ?_
      rw [totalSize_cons, Nat.add_assoc]
    · rw [hbefore j (by omega)]
      exact Function.update_of_ne (by omega) _ _
    · have hhere : iov i = e := by
        rw [hbefore i (by omega)]
        exact Function.update_self _ _ _
      rw [List.length_cons, List.range'_succ, List.map_cons, hhere, hentries]

/-- With room for the entries the array is read back as it was filled. -/
theorem fillIov_readIov (s : SinkFile F) (entries : List Iovec) (hcap : entries.length ≤ s.iovCap) :
    ∃ s' iov, s.fillIov 0 0 entries = .ok (s', totalSize entries) ∧ s' = { s with iov := iov } ∧
      s'.readIov entries.length = entries := by
  obtain ⟨iov, hfill, -, hentries⟩ := s.fillIov_spec 0 0 entries (by omega)
  refine ⟨{ s with iov := iov }, iov, ?_, rfl, ?_⟩
  · rw [hfill, Nat.zero_add]
  · rw [readIov, List.range_eq_range']
    exact hentries

/-- The array has room for so many entries, or is given it. -/
def HasRoom (s : SinkFile F) (grown : Bool) (needed : Nat) : Prop := needed ≤ s.iovCap ∨ grown = true

/-- A vector with room for the entries. -/
theorem growIov_of_room {grown : Bool} {needed : Nat} (h : s.HasRoom grown needed) :
    ∃ cap, s.growIov grown needed = ({ s with iovCap := cap }, true) ∧ needed ≤ cap := by
  unfold growIov
  split
  · rename_i hle
    exact ⟨s.iovCap, rfl, hle⟩
  · rename_i hgt
    rw [if_pos (h.resolve_left hgt)]
    exact ⟨needed, rfl, Nat.le_refl needed⟩

/-- A vector without room is left as it is. -/
theorem growIov_of_no_room {grown : Bool} {needed : Nat} (h : ¬ s.HasRoom grown needed) :
    s.growIov grown needed = (s, false) := by
  rw [HasRoom, not_or] at h
  rw [growIov, if_neg h.1, if_neg h.2]

/-- Writes of all the entries that are complete leave all their bytes behind. -/
theorem appended_of_complete {entries : List Iovec} (hentries : new.flatMap Write.entries = entries)
    (h : ∀ x ∈ new, x.Complete) : new.flatMap Write.appended = payload entries := by
  subst hentries
  induction new with
  | nil => rfl
  | cons x new ih =>
    have hfirst := (h x List.mem_cons_self).appended_eq
    have hrest := ih fun y hy => h y (List.mem_cons_of_mem x hy)
    rw [List.flatMap_cons, List.flatMap_cons, payload_append, hfirst, hrest]

/-- A batch is accounted for, its entries are written in order or not at all, and all its bytes are written where nothing stands
in the way. -/
theorem writeBatch_spec (h : ops.Appends contents writes) (w : OutFile) (s : SinkFile F) (grown : Bool)
    (entries : List Iovec) :
    ∃ s' ok new, s.writeBatch ops w grown entries = .ok (s', ok) ∧
      Wrote contents writes w s s' (totalSize entries) new ∧ (ok = true ↔ s'.bytesDropped = s.bytesDropped) ∧
      (new = [] ∨ new.flatMap Write.entries = entries) ∧
      (ops.isOpen (s.file w) = true → s.HasRoom grown entries.length → (∀ x ∈ new, x.Complete) →
        new.flatMap Write.appended = payload entries) := by
  unfold writeBatch
  split
  · rename_i hempty
    rw [List.length_eq_zero_iff] at hempty
    subst hempty
    exact ⟨s, true, [], rfl, Wrote.refl w s, by simp, Or.inl rfl, fun _ _ _ => rfl⟩
  · by_cases hroom : s.HasRoom grown entries.length
    · obtain ⟨cap, hgrow, hcap⟩ := growIov_of_room hroom
      obtain ⟨s₁, iov, hfill, hs₁, hread⟩ := fillIov_readIov { s with iovCap := cap } entries hcap
      obtain ⟨new, hwrote, hall, hsome, hok⟩ := writeEntries_spec h w s₁ entries
      have hs₁ : s₁ = { s with iov := iov, iovCap := cap } := hs₁
      subst hs₁
      rw [hgrow]
      dsimp only
      rw [hfill]
      refine ⟨_, _, new, ?_, hwrote.of_iov, hok, hsome, fun hopen _ hcomplete => ?_⟩
      · show Except.ok (writeEntries ops w _ (readIov _ entries.length) _) = _
        rw [hread]
      · by_cases hzero : totalSize entries = 0
        · have hpayload : payload entries = [] := by rw [← List.length_eq_zero_iff, length_payload, hzero]
          rcases hsome with hnone | hentries
          · rw [hnone, hpayload]
            rfl
          · exact appended_of_complete hentries hcomplete
        · exact appended_of_complete (hall hopen hzero) hcomplete
    · obtain ⟨hwrote, hok⟩ := dropBatch_spec contents writes w s (totalSize entries)
      rw [growIov_of_no_room hroom]
      exact ⟨_, _, [], rfl, hwrote, hok, Or.inl rfl, fun _ hroom' => absurd hroom' hroom⟩

/-! ## The two calls -/

/-- A call that hands over buffers of the given used sizes and bytes counts every byte as written or as dropped, returns true
exactly when it dropped none, and leaves the other file alone; an open file with room for its entries gets all of them when no
write is short. -/
structure Accounts (ops : FileOps F) (contents : F → List UInt8) (writes : F → List Write) (w : OutFile) (s : SinkFile F)
    (grown : Bool) (sizes : List Nat) (bytes : List (List UInt8)) (s' : SinkFile F) (ok : Bool) : Prop where
  balance : s'.bytesWritten + s'.bytesDropped = s.bytesWritten + s.bytesDropped + sizes.sum
  written_le : s.bytesWritten ≤ s'.bytesWritten
  dropped_le : s.bytesDropped ≤ s'.bytesDropped
  ok_iff : ok = true ↔ s'.bytesDropped = s.bytesDropped
  errors_iff : s.writeErrors < s'.writeErrors ↔ s.bytesDropped < s'.bytesDropped
  other : ∀ v, v ≠ w → s'.file v = s.file v
  complete : ops.isOpen (s.file w) = true → s.HasRoom grown sizes.length →
    (∀ new, writes (s'.file w) = writes (s.file w) ++ new → ∀ x ∈ new, x.Complete) →
    contents (s'.file w) = contents (s.file w) ++ bytes.flatten

/-- A batch accounts for its bytes. -/
theorem writeBatch_accounts (h : ops.Appends contents writes) (w : OutFile) (s : SinkFile F) (grown : Bool)
    (entries : List Iovec) :
    ∃ s' ok, s.writeBatch ops w grown entries = .ok (s', ok) ∧
      Accounts ops contents writes w s grown (entries.map Iovec.size) (entries.map Iovec.bytes) s' ok := by
  obtain ⟨s', ok, new, heq, hwrote, hok, -, hcomplete⟩ := writeBatch_spec h w s grown entries
  have hdropped := hwrote.dropped_le
  have herrors := hwrote.errors_le
  have hiff := hwrote.errors_iff
  refine ⟨s', ok, heq, hwrote.balance, hwrote.written_le, hdropped, hok, by omega, hwrote.other, fun hopen hroom hall => ?_⟩
  rw [List.length_map] at hroom
  rw [hwrote.contents_eq, hcomplete hopen hroom (hall new hwrote.writes_eq), payload, List.flatMap_def]

/-- Every batch of either kind of buffer, whatever its length, is written in chunks with all its bytes accounted for. -/
theorem batches_accounted (h : ops.Appends contents writes) (s : SinkFile F) (grown : Bool) :
    (∀ bufs : List Mem, ∃ s' ok, s.writeData ops grown bufs = .ok (s', ok) ∧
      Accounts ops contents writes .data s grown (bufs.map muSize) (bufs.map fun buf => buf.read 0 (muSize buf)) s' ok) ∧
    (∀ bufs : List (SvcBuf Mem), ∃ s' ok, s.writeService ops grown bufs = .ok (s', ok) ∧
      Accounts ops contents writes .svc s grown (bufs.map SvcBuf.used) (bufs.map (SvcBuf.bytes id)) s' ok) := by
  constructor
  · intro bufs
    have hbatch := writeBatch_accounts h .data s grown (bufs.map fun buf => ⟨buf, muSize buf⟩)
    rw [List.map_map, List.map_map] at hbatch
    exact hbatch
  · intro bufs
    have hbatch := writeBatch_accounts h .svc s grown (bufs.map fun b => ⟨b.buf, b.used⟩)
    rw [List.map_map, List.map_map] at hbatch
    exact hbatch

end SinkFile

/-! ## A file -/

/-- A file in memory that takes of each write as many bytes as the script says, if there are as many. -/
structure ScriptFile where
  isOpen : Bool
  script : List Nat
  contents : List UInt8
  writes : List Write

namespace ScriptFile

/-- The number of bytes the next write takes; all of them behind the end of the script. -/
def accepts (f : ScriptFile) (es : List Iovec) : Nat :=
  match f.script with
  | [] => totalSize es
  | n :: _ => min n (totalSize es)

def ops : FileOps ScriptFile where
  isOpen := isOpen
  writeV f es :=
    ({ f with
      script := f.script.tail
      contents := f.contents ++ (payload es).take (f.accepts es)
      writes := f.writes ++ [⟨es, f.accepts es⟩] }, f.accepts es)

/-- The file of a script appends as a file does. -/
theorem appends : ops.Appends contents writes where
  count_le f es _ := by
    show f.accepts es ≤ totalSize es
    unfold accepts
    split
    · exact Nat.le_refl _
    · exact Nat.min_le_right _ _
  writes_eq _ _ _ := rfl
  contents_eq _ _ _ := rfl

/-- A sink just opened whose data file follows the script. -/
def opened (script : List Nat) : SinkFile ScriptFile where
  svcFile := ⟨true, [], [], []⟩
  dataFile := ⟨true, script, [], []⟩
  iov := fun _ => ⟨fun _ => 0, 0⟩
  iovCap := 0
  bytesWritten := 0
  bytesDropped := 0
  writeErrors := 0

end ScriptFile

/-- A batch that takes two chunks, the first of which is written in part. -/
theorem SinkFile.batches_accounted_twoChunks :
    ∃ s' ok, (ScriptFile.opened [100]).writeData ScriptFile.ops true (List.replicate 1025 fun _ => 1) = .ok (s', ok) ∧
      Accounts ScriptFile.ops ScriptFile.contents ScriptFile.writes .data (ScriptFile.opened [100]) true
        ((List.replicate 1025 fun _ => 1).map muSize)
        ((List.replicate 1025 fun _ => 1).map fun buf : Mem => buf.read 0 (muSize buf)) s' ok :=
  (batches_accounted ScriptFile.appends (ScriptFile.opened [100]) true).1 _

end P8
