import P8.Lib.Runs
import P8.Sink.File

/-!
# Lossless: the counters of the sinks and what the files hold

`File` accounts for every byte one call is given. Here it is seen over runs of calls of any kind that the bytes counted as written
are those the files have grown by, so that a file sink whose counter says that nothing was dropped has both files whole. The null
sink counts all it is given: it is the sum of the two counters of a file sink that was given the same.
-/

namespace P8

open Bytes

variable {F : Type} {ops : FileOps F} {contents : F → List UInt8} {writes : F → List Write}

/-! ## One call -/

namespace SinkFile

variable {w : OutFile} {s s' s'' : SinkFile F} {entries : List Iovec} {new : List Write}

variable (contents) in
/-- A file has grown by the bytes counted as written. -/
def Grown (w : OutFile) (s s' : SinkFile F) : Prop :=
  s'.bytesWritten + (contents (s.file w)).length = s.bytesWritten + (contents (s'.file w)).length

/-- A file that has grown may grow further. -/
theorem Grown.trans (h : Grown contents w s s') (h' : Grown contents w s' s'') : Grown contents w s s'' := by
  unfold Grown at *
  omega

/-- A dropped batch writes nothing. -/
theorem dropBatch_grown (contents : F → List UInt8) (w : OutFile) (s : SinkFile F) (total : Nat) :
    Grown contents w s (s.dropBatch total).1 := by
  unfold dropBatch
  split
  · rfl
  · cases w <;> rfl

/-- A chunk only appends. -/
theorem writeChunk_grown (h : ops.Appends contents writes) (w : OutFile) (s : SinkFile F) (ok : Bool) {chunk : List Iovec}
    (hlen : chunk.length ≤ maxIov) : Grown contents w s (s.writeChunk ops w ok chunk).1 := by
  have hle := h.count_le (s.file w) chunk hlen
  have hcontents := congrArg List.length (h.contents_eq (s.file w) chunk hlen)
  rw [List.length_append, List.length_take_of_le (by rw [length_payload]; exact hle)] at hcontents
  rcases hr : ops.writeV (s.file w) chunk with ⟨f, count⟩
  rw [hr] at hcontents
  dsimp only at hcontents
  unfold writeChunk Grown
  rw [hr]
  dsimp only
  split
  · cases w <;> simp only [file, setFile] at hcontents ⊢ <;> omega
  · cases w <;> simp only [file, setFile] at hcontents ⊢ <;> omega

theorem writeChunks_grown (h : ops.Appends contents writes) (w : OutFile) (s : SinkFile F) (ok : Bool)
    (entries : List Iovec) : Grown contents w s (s.writeChunks ops w ok entries).1 := by
  fun_induction writeChunks ops w s ok entries with
  | case1 s ok => rfl
  | case2 s ok entries hne s₁ ok₁ hs₁ ih =>
    have hfirst := writeChunk_grown h w s ok (List.length_take_le maxIov entries)
    rw [hs₁] at hfirst
    exact hfirst.trans ih

theorem writeEntries_grown (h : ops.Appends contents writes) (w : OutFile) (s : SinkFile F) (entries : List Iovec)
    (total : Nat) : Grown contents w s (s.writeEntries ops w entries total).1 := by
  unfold writeEntries
  split
  · rfl
  · split
    · exact writeChunks_grown h w s true entries
    · exact dropBatch_grown contents w s total

/-- A batch does. -/
theorem writeBatch_grown (h : ops.Appends contents writes) {grown : Bool} {ok : Bool}
    (hs : s.writeBatch ops w grown entries = .ok (s', ok)) : Grown contents w s s' := by
  unfold writeBatch at hs
  split at hs
  · cases hs
    rfl
  · by_cases hroom : s.HasRoom grown entries.length
    · obtain ⟨cap, hgrow, hcap⟩ := growIov_of_room hroom
      obtain ⟨s₁, iov, hfill, rfl, hread⟩ := fillIov_readIov { s with iovCap := cap } entries hcap
      rw [hgrow] at hs
      dsimp only at hs
      rw [hfill] at hs
      have hres := congrArg Prod.fst (Except.ok.inj hs)
      have hwrote := writeEntries_grown h w { s with iov := iov, iovCap := cap } (readIov { s with iov := iov, iovCap := cap }
        entries.length) (totalSize entries)
      rw [show (writeEntries ops w _ _ (totalSize entries)).1 = s' from hres] at hwrote
      cases w <;> exact hwrote
    · rw [growIov_of_no_room hroom] at hs
      have hres := congrArg Prod.fst (Except.ok.inj hs)
      have hdrop := dropBatch_grown contents w s (totalSize entries)
      rwa [show (dropBatch s (totalSize entries)).1 = s' from hres] at hdrop

/-- Writes append no more than they are given. -/
theorem length_appended_le (new : List Write) : (new.flatMap Write.appended).length ≤ totalSize (new.flatMap Write.entries) := by
  induction new with
  | nil => exact Nat.le_refl _
  | cons x new ih =>
    have hx : x.appended.length ≤ totalSize x.entries := by
      rw [Write.appended, List.length_take, length_payload]
      exact Nat.min_le_right _ _
    rw [List.flatMap_cons, List.flatMap_cons, List.length_append, totalSize_append]
    omega

/-- Writes that append as many bytes as they are given are complete. -/
theorem complete_of_count (hcount : ∀ x ∈ new, x.count ≤ totalSize x.entries)
    (hall : totalSize (new.flatMap Write.entries) ≤ (new.flatMap Write.appended).length) : ∀ x ∈ new, x.Complete := by
  induction new with
  | nil => exact fun _ hx => (by cases hx)
  | cons x new ih =>
    have hx := hcount x List.mem_cons_self
    have hrest := length_appended_le new
    have hlen : x.appended.length = x.count := by
      rw [Write.appended, List.length_take_of_le (by rw [length_payload]; exact hx)]
    rw [List.flatMap_cons, List.flatMap_cons, totalSize_append, List.length_append, hlen] at hall
    refine List.forall_mem_cons.mpr ⟨?_, ih (fun y hy => hcount y (List.mem_cons_of_mem x hy)) (by omega)⟩
    unfold Write.Complete
    omega

/-- A call that drops nothing appends everything it is given. -/
theorem Wrote.lossless (h : Wrote contents writes w s s' (totalSize entries) new) (hgrown : Grown contents w s s')
    (hsome : new = [] ∨ new.flatMap Write.entries = entries) (hdropped : s'.bytesDropped = s.bytesDropped) :
    contents (s'.file w) = contents (s.file w) ++ payload entries := by
  have hbalance := h.balance
  have hlen := congrArg List.length h.contents_eq
  rw [List.length_append] at hlen
  unfold Grown at hgrown
  rw [h.contents_eq]
  rcases hsome with rfl | hentries
  · have hzero : (payload entries).length = 0 := by
      rw [length_payload]
      simp only [List.flatMap_nil, List.length_nil] at hlen
      omega
    rw [List.length_eq_zero_iff.mp hzero]
    rfl
  · rw [appended_of_complete hentries (complete_of_count h.count_le (by rw [hentries]; omega))]

end SinkFile

/-! ## Calls of any kind -/

/-- A call of the core to its sink. -/
inductive SinkRequest where
  | hello (hdr : Mem)
  | data (grown : Bool) (bufs : List Mem)
  | service (grown : Bool) (bufs : List (SvcBuf Mem))

namespace SinkRequest

/-- The bytes a call gives for a file. -/
def given (v : OutFile) (c : SinkRequest) : List UInt8 :=
  match v, c with
  | .data, .hello hdr => hdr.read 0 sizeofHello
  | .data, .data _ bufs => (bufs.map fun buf => buf.read 0 (muSize buf)).flatten
  | .svc, .service _ bufs => (bufs.map (SvcBuf.bytes id)).flatten
  | _, _ => []

end SinkRequest

/-- A call to the file sink; the flag says whether all calls have returned true. -/
def SinkFile.serve (ops : FileOps F) (s : SinkFile F × Bool) : SinkRequest → Except Halt (SinkFile F × Bool)
  | .hello hdr => .ok ((s.1.writeHello ops hdr).1, s.2 && (s.1.writeHello ops hdr).2)
  | .data grown bufs => (s.1.writeData ops grown bufs).map fun r => (r.1, s.2 && r.2)
  | .service grown bufs => (s.1.writeService ops grown bufs).map fun r => (r.1, s.2 && r.2)

/-- `cp8_sink_null`. -/
structure SinkNull where
  total : Nat

namespace SinkNull

/-- `cp8_sink_null::open`. -/
def opened : SinkNull := ⟨0⟩

/-- `cp8_sink_null::write_hello`. -/
def writeHello (s : SinkNull) (_ : Mem) : SinkNull × Bool := (⟨s.total + sizeofHello⟩, true)

/-- `cp8_sink_null::write_data`. -/
def writeData (s : SinkNull) (bufs : List Mem) : SinkNull × Bool :=
  (⟨bufs.foldl (fun total buf => total + muSize buf) s.total⟩, true)

/-- `cp8_sink_null::write_service`. -/
def writeService (s : SinkNull) (bufs : List (SvcBuf Mem)) : SinkNull × Bool :=
  (⟨bufs.foldl (fun total b => total + b.used) s.total⟩, true)

/-- A call, with the flag as `SinkFile.serve` has it. -/
def serve (s : SinkNull × Bool) : SinkRequest → SinkNull × Bool
  | .hello hdr => ((s.1.writeHello hdr).1, s.2 && (s.1.writeHello hdr).2)
  | .data _ bufs => ((s.1.writeData bufs).1, s.2 && (s.1.writeData bufs).2)
  | .service _ bufs => ((s.1.writeService bufs).1, s.2 && (s.1.writeService bufs).2)

end SinkNull

/-- What has become of a file sink in some calls that returned `ok` together: `svc` and `data` are what they gave for the files. -/
structure Served (contents : F → List UInt8) (s s' : SinkFile F) (svc data : List UInt8) (ok : Bool) : Prop where
  balance : s'.bytesWritten + s'.bytesDropped = s.bytesWritten + s.bytesDropped + (svc.length + data.length)
  counted : s'.bytesWritten + ((contents s.svcFile).length + (contents s.dataFile).length) =
    s.bytesWritten + ((contents s'.svcFile).length + (contents s'.dataFile).length)
  dropped_le : s.bytesDropped ≤ s'.bytesDropped
  errors_le : s.writeErrors ≤ s'.writeErrors
  errors_iff : s'.writeErrors = s.writeErrors ↔ s'.bytesDropped = s.bytesDropped
  ok_iff : ok = true ↔ s'.bytesDropped = s.bytesDropped
  whole : s'.bytesDropped = s.bytesDropped →
    contents s'.svcFile = contents s.svcFile ++ svc ∧ contents s'.dataFile = contents s.dataFile ++ data

namespace Served

variable {s s' s'' : SinkFile F} {svc svc' data data' : List UInt8} {ok ok' : Bool}

theorem refl (contents : F → List UInt8) (s : SinkFile F) : Served contents s s [] [] true :=
  ⟨rfl, rfl, le_rfl, le_rfl, by simp, by simp, by simp⟩

/-- Two runs of requests, one behind the other. -/
theorem trans (h : Served contents s s' svc data ok) (h' : Served contents s' s'' svc' data' ok') :
    Served contents s s'' (svc ++ svc') (data ++ data') (ok && ok') := by
  have hbalance := h.balance
  have hbalance' := h'.balance
  have hcounted := h.counted
  have hcounted' := h'.counted
  have hle := h.dropped_le
  have hle' := h'.dropped_le
  have herr := h.errors_le
  have herr' := h'.errors_le
  have hiff := h.errors_iff
  have hiff' := h'.errors_iff
  have hboth : s''.bytesDropped = s.bytesDropped ↔ s'.bytesDropped = s.bytesDropped ∧ s''.bytesDropped = s'.bytesDropped := by
    omega
  refine ⟨?_, by omega, by omega, by omega, by omega, ?_, fun hall => ?_⟩
  · rw [List.length_append, List.length_append]
    omega
  · rw [Bool.and_eq_true, h.ok_iff, h'.ok_iff, hboth]
  · obtain ⟨hfirst, hsecond⟩ := hboth.mp hall
    obtain ⟨hsvc, hdata⟩ := h.whole hfirst
    obtain ⟨hsvc', hdata'⟩ := h'.whole hsecond
    exact ⟨by rw [hsvc', hsvc, List.append_assoc], by rw [hdata', hdata, List.append_assoc]⟩

/-- One write of entries to a file. -/
theorem of_wrote {w : OutFile} {entries : List Iovec} {new : List Write}
    (h : SinkFile.Wrote contents writes w s s' (totalSize entries) new) (hgrown : SinkFile.Grown contents w s s')
    (hsome : new = [] ∨ new.flatMap Write.entries = entries) (hok : ok = true ↔ s'.bytesDropped = s.bytesDropped) :
    Served contents s s' (if w = .svc then payload entries else []) (if w = .data then payload entries else []) ok := by
  have hbalance := h.balance
  have hlossless := h.lossless hgrown hsome
  unfold SinkFile.Grown at hgrown
  refine ⟨?_, ?_, h.dropped_le, h.errors_le, h.errors_iff, hok, fun hall => ?_⟩
  · rw [hbalance]
    cases w <;> simp
  · cases w with
    | svc =>
      have hother : s'.dataFile = s.dataFile := h.other .data (by decide)
      simp only [SinkFile.file] at hgrown
      rw [hother]
      omega
    | data =>
      have hother : s'.svcFile = s.svcFile := h.other .svc (by decide)
      simp only [SinkFile.file] at hgrown
      rw [hother]
      omega
  · cases w with
    | svc =>
      have hother : s'.dataFile = s.dataFile := h.other .data (by decide)
      exact ⟨hlossless hall, by rw [hother]; exact (List.append_nil _).symm⟩
    | data =>
      have hother : s'.svcFile = s.svcFile := h.other .svc (by decide)
      exact ⟨by rw [hother]; exact (List.append_nil _).symm, hlossless hall⟩

end Served

/-- A batch is served. -/
theorem SinkFile.writeBatch_served (h : ops.Appends contents writes) (w : OutFile) (s : SinkFile F) (grown : Bool)
    (entries : List Iovec) :
    ∃ s' ok, s.writeBatch ops w grown entries = .ok (s', ok) ∧
      Served contents s s' (if w = .svc then payload entries else []) (if w = .data then payload entries else []) ok := by
  obtain ⟨s', ok, new, heq, hwrote, hok, hsome, -⟩ := writeBatch_spec h w s grown entries
  exact ⟨s', ok, heq, .of_wrote hwrote (writeBatch_grown h heq) hsome hok⟩

/-- A call of any kind is served. -/
theorem SinkFile.serve_served (h : ops.Appends contents writes) (s : SinkFile F) (ok : Bool) (c : SinkRequest) :
    ∃ s' ok', SinkFile.serve ops (s, ok) c = .ok (s', ok && ok') ∧ Served contents s s' (c.given .svc) (c.given .data) ok' := by
  cases c with
  | hello hdr =>
    obtain ⟨new, hwrote, -, hsome, hok⟩ := writeEntries_spec h .data s [⟨hdr, sizeofHello⟩]
    have hgrown := writeEntries_grown h .data s [⟨hdr, sizeofHello⟩] (totalSize [⟨hdr, sizeofHello⟩])
    have hserved := Served.of_wrote hwrote hgrown hsome hok
    rw [if_neg (by decide), if_pos rfl, payload, List.flatMap_singleton] at hserved
    exact ⟨_, _, rfl, hserved⟩
  | data grown bufs =>
    obtain ⟨s', ok', heq, hserved⟩ := writeBatch_served h .data s grown (bufs.map fun buf => ⟨buf, muSize buf⟩)
    rw [if_neg (by decide), if_pos rfl, payload, List.flatMap_map, List.flatMap_def] at hserved
    refine ⟨s', ok', ?_, hserved⟩
    rw [serve, writeData, heq]
    rfl
  | service grown bufs =>
    obtain ⟨s', ok', heq, hserved⟩ := writeBatch_served h .svc s grown (bufs.map fun b => ⟨b.buf, b.used⟩)
    rw [if_pos rfl, if_neg (by decide), payload, List.flatMap_map, List.flatMap_def] at hserved
    refine ⟨s', ok', ?_, hserved⟩
    rw [serve, writeService, heq]
    rfl

/-- A run of calls is served. -/
theorem SinkFile.serve_run (h : ops.Appends contents writes) (s : SinkFile F) (ok : Bool) (calls : List SinkRequest) :
    ∃ s' ok', Runs.run (serve ops) (s, ok) calls = .ok (s', ok && ok') ∧
      Served contents s s' (calls.flatMap (SinkRequest.given .svc)) (calls.flatMap (SinkRequest.given .data)) ok' := by
  induction calls generalizing s ok with
  | nil => exact ⟨s, true, by rw [Bool.and_true]; rfl, Served.refl contents s⟩
  | cons c calls ih =>
    obtain ⟨s₁, ok₁, hcall, hserved₁⟩ := serve_served h s ok c
    obtain ⟨s', ok', hrun, hserved⟩ := ih s₁ (ok && ok₁)
    refine ⟨s', ok₁ && ok', ?_, ?_⟩
    · rw [Runs.run_step hcall, hrun, Bool.and_assoc]
    · rw [List.flatMap_cons, List.flatMap_cons]
      exact hserved₁.trans hserved

/-- The null sink counts what it is given. -/
theorem SinkNull.serve_total (n : SinkNull) (ok : Bool) (c : SinkRequest) :
    serve (n, ok) c = (⟨n.total + ((c.given .svc).length + (c.given .data).length)⟩, ok) := by
  have hfold : ∀ {β : Type} (size : β → Nat) (bs : List β) (total : Nat),
      bs.foldl (fun total b => total + size b) total = total + (bs.map size).sum := by
    intro β size bs
    induction bs with
    | nil => exact fun total => rfl
    | cons b bs ih =>
      intro total
      rw [List.foldl_cons, ih, List.map_cons, List.sum_cons, Nat.add_assoc]
  cases c with
  | hello hdr => simp [serve, writeHello, SinkRequest.given]
  | data grown bufs =>
    have hlen : ((SinkRequest.data grown bufs).given .data).length = (bufs.map muSize).sum := by
      simp [SinkRequest.given, List.length_flatten, Function.comp_def]
    simp [serve, writeData, hfold muSize, hlen, SinkRequest.given.eq_def OutFile.svc]
  | service grown bufs =>
    have hlen : ((SinkRequest.service grown bufs).given .svc).length = (bufs.map SvcBuf.used).sum := by
      simp [SinkRequest.given, List.length_flatten, Function.comp_def, SvcBuf.bytes]
    simp [serve, writeService, hfold SvcBuf.used, hlen, SinkRequest.given.eq_def OutFile.data]

/-- What the null sink has counted after some calls. -/
theorem SinkNull.serve_run (calls : List SinkRequest) (n : SinkNull) : calls.foldl SinkNull.serve (n, true) =
    (⟨n.total + ((calls.flatMap (SinkRequest.given .svc)).length + (calls.flatMap (SinkRequest.given .data)).length)⟩, true) := by
  induction calls generalizing n with
  | nil => rfl
  | cons c calls ih =>
    rw [List.foldl_cons, SinkNull.serve_total, ih, List.flatMap_cons, List.flatMap_cons, List.length_append, List.length_append]
    congr 2
    dsimp only
    omega

/-- Both sinks over any calls, from where they were opened. The null sink's counter is the sum of the file sink's two, the bytes
counted as written are those in the files, and each of these says the same: no byte is dropped, there was no error, every call has
returned true, the files hold all they were given in its order. -/
theorem sinks_account (h : ops.Appends contents writes) {s : SinkFile F} (hfiles : contents s.svcFile = [] ∧ contents s.dataFile = [])
    (hzero : s.bytesWritten = 0 ∧ s.bytesDropped = 0 ∧ s.writeErrors = 0) (calls : List SinkRequest) :
    ∃ s' ok, Runs.run (SinkFile.serve ops) (s, true) calls = .ok (s', ok) ∧
      calls.foldl SinkNull.serve (SinkNull.opened, true) = (⟨s'.bytesWritten + s'.bytesDropped⟩, true) ∧
      s'.bytesWritten = (contents s'.svcFile).length + (contents s'.dataFile).length ∧
      (s'.bytesDropped = 0 ↔ s'.writeErrors = 0) ∧ (s'.bytesDropped = 0 ↔ ok = true) ∧
      (s'.bytesDropped = 0 ↔ contents s'.svcFile = calls.flatMap (SinkRequest.given .svc) ∧
        contents s'.dataFile = calls.flatMap (SinkRequest.given .data)) := by
  obtain ⟨s', ok, hrun, hserved⟩ := SinkFile.serve_run h s true calls
  obtain ⟨hsvc, hdata⟩ := hfiles
  obtain ⟨hwritten, hdropped, herrors⟩ := hzero
  have hbalance := hserved.balance
  have hcounted := hserved.counted
  rw [hsvc, hdata, hwritten] at hcounted
  rw [hwritten, hdropped] at hbalance
  refine ⟨s', ok, by rw [hrun, Bool.true_and], ?_, by simpa using hcounted, ?_, ?_, ?_⟩
  · rw [SinkNull.serve_run, SinkNull.opened, hbalance]
  · have hiff := hserved.errors_iff
    rw [hdropped, herrors] at hiff
    exact hiff.symm
  · rw [hserved.ok_iff, hdropped]
  · refine ⟨fun hnone => ?_, fun hall => ?_⟩
    · have hwhole := hserved.whole (hnone.trans hdropped.symm)
      rwa [hsvc, hdata, List.nil_append, List.nil_append] at hwhole
    · rw [hall.1, hall.2] at hcounted
      simp only [List.length_nil] at hcounted
      omega

/-- A data file that takes 600 bytes of 616, behind a service file that takes all. -/
theorem sinks_account_torn :
    ∃ s' ok, Runs.run (SinkFile.serve ScriptFile.ops) (ScriptFile.opened [568, 32], true)
        [.hello fun _ => 0, .service true [⟨fun _ => 1, 16⟩], .data true [fun i => if i = 2 then 48 else 0]] = .ok (s', ok) ∧
      ([SinkRequest.hello fun _ => 0, .service true [⟨fun _ => 1, 16⟩], .data true [fun i => if i = 2 then 48 else 0]].foldl
        SinkNull.serve (SinkNull.opened, true)) = (⟨s'.bytesWritten + s'.bytesDropped⟩, true) ∧
      (s'.bytesDropped = 0 ↔ ok = true) := by
  obtain ⟨s', ok, hrun, hnull, -, -, hok, -⟩ := sinks_account ScriptFile.appends (s := ScriptFile.opened [568, 32]) ⟨rfl, rfl⟩
    ⟨rfl, rfl, rfl⟩ [.hello fun _ => 0, .service true [⟨fun _ => 1, 16⟩], .data true [fun i => if i = 2 then 48 else 0]]
  exact ⟨s', ok, hrun, hnull, hok⟩

end P8
