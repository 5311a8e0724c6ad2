import P8.Lib.Runs
import P8.Lib.SelfSized
import P8.Sink.File

/-!
# DataFile: what a reader finds in the data file

A reader of the data file walks over the packets behind the hello header by their `mu_size` (`readPackets`). After a short write
the sink goes on where the file ends. If that is inside a packet, the reader takes the next packets' bytes for the rest of the
torn one and is lost behind it. `LeftAlone` is what keeps the file readable, and it is a matter of what `write_v` takes.
-/

namespace P8

open Bytes

/-- A packet in the memory of a data buffer: it begins with its header, which `mu_size` counts. -/
structure Packet where
  mem : Mem
  header_le : sizeofDataBufHdr ≤ muSize mem

namespace Packet

def entry (b : Packet) : Iovec := ⟨b.mem, muSize b.mem⟩

/-- The bytes of the packet. -/
def bytes (b : Packet) : List UInt8 := b.entry.bytes

/-- A packet's entry is not empty. -/
theorem entry_pos (b : Packet) : 0 < b.entry.size := Nat.lt_of_lt_of_le (by decide) b.header_le

end Packet

/-! ## The reader -/

/-- The size a packet tells at its front. -/
def toldSize (s : List UInt8) : Nat := LogItemDat.field s 2 2

/-- Walk over packets by their sizes, as long as there is a whole one. -/
def readPackets (s : List UInt8) : List (List UInt8) := SelfSized.walk toldSize sizeofDataBufHdr s.length s

/-- The size is read from the front of a packet. -/
theorem toldSize_append (s rest : List UInt8) (h : sizeofDataBufHdr ≤ s.length) : toldSize (s ++ rest) = toldSize s := by
  have hdrop : 2 ≤ s.length := Nat.le_trans (by decide) h
  have htake : 2 ≤ (s.drop 2).length := by
    rw [List.length_drop]
    have hlen : 24 ≤ s.length := h
    omega
  rw [toldSize, toldSize, LogItemDat.field, LogItemDat.field, List.drop_append_of_le_length hdrop,
    List.take_append_of_le_length htake]

/-- A packet says its size. -/
theorem Packet.says (b : Packet) : SelfSized.Says toldSize sizeofDataBufHdr b.bytes where
  min_le := by
    rw [bytes, Iovec.length_bytes]
    exact b.header_le
  size_eq rest := by
    have hlen : b.bytes.length = muSize b.mem := Iovec.length_bytes _
    have hle : 24 ≤ muSize b.mem := b.header_le
    obtain ⟨n, hn⟩ : ∃ n, muSize b.mem = 2 + (2 + n) := ⟨muSize b.mem - 4, by omega⟩
    have hbytes : b.bytes = b.mem.read 0 2 ++ (b.mem.read 2 2 ++ b.mem.read 4 n) := by
      show b.mem.read 0 (muSize b.mem) = _
      rw [hn, Mem.read_add, Mem.read_add]
    have hfield : toldSize b.bytes = muSize b.mem := by
      rw [hbytes, toldSize, LogItemDat.field_skip _ _ _ _ (by simp), Mem.length_read, Nat.sub_self,
        LogItemDat.field_front _ _ _ (Mem.length_read _ _ _), muSize]
    rw [toldSize_append _ _ (by rw [hlen]; exact b.header_le), hfield, hlen]

/-- Whole packets are read back, and at most a piece of another one behind them is left over. -/
theorem readPackets_eq (whole : List Packet) {tail : List UInt8}
    (htail : tail = [] ∨ ∃ b : Packet, tail <+: b.bytes ∧ tail ≠ b.bytes) :
    readPackets ((whole.map Packet.bytes).flatten ++ tail) = whole.map Packet.bytes := by
  have hsays : ∀ it ∈ whole.map Packet.bytes, SelfSized.Says toldSize sizeofDataBufHdr it := by
    intro it hit
    obtain ⟨b, -, rfl⟩ := List.mem_map.mp hit
    exact b.says
  refine SelfSized.walk_flatten_append (by decide) hsays ?_ (Nat.le_refl _)
  rcases htail with rfl | ⟨b, hpre, hne⟩
  · exact Or.inl (by decide)
  · exact b.says.torn hpre hne toldSize_append

/-! ## Writes and whole entries -/

/-- The entries that are among the first `n` bytes as a whole. -/
def wholeEntries : Nat → List Iovec → List Iovec
  | _, [] => []
  | n, e :: es => if e.size ≤ n then e :: wholeEntries (n - e.size) es else []

/-- The entries of a write that were written completely. -/
def Write.whole (x : Write) : List Iovec := wholeEntries x.count x.entries

/-- The write ended inside an entry. -/
def Write.Broken (x : Write) : Prop := totalSize x.whole ≠ x.count

instance (x : Write) : Decidable x.Broken := inferInstanceAs (Decidable (_ ≠ _))

instance (x : Write) : Decidable x.Complete := inferInstanceAs (Decidable (_ = _))

/-- Some bytes at the end of what was written that are not an entry: none, or a piece of one. -/
def Torn (entries : List Iovec) (tail : List UInt8) : Prop :=
  tail = [] ∨ ∃ e ∈ entries, tail <+: e.bytes ∧ tail ≠ e.bytes

/-- A piece of one of these is a piece of one of more. -/
theorem Torn.mono {es es' : List Iovec} {tail : List UInt8} (h : Torn es tail) (hsub : ∀ e ∈ es, e ∈ es') :
    Torn es' tail := by
  rcases h with hnone | ⟨e, he, hpre⟩
  · exact Or.inl hnone
  · exact Or.inr ⟨e, hsub e he, hpre⟩

/-- The whole entries come first. -/
theorem wholeEntries_front (n : Nat) (es : List Iovec) : wholeEntries n es <+: es := by
  induction es generalizing n with
  | nil => exact List.prefix_refl []
  | cons e es ih =>
    rw [wholeEntries]
    split
    · exact (List.prefix_cons_inj e).mpr (ih _)
    · exact List.nil_prefix

/-- A write of no bytes completes no entry. -/
theorem wholeEntries_zero {es : List Iovec} (h : ∀ e ∈ es, 0 < e.size) : wholeEntries 0 es = [] := by
  cases es with
  | nil => rfl
  | cons e es =>
    have hpos := h e List.mem_cons_self
    rw [wholeEntries, if_neg (by omega)]

/-- The first bytes of some entries are whole entries and a piece of the next one. -/
theorem take_payload (es : List Iovec) {n : Nat} (hn : n ≤ totalSize es) :
    ∃ tail, (payload es).take n = payload (wholeEntries n es) ++ tail ∧
      tail.length = n - totalSize (wholeEntries n es) ∧ Torn es tail := by
  induction es generalizing n with
  | nil =>
    have hzero : n = 0 := by simpa using hn
    subst hzero
    exact ⟨[], rfl, rfl, Or.inl rfl⟩
  | cons e es ih =>
    have hcons : payload (e :: es) = e.bytes ++ payload es := rfl
    rw [totalSize_cons] at hn
    rw [wholeEntries]
    split
    · rename_i hle
      obtain ⟨tail, heq, hlen, htorn⟩ := ih (n := n - e.size) (by omega)
      refine ⟨tail, ?_, ?_, htorn.mono fun x hx => List.mem_cons_of_mem e hx⟩
      · rw [hcons, List.take_append, List.take_of_length_le (by rw [e.length_bytes]; exact hle), e.length_bytes, heq,
          ← List.append_assoc]
        rfl
      · rw [hlen, totalSize_cons]
        omega
    · rename_i hgt
      have hlt : n < e.bytes.length := by
        rw [e.length_bytes]
        omega
      refine ⟨e.bytes.take n, ?_, ?_, Or.inr ⟨e, List.mem_cons_self, List.take_prefix n _, fun heq => ?_⟩⟩
      · rw [hcons, List.take_append_of_le_length (by omega)]
        rfl
      · rw [List.length_take_of_le (by omega), totalSize_nil, Nat.sub_zero]
      · have hlen := congrArg List.length heq
        rw [List.length_take_of_le (by omega)] at hlen
        omega

/-- What a write has appended, as whole entries and a piece; there is no piece where it is not broken. -/
theorem Write.appended_torn (x : Write) (hx : x.count ≤ totalSize x.entries) :
    ∃ tail, x.appended = payload x.whole ++ tail ∧ Torn x.entries tail ∧ (¬ x.Broken → tail = []) := by
  obtain ⟨tail, heq, hlen, htorn⟩ := take_payload x.entries hx
  refine ⟨tail, heq, htorn, fun hwhole => ?_⟩
  have hsize : totalSize (wholeEntries x.count x.entries) = x.count := Decidable.not_not.mp hwhole
  rw [← List.length_eq_zero_iff, hlen, hsize, Nat.sub_self]

/-- Writes that take nothing leave nothing behind. -/
theorem silent {ws : List Write} (hcount : ∀ x ∈ ws, x.count = 0) (hpos : ∀ x ∈ ws, ∀ e ∈ x.entries, 0 < e.size) :
    ws.flatMap Write.appended = [] ∧ ws.flatMap Write.whole = [] := by
  constructor
  · refine List.flatMap_eq_nil_iff.mpr fun x hx => ?_
    rw [Write.appended, hcount x hx, List.take_zero]
  · refine List.flatMap_eq_nil_iff.mpr fun x hx => ?_
    rw [Write.whole, hcount x hx]
    exact wholeEntries_zero (hpos x hx)

/-- No write appends behind one that ended inside an entry: then the writes together leave whole entries and a piece. -/
theorem flatMap_appended_torn {ws : List Write} (hcount : ∀ x ∈ ws, x.count ≤ totalSize x.entries)
    (hpos : ∀ x ∈ ws, ∀ e ∈ x.entries, 0 < e.size) (halone : ws.Pairwise fun x y => x.Broken → y.count = 0) :
    ∃ tail, ws.flatMap Write.appended = payload (ws.flatMap Write.whole) ++ tail ∧ Torn (ws.flatMap Write.entries) tail := by
  induction ws with
  | nil => exact ⟨[], rfl, Or.inl rfl⟩
  | cons x ws ih =>
    obtain ⟨hfirst, hrest⟩ := List.pairwise_cons.mp halone
    have hposrest : ∀ y ∈ ws, ∀ e ∈ y.entries, 0 < e.size := fun y hy => hpos y (List.mem_cons_of_mem x hy)
    obtain ⟨tail, heq, htorn, hnone⟩ := x.appended_torn (hcount x List.mem_cons_self)
    rw [List.flatMap_cons, List.flatMap_cons, List.flatMap_cons, payload_append, heq]
    by_cases hbroken : x.Broken
    · obtain ⟨happended, hwhole⟩ := silent (fun y hy => hfirst y hy hbroken) hposrest
      refine ⟨tail, ?_, htorn.mono fun e he => List.mem_append_left _ he⟩
      rw [happended, hwhole, payload_nil, List.append_nil, List.append_nil]
    · obtain ⟨tail', heq', htorn'⟩ := ih (fun y hy => hcount y (List.mem_cons_of_mem x hy)) hposrest hrest
      refine ⟨tail', ?_, htorn'.mono fun e he => List.mem_append_right _ he⟩
      rw [hnone hbroken, List.append_nil, heq', List.append_assoc]

/-! ## Runs -/

/-- A call of the core to its sink. -/
inductive SinkCall where
  | hello (hdr : Mem)
  | data (grown : Bool) (bufs : List Packet)

namespace SinkCall

/-- The packets a call hands over. -/
def packets : SinkCall → List Packet
  | .hello _ => []
  | .data _ bufs => bufs

/-- The entries a call makes of what it is given. -/
def entries : SinkCall → List Iovec
  | .hello hdr => [⟨hdr, sizeofHello⟩]
  | .data _ bufs => bufs.map Packet.entry

/-- The core calls `write_hello` first and never again. -/
def HelloFirst (hdr : Mem) (calls : List SinkCall) : Prop :=
  ∃ datas : List (Bool × List Packet), calls = .hello hdr :: datas.map fun d => .data d.1 d.2

end SinkCall

variable {F : Type} {ops : FileOps F} {contents : F → List UInt8} {writes : F → List Write}

/-- A call, whatever it returns. -/
def SinkFile.call (ops : FileOps F) (s : SinkFile F) : SinkCall → Except Halt (SinkFile F)
  | .hello hdr => .ok (s.writeHello ops hdr).1
  | .data grown bufs => (s.writeData ops grown (bufs.map Packet.mem)).map Prod.fst

/-- Behind a hello header that was not written completely, and behind a write that ended inside a packet, the file takes no more
bytes. -/
def LeftAlone (ws : List Write) : Prop :=
  (∀ x ∈ ws.head?, x.Complete ∨ ∀ y ∈ ws.tail, y.count = 0) ∧ ws.Pairwise fun x y => x.Broken → y.count = 0

instance (ws : List Write) : Decidable (LeftAlone ws) := inferInstanceAs (Decidable (_ ∧ _))

/-- The packets written completely, of the writes behind the hello header's. -/
def wholePackets (ws : List Write) : List (List UInt8) := (ws.tail.flatMap Write.whole).map Iovec.bytes

/-- The data file holds the hello header and whole packets in their order, with a piece of another one behind them at most, or a
part of the hello header and nothing else; and a reader finds the packets that were written completely. -/
structure Synchronised (hello : List UInt8) (given whole : List (List UInt8)) (contents : List UInt8) : Prop where
  inOrder : whole.Sublist given
  layout : (contents <+: hello ∧ whole = []) ∨
    ∃ tail, contents = hello ++ whole.flatten ++ tail ∧ (tail = [] ∨ ∃ p ∈ given, tail <+: p ∧ tail ≠ p)
  recovered : readPackets (contents.drop sizeofHello) = whole

/-- A call writes all its entries in order, or none of them. -/
theorem SinkFile.call_spec (h : ops.Appends contents writes) (s : SinkFile F) (c : SinkCall) :
    ∃ s' new, s.call ops c = .ok s' ∧ Wrote contents writes .data s s' (totalSize c.entries) new ∧
      (new = [] ∨ new.flatMap Write.entries = c.entries) := by
  cases c with
  | hello hdr =>
    obtain ⟨new, hwrote, -, hsome, -⟩ := writeEntries_spec h .data s [⟨hdr, sizeofHello⟩]
    exact ⟨_, new, rfl, hwrote, hsome⟩
  | data grown bufs =>
    obtain ⟨s', ok, new, heq, hwrote, -, hsome, -⟩ :=
      writeBatch_spec h .data s grown ((bufs.map Packet.mem).map fun buf => ⟨buf, muSize buf⟩)
    rw [List.map_map] at heq hwrote hsome
    refine ⟨s', new, ?_, hwrote, hsome⟩
    rw [call, writeData, List.map_map, heq]
    rfl

/-- A run writes its entries in order, some batches of them left out. -/
theorem SinkFile.run_spec (h : ops.Appends contents writes) (s : SinkFile F) (calls : List SinkCall) :
    ∃ s' new, Runs.run (call ops) s calls = .ok s' ∧
      Wrote contents writes .data s s' (totalSize (calls.flatMap SinkCall.entries)) new ∧
      (new.flatMap Write.entries).Sublist (calls.flatMap SinkCall.entries) := by
  induction calls generalizing s with
  | nil => exact ⟨s, [], rfl, Wrote.refl .data s, List.Sublist.refl []⟩
  | cons c calls ih =>
    obtain ⟨s₁, new₁, hcall, hwrote₁, hsome⟩ := call_spec h s c
    obtain ⟨s', new, hrun, hwrote, hsub⟩ := ih s₁
    refine ⟨s', new₁ ++ new, ?_, ?_, ?_⟩
    · rw [Runs.run_step hcall, hrun]
    · rw [List.flatMap_cons, totalSize_append]
      exact hwrote₁.trans hwrote
    · rw [List.flatMap_append, List.flatMap_cons]
      refine List.Sublist.append ?_ hsub
      rcases hsome with rfl | heq
      · exact List.nil_sublist _
      · rw [heq]

/-- The hello header is given to an open file in one write. -/
theorem SinkFile.hello_spec (h : ops.Appends contents writes) (s : SinkFile F) (hdr : Mem)
    (hopen : ops.isOpen s.dataFile = true) :
    ∃ s' n, s.call ops (.hello hdr) = .ok s' ∧
      Wrote contents writes .data s s' sizeofHello [⟨[⟨hdr, sizeofHello⟩], n⟩] := by
  obtain ⟨new, hwrote, hentries, -, -⟩ := writeEntries_spec h .data s [⟨hdr, sizeofHello⟩]
  have hall := hentries hopen (by simp [sizeofHello])
  cases new with
  | nil => cases hall
  | cons x new =>
    have hx := List.length_pos_iff.mpr (hwrote.nonempty x List.mem_cons_self)
    have hlen := congrArg List.length hall
    cases new with
    | nil =>
      obtain ⟨es, n⟩ := x
      have hes : es = [⟨hdr, sizeofHello⟩] := by simpa using hall
      subst hes
      exact ⟨_, n, rfl, hwrote⟩
    | cons y new =>
      have hy := List.length_pos_iff.mpr (hwrote.nonempty y (List.mem_cons_of_mem x List.mem_cons_self))
      simp only [List.flatMap_cons, List.length_append, List.length_cons, List.length_nil] at hlen
      omega

/-- The entries of data calls are those of their packets. -/
theorem SinkCall.entries_datas (datas : List (Bool × List Packet)) :
    (datas.map fun d => SinkCall.data d.1 d.2).flatMap SinkCall.entries =
      ((datas.map fun d => SinkCall.data d.1 d.2).flatMap SinkCall.packets).map Packet.entry := by
  induction datas with
  | nil => rfl
  | cons d datas ih => rw [List.map_cons, List.flatMap_cons, List.flatMap_cons, List.map_append, ih]; rfl

/-- What was written completely is among what was given, in its order. -/
theorem whole_sublist (ws : List Write) : (ws.flatMap Write.whole).Sublist (ws.flatMap Write.entries) := by
  induction ws with
  | nil => exact List.Sublist.refl []
  | cons x ws ih =>
    rw [List.flatMap_cons, List.flatMap_cons]
    exact (wholeEntries_front x.count x.entries).sublist.append ih

/-- Writes of packets, none of which appends behind a broken end, leave whole packets and a piece of one. -/
theorem packets_of_writes {given : List Packet} {ws : List Write}
    (hsub : (ws.flatMap Write.entries).Sublist (given.map Packet.entry)) (hcount : ∀ x ∈ ws, x.count ≤ totalSize x.entries)
    (halone : ws.Pairwise fun x y => x.Broken → y.count = 0) :
    ∃ whole : List Packet, whole.Sublist given ∧ (ws.flatMap Write.whole).map Iovec.bytes = whole.map Packet.bytes ∧
      ∃ tail, ws.flatMap Write.appended = (whole.map Packet.bytes).flatten ++ tail ∧
        (tail = [] ∨ ∃ b ∈ given, tail <+: b.bytes ∧ tail ≠ b.bytes) := by
  have hpos : ∀ x ∈ ws, ∀ e ∈ x.entries, 0 < e.size := by
    intro x hx e he
    obtain ⟨b, -, rfl⟩ := List.mem_map.mp (hsub.subset (List.mem_flatMap.mpr ⟨x, hx, he⟩))
    exact b.entry_pos
  obtain ⟨whole, hwhole, heq⟩ := List.sublist_map_iff.mp ((whole_sublist ws).trans hsub)
  obtain ⟨tail, happended, htorn⟩ := flatMap_appended_torn hcount hpos halone
  have hbytes : (ws.flatMap Write.whole).map Iovec.bytes = whole.map Packet.bytes := by
    rw [heq, List.map_map]
    rfl
  refine ⟨whole, hwhole, hbytes, tail, ?_, ?_⟩
  · rw [happended, ← hbytes, payload, List.flatMap_def]
  · rcases htorn with hnone | ⟨e, he, hpre⟩
    · exact Or.inl hnone
    · obtain ⟨b, hb, rfl⟩ := List.mem_map.mp (hsub.subset he)
      exact Or.inr ⟨b, hb, hpre⟩

/-- A run from an open and empty file: the hello header's write, and those of the packets in their order. -/
theorem SinkFile.run_hello (h : ops.Appends contents writes) {s : SinkFile F} (hopen : ops.isOpen s.dataFile = true)
    (hnew : writes s.dataFile = [] ∧ contents s.dataFile = []) {hdr : Mem} {calls : List SinkCall}
    (hcalls : SinkCall.HelloFirst hdr calls) :
    ∃ s' n ws, Runs.run (call ops) s calls = .ok s' ∧ writes s'.dataFile = ⟨[⟨hdr, sizeofHello⟩], n⟩ :: ws ∧
      contents s'.dataFile = (hdr.read 0 sizeofHello).take n ++ ws.flatMap Write.appended ∧
      (ws.flatMap Write.entries).Sublist ((calls.flatMap SinkCall.packets).map Packet.entry) ∧
      ∀ x ∈ ws, x.count ≤ totalSize x.entries := by
  obtain ⟨datas, rfl⟩ := hcalls
  obtain ⟨s₁, n, hcall, hhello⟩ := hello_spec h s hdr hopen
  obtain ⟨s', ws, hrun, hwrote, hsub⟩ := run_spec h s₁ (datas.map fun d => SinkCall.data d.1 d.2)
  rw [SinkCall.entries_datas] at hsub
  refine ⟨s', n, ws, by rw [Runs.run_step hcall, hrun], ?_, ?_, hsub, hwrote.count_le⟩
  · have hall := hwrote.writes_eq.trans (congrArg (· ++ ws) hhello.writes_eq)
    rw [show s.file .data = s.dataFile from rfl, hnew.1] at hall
    exact hall
  · have hall := hwrote.contents_eq.trans (congrArg (· ++ _) hhello.contents_eq)
    rw [show s.file .data = s.dataFile from rfl, hnew.2] at hall
    show contents (s'.file .data) = _
    simpa [Write.appended, payload, Iovec.bytes] using hall

/-- The hello header and whole packets with a piece of another one: the reader begins behind the header. -/
theorem synchronised_whole {hello tail : List UInt8} (hlen : hello.length = sizeofHello) {given whole : List Packet}
    (hwhole : whole.Sublist given) (htail : tail = [] ∨ ∃ b ∈ given, tail <+: b.bytes ∧ tail ≠ b.bytes) :
    Synchronised hello (given.map Packet.bytes) (whole.map Packet.bytes)
      (hello ++ ((whole.map Packet.bytes).flatten ++ tail)) where
  inOrder := hwhole.map Packet.bytes
  layout := by
    refine Or.inr ⟨tail, (List.append_assoc _ _ _).symm, ?_⟩
    rcases htail with hnone | ⟨b, hb, hpre⟩
    · exact Or.inl hnone
    · exact Or.inr ⟨b.bytes, List.mem_map_of_mem hb, hpre⟩
  recovered := by
    rw [List.drop_left' hlen]
    refine readPackets_eq whole (htail.imp_right ?_)
    rintro ⟨b, -, hpre⟩
    exact ⟨b, hpre⟩

/-- A piece of the hello header, and nothing behind it. -/
theorem synchronised_hello {hello : List UInt8} (hlen : hello.length = sizeofHello) (given : List (List UInt8)) (n : Nat) :
    Synchronised hello given [] (hello.take n) where
  inOrder := List.nil_sublist given
  layout := Or.inl ⟨List.take_prefix n hello, rfl⟩
  recovered := by
    rw [List.drop_eq_nil_of_le (by rw [List.length_take]; omega)]
    rfl

/-- Packets are not empty. -/
theorem whole_eq_nil {whole : List Packet} {tail : List UInt8} (h : [] = (whole.map Packet.bytes).flatten ++ tail) :
    whole = [] := by
  refine List.eq_nil_iff_forall_not_mem.mpr fun b hb => ?_
  have hflat := (List.append_eq_nil_iff.mp h.symm).1
  have hbytes := List.flatten_eq_nil_iff.mp hflat b.bytes (List.mem_map_of_mem hb)
  have hpos := b.entry_pos
  rw [← Iovec.length_bytes, show b.entry.bytes = [] from hbytes] at hpos
  exact absurd hpos (by decide)

/-- A run from an open and empty file leaves a readable file as long as the file is left alone behind a broken end. -/
theorem dataFile_synchronised (h : ops.Appends contents writes) {s : SinkFile F} (hopen : ops.isOpen s.dataFile = true)
    (hnew : writes s.dataFile = [] ∧ contents s.dataFile = []) {hdr : Mem} {calls : List SinkCall}
    (hcalls : SinkCall.HelloFirst hdr calls) :
    ∃ s', Runs.run (SinkFile.call ops) s calls = .ok s' ∧
      (LeftAlone (writes s'.dataFile) →
        Synchronised (hdr.read 0 sizeofHello) ((calls.flatMap SinkCall.packets).map Packet.bytes)
          (wholePackets (writes s'.dataFile)) (contents s'.dataFile)) := by
  obtain ⟨s', n, ws, hrun, hwrites, hcontents, hsub, hcount⟩ := SinkFile.run_hello h hopen hnew hcalls
  refine ⟨s', hrun, fun halone => ?_⟩
  rw [hwrites] at halone ⊢
  obtain ⟨hhead, hpairs⟩ := halone
  obtain ⟨whole, hwhole, hbytes, tail, happended, htail⟩ := packets_of_writes hsub hcount (List.pairwise_cons.mp hpairs).2
  have hlen : (hdr.read 0 sizeofHello).length = sizeofHello := Mem.length_read _ _ _
  rw [show wholePackets (⟨[⟨hdr, sizeofHello⟩], n⟩ :: ws) = whole.map Packet.bytes from hbytes, hcontents]
  rcases hhead _ rfl with hcomplete | hsilent
  · have hn : n = sizeofHello := hcomplete
    rw [hn, List.take_of_length_le (by omega), happended]
    exact synchronised_whole hlen hwhole htail
  · have hnone : ws.flatMap Write.appended = [] :=
      List.flatMap_eq_nil_iff.mpr fun x hx => by rw [Write.appended, hsilent x hx, List.take_zero]
    rw [hnone] at happended ⊢
    rw [whole_eq_nil happended, List.append_nil]
    exact synchronised_hello hlen _ n

/-- A packet of its header only. -/
def headerOnly (packetType : UInt8) : Packet :=
  ⟨fun i => if i = 0 then packetType else if i = 2 then 24 else 0, show sizeofDataBufHdr ≤ leVal [24, 0] by decide⟩

/-- The hello header and two calls with a packet each. -/
def twoPackets : List SinkCall :=
  [.hello fun _ => 0, .data true [headerOnly packetLogs], .data true [headerOnly packetLogs]]

/-- The last packet is torn. -/
theorem dataFile_synchronised_tornEnd :
    ∃ s', Runs.run (SinkFile.call ScriptFile.ops) (ScriptFile.opened [568, 24, 10]) twoPackets = .ok s' ∧
      Synchronised (Mem.read (fun _ => 0) 0 sizeofHello) ((twoPackets.flatMap SinkCall.packets).map Packet.bytes)
        (wholePackets s'.dataFile.writes) s'.dataFile.contents := by
  have hcalls : SinkCall.HelloFirst (fun _ => 0) twoPackets :=
    ⟨[(true, [headerOnly packetLogs]), (true, [headerOnly packetLogs])], rfl⟩
  obtain ⟨s', hrun, hsync⟩ := dataFile_synchronised (s := ScriptFile.opened [568, 24, 10]) ScriptFile.appends rfl ⟨rfl, rfl⟩
    hcalls
  have halone : ∀ s ∈ (Runs.run (SinkFile.call ScriptFile.ops) (ScriptFile.opened [568, 24, 10]) twoPackets).toOption,
      LeftAlone s.dataFile.writes := by decide +kernel
  exact ⟨s', hrun, hsync (halone s' (by rw [hrun]; rfl))⟩

/-- The first packet is torn by one byte, and the second one is written behind it: the reader takes the first byte of the second
for the last one of the first. -/
theorem dataFile_desynchronised :
    ∃ s', Runs.run (SinkFile.call ScriptFile.ops) (ScriptFile.opened [568, 23]) twoPackets = .ok s' ∧
      ¬ Synchronised (Mem.read (fun _ => 0) 0 sizeofHello) ((twoPackets.flatMap SinkCall.packets).map Packet.bytes)
        (wholePackets s'.dataFile.writes) s'.dataFile.contents := by
  have hlost : ∀ s ∈ (Runs.run (SinkFile.call ScriptFile.ops) (ScriptFile.opened [568, 23]) twoPackets).toOption,
      readPackets (s.dataFile.contents.drop sizeofHello) ≠ wholePackets s.dataFile.writes := by decide +kernel
  obtain ⟨s', -, hrun, -⟩ := SinkFile.run_spec ScriptFile.appends (ScriptFile.opened [568, 23]) twoPackets
  refine ⟨s', hrun, fun hsync => hlost s' ?_ hsync.recovered⟩
  rw [hrun]
  rfl

end P8
