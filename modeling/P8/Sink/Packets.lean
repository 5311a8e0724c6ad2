import P8.Sink.DataFile
import P8.Writer

/-!
# Packets: data buffers in memory, and the streams they are sorted into

Of a data buffer the writers' model keeps the header as its fields; the sink is given the buffer's memory, which is
`DataBuf.image`, the 24 bytes of the header in front. A receiver of the data file looks at the headers of its packets and puts
the bytes behind those it selects one after the other (`gather`): the packets of one kind, or of some threads.
-/

namespace P8

open Bytes Framing

namespace DataBufHdr

/-- The 24 bytes of a buffer header. -/
def encode (h : DataBufHdr) : List UInt8 :=
  leBytes 1 h.packetType.toNat ++ leBytes 1 h.flags.toNat ++ leBytes 2 h.size.toNat ++ leBytes 4 h.threadId.toNat ++
    leBytes 8 h.startTime.toNat ++ leBytes 8 h.stopTime.toNat

/-- A buffer header read from the front of a packet. -/
def decode (bs : List UInt8) : DataBufHdr where
  packetType := UInt8.ofNat (LogItemDat.field bs 0 1)
  flags := UInt8.ofNat (LogItemDat.field bs 1 1)
  size := UInt16.ofNat (LogItemDat.field bs 2 2)
  threadId := UInt32.ofNat (LogItemDat.field bs 4 4)
  startTime := UInt64.ofNat (LogItemDat.field bs 8 8)
  stopTime := UInt64.ofNat (LogItemDat.field bs 16 8)

@[simp] theorem length_encode (h : DataBufHdr) : h.encode.length = sizeofDataBufHdr := by
  simp [encode, sizeofDataBufHdr]

/-- A header is read back from its bytes, whatever follows them. -/
theorem decode_encode (h : DataBufHdr) (rest : List UInt8) : decode (h.encode ++ rest) = h := by
  simp [decode, encode, LogItemDat.field_skip, LogItemDat.field_front, LogItemDat.ofNat64_leVal, LogItemDat.ofNat32_leVal,
    LogItemDat.ofNat16_leVal, LogItemDat.ofNat8_leVal]

end DataBufHdr

namespace DataBuf

/-- The memory of a buffer: its header, and its bytes behind the header. -/
def image (b : DataBuf) : Mem := b.mem.write 0 b.hdr.encode

/-- The size in a buffer's header counts at least the header. -/
def Counted (b : DataBuf) : Prop := sizeofDataBufHdr ≤ b.hdr.size.toNat

variable {b : DataBuf}

/-- The front of the memory is the header. -/
theorem read_image_hdr (b : DataBuf) : b.image.read 0 sizeofDataBufHdr = b.hdr.encode := by
  have hread := Mem.read_write_self b.mem 0 b.hdr.encode
  rwa [DataBufHdr.length_encode] at hread

/-- The size is found where `mu_size` is. -/
theorem muSize_image (b : DataBuf) : muSize b.image = b.hdr.size.toNat := by
  have hfront : b.image.read 0 sizeofDataBufHdr = b.image.read 0 2 ++ (b.image.read 2 2 ++ b.image.read 4 20) := by
    rw [show sizeofDataBufHdr = 2 + (2 + 20) from rfl, Mem.read_add, Mem.read_add]
  have hsize : LogItemDat.field (b.image.read 0 sizeofDataBufHdr) 2 2 = muSize b.image := by
    rw [hfront, LogItemDat.field_skip _ _ _ _ (by simp), Mem.length_read, LogItemDat.field_front _ _ _ (Mem.length_read _ _ _),
      muSize]
  have hhdr := congrArg (fun h => h.size.toNat) (DataBufHdr.decode_encode b.hdr [])
  rw [List.append_nil, ← read_image_hdr] at hhdr
  have hlt : muSize b.image < 2 ^ 16 := by
    have hbytes := leVal_lt (b.image.read 2 2)
    rwa [Mem.length_read] at hbytes
  rw [← hhdr, DataBufHdr.decode, hsize]
  exact (toNat_size hlt).symm

/-- What the sink writes of a buffer: its header, and the bytes a reader cuts. -/
theorem read_image (h : b.Counted) : b.image.read 0 b.hdr.size.toNat = b.hdr.encode ++ b.frame.data := by
  obtain ⟨n, hn⟩ := Nat.exists_eq_add_of_le h
  rw [frame, hn, Mem.read_add, read_image_hdr, Nat.zero_add, Nat.add_sub_cancel_left]
  rw [image, Mem.read_write_of_ge _ _ _ (by simp)]

/-- The packet of a buffer. -/
def packet (b : DataBuf) (h : b.Counted) : Packet := ⟨b.image, by rw [muSize_image]; exact h⟩

/-- The bytes of a packet are its header and what it carries. -/
theorem bytes_packet (h : b.Counted) : (b.packet h).bytes = b.hdr.encode ++ b.frame.data := by
  rw [← read_image h, ← muSize_image]
  rfl

/-- The bytes of some buffers as the sink writes them. -/
def wire (bufs : List DataBuf) : List (List UInt8) := bufs.map fun b => b.hdr.encode ++ b.frame.data

/-- A reader that knows where packets end finds those that were written. -/
theorem readPackets_wire {bufs : List DataBuf} (h : ∀ b ∈ bufs, b.Counted) : readPackets (wire bufs).flatten = wire bufs := by
  have hmap : wire bufs = (bufs.pmap packet h).map Packet.bytes := by
    rw [List.map_pmap, wire, ← List.pmap_eq_map (p := Counted) (H := h)]
    exact List.pmap_congr_left bufs (fun b _ hb _ => (bytes_packet hb).symm)
  have hread : readPackets (((bufs.pmap packet h).map Packet.bytes).flatten ++ []) = (bufs.pmap packet h).map Packet.bytes :=
    readPackets_eq (bufs.pmap packet h) (Or.inl rfl)
  rwa [List.append_nil, ← hmap] at hread

end DataBuf

/-- The bytes behind the headers of the packets that are selected. -/
def gather (sel : DataBufHdr → Bool) (packets : List (List UInt8)) : List UInt8 :=
  (packets.filter fun p => sel (DataBufHdr.decode p)).flatMap fun p => p.drop sizeofDataBufHdr

/-- From the packets of buffers the frames of those with selected headers are gathered. -/
theorem gather_wire (sel : DataBufHdr → Bool) (bufs : List DataBuf) :
    gather sel (DataBuf.wire bufs) = stream ((bufs.filter fun b => sel b.hdr).map DataBuf.frame) := by
  induction bufs with
  | nil => rfl
  | cons b bufs ih =>
    have hdrop : (b.hdr.encode ++ b.frame.data).drop sizeofDataBufHdr = b.frame.data := List.drop_left' (by simp)
    unfold gather DataBuf.wire at ih ⊢
    rw [List.map_cons, List.filter_cons, DataBufHdr.decode_encode, List.filter_cons]
    split
    · rw [List.flatMap_cons, hdrop, ih, List.map_cons, stream_cons]
    · exact ih

end P8
