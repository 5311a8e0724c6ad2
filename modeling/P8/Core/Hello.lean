import P8.Protocol

/-!
# Hello: the first packet

`cp8_core::init_header` fills a `s_p8_hdr` in the host's own byte order and swaps its fields on a big-endian host, so that the
packet is always little-endian. What is transmitted is the memory of the structure (`HelloHdr.image`). Everything arrives as it
was but the UTC offset: the field is for seconds, and hours are stored in it, as an `int8_t`.

The hash is that of the XXH3 library, and here any function of the bytes it is taken over.
-/

namespace P8

open Bytes

/-- `P8_PACKET_MAIN`. -/
def packetMain : UInt8 := 0

/-- `P8_PROTOCOL_VERSION`. -/
def protocolVersion : UInt8 := 1

/-- `sizeof(s_p8_hdr)`. -/
def sizeofHello : Nat := 568

/-- `offsetof(s_p8_hdr, mu_hash)`. -/
def offsetofHash : Nat := 560

/-- `kit::bswap32`. -/
def bswap32 (x : UInt32) : UInt32 := UInt32.ofNat (leVal (leBytes 4 x.toNat).reverse)

/-- `kit::bswap64`. -/
def bswap64 (x : UInt64) : UInt64 := UInt64.ofNat (leVal (leBytes 8 x.toNat).reverse)

/-- `s_p8_hdr`, with its values as the host reads them. -/
structure HelloHdr where
  packetType : UInt8
  protocolVersion : UInt8
  isBigEndian : UInt8
  padding : UInt8
  utcSecOffset : Int32
  size : UInt32
  processId : UInt32
  systemTime : UInt64
  hiresTick : UInt64
  hiresFreqNumer : UInt64
  hiresFreqDenom : UInt64
  processName : Vector UInt8 256
  hostName : Vector UInt8 256
  hash : UInt64

/-- A number of `n` bytes in the memory of a host. -/
def hostBytes (bigEndian : Bool) (n v : Nat) : List UInt8 := if bigEndian then (leBytes n v).reverse else leBytes n v

/-- The part of a header's memory that the hash is taken over. -/
def HelloHdr.front (bigEndian : Bool) (h : HelloHdr) : List UInt8 :=
  [h.packetType, h.protocolVersion, h.isBigEndian, h.padding] ++ hostBytes bigEndian 4 h.utcSecOffset.toUInt32.toNat ++
    hostBytes bigEndian 4 h.size.toNat ++ hostBytes bigEndian 4 h.processId.toNat ++ hostBytes bigEndian 8 h.systemTime.toNat ++
    hostBytes bigEndian 8 h.hiresTick.toNat ++ hostBytes bigEndian 8 h.hiresFreqNumer.toNat ++
    hostBytes bigEndian 8 h.hiresFreqDenom.toNat ++ h.processName.toList ++ h.hostName.toList

/-- The memory of a header. -/
def HelloHdr.image (bigEndian : Bool) (h : HelloHdr) : List UInt8 :=
  h.front bigEndian ++ hostBytes bigEndian 8 h.hash.toNat

/-- What `init_header` asks the system for, and what the timer callbacks of the configuration give, if it has both: the value
and the frequency. -/
structure HelloEnv where
  utcOffsetSeconds : Int32
  processId : UInt32
  systemTime : UInt64
  timer : Option (UInt64 × UInt64)
  hiresTicks : UInt64
  hiresTicksFreq : UInt64 × UInt64
  processName : Vector UInt8 256
  hostName : Vector UInt8 256

/-- The tick value to be transmitted. -/
def HelloEnv.tick (env : HelloEnv) : UInt64 :=
  match env.timer with
  | some (value, _) => value
  | none => env.hiresTicks

/-- The tick frequency to be transmitted, as numerator and denominator. -/
def HelloEnv.freq (env : HelloEnv) : UInt64 × UInt64 :=
  match env.timer with
  | some (_, frequency) => (1000000000, frequency)
  | none => env.hiresTicksFreq

/-- The swaps of `init_header` on a big-endian host. -/
def HelloHdr.swapped (h : HelloHdr) : HelloHdr :=
  { h with
    size := bswap32 h.size
    utcSecOffset := (bswap32 h.utcSecOffset.toUInt32).toInt32
    processId := bswap32 h.processId
    systemTime := bswap64 h.systemTime
    hiresTick := bswap64 h.hiresTick
    hiresFreqNumer := bswap64 h.hiresFreqNumer
    hiresFreqDenom := bswap64 h.hiresFreqDenom }

/-- `cp8_core::init_header`. -/
def initHeader (hash : List UInt8 → UInt64) (bigEndian : Bool) (env : HelloEnv) : HelloHdr :=
  let h : HelloHdr :=
    { packetType := packetMain
      protocolVersion := protocolVersion
      isBigEndian := if bigEndian then 1 else 0
      padding := 0
      utcSecOffset := (env.utcOffsetSeconds / 3600).toInt8.toInt32
      size := UInt32.ofNat sizeofHello
      processId := env.processId
      systemTime := env.systemTime
      hiresTick := env.tick
      hiresFreqNumer := env.freq.1
      hiresFreqDenom := env.freq.2
      processName := env.processName
      hostName := env.hostName
      hash := 0 }
  let h := if bigEndian then h.swapped else h
  let h := { h with hash := hash (h.front bigEndian) }
  if bigEndian then { h with hash := bswap64 h.hash } else h

/-! ## The bytes of the packet -/

/-- Reading bytes in the other order and writing them gives the bytes in the other order. -/
theorem leBytes_reversed (n v : Nat) : leBytes n (leVal (leBytes n v).reverse) = (leBytes n v).reverse := by
  have h := leBytes_leVal (leBytes n v).reverse
  rwa [List.length_reverse, length_leBytes] at h

/-- Bytes read in the other order are as many. -/
theorem leVal_reversed_lt (n v : Nat) : leVal (leBytes n v).reverse < 256 ^ n := by
  have h := leVal_lt (leBytes n v).reverse
  rwa [List.length_reverse, length_leBytes] at h

/-- What a big-endian host has in memory of a swapped number is what a little-endian one has of the number itself. -/
theorem hostBytes_bswap32 (x : UInt32) : hostBytes true 4 (bswap32 x).toNat = leBytes 4 x.toNat := by
  have hlt : leVal (leBytes 4 x.toNat).reverse < UInt32.size := lt_of_lt_of_eq (leVal_reversed_lt 4 _) (by decide)
  rw [hostBytes, if_pos rfl, bswap32, UInt32.toNat_ofNat_of_lt' hlt, leBytes_reversed, List.reverse_reverse]

/-- On a host of the other order the swapped hash is stored in the order of the wire. -/
theorem hostBytes_bswap64 (x : UInt64) : hostBytes true 8 (bswap64 x).toNat = leBytes 8 x.toNat := by
  have hlt : leVal (leBytes 8 x.toNat).reverse < UInt64.size := lt_of_lt_of_eq (leVal_reversed_lt 8 _) (by decide)
  rw [hostBytes, if_pos rfl, bswap64, UInt64.toNat_ofNat_of_lt' hlt, leBytes_reversed, List.reverse_reverse]

/-- On a host of the wire's order a number is stored as it is transmitted. -/
theorem hostBytes_false (n v : Nat) : hostBytes false n v = leBytes n v := rfl

/-- The packet up to the hash, as it is transmitted by any host. -/
def HelloEnv.wire (bigEndian : Bool) (env : HelloEnv) : List UInt8 :=
  [packetMain, protocolVersion, if bigEndian then 1 else 0, 0] ++
    leBytes 4 (env.utcOffsetSeconds / 3600).toInt8.toInt32.toUInt32.toNat ++ leBytes 4 sizeofHello ++
    leBytes 4 env.processId.toNat ++ leBytes 8 env.systemTime.toNat ++ leBytes 8 env.tick.toNat ++
    leBytes 8 env.freq.1.toNat ++ leBytes 8 env.freq.2.toNat ++ env.processName.toList ++ env.hostName.toList

/-- The packet of a host is the fields on the wire and the hash over them. -/
theorem image_initHeader (hash : List UInt8 → UInt64) (bigEndian : Bool) (env : HelloEnv) :
    (initHeader hash bigEndian env).image bigEndian =
      env.wire bigEndian ++ leBytes 8 (hash (env.wire bigEndian)).toNat := by
  have hsize : (UInt32.ofNat sizeofHello).toNat = sizeofHello := rfl
  cases bigEndian with
  | false => simp only [initHeader, HelloHdr.image, HelloHdr.front, hostBytes_false, HelloEnv.wire, Bool.false_eq_true, if_false, hsize]
  | true =>
    simp only [initHeader, HelloHdr.image, HelloHdr.front, HelloHdr.swapped, if_true, hostBytes_bswap32, hostBytes_bswap64,
      UInt32.toUInt32_toInt32, HelloEnv.wire, hsize]

/-! ## Reading it -/

/-- What a reader finds in the bytes of a packet, by the little-endian offsets of `s_p8_hdr`. -/
structure Arrives (hash : List UInt8 → UInt64) (bigEndian : Bool) (env : HelloEnv) (bs : List UInt8) : Prop where
  length : bs.length = sizeofHello
  type : LogItemDat.field bs 0 1 = packetMain.toNat
  version : LogItemDat.field bs 1 1 = protocolVersion.toNat
  isBigEndian : LogItemDat.field bs 2 1 = if bigEndian then 1 else 0
  utcOffset : (UInt32.ofNat (LogItemDat.field bs 4 4)).toInt32 = env.utcOffsetSeconds
  size : LogItemDat.field bs 8 4 = sizeofHello
  processId : UInt32.ofNat (LogItemDat.field bs 12 4) = env.processId
  systemTime : UInt64.ofNat (LogItemDat.field bs 16 8) = env.systemTime
  tick : UInt64.ofNat (LogItemDat.field bs 24 8) = env.tick
  freq : (UInt64.ofNat (LogItemDat.field bs 32 8), UInt64.ofNat (LogItemDat.field bs 40 8)) = env.freq
  processName : (bs.drop 48).take 256 = env.processName.toList
  hostName : (bs.drop 304).take 256 = env.hostName.toList
  hash : UInt64.ofNat (LogItemDat.field bs offsetofHash 8) = hash (bs.take offsetofHash)

/-- Two packets with the same bytes before the hash, up to the one that tells the byte order. -/
def SameButOrder (a b : List UInt8) : Prop := ∀ i < offsetofHash, i ≠ 2 → a[i]? = b[i]?

/-- The packet of either kind of host gives back what the host put in, and the two kinds transmit
the same bytes. -/
def HelloEnv.RoundTrip (hash : List UInt8 → UInt64) (bigEndian : Bool) (env : HelloEnv) : Prop :=
  Arrives hash bigEndian env ((initHeader hash bigEndian env).image bigEndian) ∧
    SameButOrder ((initHeader hash true env).image true) ((initHeader hash false env).image false)

/-- The fields take the bytes in front of the hash. -/
theorem HelloEnv.length_wire (bigEndian : Bool) (env : HelloEnv) : (env.wire bigEndian).length = offsetofHash := by
  simp [HelloEnv.wire, offsetofHash]

/-- A run of bytes behind another does not see it. -/
theorem run_skip (pre bs : List UInt8) (off n : Nat) (h : pre.length ≤ off) :
    ((pre ++ bs).drop off).take n = (bs.drop (off - pre.length)).take n := by
  rw [List.drop_append, List.drop_of_length_le h, List.nil_append]

/-- A run of bytes at the front is these bytes. -/
theorem run_front (mid post : List UInt8) (n : Nat) (h : mid.length = n) : ((mid ++ post).drop 0).take n = mid := by
  rw [List.drop_zero, List.take_left' h]

/-- The fields at their offsets, from the UTC offset on: what the code stores there, and what the host put in elsewhere. -/
theorem HelloEnv.wire_fields (bigEndian : Bool) (env : HelloEnv) (post : List UInt8) :
    UInt32.ofNat (LogItemDat.field (env.wire bigEndian ++ post) 4 4) =
        (env.utcOffsetSeconds / 3600).toInt8.toInt32.toUInt32 ∧
      LogItemDat.field (env.wire bigEndian ++ post) 8 4 = sizeofHello ∧
      UInt32.ofNat (LogItemDat.field (env.wire bigEndian ++ post) 12 4) = env.processId ∧
      UInt64.ofNat (LogItemDat.field (env.wire bigEndian ++ post) 16 8) = env.systemTime ∧
      UInt64.ofNat (LogItemDat.field (env.wire bigEndian ++ post) 24 8) = env.tick ∧
      UInt64.ofNat (LogItemDat.field (env.wire bigEndian ++ post) 32 8) = env.freq.1 ∧
      UInt64.ofNat (LogItemDat.field (env.wire bigEndian ++ post) 40 8) = env.freq.2 := by
  have hsize : leVal (leBytes 4 sizeofHello) = sizeofHello := by decide
  simp (disch := simp) only [HelloEnv.wire, List.append_assoc, LogItemDat.field_skip, length_leBytes, List.length_cons,
    List.length_nil, Nat.reduceAdd, Nat.reduceSub, Nat.zero_add, LogItemDat.field_front, LogItemDat.ofNat32_leVal,
    LogItemDat.ofNat64_leVal, hsize, and_self]

/-- The names at their offsets. -/
theorem HelloEnv.wire_names (bigEndian : Bool) (env : HelloEnv) (post : List UInt8) :
    ((env.wire bigEndian ++ post).drop 48).take 256 = env.processName.toList ∧
      ((env.wire bigEndian ++ post).drop 304).take 256 = env.hostName.toList := by
  simp (disch := simp) only [HelloEnv.wire, List.append_assoc, run_skip, length_leBytes, List.length_cons, List.length_nil,
    Vector.length_toList, Nat.reduceAdd, Nat.reduceSub, Nat.zero_add, run_front, and_self]

/-- The first fields at their offsets. -/
theorem HelloEnv.wire_head (bigEndian : Bool) (env : HelloEnv) (post : List UInt8) :
    LogItemDat.field (env.wire bigEndian ++ post) 0 1 = packetMain.toNat ∧
      LogItemDat.field (env.wire bigEndian ++ post) 1 1 = protocolVersion.toNat ∧
      LogItemDat.field (env.wire bigEndian ++ post) 2 1 = if bigEndian then 1 else 0 := by
  refine ⟨by simp [HelloEnv.wire, LogItemDat.field, leVal], by simp [HelloEnv.wire, LogItemDat.field, leVal], ?_⟩
  cases bigEndian with
  | false => simp [HelloEnv.wire, LogItemDat.field, leVal]
  | true => simp [HelloEnv.wire, LogItemDat.field, leVal]

/-- Everything else arrives, and the offset as its hours. -/
theorem arrives_iff (hash : List UInt8 → UInt64) (bigEndian : Bool) (env : HelloEnv) :
    Arrives hash bigEndian env ((initHeader hash bigEndian env).image bigEndian) ↔
      (env.utcOffsetSeconds / 3600).toInt8.toInt32 = env.utcOffsetSeconds := by
  rw [image_initHeader]
  obtain ⟨hutc, hsize, hpid, htime, htick, hnumer, hdenom⟩ :=
    env.wire_fields bigEndian (leBytes 8 (hash (env.wire bigEndian)).toNat)
  obtain ⟨htype, hversion, horder⟩ := env.wire_head bigEndian (leBytes 8 (hash (env.wire bigEndian)).toNat)
  obtain ⟨hprocess, hhost⟩ := env.wire_names bigEndian (leBytes 8 (hash (env.wire bigEndian)).toNat)
  have hlen := env.length_wire bigEndian
  constructor
  · intro h
    exact ((congrArg UInt32.toInt32 hutc).trans (Int32.toInt32_toUInt32 _)).symm.trans h.utcOffset
  · intro hours
    refine ⟨?_, htype, hversion, horder, ?_, hsize, hpid, htime, htick, ?_, hprocess, hhost, ?_⟩
    · simp [hlen, offsetofHash, sizeofHello]
    · rw [hutc, Int32.toInt32_toUInt32, hours]
    · rw [hnumer, hdenom]
    · rw [LogItemDat.field_skip _ _ _ _ (Nat.le_of_eq hlen), hlen, Nat.sub_self, ← List.append_nil (leBytes 8 _),
        LogItemDat.field_front _ _ _ (length_leBytes 8 _), LogItemDat.ofNat64_leVal, List.take_left' hlen]

/-- The byte order of the host is seen in its own byte, and nowhere else before the hash. -/
theorem sameButOrder_image (hash : List UInt8 → UInt64) (env : HelloEnv) :
    SameButOrder ((initHeader hash true env).image true) ((initHeader hash false env).image false) := by
  intro i hi hne
  have hlt (bigEndian : Bool) : i < (env.wire bigEndian).length := by rwa [env.length_wire bigEndian]
  rw [image_initHeader, image_initHeader, List.getElem?_append_left (hlt true), List.getElem?_append_left (hlt false)]
  simp only [HelloEnv.wire, List.append_assoc, List.cons_append, List.nil_append]
  match i, hne with
  | 0, _ => rfl
  | 1, _ => rfl
  | j + 3, _ => rfl

/-- The number of hours is one of seconds only where there is no offset. -/
theorem hours_eq_iff (x : Int32) : (x / 3600).toInt8.toInt32 = x ↔ x = 0 := by
  constructor
  · intro h
    have hhours := congrArg Int32.toInt h
    rw [Int8.toInt_toInt32] at hhours
    have hlow := (x / 3600).toInt8.le_toInt
    have hhigh := (x / 3600).toInt8.toInt_lt
    rw [hhours] at hlow hhigh
    have hdiv : (x / 3600).toInt = x.toInt.tdiv 3600 := Int32.toInt_div_of_ne_right _ _ (by decide)
    have hnone : x.toInt.tdiv 3600 = 0 := by
      rcases Int.le_total 0 x.toInt with hpos | hneg
      · exact Int.tdiv_eq_zero_of_lt hpos (by omega)
      · have hback : (-x.toInt).tdiv 3600 = 0 := Int.tdiv_eq_zero_of_lt (by omega) (by omega)
        rw [Int.neg_tdiv] at hback
        omega
    have hzero : x / 3600 = 0 := Int32.toInt_inj.mp (hdiv.trans hnone)
    rw [← h, hzero]
    decide
  · intro h
    simp [h]

/-- The packet gives back what the host put in exactly where local time is UTC. -/
theorem HelloEnv.roundTrip_iff (hash : List UInt8 → UInt64) (bigEndian : Bool) (env : HelloEnv) :
    env.RoundTrip hash bigEndian ↔ env.utcOffsetSeconds = 0 := by
  rw [← hours_eq_iff env.utcOffsetSeconds, ← arrives_iff hash bigEndian env]
  constructor
  · intro h
    exact h.1
  · intro h
    exact ⟨h, sameButOrder_image hash env⟩

/-- A host one hour east of Greenwich: it transmits an offset of one second. -/
theorem HelloEnv.roundTrip_false :
    ¬ ∀ (hash : List UInt8 → UInt64) (bigEndian : Bool) (env : HelloEnv), env.RoundTrip hash bigEndian := by
  intro h
  let env : HelloEnv :=
    { utcOffsetSeconds := 3600
      processId := 1
      systemTime := 133000000000000000
      timer := none
      hiresTicks := 5
      hiresTicksFreq := (1000000000, 1000000000)
      processName := Vector.replicate 256 0
      hostName := Vector.replicate 256 0 }
  have harrives := (arrives_iff (fun _ => 0) false env).mp (h (fun _ => 0) false env).1
  have hhours : ((3600 : Int32) / 3600).toInt8.toInt32 ≠ 3600 := by decide
  exact hhours harrives

end P8
