import P8.Log.Run
import P8.Service.Registries

/-!
# Encoders: the three loops that write attributes

`cp8_tls_writer::serialize_attrs` writes attributes into an area that ends at `ip_buf_end`, and takes an attribute that does
not fit whole back. The loop of `send` writes them over the buffers of a record, `encode_attr_blob` into a vector. All three
write the same bytes, `attrsPieces`, and here they are put beside each other.

`serialize_utf8_string` gives 0 where it has no room, and no other time. A store behind `ip_buf_end` is a fault. Offsets are
natural numbers: the area lies in one buffer, and `lp_dst` never passes its end.
-/

namespace P8

open Bytes Framing

/-- The destination of `serialize_attrs`: the memory with `lp_dst` in it, the attributes written, and the writer's cache. -/
structure AttrArea where
  mem : Mem
  dst : Nat
  count : UInt8
  cache : List AttrDesc

namespace AttrArea

/-- `memcpy` to an offset of the area. -/
def store (bufEnd a : Nat) (bs : List UInt8) (o : AttrArea) : Except Fault AttrArea :=
  if a + bs.length ≤ bufEnd then .ok { o with mem := o.mem.write a bs } else .error .outOfBounds

/-- Move `lp_dst` on. -/
def advance (n : Nat) (o : AttrArea) : AttrArea := { o with dst := o.dst + n }

/-- Count an attribute. -/
def counted (o : AttrArea) : AttrArea := { o with count := o.count + 1 }

/-- `cp8_tls_writer::serialize_utf8_string` at `lp_dst`: the area, and what the call returns. -/
def serializeUtf8String (bufEnd avail : Nat) (str : Option CStr) (o : AttrArea) : Except Fault (AttrArea × Nat) :=
  let src := str.getD []
  let len := (strLen src.length).toNat
  if avail < 2 + len then .ok (o, 0)
  else do
    let o ← o.store bufEnd o.dst (leBytes 2 len)
    if len = 0 then return (o, 2 + len)
    else
      let o ← o.store bufEnd (o.dst + 2) (src.take len)
      return (o, 2 + len)

/-- A registered attribute, by its registered type; false where the loop ends for want of room. -/
def serializeValue (bufEnd : Nat) (d : AttrDesc) (a : AttrVal) (o : AttrArea) : Except Fault (AttrArea × Bool) :=
  if d.type = .str then
    if bufEnd - o.dst < 4 then .ok (o, false)
    else do
      let o ← o.store bufEnd o.dst (Rec.idBytes a.id)
      let o := o.advance 4
      let (o, written) ← o.serializeUtf8String bufEnd (bufEnd - o.dst) a.str
      -- the id is already there: `lp_dst` goes back in front of it
      if written = 0 then return ({ o with dst := o.dst - 4 }, false)
      else return ((o.advance written).counted, true)
  else if bufEnd < o.dst + 12 then .ok (o, false)
  else do
    let o ← o.store bufEnd o.dst (Rec.idBytes a.id)
    let o ← o.store bufEnd (o.dst + 4) (leBytes 8 a.u64.toNat)
    return ((o.advance 12).counted, true)

/-- One round of the loop; false where it ends. -/
def serializeAttr (core : Core) (bufEnd : Nat) (a : AttrVal) (o : AttrArea) : Except Fault (AttrArea × Bool) :=
  if a.id < 0 then .ok (o, true)
  else
    let idx := Core.attrIndex a.id
    let cache := Rec.cacheFor core o.cache idx
    match cache[idx]? with
    | none => .ok ({ o with cache := cache }, true)
    | some d => serializeValue bufEnd d a { o with cache := cache }

/-- The loop of `cp8_tls_writer::serialize_attrs`. -/
def serializeLoop (core : Core) (bufEnd : Nat) : List AttrVal → AttrArea → Except Fault AttrArea
  | [], o => .ok o
  | a :: as, o =>
    match o.serializeAttr core bufEnd a with
    | .error f => .error f
    | .ok (o, true) => serializeLoop core bufEnd as o
    | .ok (o, false) => .ok o

end AttrArea

/-- `cp8_tls_writer::serialize_attrs` of a writer with the given cache, into the area from `dst` to `bufEnd`. -/
def serializeAttrs (core : Core) (cache : List AttrDesc) (mem : Mem) (dst bufEnd : Nat) (attrs : Option (List AttrVal)) :
    Except Fault AttrArea :=
  AttrArea.serializeLoop core bufEnd (attrs.getD []) ⟨mem, dst, 0, cache⟩

/-! ## An attribute in the area -/

/-- Attributes one after the other. -/
def attrsBytes (ps : List (AttrDesc × AttrVal)) : List UInt8 := payload (ps.flatMap (fun p => attrPieces p.1 p.2))

@[simp] theorem attrsBytes_nil : attrsBytes [] = [] := rfl

@[simp] theorem attrsBytes_cons (p : AttrDesc × AttrVal) (ps : List (AttrDesc × AttrVal)) :
    attrsBytes (p :: ps) = attrBytes p.1 p.2 ++ attrsBytes ps := by
  simp [attrsBytes, attrBytes_eq]

/-- What writing bytes to an area comes to: they follow those in front of `lp_dst`, which stands behind them. -/
structure AreaAppended (bs : List UInt8) (n : UInt8) (o o' : AttrArea) : Prop where
  dst : o'.dst = o.dst + bs.length
  read : ∀ a k, a + k = o.dst → o'.mem.read a (k + bs.length) = o.mem.read a k ++ bs
  count : o'.count = o.count + n

/-- Two areas appended, one behind the other. -/
theorem AreaAppended.trans {bs cs : List UInt8} {n m : UInt8} {o o' o'' : AttrArea} (h : AreaAppended bs n o o')
    (h' : AreaAppended cs m o' o'') : AreaAppended (bs ++ cs) (n + m) o o'' := by
  refine ⟨by rw [h'.dst, h.dst, List.length_append, Nat.add_assoc], ?_, by rw [h'.count, h.count, UInt8.add_assoc]⟩
  intro a k hk
  have hread := h'.read a (k + bs.length) (by rw [h.dst]; omega)
  rw [h.read a k hk, Nat.add_assoc] at hread
  rw [List.length_append, hread, List.append_assoc]

/-- A store within the area. -/
theorem store_fits {bufEnd a : Nat} {bs : List UInt8} {o : AttrArea} (h : a + bs.length ≤ bufEnd) :
    o.store bufEnd a bs = .ok { o with mem := o.mem.write a bs } := by
  rw [AttrArea.store, if_pos h]

/-- A string in an area that has room for it. -/
theorem serializeUtf8String_fits {bufEnd : Nat} {o : AttrArea} {str : Option CStr} {len : Nat}
    (hlen : (strLen (str.getD []).length).toNat = len) (hroom : o.dst + (2 + len) ≤ bufEnd) :
    ∃ mem, o.serializeUtf8String bufEnd (bufEnd - o.dst) str = .ok ({ o with mem := mem }, 2 + len) ∧
      ∀ a k, a + k = o.dst → mem.read a (k + (2 + len)) = o.mem.read a k ++ (leBytes 2 len ++ (str.getD []).take len) := by
  have hle : len ≤ (str.getD []).length := by
    rw [← hlen, strLen_eq]
    exact Nat.min_le_left _ _
  have htake : ((str.getD []).take len).length = len := by simp [hle]
  have hhead : o.store bufEnd o.dst (leBytes 2 len) = .ok { o with mem := o.mem.write o.dst (leBytes 2 len) } :=
    store_fits (by rw [length_leBytes]; omega)
  have hread : ∀ a k, a + k = o.dst → (o.mem.write o.dst (leBytes 2 len)).read a (k + 2) = o.mem.read a k ++ leBytes 2 len := by
    intro a k hk
    have h := Mem.read_write_append o.mem a k (leBytes 2 len)
    rwa [hk, length_leBytes] at h
  simp only [AttrArea.serializeUtf8String, hlen, if_neg (show ¬ bufEnd - o.dst < 2 + len by omega), hhead, bind,
    Except.bind]
  by_cases hz : len = 0
  · refine ⟨o.mem.write o.dst (leBytes 2 len), ?_, ?_⟩
    · rw [if_pos hz]
      rfl
    · intro a k hk
      rw [hz] at hread ⊢
      simpa using hread a k hk
  · refine ⟨(o.mem.write o.dst (leBytes 2 len)).write (o.dst + 2) ((str.getD []).take len), ?_, ?_⟩
    · rw [if_neg hz, store_fits (by rw [htake]; omega)]
      rfl
    · intro a k hk
      have h := Mem.read_write_append (o.mem.write o.dst (leBytes 2 len)) a (k + 2) ((str.getD []).take len)
      rw [← Nat.add_assoc a, hk, htake, hread a k hk, List.append_assoc, Nat.add_assoc] at h
      exact h

/-- A string in an area that has no room for it. -/
theorem serializeUtf8String_full {bufEnd : Nat} {o : AttrArea} {str : Option CStr} {len : Nat}
    (hlen : (strLen (str.getD []).length).toNat = len) (hfull : bufEnd - o.dst < 2 + len) :
    o.serializeUtf8String bufEnd (bufEnd - o.dst) str = .ok (o, 0) := by
  simp only [AttrArea.serializeUtf8String, hlen, if_pos hfull]

/-- The area after a round that found no room: what is in front of `lp_dst` is as it was. -/
structure AreaKept (o o' : AttrArea) : Prop where
  dst : o'.dst = o.dst
  read : ∀ a k, a + k ≤ o.dst → o'.mem.read a k = o.mem.read a k
  count : o'.count = o.count

/-- The bytes of an attribute: its header, and its number or its string. -/
theorem length_attrBytes (d : AttrDesc) (a : AttrVal) : (attrBytes d a).length =
    if d.type = .str then 6 + (strLen (a.str.getD []).length).toNat else 12 := by
  have hle : (strLen (a.str.getD []).length).toNat ≤ (a.str.getD []).length := by
    rw [strLen_eq]
    exact Nat.min_le_left _ _
  rw [attrBytes, List.length_append, length_idBytes]
  split
  · simp only [List.length_append, length_leBytes, List.length_take, Nat.min_eq_left hle]
    omega
  · rw [length_leBytes]

/-- The bytes of an attribute id in an area that has room for them. -/
theorem storeId_fits (bufEnd : Nat) (o : AttrArea) (id : Int32) (h : o.dst + 4 ≤ bufEnd) :
    o.store bufEnd o.dst (Rec.idBytes id) = .ok { o with mem := o.mem.write o.dst (Rec.idBytes id) } ∧
      ∀ a k, a + k = o.dst → (o.mem.write o.dst (Rec.idBytes id)).read a (k + 4) = o.mem.read a k ++ Rec.idBytes id := by
  refine ⟨store_fits (by rwa [length_idBytes]), ?_⟩
  intro a k hk
  have hread := Mem.read_write_append o.mem a k (Rec.idBytes id)
  rwa [hk, length_idBytes] at hread

/-- How a round of the loop ends at the bytes of an attribute: they fit whole behind what is there, or the loop is over. -/
inductive ValueWritten (bufEnd : Nat) (bs : List UInt8) (o : AttrArea) : Except Fault (AttrArea × Bool) → Prop where
  | whole (o' : AttrArea) (hroom : o.dst + bs.length ≤ bufEnd) (hcache : o'.cache = o.cache) (h : AreaAppended bs 1 o o') :
    ValueWritten bufEnd bs o (.ok (o', true))
  | full (o' : AttrArea) (hfull : bufEnd < o.dst + bs.length) (hcache : o'.cache = o.cache) (h : AreaKept o o') :
    ValueWritten bufEnd bs o (.ok (o', false))

/-- A string attribute is written where it fits whole; where only its id does, the id is taken back. -/
theorem serializeValue_str {bufEnd : Nat} {d : AttrDesc} (hd : d.type = .str) (a : AttrVal) (o : AttrArea) :
    ValueWritten bufEnd (attrBytes d a) o (o.serializeValue bufEnd d a) := by
  have hsize := length_attrBytes d a
  rw [if_pos hd] at hsize
  rw [AttrArea.serializeValue, if_pos hd]
  by_cases hid : bufEnd - o.dst < 4
  · rw [if_pos hid]
    exact .full o (by omega) rfl ⟨rfl, fun _ _ _ => rfl, rfl⟩
  · obtain ⟨hstore, hread⟩ := storeId_fits bufEnd o a.id (by omega)
    rw [if_neg hid]
    generalize hlen : (strLen (a.str.getD []).length).toNat = len at hsize
    simp only [hstore, bind, Except.bind]
    generalize hmid : AttrArea.advance 4 { o with mem := o.mem.write o.dst (Rec.idBytes a.id) } = o₁
    have hdst : o₁.dst = o.dst + 4 := by rw [← hmid]; rfl
    have hcache : o₁.cache = o.cache := by rw [← hmid]; rfl
    have hcount : o₁.count = o.count := by rw [← hmid]; rfl
    have hmem : o₁.mem = o.mem.write o.dst (Rec.idBytes a.id) := by rw [← hmid]; rfl
    by_cases hroom : o₁.dst + (2 + len) ≤ bufEnd
    · obtain ⟨mem, hstr, hwritten⟩ := serializeUtf8String_fits hlen hroom
      have hwrote : ¬ 2 + len = 0 := by omega
      have hbytes : attrBytes d a = Rec.idBytes a.id ++ (leBytes 2 len ++ (a.str.getD []).take len) := by
        rw [attrBytes, if_pos hd, hlen]
      rw [hstr]
      dsimp only
      rw [if_neg hwrote]
      refine .whole _ (by omega) hcache ⟨?_, ?_, congrArg (· + 1) hcount⟩
      · show o₁.dst + (2 + len) = _
        omega
      · intro b k hk
        have hread₂ := hwritten b (k + 4) (by omega)
        rw [hmem, hread b k hk, List.append_assoc, ← hbytes, show k + 4 + (2 + len) = k + (6 + len) by omega] at hread₂
        rw [hsize]
        exact hread₂
    · rw [serializeUtf8String_full hlen (by omega)]
      dsimp only
      rw [if_pos rfl]
      refine .full _ (by omega) hcache ⟨?_, ?_, hcount⟩
      · show o₁.dst - 4 = o.dst
        omega
      · intro b k hk
        show o₁.mem.read b k = _
        rw [hmem, Mem.read_write_of_le _ _ _ hk]

/-- A number is written whole or not at all. -/
theorem serializeValue_num {bufEnd : Nat} {d : AttrDesc} (hd : d.type ≠ .str) (a : AttrVal) (o : AttrArea) :
    ValueWritten bufEnd (attrBytes d a) o (o.serializeValue bufEnd d a) := by
  have hsize := length_attrBytes d a
  rw [if_neg hd] at hsize
  rw [AttrArea.serializeValue, if_neg hd]
  by_cases hfull : bufEnd < o.dst + 12
  · rw [if_pos hfull]
    exact .full o (by omega) rfl ⟨rfl, fun _ _ _ => rfl, rfl⟩
  · obtain ⟨hstore, hread⟩ := storeId_fits bufEnd o a.id (by omega)
    rw [if_neg hfull]
    have hvalue : o.dst + 4 + (leBytes 8 a.u64.toNat).length ≤ bufEnd := by
      rw [length_leBytes]
      omega
    have hbytes : attrBytes d a = Rec.idBytes a.id ++ leBytes 8 a.u64.toNat := by
      rw [attrBytes, if_neg hd]
    simp only [hstore, bind, Except.bind, store_fits hvalue]
    refine .whole _ (by omega) rfl ⟨?_, ?_, rfl⟩
    · rw [hsize]
      rfl
    · intro b k hk
      have h := Mem.read_write_append (o.mem.write o.dst (Rec.idBytes a.id)) b (k + 4) (leBytes 8 a.u64.toNat)
      rw [← Nat.add_assoc b, hk, length_leBytes, hread b k hk, List.append_assoc, ← hbytes] at h
      rw [hsize]
      exact h

/-- A registered attribute is written where it fits whole, and otherwise ends the loop with what was written before. -/
theorem serializeValue_spec (bufEnd : Nat) (d : AttrDesc) (a : AttrVal) (o : AttrArea) :
    ValueWritten bufEnd (attrBytes d a) o (o.serializeValue bufEnd d a) := by
  by_cases hd : d.type = .str
  · exact serializeValue_str hd a o
  · exact serializeValue_num hd a o

/-! ## The loop over the area -/

/-- The area after the loop: the first `n` attributes lie in it one after the other, and if there is another one it does not
fit behind them. -/
structure AreaFilled (bufEnd : Nat) (ps : List (AttrDesc × AttrVal)) (n : Nat) (o o' : AttrArea) : Prop where
  le : n ≤ ps.length
  dst_le : o'.dst ≤ bufEnd
  dst : o'.dst = o.dst + (attrsBytes (ps.take n)).length
  read : ∀ a k, a + k = o.dst → o'.mem.read a (k + (attrsBytes (ps.take n)).length) = o.mem.read a k ++ attrsBytes (ps.take n)
  count : o'.count = o.count + UInt8.ofNat n
  full : ∀ p rest, ps.drop n = p :: rest → bufEnd < o'.dst + (attrBytes p.1 p.2).length

/-- Where the first attribute does not fit, nothing is written. -/
theorem AreaFilled.of_kept {bufEnd : Nat} {ps : List (AttrDesc × AttrVal)} {p : AttrDesc × AttrVal} {o o' : AttrArea}
    (h : AreaKept o o') (hdst : o.dst ≤ bufEnd) (hfull : bufEnd < o.dst + (attrBytes p.1 p.2).length) :
    AreaFilled bufEnd (p :: ps) 0 o o' := by
  refine ⟨Nat.zero_le _, h.dst ▸ hdst, h.dst, ?_, by simp [h.count], ?_⟩
  · intro a k hk
    simpa using h.read a k (Nat.le_of_eq hk)
  · intro q rest hq
    cases hq
    rwa [h.dst]

/-- Where it does, the rest follows. -/
theorem AreaFilled.cons {bufEnd n : Nat} {ps : List (AttrDesc × AttrVal)} {p : AttrDesc × AttrVal} {o o₁ o' : AttrArea}
    (h : AreaAppended (attrBytes p.1 p.2) 1 o o₁) (h' : AreaFilled bufEnd ps n o₁ o') : AreaFilled bufEnd (p :: ps) (n + 1) o o' := by
  have hrest : AreaAppended (attrsBytes (ps.take n)) (UInt8.ofNat n) o₁ o' := ⟨h'.dst, h'.read, h'.count⟩
  have hall := h.trans hrest
  refine ⟨Nat.succ_le_succ h'.le, h'.dst_le, ?_, ?_, ?_, h'.full⟩
  · simpa using hall.dst
  · intro a k hk
    simpa using hall.read a k hk
  · rw [hall.count, UInt8.ofNat_add, UInt8.add_comm 1]
    rfl

/-- The bytes of attributes in two parts. -/
theorem attrsBytes_append (ps qs : List (AttrDesc × AttrVal)) : attrsBytes (ps ++ qs) = attrsBytes ps ++ attrsBytes qs := by
  rw [attrsBytes, List.flatMap_append, payload_append]
  rfl

/-- An area that has room for all attributes gets all of them. -/
theorem AreaFilled.length_eq {bufEnd n : Nat} {ps : List (AttrDesc × AttrVal)} {o o' : AttrArea} (h : AreaFilled bufEnd ps n o o')
    (hroom : o.dst + (attrsBytes ps).length ≤ bufEnd) : n = ps.length := by
  cases hrest : ps.drop n with
  | nil => exact Nat.le_antisymm h.le (List.drop_eq_nil_iff.mp hrest)
  | cons p rest =>
    have hfull := h.full p rest hrest
    have hsplit : attrsBytes ps = attrsBytes (ps.take n) ++ (attrBytes p.1 p.2 ++ attrsBytes rest) := by
      rw [← attrsBytes_cons, ← attrsBytes_append, ← hrest, List.take_append_drop]
    rw [hsplit, List.length_append, List.length_append] at hroom
    rw [h.dst] at hfull
    omega

/-- The loop writes as many of the registered attributes as fit, in order, and never behind the end of the area. -/
theorem serializeLoop_spec (core : Core) (bufEnd : Nat) (as : List AttrVal) {o : AttrArea} (hdst : o.dst ≤ bufEnd)
    (hcache : o.cache <+: core.attrDescs) :
    ∃ n o', o.serializeLoop core bufEnd as = .ok o' ∧ AreaFilled bufEnd (registered core.attrDescs as) n o o' := by
  induction as generalizing o with
  | nil =>
    refine ⟨0, o, rfl, Nat.zero_le _, hdst, rfl, fun a k _ => by simp, by simp, ?_⟩
    intro p rest hp
    cases hp
  | cons a as ih =>
    obtain ⟨hpfx, hlook⟩ := cacheFor_spec hcache (Core.attrIndex a.id)
    rw [registered_cons, AttrArea.serializeLoop, AttrArea.serializeAttr, attrDesc?]
    by_cases hid : a.id < 0
    · rw [if_pos hid, if_pos hid]
      exact ih hdst hcache
    · rw [if_neg hid, if_neg hid]
      dsimp only
      rw [hlook]
      cases core.attrDescs[Core.attrIndex a.id]? with
      | none =>
        obtain ⟨n, o', hloop, hf⟩ := ih (o := { o with cache := Rec.cacheFor core o.cache (Core.attrIndex a.id) }) hdst hpfx
        exact ⟨n, o', hloop, hf.le, hf.dst_le, hf.dst, hf.read, hf.count, hf.full⟩
      | some d =>
        have hval := serializeValue_spec bufEnd d a { o with cache := Rec.cacheFor core o.cache (Core.attrIndex a.id) }
        dsimp only
        generalize AttrArea.serializeValue _ _ _ _ = res at hval
        cases hval with
        | whole o₁ hroom hcache₁ happ =>
          obtain ⟨n, o', hloop, hfilled⟩ := ih (o := o₁) (by rw [happ.dst]; exact hroom) (hcache₁ ▸ hpfx)
          exact ⟨n + 1, o', hloop, AreaFilled.cons (p := (d, a)) ⟨happ.dst, happ.read, happ.count⟩ hfilled⟩
        | full o₁ hfull hcache₁ hkept =>
          exact ⟨0, o₁, rfl, AreaFilled.of_kept (p := (d, a)) ⟨hkept.dst, hkept.read, hkept.count⟩ hdst hfull⟩

/-! ## The loop of a record -/

/-- The record a call of `send` has under way when its loop over the attributes begins. -/
def Log.entersAttrs (l : Log) (env : SendEnv) (d : LogDesc) (c : Call) (b : DataBuf) : Except Stop Rec :=
  if l.bufUsed + sizeofLogItemDat ≤ bufMax then do
    let r ← Rec.putArgs env.acquire c.args 0 d.args ((l.beginRecord env b).modifyHdr (l.beginHdr env d c))
    return r.modifyHdr (fun h => { h with argsSize := UInt16.ofNat r.argsWritten })
  else .error .fault

/-- Writing a record is what comes before that loop, and the loop. -/
theorem Log.writeRecord_eq (l : Log) (env : SendEnv) (core : Core) (d : LogDesc) (c : Call) (b : DataBuf) :
    l.writeRecord env core d c b = l.entersAttrs env d c b >>= Rec.putAttrs env.acquire core (c.attrs.getD []) := by
  rw [Log.writeRecord, Log.entersAttrs]
  split
  · rw [Rec.putBody]
    cases Rec.putArgs env.acquire c.args 0 d.args ((l.beginRecord env b).modifyHdr (l.beginHdr env d c)) with
    | error e => rfl
    | ok r => rfl
  · rfl

/-- A change of the header counts no attribute. -/
theorem attrsCount_modifyHdr (r : Rec) (f : LogItemDat → LogItemDat) : (r.modifyHdr f).attrsCount = r.attrsCount := by
  obtain ⟨frs, buf, he, -⟩ := modifyHdr_eq r f
  rw [he]

/-- What the loop finds: a record that can be written on, without attributes so far. -/
theorem entersAttrs_spec {hash : CStr → UInt32 → UInt64} {core : Core} {l : Log} {env : SendEnv} {c : Call} {p : Prepared}
    {r : Rec} (hb : Begins hash core l c p) (h : l.Inv core) (hr : p.log.entersAttrs env p.desc c p.buffer = .ok r) :
    r.Ready p.core.attrDescs ∧ r.attrsCount = 0 := by
  rw [Log.entersAttrs] at hr
  split at hr
  · rename_i hroom
    have hl := hb.room h (Nat.le_trans (Nat.le_add_right _ _) hroom)
    obtain ⟨g, hp⟩ := Progress.begin env p.desc c hl hb.unflagged
    have hx := putArgs_writes env.acquire hb.argList.slot c.args 0 hp.ready
    cases hput : Rec.putArgs env.acquire c.args 0 p.desc.args
        ((p.log.beginRecord env p.buffer).modifyHdr (p.log.beginHdr env p.desc c)) with
    | error e =>
      rw [hput] at hr
      cases hr
    | ok r₂ =>
      rw [hput] at hr hx
      cases hr
      refine ⟨hx.ready.modifyHdr _, ?_⟩
      have hcount : r₂.attrsCount = _ + 0 := hx.attrsCount_eq
      rw [attrsCount_modifyHdr, hcount, attrsCount_modifyHdr]
      rfl
  · cases hr

/-- A call site registers no attribute. -/
theorem resolveLogDesc_attrDescs (core : Core) (alloc : Bool) (hash : UInt64) (file : CStr) (line : UInt32)
    (function format : Option CStr) :
    (core.resolveLogDesc alloc hash file line function format).1.attrDescs = core.attrDescs := by
  unfold Core.resolveLogDesc
  split
  · rfl
  · split <;> rfl

/-- Preparing a record registers no attribute. -/
theorem prepare_attrDescs {hash : CStr → UInt32 → UInt64} {core : Core} {l : Log} {env : SendEnv} {c : Call} {p : Prepared}
    (hp : l.prepare hash core env c = .ok p) : p.core.attrDescs = core.attrDescs := by
  have hresolve : ∀ l' : Log, (l'.lookupDesc env core (hash c.file c.line) c).2.1.attrDescs = core.attrDescs := by
    intro l'
    have h := resolveLogDesc_attrDescs core env.descAlloc (hash c.file c.line) c.file c.line c.function c.format
    rw [Log.lookupDesc]
    cases l'.descMap (hash c.file c.line) with
    | some d => rfl
    | none =>
      generalize core.resolveLogDesc env.descAlloc (hash c.file c.line) c.file c.line c.function c.format = resolved at h ⊢
      obtain ⟨core', desc⟩ := resolved
      cases desc with
      | none => exact h
      | some d => exact h
  unfold Log.prepare at hp
  split at hp
  · cases hp
  · split at hp
    · cases hp
    · split at hp
      · cases hp
      · rename_i l₁ delivered b ht
        have h := hresolve l₁
        split at hp
        · cases hp
        · rename_i l₂ core₂ d hl
          cases hp
          rwa [hl] at h

/-- The loop of a record with every buffer it needs puts the attributes' bytes behind what was written, over however many
buffers, and counts them. -/
theorem putAttrs_all {core : Core} {acquire : Nat → Option DataBuf} (as : List AttrVal) {r : Rec}
    (hr : r.Ready core.attrDescs) (hacquire : ∀ i, (acquire i).isSome) :
    ∃ r', r.putAttrs acquire core as = .ok r' ∧ r'.tape.all = r.tape.all ++ attrsBytes (registered core.attrDescs as) ∧
      r'.attrsCount = r.attrsCount + attrsCountOf core.attrDescs as := by
  have hw := putAttrs_writes acquire as hr
  cases hput : r.putAttrs acquire core as with
  | ok r' =>
    rw [hput] at hw
    exact ⟨r', rfl, (hw.spill hr (allFit_attrsPieces _ _)).all_eq, hw.attrsCount_eq⟩
  | error e =>
    rw [hput] at hw
    cases e with
    | fault => exact hw.elim
    | discard r' =>
      obtain ⟨i, -, -, hnone⟩ := hw.refused
      have hsome := hacquire i
      rw [hnone] at hsome
      cases hsome

/-- In every state of a writer and for every array with at most 255 registered attributes: the blob, the loop of a record
with every buffer it needs, and an area that is large enough all get the same bytes and the same count, from which a reader
gets the registered attributes in order; an area of any size gets the bytes of the first of them, as many as fit. What a record is
written to is what its loop leaves. -/
theorem attr_encoders_agree (hash : CStr → UInt32 → UInt64) (attached : Bool) (threadId : UInt32) (ops : List Op)
    (s : LogSys) (hrun : (LogSys.init attached threadId).run hash ops = .ok s) (attrs : Option (List AttrVal))
    (hcount : (registered s.core.attrDescs (attrs.getD [])).length ≤ 255) :
    ∃ ps blob count, ps = registered s.core.attrDescs (attrs.getD []) ∧ count = UInt8.ofNat ps.length ∧
      count.toNat = ps.length ∧ s.core.encodeAttrBlob attrs = (blob, count) ∧
      readAttrs s.core.attrDescs ps.length blob = some (ps.map attrValue, []) ∧
      (∀ env c p r, s.log.prepare hash s.core env c = .ok p → c.attrs = attrs → (∀ i, (env.acquire i).isSome) →
        p.log.entersAttrs env p.desc c p.buffer = .ok r →
        ∃ r', p.log.writeRecord env p.core p.desc c p.buffer = .ok r' ∧
          r.putAttrs env.acquire p.core (c.attrs.getD []) = .ok r' ∧ r'.tape.all = r.tape.all ++ blob ∧ r'.attrsCount = count) ∧
      (∀ mem dst bufEnd, dst ≤ bufEnd →
        ∃ n o, serializeAttrs s.core s.log.attrCache mem dst bufEnd attrs = .ok o ∧ n ≤ ps.length ∧ o.dst ≤ bufEnd ∧
          o.mem.read dst (o.dst - dst) = attrsBytes (ps.take n) ∧ o.count = UInt8.ofNat n ∧
          (dst + blob.length ≤ bufEnd → o.mem.read dst (o.dst - dst) = blob ∧ o.count = count)) := by
  have hinv := (LogSys.inv_init attached threadId).run hrun
  have htake : (registered s.core.attrDescs (attrs.getD [])).take 255 = registered s.core.attrDescs (attrs.getD []) :=
    List.take_of_length_le hcount
  have hblob := encodeAttrBlob_eq s.core attrs
  rw [htake] at hblob
  refine ⟨_, _, _, rfl, rfl, ?_, hblob, ?_, ?_, ?_⟩
  · simp only [UInt8.toNat_ofNat']
    omega
  · have h := readAttrs_pieces (List.prefix_refl s.core.attrDescs) (attrs.getD []) []
    rwa [List.append_nil] at h
  · intro env c p r hp hattrs hacquire hr
    have hb := prepare_spec hash env c hinv.log hinv.sound
    rw [hp] at hb
    obtain ⟨hready, hzero⟩ := entersAttrs_spec hb hinv.log hr
    obtain ⟨r', hput, hall, hcounted⟩ := putAttrs_all (c.attrs.getD []) hready hacquire
    rw [prepare_attrDescs hp, hattrs] at hall hcounted
    refine ⟨r', ?_, hput, hall, ?_⟩
    · rw [Log.writeRecord_eq, hr]
      exact hput
    · rw [hcounted, hzero, UInt8.zero_add]
      rfl
  · intro mem dst bufEnd hle
    obtain ⟨n, o, hloop, hf⟩ := serializeLoop_spec s.core bufEnd (attrs.getD [])
      (o := ⟨mem, dst, 0, s.log.attrCache⟩) hle hinv.log.cache
    have hdst : o.dst - dst = (attrsBytes ((registered s.core.attrDescs (attrs.getD [])).take n)).length := by
      rw [hf.dst]
      exact Nat.add_sub_cancel_left _ _
    have hread : o.mem.read dst (o.dst - dst) = attrsBytes ((registered s.core.attrDescs (attrs.getD [])).take n) := by
      have h := hf.read dst 0 rfl
      rw [hdst]
      simpa using h
    have hcounted : o.count = UInt8.ofNat n := by simpa using hf.count
    refine ⟨n, o, hloop, hf.le, hf.dst_le, hread, hcounted, ?_⟩
    intro hroom
    have hn : n = (registered s.core.attrDescs (attrs.getD [])).length := hf.length_eq hroom
    rw [hread, hcounted, hn, List.take_length]
    exact ⟨rfl, rfl⟩

/-- A registered string, and an id no one has registered. -/
def LogSys.tags : List AttrVal := [⟨0, some [65], 0⟩, ⟨5, none, 1⟩]

/-- A call with these attributes. -/
def LogSys.taggedCall : Call := { textCall [104] with attrs := some tags }

/-- The attributes of a record that is written, of the next one, and in an area of 64 bytes. -/
theorem attr_encoders_agree_tag : ∃ s, (LogSys.init true 7).run LogSys.oneLine
      [.attrRegister true (some [97]) .str, .send LogSys.plenty LogSys.taggedCall] = .ok s ∧ s.accepted.length = 1 ∧
    ∃ blob, s.core.encodeAttrBlob (some LogSys.tags) = (blob, 1) ∧
      (∃ p r r', s.log.prepare LogSys.oneLine s.core LogSys.plenty LogSys.taggedCall = .ok p ∧
        p.log.entersAttrs LogSys.plenty p.desc LogSys.taggedCall p.buffer = .ok r ∧
        p.log.writeRecord LogSys.plenty p.core p.desc LogSys.taggedCall p.buffer = .ok r' ∧
        r'.tape.all = r.tape.all ++ blob ∧ r'.attrsCount = 1) ∧
      ∃ o, serializeAttrs s.core s.log.attrCache (fun _ => 0) 0 64 (some LogSys.tags) = .ok o ∧
        o.mem.read 0 (o.dst - 0) = blob ∧ o.count = 1 := by
  have hall : ((LogSys.init true 7).run LogSys.oneLine
      [.attrRegister true (some [97]) .str, .send LogSys.plenty LogSys.taggedCall]).toOption.any (fun s =>
        decide (s.accepted.length = 1 ∧ (registered s.core.attrDescs LogSys.tags).length = 1 ∧
          (s.core.encodeAttrBlob (some LogSys.tags)).1.length = 7) &&
        (s.log.prepare LogSys.oneLine s.core LogSys.plenty LogSys.taggedCall).toOption.any fun p =>
          (p.log.entersAttrs LogSys.plenty p.desc LogSys.taggedCall p.buffer).toOption.isSome) = true := by
    decide +kernel
  obtain ⟨s, hr, hs⟩ := Runs.ok_of_any hall
  rw [Bool.and_eq_true, decide_eq_true_eq] at hs
  obtain ⟨⟨hlen, hone, hseven⟩, hs⟩ := hs
  obtain ⟨p, hp, hs⟩ := Runs.ok_of_any hs
  obtain ⟨r, henters⟩ : ∃ r, p.log.entersAttrs LogSys.plenty p.desc LogSys.taggedCall p.buffer = .ok r := by
    cases h : p.log.entersAttrs LogSys.plenty p.desc LogSys.taggedCall p.buffer with
    | ok r => exact ⟨r, rfl⟩
    | error e =>
      rw [h] at hs
      cases hs
  obtain ⟨ps, blob, count, hps, hcount, -, hblob, -, hloop, harea⟩ :=
    attr_encoders_agree LogSys.oneLine true 7 _ s hr (some LogSys.tags) (by rw [Option.getD_some, hone]; decide)
  have hcount : count = 1 := by
    rw [hcount, hps, Option.getD_some, hone]
    rfl
  have hlen' : blob.length = 7 := by rw [← hseven, hblob]
  subst hcount
  obtain ⟨r', hwrite, -, hbytes, hattrs⟩ := hloop LogSys.plenty LogSys.taggedCall p r hp rfl (fun _ => rfl) henters
  obtain ⟨n, o, ho, -, -, -, -, hroom⟩ := harea (fun _ => 0) 0 64 (by decide)
  obtain ⟨hread, hsame⟩ := hroom (by omega)
  exact ⟨s, hr, hlen, blob, hblob, ⟨p, r, r', hp, henters, hwrite, hbytes, hattrs⟩, o, ho, hread, hsame⟩

end P8
