import Mathlib.Algebra.Ring.Nat

/-!
# Bytes: little-endian numbers and byte memories

Two small tools for programs that write structures into raw buffers. A number is written as its `n` little-endian bytes
(`leBytes`) and read back (`leVal`). A memory is a byte for each offset; `write` puts a run of bytes at an offset, `read`
takes a run of a given length. The lemmas say what a read gives after a write that covers it, or lies beside it.
-/

namespace Bytes

/-- The `n` low bytes of a number, least significant first. -/
def leBytes : Nat → Nat → List UInt8
  | 0, _ => []
  | n + 1, v => UInt8.ofNat v :: leBytes n (v / 256)

/-- The number whose little-endian bytes are given. -/
def leVal : List UInt8 → Nat
  | [] => 0
  | b :: bs => b.toNat + 256 * leVal bs

@[simp] theorem length_leBytes (n v : Nat) : (leBytes n v).length = n := by
  induction n generalizing v with
  | zero => rfl
  | succ n ih => simp [leBytes, ih]

/-- Reading back the `n` bytes of a number gives it modulo `256 ^ n`. -/
theorem leVal_leBytes (n v : Nat) : leVal (leBytes n v) = v % 256 ^ n := by
  induction n generalizing v with
  | zero => simp [leBytes, leVal, Nat.mod_one]
  | succ n ih =>
    have hb : (UInt8.ofNat v).toNat = v % 256 := by simp
    rw [leBytes, leVal, ih, hb, Nat.pow_succ, Nat.mul_comm (256 ^ n) 256, Nat.mod_mul]

/-- A number below `256 ^ n` is read back from its `n` bytes. -/
theorem leVal_leBytes_of_lt {n v : Nat} (h : v < 256 ^ n) : leVal (leBytes n v) = v := by
  rw [leVal_leBytes, Nat.mod_eq_of_lt h]

/-- A number of so many bytes. -/
theorem leVal_lt (bs : List UInt8) : leVal bs < 256 ^ bs.length := by
  induction bs with
  | nil => simp [leVal]
  | cons b bs ih =>
    have hb : b.toNat < 256 := b.toNat_lt
    rw [leVal, List.length_cons, Nat.pow_succ]
    omega

/-- The number that some bytes spell is written as these bytes. -/
theorem leBytes_leVal (bs : List UInt8) : leBytes bs.length (leVal bs) = bs := by
  induction bs with
  | nil => rfl
  | cons b bs ih =>
    have hb : b.toNat < 256 := b.toNat_lt
    have hlow : UInt8.ofNat (b.toNat + 256 * leVal bs) = b := by
      refine UInt8.toNat_inj.mp ?_
      rw [UInt8.toNat_ofNat']
      omega
    have hrest : (b.toNat + 256 * leVal bs) / 256 = leVal bs := by omega
    rw [List.length_cons, leVal, leBytes, hlow, hrest, ih]

/-- A byte for each offset. -/
abbrev Mem : Type := Nat → UInt8

namespace Mem

/-- The `n` bytes from offset `a` on. -/
def read (m : Mem) (a n : Nat) : List UInt8 := (List.range' a n).map m

/-- The memory after a run of bytes is written at offset `a`. -/
def write (m : Mem) (a : Nat) (bs : List UInt8) : Mem :=
  fun i => if i < a then m i else (bs[i - a]?).getD (m i)

@[simp] theorem length_read (m : Mem) (a n : Nat) : (m.read a n).length = n := by
  simp [read]

@[simp] theorem read_zero (m : Mem) (a : Nat) : m.read a 0 = [] := rfl

/-- A read is the read of its first part followed by the read of the rest. -/
theorem read_add (m : Mem) (a n k : Nat) : m.read a (n + k) = m.read a n ++ m.read (a + n) k := by
  simp [read, ← List.range'_append_1]

/-- A byte that is read is the memory's. -/
theorem getElem?_read (m : Mem) (a n i : Nat) : (m.read a n)[i]? = if i < n then some (m (a + i)) else none := by
  unfold read
  by_cases h : i < n <;> simp [h]

/-- The bytes written are the bytes read at the place they were written. -/
@[simp] theorem read_write_self (m : Mem) (a : Nat) (bs : List UInt8) : (m.write a bs).read a bs.length = bs := by
  apply List.ext_getElem?
  intro i
  rw [getElem?_read]
  by_cases h : i < bs.length
  · have : ¬ a + i < a := by omega
    simp [h, write, this]
  · simp [h]

/-- A write changes nothing below it. -/
theorem read_write_of_le (m : Mem) (a : Nat) (bs : List UInt8) {a' n : Nat} (h : a' + n ≤ a) :
    (m.write a bs).read a' n = m.read a' n := by
  apply List.ext_getElem?
  intro i
  simp only [getElem?_read, write]
  by_cases hi : i < n
  · have : a' + i < a := by omega
    simp [hi, this]
  · simp [hi]

/-- A write changes nothing above it. -/
theorem read_write_of_ge (m : Mem) (a : Nat) (bs : List UInt8) {a' n : Nat} (h : a + bs.length ≤ a') :
    (m.write a bs).read a' n = m.read a' n := by
  apply List.ext_getElem?
  intro i
  simp only [getElem?_read, write]
  by_cases hi : i < n
  · have h1 : ¬ a' + i < a := by omega
    have h2 : bs.length ≤ a' + i - a := by omega
    simp [hi, h1, List.getElem?_eq_none h2]
  · simp [hi]

/-- Bytes written right behind a run of `n` bytes extend what is read from its start. -/
theorem read_write_append (m : Mem) (a n : Nat) (bs : List UInt8) :
    (m.write (a + n) bs).read a (n + bs.length) = m.read a n ++ bs := by
  rw [read_add, read_write_of_le _ _ _ (Nat.le_refl _), read_write_self]

/-- A write inside a run replaces its own bytes and keeps the rest of the run. -/
theorem read_write_inside (m : Mem) (a o n : Nat) (bs : List UInt8) (h : o + bs.length ≤ n) :
    (m.write (a + o) bs).read a n = (m.read a n).take o ++ bs ++ (m.read a n).drop (o + bs.length) := by
  obtain ⟨k, rfl⟩ := Nat.exists_eq_add_of_le h
  rw [read_add, read_add _ a o, read_write_of_le _ _ _ (Nat.le_refl _), read_write_self,
    read_write_of_ge _ _ _ (by omega), read_add m a (o + bs.length) k]
  have hd : (m.read a (o + bs.length) ++ m.read (a + (o + bs.length)) k).drop (o + bs.length) =
      m.read (a + (o + bs.length)) k := List.drop_left' (by simp)
  have ht : (m.read a (o + bs.length) ++ m.read (a + (o + bs.length)) k).take o = m.read a o := by
    rw [read_add, List.append_assoc]
    exact List.take_left' (by simp)
  rw [hd, ht]

/-- The memory after several runs of bytes are written, each at its offset from `a`. -/
def stores (m : Mem) (a : Nat) (ss : List (Nat × List UInt8)) : Mem := ss.foldl (fun m s => m.write (a + s.1) s.2) m

end Mem

/-! ## Structures laid out in a zeroed block

A structure of variable size is written into a block of zeros field by field, from its front to its end. Fields may leave gaps,
and what is behind the last one stays zero. -/

/-- The stores stand one behind the other, from offset `c` on and inside a block of `n` bytes. -/
def Ascends (n : Nat) : Nat → List (Nat × List UInt8) → Prop
  | c, [] => c ≤ n
  | c, (o, xs) :: ss => c ≤ o ∧ Ascends n (o + xs.length) ss

/-- The bytes from offset `c` to the end of the last store. -/
def laid : Nat → List (Nat × List UInt8) → List UInt8
  | _, [] => []
  | c, (o, xs) :: ss => List.replicate (o - c) 0 ++ xs ++ laid (o + xs.length) ss

/-- A block of `n` bytes that is zero but for the stores. -/
def image (n : Nat) (ss : List (Nat × List UInt8)) : List UInt8 := laid 0 ss ++ List.replicate (n - (laid 0 ss).length) 0

/-- What is laid out ends within the bound. -/
theorem length_laid_le {n c : Nat} {ss : List (Nat × List UInt8)} (h : Ascends n c ss) : c + (laid c ss).length ≤ n := by
  induction ss generalizing c with
  | nil => exact h
  | cons s ss ih =>
    obtain ⟨ho, hrest⟩ := h
    have := ih hrest
    simp only [laid, List.length_append, List.length_replicate]
    omega

@[simp] theorem length_image {n : Nat} {ss : List (Nat × List UInt8)} (h : Ascends n 0 ss) : (image n ss).length = n := by
  have := length_laid_le h
  simp only [image, List.length_append, List.length_replicate]
  omega

namespace Mem

/-- Stores change nothing below the block they are in. -/
theorem read_stores_of_le {m : Mem} {a a' n : Nat} (ss : List (Nat × List UInt8)) (h : a' + n ≤ a) :
    (m.stores a ss).read a' n = m.read a' n := by
  induction ss generalizing m with
  | nil => rfl
  | cons s ss ih =>
    rw [stores, List.foldl_cons]
    exact (ih (m := m.write (a + s.1) s.2)).trans (read_write_of_le _ _ _ (by omega))

/-- A block that is zero from offset `c` on holds, behind its first `c` bytes, the stores and zeros. -/
theorem read_stores_from {m : Mem} {a n c : Nat} {p : List UInt8} {ss : List (Nat × List UInt8)} (hc : Ascends n c ss)
    (hp : p.length = c) (h : m.read a n = p ++ List.replicate (n - c) 0) :
    (m.stores a ss).read a n = p ++ laid c ss ++ List.replicate (n - (p ++ laid c ss).length) 0 := by
  induction ss generalizing m c p with
  | nil =>
    rw [laid, List.append_nil, hp]
    exact h
  | cons s ss ih =>
    obtain ⟨o, xs⟩ := s
    obtain ⟨ho, hrest⟩ := hc
    have hend := length_laid_le hrest
    have hlen : (p ++ List.replicate (o - c) 0 ++ xs).length = o + xs.length := by
      simp only [List.length_append, List.length_replicate]
      omega
    have hsplit : List.replicate (n - c) (0 : UInt8) =
        List.replicate (o - c) 0 ++ (List.replicate xs.length 0 ++ List.replicate (n - (o + xs.length)) 0) := by
      rw [List.replicate_append_replicate, List.replicate_append_replicate]
      congr 1
      omega
    have hread : (m.write (a + o) xs).read a n =
        p ++ List.replicate (o - c) 0 ++ xs ++ List.replicate (n - (o + xs.length)) 0 := by
      rw [read_write_inside m a o n xs (by omega), h, hsplit, ← List.append_assoc]
      congr 1
      · congr 1
        exact List.take_left' (by simp only [List.length_append, List.length_replicate]; omega)
      · rw [← List.append_assoc]
        exact List.drop_left' (by simp only [List.length_append, List.length_replicate]; omega)
    rw [stores, List.foldl_cons]
    refine (ih hrest hlen hread).trans ?_
    simp only [laid, List.append_assoc]

/-- A zeroed block holds its image after the stores. -/
theorem read_stores {m : Mem} {a n : Nat} {ss : List (Nat × List UInt8)} (hss : Ascends n 0 ss) :
    ((m.write a (List.replicate n 0)).stores a ss).read a n = image n ss := by
  have hzero : (m.write a (List.replicate n 0)).read a n = [] ++ List.replicate (n - 0) 0 := by
    have := read_write_self m a (List.replicate n 0)
    rw [List.length_replicate] at this
    simpa using this
  simpa [image] using read_stores_from hss rfl hzero

end Mem

end Bytes
