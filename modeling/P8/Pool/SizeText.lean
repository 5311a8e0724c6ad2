import Mathlib.Data.List.TakeWhile
import P8.Pool.Config

/-!
# SizeText: what the size strings mean

A size string, its blanks and tabs left out, is to be `infinite` or a decimal number with a unit or without (`Denotes`). What
`parse_size` reads (`Reads`) differs at each limit of what it is built on: `strtoull` skips more than blanks, takes a sign and
cuts a value that is too large, the product with the unit wraps, and the buffer of the copy ends behind 127 characters.

`str_casecmp` is relied on to compare without regard to the case of ASCII letters.
-/

namespace P8

/-! ## Meaning -/

/-- An ASCII letter in lower case; any other character as it is. -/
def toLower (c : UInt8) : UInt8 := if 0x41 ≤ c && c ≤ 0x5a then c + 0x20 else c

/-- `casecmp` finds equal what is equal up to the case of ASCII letters. -/
def CaseInsensitive (casecmp : CStr → CStr → Bool) : Prop := ∀ a b, casecmp a b = true ↔ a.map toLower = b.map toLower

/-- Comparing the small letters is a comparison without case. -/
theorem caseInsensitive_sameLetters : CaseInsensitive sameLetters := by
  intro a b
  exact beq_iff_eq

/-- A text without its blanks and tabs. -/
def nonBlank (text : CStr) : CStr := text.filter (fun c => !(c = 0x20 || c = 0x09))

/-- What a unit stands for. -/
def unitFactor (unit : CStr) : Option Nat :=
  if unit = [] then some 1
  else if unit.map toLower = bytes "kb" ∨ unit.map toLower = bytes "ki" then some 1024
  else if unit.map toLower = bytes "mb" ∨ unit.map toLower = bytes "mi" then some 1048576
  else none

/-- What `strtoull` passes over in front of the digits: white space and a sign. -/
def Front (pre : CStr) : Prop :=
  ∃ ws, (∀ c ∈ ws, isSpace c = true) ∧ (pre = ws ∨ pre = ws ++ [0x2b] ∨ pre = ws ++ [0x2d])

/-- The text `a` is `pre`, decimal digits and a unit that stands for `m`. -/
structure SizeText (a pre digits unit : CStr) (m : Nat) : Prop where
  eq : a = pre ++ (digits ++ unit)
  front : Front pre
  nonempty : digits ≠ []
  digit : ∀ c ∈ digits, isDigit c = true
  factor : unitFactor unit = some m

/-- What a text without blanks is to mean: `infinite`, or digits and a unit, as long as the number fits into a `size_t`. -/
def Denotes (b : CStr) (v : Nat) : Prop :=
  b.map toLower = bytes "infinite" ∧ v = 2 ^ 64 - 1 ∨
    ∃ digits unit m, SizeText b [] digits unit m ∧ v = digitsValue digits * m ∧ v < 2 ^ 64

/-- What `parse_size` makes of what is in its buffer. -/
def Reads (a : CStr) (v : Nat) : Prop :=
  a.map toLower = bytes "infinite" ∧ v = 2 ^ 64 - 1 ∨
    ∃ pre digits unit m, SizeText a pre digits unit m ∧ v = ullValue (pre.getLast? == some 0x2d) digits * m % 2 ^ 64

/-! ## Characters -/

/-- The empty text has an empty front. -/
theorem front_nil : Front [] := ⟨[], by simp, Or.inl rfl⟩

/-- A digit by its code. -/
theorem isDigit_iff (c : UInt8) : isDigit c = true ↔ 48 ≤ c.toNat ∧ c.toNat ≤ 57 := by
  simp [isDigit, UInt8.le_iff_toNat_le]

/-- A digit is no blank and no sign. -/
theorem isSpace_of_isDigit {c : UInt8} (h : isDigit c = true) : isSpace c = false ∧ c ≠ 0x2d ∧ c ≠ 0x2b := by
  rw [isDigit_iff] at h
  simp only [isSpace, Bool.or_eq_false_iff, Bool.and_eq_false_iff, decide_eq_false_iff_not, UInt8.le_iff_toNat_le,
    ← UInt8.toNat_inj, ne_eq, UInt8.reduceToNat]
  omega

/-- A digit has no case. -/
theorem toLower_of_isDigit {c : UInt8} (h : isDigit c = true) : toLower c = c := by
  rw [isDigit_iff] at h
  simp only [toLower, Bool.and_eq_true, decide_eq_true_eq, UInt8.le_iff_toNat_le, UInt8.reduceToNat]
  exact if_neg (by omega)

/-- A unit's letter is no digit. -/
theorem isDigit_of_toLower {c : UInt8} (h : toLower c = 0x6b ∨ toLower c = 0x6d) : isDigit c = false := by
  rw [Bool.eq_false_iff]
  intro hdigit
  rw [toLower_of_isDigit hdigit] at h
  rcases h with rfl | rfl
  · cases hdigit
  · cases hdigit

/-- Only the character zero has the value zero. -/
theorem digit_eq_zero_iff {c : UInt8} (h : isDigit c = true) : c.toNat - 0x30 = 0 ↔ c = 0x30 := by
  rw [isDigit_iff] at h
  simp only [← UInt8.toNat_inj, UInt8.reduceToNat]
  omega

/-- A unit is nothing, or two letters. -/
theorem unit_cases {unit : CStr} {m : Nat} (h : unitFactor unit = some m) :
    unit = [] ∧ m = 1 ∨ unit.length = 2 ∧ 1024 ≤ m ∧ ∀ c ∈ unit.head?, isDigit c = false := by
  have htwo : ∀ x y : UInt8, (x = 0x6b ∨ x = 0x6d) → unit.map toLower = [x, y] →
      unit.length = 2 ∧ ∀ c ∈ unit.head?, isDigit c = false := by
    intro x y hx hmap
    have hlen := congrArg List.length hmap
    rw [List.length_map] at hlen
    refine ⟨hlen, fun c hc => isDigit_of_toLower ?_⟩
    cases unit with
    | nil => cases hc
    | cons d unit =>
      cases hc
      rw [(List.cons.inj hmap).1]
      exact hx
  unfold unitFactor at h
  split at h
  · rename_i hnil
    cases h
    exact Or.inl ⟨hnil, rfl⟩
  · split at h
    · rename_i hk
      cases h
      obtain ⟨hlen, hhead⟩ := hk.elim (htwo _ _ (Or.inl rfl)) (htwo _ _ (Or.inl rfl))
      exact Or.inr ⟨hlen, by decide, hhead⟩
    · split at h
      · rename_i hm
        cases h
        obtain ⟨hlen, hhead⟩ := hm.elim (htwo _ _ (Or.inr rfl)) (htwo _ _ (Or.inr rfl))
        exact Or.inr ⟨hlen, by decide, hhead⟩
      · cases h

/-- No unit begins with a digit. -/
theorem unit_head {unit : CStr} {m : Nat} (h : unitFactor unit = some m) : ∀ c ∈ unit.head?, isDigit c = false := by
  rcases unit_cases h with ⟨rfl, -⟩ | ⟨-, -, hhead⟩
  · intro c hc
    cases hc
  · exact hhead

/-- No unit counts nothing. -/
theorem factor_pos {unit : CStr} {m : Nat} (h : unitFactor unit = some m) : 0 < m := by
  rcases unit_cases h with ⟨-, rfl⟩ | ⟨-, hm, -⟩ <;> omega

/-! ## Digits -/

/-- Digits are cut off at the character behind them. -/
theorem cut_digits {digits rest : CStr} (hdigits : ∀ c ∈ digits, isDigit c = true)
    (hrest : ∀ c ∈ rest.head?, isDigit c = false) :
    (digits ++ rest).takeWhile isDigit = digits ∧ (digits ++ rest).dropWhile isDigit = rest := by
  rw [List.takeWhile_append_of_pos hdigits, List.dropWhile_append_of_pos hdigits]
  cases rest with
  | nil => simp
  | cons c rest =>
    have hc := hrest c rfl
    simp [hc]

/-- The value of two runs of digits. -/
theorem digitsValue_append (xs ys : CStr) : digitsValue (xs ++ ys) = digitsValue xs * 10 ^ ys.length + digitsValue ys := by
  have hfold : ∀ (ys : CStr) (n : Nat), ys.foldl (fun n c => n * 10 + (c.toNat - 0x30)) n =
      n * 10 ^ ys.length + digitsValue ys := by
    intro ys
    induction ys with
    | nil => simp [digitsValue]
    | cons y ys ih =>
      intro n
      rw [digitsValue, List.foldl_cons, List.foldl_cons, ih, ih, List.length_cons, Nat.pow_succ, Nat.zero_mul, Nat.zero_add,
        Nat.add_mul, Nat.mul_assoc, Nat.mul_comm 10, Nat.add_assoc]
  rw [digitsValue, List.foldl_append]
  exact hfold ys _

/-- A number is zero when all of its digits are. -/
theorem digitsValue_eq_zero {digits : CStr} (hdigits : ∀ c ∈ digits, isDigit c = true) :
    digitsValue digits = 0 ↔ ∀ c ∈ digits, c = 0x30 := by
  induction digits with
  | nil => simp [digitsValue]
  | cons c cs ih =>
    have hsplit := digitsValue_append [c] cs
    rw [List.singleton_append] at hsplit
    have hc : digitsValue [c] = c.toNat - 0x30 := by simp [digitsValue]
    have hrest := ih (fun x hx => hdigits x (List.mem_cons_of_mem c hx))
    have hzero := digit_eq_zero_iff (hdigits c List.mem_cons_self)
    rw [hsplit, hc, Nat.add_eq_zero_iff, Nat.mul_eq_zero, List.forall_mem_cons, hrest, hzero]
    simp

/-- A number that fits is read as it is. -/
theorem ullValue_of_lt {digits : CStr} (h : digitsValue digits < 2 ^ 64) : ullValue false digits = digitsValue digits := by
  rw [ullValue, if_neg (Nat.not_le_of_lt h)]
  rfl

/-! ## Size texts -/

section

variable {a pre digits unit : CStr} {m : Nat}

/-- A size text is not `infinite`. -/
theorem SizeText.not_infinite (h : SizeText a pre digits unit m) : a.map toLower ≠ bytes "infinite" := by
  intro hinf
  obtain ⟨c, hc⟩ := List.exists_mem_of_ne_nil _ h.nonempty
  have hdigit := h.digit c hc
  have hmem : c ∈ a := by
    rw [h.eq]
    exact List.mem_append_right _ (List.mem_append_left _ hc)
  have hletter : ∀ x ∈ bytes "infinite", isDigit x = false := by decide +kernel
  have hno := hletter c (by rw [← hinf, ← toLower_of_isDigit hdigit]; exact List.mem_map_of_mem hmem)
  rw [hdigit] at hno
  cases hno

/-- A size text whose first character is a digit has nothing in front of it. -/
theorem SizeText.front_eq (h : SizeText a pre digits unit m) (hhead : ∀ c ∈ a.head?, isDigit c = true) : pre = [] := by
  cases pre with
  | nil => rfl
  | cons c pre =>
    have ha : a = c :: (pre ++ (digits ++ unit)) := h.eq
    have hdigit := hhead c (by rw [ha]; rfl)
    obtain ⟨hspace, hminus, hplus⟩ := isSpace_of_isDigit hdigit
    obtain ⟨ws, hws, hsign⟩ := h.front
    cases ws with
    | nil =>
      rcases hsign with hp | hp | hp
      · cases hp
      · exact absurd (List.cons.inj hp).1 hplus
      · exact absurd (List.cons.inj hp).1 hminus
    | cons x ws =>
      have hx : c = x := by
        rcases hsign with hp | hp | hp <;> exact (List.cons.inj hp).1
      have hno := hws x List.mem_cons_self
      rw [← hx, hspace] at hno
      cases hno

/-- The first character is a digit where nothing stands in front of the digits. -/
theorem SizeText.head (h : SizeText a [] digits unit m) : ∀ c ∈ a.head?, isDigit c = true := by
  obtain ⟨c, cs, hc⟩ := List.exists_cons_of_ne_nil h.nonempty
  have ha : a = c :: (cs ++ unit) := by
    rw [h.eq, hc]
    rfl
  rw [ha]
  intro x hx
  cases hx
  exact h.digit _ (hc ▸ List.mem_cons_self)

/-- Its digits and its unit are then the only ones. -/
theorem SizeText.unique (h : SizeText a [] digits unit m) {digits' unit' : CStr} {m' : Nat}
    (h' : SizeText a [] digits' unit' m') : digits = digits' ∧ unit = unit' ∧ m = m' := by
  have hcut := cut_digits h.digit (unit_head h.factor)
  have hcut' := cut_digits h'.digit (unit_head h'.factor)
  have heq : digits ++ unit = digits' ++ unit' := h.eq.symm.trans h'.eq
  rw [heq, hcut'.1, hcut'.2] at hcut
  obtain ⟨rfl, rfl⟩ := hcut
  exact ⟨rfl, rfl, Option.some.inj (h.factor.symm.trans h'.factor)⟩

end

/-! ## What is read -/

/-- The buffer holds the first characters that are not blank. -/
theorem copyNoBlanks_eq (room : Nat) (text : CStr) : copyNoBlanks room text = (nonBlank text).take room := by
  induction text generalizing room with
  | nil =>
    cases room with
    | zero => rfl
    | succ room => rfl
  | cons c cs ih =>
    cases room with
    | zero => rfl
    | succ room =>
      rw [copyNoBlanks, nonBlank, List.filter_cons]
      by_cases hc : c = 0x20 ∨ c = 0x09
      · rw [if_pos hc, if_neg (by simpa [or_iff_not_imp_left] using hc)]
        exact ih (room + 1)
      · rw [if_neg hc, if_pos (by simpa [not_or] using hc), List.take_succ_cons]
        exact congrArg (c :: ·) (ih room)

/-- `strtoull` reads a front, digits, and what follows them. -/
theorem strtoull_eq {a pre digits rest : CStr} (ha : a = pre ++ (digits ++ rest)) (hpre : Front pre) (hne : digits ≠ [])
    (hdigits : ∀ c ∈ digits, isDigit c = true) (hrest : ∀ c ∈ rest.head?, isDigit c = false) :
    strtoull a = some (ullValue (pre.getLast? == some 0x2d) digits, rest) := by
  obtain ⟨ws, hws, hsign⟩ := hpre
  obtain ⟨htake, hdrop⟩ := cut_digits hdigits hrest
  obtain ⟨c, cs, rfl⟩ := List.exists_cons_of_ne_nil hne
  obtain ⟨hspace, hminus, hplus⟩ := isSpace_of_isDigit (hdigits c List.mem_cons_self)
  have hlast : (ws.getLast? == some 0x2d) = false := by
    rw [beq_eq_false_iff_ne]
    intro hl
    have hminus := hws 0x2d (List.mem_of_getLast? hl)
    cases hminus
  have hskip : ∀ more : CStr, (∀ x ∈ more.head?, isSpace x = false) → (ws ++ more).dropWhile isSpace = more := by
    intro more hmore
    rw [List.dropWhile_append_of_pos hws]
    cases more with
    | nil => rfl
    | cons x more => simp [hmore x rfl]
  rw [List.cons_append] at htake hdrop
  rcases hsign with rfl | rfl | rfl
  · have hminus : (c == 0x2d) = false := beq_eq_false_iff_ne.mpr hminus
    have hplus : (c == 0x2b) = false := beq_eq_false_iff_ne.mpr hplus
    rw [ha, List.cons_append, strtoull, hskip _ (by simpa using hspace)]
    simp [hminus, hplus, htake, hdrop, hlast]
  · rw [ha, List.append_assoc, List.singleton_append, strtoull, hskip _ (by simp [isSpace])]
    simp [htake, hdrop]
  · rw [ha, List.append_assoc, List.singleton_append, strtoull, hskip _ (by simp [isSpace])]
    simp [htake, hdrop]

/-- Whatever `strtoull` accepts is a front and digits, cut off at the first character behind them. -/
theorem strtoull_front {a rest : CStr} {n : Nat} (h : strtoull a = some (n, rest)) :
    ∃ pre digits, a = pre ++ (digits ++ rest) ∧ Front pre ∧ digits ≠ [] ∧ (∀ c ∈ digits, isDigit c = true) ∧
      ∀ c ∈ rest.head?, isDigit c = false := by
  have hws : ∀ c ∈ a.takeWhile isSpace, isSpace c = true := fun c hc => List.mem_takeWhile_imp hc
  have hsplit : a = a.takeWhile isSpace ++ a.dropWhile isSpace := List.takeWhile_append_dropWhile.symm
  simp only [strtoull] at h
  generalize a.takeWhile isSpace = ws at hws hsplit
  generalize a.dropWhile isSpace = body at h hsplit
  obtain ⟨sign, number, hbody, hsign, hnumber⟩ : ∃ sign number, body = sign ++ number ∧
      (sign = [] ∨ sign = [0x2b] ∨ sign = [0x2d]) ∧
      (if (body.head? == some 0x2d || body.head? == some 0x2b) = true then body.tail else body) = number := by
    refine ⟨if (body.head? == some 0x2d || body.head? == some 0x2b) = true then body.take 1 else [], _, ?_, ?_, rfl⟩
    · split
      · cases body with
        | nil => rfl
        | cons c body => rfl
      · rfl
    · split
      · rename_i hc
        cases body with
        | nil => exact Or.inl rfl
        | cons c body =>
          have hc : c = 0x2d ∨ c = 0x2b := by simpa using hc
          rcases hc with rfl | rfl
          · exact Or.inr (Or.inr rfl)
          · exact Or.inr (Or.inl rfl)
      · exact Or.inl rfl
  rw [hnumber] at h
  split at h
  · cases h
  · rename_i hne
    cases h
    refine ⟨ws ++ sign, number.takeWhile isDigit, ?_, ⟨ws, hws, ?_⟩, hne, fun c hc => List.mem_takeWhile_imp hc, ?_⟩
    · rw [List.takeWhile_append_dropWhile, List.append_assoc, ← hbody]
      exact hsplit
    · rcases hsign with rfl | rfl | rfl
      · exact Or.inl (List.append_nil _)
      · exact Or.inr (Or.inl rfl)
      · exact Or.inr (Or.inr rfl)
    · intro c hc
      have hhead := List.head?_dropWhile_not isDigit number
      rw [Option.mem_def.mp hc] at hhead
      exact hhead

section

variable {casecmp : CStr → CStr → Bool} (hcmp : CaseInsensitive casecmp)
include hcmp

/-- `parse_size` in terms of the units' factors. -/
theorem parseSize_eq (text : CStr) :
    parseSize casecmp text =
      if ((nonBlank text).take 127).map toLower = bytes "infinite" then some (2 ^ 64 - 1)
      else (strtoull ((nonBlank text).take 127)).bind (fun r => (unitFactor r.2).map (fun m => r.1 * m % 2 ^ 64)) := by
  have hword : ∀ (a : CStr) (w lower : String), (bytes w).map toLower = bytes lower →
      (casecmp a (bytes w) = true ↔ a.map toLower = bytes lower) := by
    intro a w lower hw
    rw [hcmp, hw]
  rw [parseSize, copyNoBlanks_eq]
  simp only [hword _ "infinite" "infinite" (by decide)]
  split
  · rfl
  · cases hr : strtoull ((nonBlank text).take 127) with
    | none => rfl
    | some r =>
      obtain ⟨n, rest⟩ := r
      have hn := strtoull_lt hr
      simp only [hword _ "KB" "kb" (by decide), hword _ "Ki" "ki" (by decide), hword _ "MB" "mb" (by decide),
        hword _ "Mi" "mi" (by decide), Option.bind_some, unitFactor]
      split
      · rw [Option.map_some, Nat.mul_one, Nat.mod_eq_of_lt hn]
      · split
        · rfl
        · split
          · simp [Nat.mul_assoc]
          · rfl

/-- `parse_size` returns what it reads in the first 127 characters that are not blank. -/
theorem parseSize_iff (text : CStr) (v : Nat) : parseSize casecmp text = some v ↔ Reads ((nonBlank text).take 127) v := by
  rw [parseSize_eq hcmp]
  generalize (nonBlank text).take 127 = a
  constructor
  · intro h
    split at h
    · rename_i hinf
      cases h
      exact Or.inl ⟨hinf, rfl⟩
    · obtain ⟨⟨n, rest⟩, hr, hm⟩ := Option.bind_eq_some_iff.mp h
      obtain ⟨m, hfactor, rfl⟩ := Option.map_eq_some_iff.mp hm
      obtain ⟨pre, digits, ha, hpre, hne, hdigits, hrest⟩ := strtoull_front hr
      have hn := strtoull_eq ha hpre hne hdigits hrest
      rw [hr] at hn
      cases hn
      exact Or.inr ⟨pre, digits, rest, m, ⟨ha, hpre, hne, hdigits, hfactor⟩, rfl⟩
  · rintro (⟨hinf, rfl⟩ | ⟨pre, digits, unit, m, ht, rfl⟩)
    · rw [if_pos hinf]
    · rw [if_neg ht.not_infinite, strtoull_eq ht.eq ht.front ht.nonempty ht.digit (unit_head ht.factor), Option.bind_some,
        ht.factor]
      rfl

end

/-! ## Where the two agree -/

/-- The value `parse_size` reads in a size text is the number, if that fits. -/
theorem value_eq {digits unit : CStr} {m : Nat} (hfactor : unitFactor unit = some m) (hfit : digitsValue digits * m < 2 ^ 64) :
    ullValue (([] : CStr).getLast? == some 0x2d) digits * m % 2 ^ 64 = digitsValue digits * m := by
  have hle := Nat.le_mul_of_pos_right (digitsValue digits) (factor_pos hfactor)
  have hneg : (([] : CStr).getLast? == some 0x2d) = false := rfl
  rw [hneg, ullValue_of_lt (Nat.lt_of_le_of_lt hle hfit), Nat.mod_eq_of_lt hfit]

/-- Reading a size text, where it denotes the value read, meets nothing in front of the digits, and the number fits. -/
theorem SizeText.fits_of_denotes {a pre digits unit : CStr} {m v : Nat} (h : SizeText a pre digits unit m) (hd : Denotes a v) :
    pre = [] ∧ v = digitsValue digits * m ∧ v < 2 ^ 64 := by
  rcases hd with ⟨hinf, -⟩ | ⟨digits', unit', m', h', hv, hfit⟩
  · exact absurd hinf h.not_infinite
  · have hpre := h.front_eq h'.head
    subst hpre
    obtain ⟨rfl, rfl, rfl⟩ := h.unique h'
    exact ⟨rfl, hv, hfit⟩

/-- A text that the buffer holds is read exactly when it is no size text, or one without a front whose number fits. -/
theorem short_iff (b : CStr) :
    (∀ v, Reads b v ↔ Denotes b v) ↔
      ∀ pre digits unit m, SizeText b pre digits unit m → pre = [] ∧ digitsValue digits * m < 2 ^ 64 := by
  constructor
  · intro hagree pre digits unit m h
    obtain ⟨hpre, hv, hfit⟩ := h.fits_of_denotes ((hagree _).mp (Or.inr ⟨pre, digits, unit, m, h, rfl⟩))
    exact ⟨hpre, hv ▸ hfit⟩
  · intro hexact v
    refine or_congr Iff.rfl ⟨?_, ?_⟩
    · rintro ⟨pre, digits, unit, m, h, rfl⟩
      obtain ⟨rfl, hfit⟩ := hexact pre digits unit m h
      rw [value_eq h.factor hfit]
      exact ⟨digits, unit, m, h, rfl, hfit⟩
    · rintro ⟨digits, unit, m, h, rfl, hfit⟩
      exact ⟨[], digits, unit, m, h, (value_eq h.factor hfit).symm⟩

/-- The zeros that make a long text denote what its first characters do. -/
def Zeros (b : CStr) : Prop :=
  ∃ digits unit m, SizeText b [] digits unit m ∧ 127 ≤ digits.length ∧ ∀ c ∈ digits, c = 0x30

/-- A text of another length is not `infinite`. -/
theorem long_not_infinite {a : CStr} (h : 8 < a.length) : a.map toLower ≠ bytes "infinite" := by
  intro hinf
  have hlen := congrArg List.length hinf
  rw [List.length_map] at hlen
  rw [hlen] at h
  exact absurd h (by decide)

/-- The first characters of a size text with enough digits are a size text without a unit. -/
theorem SizeText.take {b digits unit : CStr} {m : Nat} (h : SizeText b [] digits unit m) (hlen : 127 ≤ digits.length) :
    SizeText (b.take 127) [] (digits.take 127) [] 1 where
  eq := by
    rw [h.eq, List.nil_append, List.take_append_of_le_length hlen, List.nil_append, List.append_nil]
  front := front_nil
  nonempty := by
    intro hnil
    have hzero := congrArg List.length hnil
    rw [List.length_take, Nat.min_eq_left hlen] at hzero
    cases hzero
  digit := fun c hc => h.digit c (List.mem_of_mem_take hc)
  factor := rfl

/-- What the buffer holds of a size text begins with a digit too. -/
theorem SizeText.take_front {b digits unit pre digits' unit' : CStr} {m m' : Nat} (h : SizeText b [] digits unit m)
    (h' : SizeText (b.take 127) pre digits' unit' m') : pre = [] := by
  refine h'.front_eq (fun c hc => h.head c ?_)
  rw [List.head?_take, if_neg (by decide)] at hc
  exact hc

/-- Of a text that the buffer does not hold, and that denotes the size that is read in the buffer, all digits are zeros. -/
theorem zeros_of_agree {b digits unit pre digits' unit' : CStr} {m m' : Nat} (hlong : 127 < b.length)
    (h : SizeText b [] digits unit m) (hfit : digitsValue digits * m < 2 ^ 64)
    (h' : SizeText (b.take 127) pre digits' unit' m')
    (hv : digitsValue digits * m = ullValue (pre.getLast? == some 0x2d) digits' * m' % 2 ^ 64) : Zeros b := by
  obtain rfl := h.take_front h'
  have hlen : b.length = digits.length + unit.length := by rw [h.eq, List.nil_append, List.length_append]
  have hunit : unit.length ≤ 2 ∧ (unit ≠ [] → 1024 ≤ m) := by
    rcases unit_cases h.factor with ⟨rfl, -⟩ | ⟨htwo, hm, -⟩
    · exact ⟨by simp, fun hne => absurd rfl hne⟩
    · exact ⟨Nat.le_of_eq htwo, fun _ => hm⟩
  rcases Nat.lt_or_ge digits.length 127 with hshort | hge
  · -- the buffer ends inside the unit
    have htake : b.take 127 = digits ++ unit.take 1 := by
      have hroom : 127 - digits.length = 1 := by omega
      rw [h.eq, List.nil_append, List.take_append, List.take_of_length_le (Nat.le_of_lt hshort), hroom]
    have hhead : ∀ c ∈ (unit.take 1).head?, isDigit c = false := by
      rw [List.head?_take, if_neg (by decide)]
      exact unit_head h.factor
    have hcut := cut_digits h.digit hhead
    have hcut' := cut_digits h'.digit (unit_head h'.factor)
    have heq : digits ++ unit.take 1 = digits' ++ unit' := htake.symm.trans h'.eq
    have hone : unit'.length = 1 := by
      rw [← hcut'.2, ← heq, hcut.2, List.length_take]
      omega
    rcases unit_cases h'.factor with ⟨rfl, -⟩ | ⟨htwo, -, -⟩
    · cases hone
    · omega
  · refine ⟨digits, unit, m, h, hge, (digitsValue_eq_zero h.digit).mp ?_⟩
    obtain ⟨hdigits, -, hone⟩ := (h.take hge).unique h'
    have hsplit := digitsValue_append (digits.take 127) (digits.drop 127)
    rw [List.take_append_drop, hdigits] at hsplit
    have hm := Nat.le_mul_of_pos_right (digitsValue digits) (factor_pos h.factor)
    have hle := Nat.le_mul_of_pos_right (digitsValue digits') (Nat.pow_pos (n := (digits.drop 127).length) (by decide : 0 < 10))
    have hsame := value_eq h'.factor (show digitsValue digits' * m' < 2 ^ 64 by rw [← hone]; omega)
    rw [hsame, ← hone, Nat.mul_one] at hv
    by_cases hmore : digits.length = 127
    · -- the unit is cut off
      have hne : unit ≠ [] := by
        rintro rfl
        simp only [List.length_nil] at hlen
        omega
      have hdrop : digits.drop 127 = [] := List.drop_eq_nil_of_le (Nat.le_of_eq hmore)
      have hbig := Nat.mul_le_mul_left (digitsValue digits) (hunit.2 hne)
      rw [hdrop, List.length_nil, Nat.pow_zero, Nat.mul_one] at hsplit
      have hzero : digitsValue [] = 0 := rfl
      omega
    · -- digits are cut off
      obtain ⟨k, hk⟩ : ∃ k, (digits.drop 127).length = k + 1 := ⟨digits.length - 128, by rw [List.length_drop]; omega⟩
      have hten := Nat.mul_le_mul_left (digitsValue digits') (Nat.pow_pos (n := k) (by decide : 0 < 10))
      rw [hk, Nat.pow_succ, ← Nat.mul_assoc] at hsplit
      omega

/-- A text that the buffer does not hold. -/
theorem long_iff {b : CStr} (hlong : 127 < b.length) :
    (∀ v, Reads (b.take 127) v ↔ Denotes b v) ↔
      Zeros b ∨ (∀ pre digits unit m, ¬ SizeText (b.take 127) pre digits unit m) ∧
        ∀ digits unit m, SizeText b [] digits unit m → 2 ^ 64 ≤ digitsValue digits * m := by
  have hinf : b.map toLower ≠ bytes "infinite" := long_not_infinite (by omega)
  have hinf' : (b.take 127).map toLower ≠ bytes "infinite" := by
    refine long_not_infinite ?_
    rw [List.length_take]
    omega
  have hread : ∀ v, Reads (b.take 127) v ↔ ∃ pre digits unit m, SizeText (b.take 127) pre digits unit m ∧
      v = ullValue (pre.getLast? == some 0x2d) digits * m % 2 ^ 64 := fun v => or_iff_right (fun h => hinf' h.1)
  have hdenote : ∀ v, Denotes b v ↔ ∃ digits unit m, SizeText b [] digits unit m ∧ v = digitsValue digits * m ∧ v < 2 ^ 64 :=
    fun v => or_iff_right (fun h => hinf h.1)
  simp only [hread, hdenote]
  constructor
  · intro hagree
    by_cases hsome : ∃ digits unit m, SizeText b [] digits unit m ∧ digitsValue digits * m < 2 ^ 64
    · obtain ⟨digits, unit, m, h, hfit⟩ := hsome
      obtain ⟨pre, digits', unit', m', h', hv⟩ := (hagree _).mpr ⟨digits, unit, m, h, rfl, hfit⟩
      exact Or.inl (zeros_of_agree hlong h hfit h' hv)
    · refine Or.inr ⟨fun pre digits unit m h => ?_, fun digits unit m h => ?_⟩
      · obtain ⟨digits', unit', m', h', hv, hfit⟩ := (hagree _).mp ⟨pre, digits, unit, m, h, rfl⟩
        exact hsome ⟨digits', unit', m', h', hv ▸ hfit⟩
      · exact Nat.le_of_not_lt (fun hfit => hsome ⟨digits, unit, m, h, hfit⟩)
  · rintro (⟨digits, unit, m, h, hlen, hzeros⟩ | ⟨hno, hlarge⟩) v
    · have hzero := (digitsValue_eq_zero h.digit).mpr hzeros
      have hzero' := (digitsValue_eq_zero (h.take hlen).digit).mpr (fun c hc => hzeros c (List.mem_of_mem_take hc))
      have hvalue := value_eq (h.take hlen).factor (show digitsValue (digits.take 127) * 1 < 2 ^ 64 by rw [hzero']; decide)
      rw [hzero', Nat.zero_mul] at hvalue
      constructor
      · rintro ⟨pre, digits', unit', m', h', rfl⟩
        obtain rfl := h.take_front h'
        obtain ⟨rfl, -, rfl⟩ := (h.take hlen).unique h'
        rw [hvalue]
        exact ⟨digits, unit, m, h, by rw [hzero, Nat.zero_mul], by decide⟩
      · rintro ⟨digits', unit', m', h', rfl, -⟩
        obtain ⟨rfl, rfl, rfl⟩ := h.unique h'
        refine ⟨[], digits.take 127, [], 1, h.take hlen, ?_⟩
        rw [hvalue, hzero, Nat.zero_mul]
    · constructor
      · rintro ⟨pre, digits, unit, m, h, -⟩
        exact absurd h (hno pre digits unit m)
      · rintro ⟨digits, unit, m, h, rfl, hfit⟩
        exact absurd (hlarge digits unit m h) (Nat.not_le_of_lt hfit)

/-- The inputs on which `parse_size` is exact. Of a text of up to 127 characters that is a size text, it is asked that nothing
stands in front of its digits and that its number fits; of a longer one, that it is zeros, or that neither its first 127
characters are a size text nor it denotes a size itself. -/
def ReadExactly (b : CStr) : Prop :=
  if b.length ≤ 127 then ∀ pre digits unit m, SizeText b pre digits unit m → pre = [] ∧ digitsValue digits * m < 2 ^ 64
  else
    Zeros b ∨ (∀ pre digits unit m, ¬ SizeText (b.take 127) pre digits unit m) ∧
      ∀ digits unit m, SizeText b [] digits unit m → 2 ^ 64 ≤ digitsValue digits * m

/-- `parse_size` accepts just the size strings, each with what it denotes, exactly on these inputs. -/
theorem parse_size_iff {casecmp : CStr → CStr → Bool} (hcmp : CaseInsensitive casecmp) (text : CStr) :
    (∀ v, parseSize casecmp text = some v ↔ Denotes (nonBlank text) v) ↔ ReadExactly (nonBlank text) := by
  simp only [parseSize_iff hcmp]
  generalize nonBlank text = b
  unfold ReadExactly
  split
  · rename_i hshort
    rw [List.take_of_length_le hshort]
    exact short_iff b
  · rename_i hlong
    exact long_iff (Nat.lt_of_not_le hlong)

/-- `1 mb` is read as a megabyte. -/
theorem parse_size_iff_1mb : parseSize sameLetters (bytes "1 mb") = some 1048576 ∧ Denotes (nonBlank (bytes "1 mb")) 1048576 := by
  have hblank : nonBlank (bytes "1 mb") = bytes "1mb" := by decide
  have htext : SizeText (bytes "1mb") [] [0x31] (bytes "mb") 1048576 :=
    ⟨by decide, front_nil, by decide, List.forall_mem_singleton.mpr (by decide), by decide⟩
  have hexact : ReadExactly (nonBlank (bytes "1 mb")) := by
    rw [hblank, ReadExactly, if_pos (by decide)]
    intro pre digits unit m h
    obtain rfl := h.front_eq htext.head
    obtain ⟨rfl, rfl, rfl⟩ := h.unique htext
    exact ⟨rfl, by decide⟩
  have hread : parseSize sameLetters (bytes "1 mb") = some 1048576 := by decide
  exact ⟨hread, ((parse_size_iff caseInsensitive_sameLetters (bytes "1 mb")).mpr hexact 1048576).mp hread⟩

/-- `-1` is accepted, as the largest size, and it is no size. -/
theorem parse_size_false : ¬ ∀ v, parseSize sameLetters (bytes "-1") = some v ↔ Denotes (nonBlank (bytes "-1")) v := by
  intro hagree
  have hread : parseSize sameLetters (bytes "-1") = some (2 ^ 64 - 1) := by decide
  have htext : SizeText (nonBlank (bytes "-1")) [0x2d] [0x31] [] 1 :=
    ⟨by decide, ⟨[], by simp, Or.inr (Or.inr rfl)⟩, by decide, List.forall_mem_singleton.mpr (by decide), rfl⟩
  obtain ⟨hpre, -⟩ := htext.fits_of_denotes ((hagree _).mp hread)
  cases hpre

end P8
