import P8.Protocol

/-!
# Format: the argument list of a format string

`cp8_log::parse_format_string`, for the 64-bit target that is not Windows. The scan goes over the format once and keeps, for
the directive it is inside, the last prefix and whether a width was seen. The argument list it gives is what both the writer
and the reader of a record walk, so the only fact the rest needs is the shape of its entries (`parseFormatString_slot`).
-/

namespace P8

/-- The bytes of an ASCII text. -/
def bytes (s : String) : CStr := s.toList.map (fun c => UInt8.ofNat c.toNat)

/-- `e_prefix_type`. -/
inductive PrefixType where
  | i64 | i32 | ll | l | hh | h | i | w | j | upperL | unknown
  deriving DecidableEq, Repr

/-- `s_prefix_desc`: a prefix and its type; the length is the text's. -/
structure PrefixDesc where
  text : CStr
  type : PrefixType

/-- `gs_prefixes`, the longer of two prefixes first. -/
def prefixes : List PrefixDesc :=
  [⟨bytes "I64", .i64⟩, ⟨bytes "I32", .i32⟩, ⟨bytes "ll", .ll⟩, ⟨bytes "hh", .hh⟩, ⟨bytes "h", .h⟩, ⟨bytes "l", .l⟩,
    ⟨bytes "L", .upperL⟩, ⟨bytes "I", .i⟩, ⟨bytes "z", .i⟩, ⟨bytes "t", .i⟩, ⟨bytes "w", .w⟩, ⟨bytes "j", .j⟩]

/-- `find_prefix`. -/
def findPrefix (fmt : CStr) : Option PrefixDesc := prefixes.find? (fun p => p.text.isPrefixOf fmt)

/-- The locals of the scan. `skip` counts the bytes of a long prefix that are still to be passed over, `args` is `op_args` up
to `lz_count`. -/
structure FormatScan where
  percent : Bool
  pfx : PrefixType
  hasWidth : UInt8
  skip : Nat
  args : List LogVarg

/-- The entry of an integer conversion. -/
def intArg : PrefixType → LogVarg
  | .unknown => ⟨ArgType.int32, sizeOfArg 4⟩
  | .ll | .i64 => ⟨ArgType.int64, sizeOfArg 8⟩
  | .h => ⟨ArgType.int16, sizeOfArg 2⟩
  | .hh => ⟨ArgType.int8, sizeOfArg 1⟩
  | .l => ⟨ArgType.int64, sizeOfArg 8⟩
  | .i32 => ⟨ArgType.int32, sizeOfArg 4⟩
  | .i => ⟨ArgType.int64, sizeOfArg 8⟩
  | .j => ⟨ArgType.intmax, sizeOfArg 8⟩
  | .w | .upperL => ⟨ArgType.int32, sizeOfArg 4⟩

/-- The entry of a string conversion: its size field keeps the width flag. -/
def strArg (pfx : PrefixType) (hasWidth : UInt8) (c : Char) : LogVarg :=
  if pfx = .h then ⟨ArgType.stra, hasWidth⟩
  else if c = 'S' then ⟨ArgType.ustr32, hasWidth⟩
  else if pfx = .l then ⟨ArgType.ustr32, hasWidth⟩
  else ⟨ArgType.ustr8, hasWidth⟩

/-- The entry of a floating-point conversion. -/
def floatArg (pfx : PrefixType) : LogVarg :=
  if pfx = .upperL then ⟨ArgType.ldouble, sizeOfArg 16⟩ else ⟨ArgType.double, sizeOfArg 8⟩

/-- The entry of a character conversion. -/
def charArg (pfx : PrefixType) : LogVarg :=
  if pfx = .h then ⟨ArgType.char, sizeOfArg 1⟩
  else if pfx = .l then ⟨ArgType.char32, sizeOfArg 4⟩
  else ⟨ArgType.char, sizeOfArg 1⟩

/-- The entry of a conversion character, under the prefix and the width seen before it; none for any other character. -/
def conversion (pfx : PrefixType) (hasWidth : UInt8) (c : Char) : Option LogVarg :=
  if c ∈ ['d', 'i', 'o', 'u', 'x', 'X', 'b', 'B'] then some (intArg pfx)
  else if c ∈ ['s', 'S'] then some (strArg pfx hasWidth c)
  else if c = 'p' then some ⟨ArgType.pvoid, sizeOfArg 8⟩
  else if c ∈ ['e', 'E', 'f', 'F', 'g', 'G', 'a', 'A'] then some (floatArg pfx)
  else if c ∈ ['c', 'C'] then some (charArg pfx)
  else none

/-- `c >= '0' && c <= '9'`. -/
def isDigit (c : UInt8) : Bool := 0x30 ≤ c && c ≤ 0x39

/-- The width flag after the character `c` of a directive. -/
def widthAfter (hasWidth c : UInt8) : UInt8 := if isDigit c then 1 else hasWidth

/-- A prefix read at the character `c`: the scan goes on behind it. The check for a digit behind the `switch` sees the
prefix's last byte, so that I64 and I32 count as a width. -/
def FormatScan.prefixed (s : FormatScan) (c : UInt8) (rest : CStr) : FormatScan :=
  match findPrefix (c :: rest) with
  | none => s
  | some p =>
    { s with
      pfx := p.type
      skip := p.text.length - 1
      hasWidth := widthAfter s.hasWidth ((p.text.getLast?).getD c) }

/-- Add an entry; none where the scan returns because the list is full. -/
def FormatScan.push (argsMax : Nat) (s : FormatScan) (a : LogVarg) : Option FormatScan :=
  if argsMax ≤ s.args.length then none else some { s with args := s.args ++ [a] }

/-- The characters of the `switch` that begin a prefix. -/
def prefixLetters : List Char := ['I', 'l', 'h', 'w', 'z', 'j', 't', 'L']

/-- The `switch` of the scan at the character `c` inside a directive, `rest` following it; none where the scan returns. -/
def FormatScan.directive (argsMax : Nat) (s : FormatScan) (c : UInt8) (rest : CStr) : Option FormatScan :=
  let ch := Char.ofNat c.toNat
  if ch = '*' then FormatScan.push argsMax { s with hasWidth := 1 } ⟨ArgType.int32, sizeOfArg 4⟩
  else if ch ∈ prefixLetters then some (s.prefixed c rest)
  else if ch = '%' then some { s with percent := false }
  else
    match conversion s.pfx s.hasWidth ch with
    | none => some { s with hasWidth := widthAfter s.hasWidth c }
    | some a => FormatScan.push argsMax { s with percent := false } a

/-- The scan from a state on. -/
def FormatScan.run (argsMax : Nat) : FormatScan → CStr → List LogVarg
  | s, [] => s.args
  | s, c :: rest =>
    if s.skip ≠ 0 then run argsMax { s with skip := s.skip - 1 } rest
    else if !s.percent then
      if c = 0x25 then run argsMax { s with percent := true, pfx := .unknown, hasWidth := 0 } rest
      else run argsMax s rest
    else
      match s.directive argsMax c rest with
      | none => s.args
      | some s' => run argsMax s' rest

/-- `cp8_log::parse_format_string`: the first `mz_args_count` entries of `ma_args`. -/
def parseFormatString (argsMax : Nat) : Option CStr → List LogVarg
  | none => []
  | some fmt => if argsMax = 0 then [] else FormatScan.run argsMax ⟨false, .unknown, 0, 0, []⟩ fmt

example : parseFormatString 32 (some (bytes "%d %I64d %hs %*s")) =
    [⟨ArgType.int32, 8⟩, ⟨ArgType.int64, 8⟩, ⟨ArgType.stra, 0⟩, ⟨ArgType.int32, 8⟩, ⟨ArgType.ustr8, 1⟩] := by decide

/-! ## The shape of an argument list -/

/-- An entry the writer has a slot for: a string, an 8-byte value, or a long double. -/
def LogVarg.Slot (a : LogVarg) : Prop :=
  a.isStr = true ∨ a.size = 8 ∨ (a.type = ArgType.ldouble ∧ a.size = 16)

/-- The writer has a slot for an integer. -/
theorem intArg_slot (pfx : PrefixType) : (intArg pfx).Slot := by
  cases pfx <;> exact Or.inr (Or.inl rfl)

/-- It has one for a string. -/
theorem strArg_slot (pfx : PrefixType) (hasWidth : UInt8) (c : Char) : (strArg pfx hasWidth c).Slot := by
  unfold strArg
  repeat' split
  all_goals exact Or.inl rfl

/-- It has one for a floating point number. -/
theorem floatArg_slot (pfx : PrefixType) : (floatArg pfx).Slot := by
  unfold floatArg
  split
  · exact Or.inr (Or.inr ⟨rfl, rfl⟩)
  · exact Or.inr (Or.inl rfl)

/-- It has one for a character. -/
theorem charArg_slot (pfx : PrefixType) : (charArg pfx).Slot := by
  unfold charArg
  repeat' split
  all_goals exact Or.inr (Or.inl rfl)

/-- It has one for every argument of a conversion letter. -/
theorem conversion_slot {pfx : PrefixType} {hasWidth : UInt8} {c : Char} {a : LogVarg}
    (h : conversion pfx hasWidth c = some a) : a.Slot := by
  unfold conversion at h
  repeat' split at h
  · cases h
    exact intArg_slot pfx
  · cases h
    exact strArg_slot pfx hasWidth c
  · cases h
    exact Or.inr (Or.inl rfl)
  · cases h
    exact floatArg_slot pfx
  · cases h
    exact charArg_slot pfx
  · cases h

/-- An argument list as the parser builds it: not longer than asked for, every entry with a slot. -/
structure ArgList (argsMax : Nat) (args : List LogVarg) : Prop where
  length_le : args.length ≤ argsMax
  slot : ∀ a ∈ args, a.Slot

/-- Adding an entry keeps the list within its bound. -/
theorem FormatScan.push_argList {argsMax : Nat} {s s' : FormatScan} {a : LogVarg} (hs : ArgList argsMax s.args)
    (ha : a.Slot) (h : FormatScan.push argsMax s a = some s') : ArgList argsMax s'.args := by
  simp only [FormatScan.push, Option.ite_none_left_eq_some, Option.some.injEq] at h
  obtain ⟨hlt, rfl⟩ := h
  refine ⟨?_, ?_⟩
  · rw [List.length_append, List.length_singleton]
    omega
  · intro b hb
    rcases List.mem_append.mp hb with hb | hb
    · exact hs.slot b hb
    · rw [List.mem_singleton.mp hb]
      exact ha

/-- A character of a directive keeps it. -/
theorem FormatScan.directive_argList {argsMax : Nat} {s s' : FormatScan} {c : UInt8} {rest : CStr}
    (hs : ArgList argsMax s.args) (h : s.directive argsMax c rest = some s') : ArgList argsMax s'.args := by
  simp only [FormatScan.directive] at h
  split at h
  · exact FormatScan.push_argList (s := { s with hasWidth := 1 }) hs (Or.inr (Or.inl rfl)) h
  · split at h
    · cases h
      unfold FormatScan.prefixed
      split <;> exact hs
    · split at h
      · cases h
        exact hs
      · split at h
        · cases h
          exact hs
        · rename_i hc
          exact FormatScan.push_argList (s := { s with percent := false }) hs (conversion_slot hc) h

/-- The scan keeps it. -/
theorem FormatScan.run_argList {argsMax : Nat} {s : FormatScan} {fmt : CStr} (hs : ArgList argsMax s.args) :
    ArgList argsMax (FormatScan.run argsMax s fmt) := by
  induction fmt generalizing s with
  | nil => exact hs
  | cons c rest ih =>
    unfold FormatScan.run
    split
    · exact ih hs
    · split
      · split
        · exact ih hs
        · exact ih hs
      · split
        · exact hs
        · rename_i hd
          exact ih (FormatScan.directive_argList hs hd)

/-- Every argument list has at most the entries asked for, and each of them has a slot. -/
theorem parseFormatString_slot (argsMax : Nat) (fmt : Option CStr) : ArgList argsMax (parseFormatString argsMax fmt) := by
  have hnil : ArgList argsMax [] := ⟨Nat.zero_le _, by simp⟩
  unfold parseFormatString
  split
  · exact hnil
  · split
    · exact hnil
    · exact FormatScan.run_argList hnil

end P8
