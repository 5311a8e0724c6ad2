import P8.Format.Scan

/-!
# Format.Grammar: the formats and the arguments they stand for

The conversion specifications of a format as data, their text, and for each the entries it stands for, read off the
specification alone. Over the text of any such format the scan gives the entries in order, up to the capacity of the list
(`FormatScan.run_render`): nothing a directive sets is seen by the next one, since the scan forgets it at the next per cent
sign.
-/

namespace P8

/-- The byte of an ASCII character. -/
def charByte (c : Char) : UInt8 := UInt8.ofNat c.toNat

inductive Flag where
  | minus | plus | space | hash | zero
  deriving DecidableEq, Repr

def Flag.byte : Flag → UInt8
  | .minus => charByte '-'
  | .plus => charByte '+'
  | .space => charByte ' '
  | .hash => charByte '#'
  | .zero => charByte '0'

/-- A width, or what stands behind the point of a precision: digits, possibly none, or a `*`. -/
inductive Count where
  | digits (ds : List (Fin 10))
  | star
  deriving DecidableEq, Repr

def digitByte (d : Fin 10) : UInt8 := UInt8.ofNat (48 + d.val)

def Count.text : Count → CStr
  | .digits ds => ds.map digitByte
  | .star => [charByte '*']

/-- The argument a `*` takes. -/
def Count.entries : Count → List LogVarg
  | .digits _ => []
  | .star => [⟨ArgType.int32, 8⟩]

/-- A precision: the point and what follows it. -/
def precisionText : Option Count → CStr
  | none => []
  | some c => charByte '.' :: c.text

def precisionEntries : Option Count → List LogVarg
  | none => []
  | some c => c.entries

/-- A length modifier, `plain` where there is none. -/
inductive Length where
  | plain | hh | h | l | ll | j | z | t | upperL | upperI | i32 | i64 | w
  deriving DecidableEq, Repr

def Length.text : Length → CStr
  | .plain => []
  | .hh => bytes "hh"
  | .h => bytes "h"
  | .l => bytes "l"
  | .ll => bytes "ll"
  | .j => bytes "j"
  | .z => bytes "z"
  | .t => bytes "t"
  | .upperL => bytes "L"
  | .upperI => bytes "I"
  | .i32 => bytes "I32"
  | .i64 => bytes "I64"
  | .w => bytes "w"

inductive Conv where
  | d | i | o | u | x | X | b | B | c | C | s | S | p | e | E | f | F | g | G | a | A
  deriving DecidableEq, Repr

def Conv.char : Conv → Char
  | .d => 'd' | .i => 'i' | .o => 'o' | .u => 'u' | .x => 'x' | .X => 'X' | .b => 'b' | .B => 'B'
  | .c => 'c' | .C => 'C' | .s => 's' | .S => 'S' | .p => 'p'
  | .e => 'e' | .E => 'E' | .f => 'f' | .F => 'F' | .g => 'g' | .G => 'G' | .a => 'a' | .A => 'A'

/-- A conversion specification behind its per cent sign. -/
structure Directive where
  flags : List Flag
  width : Count
  precision : Option Count
  length : Length
  conv : Conv
  deriving DecidableEq, Repr

def Directive.text (d : Directive) : CStr :=
  d.flags.map Flag.byte ++ (d.width.text ++ (precisionText d.precision ++ (d.length.text ++ [charByte d.conv.char])))

/-- A byte of literal text: no per cent sign, and not the zero that ends the format. -/
abbrev Literal := { c : UInt8 // c ≠ 0x25 ∧ c ≠ 0 }

inductive Segment where
  | literal (t : List Literal)
  | percent
  | directive (d : Directive)

def Segment.text : Segment → CStr
  | .literal t => t.map Subtype.val
  | .percent => [0x25, 0x25]
  | .directive d => 0x25 :: d.text

/-- The text of a format. -/
def render (fmt : List Segment) : CStr := fmt.flatMap Segment.text

/-! ## The entries a format stands for -/

/-- An integer conversion, always in a slot of 8 bytes. -/
def intEntry : Length → LogVarg
  | .hh => ⟨ArgType.int8, 8⟩
  | .h => ⟨ArgType.int16, 8⟩
  | .l | .ll | .z | .t | .upperI | .i64 => ⟨ArgType.int64, 8⟩
  | .j => ⟨ArgType.intmax, 8⟩
  | .plain | .upperL | .i32 | .w => ⟨ArgType.int32, 8⟩

def floatEntry (length : Length) : LogVarg :=
  if length = .upperL then ⟨ArgType.ldouble, 16⟩ else ⟨ArgType.double, 8⟩

def charEntry (length : Length) : LogVarg :=
  if length = .l then ⟨ArgType.char32, 8⟩ else ⟨ArgType.char, 8⟩

/-- A string conversion: `wideLetter` for the letter S, the width flag for a size. -/
def strEntry (length : Length) (wideLetter : Bool) (hasWidth : UInt8) : LogVarg :=
  if length = .h then ⟨ArgType.stra, hasWidth⟩
  else if wideLetter ∨ length = .l then ⟨ArgType.ustr32, hasWidth⟩
  else ⟨ArgType.ustr8, hasWidth⟩

def Conv.entry (length : Length) (hasWidth : UInt8) : Conv → LogVarg
  | .d | .i | .o | .u | .x | .X | .b | .B => intEntry length
  | .c | .C => charEntry length
  | .s => strEntry length false hasWidth
  | .S => strEntry length true hasWidth
  | .p => ⟨ArgType.pvoid, 8⟩
  | .e | .E | .f | .F | .g | .G | .a | .A => floatEntry length

/-- A digit or a `*`. -/
def isWidthByte (c : UInt8) : Bool := isDigit c || c == charByte '*'

/-- The width flag of a directive: whether its text holds a digit or a `*`. -/
def Directive.hasWidth (d : Directive) : UInt8 := if d.text.any isWidthByte then 1 else 0

/-- The entries of a directive: one for each `*`, then its conversion. -/
def Directive.entries (d : Directive) : List LogVarg :=
  d.width.entries ++ precisionEntries d.precision ++ [d.conv.entry d.length d.hasWidth]

def Segment.entries : Segment → List LogVarg
  | .directive d => d.entries
  | _ => []

/-- The reference list of a format. -/
def reference (fmt : List Segment) : List LogVarg := fmt.flatMap Segment.entries

/-! ## The scan at a full list -/

/-- A full list takes no entry. -/
theorem FormatScan.push_full {k : Nat} {s s' : FormatScan} {a : LogVarg} (h : k ≤ s.args.length) :
    FormatScan.push k s a ≠ some s' := by
  intro hp
  simp [FormatScan.push, h] at hp

/-- At a full list a step of the `switch` adds nothing. -/
theorem FormatScan.directive_full {k : Nat} {s s' : FormatScan} {c : UInt8} {rest : CStr} (h : k ≤ s.args.length)
    (hd : s.directive k c rest = some s') : s'.args = s.args := by
  simp only [FormatScan.directive] at hd
  split at hd
  · exact absurd hd (FormatScan.push_full h)
  · split at hd
    · cases hd
      unfold FormatScan.prefixed
      split <;> rfl
    · split at hd
      · cases hd
        rfl
      · split at hd
        · cases hd
          rfl
        · exact absurd hd (FormatScan.push_full h)

/-- Once the list is full the scan gives it back, whatever follows. -/
theorem FormatScan.run_full {k : Nat} {s : FormatScan} (h : k ≤ s.args.length) (fmt : CStr) :
    FormatScan.run k s fmt = s.args := by
  induction fmt generalizing s with
  | nil => rfl
  | cons c rest ih =>
    unfold FormatScan.run
    split
    · exact ih h
    · split
      · split
        · exact ih h
        · exact ih h
      · split
        · rfl
        · rename_i s' hd
          have hargs := FormatScan.directive_full h hd
          rw [ih (hargs ▸ h), hargs]

/-- An entry is added up to the capacity: a scan that stops here gives what it would give if it went on. -/
theorem FormatScan.run_push (k : Nat) (args : List LogVarg) (a : LogVarg) (percent : Bool) (pfx : PrefixType)
    (hasWidth : UInt8) (rest : CStr) :
    (match FormatScan.push k ⟨percent, pfx, hasWidth, 0, args.take k⟩ a with
      | none => args.take k
      | some s' => FormatScan.run k s' rest) =
      FormatScan.run k ⟨percent, pfx, hasWidth, 0, (args ++ [a]).take k⟩ rest := by
  by_cases h : k ≤ args.length
  · have htake : (args ++ [a]).take k = args.take k := List.take_append_of_le_length h
    have hfull : k ≤ (args.take k).length := by
      rw [List.length_take]
      omega
    rw [htake, FormatScan.run_full hfull, FormatScan.push, if_pos hfull]
  · have htake : args.take k = args := List.take_of_length_le (by omega)
    have happ : (args ++ [a]).take k = args ++ [a] := by
      refine List.take_of_length_le ?_
      rw [List.length_append, List.length_singleton]
      omega
    rw [htake, happ]
    simp [FormatScan.push, h]

/-! ## The scan inside a directive -/

/-- The width flag behind a text. -/
def widthOver (hasWidth : UInt8) (cs : CStr) : UInt8 := if cs.any isWidthByte then 1 else hasWidth

@[simp] theorem widthOver_nil (hasWidth : UInt8) : widthOver hasWidth [] = hasWidth := rfl

/-- The width flag over two texts. -/
theorem widthOver_append (hasWidth : UInt8) (as bs : CStr) :
    widthOver hasWidth (as ++ bs) = widthOver (widthOver hasWidth as) bs := by
  simp only [widthOver, List.any_append, Bool.or_eq_true]
  split
  · rename_i h
    rcases h with h | h
    · simp [h]
    · simp [h]
  · rename_i h
    simp only [not_or] at h
    simp [h.1, h.2]

/-- The scan inside a directive, with the entries up to the capacity. -/
def scanIn (k : Nat) (pfx : PrefixType) (hasWidth : UInt8) (args : List LogVarg) : FormatScan :=
  ⟨true, pfx, hasWidth, 0, args.take k⟩

/-- The scan between directives. -/
def scanOut (k : Nat) (pfx : PrefixType) (hasWidth : UInt8) (args : List LogVarg) : FormatScan :=
  ⟨false, pfx, hasWidth, 0, args.take k⟩

/-- The characters the `switch` has a case for. -/
def switchLetters : List Char :=
  ['*', '%'] ++ prefixLetters ++
    ['d', 'i', 'o', 'u', 'x', 'X', 'b', 'B', 's', 'S', 'p', 'e', 'E', 'f', 'F', 'g', 'G', 'a', 'A', 'c', 'C']

/-- A character without a case only sets the width flag, where it is a digit. -/
theorem FormatScan.directive_other {k : Nat} {s : FormatScan} {c : UInt8} {rest : CStr}
    (h : Char.ofNat c.toNat ∉ switchLetters) :
    s.directive k c rest = some { s with hasWidth := widthAfter s.hasWidth c } := by
  simp only [switchLetters, prefixLetters, List.cons_append, List.nil_append, List.mem_cons, List.not_mem_nil,
    or_false, not_or] at h
  simp [FormatScan.directive, prefixLetters, conversion, h]

/-- A character without a case sets the flag as any text does. -/
theorem widthAfter_other {c : UInt8} (h : Char.ofNat c.toNat ∉ switchLetters) (hasWidth : UInt8) :
    widthAfter hasWidth c = widthOver hasWidth [c] := by
  have hc : c ≠ charByte '*' := by
    rintro rfl
    exact h (by decide)
  simp [widthAfter, widthOver, isWidthByte, hc]

/-- A digit has no case. -/
theorem digitByte_other : ∀ d, Char.ofNat (digitByte d).toNat ∉ switchLetters := by
  decide

/-- A flag of a directive has no case. -/
theorem flagByte_other (f : Flag) : Char.ofNat f.byte.toNat ∉ switchLetters := by
  cases f <;> decide

/-- The scan over characters without a case. -/
theorem FormatScan.run_others {k : Nat} {pfx : PrefixType} {args : List LogVarg} (cs rest : CStr)
    (h : ∀ c ∈ cs, Char.ofNat c.toNat ∉ switchLetters) :
    ∀ hasWidth, FormatScan.run k (scanIn k pfx hasWidth args) (cs ++ rest) =
      FormatScan.run k (scanIn k pfx (widthOver hasWidth cs) args) rest := by
  induction cs with
  | nil =>
    intro hasWidth
    rfl
  | cons c cs ih =>
    intro hasWidth
    have hc := h c List.mem_cons_self
    have hcs := ih (fun e he => h e (List.mem_cons_of_mem _ he))
    have hcons : c :: cs = [c] ++ cs := rfl
    rw [hcons, widthOver_append, ← hcs, ← widthAfter_other hc]
    simp [FormatScan.run, scanIn, FormatScan.directive_other hc]

/-- The scan over a width, or what follows the point. -/
theorem FormatScan.run_count (k : Nat) (pfx : PrefixType) (hasWidth : UInt8) (args : List LogVarg) (n : Count)
    (rest : CStr) :
    FormatScan.run k (scanIn k pfx hasWidth args) (n.text ++ rest) =
      FormatScan.run k (scanIn k pfx (widthOver hasWidth n.text) (args ++ n.entries)) rest := by
  cases n with
  | digits ds =>
    have hds : ∀ c ∈ ds.map digitByte, Char.ofNat c.toNat ∉ switchLetters := by
      intro c hc
      obtain ⟨d, -, rfl⟩ := List.mem_map.mp hc
      exact digitByte_other d
    rw [Count.entries, List.append_nil]
    exact FormatScan.run_others _ _ hds hasWidth
  | star => exact FormatScan.run_push k args ⟨ArgType.int32, 8⟩ true pfx 1 rest

/-- The scan over a precision, if there is one. -/
theorem FormatScan.run_precision (k : Nat) (pfx : PrefixType) (hasWidth : UInt8) (args : List LogVarg)
    (n : Option Count) (rest : CStr) :
    FormatScan.run k (scanIn k pfx hasWidth args) (precisionText n ++ rest) =
      FormatScan.run k (scanIn k pfx (widthOver hasWidth (precisionText n)) (args ++ precisionEntries n)) rest := by
  cases n with
  | none => rw [precisionText, precisionEntries, List.append_nil, widthOver_nil, List.nil_append]
  | some n =>
    have hpoint : ∀ c ∈ [charByte '.'], Char.ofNat c.toNat ∉ switchLetters :=
      List.forall_mem_singleton.mpr (by decide)
    have htext : precisionText (some n) = [charByte '.'] ++ n.text := rfl
    rw [htext, List.append_assoc, FormatScan.run_others _ _ hpoint, FormatScan.run_count, widthOver_append]
    rfl

/-! ## Length modifiers and conversions -/

/-- The prefix a length modifier is read as. -/
def Length.prefixType (length : Length) (pfx : PrefixType) : PrefixType :=
  match length with
  | .plain => pfx
  | .hh => .hh
  | .h => .h
  | .l => .l
  | .ll => .ll
  | .j => .j
  | .z | .t | .upperI => .i
  | .upperL => .upperL
  | .i32 => .i32
  | .i64 => .i64
  | .w => .w

/-- A conversion letter never continues a length modifier. -/
theorem conv_not_continues (conv : Conv) :
    charByte conv.char ≠ charByte '6' ∧ charByte conv.char ≠ charByte '3' ∧ charByte conv.char ≠ charByte 'l' ∧
      charByte conv.char ≠ charByte 'h' := by
  cases conv <;> decide

/-- The prefix table with its bytes written out. -/
theorem prefixes_bytes : prefixes =
    [⟨[0x49, 0x36, 0x34], .i64⟩, ⟨[0x49, 0x33, 0x32], .i32⟩, ⟨[0x6C, 0x6C], .ll⟩, ⟨[0x68, 0x68], .hh⟩, ⟨[0x68], .h⟩,
      ⟨[0x6C], .l⟩, ⟨[0x4C], .upperL⟩, ⟨[0x49], .i⟩, ⟨[0x7A], .i⟩, ⟨[0x74], .i⟩, ⟨[0x77], .w⟩, ⟨[0x6A], .j⟩] := rfl

/-- In front of a conversion letter the table's first match is the whole modifier. -/
theorem findPrefix_length (length : Length) (hplain : length ≠ .plain) (conv : Conv) (rest : CStr) :
    findPrefix (length.text ++ charByte conv.char :: rest) = some ⟨length.text, length.prefixType .unknown⟩ := by
  obtain ⟨h6, h3, hl, hh⟩ := conv_not_continues conv
  generalize charByte conv.char = c at *
  have h6 : (0x36 : UInt8) ≠ c := fun h => h6 h.symm
  have h3 : (0x33 : UInt8) ≠ c := fun h => h3 h.symm
  have hl : (0x6C : UInt8) ≠ c := fun h => hl h.symm
  have hh : (0x68 : UInt8) ≠ c := fun h => hh h.symm
  cases length
  · exact absurd rfl hplain
  all_goals
    simp [findPrefix, prefixes_bytes, Length.text, Length.prefixType, bytes, List.isPrefixOf, h6, h3, hl, hh]

/-- A prefix of the table begins with one of the letters of the `switch`, and holds a digit just where it ends with one. -/
theorem prefixes_spec : ∀ p ∈ prefixes, (∃ c cs, p.text = c :: cs ∧ Char.ofNat c.toNat ∈ prefixLetters) ∧
    ∃ last, p.text.getLast? = some last ∧ p.text.any isWidthByte = isDigit last := by
  intro p hp
  rw [prefixes_bytes] at hp
  simp only [List.mem_cons, List.not_mem_nil, or_false] at hp
  rcases hp with rfl | rfl | rfl | rfl | rfl | rfl | rfl | rfl | rfl | rfl | rfl | rfl
  all_goals exact ⟨⟨_, _, rfl, by decide⟩, _, rfl, by decide⟩

/-- The scan over a prefix of the table, where it is the first match. -/
theorem FormatScan.run_prefixed (k : Nat) (pfx : PrefixType) (hasWidth : UInt8) (args : List LogVarg) {p : PrefixDesc}
    {rest : CStr} (h : findPrefix (p.text ++ rest) = some p) :
    FormatScan.run k (scanIn k pfx hasWidth args) (p.text ++ rest) =
      FormatScan.run k (scanIn k p.type (widthOver hasWidth p.text) args) rest := by
  obtain ⟨⟨c, cs, htext, hc⟩, last, hlast, hany⟩ := prefixes_spec p (List.mem_of_find?_eq_some h)
  have hwidth : widthAfter hasWidth last = widthOver hasWidth p.text := by simp [widthAfter, widthOver, hany]
  have hlen : p.text.length - 1 = cs.length := by simp [htext]
  have hstep : (scanIn k pfx hasWidth args).directive k c (cs ++ rest) =
      some ⟨true, p.type, widthOver hasWidth p.text, cs.length, args.take k⟩ := by
    rw [FormatScan.directive_prefixLetter hc, FormatScan.prefixed, ← List.cons_append, ← htext, h]
    simp [hlen, hlast, ← hwidth, scanIn]
  rw [htext, List.cons_append, FormatScan.run]
  simp only [scanIn, ne_eq, not_true_eq_false, if_false, Bool.not_true, Bool.false_eq_true]
  rw [scanIn] at hstep
  rw [hstep]
  dsimp only
  rw [FormatScan.run_skip, List.drop_left, ← htext]

/-- The scan over a length modifier. -/
theorem FormatScan.run_length (k : Nat) (hasWidth : UInt8) (args : List LogVarg) (length : Length) (conv : Conv)
    (rest : CStr) :
    FormatScan.run k (scanIn k .unknown hasWidth args) (length.text ++ charByte conv.char :: rest) =
      FormatScan.run k (scanIn k (length.prefixType .unknown) (widthOver hasWidth length.text) args)
        (charByte conv.char :: rest) := by
  by_cases hplain : length = .plain
  · rw [hplain]
    rfl
  · exact FormatScan.run_prefixed (p := ⟨length.text, length.prefixType .unknown⟩) k .unknown hasWidth args
      (findPrefix_length length hplain conv rest)

/-- The entry of an integer by its length modifier. -/
theorem intArg_length (length : Length) : intArg (length.prefixType .unknown) = intEntry length := by
  cases length <;> rfl

/-- The entry of a floating point number by its length modifier. -/
theorem floatArg_length (length : Length) : floatArg (length.prefixType .unknown) = floatEntry length := by
  cases length <;> rfl

/-- The entry of a character by its length modifier. -/
theorem charArg_length (length : Length) : charArg (length.prefixType .unknown) = charEntry length := by
  cases length <;> rfl

/-- The entry of a string by its length modifier and its letter. -/
theorem strArg_length (length : Length) (hasWidth : UInt8) (c : Char) :
    strArg (length.prefixType .unknown) hasWidth c = strEntry length (c = 'S') hasWidth := by
  have hh : length.prefixType .unknown = .h ↔ length = .h := by cases length <;> decide
  have hl : length.prefixType .unknown = .l ↔ length = .l := by cases length <;> decide
  simp only [strArg, strEntry, hh, hl, decide_eq_true_eq]
  split
  · rfl
  · by_cases hc : c = 'S'
    · simp [hc]
    · simp [hc]

/-- A conversion letter gives the entry the specification stands for. -/
theorem conversion_entry (length : Length) (hasWidth : UInt8) (conv : Conv) :
    conversion (length.prefixType .unknown) hasWidth conv.char = some (conv.entry length hasWidth) := by
  cases conv with
  | d | i | o | u | x | X | b | B => exact congrArg some (intArg_length length)
  | c | C => exact congrArg some (charArg_length length)
  | s => exact congrArg some (strArg_length length hasWidth 's')
  | S => exact congrArg some (strArg_length length hasWidth 'S')
  | p => rfl
  | e | E | f | F | g | G | a | A => exact congrArg some (floatArg_length length)

/-- A conversion letter is no `*`, no per cent sign and begins no prefix. -/
theorem conv_letter (conv : Conv) : Char.ofNat (charByte conv.char).toNat = conv.char ∧ conv.char ≠ '*' ∧
    conv.char ∉ prefixLetters ∧ conv.char ≠ '%' := by
  cases conv <;> decide

/-- The scan at a conversion letter: its entry is added and the directive ends. -/
theorem FormatScan.run_conv (k : Nat) (hasWidth : UInt8) (args : List LogVarg) (length : Length) (conv : Conv)
    (rest : CStr) :
    FormatScan.run k (scanIn k (length.prefixType .unknown) hasWidth args) (charByte conv.char :: rest) =
      FormatScan.run k (scanOut k (length.prefixType .unknown) hasWidth (args ++ [conv.entry length hasWidth])) rest := by
  obtain ⟨hch, hstar, hpfx, hpercent⟩ := conv_letter conv
  have hstep : (scanIn k (length.prefixType .unknown) hasWidth args).directive k (charByte conv.char) rest =
      FormatScan.push k ⟨false, length.prefixType .unknown, hasWidth, 0, args.take k⟩ (conv.entry length hasWidth) := by
    simp only [FormatScan.directive, hch, if_neg hstar, if_neg hpfx, if_neg hpercent, scanIn, conversion_entry]
  rw [FormatScan.run, hstep]
  exact FormatScan.run_push k args _ false _ hasWidth rest

/-! ## The scan over a format -/

/-- The width flag a directive's conversion sees is the one of its whole text. -/
theorem Directive.widthOver_eq (d : Directive) :
    widthOver (widthOver (widthOver (widthOver 0 (d.flags.map Flag.byte)) d.width.text) (precisionText d.precision))
      d.length.text = d.hasWidth := by
  have hconv : isWidthByte (charByte d.conv.char) = false := by
    cases d.conv <;> decide
  simp only [← widthOver_append]
  simp [Directive.hasWidth, Directive.text, widthOver, hconv]

/-- The scan over a directive: its entries are added, under its own width and length. -/
theorem FormatScan.run_directive (k : Nat) (args : List LogVarg) (d : Directive) (rest : CStr) :
    FormatScan.run k (scanIn k .unknown 0 args) (d.text ++ rest) =
      FormatScan.run k (scanOut k (d.length.prefixType .unknown) d.hasWidth (args ++ d.entries)) rest := by
  have hflags : ∀ c ∈ d.flags.map Flag.byte, Char.ofNat c.toNat ∉ switchLetters := by
    intro c hc
    obtain ⟨f, -, rfl⟩ := List.mem_map.mp hc
    exact flagByte_other f
  have htext : d.text ++ rest = d.flags.map Flag.byte ++ (d.width.text ++ (precisionText d.precision ++
      (d.length.text ++ charByte d.conv.char :: rest))) := by
    simp [Directive.text]
  rw [htext, FormatScan.run_others _ _ hflags, FormatScan.run_count, FormatScan.run_precision, FormatScan.run_length,
    FormatScan.run_conv, d.widthOver_eq]
  simp [Directive.entries]

/-- The scan over literal text leaves everything as it is. -/
theorem FormatScan.run_literal (k : Nat) (pfx : PrefixType) (hasWidth : UInt8) (args : List LogVarg)
    (t : List Literal) (rest : CStr) :
    FormatScan.run k (scanOut k pfx hasWidth args) (t.map Subtype.val ++ rest) =
      FormatScan.run k (scanOut k pfx hasWidth args) rest := by
  induction t with
  | nil => rfl
  | cons c t ih =>
    have hc : c.val ≠ 0x25 := c.property.1
    rw [← ih]
    simp [FormatScan.run, scanOut, hc]

/-- The scan at a per cent sign: whatever an earlier directive set is forgotten. -/
theorem FormatScan.run_begin (k : Nat) (pfx : PrefixType) (hasWidth : UInt8) (args : List LogVarg) (rest : CStr) :
    FormatScan.run k (scanOut k pfx hasWidth args) (0x25 :: rest) = FormatScan.run k (scanIn k .unknown 0 args) rest := by
  simp [FormatScan.run, scanOut, scanIn]

/-- The scan over one segment. -/
theorem FormatScan.run_segment (k : Nat) (pfx : PrefixType) (hasWidth : UInt8) (args : List LogVarg) (g : Segment)
    (rest : CStr) :
    ∃ pfx' hasWidth', FormatScan.run k (scanOut k pfx hasWidth args) (g.text ++ rest) =
      FormatScan.run k (scanOut k pfx' hasWidth' (args ++ g.entries)) rest := by
  cases g with
  | literal t =>
    rw [Segment.entries, List.append_nil]
    · exact ⟨pfx, hasWidth, FormatScan.run_literal k pfx hasWidth args t rest⟩
    · intro d hd
      cases hd
  | percent =>
    refine ⟨.unknown, 0, ?_⟩
    rw [Segment.text, List.cons_append, FormatScan.run_begin, Segment.entries, List.append_nil]
    · rfl
    · intro d hd
      cases hd
  | directive d =>
    refine ⟨d.length.prefixType .unknown, d.hasWidth, ?_⟩
    rw [Segment.text, List.cons_append, FormatScan.run_begin]
    exact FormatScan.run_directive k args d rest

/-- The scan over a whole format gives its entries, up to the capacity. -/
theorem FormatScan.run_render (k : Nat) (fmt : List Segment) (pfx : PrefixType) (hasWidth : UInt8)
    (args : List LogVarg) :
    FormatScan.run k (scanOut k pfx hasWidth args) (render fmt) = (args ++ reference fmt).take k := by
  induction fmt generalizing pfx hasWidth args with
  | nil => simp [render, reference, FormatScan.run, scanOut]
  | cons g fmt ih =>
    obtain ⟨pfx', hasWidth', hg⟩ := FormatScan.run_segment k pfx hasWidth args g (render fmt)
    have hrender : render (g :: fmt) = g.text ++ render fmt := List.flatMap_cons
    have href : reference (g :: fmt) = g.entries ++ reference fmt := List.flatMap_cons
    rw [hrender, hg, ih, href, List.append_assoc]

/-! ## No byte of a format is the zero that ends it -/

/-- No conversion letter is the terminating zero. -/
theorem charByte_conv_ne_zero (conv : Conv) : charByte conv.char ≠ 0 := by
  cases conv <;> decide

/-- Nor is a character of a width. -/
theorem Count.text_ne_zero (n : Count) : 0 ∉ n.text := by
  have hdigit : ∀ d, digitByte d ≠ 0 := by decide
  cases n with
  | digits ds => simpa [Count.text] using fun d _ => hdigit d
  | star => decide

/-- Nor is one of a directive. -/
theorem Directive.text_ne_zero (d : Directive) : 0 ∉ d.text := by
  have hflag : ∀ f : Flag, f.byte ≠ 0 := fun f => by cases f <;> decide
  have hlength : 0 ∉ d.length.text := by cases d.length <;> decide
  have hprecision : 0 ∉ precisionText d.precision := by
    cases d.precision with
    | none => exact List.not_mem_nil
    | some n => simpa [precisionText, charByte] using n.text_ne_zero
  have hconv := (charByte_conv_ne_zero d.conv).symm
  simp [Directive.text, hflag, hlength, hprecision, hconv, d.width.text_ne_zero]

/-- Nor is one of a format. -/
theorem render_ne_zero (fmt : List Segment) : 0 ∉ render fmt := by
  intro h
  obtain ⟨g, -, hg⟩ := List.mem_flatMap.mp h
  cases g with
  | literal t =>
    obtain ⟨c, -, hc⟩ := List.mem_map.mp hg
    exact c.property.2 hc
  | percent => exact absurd hg (by decide)
  | directive d =>
    rcases List.mem_cons.mp hg with hg | hg
    · exact absurd hg (by decide)
    · exact d.text_ne_zero hg

/-- Over every format of the grammar the parser gives the first entries of the reference list, as many as there is room for,
and never reads behind the format's terminating zero. -/
theorem format_parsed (k : Nat) (fmt : List Segment) :
    parseFormatString k (some (render fmt)) = (reference fmt).take k ∧
      scanFormat k (render fmt) = some ((reference fmt).take k) := by
  have hparse : parseFormatString k (some (render fmt)) = (reference fmt).take k := by
    by_cases hk : k = 0
    · simp [parseFormatString, hk]
    · have hrun := FormatScan.run_render k fmt .unknown 0 []
      simpa [parseFormatString, hk, scanOut] using hrun
  exact ⟨hparse, by rw [scanFormat_eq k (render_ne_zero fmt), hparse]⟩

end P8
