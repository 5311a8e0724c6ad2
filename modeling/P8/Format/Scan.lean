import P8.Format

/-!
# Format.Scan: the scan over the format's memory

`parse_format_string` again, with its pointer: every byte it looks at is a read of the memory the format lies in, the text and
its terminating zero, and a read behind that zero gives no result. `scanFormat_eq` says that there is none, and that the
argument list is the one of `parseFormatString`.
-/

namespace P8

/-- A read at a position of the format's memory: the text and its terminating zero, nothing behind it. -/
def charAt (fmt : CStr) (p : Nat) : Option UInt8 := (fmt ++ [0])[p]?

/-- `0 == strncmp(ip_fmt, mp_prefix, mu_len)` at the position `p`, which reads up to the first difference. -/
def matchesAt (fmt : CStr) : Nat → CStr → Option Bool
  | _, [] => some true
  | p, c :: cs =>
    match charAt fmt p with
    | none => none
    | some d => if d = c then matchesAt fmt (p + 1) cs else some false

/-- `find_prefix` at the position `p`. -/
def findPrefixAt (fmt : CStr) (p : Nat) : List PrefixDesc → Option (Option PrefixDesc)
  | [] => some none
  | d :: ds =>
    match matchesAt fmt p d.text with
    | none => none
    | some true => some (some d)
    | some false => findPrefixAt fmt p ds

/-- The loop of `parse_format_string` from `lp_iter = p` on, for at most `n` rounds. -/
def FormatScan.scan (argsMax : Nat) (fmt : CStr) : Nat → FormatScan → Nat → Option (List LogVarg)
  | 0, _, _ => none
  | n + 1, s, p =>
    match charAt fmt p with
    | none => none
    | some c =>
      if c = 0 then some s.args
      else if !s.percent then
        if c = 0x25 then scan argsMax fmt n { s with percent := true, pfx := .unknown, hasWidth := 0 } (p + 1)
        else scan argsMax fmt n s (p + 1)
      else if Char.ofNat c.toNat ∈ prefixLetters then
        match findPrefixAt fmt p prefixes with
        | none => none
        | some none => scan argsMax fmt n { s with hasWidth := widthAfter s.hasWidth c } (p + 1)
        | some (some d) =>
          -- `lp_iter` stands on the prefix's last byte when the check for a digit reads it
          match charAt fmt (p + (d.text.length - 1)) with
          | none => none
          | some last =>
            scan argsMax fmt n { s with pfx := d.type, hasWidth := widthAfter s.hasWidth last }
              (p + (d.text.length - 1) + 1)
      else
        match s.directive argsMax c [] with
        | none => some s.args
        | some s' => scan argsMax fmt n s' (p + 1)

/-- `parse_format_string` over the memory of a format that is not null. -/
def scanFormat (argsMax : Nat) (fmt : CStr) : Option (List LogVarg) :=
  if argsMax = 0 then some [] else FormatScan.scan argsMax fmt (fmt.length + 1) ⟨false, .unknown, 0, 0, []⟩ 0

/-! ## Reads -/

/-- A position inside the text holds its character. -/
theorem charAt_lt {fmt : CStr} {p : Nat} (h : p < fmt.length) : charAt fmt p = some fmt[p] := by
  rw [charAt, List.getElem?_append_left h, List.getElem?_eq_getElem h]

@[simp] theorem charAt_length (fmt : CStr) : charAt fmt fmt.length = some 0 := by
  simp [charAt]

/-- The comparison with a prefix stays within the memory: the terminating zero differs from every byte of a prefix. -/
theorem matchesAt_eq {fmt : CStr} (text : CStr) (hz : 0 ∉ text) :
    ∀ p, p ≤ fmt.length → matchesAt fmt p text = some (text.isPrefixOf (fmt.drop p)) := by
  induction text with
  | nil =>
    intro p _
    simp [matchesAt]
  | cons c cs ih =>
    intro p hp
    have hc : (0 : UInt8) ≠ c := fun h => hz (h ▸ List.mem_cons_self)
    rcases Nat.lt_or_eq_of_le hp with hp | rfl
    · rw [List.drop_eq_getElem_cons hp, matchesAt, charAt_lt hp]
      simp only [List.isPrefixOf]
      by_cases h : fmt[p] = c
      · rw [if_pos h, ih (fun hm => hz (List.mem_cons_of_mem _ hm)) (p + 1) hp, h]
        simp
      · have h' : (c == fmt[p]) = false := by simpa using fun hcp : c = fmt[p] => h hcp.symm
        rw [if_neg h, h']
        rfl
    · rw [matchesAt, charAt_length]
      simp [hc]

/-- The search in the prefix table stays within the memory and finds what a search in the rest of the text finds. -/
theorem findPrefixAt_eq {fmt : CStr} {p : Nat} (hp : p ≤ fmt.length) (ds : List PrefixDesc)
    (hz : ∀ d ∈ ds, 0 ∉ d.text) :
    findPrefixAt fmt p ds = some (ds.find? (fun d => d.text.isPrefixOf (fmt.drop p))) := by
  induction ds with
  | nil => rfl
  | cons d ds ih =>
    have hd := matchesAt_eq d.text (hz d List.mem_cons_self) p hp
    have hds := ih (fun e he => hz e (List.mem_cons_of_mem _ he))
    rw [findPrefixAt, hd, List.find?_cons]
    cases d.text.isPrefixOf (fmt.drop p)
    · exact hds
    · rfl

/-- No prefix of the table is empty or holds a zero. -/
theorem prefixes_text : ∀ d ∈ prefixes, 0 ∉ d.text ∧ 0 < d.text.length := by
  decide

/-! ## The two scans agree -/

/-- No prefix begins with a digit. -/
theorem isDigit_prefixLetter {c : UInt8} (h : Char.ofNat c.toNat ∈ prefixLetters) : isDigit c = false := by
  have hall : ∀ n < 256, Char.ofNat n ∈ prefixLetters → isDigit (UInt8.ofNat n) = false := by decide +kernel
  simpa using hall c.toNat c.toNat_lt h

/-- A character that begins a prefix leads to the prefix table. -/
theorem FormatScan.directive_prefixLetter {argsMax : Nat} {s : FormatScan} {c : UInt8} {rest : CStr}
    (h : Char.ofNat c.toNat ∈ prefixLetters) : s.directive argsMax c rest = some (s.prefixed c rest) := by
  have hstar : ¬ Char.ofNat c.toNat = '*' := by
    intro hc
    rw [hc] at h
    exact absurd h (by decide)
  simp only [FormatScan.directive, if_neg hstar, if_pos h]

/-- A character that begins no prefix is dealt with on its own: what follows it is not looked at. -/
theorem FormatScan.directive_alone {argsMax : Nat} {s : FormatScan} {c : UInt8} (rest : CStr)
    (h : Char.ofNat c.toNat ∉ prefixLetters) : s.directive argsMax c rest = s.directive argsMax c [] := by
  simp only [FormatScan.directive, if_neg h]

/-- Such a character leaves no bytes to pass over. -/
theorem FormatScan.directive_skip {argsMax : Nat} {s s' : FormatScan} {c : UInt8} {rest : CStr}
    (h : Char.ofNat c.toNat ∉ prefixLetters) (hd : s.directive argsMax c rest = some s') : s'.skip = s.skip := by
  simp only [FormatScan.directive, if_neg h, FormatScan.push] at hd
  repeat' split at hd
  all_goals cases hd
  all_goals rfl

/-- The bytes to pass over can be taken off the text at once. -/
theorem FormatScan.run_skip (argsMax : Nat) (s : FormatScan) (fmt : CStr) :
    FormatScan.run argsMax s fmt = FormatScan.run argsMax { s with skip := 0 } (fmt.drop s.skip) := by
  induction fmt generalizing s with
  | nil => simp [FormatScan.run]
  | cons c rest ih =>
    rcases Nat.eq_zero_or_pos s.skip with h | h
    · rw [h, List.drop_zero]
      have hs : ({ s with skip := 0 } : FormatScan) = s := by rw [← h]
      rw [hs]
    · obtain ⟨k, hk⟩ := Nat.exists_eq_add_of_lt h
      have hk : s.skip = k + 1 := by omega
      rw [FormatScan.run, if_pos (by omega), ih, hk]
      rfl

/-- The prefix at a position is read from the memory as it is from the text, and lies wholly in front of the zero. -/
theorem findPrefixAt_prefixes {fmt : CStr} {p : Nat} (hp : p < fmt.length) :
    findPrefixAt fmt p prefixes = some (findPrefix (fmt[p] :: fmt.drop (p + 1))) := by
  rw [findPrefixAt_eq (Nat.le_of_lt hp) prefixes (fun d hd => (prefixes_text d hd).1), findPrefix,
    List.drop_eq_getElem_cons hp]

/-- A prefix that is found lies inside the text. -/
theorem findPrefix_lies {fmt : CStr} {p : Nat} {d : PrefixDesc} (hp : p < fmt.length)
    (h : findPrefix (fmt[p] :: fmt.drop (p + 1)) = some d) :
    p + (d.text.length - 1) < fmt.length ∧ charAt fmt (p + (d.text.length - 1)) = d.text.getLast? := by
  have hm := List.mem_of_find?_eq_some h
  have hpre := List.find?_some h
  rw [← List.drop_eq_getElem_cons hp, List.isPrefixOf_iff_prefix] at hpre
  have hpos := (prefixes_text d hm).2
  obtain ⟨tail, htail⟩ := hpre
  have hlen := congrArg List.length htail
  rw [List.length_append, List.length_drop] at hlen
  have hlt : p + (d.text.length - 1) < fmt.length := by omega
  refine ⟨hlt, ?_⟩
  have hlast : (fmt.drop p)[d.text.length - 1]? = d.text[d.text.length - 1]? := by
    rw [← htail, List.getElem?_append_left (by omega)]
  rw [charAt, List.getElem?_append_left hlt, ← List.getElem?_drop, hlast, List.getLast?_eq_getElem?]

/-- The scan over the memory gives what the scan over the rest of the text gives: no read is behind the terminating zero, and
as many rounds are enough as there are bytes left. -/
theorem FormatScan.scan_eq (argsMax : Nat) {fmt : CStr} (hz : 0 ∉ fmt) :
    ∀ n p s, p ≤ fmt.length → fmt.length < n + p → s.skip = 0 →
      FormatScan.scan argsMax fmt n s p = some (FormatScan.run argsMax s (fmt.drop p)) := by
  intro n
  induction n with
  | zero =>
    intro p s hp hn _
    omega
  | succ n ih =>
    intro p s hp hn hs
    rcases Nat.lt_or_eq_of_le hp with hp | rfl
    · have hc : fmt[p] ≠ 0 := fun h => hz (h ▸ List.getElem_mem hp)
      obtain ⟨percent, pfx, hasWidth, skip, args⟩ := s
      subst hs
      have hskip : ¬ (0 : Nat) ≠ 0 := by simp
      rw [FormatScan.scan, charAt_lt hp, List.drop_eq_getElem_cons hp, FormatScan.run, if_neg hskip]
      simp only [if_neg hc]
      cases percent with
      | false =>
        simp only [Bool.not_false, if_true]
        split
        · exact ih (p + 1) _ hp (by omega) rfl
        · exact ih (p + 1) _ hp (by omega) rfl
      | true =>
        simp only [Bool.not_true, Bool.false_eq_true, if_false]
        by_cases hl : Char.ofNat fmt[p].toNat ∈ prefixLetters
        · rw [if_pos hl, findPrefixAt_prefixes hp, FormatScan.directive_prefixLetter hl]
          simp only [FormatScan.prefixed]
          cases hf : findPrefix (fmt[p] :: fmt.drop (p + 1)) with
          | none =>
            have hw : widthAfter hasWidth fmt[p] = hasWidth := by simp [widthAfter, isDigit_prefixLetter hl]
            simp only [hw]
            exact ih (p + 1) _ hp (by omega) rfl
          | some d =>
            obtain ⟨hlt, hread⟩ := findPrefix_lies hp hf
            obtain ⟨last, hlast⟩ : ∃ last, d.text.getLast? = some last := ⟨_, hread.symm.trans (charAt_lt hlt)⟩
            have hjump : p + 1 + (d.text.length - 1) = p + (d.text.length - 1) + 1 := by omega
            rw [FormatScan.run_skip]
            simp only [hread, hlast, Option.getD_some, List.drop_drop, hjump]
            exact ih _ _ hlt (by omega) rfl
        · rw [if_neg hl, FormatScan.directive_alone (fmt.drop (p + 1)) hl]
          cases hd : FormatScan.directive argsMax ⟨true, pfx, hasWidth, 0, args⟩ fmt[p] [] with
          | none => rfl
          | some s' => exact ih (p + 1) s' hp (by omega) (FormatScan.directive_skip hl hd)
    · rw [FormatScan.scan, charAt_length, List.drop_length]
      rfl

/-- Over the memory of a text without a zero the scan never looks behind the terminating zero, and gives the argument list. -/
theorem scanFormat_eq (argsMax : Nat) {fmt : CStr} (hz : 0 ∉ fmt) :
    scanFormat argsMax fmt = some (parseFormatString argsMax (some fmt)) := by
  simp only [scanFormat, parseFormatString]
  split
  · rfl
  · exact FormatScan.scan_eq argsMax hz _ 0 _ (Nat.zero_le _) (by omega) rfl

end P8
