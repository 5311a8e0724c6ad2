import Mathlib.Data.List.Forall2
import P8.Service.Entry

/-!
# Texts: the strings of descriptors in the service stream

The serializers mean to cut a string at `P8_SVC_STR_MAX_LEN`, but transmit as many bytes as its length modulo the limit
(`svcStr`). Of a string of the limit's length nothing is left, and one byte more brings one byte back. Here, which strings are
carried as they should be: those below the limit, and those whose length is one below a multiple of it.
-/

namespace P8

/-- The strings a descriptor is given; a null one has no bytes. -/
def SvcDesc.strings : SvcDesc → List CStr
  | .attr d => [d.name]
  | .log d => [d.file, d.function.getD [], d.format.getD []]
  | .mod m => [m.name]
  | .mtk d _ _ _ => [d.name, d.description.getD [], d.unit.getD []]

/-- The texts an entry carries, in the same order. -/
def SvcEntry.texts : SvcEntry → List (List UInt8)
  | .attr _ _ name => [name]
  | .log _ _ file function format _ => [file, function, format]
  | .mod _ _ name => [name]
  | .mtk _ _ _ _ name description unit _ => [name, description, unit]

/-- What is carried of a string: all of it below `P8_SVC_STR_MAX_LEN`, and a prefix up to that boundary from there on. -/
structure Truncated (s : CStr) (text : List UInt8) : Prop where
  whole : s.length < svcStrMaxLen → text = s
  cut : svcStrMaxLen ≤ s.length → text <+: s ∧ svcStrMaxLen - 1 ≤ text.length

/-- What the service stream is to carry of the strings `xs`, and of the strings `xs'` that extend them. -/
structure Carried (xs xs' : List CStr) (texts texts' : List (List UInt8)) : Prop where
  truncated : List.Forall₂ Truncated xs texts
  truncated' : List.Forall₂ Truncated xs' texts'
  /-- An extension does not shorten what is transmitted. -/
  extended : List.Forall₂ (fun text text' => text.length ≤ text'.length) texts texts'
  /-- What is not empty is not transmitted as empty. -/
  nonempty : List.Forall₂ (fun s text => s ≠ [] → text ≠ []) xs texts

/-- The string is below the limit, or its length is one below a multiple of it. -/
def KeepsLength (s : CStr) : Prop := s.length < svcStrMaxLen ∨ s.length % svcStrMaxLen = svcStrMaxLen - 1

/-! ## One string -/

/-- A text is cut by the remainder of its length. -/
theorem length_svcStr (s : CStr) : (svcStr (some s)).length = s.length % svcStrMaxLen := by
  have hle : s.length % svcStrMaxLen ≤ s.length := Nat.mod_le _ _
  rw [svcStr, List.length_take, Option.getD_some]
  exact Nat.min_eq_left hle

/-- A short text is transmitted as it is. -/
theorem svcStr_of_short {s : CStr} (h : s.length < svcStrMaxLen) : svcStr (some s) = s := by
  rw [svcStr, Option.getD_some, Nat.mod_eq_of_lt h, List.take_length]

/-- A string is carried as it should be exactly if its length modulo the limit is all of it, or one below the limit. -/
theorem truncated_svcStr_iff (s : CStr) : Truncated s (svcStr (some s)) ↔ KeepsLength s := by
  have hmod : s.length % svcStrMaxLen < svcStrMaxLen := Nat.mod_lt _ (by decide)
  constructor
  · intro h
    rcases Nat.lt_or_ge s.length svcStrMaxLen with hs | hs
    · exact Or.inl hs
    · have hlen := (h.cut hs).2
      rw [length_svcStr] at hlen
      exact Or.inr (by omega)
  · intro h
    refine ⟨svcStr_of_short, fun hs => ⟨svcStr_front (some s), ?_⟩⟩
    rw [length_svcStr]
    rcases h with hshort | hlast
    · exact absurd hs (Nat.not_le.mpr hshort)
    · exact Nat.le_of_eq hlast.symm

/-- A truncated text of a text that is not empty is not empty. -/
theorem Truncated.ne_nil {s : CStr} {text : List UInt8} (h : Truncated s text) (hs : s ≠ []) : text ≠ [] := by
  rcases Nat.lt_or_ge s.length svcStrMaxLen with hshort | hlong
  · rw [h.whole hshort]
    exact hs
  · intro hnil
    have hlen := (h.cut hlong).2
    rw [hnil] at hlen
    exact absurd hlen (by decide)

/-- Of an extension that is carried as it should be, at least as much is carried. -/
theorem length_svcStr_mono {s s' : CStr} (hext : s <+: s') (h : KeepsLength s') :
    (svcStr (some s)).length ≤ (svcStr (some s')).length := by
  have hle : s.length ≤ s'.length := hext.length_le
  have hmod : s.length % svcStrMaxLen < svcStrMaxLen := Nat.mod_lt _ (by decide)
  rw [length_svcStr, length_svcStr]
  rcases h with hshort | hlast
  · rw [Nat.mod_eq_of_lt hshort]
    exact Nat.le_trans (Nat.mod_le _ _) hle
  · omega

/-! ## The strings of a descriptor -/

/-- The texts an entry shows are those it was made of, as they are transmitted. -/
theorem texts_shown (x : SvcDesc) : x.shown.texts = x.strings.map (fun s => svcStr (some s)) := by
  cases x <;> rfl

/-- Texts are truncated as documented exactly when their lengths are kept. -/
theorem truncated_texts_iff (xs : List CStr) :
    List.Forall₂ Truncated xs (xs.map (fun s => svcStr (some s))) ↔ ∀ s ∈ xs, KeepsLength s := by
  rw [List.forall₂_map_right_iff, List.forall₂_same]
  exact forall₂_congr (fun s _ => truncated_svcStr_iff s)

/-- The strings of a descriptor and of one that extends them are carried as they should be exactly if all their lengths are
kept. -/
theorem carried_texts_iff {xs xs' : List CStr} (hext : List.Forall₂ (fun s s' => s <+: s') xs xs') :
    Carried xs xs' (xs.map (fun s => svcStr (some s))) (xs'.map (fun s => svcStr (some s))) ↔
      ∀ s ∈ xs ++ xs', KeepsLength s := by
  constructor
  · intro h s hs
    rcases List.mem_append.mp hs with hs | hs
    · exact (truncated_texts_iff xs).mp h.truncated s hs
    · exact (truncated_texts_iff xs').mp h.truncated' s hs
  · intro h
    have hxs := (truncated_texts_iff xs).mpr (fun s hs => h s (List.mem_append_left _ hs))
    have hxs' := (truncated_texts_iff xs').mpr (fun s hs => h s (List.mem_append_right _ hs))
    refine ⟨hxs, hxs', ?_, hxs.imp (fun _ _ ht => ht.ne_nil)⟩
    obtain ⟨hlen, hpre⟩ := List.forall₂_iff_zip.mp hext
    rw [List.forall₂_map_left_iff, List.forall₂_map_right_iff, List.forall₂_iff_zip]
    refine ⟨hlen, fun hzip => ?_⟩
    exact length_svcStr_mono (hpre hzip) (h _ (List.mem_append_right _ (List.of_mem_zip hzip).2))

/-- What the receiver reads of a descriptor's strings: each is carried as it should be exactly if its length is below
`P8_SVC_STR_MAX_LEN` or one below a multiple of it, and the descriptor and one that extends its strings meet the promise
exactly if that holds of all their strings. -/
theorem svc_strings_iff {known known' : List AttrDesc} {x x' : SvcDesc} (h : x.WellFormed known) (h' : x'.WellFormed known')
    (hext : List.Forall₂ (fun s s' => s <+: s') x.strings x'.strings) :
    ∃ e e' k k', decodeEntry known x.entry.bytes = some (e, List.replicate k 0) ∧
      decodeEntry known' x'.entry.bytes = some (e', List.replicate k' 0) ∧
      List.Forall₂ (fun s text => Truncated s text ↔ KeepsLength s) x.strings e.texts ∧
      (Carried x.strings x'.strings e.texts e'.texts ↔ ∀ s ∈ x.strings ++ x'.strings, KeepsLength s) := by
  obtain ⟨k, hk⟩ := decode_entry h
  obtain ⟨k', hk'⟩ := decode_entry h'
  refine ⟨x.shown, x'.shown, k, k', hk, hk', ?_, ?_⟩
  · rw [texts_shown, List.forall₂_map_right_iff, List.forall₂_same]
    exact fun s _ => truncated_svcStr_iff s
  · rw [texts_shown, texts_shown]
    exact carried_texts_iff hext

/-- An attribute `ab`, and one whose name is extended to `abc`. -/
theorem svc_strings_iff_ab :
    ∃ e e' k k',
      decodeEntry [] (SvcDesc.attr ⟨0, .i64, [0x61, 0x62]⟩).entry.bytes = some (e, List.replicate k 0) ∧
      decodeEntry [] (SvcDesc.attr ⟨0, .i64, [0x61, 0x62, 0x63]⟩).entry.bytes = some (e', List.replicate k' 0) ∧
      Carried [[0x61, 0x62]] [[0x61, 0x62, 0x63]] e.texts e'.texts := by
  have hkeeps : ∀ s ∈ ([[0x61, 0x62], [0x61, 0x62, 0x63]] : List CStr), KeepsLength s := by
    intro s hs
    simp only [List.mem_cons, List.not_mem_nil, or_false] at hs
    rcases hs with rfl | rfl <;> exact Or.inl (by decide)
  have hext : List.Forall₂ (fun s s' => s <+: s') ([[0x61, 0x62]] : List CStr) [[0x61, 0x62, 0x63]] :=
    .cons ⟨[0x63], rfl⟩ .nil
  have hab : (SvcDesc.attr ⟨0, .i64, [0x61, 0x62]⟩).WellFormed [] := show (0 : UInt8) ∉ ([0x61, 0x62] : CStr) by decide
  have habc : (SvcDesc.attr ⟨0, .i64, [0x61, 0x62, 0x63]⟩).WellFormed [] :=
    show (0 : UInt8) ∉ ([0x61, 0x62, 0x63] : CStr) by decide
  obtain ⟨e, e', k, k', hk, hk', -, hiff⟩ := svc_strings_iff hab habc hext
  exact ⟨e, e', k, k', hk, hk', hiff.mpr hkeeps⟩

/-- A name of 1023 letters is received whole; with one letter more, nothing of it is. -/
theorem svc_strings_false :
    ∃ k k',
      decodeEntry [] (SvcDesc.attr ⟨0, .i64, List.replicate 1023 0x61⟩).entry.bytes =
        some (.attr 0 AttrType.i64.code (List.replicate 1023 0x61), List.replicate k 0) ∧
      decodeEntry [] (SvcDesc.attr ⟨0, .i64, List.replicate 1024 0x61⟩).entry.bytes =
        some (.attr 0 AttrType.i64.code [], List.replicate k' 0) ∧
      ¬ Truncated (List.replicate 1024 0x61) [] := by
  have hletters : ∀ n, (SvcDesc.attr ⟨0, .i64, List.replicate n 0x61⟩).WellFormed [] := by
    intro n h0
    exact absurd (List.eq_of_mem_replicate h0) (by decide)
  have hwhole : svcStr (some (List.replicate 1023 0x61)) = List.replicate 1023 0x61 :=
    svcStr_of_short (by rw [List.length_replicate]; decide)
  have hlost : svcStr (some (List.replicate 1024 0x61)) = [] := by
    rw [svcStr, Option.getD_some, List.length_replicate]
    rfl
  obtain ⟨k, hk⟩ := decode_entry (hletters 1023)
  obtain ⟨k', hk'⟩ := decode_entry (hletters 1024)
  refine ⟨k, k', ?_, ?_, fun h => ?_⟩
  · rw [hk]
    simp only [SvcDesc.shown, hwhole]
  · rw [hk']
    simp only [SvcDesc.shown, hlost]
  · refine h.ne_nil (fun hnil => ?_) rfl
    exact absurd (congrArg List.length hnil) (by rw [List.length_replicate]; decide)

end P8
