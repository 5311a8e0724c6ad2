import Mathlib.Data.List.Basic

/-!
# Name tables: a list of entries and the index of their names

A registry keeps its entries in a list, in the order they were registered, and a map from names to the keys of the positions.
The two agree when the map gives exactly the keys of the entries, each under its entry's name. While the keys of the positions
differ, names and positions then determine each other; an entry under a new name is put at the end.
-/

namespace NameTable

variable {N α ι : Type} {name : α → N} {key : Nat → ι} {entries : List α} {index : N → Option ι}

/-- The index of a list of entries gives the keys of their positions under their names, and nothing else. -/
structure Coherent (name : α → N) (key : Nat → ι) (entries : List α) (index : N → Option ι) : Prop where
  found : ∀ n k, index n = some k → ∃ i e, entries[i]? = some e ∧ name e = n ∧ k = key i
  listed : ∀ i e, entries[i]? = some e → index (name e) = some (key i)

/-- What stands in a list with one entry more stood there before, or is the entry. -/
theorem getElem?_concat {e d : α} {i : Nat} (h : (entries ++ [e])[i]? = some d) :
    entries[i]? = some d ∨ i = entries.length ∧ d = e := by
  rcases Nat.lt_or_ge i entries.length with hlt | hge
  · rw [List.getElem?_append_left hlt] at h
    exact Or.inl h
  · rw [List.getElem?_append_right hge, List.getElem?_singleton] at h
    split at h
    · cases h
      exact Or.inr ⟨by omega, rfl⟩
    · cases h

theorem coherent_nil : Coherent name key [] (fun _ => none) where
  found := fun _ _ h => (by cases h)
  listed := fun _ _ h => (by simp at h)

/-- An entry under a new name goes to the end, its name to the key of the position there. -/
theorem Coherent.push [DecidableEq N] (h : Coherent name key entries index) {e : α} (hnew : index (name e) = none) :
    Coherent name key (entries ++ [e]) (fun n => if n = name e then some (key entries.length) else index n) where
  found := by
    intro n k hk
    split at hk
    · rename_i hn
      cases hk
      exact ⟨entries.length, e, by simp, hn.symm, rfl⟩
    · obtain ⟨i, d, hd, hdn, hki⟩ := h.found n k hk
      exact ⟨i, d, by rw [List.getElem?_append_left (List.getElem?_eq_some_iff.mp hd).1, hd], hdn, hki⟩
  listed := by
    intro i d hd
    rcases getElem?_concat hd with hd | ⟨rfl, rfl⟩
    · have hi := h.listed i d hd
      rw [if_neg (fun hn => ?_), hi]
      rw [hn, hnew] at hi
      cases hi
    · rw [if_pos rfl]

/-- Only the names of the entries matter. -/
theorem Coherent.congr (h : Coherent name key entries index) {entries' : List α} (hnames : entries'.map name = entries.map name) :
    Coherent name key entries' index := by
  have hget : ∀ i : Nat, (entries'[i]?).map name = (entries[i]?).map name := by
    intro i
    rw [← List.getElem?_map, ← List.getElem?_map, hnames]
  refine ⟨fun n k hk => ?_, fun i e he => ?_⟩
  · obtain ⟨i, e, he, hn, hki⟩ := h.found n k hk
    have hi := hget i
    rw [he, Option.map_some, Option.map_eq_some_iff] at hi
    obtain ⟨e', he', hn'⟩ := hi
    exact ⟨i, e', he', hn'.trans hn, hki⟩
  · have hi := hget i
    rw [he, Option.map_some, eq_comm, Option.map_eq_some_iff] at hi
    obtain ⟨e', he', hn'⟩ := hi
    rw [← hn']
    exact h.listed i e' he'

section

variable (hkey : ∀ i j, i < entries.length → j < entries.length → key i = key j → i = j)

include hkey

/-- Two entries under one name are the same entry. -/
theorem Coherent.unique (h : Coherent name key entries index) {i j : Nat} {d e : α} (hd : entries[i]? = some d)
    (he : entries[j]? = some e) (hn : name d = name e) : i = j := by
  have hi := h.listed i d hd
  rw [hn, h.listed j e he] at hi
  exact hkey i j (List.getElem?_eq_some_iff.mp hd).1 (List.getElem?_eq_some_iff.mp he).1 (Option.some.inj hi).symm

/-- The entries have different names. -/
theorem Coherent.nodup (h : Coherent name key entries index) : (entries.map name).Nodup := by
  refine List.pairwise_map.mpr (List.pairwise_iff_getElem.mpr ?_)
  intro i j hi hj hij heq
  exact absurd (h.unique hkey (List.getElem?_eq_getElem hi) (List.getElem?_eq_getElem hj) heq) (Nat.ne_of_lt hij)

variable {ident : α → ι} (hident : ∀ i e, entries[i]? = some e → ident e = key i)

include hident

/-- When entries carry their keys, two of them have one name exactly when they have one key. -/
theorem Coherent.name_eq_iff (h : Coherent name key entries index) {d e : α} (hd : d ∈ entries) (he : e ∈ entries) :
    name d = name e ↔ ident d = ident e := by
  obtain ⟨i, hi⟩ := List.mem_iff_getElem?.mp hd
  obtain ⟨j, hj⟩ := List.mem_iff_getElem?.mp he
  have heq : i = j → d = e := by
    rintro rfl
    exact Option.some.inj (hi.symm.trans hj)
  constructor
  · intro hn
    rw [heq (h.unique hkey hi hj hn)]
  · intro hk
    rw [hident i d hi, hident j e hj] at hk
    rw [heq (hkey i j (List.getElem?_eq_some_iff.mp hi).1 (List.getElem?_eq_some_iff.mp hj).1 hk)]

end

/-- A name has a key exactly when an entry that carries this key has the name. -/
theorem Coherent.index_eq_some_iff (h : Coherent name key entries index) {ident : α → ι}
    (hident : ∀ i e, entries[i]? = some e → ident e = key i) {n : N} {k : ι} :
    index n = some k ↔ ∃ e ∈ entries, name e = n ∧ ident e = k := by
  constructor
  · intro hn
    obtain ⟨i, e, he, hen, rfl⟩ := h.found n k hn
    exact ⟨e, List.mem_iff_getElem?.mpr ⟨i, he⟩, hen, hident i e he⟩
  · rintro ⟨e, he, rfl, rfl⟩
    obtain ⟨i, hi⟩ := List.mem_iff_getElem?.mp he
    rw [hident i e hi]
    exact h.listed i e hi

end NameTable
