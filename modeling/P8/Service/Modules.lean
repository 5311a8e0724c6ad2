import Mathlib.Data.Finset.Card
import P8.Service.Stream

/-!
# Modules: what identifies a log module

Calls register modules and set verbosities, in any order; each is one step. `sent` is the descriptors that were transmitted, as
they were then. A module's id is its position, cut to 16 bits: it is the same in the module's service entry and in its records,
but only while there are not more than 65535 modules does it tell the module from the others, and from no module at all.
-/

namespace P8

open Bytes NameTable

/-- `cp8_core::set_verbosity`. -/
def Registries.setVerbosity (regs : Registries) (module : Option Nat) (verbosity : Level) : Registries :=
  match module with
  | none => { regs with core := regs.core.setVerbosity verbosity }
  | some i => { regs with logMods := regs.logMods.modify i (fun m => { m with verbosity := verbosity }) }

/-- `cp8_core::find_module`. -/
def Registries.findModule (regs : Registries) (name : Option CStr) : Option Nat :=
  if !regs.core.initialized then none
  else
    match name with
    | none | some [] => none
    | some name => regs.logModMap name

/-- The empty name is not found. -/
theorem Registries.ne_nil_of_found {regs : Registries} {n : CStr} {i : Nat} (hfind : regs.findModule (some n) = some i) : n ≠ [] := by
  rintro rfl
  unfold Registries.findModule at hfind
  split at hfind <;> cases hfind

/-- `cp8_core::get_verbosity`; a number that is no handle has no level. -/
def Registries.getVerbosity (regs : Registries) : Option Nat → Option Level
  | none => some regs.core.defaultVerbosity
  | some i => (regs.logMods[i]?).map (·.verbosity)

/-- A core's registries, and the module descriptors transmitted. -/
structure ModSys where
  regs : Registries
  sent : List SvcDesc

/-- The calls. -/
inductive ModEv where
  | registerModule (alloc : Bool) (name : Option CString) (verbosity : Level) (handle : Bool)
  | setVerbosity (module : Option Nat) (verbosity : Level)

/-- The name a call registers: it has one, a place for the handle, and the memory for a new module. -/
def ModEv.name : ModEv → Option CStr
  | .registerModule alloc name _ handle => if alloc && handle then (name.map Subtype.val).filter (· ≠ []) else none
  | .setVerbosity _ _ => none

/-- The names a run registers. -/
def ModEv.names (evs : List ModEv) : List CStr := evs.filterMap ModEv.name

/-- What identifies a module on the wire, and in the program. -/
def LogModule.label (m : LogModule) : UInt16 × CStr := (m.id, m.name)

namespace ModSys

/-- A core right after its construction. -/
def init : ModSys := ⟨Registries.init, []⟩

/-- One call. -/
def step (s : ModSys) : ModEv → ModSys
  | .registerModule alloc name verbosity handle =>
    let r := s.regs.registerModule alloc (name.map Subtype.val) verbosity handle
    ⟨r.regs, s.sent ++ r.transmit.toList⟩
  | .setVerbosity module verbosity => { s with regs := s.regs.setVerbosity module verbosity }

/-- The state after a run of calls. -/
def run (s : ModSys) (evs : List ModEv) : ModSys := evs.foldl step s

/-! ## The invariant -/

/-- The invariant of a run that has registered `names`: the name map gives the positions of the modules, a module's id is its
position cut to 16 bits, each was transmitted once, with its id and name, and the names are those registered. -/
structure Inv (s : ModSys) (names : List CStr) : Prop where
  initialized : s.regs.core.initialized = true
  coherent : Coherent LogModule.name id s.regs.logMods s.regs.logModMap
  ids : s.regs.logMods.map (·.id) = (List.range s.regs.logMods.length).map UInt16.ofNat
  sent : ∃ ms : List LogModule, s.sent = ms.map SvcDesc.mod ∧
    ms.map LogModule.label = s.regs.logMods.map LogModule.label ∧ ∀ m ∈ ms, 0 ∉ m.name
  names : ∀ n, n ∈ s.regs.logMods.map (·.name) ↔ n ∈ names

theorem inv_init : init.Inv [] where
  initialized := rfl
  coherent := coherent_nil
  ids := rfl
  sent := ⟨[], rfl, rfl, by simp⟩
  names := fun _ => Iff.rfl

/-- A new verbosity changes nothing of what identifies a module. -/
theorem label_modify (mods : List LogModule) (i : Nat) (verbosity : Level) :
    (mods.modify i (fun m => { m with verbosity := verbosity })).map LogModule.label = mods.map LogModule.label := by
  induction mods generalizing i with
  | nil => simp
  | cons m mods ih =>
    cases i with
    | zero => rfl
    | succ i => rw [List.modify_succ_cons, List.map_cons, List.map_cons, ih]

variable {s : ModSys} {names : List CStr}

/-- The invariant is about what identifies the modules only. -/
theorem Inv.relabel (h : s.Inv names) {mods : List LogModule} (hmods : mods.map LogModule.label = s.regs.logMods.map LogModule.label) :
    { s with regs := { s.regs with logMods := mods } }.Inv names := by
  have hids := congrArg (List.map Prod.fst) hmods
  have hnames := congrArg (List.map Prod.snd) hmods
  rw [List.map_map, List.map_map] at hids hnames
  refine ⟨h.initialized, h.coherent.congr hnames, ?_, ?_, ?_⟩
  · have hlen : mods.length = s.regs.logMods.length := by simpa using congrArg List.length hmods
    dsimp only
    rw [hlen, ← h.ids]
    exact hids
  · obtain ⟨ms, hsent, hlabels, hnul⟩ := h.sent
    exact ⟨ms, hsent, hlabels.trans hmods.symm, hnul⟩
  · intro n
    rw [← h.names n]
    exact iff_of_eq (congrArg (n ∈ ·) hnames)

/-- A new module. -/
theorem Inv.created (h : s.Inv names) {n : CStr} (hnul : 0 ∉ n) (verbosity : Level) (hnew : s.regs.logModMap n = none) :
    ModSys.Inv
      ⟨{ s.regs with
          logMods := s.regs.logMods ++ [{ id := UInt16.ofNat s.regs.logMods.length, verbosity := verbosity, name := n }]
          logModMap := fun k => if k = n then some s.regs.logMods.length else s.regs.logModMap k },
        s.sent ++ [.mod { id := UInt16.ofNat s.regs.logMods.length, verbosity := verbosity, name := n }]⟩
      (names ++ [n]) := by
  refine ⟨h.initialized, ?_, ?_, ?_, ?_⟩
  · exact h.coherent.push (e := { id := UInt16.ofNat s.regs.logMods.length, verbosity := verbosity, name := n }) hnew
  · dsimp only
    rw [List.map_append, h.ids, List.length_append, List.length_singleton, List.range_succ, List.map_append]
    rfl
  · obtain ⟨ms, hsent, hlabels, hnuls⟩ := h.sent
    refine ⟨ms ++ [{ id := UInt16.ofNat s.regs.logMods.length, verbosity := verbosity, name := n }], ?_, ?_, ?_⟩
    · rw [hsent, List.map_append, List.map_singleton]
    · rw [List.map_append, hlabels, List.map_append]
    · intro m hm
      rcases List.mem_append.mp hm with hm | hm
      · exact hnuls m hm
      · rw [List.mem_singleton.mp hm]
        exact hnul
  · intro k
    rw [List.map_append, List.mem_append, List.mem_append, h.names k]
    exact Iff.rfl

/-- A call that adds no name. -/
theorem Inv.same_names {regs : Registries} {sent : List SvcDesc} (h : ModSys.Inv ⟨regs, sent⟩ names) {ev : ModEv}
    (hev : ∀ n, ev.name = some n → n ∈ names) :
    ModSys.Inv ⟨regs, sent ++ (none : Option SvcDesc).toList⟩ (names ++ ev.name.toList) := by
  refine ⟨h.initialized, h.coherent, h.ids, ?_, fun n => ?_⟩
  · rw [Option.toList_none, List.append_nil]
    exact h.sent
  · rw [h.names n, List.mem_append]
    exact ⟨Or.inl, fun hn => hn.elim (fun hn => hn) (fun hn => hev n (Option.mem_toList.mp hn))⟩

/-- One call keeps the invariant. -/
theorem Inv.step (h : s.Inv names) (ev : ModEv) : (s.step ev).Inv (names ++ ev.name.toList) := by
  cases ev with
  | setVerbosity module verbosity =>
    rw [ModEv.name, Option.toList_none, List.append_nil]
    cases module with
    | none => exact ⟨h.initialized, h.coherent, h.ids, h.sent, h.names⟩
    | some i => exact h.relabel (label_modify _ i verbosity)
  | registerModule alloc name verbosity handle =>
    have hcases := Registries.registerModule_cases s.regs alloc (name.map Subtype.val) verbosity handle
    unfold ModSys.step
    dsimp only
    generalize s.regs.registerModule alloc (name.map Subtype.val) verbosity handle = r at hcases ⊢
    cases hcases with
    | refused hrefused =>
      refine h.same_names (fun n hn => ?_)
      simp only [ModEv.name] at hn
      rcases hrefused with hinit | hempty | rfl | ⟨rfl, -⟩
      · rw [h.initialized] at hinit
        cases hinit
      · cases name with
        | none => simp at hn
        | some n' =>
          have hempty : n'.val = [] := hempty
          simp [hempty] at hn
      · simp at hn
      · simp at hn
    | existing n i hn hmap =>
      obtain ⟨j, e, he, hen, -⟩ := h.coherent.found n i hmap
      have hmem : n ∈ names := (h.names n).mp (hen ▸ List.mem_map_of_mem (List.mem_of_getElem? he))
      have hrelabeled := h.relabel (label_modify s.regs.logMods i verbosity)
      refine hrelabeled.same_names (fun k hk => ?_)
      simp only [ModEv.name, hn] at hk
      split at hk
      · cases (Option.filter_eq_some_iff.mp hk).1
        exact hmem
      · cases hk
    | created n hn hne hhandle halloc hmap =>
      obtain ⟨⟨n', hnul⟩, rfl, rfl⟩ := Option.map_eq_some_iff.mp hn
      have hname : ModEv.name (.registerModule alloc (some ⟨n', hnul⟩) verbosity handle) = some n' := by
        simp [ModEv.name, hhandle, halloc, Option.filter, hne]
      rw [hname]
      exact h.created hnul verbosity hmap

/-- And so does a run. -/
theorem Inv.run (h : s.Inv names) (evs : List ModEv) : (s.run evs).Inv (names ++ ModEv.names evs) := by
  induction evs generalizing s names with
  | nil =>
    rw [ModEv.names, List.filterMap_nil, List.append_nil]
    exact h
  | cons ev evs ih =>
    have hrun := ih (h.step ev)
    have hnames : ModEv.names (ev :: evs) = ev.name.toList ++ ModEv.names evs := by
      rw [ModEv.names, List.filterMap_cons]
      cases ev.name <;> rfl
    rw [hnames, ← List.append_assoc]
    exact hrun

/-! ## What the ids promise -/

/-- What a receiver reads in the entry of a module: its id and its name. -/
def entryLabel (known : List AttrDesc) (x : SvcDesc) : Option (UInt16 × List UInt8) :=
  match decodeEntry known x.entry.bytes with
  | some (.mod i _ name, _) => some (i, name)
  | _ => none

/-- The module id a receiver reads in the header of a record. -/
def readModId (l : Log) (env : SendEnv) (known : List AttrDesc) (d : LogDesc) (c : Call) (g : LogItemDat)
    (rest : List UInt8) : UInt16 :=
  (LogItemDat.decode ((finalHdr l env known d c g).encode ++ rest)).modId

/-- The module in a record's header is the call's. -/
theorem readModId_eq (l : Log) (env : SendEnv) (known : List AttrDesc) (d : LogDesc) (c : Call) (g : LogItemDat)
    (rest : List UInt8) : readModId l env known d c g rest = Log.modId c := by
  rw [readModId, LogItemDat.decode_encode]
  rfl

/-- Ids identify modules: those of different names are different, a module's id is the one in its service entry and in its
records, and none is the id in the records without a module. -/
structure Identified (s : ModSys) : Prop where
  distinct : ∀ m ∈ s.regs.logMods, ∀ m' ∈ s.regs.logMods, m.name ≠ m'.name → m.id ≠ m'.id
  entries : ∀ known, s.sent.map (entryLabel known) = s.regs.logMods.map (fun m => some (m.id, svcStr (some m.name)))
  records : ∀ m ∈ s.regs.logMods, ∀ l env known d c g rest, c.module = some m.toLogMod →
    readModId l env known d c g rest = m.id
  unnamed : ∀ l env known d c g rest, c.module = none → readModId l env known d c g rest = 0xFFFF
  reserved : ∀ m ∈ s.regs.logMods, m.id ≠ 0xFFFF

/-- A module's entry shows its id and its name. -/
theorem entryLabel_mod (known : List AttrDesc) {m : LogModule} (h : 0 ∉ m.name) :
    entryLabel known (.mod m) = some (m.id, svcStr (some m.name)) := by
  obtain ⟨k, hk⟩ := decode_mod known h
  have hentry : decodeEntry known (SvcDesc.mod m).entry.bytes = some ((SvcDesc.mod m).shown, List.replicate k 0) := hk
  rw [entryLabel, hentry]
  rfl

/-- The id of a module is its position, cut to 16 bits. -/
theorem Inv.id_eq (h : s.Inv names) {i : Nat} {m : LogModule} (hm : s.regs.logMods[i]? = some m) : m.id = UInt16.ofNat i := by
  have hi := congrArg (fun l => l[i]?) h.ids
  have hlt := (List.getElem?_eq_some_iff.mp hm).1
  rw [List.getElem?_map, List.getElem?_map, hm, List.getElem?_range hlt] at hi
  exact Option.some.inj hi

/-- The number of modules is that of the names registered. -/
theorem Inv.length_eq (h : s.Inv names) : s.regs.logMods.length = names.toFinset.card := by
  have hnodup := h.coherent.nodup (fun _ _ _ _ hij => hij)
  have hset : (s.regs.logMods.map LogModule.name).toFinset = names.toFinset := by
    ext n
    rw [List.mem_toFinset, List.mem_toFinset]
    exact h.names n
  rw [← hset, List.toFinset_card_of_nodup hnodup, List.length_map]

/-- Up to 65535 modules are identified. -/
theorem Inv.identified (h : s.Inv names) (hlen : s.regs.logMods.length ≤ 65535) : s.Identified := by
  have hid : ∀ m ∈ s.regs.logMods, ∃ i, s.regs.logMods[i]? = some m ∧ m.id.toNat = i ∧ i < 65535 := by
    intro m hm
    obtain ⟨i, hi⟩ := List.mem_iff_getElem?.mp hm
    have hlt := (List.getElem?_eq_some_iff.mp hi).1
    refine ⟨i, hi, ?_, Nat.lt_of_lt_of_le hlt hlen⟩
    rw [h.id_eq hi, UInt16.toNat_ofNat']
    exact Nat.mod_eq_of_lt (by omega)
  refine ⟨?_, ?_, ?_, ?_, ?_⟩
  · intro m hm m' hm' hname heq
    obtain ⟨i, hi, hidi, -⟩ := hid m hm
    obtain ⟨j, hj, hidj, -⟩ := hid m' hm'
    have hij : i = j := by rw [← hidi, ← hidj, heq]
    subst hij
    rw [hi] at hj
    exact hname (congrArg LogModule.name (Option.some.inj hj))
  · intro known
    obtain ⟨ms, hsent, hlabels, hnul⟩ := h.sent
    have hread : ms.map (fun m => entryLabel known (.mod m)) = ms.map (fun m => some (m.id, svcStr (some m.name))) :=
      List.map_congr_left (fun m hm => entryLabel_mod known (hnul m hm))
    have hshown := congrArg (List.map (fun p : UInt16 × CStr => some (p.1, svcStr (some p.2)))) hlabels
    rw [List.map_map, List.map_map] at hshown
    rw [hsent, List.map_map]
    exact hread.trans hshown
  · intro m _ l env known d c g rest hc
    rw [readModId_eq, Log.modId, hc]
  · intro l env known d c g rest hc
    rw [readModId_eq, Log.modId, hc]
  · intro m hm heq
    obtain ⟨i, -, hidi, hlt⟩ := hid m hm
    rw [heq] at hidi
    have hmax : (0xFFFF : UInt16).toNat = 65535 := rfl
    omega

/-- The module behind 65535 others has the id of no module. -/
theorem Inv.not_identified (h : s.Inv names) (hlen : 65535 < s.regs.logMods.length) : ¬ s.Identified := by
  intro hident
  have hm := List.getElem?_eq_getElem hlen
  refine hident.reserved _ (List.mem_of_getElem? hm) ?_
  rw [h.id_eq hm]
  rfl

/-- After any calls the modules are identified by their ids exactly when not more than 65535 names were registered. -/
theorem module_ids_iff (evs : List ModEv) : (init.run evs).Identified ↔ (ModEv.names evs).toFinset.card ≤ 65535 := by
  have h := inv_init.run evs
  rw [List.nil_append] at h
  rw [← h.length_eq]
  constructor
  · intro hident
    refine Nat.le_of_not_lt (fun hlt => ?_)
    exact h.not_identified hlt hident
  · exact h.identified

/-- A name of `n + 1` letters. -/
def letters (n : Nat) : CString := ⟨List.replicate (n + 1) 97, by simp⟩

/-- Modules of `n` different names. -/
def manyModules (n : Nat) : List ModEv := (List.range n).map (fun i => .registerModule true (some (letters i)) 0 true)

/-- The names of many modules. -/
theorem names_manyModules (n : Nat) : ModEv.names (manyModules n) = (List.range n).map (fun i => (letters i).val) := by
  rw [ModEv.names, manyModules, List.filterMap_map]
  induction List.range n with
  | nil => rfl
  | cons i is ih =>
    rw [List.filterMap_cons, ih]
    rfl

/-- They are all different. -/
theorem card_manyModules (n : Nat) : (ModEv.names (manyModules n)).toFinset.card = n := by
  have hinj : Function.Injective (fun i => (letters i).val) := by
    intro i j hij
    have hlen := congrArg List.length hij
    simpa [letters] using hlen
  rw [names_manyModules, List.toFinset_card_of_nodup (List.nodup_range.map hinj), List.length_map, List.length_range]

/-- With 65536 names one module has the id of no module. -/
theorem module_ids_false : ¬ (init.run (manyModules 65536)).Identified := by
  have h := inv_init.run (manyModules 65536)
  rw [List.nil_append] at h
  refine h.not_identified ?_
  rw [h.length_eq, card_manyModules]
  decide

/-! ## Handles -/

/-- A name that is in the map is found. -/
theorem Inv.find_iff (h : s.Inv names) {n : CStr} (hne : n ≠ []) (i : Nat) :
    s.regs.findModule (some n) = some i ↔ ∃ m, s.regs.logMods[i]? = some m ∧ m.name = n := by
  have hfind : s.regs.findModule (some n) = s.regs.logModMap n := by
    unfold Registries.findModule
    rw [h.initialized]
    cases n with
    | nil => exact absurd rfl hne
    | cons c n => rfl
  rw [hfind]
  constructor
  · intro hmap
    obtain ⟨j, m, hm, hn, rfl⟩ := h.coherent.found n i hmap
    exact ⟨m, hm, hn⟩
  · rintro ⟨m, hm, rfl⟩
    exact h.coherent.listed i m hm

/-- Calls add modules behind those there are, and leave what identifies these as it is. -/
theorem labels_step (s : ModSys) (ev : ModEv) :
    s.regs.logMods.map LogModule.label <+: (s.step ev).regs.logMods.map LogModule.label := by
  cases ev with
  | setVerbosity module verbosity =>
    cases module with
    | none => exact List.prefix_refl _
    | some i =>
      show _ <+: (s.regs.logMods.modify i _).map LogModule.label
      rw [label_modify]
  | registerModule alloc name verbosity handle =>
    have hcases := Registries.registerModule_cases s.regs alloc (name.map Subtype.val) verbosity handle
    unfold ModSys.step
    dsimp only
    generalize s.regs.registerModule alloc (name.map Subtype.val) verbosity handle = r at hcases ⊢
    cases hcases with
    | refused hrefused => exact List.prefix_refl _
    | existing n i hn hmap =>
      dsimp only
      rw [label_modify]
    | created n hn hne hhandle halloc hmap =>
      dsimp only
      rw [List.map_append]
      exact List.prefix_append _ _

/-- Modules stay where they are, with their names. -/
theorem labels_run (s : ModSys) (evs : List ModEv) :
    s.regs.logMods.map LogModule.label <+: (s.run evs).regs.logMods.map LogModule.label := by
  induction evs generalizing s with
  | nil => exact List.prefix_refl _
  | cons ev evs ih => exact (labels_step s ev).trans (ih (s.step ev))

/-- A module keeps its place and its name. -/
theorem name_later (s : ModSys) (evs : List ModEv) {i : Nat} {m : LogModule} (hm : s.regs.logMods[i]? = some m) :
    ∃ m', (s.run evs).regs.logMods[i]? = some m' ∧ m'.name = m.name := by
  obtain ⟨l, hl⟩ := labels_run s evs
  have hi : ((s.regs.logMods.map LogModule.label) ++ l)[i]? = some m.label := by
    rw [List.getElem?_append_left (by rw [List.length_map]; exact (List.getElem?_eq_some_iff.mp hm).1), List.getElem?_map, hm]
    rfl
  rw [hl, List.getElem?_map, Option.map_eq_some_iff] at hi
  obtain ⟨m', hm', hlabel⟩ := hi
  exact ⟨m', hm', congrArg Prod.snd hlabel⟩

/-- A registration under the name of a module gives out the module's handle. -/
theorem Inv.registered_again (h : s.Inv names) {i : Nat} {m : LogModule} (hm : s.regs.logMods[i]? = some m) (hne : m.name ≠ [])
    (alloc : Bool) (verbosity : Level) : (s.regs.registerModule alloc (some m.name) verbosity true).result = some i := by
  have hmap : s.regs.logModMap m.name = some i := h.coherent.listed i m hm
  have hcases := Registries.registerModule_cases s.regs alloc (some m.name) verbosity true
  generalize s.regs.registerModule alloc (some m.name) verbosity true = r at hcases ⊢
  cases hcases with
  | refused hrefused =>
    rcases hrefused with hinit | hempty | hhandle | ⟨-, hnone⟩
    · rw [h.initialized] at hinit
      cases hinit
    · exact absurd hempty hne
    · cases hhandle
    · rw [hnone m.name rfl] at hmap
      cases hmap
  | existing k j hk hj =>
    cases hk
    exact hj.symm.trans hmap
  | created k hk hne' hhandle halloc hnone =>
    cases hk
    rw [hnone] at hmap
    cases hmap

/-- Handles are for good: what `find_module` gives for a name it gives after any further calls, it gives it for no other name, and
it is what a registration under the name gives out. -/
theorem handles (evs evs' : List ModEv) {n : CStr} {i : Nat} (hfind : (init.run evs).regs.findModule (some n) = some i) :
    (init.run (evs ++ evs')).regs.findModule (some n) = some i ∧
      (∀ n', (init.run (evs ++ evs')).regs.findModule (some n') = some i → n' = n) ∧
      ∀ alloc verbosity, ((init.run (evs ++ evs')).regs.registerModule alloc (some n) verbosity true).result = some i := by
  have h := inv_init.run (evs ++ evs')
  have hne := Registries.ne_nil_of_found hfind
  obtain ⟨m, hm, rfl⟩ := ((inv_init.run evs).find_iff hne i).mp hfind
  obtain ⟨m', hm', hname⟩ : ∃ m', (init.run (evs ++ evs')).regs.logMods[i]? = some m' ∧ m'.name = m.name := by
    rw [ModSys.run, List.foldl_append]
    exact name_later (init.run evs) evs' hm
  refine ⟨(h.find_iff hne i).mpr ⟨m', hm', hname⟩, fun n' hn' => ?_, fun alloc verbosity => ?_⟩
  · obtain ⟨m₁, hm₁, rfl⟩ := (h.find_iff (Registries.ne_nil_of_found hn') i).mp hn'
    rw [hm'] at hm₁
    cases hm₁
    exact hname
  · rw [← hname] at hne ⊢
    exact h.registered_again hm' hne alloc verbosity

/-- On this run the handle found by a name stays that of the name. -/
theorem handles_two : (init.run [.registerModule true (some (letters 1)) 0 true, .registerModule true (some (letters 0)) 0 true,
      .setVerbosity (some 1) 3]).regs.findModule (some (letters 0).val) = some 1 ∧
    ∀ n', (init.run [.registerModule true (some (letters 1)) 0 true, .registerModule true (some (letters 0)) 0 true,
      .setVerbosity (some 1) 3]).regs.findModule (some n') = some 1 → n' = (letters 0).val := by
  obtain ⟨hfind, hone, -⟩ := handles
    [.registerModule true (some (letters 1)) 0 true, .registerModule true (some (letters 0)) 0 true] [.setVerbosity (some 1) 3]
    (n := (letters 0).val) (i := 1) rfl
  exact ⟨hfind, hone⟩

end ModSys

end P8
