import P8.Format
import P8.Pool.Fifo

/-!
# Config: from the two size strings to a pool

`parse_size` and `cp8_core::init_buffer_pool`, and what the configuration decides about the producers that wait. The pool of a
core has room for a buffer only where `max_memory_size` is at least the size of one. Nothing checks that, and in a smaller pool
a blocking producer waits for a buffer that does not exist.

`str_casecmp` is not part of the repository; `casecmp` says whether it finds two strings equal.
-/

namespace P8

/-! ## The size strings -/

/-- The copy to `la_buf`, in which there is room for so many bytes still: blanks are left out. -/
def copyNoBlanks : Nat → CStr → CStr
  | _, [] => []
  | 0, _ => []
  | room + 1, c :: cs =>
    if c = 0x20 ∨ c = 0x09 then copyNoBlanks (room + 1) cs
    else c :: copyNoBlanks room cs

/-- `isspace`. -/
def isSpace (c : UInt8) : Bool := c = 0x20 || (0x09 ≤ c && c ≤ 0x0d)

/-- The value of decimal digits. -/
def digitsValue (digits : CStr) : Nat := digits.foldl (fun n c => n * 10 + (c.toNat - 0x30)) 0

/-- What `strtoull` makes of decimal digits: a value that is too large gives `ULLONG_MAX`, and a minus negates the others. -/
def ullValue (negative : Bool) (digits : CStr) : Nat :=
  if 2 ^ 64 ≤ digitsValue digits then 2 ^ 64 - 1
  else if negative then (2 ^ 64 - digitsValue digits) % 2 ^ 64
  else digitsValue digits

/-- `strtoull` in base 10: the value and what is left of the text, or nothing where no number begins. -/
def strtoull (text : CStr) : Option (Nat × CStr) :=
  let text := text.dropWhile isSpace
  let negative := text.head? == some 0x2d
  let text := if negative || text.head? == some 0x2b then text.tail else text
  if text.takeWhile isDigit = [] then none
  else some (ullValue negative (text.takeWhile isDigit), text.dropWhile isDigit)

variable (casecmp : CStr → CStr → Bool)

/-- `parse_size`. -/
def parseSize (text : CStr) : Option Nat :=
  let buf := copyNoBlanks 127 text
  if casecmp buf (bytes "infinite") then some (2 ^ 64 - 1)
  else
    match strtoull buf with
    | none => none
    | some (n, rest) =>
      if rest = [] then some n
      else if casecmp rest (bytes "KB") ∨ casecmp rest (bytes "Ki") then some (n * 1024 % 2 ^ 64)
      else if casecmp rest (bytes "MB") ∨ casecmp rest (bytes "Mi") then some (n * 1024 % 2 ^ 64 * 1024 % 2 ^ 64)
      else none

/-- A number that is read fits 64 bits, a minus in front of it or not. -/
theorem ullValue_lt (negative : Bool) (digits : CStr) : ullValue negative digits < 2 ^ 64 := by
  unfold ullValue
  split
  · decide
  · split
    · exact Nat.mod_lt _ (by decide)
    · omega

/-- What `strtoull` gives fits 64 bits. -/
theorem strtoull_lt {text rest : CStr} {n : Nat} (h : strtoull text = some (n, rest)) : n < 2 ^ 64 := by
  simp only [strtoull] at h
  generalize text.dropWhile isSpace = text at h
  generalize (if (text.head? == some 0x2d || text.head? == some 0x2b) = true then text.tail else text) = number at h
  split at h
  · cases h
  · cases h
    exact ullValue_lt _ _

variable {casecmp}

/-- A size fits into a `size_t`. -/
theorem parseSize_lt {text : CStr} {n : Nat} (h : parseSize casecmp text = some n) : n < 2 ^ 64 := by
  unfold parseSize at h
  dsimp only at h
  split at h
  · cases h
    decide
  · split at h
    · cases h
    · rename_i hn
      split at h
      · cases h
        exact strtoull_lt hn
      · split at h
        · cases h
          exact Nat.mod_lt _ (by decide)
        · split at h
          · cases h
            exact Nat.mod_lt _ (by decide)
          · cases h

/-! ## The pool of a core -/

/-- What `init_buffer_pool` gives its budget and its pool: the cap, and how many buffers `init` is to allocate. -/
structure MemoryConfig where
  maxMemorySize : Nat
  initialCount : Nat
  deriving DecidableEq

variable (casecmp) in
/-- A size that may be left out. -/
def sizeOr (default : Nat) : Option (CStr) → Option Nat
  | none => some default
  | some text => parseSize casecmp text

variable (casecmp) in
/-- `init_buffer_pool`, up to the two objects. An initial size above the maximum is cut down to it. -/
def initBufferPool (maxMemorySize initialMemorySize : Option (CStr)) : Option MemoryConfig := do
  let max ← sizeOr casecmp (16 * (1024 * 1024)) maxMemorySize
  let initial ← sizeOr casecmp (1024 * 1024) initialMemorySize
  return ⟨max, (if max < initial then max else initial) / dataBufferSize⟩

/-- A budget fits into a `size_t`, and the initial buffers fit into the budget. -/
theorem initBufferPool_spec {maxMemorySize initialMemorySize : Option (CStr)} {cfg : MemoryConfig}
    (h : initBufferPool casecmp maxMemorySize initialMemorySize = some cfg) :
    sizeOr casecmp (16 * (1024 * 1024)) maxMemorySize = some cfg.maxMemorySize ∧ cfg.maxMemorySize < 2 ^ 64 ∧
      cfg.initialCount * dataBufferSize ≤ cfg.maxMemorySize := by
  unfold initBufferPool at h
  cases hmax : sizeOr casecmp (16 * (1024 * 1024)) maxMemorySize with
  | none =>
    rw [hmax] at h
    cases h
  | some max =>
    cases hinit : sizeOr casecmp (1024 * 1024) initialMemorySize with
    | none =>
      rw [hmax, hinit] at h
      cases h
    | some initial =>
      rw [hmax, hinit] at h
      obtain rfl := Option.some.inj h
      refine ⟨rfl, ?_, ?_⟩
      · show max < 2 ^ 64
        cases maxMemorySize with
        | none =>
          obtain rfl := Option.some.inj hmax
          decide
        | some text => exact parseSize_lt hmax
      · refine Nat.le_trans (Nat.div_mul_le_self _ _) ?_
        show (if max < initial then max else initial) ≤ max
        split <;> omega

namespace Pools

/-- Nobody shuts the pool down. -/
def NoShutdown {B T : Type} (evs : List (Unit × PoolEv B T)) : Prop := ∀ ev ∈ evs, ev.2 ≠ .stopWaiters ∧ ev.2 ≠ .dtorStop

/-- A core's pool, right after `init_buffer_pool`, and a run of it. -/
def runCore {B T : Type} [DecidableEq B] [DecidableEq T] (cfg : MemoryConfig) (evs : List (Unit × PoolEv B T)) :
    Except Halt (Pools Unit B T) :=
  (Pools.init cfg.maxMemorySize (fun _ => dataBufferSize)).run (((), .init cfg.initialCount) :: evs)

/-- Whoever waits waits for a buffer of the pool that somebody holds or is about to get. -/
def NoHopelessWait (B T : Type) [DecidableEq B] [DecidableEq T] (cfg : MemoryConfig) : Prop :=
  ∀ (evs : List (Unit × PoolEv B T)) (s : Pools Unit B T), NoFailure evs → NoShutdown evs → runCore cfg evs = .ok s →
    (s.pools ()).parked ≠ [] → (s.pools ()).held ++ (s.pools ()).handed ≠ [] ∧ (s.pools ()).pool.all ≠ []

variable {B T : Type}

/-- Where a thread waits and the budget has room for a buffer, some buffer is outstanding. -/
theorem Sole.outstanding {max : Nat} {s : Pools Unit B T} (h : Sole max s)
    (hroom : (s.pools ()).pool.bufferSize ≤ max) (hopen : (s.pools ()).pool.stopping = false)
    (hpark : (s.pools ()).parked ≠ []) :
    (s.pools ()).held ++ (s.pools ()).handed ≠ [] ∧ (s.pools ()).pool.all ≠ [] := by
  obtain ⟨q, hq⟩ := h.pools.pools ()
  have hperm := hq.all_perm
  suffices hout : (s.pools ()).held ++ (s.pools ()).handed ≠ [] by
    refine ⟨hout, fun hall => ?_⟩
    rw [hall, List.append_assoc] at hperm
    exact hout (List.append_eq_nil_iff.mp (List.nil_perm.mp hperm)).2
  obtain ⟨t, ht⟩ := List.exists_mem_of_ne_nil _ hpark
  cases hdone : ((s.pools ()).pool.nodes t).done with
  | true =>
    -- the waiter has been served, and not by a shutdown
    have hin : t ∈ (s.pools ()).inside := List.mem_append_left _ ht
    have hbuf : ((s.pools ()).pool.nodes t).buf ≠ none := fun hb => by
      rw [hq.null_served t hin hdone hb] at hopen
      cases hopen
    obtain ⟨x, hx⟩ := Option.ne_none_iff_exists'.mp hbuf
    have hmem : x ∈ (s.pools ()).handed := List.mem_filterMap.mpr ⟨t, hin, hx⟩
    exact List.ne_nil_of_mem (List.mem_append_right _ hmem)
  | false =>
    have htq : t ∈ q := (hq.waiting t).mpr ⟨ht, hdone⟩
    have hcount : (s.pools ()).pool.waitCount ≠ 0 := by
      rw [hq.queue.count]
      exact fun hz => List.ne_nil_of_mem htq (List.length_eq_zero_iff.mp hz)
    obtain ⟨hfree, hfull⟩ := h.sole.exhausted hcount
    -- all that is lent are buffers: there is no reservation in progress
    have hnone : (s.pools ()).reserved = 0 := by
      unfold PoolSys.reserved
      split
      · rename_i j hpc
        exact absurd (h.sole.growing j hpc) hcount
      · rename_i j hpc
        exact absurd hpc (h.sole.no_giveBack j)
      · rename_i n hpc
        have hstop := hq.dtor_stopping (by rw [hq.releasing n hpc]; decide)
        rw [hstop] at hopen
        cases hopen
      all_goals rfl
    have hused := h.pools.used_eq
    rw [Finset.univ_unique, Finset.sum_singleton, PoolSys.share, hnone] at hused
    rw [h.pools.max_eq] at hfull
    intro hout
    rw [hfree, List.append_assoc, hout] at hperm
    have hall : (s.pools ()).pool.all = [] := List.perm_nil.mp hperm
    have hzero : s.budget.used = 0 := by
      rw [hused]
      show (s.pools ()).pool.all.length * (s.pools ()).pool.bufferSize + 0 = 0
      rw [hall]
      simp
    omega

variable [DecidableEq B] [DecidableEq T]

/-- Without a shutdown the pool is not being stopped. -/
theorem runCore_sole {cfg : MemoryConfig} (hmax : cfg.maxMemorySize < 2 ^ 64)
    {evs : List (Unit × PoolEv B T)} {s : Pools Unit B T} (hfail : NoFailure evs) (hopen : NoShutdown evs)
    (hr : runCore cfg evs = .ok s) : Sole cfg.maxMemorySize s ∧ (s.pools ()).pool.stopping = false := by
  have hinit := sole_init cfg.maxMemorySize dataBufferSize (B := B) (T := T)
  have hall : NoFailure (((), .init cfg.initialCount) :: evs) :=
    List.forall_mem_cons.mpr ⟨fun h => (by cases h), hfail⟩
  refine ⟨hinit.run hmax hall hr, ?_⟩
  rw [Bool.eq_false_iff, Ne, hinit.stopping_iff hmax hall hr]
  rintro (hstop | ⟨ev, hev, hstop⟩)
  · cases hstop
  · rcases List.mem_cons.mp hev with rfl | hev
    · rcases hstop with hstop | hstop <;> cases hstop
    · exact hstop.elim (hopen ev hev).1 (hopen ev hev).2

/-- A core's buffers are of the size it gave its pool. -/
theorem runCore_bufferSize {cfg : MemoryConfig} (hmax : cfg.maxMemorySize < 2 ^ 64) {evs : List (Unit × PoolEv B T)}
    {s : Pools Unit B T} (hr : runCore cfg evs = .ok s) : (s.pools ()).pool.bufferSize = dataBufferSize := by
  have hstart : (Pools.init cfg.maxMemorySize (fun _ => dataBufferSize) : Pools Unit B T).Inv cfg.maxMemorySize ∧
      ((Pools.init cfg.maxMemorySize (fun _ => dataBufferSize) : Pools Unit B T).pools ()).pool.bufferSize =
        dataBufferSize := ⟨inv_init _ _, rfl⟩
  refine (Runs.run_induction (P := fun s : Pools Unit B T => s.Inv cfg.maxMemorySize ∧
    (s.pools ()).pool.bufferSize = dataBufferSize) hstart ?_ hr).2
  rintro s ⟨⟨⟩, e⟩ s' ⟨hinv, hsize⟩ hs
  refine ⟨hinv.step hmax hs, ?_⟩
  obtain ⟨-, b, p, hp, rfl⟩ := step_eq_ok hs
  rw [← hsize]
  exact (hinv.moves hmax hp).size_eq

/-- A step of a pool alone, on what no pool has. -/
theorem step_alone {b b' : Budget} {p p' : PoolSys B T} {e : PoolEv B T} (hp : p.step b e = .ok (b', p'))
    (hfresh : ∀ s : Pools Unit B T, s.Fresh e) :
    (⟨b, fun _ => p⟩ : Pools Unit B T).step ((), e) = .ok ⟨b', fun _ => p'⟩ := by
  rw [step_ok (hfresh _) hp]
  rfl

/-- A reservation that the cap leaves no room for is refused. -/
theorem refused_of_lt {max bytes : Nat} (h : max < bytes) (hbytes : bytes < 2 ^ 64) :
    (⟨max, 0⟩ : Budget).tryReserveRound bytes 0 false = .refused := by
  have hfull : sizeSub max 0 < bytes := by
    rw [sizeSub_of_le (Nat.zero_le _) (Nat.lt_trans h hbytes)]
    exact h
  rw [Budget.tryReserveRound, if_pos (Or.inr hfull)]

/-- A blocking acquire of an empty pool whose budget has no room for a buffer parks. -/
theorem park_step {b : Budget} {p : PoolSys B T} {t : T}
    (h : b.tryReserveRound p.pool.bufferSize b.used false = .refused) :
    ({ p with pc := .check (.wait t) b.used } : PoolSys B T).step b (.tryReserve false) =
      .ok (b, { p with pc := .check (.wait t) b.used }.refuse (.wait t)) := by
  simp only [PoolSys.step, h]

/-- In a pool without room for a buffer, a blocking acquire waits for nothing. -/
theorem hopeless_wait {cfg : MemoryConfig} (hmax : cfg.maxMemorySize < dataBufferSize) (hcount : cfg.initialCount = 0)
    (t : T) : ∃ s : Pools Unit B T,
      runCore cfg [((), .acquireWait t), ((), .load), ((), .tryReserve false)] = .ok s ∧ (s.pools ()).parked = [t] ∧
        (s.pools ()).held ++ (s.pools ()).handed = [] := by
  obtain ⟨max, count⟩ := cfg
  obtain rfl : count = 0 := hcount
  have hround := refused_of_lt hmax (by decide)
  generalize hp : (PoolSys.init dataBufferSize : PoolSys B T) = p
  have hinit : p.step ⟨max, 0⟩ (.init 0) = .ok (⟨max, 0⟩, p) := by
    rw [← hp]
    rfl
  have hacquire : p.step ⟨max, 0⟩ (.acquireWait t) = .ok (⟨max, 0⟩, { p with pc := .load (.wait t) }) := by
    rw [← hp]
    rfl
  have hload : ({ p with pc := .load (.wait t) } : PoolSys B T).step ⟨max, 0⟩ .load =
      .ok (⟨max, 0⟩, { p with pc := .check (.wait t) 0 }) := rfl
  have hreserve := park_step (b := ⟨max, 0⟩) (p := p) (t := t) (by rw [← hp]; exact hround)
  refine ⟨⟨⟨max, 0⟩, fun _ => { p with pc := .check (.wait t) 0 }.refuse (.wait t)⟩, ?_, ?_, ?_⟩
  · rw [runCore, Pools.init, hp, Pools.run, Runs.run_step (step_alone hinit (fun _ => trivial)),
      Runs.run_step (step_alone hacquire (fun _ => trivial)), Runs.run_step (step_alone hload (fun _ => trivial)),
      Runs.run_step (step_alone hreserve (fun _ => trivial)), Runs.run]
  · rw [← hp]
    rfl
  · simp [← hp, PoolSys.refuse, PoolSys.init, PoolSys.handed, PoolSys.inside, Pool.init, Pool.enqueue]

/-- A pool without room for one buffer lets a thread wait in vain. -/
theorem not_noHopelessWait {cfg : MemoryConfig} (hmax : cfg.maxMemorySize < dataBufferSize) (hcount : cfg.initialCount = 0)
    (t : T) : ¬ NoHopelessWait B T cfg := by
  intro hhope
  obtain ⟨s, hs, hpark, hnone⟩ := hopeless_wait (B := B) hmax hcount t
  refine (hhope _ s ?_ ?_ hs ?_).1 hnone
  · simp [NoFailure]
  · simp [NoShutdown]
  · rw [hpark]
    exact List.cons_ne_nil _ _

end Pools

/-- The maximum, where one is configured, is at least the size of a buffer. -/
def Roomy (casecmp : CStr → CStr → Bool) (maxMemorySize : Option CStr) : Prop :=
  ∀ text n, maxMemorySize = some text → parseSize casecmp text = some n → dataBufferSize ≤ n

/-- The waiters of a core's pool can hope in every run, exactly when the configured maximum is at least the size of a buffer. -/
theorem noHopelessWait_iff {B T : Type} [DecidableEq B] [DecidableEq T] (t : T) (casecmp : CStr → CStr → Bool)
    {maxMemorySize initialMemorySize : Option CStr} {cfg : MemoryConfig}
    (hcfg : initBufferPool casecmp maxMemorySize initialMemorySize = some cfg) :
    Pools.NoHopelessWait B T cfg ↔ Roomy casecmp maxMemorySize := by
  obtain ⟨hsize, hmax, hinitial⟩ := initBufferPool_spec hcfg
  have hroom : Roomy casecmp maxMemorySize ↔ dataBufferSize ≤ cfg.maxMemorySize := by
    cases maxMemorySize with
    | none =>
      rw [← Option.some.inj hsize]
      exact ⟨fun _ => by decide, fun _ _ _ h => by cases h⟩
    | some text =>
      refine ⟨fun h => h text _ rfl hsize, fun h text' n ht hn => ?_⟩
      obtain rfl := Option.some.inj ht
      rw [← Option.some.inj (hsize.symm.trans hn)]
      exact h
  rw [hroom]
  constructor
  · intro hhope
    by_contra hsmall
    rw [Nat.not_le] at hsmall
    have hcount : cfg.initialCount = 0 := by
      by_contra hne
      have hone := Nat.le_mul_of_pos_left dataBufferSize (Nat.pos_of_ne_zero hne)
      omega
    exact Pools.not_noHopelessWait hsmall hcount t hhope
  · intro hle evs s hfail hopen hr hpark
    obtain ⟨hsole, hstop⟩ := Pools.runCore_sole hmax hfail hopen hr
    refine hsole.outstanding ?_ hstop hpark
    rw [Pools.runCore_bufferSize hmax hr]
    exact hle

/-- A comparison that takes no notice of the case of ASCII letters. -/
def sameLetters (a b : CStr) : Bool :=
  let lower := fun c : UInt8 => if 0x41 ≤ c && c ≤ 0x5a then c + 0x20 else c
  a.map lower == b.map lower

/-- A configuration of one megabyte has room. -/
theorem noHopelessWait_iff_1mb : Pools.NoHopelessWait Nat Nat ⟨1048576, 128⟩ ∧ Roomy sameLetters (some (bytes "1 mb")) := by
  have hcfg : initBufferPool sameLetters (some (bytes "1 mb")) none = some ⟨1048576, 128⟩ := by decide
  have hroom : Roomy sameLetters (some (bytes "1 mb")) := fun text n ht hn => by
    obtain rfl := Option.some.inj ht
    have hsize : parseSize sameLetters (bytes "1 mb") = some 1048576 := by decide
    rw [← Option.some.inj (hsize.symm.trans hn)]
    decide
  exact ⟨(noHopelessWait_iff 0 sameLetters hcfg).mpr hroom, hroom⟩

/-- A configured maximum of 4096 bytes is accepted, and a producer that waits in the pool waits for nothing. -/
theorem noHopelessWait_false : ∃ cfg, initBufferPool sameLetters (some (bytes "4096")) none = some cfg ∧
    ¬ Pools.NoHopelessWait Nat Nat cfg := by
  exact ⟨⟨4096, 0⟩, by decide, Pools.not_noHopelessWait (by decide) rfl 0⟩

end P8
