import Mathlib.Data.List.Perm.Basic
import P8.Pool.Clients

/-!
# Ownership: where the buffers of a pool are

The invariant of one pool, whatever happens to the budget meanwhile. Every buffer of `mo_all` is at exactly one place: it is
free, or a client holds it, or it has been handed to a waiter that has not returned yet. `Inv.step` is the step lemma, and
`Inv.no_badAccess` says that no step uses a null pointer or a pool that is gone.
-/

namespace P8

namespace PoolSys

variable {B T : Type}

/-- The invariant of a pool whose waiters queue as the list `q`. -/
structure Inv (s : PoolSys B T) (q : List T) : Prop where
  queue : s.pool.Queue q
  inside_nodup : s.inside.Nodup
  inflight : s.pool.inflight = s.inside.length
  waiting : ∀ t, t ∈ q ↔ t ∈ s.parked ∧ (s.pool.nodes t).done = false
  returning_done : ∀ t ∈ s.returning, (s.pool.nodes t).done = true
  awake : ∀ t ∈ s.parked, (s.pool.nodes t).done = true → s.asleep t = false
  all_nodup : s.pool.all.Nodup
  all_perm : s.pool.all.Perm (s.pool.free ++ s.held ++ s.handed)
  job_free : ∀ j, s.pc.job = some j → (∀ n, j ≠ .init n) → s.pool.free = []
  job_outside : ∀ t, s.pc.job = some (.wait t) → t ∉ s.inside
  stopped : s.pool.stopping = true → q = []
  dtor_stopping : s.dtor ≠ .unborn → s.pool.stopping = true
  answered : ∀ t ∈ s.inside, (s.pool.nodes t).done = true → (t, (s.pool.nodes t).buf) ∈ s.pool.served
  null_served : ∀ t ∈ s.inside, (s.pool.nodes t).done = true → (s.pool.nodes t).buf = none → s.pool.stopping = true
  null_returned : ∀ t, (t, none) ∈ s.returned → s.pool.stopping = true
  quiet : s.dtor = .quiet ∨ s.dtor = .gone → s.inside = []
  releasing : ∀ n, s.pc = .release n → s.dtor = .quiet

/-- A fresh pool has no buffer, and nobody is inside. -/
theorem inv_init (bufferSize : Nat) : (PoolSys.init bufferSize : PoolSys B T).Inv [] where
  queue := Pool.queue_init bufferSize
  inside_nodup := List.nodup_nil
  inflight := rfl
  waiting := fun t => ⟨fun h => (by cases h), fun h => (by cases h.1)⟩
  returning_done := fun _ h => (by cases h)
  awake := fun _ h => (by cases h)
  all_nodup := List.nodup_nil
  all_perm := List.Perm.refl _
  job_free := fun _ h => (by cases h)
  job_outside := fun _ h => (by cases h)
  stopped := fun _ => rfl
  dtor_stopping := fun h => absurd rfl h
  answered := fun _ h => (by cases h)
  null_served := fun _ h => (by cases h)
  null_returned := fun _ h => (by cases h)
  quiet := fun _ => rfl
  releasing := fun _ h => (by cases h)

variable {s : PoolSys B T} {q : List T}

/-- A thread in the queue is inside the pool. -/
theorem Inv.mem_inside (h : s.Inv q) {t : T} (ht : t ∈ q) : t ∈ s.inside :=
  List.mem_append_left _ ((h.waiting t).mp ht).1

/-- The thread that holds the mutex goes on with the same job, or with one that asks the same of the pool. -/
theorem Inv.goOn (h : s.Inv q) {pc : Pc T} (hjob : ∀ j, pc.job = some j → s.pc.job = some j ∨ ∃ n, j = .init n)
    (hrel : ∀ n, pc ≠ .release n) : ({ s with pc := pc } : PoolSys B T).Inv q :=
  { h with
    job_free := fun j hj hne => by
      rcases hjob j hj with hold | ⟨n, rfl⟩
      · exact h.job_free j hold hne
      · exact absurd rfl (hne n)
    job_outside := fun t ht => by
      rcases hjob _ ht with hold | ⟨n, hn⟩
      · exact h.job_outside t hold
      · cases hn
    releasing := fun n hn => absurd hn (hrel n) }

/-- A pool whose call has ended keeps the invariant. -/
theorem Inv.setIdle (h : s.Inv q) : ({ s with pc := .idle } : PoolSys B T).Inv q :=
  h.goOn (fun _ hj => by cases hj) (fun _ hn => by cases hn)

section

variable [DecidableEq T]

/-- A thread that parks is the last in the queue. -/
theorem Inv.park (h : s.Inv q) {t : T} (ht : t ∉ s.inside) (hstop : s.pool.stopping ≠ true) :
    ({ s with
        pc := .idle
        pool := s.pool.enqueue t
        parked := s.parked ++ [t]
        asleep := fun u => if u = t then true else s.asleep u } : PoolSys B T).Inv (q ++ [t]) := by
  have hnode := Pool.enqueue_node s.pool t
  have hparked : t ∉ s.parked := fun hm => ht (List.mem_append_left _ hm)
  have hret : t ∉ s.returning := fun hm => ht (List.mem_append_right _ hm)
  have hq : t ∉ q := fun hm => ht (h.mem_inside hm)
  have hperm : (s.parked ++ [t] ++ s.returning).Perm (t :: s.inside) := by
    rw [List.append_assoc]
    exact List.perm_middle
  have hhanded : (s.parked ++ [t] ++ s.returning).filterMap (fun u => ((s.pool.enqueue t).nodes u).buf) = s.handed := by
    have hsame : ∀ l : List T, t ∉ l →
        l.filterMap (fun u => ((s.pool.enqueue t).nodes u).buf) = l.filterMap (fun u => (s.pool.nodes u).buf) := by
      intro l hl
      refine List.filterMap_congr (fun u hu => ?_)
      have hut : u ≠ t := fun he => hl (he ▸ hu)
      rw [(hnode u).2, if_neg hut]
    rw [List.filterMap_append, List.filterMap_append, hsame _ hparked, hsame _ hret,
      List.filterMap_cons_none (by rw [(hnode t).2, if_pos rfl]), handed, inside, List.filterMap_append]
    simp
  refine
    { queue := h.queue.enqueue hq
      inside_nodup := hperm.nodup_iff.mpr (List.nodup_cons.mpr ⟨ht, h.inside_nodup⟩)
      inflight := ?_
      waiting := fun u => ?_
      returning_done := fun u hu => ?_
      awake := fun u hu hd => ?_
      all_nodup := h.all_nodup
      all_perm := ?_
      job_free := fun _ hj => (by cases hj)
      job_outside := fun _ hj => (by cases hj)
      stopped := fun hs => absurd hs hstop
      dtor_stopping := h.dtor_stopping
      answered := fun u hu hd => ?_
      null_served := fun u hu hd hb => ?_
      null_returned := h.null_returned
      quiet := fun hq => ?_
      releasing := fun _ hn => (by cases hn) }
  · show s.pool.inflight + 1 = _
    rw [h.inflight]
    exact hperm.length_eq.symm
  · dsimp only
    rw [(hnode u).1, List.mem_append, List.mem_append, List.mem_singleton, h.waiting u]
    by_cases hut : u = t
    · simp [hut]
    · simp [hut]
  · have hut : u ≠ t := fun he => hret (he ▸ hu)
    dsimp only
    rw [(hnode u).1, if_neg hut]
    exact h.returning_done u hu
  · obtain ⟨hut, hdone, -⟩ := Pool.done_enqueue hd
    have hold : u ∈ s.parked := by simpa [hut] using hu
    dsimp only
    rw [if_neg hut]
    exact h.awake u hold hdone
  · show s.pool.all.Perm (s.pool.free ++ s.held ++
      (s.parked ++ [t] ++ s.returning).filterMap (fun u => ((s.pool.enqueue t).nodes u).buf))
    rw [hhanded]
    exact h.all_perm
  · obtain ⟨hut, hdone, hbuf⟩ := Pool.done_enqueue hd
    have hold : u ∈ s.inside := by simpa [hut] using hperm.mem_iff.mp hu
    dsimp only
    rw [hbuf]
    exact h.answered u hold hdone
  · obtain ⟨hut, hdone, hbuf⟩ := Pool.done_enqueue hd
    have hold : u ∈ s.inside := by simpa [hut] using hperm.mem_iff.mp hu
    exact h.null_served u hold hdone (hbuf ▸ hb)
  · refine absurd (h.dtor_stopping (fun he => ?_)) hstop
    rcases hq with hq | hq <;> rw [show s.dtor = _ from hq] at he <;> cases he

/-- A refused job leaves the pool as it was, or puts a waiter at the end of the queue. -/
theorem Inv.refuse (h : s.Inv q) {j : Job T} (hj : ∀ t, j = .wait t → t ∉ s.inside) : ∃ q', (s.refuse j).Inv q' := by
  unfold PoolSys.refuse
  cases j with
  | init n => exact ⟨q, h.setIdle⟩
  | acquire => exact ⟨q, h.setIdle⟩
  | wait t =>
    dsimp only
    by_cases hstop : s.pool.stopping = true
    · rw [if_pos hstop]
      exact ⟨q, { h.setIdle with null_returned := fun u _ => hstop }⟩
    · rw [if_neg hstop]
      exact ⟨q ++ [t], h.park (hj t rfl) hstop⟩

/-- The first free buffer goes to a client. -/
theorem Inv.pullFirst (h : s.Inv q) {j : Job T} (hj : ∀ t, j = .wait t → t ∉ s.inside) : ∃ q', (s.pullFirst j).Inv q' := by
  unfold PoolSys.pullFirst
  cases hfree : s.pool.free with
  | nil => exact h.refuse hj
  | cons b free =>
    dsimp only
    refine ⟨q,
      { h.setIdle with
        job_free := fun _ hj => (by cases hj)
        queue := ⟨h.queue.links, h.queue.count, h.queue.unserved, h.queue.order⟩
        all_perm := ?_
        null_returned := fun t ht => h.null_returned t ?_ }⟩
    · have hperm := h.all_perm
      rw [hfree] at hperm
      exact hperm.trans (by
        show (b :: (free ++ s.held ++ s.handed)).Perm (free ++ b :: s.held ++ s.handed)
        exact (List.perm_middle.append_right s.handed).symm)
    · dsimp only at ht
      split at ht
      · simpa using ht
      · exact ht

omit [DecidableEq T] in
/-- A fresh buffer is put to the pool, free. -/
theorem Inv.addBuffer (h : s.Inv q) {b : B} (hb : b ∉ s.pool.all) :
    ({ s with pc := .idle, pool := s.pool.addBuffer b } : PoolSys B T).Inv q :=
  { h.setIdle with
    queue := ⟨h.queue.links, h.queue.count, h.queue.unserved, h.queue.order⟩
    all_nodup := by
      show (s.pool.all ++ [b]).Nodup
      exact (List.perm_append_singleton b s.pool.all).nodup_iff.mpr (List.nodup_cons.mpr ⟨hb, h.all_nodup⟩)
    all_perm := by
      show (s.pool.all ++ [b]).Perm (s.pool.free ++ [b] ++ s.held ++ s.handed)
      refine (List.perm_append_singleton b s.pool.all).trans ((h.all_perm.cons b).trans ?_)
      simp only [List.append_assoc, List.singleton_append]
      exact List.perm_middle.symm
    job_free := fun _ hj => (by cases hj) }

/-- The operation that wanted a buffer goes on with it. -/
theorem Inv.grown (h : s.Inv q) {j : Job T} (hj : s.pc.job = some j) {b : B} (hb : b ∉ s.pool.all) :
    ∃ q', ({ s with pool := s.pool.addBuffer b }.grown j).Inv q' := by
  have hadd := h.addBuffer hb
  have hout : ∀ t, j = .wait t → t ∉ s.inside := fun t ht => h.job_outside t (ht ▸ hj)
  have hpull : ∀ j', j = j' → ∃ q', ({ s with pool := s.pool.addBuffer b }.pullFirst j').Inv q' := by
    rintro j' rfl
    obtain ⟨q', hq'⟩ := hadd.pullFirst (j := j) hout
    exact ⟨q', by unfold PoolSys.pullFirst PoolSys.refuse at hq' ⊢; exact hq'⟩
  cases j with
  | init left =>
    unfold PoolSys.grown
    dsimp only
    split
    · exact ⟨q, hadd⟩
    · exact ⟨q, hadd.goOn (fun j hj => Or.inr ⟨left - 1, by cases hj; rfl⟩) (fun _ hn => by cases hn)⟩
  | acquire => exact hpull _ rfl
  | wait t => exact hpull _ rfl

/-- Buffers of which a client holds each are its own, and the others. -/
theorem held_perm {held bs : List B} [DecidableEq B] (hheld : held.Nodup) (hbs : bs.Nodup) (hsub : ∀ x ∈ bs, x ∈ held) :
    held.Perm (bs ++ held.filter (· ∉ bs)) := by
  have hmine : (held.filter (· ∈ bs)).Perm bs := by
    refine (List.perm_ext_iff_of_nodup (hheld.filter _) hbs).mpr (fun x => ?_)
    simp only [List.mem_filter, decide_eq_true_eq]
    exact ⟨fun hx => hx.2, fun hx => ⟨hsub x hx, hx⟩⟩
  have hsplit := List.filter_append_perm (fun x => decide (x ∈ bs)) held
  refine hsplit.symm.trans ?_
  have hrest : held.filter (fun x => !decide (x ∈ bs)) = held.filter (· ∉ bs) := by simp
  rw [hrest]
  exact hmine.append_right _

/-- Recycled buffers are free, or they are with the waiters that were served. -/
theorem Inv.recycled [DecidableEq B] (h : s.Inv q) {p : Pool B T} {bs : List B} {cvs : List (Fin 64)}
    (hr : Pool.Recycled s.pool p q bs cvs) (hbs : bs.Nodup) (hsub : ∀ x ∈ bs, x ∈ s.held) (hidle : s.pc = .idle) :
    ({ s with pool := p, held := s.held.filter (· ∉ bs) }.notify cvs).Inv (q.drop bs.length) := by
  obtain ⟨hall, hstop, hin, -, -⟩ := hr.same
  have hheld : s.held.Nodup := by
    have hnodup := h.all_perm.nodup_iff.mp h.all_nodup
    rw [List.nodup_append, List.nodup_append] at hnodup
    exact hnodup.1.2.1
  have hmem : ∀ t, t ∈ q ↔ t ∈ q.take bs.length ∨ t ∈ q.drop bs.length := by
    intro t
    rw [← List.mem_append, List.take_append_drop]
  have hdisj : ∀ t, t ∈ q.take bs.length → t ∉ q.drop bs.length := by
    have hnodup := h.queue.links.nodup
    rw [← List.take_append_drop bs.length q, List.nodup_append] at hnodup
    exact fun t ht hd => hnodup.2.2 t ht t hd rfl
  have hundone : ∀ t, (p.nodes t).done = false ↔ (s.pool.nodes t).done = false ∧ t ∉ q.take bs.length := by
    intro t
    rw [← Bool.not_eq_true, ← Bool.not_eq_true, hr.done, not_or]
  refine
    { queue := hr.queue
      inside_nodup := h.inside_nodup
      inflight := hin.trans h.inflight
      waiting := fun t => ?_
      returning_done := fun t ht => (hr.done t).mpr (Or.inl (h.returning_done t ht))
      awake := fun t ht hd => ?_
      all_nodup := hall.symm ▸ h.all_nodup
      all_perm := ?_
      job_free := fun j hj => ?_
      job_outside := fun t hj => ?_
      stopped := fun hs => ?_
      dtor_stopping := fun hd => hstop.trans (h.dtor_stopping hd)
      answered := fun t ht hd => ?_
      null_served := fun t ht hd hb => ?_
      null_returned := fun t ht => hstop.trans (h.null_returned t ht)
      quiet := h.quiet
      releasing := h.releasing }
  · show t ∈ q.drop bs.length ↔ t ∈ s.parked ∧ (p.nodes t).done = false
    rw [hundone]
    constructor
    · intro ht
      obtain ⟨hp, hd⟩ := (h.waiting t).mp ((hmem t).mpr (Or.inr ht))
      exact ⟨hp, hd, fun htake => hdisj t htake ht⟩
    · rintro ⟨hp, hd, htake⟩
      exact ((hmem t).mp ((h.waiting t).mpr ⟨hp, hd⟩)).resolve_left htake
  · show (s.asleep t && !cvs.contains (p.nodes t).cv) = false
    rcases (hr.done t).mp hd with hd | htake
    · rw [h.awake t ht hd]
      rfl
    · have hcv := hr.notified t htake
      rw [hr.cv t]
      simp [hcv]
  · show p.all.Perm (p.free ++ s.held.filter (· ∉ bs) ++ s.inside.filterMap (fun t => (p.nodes t).buf))
    have hown := held_perm hheld hbs hsub
    have hhand := hr.account s.inside h.inside_nodup (fun t ht => h.mem_inside ht)
    rw [hall, hr.free]
    refine h.all_perm.trans ?_
    rw [List.perm_iff_count] at hown hhand ⊢
    intro x
    have h₁ := hown x
    have h₂ := hhand x
    have h₃ : bs.count x = (bs.take q.length).count x + (bs.drop q.length).count x := by
      rw [← List.count_append, List.take_append_drop]
    simp only [List.count_append, handed] at h₁ h₂ ⊢
    omega
  · have hj' : s.pc.job = some j := hj
    rw [hidle] at hj'
    cases hj'
  · have hj' : s.pc.job = some (.wait t) := hj
    rw [hidle] at hj'
    cases hj'
  · rw [h.stopped (hstop.symm.trans hs), List.drop_nil]
  · show (t, (p.nodes t).buf) ∈ p.served
    rw [hr.served]
    by_cases htake : t ∈ q.take bs.length
    · obtain ⟨x, hx, hsome⟩ := hr.mem_zip htake
      rw [hsome]
      exact List.mem_append_right _ (List.mem_map.mpr ⟨(t, x), hx, rfl⟩)
    · rw [hr.buf t htake]
      exact List.mem_append_left _ (h.answered t ht (((hr.done t).mp hd).resolve_right htake))
  · refine hstop.trans ?_
    by_cases htake : t ∈ q.take bs.length
    · obtain ⟨x, -, hsome⟩ := hr.mem_zip htake
      rw [show (p.nodes t).buf = none from hb] at hsome
      cases hsome
    · refine h.null_served t ht (((hr.done t).mp hd).resolve_right htake) ?_
      rw [← hr.buf t htake]
      exact hb

/-- After `stop_waiters` nobody waits. -/
theorem Inv.stop (h : s.Inv q) (hpc : s.pc.job = none) : s.stop.Inv [] ∧ s.stop.pool.stopping = true := by
  have hs := h.queue.stopWaiters
  obtain ⟨hfree, hall, hin, -, -⟩ := hs.same
  have hundone : ∀ t, (s.pool.stopWaiters.1.nodes t).done = false ↔ (s.pool.nodes t).done = false ∧ t ∉ q := by
    intro t
    rw [← Bool.not_eq_true, ← Bool.not_eq_true, hs.done, not_or]
  have hhanded : s.inside.filterMap (fun t => (s.pool.stopWaiters.1.nodes t).buf) = s.handed :=
    List.filterMap_congr (fun t _ => hs.buf t)
  refine ⟨
    { queue := hs.queue
      inside_nodup := h.inside_nodup
      inflight := hin.trans h.inflight
      waiting := fun t => ⟨fun ht => (by cases ht), fun ⟨hp, hd⟩ => ?_⟩
      returning_done := fun t ht => (hs.done t).mpr (Or.inl (h.returning_done t ht))
      awake := fun t ht hd => ?_
      all_nodup := hall.symm ▸ h.all_nodup
      all_perm := ?_
      job_free := fun j hj => ?_
      job_outside := fun t hj => ?_
      stopped := fun _ => rfl
      dtor_stopping := fun _ => hs.stopping
      answered := fun t ht hd => ?_
      null_served := fun _ _ _ _ => hs.stopping
      null_returned := fun _ _ => hs.stopping
      quiet := h.quiet
      releasing := h.releasing }, hs.stopping⟩
  · obtain ⟨hd, htq⟩ := (hundone t).mp hd
    exact absurd ((h.waiting t).mpr ⟨hp, hd⟩) htq
  · show (s.asleep t && !s.pool.stopWaiters.2.contains (s.pool.stopWaiters.1.nodes t).cv) = false
    rcases (hs.done t).mp hd with hd | htq
    · rw [h.awake t ht hd]
      rfl
    · have hcv := hs.notified t htq
      rw [hs.cv t]
      simp [hcv]
  · show s.pool.stopWaiters.1.all.Perm (s.pool.stopWaiters.1.free ++ s.held ++
      s.inside.filterMap (fun t => (s.pool.stopWaiters.1.nodes t).buf))
    rw [hhanded, hall, hfree]
    exact h.all_perm
  · rw [show s.stop.pc = s.pc from rfl, hpc] at hj
    cases hj
  · rw [show s.stop.pc = s.pc from rfl, hpc] at hj
    cases hj
  · show (t, (s.pool.stopWaiters.1.nodes t).buf) ∈ s.pool.stopWaiters.1.served
    rw [hs.served, hs.buf t]
    rcases (hs.done t).mp hd with hd | htq
    · exact List.mem_append_left _ (h.answered t ht hd)
    · rw [(h.queue.unserved t htq).2]
      exact List.mem_append_right _ (List.mem_map.mpr ⟨t, htq, rfl⟩)

/-- A thread that unlocks is still inside. -/
theorem inside_unlock (s : PoolSys B T) {t : T} (ht : t ∈ s.parked) :
    (s.parked.erase t ++ (s.returning ++ [t])).Perm s.inside := by
  rw [← List.append_assoc]
  refine (List.perm_append_singleton t _).trans ?_
  exact (List.perm_cons_erase ht).symm.append_right s.returning

/-- A waiter that was served unlocks. -/
theorem Inv.unlock (h : s.Inv q) {t : T} (ht : t ∈ s.parked) (hdone : (s.pool.nodes t).done = true) :
    ({ s with parked := s.parked.erase t, returning := s.returning ++ [t] } : PoolSys B T).Inv q := by
  have hparked : s.parked.Nodup := (List.nodup_append.mp h.inside_nodup).1
  have hperm := s.inside_unlock ht
  refine
    { h with
      inside_nodup := hperm.nodup_iff.mpr h.inside_nodup
      inflight := h.inflight.trans hperm.length_eq.symm
      waiting := fun u => ?_
      returning_done := fun u hu => ?_
      awake := fun u hu => h.awake u (List.mem_of_mem_erase hu)
      all_perm := h.all_perm.trans ((hperm.filterMap _).symm.append_left _)
      job_outside := fun u hj hu => h.job_outside u hj (hperm.mem_iff.mp hu)
      answered := fun u hu => h.answered u (hperm.mem_iff.mp hu)
      null_served := fun u hu => h.null_served u (hperm.mem_iff.mp hu)
      quiet := fun hd => ?_ }
  · rw [h.waiting u]
    constructor
    · rintro ⟨hu, hd⟩
      have hut : u ≠ t := by
        rintro rfl
        rw [hdone] at hd
        cases hd
      exact ⟨(List.mem_erase_of_ne hut).mpr hu, hd⟩
    · rintro ⟨hu, hd⟩
      exact ⟨List.mem_of_mem_erase hu, hd⟩
  · rcases List.mem_append.mp hu with hu | hu
    · exact h.returning_done u hu
    · rw [List.mem_singleton.mp hu]
      exact hdone
  · have hempty := h.quiet hd
    have hmem : t ∈ s.inside := List.mem_append_left _ ht
    rw [hempty] at hmem
    cases hmem

/-- A waiter that was served leaves the pool, with what it was handed. -/
theorem Inv.leave (h : s.Inv q) {t : T} (ht : t ∈ s.returning) :
    ({ s with
        pool := { s.pool with inflight := s.pool.inflight - 1 }
        returning := s.returning.erase t
        held := (s.pool.nodes t).buf.toList ++ s.held
        returned := s.returned ++ [(t, (s.pool.nodes t).buf)] } : PoolSys B T).Inv q := by
  have hret : s.returning.Nodup := (List.nodup_append.mp h.inside_nodup).2.1
  have hmem : t ∈ s.inside := List.mem_append_right _ ht
  have hperm : s.inside.Perm (t :: (s.parked ++ s.returning.erase t)) :=
    ((List.perm_cons_erase ht).append_left s.parked).trans List.perm_middle
  have hsub : ∀ u, u ∈ s.parked ++ s.returning.erase t → u ∈ s.inside := fun u hu =>
    hperm.mem_iff.mpr (List.mem_cons_of_mem t hu)
  have hhanded : s.handed.Perm ((s.pool.nodes t).buf.toList ++
      (s.parked ++ s.returning.erase t).filterMap (fun u => (s.pool.nodes u).buf)) := by
    refine (hperm.filterMap _).trans ?_
    cases hb : (s.pool.nodes t).buf with
    | none => simp [hb]
    | some b => simp [hb]
  refine
    { h with
      queue := ⟨h.queue.links, h.queue.count, h.queue.unserved, h.queue.order⟩
      inside_nodup := (List.nodup_cons.mp (hperm.nodup_iff.mp h.inside_nodup)).2
      inflight := ?_
      returning_done := fun u hu => h.returning_done u (List.mem_of_mem_erase hu)
      all_perm := ?_
      job_outside := fun u hj hu => h.job_outside u hj (hsub u hu)
      answered := fun u hu => h.answered u (hsub u hu)
      null_served := fun u hu => h.null_served u (hsub u hu)
      null_returned := fun u hu => ?_
      quiet := fun hd => ?_ }
  · show s.pool.inflight - 1 = (s.parked ++ s.returning.erase t).length
    rw [h.inflight, hperm.length_eq, List.length_cons, Nat.add_sub_cancel]
  · show s.pool.all.Perm (s.pool.free ++ ((s.pool.nodes t).buf.toList ++ s.held) ++
      (s.parked ++ s.returning.erase t).filterMap (fun u => (s.pool.nodes u).buf))
    refine h.all_perm.trans ((hhanded.append_left _).trans ?_)
    simp only [List.append_assoc]
    refine List.Perm.append_left _ ?_
    rw [← List.append_assoc, ← List.append_assoc]
    exact List.perm_append_comm.append_right _
  · rcases List.mem_append.mp hu with hu | hu
    · exact h.null_returned u hu
    · rw [List.mem_singleton, Prod.mk.injEq] at hu
      exact h.null_served t hmem (h.returning_done t ht) hu.2.symm
  · rw [h.quiet hd] at hmem
    cases hmem

/-- A job begins under a free mutex. -/
theorem Inv.request (h : s.Inv q) {j : Job T} (hj : ∀ t, j = .wait t → t ∉ s.inside) : ∃ q', (s.request j).Inv q' := by
  unfold PoolSys.request
  split
  · rename_i hfree
    exact ⟨q,
      { h with
        job_free := fun _ _ _ => hfree
        job_outside := fun t ht => hj t (by cases ht; rfl)
        releasing := fun _ hn => (by cases hn) }⟩
  · exact h.pullFirst hj

/-- One step of a pool. The allocator gives buffers that are not in use. -/
theorem Inv.step [DecidableEq B] (h : s.Inv q) {b b' : Budget} {e : PoolEv B T} {s' : PoolSys B T}
    (hfresh : ∀ x, e = .alloc (some x) → x ∉ s.pool.all) (hs : s.step b e = .ok (b', s')) : ∃ q', s'.Inv q' := by
  have hout : ∀ j, s.pc.job = some j → ∀ t, j = .wait t → t ∉ s.inside := fun j hj t ht => h.job_outside t (ht ▸ hj)
  -- the thread that holds the mutex goes on with its job
  have hgoOn : ∀ {pc : Pc T} {j : Job T}, s.pc.job = some j → pc.job = some j → (∀ n, pc ≠ .release n) →
      ∃ q', ({ s with pc := pc } : PoolSys B T).Inv q' := fun hj hj' hrel =>
    ⟨q, h.goOn (fun _ hk => Or.inl (hj.trans (hj'.symm.trans hk))) hrel⟩
  cases step_cases hs with
  | initNone hopen => exact ⟨q, h⟩
  | init count hopen => exact ⟨q, h.goOn (fun j hj => Or.inr ⟨count, by cases hj; rfl⟩) (fun _ hn => by cases hn)⟩
  | acquire hopen => exact h.request (fun _ ht => by cases ht)
  | acquireWait t hopen ht => exact h.request (fun u hu => by cases hu; exact ht)
  | load j hpc => exact hgoOn (by rw [hpc]; rfl) rfl (fun _ hn => by cases hn)
  | refused spurious j current hpc hround => exact h.refuse (hout j (by rw [hpc]; rfl))
  | reserved spurious j current b' hpc hround => exact hgoOn (by rw [hpc]; rfl) rfl (fun _ hn => by cases hn)
  | again spurious j current next hpc hround => exact hgoOn (by rw [hpc]; rfl) rfl (fun _ hn => by cases hn)
  | alloc j x hpc => exact h.grown (by rw [hpc]; rfl) (hfresh x rfl)
  | allocFailed j hpc => exact hgoOn (by rw [hpc]; rfl) rfl (fun _ hn => by cases hn)
  | giveBack j hpc => exact h.refuse (hout j (by rw [hpc]; rfl))
  | recycle bufs pool cvs hopen hnodup hheld hp =>
    exact ⟨_, h.recycled (h.queue.recycled hp) hnodup hheld hopen.1⟩
  | stopWaiters hopen => exact ⟨[], (h.stop (by rw [hopen.1]; rfl)).1⟩
  | wakeUp t ht =>
    refine ⟨q, { h with awake := fun u hu hd => ?_ }⟩
    dsimp only
    split
    · rfl
    · exact h.awake u hu hd
  | unlock t hopen ht hawake hdone => exact ⟨q, h.unlock ht hdone⟩
  | sleep t hopen ht hawake hdone =>
    refine ⟨q, { h with awake := fun u hu hd => ?_ }⟩
    have hut : u ≠ t := by
      rintro rfl
      exact hdone hd
    dsimp only
    rw [if_neg hut]
    exact h.awake u hu hd
  | leave t ht hdtor => exact ⟨q, h.leave ht⟩
  | dtorStop hopen hdtor =>
    obtain ⟨hinv, hstop⟩ := h.stop (by rw [hopen.1]; rfl)
    exact ⟨[],
      { hinv with
        dtor_stopping := fun _ => hstop
        quiet := fun hd => (by rcases hd with hd | hd <;> cases hd)
        releasing := fun n hn => (by cases hopen.1.symm.trans (show s.pc = .release n from hn)) }⟩
  | dtorBarrier hdtor hinflight =>
    have hempty : s.inside = [] := List.length_eq_zero_iff.mp (h.inflight.symm.trans hinflight)
    exact ⟨q,
      { h with
        dtor_stopping := fun _ => h.dtor_stopping (by rw [hdtor]; decide)
        quiet := fun _ => hempty
        releasing := fun _ _ => rfl }⟩
  | dtorClear hopen hdtor =>
    have hempty := h.quiet (Or.inl hdtor)
    exact ⟨q,
      { h with
        queue := ⟨h.queue.links, h.queue.count, h.queue.unserved, h.queue.order⟩
        all_nodup := List.nodup_nil
        all_perm := by
          show ([] : List B).Perm ([] ++ [] ++ s.inside.filterMap (fun t => (s.pool.nodes t).buf))
          rw [hempty]
          exact List.Perm.refl _
        job_free := fun _ hj => (by cases hj)
        job_outside := fun _ hj => (by cases hj)
        releasing := fun _ _ => hdtor }⟩
  | dtorRelease bytes hpc =>
    have hdtor := h.releasing bytes hpc
    exact ⟨q,
      { h.setIdle with
        dtor_stopping := fun _ => h.dtor_stopping (by rw [hdtor]; decide)
        quiet := fun _ => h.quiet (Or.inl hdtor)
        releasing := fun _ hn => (by cases hn) }⟩

/-- No step reads through a null pointer, or touches a pool that is gone. -/
theorem Inv.no_badAccess [DecidableEq B] (h : s.Inv q) (b : Budget) (e : PoolEv B T) :
    s.step b e ≠ .error .badAccess := by
  intro hs
  have hgone : ∀ t ∈ s.inside, s.dtor ≠ .gone := by
    intro t ht hd
    rw [h.quiet (Or.inr hd)] at ht
    cases ht
  cases e with
  | init count => cases (when_eq_badAccess.mp hs).2
  | acquire => cases (when_eq_badAccess.mp hs).2
  | acquireWait t => cases (when_eq_badAccess.mp hs).2
  | load =>
    dsimp only [PoolSys.step] at hs
    split at hs <;> cases hs
  | tryReserve spurious =>
    dsimp only [PoolSys.step] at hs
    split at hs
    · split at hs <;> cases hs
    · cases hs
  | alloc buf =>
    dsimp only [PoolSys.step] at hs
    split at hs <;> cases hs
  | giveBack =>
    dsimp only [PoolSys.step] at hs
    split at hs <;> cases hs
  | recycle bufs =>
    obtain ⟨-, hs⟩ := when_eq_badAccess.mp hs
    obtain ⟨p, cvs, hp, -⟩ := h.queue.recycleAll bufs
    rw [hp] at hs
    cases hs
  | stopWaiters => cases (when_eq_badAccess.mp hs).2
  | wakeUp t => cases (when_eq_badAccess.mp hs).2
  | relock t =>
    obtain ⟨⟨-, ht, -⟩, hs⟩ := when_eq_badAccess.mp hs
    rw [if_neg (hgone t (List.mem_append_left _ ht))] at hs
    split at hs <;> cases hs
  | leave t =>
    obtain ⟨ht, hs⟩ := when_eq_badAccess.mp hs
    rw [if_neg (hgone t (List.mem_append_right _ ht))] at hs
    cases hs
  | dtorStop => cases (when_eq_badAccess.mp hs).2
  | dtorBarrier => cases (when_eq_badAccess.mp hs).2
  | dtorClear => cases (when_eq_badAccess.mp hs).2
  | dtorRelease =>
    dsimp only [PoolSys.step] at hs
    split at hs <;> cases hs

end

end PoolSys

end P8
