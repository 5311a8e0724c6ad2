import P8.Log.Cursor
import P8.Log.Discard
import P8.Session.Refines

/-!
# Streams: what the buffers of a session carry

A call that returns true has its record or its sample on the buffers of its writer, behind what is there. The buffers go on to the
ready queue and the worker's batch, always all of a writer's at once, so that in each of these places the buffers of any writers
one selects carry whole items (`Woven`). `Tracked` says so of all places, and that the items of a writer, in the order of the
places, are the calls it has accepted.

Two things can go wrong, and both are a matter of single log calls: a record is discarded that shares its first buffer with
others, or the cursor gets past the end of a buffer. `OfCall` is how a condition on the calls of one writer is one on the steps
of a session.
-/

namespace P8

open Bytes Framing Sources

/-! ## Items -/

/-- The bytes an accepted call has left: a record, or a sample with its id and value. -/
def Item.LiesOn (hash : CStr → UInt32 → UInt64) : Item → List UInt8 → Prop
  | .log a, bytes => IsItem hash a bytes
  | .mtk id value, bytes =>
    ∃ it : MtkItemDat, it.sample = (id, value) ∧ it.size = UInt16.ofNat sizeofMtkItemDat ∧ bytes = it.encode

/-- A record that lies somewhere has bytes. -/
theorem Item.LiesOn.ne_nil {hash : CStr → UInt32 → UInt64} {i : Item} {bytes : List UInt8} (h : i.LiesOn hash bytes) :
    bytes ≠ [] := by
  refine List.ne_nil_of_length_pos ?_
  cases i with
  | log a =>
    obtain ⟨l, env, d, g, gap, -, -, -, rfl, -⟩ := h
    have hpos : 0 < sizeofLogItemDat := by decide
    simp only [List.length_append, LogItemDat.length_encode]
    omega
  | mtk id value =>
    obtain ⟨it, -, -, rfl⟩ := h
    rw [MtkItemDat.length_encode]
    decide

/-- From the writer `t` to `t'` the calls `new` have left their items behind those there were. -/
def TlsWriter.Adds (hash : CStr → UInt32 → UInt64) (t t' : TlsWriter) (new : List Item) : Prop :=
  ∀ items : List (Item × List UInt8), Framed (t.bufs.map DataBuf.frame) (items.map Prod.snd) →
    ∃ added, Framed (t'.bufs.map DataBuf.frame) ((items ++ added).map Prod.snd) ∧ added.map Prod.fst = new ∧
      ∀ x ∈ added, x.1.LiesOn hash x.2

/-- A log writer alone. -/
def LogSys.alone (l : Log) (core : Core) : LogSys := ⟨l, core, [], [], []⟩

section

variable {hash : CStr → UInt32 → UInt64} {core : Core} {l : Log} {env : SendEnv} {c : Call}

/-- A call of `send` adds its record if it returns true, and nothing otherwise; a record it discards begins right behind the header
of its buffer. -/
theorem send_adds (h : l.Inv core) (hc : core.Sound) (hpulled : env.pulled = false) {o : Sent}
    (ho : l.send hash core env c = .ok o) {out : Except Fault LogSys}
    (hfresh : LogSys.BeginsFresh hash (LogSys.alone l core) (.send env c) out) :
    (TlsWriter.log l).Adds hash (.log o.log) (if o.outcome.result then [.log ⟨c, o.core⟩] else []) := by
  intro items hitems
  have hnone := send_unpulled hpulled ho
  have hcases := send_cases hash env c h hc
  rw [ho] at hcases
  have hframes : Framed (LogSys.alone l core).frames (items.map Prod.snd) := hitems
  cases hcases with
  | idle o hp hi =>
    have hres : o.outcome.result = false := by
      rcases hi.outcome with h1 | h1 <;> rw [h1] <;> rfl
    refine ⟨[], ?_, by rw [hres]; rfl, by simp⟩
    rw [List.append_nil]
    show Framed (o.log.bufs.map DataBuf.frame) _
    rcases hi.bufs with ⟨hsame, -⟩ | ⟨b, hframe, -, -, hnew⟩
    · rw [hnone, List.nil_append] at hsame
      rw [hsame]
      exact hitems
    · rw [hnone, List.nil_append] at hnew
      rw [hnew, List.map_append, List.map_singleton, hframe]
      exact hitems.snoc_empty
  | accepted p l' g gap tp hp hb hroom hf =>
    have hnone : p.delivered = [] := hnone
    have hnew := hf.frames (Begins.frames (s := LogSys.alone l core) hb hframes)
    rw [hnone, LogSys.alone, List.nil_append, List.nil_append] at hnew
    refine ⟨[(.log ⟨c, p.core⟩, (finalHdr p.log env p.core.attrDescs p.desc c g).encode ++
        Framing.payload (bodyPieces p.core.attrDescs p.desc c) ++ gap)], ?_, rfl, ?_⟩
    · rw [List.map_append]
      exact hnew
    · intro x hx
      rw [List.mem_singleton.mp hx]
      exact ⟨p.log, env, p.desc, g, gap, hb.desc, (hb.sound _ _ hb.desc).1, hb.argList, rfl, hf.gap_length⟩
  | abandoned p l' released hp hb hroom hd =>
    have hnone : p.delivered = [] := hnone
    have hstart : p.log.bufUsed = sizeofDataBufHdr := by
      simp only [LogSys.BeginsFresh, LogSys.alone, hp] at hfresh
      exact hfresh (Nat.le_trans (Nat.le_add_right _ _) hroom.hi) hd.refused
    have hcur : p.log.curBytes p.buffer = [] := by
      rw [Log.curBytes, hstart, Nat.sub_self]
      rfl
    have hpre := Begins.frames (s := LogSys.alone l core) hb hframes
    rw [hcur, hnone, LogSys.alone, List.nil_append, List.nil_append] at hpre
    refine ⟨[], ?_, rfl, by simp⟩
    rw [List.append_nil]
    show Framed (l'.bufs.map DataBuf.frame) _
    rw [hd.bufs_eq]
    exact hpre.of_snoc_empty

/-- A buffer of samples, as a reader cuts it. -/
theorem DataBuf.Holds.frame_eq {b : DataBuf} {items : List MtkItemDat} (h : b.Holds items) (hplain : b.frame.cont = false) :
    b.frame = ⟨items.flatMap MtkItemDat.encode, false⟩ := by
  have hdata : b.frame.data = items.flatMap MtkItemDat.encode := by
    rw [← h.bytes, DataBuf.frame, h.size_eq, mtkUsed, Nat.add_sub_cancel_left]
  rw [← hdata, ← hplain]

/-- A call of `emit` adds its sample if it returns true, and nothing otherwise. -/
theorem emit_adds {m : Mtk} {env : EmitEnv} {id : Int32} {value : UInt64} (h : m.Inv)
    (hplain : ∀ b ∈ m.bufs, b.frame.cont = false) (hpulled : env.pulled = false) {o : Emitted}
    (ho : m.emit env id value = .ok o) (hplain' : ∀ b ∈ o.mtk.bufs, b.frame.cont = false) :
    (TlsWriter.mtk m).Adds hash (.mtk o.mtk) (if o.result then [.mtk id value] else []) := by
  intro items hitems
  have hnone := (emit_unpulled h hpulled ho).1
  obtain ⟨o', ho', hcases⟩ := emit_cases h env id value
  rw [ho] at ho'
  cases ho'
  have hitems : Framed (m.bufs.map DataBuf.frame) (items.map Prod.snd) := hitems
  have hsame : o.result = false → o.mtk.bufs = m.bufs → ∃ added : List (Item × List UInt8),
      Framed ((TlsWriter.mtk o.mtk).bufs.map DataBuf.frame) ((items ++ added).map Prod.snd) ∧
        added.map Prod.fst = (if o.result then [.mtk id value] else []) ∧ ∀ x ∈ added, x.1.LiesOn hash x.2 := by
    intro hres hbufs
    refine ⟨[], ?_, by rw [hres]; rfl, by simp⟩
    rw [List.append_nil]
    show Framed (o.mtk.bufs.map DataBuf.frame) _
    rw [hbufs]
    exact hitems
  cases hcases with
  | refused hk => exact hsame rfl rfl
  | dropped hk hwait hbufs hdropped hresult hinv =>
    rw [hnone, List.nil_append] at hbufs
    exact hsame hresult hbufs
  | written b b' its hw hinv =>
    have hbufs := hw.bufs
    rw [hnone, List.nil_append] at hbufs
    have hb' := hw.holds'.frame_eq (hplain' b' (by rw [hbufs]; simp))
    -- the frame in front of the sample: what was in the current buffer, or nothing
    have hpre : Framed (m.fragments.map DataBuf.frame ++ [⟨its.flatMap MtkItemDat.encode, false⟩]) (items.map Prod.snd) := by
      rcases hw.source with hbuffer | ⟨hbuffer, b₀, -, rfl⟩
      · have hb := hw.holds.frame_eq (hplain b (by simp [Mtk.bufs, hbuffer]))
        rw [← hb]
        simpa [Mtk.bufs, hbuffer] using hitems
      · have hempty := hw.holds.frame_eq (by rw [DataBuf.frame_start])
        rw [DataBuf.frame_start] at hempty
        rw [← hempty]
        refine Framed.snoc_empty ?_
        simpa [Mtk.bufs, hbuffer] using hitems
    have hne : (Mtk.item env id value).encode ≠ [] := by
      refine List.ne_nil_of_length_pos ?_
      rw [MtkItemDat.length_encode]
      decide
    have hnew := hpre.spill [] hne (Spill.refl _)
    refine ⟨[(.mtk id value, (Mtk.item env id value).encode)], ?_, by rw [hw.result]; rfl, ?_⟩
    · show Framed (o.mtk.bufs.map DataBuf.frame) _
      rw [hbufs, List.map_append, List.map_singleton, hb', List.flatMap_append, List.flatMap_singleton, List.map_append]
      simpa using hnew
    · intro x hx
      rw [List.mem_singleton.mp hx]
      exact ⟨Mtk.item env id value, rfl, rfl, rfl⟩

end

/-! ## Buffers of several writers -/

/-- What an accepted call has left, with its writer. -/
structure Laid (W : Type) where
  writer : W
  item : Item
  bytes : List UInt8

/-- The accepted call. -/
def Laid.call {W : Type} (x : Laid W) : W × Item := (x.writer, x.item)

/-- The items of one writer. -/
def Laid.ofWriter {W : Type} (w : W) (items : List (Item × List UInt8)) : List (Laid W) :=
  items.map fun x => ⟨w, x.1, x.2⟩

/-- Buffers that have left their writers carry these items. -/
structure Streams {W : Type} (hash : CStr → UInt32 → UInt64) (bufs : List (Handed W)) (items : List (Laid W)) : Prop where
  woven : Woven (bufs.map fun h => (h.writer, h.buf.frame)) (items.map fun x => (x.writer, x.bytes))
  lies : ∀ x ∈ items, x.item.LiesOn hash x.bytes

namespace Streams

variable {W : Type} {hash : CStr → UInt32 → UInt64} {bufs bufs' : List (Handed W)} {items items' : List (Laid W)}

theorem nil : Streams hash ([] : List (Handed W)) [] := ⟨Woven.nil, fun _ hx => by cases hx⟩

/-- Two sequences of buffers, one behind the other. -/
theorem append (h : Streams hash bufs items) (h' : Streams hash bufs' items') :
    Streams hash (bufs ++ bufs') (items ++ items') := by
  refine ⟨?_, List.forall_mem_append.mpr ⟨h.lies, h'.lies⟩⟩
  rw [List.map_append, List.map_append]
  exact h.woven.append h'.woven

/-- The buffers of one writer, with its records. -/
theorem ofWriter {bufs : List DataBuf} {items : List (Item × List UInt8)}
    (h : Framed (bufs.map DataBuf.frame) (items.map Prod.snd)) (hlies : ∀ x ∈ items, x.1.LiesOn hash x.2) (w : W) :
    Streams hash (bufs.map (Handed.mk w)) (Laid.ofWriter w items) := by
  have hwoven := Woven.one h w
  rw [List.map_map, List.map_map] at hwoven
  refine ⟨?_, fun x hx => ?_⟩
  · rw [Laid.ofWriter, List.map_map, List.map_map]
    exact hwoven
  · obtain ⟨y, hy, rfl⟩ := List.mem_map.mp hx
    exact hlies y hy

/-- Where no buffer of a writer is, none of its items are. -/
theorem no_items (h : Streams hash bufs items) {w : W} (hw : ∀ x ∈ bufs, x.writer ≠ w) : ∀ x ∈ items, x.writer ≠ w := by
  intro x hx
  refine h.woven.no_items (fun y hy => ?_) (fun f hf => ?_) (x.writer, x.bytes)
    (List.mem_map_of_mem (f := fun x : Laid W => (x.writer, x.bytes)) hx)
  · obtain ⟨z, hz, rfl⟩ := List.mem_map.mp hy
    exact (h.lies z hz).ne_nil
  · obtain ⟨z, hz, rfl⟩ := List.mem_map.mp hf
    exact hw z hz

/-- Where no buffer is, no item is. -/
theorem nil_items (h : Streams hash [] items) : items = [] := by
  refine List.eq_nil_iff_forall_not_mem.mpr fun x hx => ?_
  exact h.no_items (w := x.writer) (fun y hy => (by cases hy)) x hx rfl

end Streams

section

variable {W : Type} [DecidableEq W]

/-- A writer's items are all its own. -/
theorem ofSource_ofWriter (w u : W) (items : List (Item × List UInt8)) :
    (ofSource Laid.writer u (Laid.ofWriter w items)).map Laid.call =
      if u = w then items.map fun x => (w, x.1) else [] := by
  have hown : ∀ x ∈ Laid.ofWriter w items, x.writer = w := by
    intro x hx
    obtain ⟨y, -, rfl⟩ := List.mem_map.mp hx
    rfl
  split
  · rename_i hu
    subst hu
    rw [ofSource_self hown, Laid.ofWriter, List.map_map]
    rfl
  · rename_i hu
    rw [ofSource_other hown (Ne.symm hu)]
    rfl

end

/-! ## A session -/

instance LogSys.BeginsFresh.decidable (hash : CStr → UInt32 → UInt64) (s : LogSys) :
    (op : Op) → (out : Except Fault LogSys) → Decidable (BeginsFresh hash s op out)
  | .send env c, _ =>
    match h : s.log.prepare hash s.core env c with
    | .error _ => isTrue (by rw [BeginsFresh, h]; trivial)
    | .ok p =>
      decidable_of_iff (p.log.bufUsed ≤ bufMax →
          (∃ i, i < rotations p.core.attrDescs p.desc c p.log.bufUsed ∧ env.acquire i = none) →
            p.log.bufUsed = sizeofDataBufHdr)
        (by rw [BeginsFresh, h])
  | .pull, _ | .attrRegister _ _ _, _ | .resolveLogDesc _ _ _ _ _ _, _ | .setVerbosity _, _ => isTrue trivial

namespace Session

variable {W B F : Type} [DecidableEq W] [DecidableEq B] {hash : CStr → UInt32 → UInt64} {ops : FileOps F}
  {s s' : Session W B F} {metrics : W → Bool} {threadId : W → UInt32}

/-- A condition on the calls of one log writer, of a step of a session. -/
def OfCall (R : LogSys → Op → Except Fault LogSys → Prop) (hash : CStr → UInt32 → UInt64) (s : Session W B F) :
    SessionEv W B → Prop
  | .send w module env c => ∀ l, s.tls w = .log l →
    (s.phase w = .live ∧ env.pulled = false ∧ ∀ i ∈ module, i < s.svc.regs.logMods.length) →
      let op := Op.send env { c with module := s.svc.regs.moduleOf module }
      R (LogSys.alone l s.svc.regs.core) op ((LogSys.alone l s.svc.regs.core).step hash op)
  | _ => True

instance OfCall.decidable {R : LogSys → Op → Except Fault LogSys → Prop} [∀ s op out, Decidable (R s op out)]
    (hash : CStr → UInt32 → UInt64) (s : Session W B F) : (ev : SessionEv W B) → Decidable (OfCall R hash s ev)
  | .send w module env c =>
    match h : s.tls w with
    | .mtk _ => isTrue fun l htls => by rw [h] at htls; cases htls
    | .log l =>
      let op := Op.send env { c with module := s.svc.regs.moduleOf module }
      decidable_of_iff ((s.phase w = .live ∧ env.pulled = false ∧ ∀ i ∈ module, i < s.svc.regs.logMods.length) →
          R (LogSys.alone l s.svc.regs.core) op ((LogSys.alone l s.svc.regs.core).step hash op))
        ⟨fun hR l' hl' => by rw [h] at hl'; cases hl'; exact hR, fun hR => hR l h⟩
  | .service _ | .setVerbosity _ _ | .attach _ | .registerWriter _ | .emit _ _ _ _ | .corePush _ | .pullDropped _
  | .addDropped _ | .unregister _ | .release _ | .coreRelease | .poll | .worker _ _ => isTrue trivial

/-- The items of a session, in each of the places where their buffers can be: those written, in the worker's batch and in the ready
queue, and those the writers hold. -/
structure Placed (W : Type) where
  out : List (Laid W)
  next : List (Laid W)
  queued : List (Laid W)
  held : W → List (Item × List UInt8)

/-- The buffers of a session carry these items, which in this order are what each writer has accepted. -/
structure Places (hash : CStr → UInt32 → UInt64) (s : Session W B F) (p : Placed W) : Prop where
  written : Streams hash s.written p.out
  batch : Streams hash s.batch p.next
  ready : Streams hash s.ready p.queued
  tls : ∀ w, Framed ((s.tls w).bufs.map DataBuf.frame) ((p.held w).map Prod.snd)
  lies : ∀ w, ∀ x ∈ p.held w, x.1.LiesOn hash x.2
  accepted : ∀ w, ofSource Prod.fst w s.accepted =
    (ofSource Laid.writer w (p.out ++ p.next ++ p.queued)).map Laid.call ++ (p.held w).map fun x => (w, x.1)

/-- The buffers of a session carry what its writers have accepted. -/
def Tracked (hash : CStr → UInt32 → UInt64) (s : Session W B F) : Prop := ∃ p, s.Places hash p

/-- How items move in a step: a writer's go on and never back; the worker's batch takes all of the ready queue and all a writer
holds, and nothing else, and the sink takes all of the batch. -/
structure Onward (s s' : Session W B F) (p p' : Placed W) : Prop where
  out : p.out <+: p'.out
  next : p.out ++ p.next <+: p'.out ++ p'.next
  queued : ∀ w, ofSource Laid.writer w (p.out ++ p.next ++ p.queued) <+:
    ofSource Laid.writer w (p'.out ++ p'.next ++ p'.queued)
  ready : s.pc = .ready → s'.pc = .drain → p'.out ++ p'.next = p.out ++ p.next ++ p.queued
  pull : ∀ w ws, s.pc = .pull (w :: ws) → s'.pc = .pull ws → p'.held w = []
  flush : s.pc = .flush → s'.pc = .recycle → p'.out = p.out ++ p.next
  taken : ∀ x ∈ p'.out ++ p'.next, x ∈ p.out ++ p.next ∨ s.pc = .ready ∧ s'.pc = .drain ∧ x ∈ p.queued ∨
    ∃ ws, s.pc = .pull (x.writer :: ws) ∧ s'.pc = .pull ws

omit [DecidableEq B] in
theorem tracked_init (ops : FileOps F) (heap : B → Mem) (sink : SinkFile F) (hdr : Mem) (metrics : W → Bool)
    (threadId : W → UInt32) : (init ops heap sink hdr metrics threadId).Tracked hash := by
  refine ⟨⟨[], [], [], fun _ => []⟩, Streams.nil, Streams.nil, Streams.nil, fun w => ?_, fun w x hx => (by cases hx), fun w => rfl⟩
  show Framed ((TlsWriter.init (metrics w) (threadId w)).bufs.map DataBuf.frame) []
  cases metrics w <;> exact framed_nil

variable {p p' : Placed W}

omit [DecidableEq B] in
/-- A step that is none of the worker's. -/
theorem Onward.of_pc (hpc : s'.pc = s.pc) (hout : p'.out = p.out) (hnext : p'.next = p.next)
    (hqueued : ∃ l, p'.queued = p.queued ++ l) : s.Onward s' p p' := by
  obtain ⟨l, hl⟩ := hqueued
  refine ⟨?_, ?_, fun w => ?_, fun h h' => ?_, fun w ws h h' => ?_, fun h h' => ?_, fun x hx => ?_⟩
  · rw [hout]
  · rw [hout, hnext]
  · rw [hout, hnext, hl, ← List.append_assoc]
    exact ofSource_first w _ l
  · rw [hpc, h] at h'
    cases h'
  · rw [hpc, h] at h'
    have hlen := congrArg List.length (CyclePc.pull.inj h')
    simp at hlen
  · rw [hpc, h] at h'
    cases h'
  · rw [hout, hnext] at hx
    exact Or.inl hx

omit [DecidableEq B] in
/-- A writer without buffers has no items left. -/
theorem Places.held_nil (h : s.Places hash p) {w : W} (hw : (s.tls w).bufs = []) : p.held w = [] := by
  have hframed := h.tls w
  rw [hw] at hframed
  refine List.eq_nil_iff_forall_not_mem.mpr (fun x hx => (h.lies w x hx).ne_nil ?_)
  exact List.flatten_eq_nil_iff.mp hframed.stream_eq.symm x.2 (List.mem_map_of_mem hx)

omit [DecidableEq B] in
/-- All a writer holds goes to another place. -/
theorem Places.taken (h : s.Places hash p) (w : W) :
    Streams hash ((s.tls w).bufs.map (Handed.mk w)) (Laid.ofWriter w (p.held w)) :=
  Streams.ofWriter (h.tls w) (h.lies w) w

omit [DecidableEq B] in
/-- A writer that has given all away. -/
theorem Places.emptied (h : s.Places hash p) {w : W} {t : TlsWriter} (ht : t.bufs = []) :
    (∀ u, Framed ((Function.update s.tls w t u).bufs.map DataBuf.frame) ((Function.update p.held w [] u).map Prod.snd)) ∧
      ∀ u, ∀ x ∈ Function.update p.held w [] u, x.1.LiesOn hash x.2 := by
  constructor
  · intro u
    by_cases hu : u = w
    · subst hu
      rw [Function.update_self, Function.update_self, ht]
      exact framed_nil
    · rw [Function.update_of_ne hu, Function.update_of_ne hu]
      exact h.tls u
  · intro u x hx
    by_cases hu : u = w
    · subst hu
      rw [Function.update_self] at hx
      cases hx
    · rw [Function.update_of_ne hu] at hx
      exact h.lies u x hx

omit [DecidableEq B] in
/-- A call of a writer that leaves its items behind those the writer has. -/
theorem Places.call (h : s.Places hash p) {w : W} {t : TlsWriter} {new : List Item}
    (hadds : (s.tls w).Adds hash t new) {s' : Session W B F}
    (hs' : s' = { s.setTls w t with svc := s'.svc, accepted := s.accepted ++ new.map (Prod.mk w) }) :
    ∃ p', s'.Places hash p' ∧ s.Onward s' p p' := by
  obtain ⟨added, hframed, hnew, hlies⟩ := hadds (p.held w) (h.tls w)
  have hpc : s'.pc = s.pc := by rw [hs']; rfl
  refine ⟨{ p with held := Function.update p.held w (p.held w ++ added) }, ?_, Onward.of_pc hpc rfl rfl ⟨[], by simp⟩⟩
  rw [hs']
  refine ⟨h.written, h.batch, h.ready, fun u => ?_, fun u x hx => ?_, fun u => ?_⟩
  · show Framed ((Function.update s.tls w t u).bufs.map DataBuf.frame)
      ((Function.update p.held w (p.held w ++ added) u).map Prod.snd)
    by_cases hu : u = w
    · subst hu
      rw [Function.update_self, Function.update_self]
      exact hframed
    · rw [Function.update_of_ne hu, Function.update_of_ne hu]
      exact h.tls u
  · dsimp only at hx
    by_cases hu : u = w
    · subst hu
      rw [Function.update_self] at hx
      exact (List.mem_append.mp hx).elim (h.lies u x) (hlies x)
    · rw [Function.update_of_ne hu] at hx
      exact h.lies u x hx
  · have hown : ∀ x ∈ new.map (Prod.mk w), x.1 = w := by
      intro x hx
      obtain ⟨i, -, rfl⟩ := List.mem_map.mp hx
      rfl
    dsimp only
    rw [ofSource_append, h.accepted u]
    by_cases hu : u = w
    · subst hu
      rw [ofSource_self hown, Function.update_self, List.map_append, ← List.append_assoc, ← hnew, List.map_map]
      rfl
    · rw [ofSource_other hown (Ne.symm hu), Function.update_of_ne hu, List.append_nil]

omit [DecidableEq B] in
/-- What is taken from the writer `w` stands in front of what the writers hold then. -/
theorem accepted_taken (held : W → List (Item × List UInt8)) (w u : W) :
    (ofSource Laid.writer u (Laid.ofWriter w (held w))).map Laid.call ++
        (Function.update held w [] u).map (fun x => (u, x.1)) = (held u).map fun x => (u, x.1) := by
  rw [ofSource_ofWriter]
  by_cases hu : u = w
  · subst hu
    rw [if_pos rfl, Function.update_self, List.map_nil, List.append_nil]
  · rw [if_neg hu, Function.update_of_ne hu, List.nil_append]

omit [DecidableEq B] in
/-- A writer that holds items has none in the ready queue. -/
theorem Places.swap (h : s.Places hash p) (hflows : s.Flows) (w u : W) :
    ofSource Laid.writer u (Laid.ofWriter w (p.held w) ++ p.queued) =
      ofSource Laid.writer u (p.queued ++ Laid.ofWriter w (p.held w)) := by
  by_cases hready : ∃ x ∈ s.ready, x.writer = w
  · obtain ⟨x, hx, rfl⟩ := hready
    rw [h.held_nil (hflows.past hx), Laid.ofWriter, List.map_nil, List.nil_append, List.append_nil]
  · have hnone := h.ready.no_items (w := w) (fun x hx heq => hready ⟨x, hx, heq⟩)
    rw [ofSource_append, ofSource_append]
    by_cases hu : u = w
    · subst hu
      have hqueued : ofSource Laid.writer u p.queued = [] := by
        rw [ofSource, List.filter_eq_nil_iff]
        intro x hx
        simpa using hnone x hx
      rw [hqueued, List.append_nil, List.nil_append]
    · have hmine : ofSource Laid.writer u (Laid.ofWriter w (p.held w)) = [] := by
        refine ofSource_other (v := w) (fun x hx => ?_) (Ne.symm hu)
        obtain ⟨y, -, rfl⟩ := List.mem_map.mp hx
        rfl
      rw [hmine, List.nil_append, List.append_nil]

omit [DecidableEq B] in
/-- The statistics move no items. -/
theorem Places.dropsOnly (h : s.Places hash p) (hs : s.DropsOnly s') : ∃ p', s'.Places hash p' ∧ s.Onward s' p p' := by
  have hbufs := hs.bufs
  have hsame := hs.same
  refine ⟨p, ⟨?_, ?_, ?_, fun w => by rw [hbufs w]; exact h.tls w, h.lies, ?_⟩, Onward.of_pc ?_ rfl rfl ⟨[], by simp⟩⟩
  · rw [hsame]
    exact h.written
  · rw [hsame]
    exact h.batch
  · rw [hsame]
    exact h.ready
  · rw [hsame]
    exact h.accepted
  · rw [hsame]

/-- A step of the worker moves items on. -/
theorem Places.workerStep (h : s.Places hash p) (hflows : s.Flows) {signal grown : Bool}
    (hs : WorkerSteps ops s signal grown s') : ∃ p', s'.Places hash p' ∧ s.Onward s' p p' := by
  have hrefl : ∀ {s' : Session W B F}, s.pc ≠ .ready → (∀ w ws, s.pc ≠ .pull (w :: ws)) → s.pc ≠ .flush → s.Onward s' p p :=
    fun h1 h2 h3 => ⟨List.prefix_refl _, List.prefix_refl _, fun _ => List.prefix_refl _, fun hpc => absurd hpc h1,
      fun w ws hpc => absurd hpc (h2 w ws), fun hpc => absurd hpc h3, fun _ hx => Or.inl hx⟩
  cases hs with
  | wait hpc _ | svc _ hpc _ | writeSvc _ _ _ _ hpc _ _ _ | drain hpc | pulled hpc | recycle hpc =>
    exact ⟨p, { h with }, hrefl (by simp [hpc]) (by simp [hpc]) (by simp [hpc])⟩
  | ready hpc =>
    have hall : p.out ++ (p.next ++ p.queued) = p.out ++ p.next ++ p.queued := (List.append_assoc ..).symm
    refine ⟨{ p with next := p.next ++ p.queued, queued := [] },
      { h with batch := h.batch.append h.ready, ready := Streams.nil, accepted := fun u => ?_ },
      { out := List.prefix_refl _
        next := ?_
        queued := fun w => ?_
        ready := fun _ _ => hall
        pull := fun w ws h => absurd h (by simp [hpc])
        flush := fun h => absurd h (by simp [hpc])
        taken := fun x hx => ?_ }⟩
    · dsimp only
      rw [List.append_nil, hall]
      exact h.accepted u
    · dsimp only
      rw [hall]
      exact List.prefix_append _ _
    · dsimp only
      rw [List.append_nil, hall]
    · dsimp only at hx
      rw [hall] at hx
      exact (List.mem_append.mp hx).imp_right fun hx => Or.inl ⟨hpc, rfl, hx⟩
  | pull w ws hpc =>
    obtain ⟨hbufs, hempty⟩ := (s.tls w).pull_bufs
    obtain ⟨htls, hlies⟩ := h.emptied (w := w) hempty
    have htaken := h.taken w
    rw [← hbufs] at htaken
    -- the writer's items are in front of those of the ready queue now, where it has none
    have hswap : ∀ u, ofSource Laid.writer u (p.out ++ (p.next ++ Laid.ofWriter w (p.held w)) ++ p.queued) =
        ofSource Laid.writer u (p.out ++ p.next ++ p.queued ++ Laid.ofWriter w (p.held w)) := by
      intro u
      have hfront : ∀ l : List (Laid W), ofSource Laid.writer u (p.out ++ p.next ++ l) =
          ofSource Laid.writer u (p.out ++ p.next) ++ ofSource Laid.writer u l := fun l => ofSource_append
      rw [← List.append_assoc, List.append_assoc (p.out ++ p.next), List.append_assoc (p.out ++ p.next), hfront, hfront,
        h.swap hflows w u]
    refine ⟨{ p with next := p.next ++ Laid.ofWriter w (p.held w), held := Function.update p.held w [] },
      { h with batch := h.batch.append htaken, tls := htls, lies := hlies, accepted := fun u => ?_ },
      { out := List.prefix_refl _
        next := ?_
        queued := fun u => ?_
        ready := fun h => absurd h (by simp [hpc])
        pull := fun v vs hv _ => ?_
        flush := fun h => absurd h (by simp [hpc])
        taken := fun x hx => ?_ }⟩
    · have hacc := h.accepted u
      rw [← accepted_taken p.held w u, ← List.append_assoc, ← List.map_append, ← ofSource_append] at hacc
      dsimp only
      rw [hswap]
      exact hacc
    · dsimp only
      rw [← List.append_assoc]
      exact List.prefix_append _ _
    · dsimp only
      rw [hswap]
      exact ofSource_first u _ _
    · rw [hpc] at hv
      rw [← (List.cons.inj (CyclePc.pull.inj hv)).1]
      exact Function.update_self ..
    · dsimp only at hx
      rw [← List.append_assoc] at hx
      refine (List.mem_append.mp hx).imp_right fun hx => Or.inr ⟨ws, ?_, rfl⟩
      obtain ⟨y, -, rfl⟩ := List.mem_map.mp hx
      exact hpc
  | poll hpc hbusy => exact h.dropsOnly s.dropsOnly_pollStep
  | flush sink ok hpc hidle hsink =>
    refine ⟨{ p with out := p.out ++ p.next, next := [] },
      { h with written := h.written.append h.batch, batch := Streams.nil, accepted := fun u => ?_ },
      { out := List.prefix_append _ _
        next := ?_
        queued := fun w => ?_
        ready := fun h => absurd h (by simp [hpc])
        pull := fun w ws h => absurd h (by simp [hpc])
        flush := fun _ _ => rfl
        taken := fun x hx => Or.inl (by simpa using hx) }⟩
    · dsimp only
      rw [List.append_nil]
      exact h.accepted u
    · dsimp only
      rw [List.append_nil]
    · dsimp only
      rw [List.append_nil]

/-- Every step moves items on, if what it discards begins right behind the header of its buffer. -/
theorem Places.step (h : s.Places hash p) (hflows : s.Flows) (hi : s.Inv metrics threadId) {ev : SessionEv W B}
    (hfresh : OfCall (LogSys.BeginsFresh hash) hash s ev) (hs : s.step hash ops ev = .ok s') :
    ∃ p', s'.Places hash p' ∧ s.Onward s' p p' := by
  have hkept : ∀ {s' : Session W B F}, s'.written = s.written → s'.batch = s.batch → s'.ready = s.ready → s'.tls = s.tls →
      s'.accepted = s.accepted → s'.pc = s.pc → ∃ p', s'.Places hash p' ∧ s.Onward s' p p' := fun h1 h2 h3 h4 h5 hpc =>
    ⟨p, ⟨h1 ▸ h.written, h2 ▸ h.batch, h3 ▸ h.ready, h4 ▸ h.tls, h.lies, h5 ▸ h.accepted⟩,
      Onward.of_pc hpc rfl rfl ⟨[], by simp⟩⟩
  cases step_cases hs with
  | service _ _ _ _ | setVerbosity _ _ | attach _ _ _ | registerWriter _ _ _ | unregister _ _ _ _ | release _ _
  | coreRelease _ => exact hkept rfl rfl rfl rfl rfl rfl
  | send w module env c l o htls hphase hpulled hmodule ho =>
    have hw := hi.tls w
    rw [htls] at hw
    cases hw with
    | log l hkind hthread hinv hst =>
      have hadds := send_adds hinv hi.svc.sound hpulled ho (hfresh l htls ⟨hphase, hpulled, hmodule⟩)
      rw [← htls] at hadds
      refine h.call hadds ?_
      unfold afterSend
      cases o.outcome.result with
      | false => simp
      | true => rfl
  | emit w env id value m o htls hphase hpulled ho =>
    have hw := hi.tls w
    rw [htls] at hw
    have hw' := hw.emit ho
    cases hw with
    | mtk m hkind hthread hinv hst hwhole hplain =>
      cases hw' with
      | mtk m' _ _ _ _ _ hplain' =>
        have hpulled' : ({ env with mtkCount := s.svc.regs.getMtkCount } : EmitEnv).pulled = false := hpulled
        have hadds : (TlsWriter.mtk m).Adds hash (.mtk o.mtk) (if o.result then [.mtk id value] else []) :=
          emit_adds hinv hplain hpulled' ho hplain'
        rw [← htls] at hadds
        refine h.call hadds ?_
        unfold afterEmit
        cases o.result with
        | false => simp
        | true => rfl
  | corePush w hphase =>
    obtain ⟨hbufs, hempty⟩ := (s.tls w).corePush_bufs
    obtain ⟨htls, hlies⟩ := h.emptied (w := w) hempty
    have htaken := h.taken w
    rw [← hbufs] at htaken
    refine ⟨{ p with queued := p.queued ++ Laid.ofWriter w (p.held w), held := Function.update p.held w [] },
      { h with ready := h.ready.append htaken, tls := htls, lies := hlies, accepted := fun u => ?_ },
      Onward.of_pc rfl rfl rfl ⟨_, rfl⟩⟩
    have hacc := h.accepted u
    rw [← accepted_taken p.held w u, ← List.append_assoc, ← List.map_append, ← ofSource_append] at hacc
    refine hacc.trans ?_
    simp only [List.append_assoc]
  | pullDropped w hphase hsettle => exact h.dropsOnly (s.dropsOnly_pullDropped w _)
  | addDropped w stats hsettle => exact h.dropsOnly (s.dropsOnly_rest _ _ _)
  | poll hpc hidle => exact h.dropsOnly (s.dropsOnly_rest _ _ _)
  | worker signal grown s' hw => exact h.workerStep hflows hw

/-- So the buffers go on carrying what was accepted. -/
theorem Tracked.step (h : s.Tracked hash) (hflows : s.Flows) (hi : s.Inv metrics threadId) {ev : SessionEv W B}
    (hfresh : OfCall (LogSys.BeginsFresh hash) hash s ev) (hs : s.step hash ops ev = .ok s') : s'.Tracked hash := by
  obtain ⟨p, h⟩ := h
  obtain ⟨p', h', -⟩ := h.step hflows hi hfresh hs
  exact ⟨p', h'⟩

end Session

end P8
