import P8.Log.Discard
import P8.Log.Reader

/-!
# Sizes: what an item says of itself

The lengths a call comes with, as numbers without a bound, and the fields of its item's header that are to hold them. The loops
of `send` add up in `size_t`; the header has 16 bits for the arguments and for the whole item, and 8 for the number of attributes.
So an item says its sizes exactly when the call's own sizes are not too large (`sizes_iff`), and `sizes_false` is a call with one
long string whose item does not.
-/

namespace P8

open Bytes Framing

/-! ## The sizes of a call -/

/-- The bytes of an argument: a string takes its length in front, and is cut at 65535 bytes. -/
def LogVarg.length (a : LogVarg) (v : VaArg) : Nat :=
  if a.isStr then 2 + min (a.strBytes v).length maxStr else a.size.toNat

/-- The bytes of arguments, from position `i` of the argument list on. -/
def argsLength (va : Nat → VaArg) : Nat → List LogVarg → Nat
  | _, [] => 0
  | i, a :: as => a.length (va i) + argsLength va (i + 1) as

/-- The bytes of a registered attribute: its id and its value. -/
def attrLength (p : AttrDesc × AttrVal) : Nat :=
  if p.1.type = .str then 6 + min (p.2.str.getD []).length maxStr else 12

/-- The bytes of the registered ones of a call's attributes. -/
def attrsLength (known : List AttrDesc) (as : List AttrVal) : Nat := ((registered known as).map attrLength).sum

/-- The arguments a call is written with: those of the descriptor of its source line, or of its format if the line is new. -/
def Core.argsOf (core : Core) (lineHash : UInt64) (format : Option CStr) : List LogVarg :=
  match core.logDescs lineHash with
  | some d => d.args
  | none => parseFormatString logMaxArgs format

/-- The header has room for what a call comes with. -/
structure Call.Fits (known : List AttrDesc) (args : List LogVarg) (c : Call) : Prop where
  size : sizeofLogItemDat + argsLength c.args 0 args + attrsLength known (c.attrs.getD []) ≤ 65528
  attrs : (registered known (c.attrs.getD [])).length ≤ 255

/-- The length of an argument's pieces. -/
theorem length_argPieces {a : LogVarg} (ha : a.Slot) (v : VaArg) : (payload (argPieces a v)).length = a.length v := by
  unfold argPieces LogVarg.length
  by_cases hstr : a.isStr = true
  · rw [if_pos hstr, if_pos hstr]
    exact length_payload_stringPieces _
  · rw [if_neg hstr, if_neg hstr, ← (length_fixedBytes ha (Bool.eq_false_iff.mpr hstr) v).1]
    simp [Piece.data]

/-- The length of the pieces of all arguments. -/
theorem length_argsPieces {as : List LogVarg} (ha : ∀ a ∈ as, a.Slot) (va : Nat → VaArg) (i : Nat) :
    (payload (argsPieces va i as)).length = argsLength va i as := by
  induction as generalizing i with
  | nil => rfl
  | cons a as ih =>
    rw [argsPieces, payload_append, List.length_append, length_argPieces (ha a List.mem_cons_self), argsLength,
      ih (fun b hb => ha b (List.mem_cons_of_mem a hb))]

/-- The length of an attribute's pieces. -/
theorem length_attrPieces (p : AttrDesc × AttrVal) : (payload (attrPieces p.1 p.2)).length = attrLength p := by
  unfold attrPieces attrLength
  split
  · rw [payload_cons, List.length_append, length_payload_stringPieces, Piece.data, length_idBytes, maxStr]
    omega
  · simp [Piece.data, length_idBytes]

/-- The length of the pieces of all attributes. -/
theorem length_attrsPieces (known : List AttrDesc) (as : List AttrVal) :
    (payload (attrsPieces known as)).length = attrsLength known as := by
  unfold attrsPieces attrsLength
  induction registered known as with
  | nil => rfl
  | cons p ps ih =>
    rw [List.flatMap_cons, payload_append, List.length_append, length_attrPieces, ih, List.map_cons, List.sum_cons]

/-- The size of a record is that of what the call comes with. -/
theorem recordSize_eq {d : LogDesc} (hd : ArgList logMaxArgs d.args) (known : List AttrDesc) (c : Call) :
    recordSize known d c = sizeofLogItemDat + argsLength c.args 0 d.args + attrsLength known (c.attrs.getD []) := by
  rw [recordSize, bodyPieces, payload_append, List.length_append, length_argsPieces hd.slot, length_attrsPieces,
    Nat.add_assoc]

/-! ## The item of an accepted call -/

/-- The header of an item says what is in the item: the bytes of the arguments, the number of the attributes, and the bytes of
all of it, which are rounded up to a multiple of 8 and go up to the next item. -/
structure Exact (known : List AttrDesc) (args : List LogVarg) (c : Call) (h : LogItemDat) (gap : List UInt8) : Prop where
  argsSize : h.argsSize.toNat = (payload (argsPieces c.args 0 args)).length
  attrsCount : h.attrsCount.toNat = (registered known (c.attrs.getD [])).length
  size : h.size.toNat = (sizeofLogItemDat + (payload (argsPieces c.args 0 args)).length +
    (payload (attrsPieces known (c.attrs.getD []))).length + 7) / 8 * 8
  next : h.size.toNat = sizeofLogItemDat + (payload (argsPieces c.args 0 args)).length +
    (payload (attrsPieces known (c.attrs.getD []))).length + gap.length

/-- The item of a call: header, arguments, attributes and a gap. -/
def itemOf (known : List AttrDesc) (args : List LogVarg) (c : Call) (h : LogItemDat) (gap : List UInt8) : List UInt8 :=
  h.encode ++ payload (argsPieces c.args 0 args) ++ payload (attrsPieces known (c.attrs.getD [])) ++ gap

/-- A number survives the 16 bits exactly when it has no more. -/
theorem toNat_ofNat16_iff (n : Nat) : (UInt16.ofNat n).toNat = n ↔ n ≤ 65535 := by
  rw [UInt16.toNat_ofNat']
  omega

/-- A count fits its byte up to 255. -/
theorem toNat_ofNat8_iff (n : Nat) : (UInt8.ofNat n).toNat = n ↔ n ≤ 255 := by
  rw [UInt8.toNat_ofNat']
  omega

/-- A finished header says what is in its item exactly when it has room for it. -/
theorem exact_finalHdr_iff (l : Log) (env : SendEnv) (g : LogItemDat) {known : List AttrDesc} {d : LogDesc} {c : Call}
    {gap : List UInt8} (hd : ArgList logMaxArgs d.args) (hgap : gap.length = padOf (recordSize known d c)) :
    Exact known d.args c (finalHdr l env known d c g) gap ↔ c.Fits known d.args := by
  have hsize := recordSize_eq hd known c
  have hargs := length_argsPieces hd.slot c.args 0
  have hattrs := length_attrsPieces known (c.attrs.getD [])
  have hround : recordSize known d c + padOf (recordSize known d c) = (recordSize known d c + 7) / 8 * 8 := by
    unfold padOf
    omega
  constructor
  · intro h
    have hfull : (UInt16.ofNat (recordSize known d c + padOf (recordSize known d c))).toNat = _ := h.size
    rw [hargs, hattrs, ← hsize, ← hround, toNat_ofNat16_iff] at hfull
    refine ⟨by omega, (toNat_ofNat8_iff _).mp h.attrsCount⟩
  · rintro ⟨hfull, hcount⟩
    have hpadded : (UInt16.ofNat (recordSize known d c + padOf (recordSize known d c))).toNat =
        recordSize known d c + padOf (recordSize known d c) := (toNat_ofNat16_iff _).mpr (by omega)
    exact
      { argsSize := (toNat_ofNat16_iff _).mpr (by omega)
        attrsCount := (toNat_ofNat8_iff _).mpr hcount
        size := by rw [hargs, hattrs, ← hsize, ← hround]; exact hpadded
        next := by rw [hargs, hattrs, ← hsize, hgap]; exact hpadded }

namespace LogSys

variable {hash : CStr → UInt32 → UInt64} {s : LogSys} {env : SendEnv} {c : Call}

/-- A record is written with the registered attributes, and the arguments, that its call finds. -/
theorem prepare_args {core : Core} {l : Log} {p : Prepared} (h : l.Inv core)
    (hp : l.prepare hash core env c = .ok p) :
    p.desc.args = core.argsOf (hash c.file c.line) c.format ∧ p.core.attrDescs = core.attrDescs := by
  unfold Log.prepare at hp
  split at hp
  · cases hp
  · split at hp
    · cases hp
    · obtain ⟨l₁, delivered, ob, ht⟩ : ∃ l₁ delivered ob, l.parkFull.takeBuffer env = (l₁, delivered, ob) := ⟨_, _, _, rfl⟩
      obtain ⟨hinv, -⟩ := takeBuffer_spec (parkFull_spec h).1 ht
      rw [ht] at hp
      cases ob with
      | none => cases hp
      | some b =>
        dsimp only [Log.lookupDesc] at hp
        cases hm : l₁.descMap (hash c.file c.line) with
        | some d =>
          rw [hm] at hp
          cases hp
          rw [Core.argsOf, hinv.descs _ _ hm]
          exact ⟨rfl, rfl⟩
        | none =>
          rw [hm] at hp
          dsimp only [Core.resolveLogDesc] at hp
          unfold Core.argsOf
          cases hreg : core.logDescs (hash c.file c.line) with
          | some d =>
            rw [hreg] at hp
            cases hp
            exact ⟨rfl, rfl⟩
          | none =>
            rw [hreg] at hp
            cases halloc : env.descAlloc with
            | false =>
              rw [halloc] at hp
              cases hp
            | true =>
              rw [halloc] at hp
              cases hp
              exact ⟨rfl, rfl⟩

/-- An accepted record is put behind the bytes that were there. -/
theorem stream_accepted {p : Prepared} {l' : Log} {g : LogItemDat} {gap : List UInt8} {tp : Tape UInt8}
    (hb : Begins hash s.core s.log c p) (hf : Finished p.log env p.core p.desc c p.buffer l' g gap tp) :
    stream (s.after c ⟨l', p.core, p.delivered, [], .accepted⟩).frames =
      stream s.frames ++ itemOf p.core.attrDescs p.desc.args c (finalHdr p.log env p.core.attrDescs p.desc c g) gap := by
  have hall := hf.spill.all_eq
  simp only [Tape.all, bodyPieces, payload_append] at hall
  have hleft : stream (tp.done ++ [⟨tp.cur ++ gap, false⟩]) = stream tp.done ++ tp.cur ++ gap := by simp [stream]
  rw [stream_begins hb, frames, after, List.map_append, stream_append, hf.bufs, hleft, hall, itemOf]
  simp

/-! ## Runs -/

/-- The item an accepted call adds to the stream says its sizes. -/
def SaysSizes (hash : CStr → UInt32 → UInt64) (s : LogSys) : Op → Except Fault LogSys → Prop
  | .send env c, _ => ∀ o, s.log.send hash s.core env c = .ok o → o.outcome.result = true →
    ∃ h gap, stream (s.after c o).frames =
        stream s.frames ++ itemOf s.core.attrDescs (s.core.argsOf (hash c.file c.line) c.format) c h gap ∧
      Exact s.core.attrDescs (s.core.argsOf (hash c.file c.line) c.format) c h gap
  | _, _ => True

/-- An accepted call comes with no more than the header has room for. -/
def SizesFit (hash : CStr → UInt32 → UInt64) (s : LogSys) : Op → Except Fault LogSys → Prop
  | .send env c, _ => ∀ o, s.log.send hash s.core env c = .ok o → o.outcome.result = true →
    c.Fits s.core.attrDescs (s.core.argsOf (hash c.file c.line) c.format)
  | _, _ => True

/-- An item has one header and one gap. -/
theorem itemOf_inj {known : List AttrDesc} {args : List LogVarg} {h h' : LogItemDat} {gap gap' : List UInt8}
    (heq : itemOf known args c h gap = itemOf known args c h' gap') : h = h' ∧ gap = gap' := by
  have hhdr := congrArg LogItemDat.decode heq
  simp only [itemOf, List.append_assoc, LogItemDat.decode_encode] at hhdr
  subst hhdr
  exact ⟨rfl, List.append_cancel_left heq⟩

/-- In one step the item of an accepted call says its sizes exactly when the header has room for them. -/
theorem Inv.saysSizes_iff (h : s.Inv) (op : Op) :
    SaysSizes hash s op (s.step hash op) ↔ SizesFit hash s op (s.step hash op) := by
  cases op with
  | send env c =>
    have hcases := send_cases hash env c h.log h.sound
    dsimp only [SaysSizes, SizesFit]
    refine forall_congr' fun o => forall_congr' fun ho => forall_congr' fun hres => ?_
    rw [ho] at hcases
    cases hcases with
    | idle o hp hi => rcases hi.outcome with h' | h' <;> rw [h'] at hres <;> cases hres
    | abandoned p l' released hp hb hroom hd => cases hres
    | accepted p l' g gap tp hp hb hroom hf =>
      obtain ⟨hargs, hattrs⟩ := prepare_args h.log hp
      have hstream := stream_accepted hb hf
      rw [hattrs, hargs] at hstream
      have hgap := hf.gap_length
      rw [hattrs] at hgap
      have hiff := exact_finalHdr_iff p.log env g hb.argList hgap
      rw [hargs] at hiff
      rw [← hiff]
      constructor
      · rintro ⟨h', gap', hstream', hexact⟩
        obtain ⟨rfl, rfl⟩ := itemOf_inj (List.append_cancel_left (hstream'.symm.trans hstream))
        exact hexact
      · exact fun hexact => ⟨_, gap, hstream, hexact⟩
  | pull => exact Iff.rfl
  | attrRegister alloc name type => exact Iff.rfl
  | resolveLogDesc alloc k file line function format => exact Iff.rfl
  | setVerbosity verbosity => exact Iff.rfl

/-- On a run of calls, pulls and registrations the items of the accepted calls say their sizes exactly when each of these calls
comes with at most 65528 bytes, the header included, and at most 255 registered attributes. -/
theorem sizes_iff (hash : CStr → UInt32 → UInt64) (attached : Bool) (threadId : UInt32) (ops : List Op) :
    Runs.Along (step hash) (SaysSizes hash) (LogSys.init attached threadId) ops ↔
      Runs.Along (step hash) (SizesFit hash) (LogSys.init attached threadId) ops :=
  Runs.along_iff (I := Inv) (fun _ op h => h.saysSizes_iff op) (fun _ _ _ h hs _ => h.step hs)
    (inv_init attached threadId) ops

/-! ## A long string -/

/-- A fresh writer accepts a call with one string, however long. -/
theorem plain_accepted (str : CStr) :
    ∃ o, (LogSys.init true 7).log.send oneLine (LogSys.init true 7).core plenty (textCall str) = .ok o ∧
      o.outcome.result = true := by
  obtain ⟨p, hp, hused⟩ : ∃ p, (LogSys.init true 7).log.prepare oneLine (LogSys.init true 7).core plenty (textCall str) =
      .ok p ∧ p.log.bufUsed = sizeofDataBufHdr := ⟨_, rfl, rfl⟩
  obtain ⟨l', g, gap, tp, ho, -⟩ := send_accepted (inv_init true 7).log (inv_init true 7).sound hp (by rw [hused]; decide)
    (fun _ => rfl)
  exact ⟨_, ho, rfl⟩

/-- A call with one string of 65535 bytes is accepted, and its item says it is 48 bytes long. -/
theorem sizes_false : ¬ Runs.Along (step oneLine) (SaysSizes oneLine) (LogSys.init true 7)
    [.send plenty (textCall (List.replicate 65535 97))] := by
  generalize hs : List.replicate 65535 (97 : UInt8) = s
  have hlen : s.length = 65535 := by rw [← hs, List.length_replicate]
  rintro ⟨hexact, -⟩
  have hfit := (inv_init true 7).saysSizes_iff (.send plenty (textCall s)) |>.mp hexact
  obtain ⟨o, ho, hres⟩ := plain_accepted s
  obtain ⟨hsize, -⟩ := hfit o ho hres
  have hargs : (LogSys.init true 7).core.argsOf (oneLine (textCall s).file (textCall s).line) (textCall s).format =
      [⟨ArgType.ustr8, 0⟩] := rfl
  have hstr : LogVarg.isStr ⟨ArgType.ustr8, 0⟩ = true := rfl
  have hbytes : LogVarg.strBytes ⟨ArgType.ustr8, 0⟩ ((textCall s).args 0) = s := rfl
  rw [hargs, argsLength, LogVarg.length, if_pos hstr, hbytes, hlen, maxStr, sizeofLogItemDat] at hsize
  omega

end LogSys

end P8
