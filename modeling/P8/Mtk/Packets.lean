import P8.Log.Packets
import P8.Mtk.Run

/-!
# Packets: the headers of a metric writer's buffers

As for a log writer, every buffer a metric writer holds or hands over is a packet of its kind with the writer's thread id, and
its size counts at least the header, since it counts the samples behind it.
-/

namespace P8

open Bytes Framing

/-- A writer's buffers are stamped with its thread. -/
def Mtk.Stamped (m : Mtk) : Prop := ∀ b ∈ m.bufs, b.Stamped packetMetrics m.threadId

/-- A write leaves the thread as it is. -/
theorem put_threadId (m : Mtk) (b : DataBuf) (it : MtkItemDat) : (m.put b it).threadId = m.threadId := by
  unfold Mtk.put
  dsimp only
  split <;> rfl

/-- A call of `emit` does not change the thread of its writer. -/
theorem emit_threadId {m : Mtk} {env : EmitEnv} {id : Int32} {value : UInt64} {o : Emitted}
    (ho : m.emit env id value = .ok o) : o.mtk.threadId = m.threadId := by
  have hpark : m.parkFull.threadId = m.threadId := by
    unfold Mtk.parkFull
    repeat' split
    all_goals rfl
  have htake : ∀ m₁ : Mtk, (m₁.takeBuffer env).1.threadId = m₁.threadId := by
    intro m₁
    have hpull : (m₁.pullWhile env.pulled).1.threadId = m₁.threadId := by
      unfold Mtk.pullWhile Mtk.pull
      repeat' split
      all_goals rfl
    unfold Mtk.takeBuffer
    split
    · rfl
    · generalize m₁.pullWhile env.pulled = p at hpull
      obtain ⟨m₂, delivered⟩ := p
      cases env.waited <;> exact hpull
  have htake' := htake m.parkFull
  unfold Mtk.emit at ho
  split at ho
  · cases ho
    rfl
  · generalize m.parkFull.takeBuffer env = p at ho htake'
    obtain ⟨m₁, delivered, ob⟩ := p
    have hthread : m₁.threadId = m.threadId := htake'.trans hpark
    cases ob with
    | none =>
      cases ho
      exact hthread
    | some b =>
      dsimp only at ho
      split at ho
      · cases ho
        exact (put_threadId m₁ b _).trans hthread
      · cases ho

/-- A call of `emit` leaves stamped buffers, those a pull took among them. -/
theorem emit_stamps {m : Mtk} (h : m.Inv) (hst : m.Stamped) {env : EmitEnv} {id : Int32} {value : UInt64} {o : Emitted}
    (ho : m.emit env id value = .ok o) :
    o.mtk.threadId = m.threadId ∧ ∀ b ∈ o.delivered ++ o.mtk.bufs, b.Stamped packetMetrics m.threadId := by
  refine ⟨emit_threadId ho, ?_⟩
  obtain ⟨o', ho', hcases⟩ := emit_cases h env id value
  rw [ho] at ho'
  cases ho'
  cases hcases with
  | refused hk => exact hst
  | dropped hk hwait hbufs hdropped hresult hinv =>
    rw [hbufs]
    exact hst
  | written b b' items hw hinv =>
    have hsource : b.Stamped packetMetrics m.threadId := by
      rcases hw.source with hb | ⟨-, b₀, -, rfl⟩
      · exact hst b (by simp [Mtk.bufs, hb])
      · exact b₀.stamped_start packetMetrics m.threadId env.bufTicks
    have hwritten : b'.Stamped packetMetrics m.threadId := by
      refine ⟨?_, ?_, ?_⟩
      · rw [hw.hdr]
        exact hsource.packetType_eq
      · rw [hw.hdr]
        exact hsource.threadId_eq
      · rw [DataBuf.Counted, hw.holds'.size_eq]
        exact Nat.le_add_right _ _
    rw [hw.bufs]
    refine List.forall_mem_append.mpr ⟨fun x hx => hst x ?_, List.forall_mem_singleton.mpr hwritten⟩
    exact List.mem_append_left _ hx

end P8
