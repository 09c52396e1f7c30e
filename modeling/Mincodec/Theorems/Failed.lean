import Mincodec.Theorems.AsyncWriter

-- What an `AsyncWriter` does after the serializer of its item has failed.
namespace Mincodec

open Stream BitSink

variable {Ctx B U E : Type}

namespace AsyncWriter

variable {w : MinCodecWrite Ctx B U} {this : AsyncWriter w} {m : WriteMoment Ctx E}

structure Failed (this : AsyncWriter w) : Prop where
  state_eq : this.state = .writing
  done_eq  : this.done = true

theorem Failed.not_isDone (h : this.Failed) : ¬this.isDone := by
  simp [isDone, h.state_eq]

theorem Failed.reset_none (h : this.Failed) (item : U) : this.reset item = none := by
  simp only [reset, h.state_eq]

theorem Failed.divide_eq (h : this.Failed) :
    this.divide = .ok (0, { this with cursor := (this.cursor + 7) / 8 }) :=
  divide_last h.done_eq (.inl rfl)

theorem turnWriting_ne_serialize (write : Poll (Except E Nat)) (e : w.Error) :
    (this.turnWriting write).1 ≠ .ret (.ready (.error (.serialize e))) := by
  unfold turnWriting
  cases this.divide
  case error => simp
  case ok x  =>
    obtain ⟨l, that⟩ := x
    by_cases hl : that.cursor ≤ that.buffer.length
    case neg => simp [hl]
    case pos =>
      simp only [hl, if_true, answered]
      cases write
      case pending | panicked => simp
      case ready x            =>
        cases x
        case error => simp
        case ok size =>
          simp only [wrote]
          by_cases hs : size ≤ that.cursor <;> by_cases hc : that.cursor - size = 0 <;>
            cases that.done <;> simp [hs, hc]

theorem answered_eq {that : AsyncWriter w} {write : Poll (Except E Nat)} {re : Nat} {l : UInt8}
    (h : ∀ size, write = .ready (.ok size) → size = 0 ∧ 0 < that.cursor) :
    (that.answered re l write).1 ≠ .ret (.ready (.ok ())) ∧ (that.answered re l write).2 = that := by
  match write with
  | .pending | .ready (.error e) | .panicked msg => simp [answered]
  | .ready (.ok size)                            =>
    obtain ⟨rfl, hc⟩ := h size rfl
    simp [answered, wrote, hc.ne']

theorem Failed.accepts_eq (h : this.Failed) {size : Nat} (hm : m.write = .ready (.ok size)) :
    this.accepts m.write = (this.buffer.take ((this.cursor + 7) / 8)).take size := by
  simp only [accepts, h.state_eq, hm, offered_of_divide h.divide_eq]

variable [BitSliceMut B]

def Sound (this : AsyncWriter w) (m : WriteMoment Ctx E) : Prop :=
  ∀ msg, (this.turn m.ctx m.write).1 ≠ .ret (.panicked msg)

-- The iteration sends nothing, does not report success and does not complete the writer.
structure Silent (this : AsyncWriter w) (m : WriteMoment Ctx E) : Prop where
  accepts_eq : this.accepts m.write = []
  ne_ready   : (this.turn m.ctx m.write).1 ≠ .ret (.ready (.ok ()))
  not_isDone : ¬(this.turn m.ctx m.write).2.isDone

def Withheld (this : AsyncWriter w) (m : WriteMoment Ctx E) : Prop :=
  ∀ size, m.write = .ready (.ok size) → size = 0 ∧ 0 < this.cursor

theorem failed_of_error {e : w.Error}
    (h : (this.turn m.ctx m.write).1 = .ret (.ready (.error (.serialize e)))) :
    (this.turn m.ctx m.write).2.Failed := by
  unfold turn at h ⊢
  cases hs : this.state
  case complete  => simp [hs] at h
  case writing   => exact absurd (by simpa only [hs] using h) (turnWriting_ne_serialize m.write e)
  case serialize =>
    simp only [hs, turnSerialize] at h ⊢
    cases hb : BitSliceMut.advance this.cursor (BitSliceMut.new this.buffer : B)
    case none   => simp [hb] at h
    case some b =>
      simp only [hb, serialized] at h ⊢
      generalize w.pollSerialize m.ctx this.serializer b = x at h ⊢
      cases ho : x.outcome
      case pending | insufficient | panicked => simp [ho] at h
      case ready v                           =>
        cases v
        case error => exact ⟨rfl, rfl⟩
        case ok    => simp [ho] at h

namespace Failed

theorem turn_eq (h : this.Failed) (hs : this.Sound m) :
    (this.cursor + 7) / 8 ≤ this.buffer.length ∧ this.turn m.ctx m.write =
      { this with cursor := (this.cursor + 7) / 8 }.answered (this.cursor % 8) 0 m.write := by
  suffices hl : (this.cursor + 7) / 8 ≤ this.buffer.length from
    ⟨hl, turn_writing h.state_eq h.divide_eq hl m⟩
  by_contra hl
  apply hs (rangeEnd ((this.cursor + 7) / 8) this.buffer.length)
  simp only [turn, h.state_eq, turnWriting, h.divide_eq, hl, if_false]

theorem silent_of_withheld (h : this.Failed) (hs : this.Sound m) (hm : this.Withheld m) :
    this.Silent m ∧ (this.turn m.ctx m.write).2.Failed := by
  have ⟨_, he⟩ := h.turn_eq hs
  let that := { this with cursor := (this.cursor + 7) / 8 }
  have hm' : ∀ size, m.write = .ready (.ok size) → size = 0 ∧ 0 < that.cursor := by
    intro size hw
    obtain ⟨h₁, h₂⟩ := hm size hw
    exact ⟨h₁, by simp only [that]; omega⟩
  have ⟨hr, ht⟩ : (that.answered (this.cursor % 8) 0 m.write).1 ≠ .ret (.ready (.ok ())) ∧
      (that.answered (this.cursor % 8) 0 m.write).2 = that :=
    answered_eq hm'
  rw [← he] at hr ht
  have hf : (this.turn m.ctx m.write).2.Failed := ht ▸ ⟨h.state_eq, h.done_eq⟩
  refine ⟨⟨?accepts, hr, hf.not_isDone⟩, hf⟩
  match hw : m.write with
  | .pending | .ready (.error e) | .panicked msg => simp only [accepts, h.state_eq]
  | .ready (.ok size)                            =>
    obtain ⟨rfl, _⟩ := hm size hw
    rw [← hw, h.accepts_eq hw, List.take_zero]

theorem withheld_of_silent (h : this.Failed) (hs : this.Sound m) (hm : this.Silent m) :
    this.Withheld m := by
  intro size hw
  have ⟨hl, he⟩ := h.turn_eq hs
  have hle : size ≤ (this.cursor + 7) / 8 := by
    by_contra hgt
    apply hs subtractOverflow
    rw [he, hw]
    simp only [answered, wrote, hgt, if_false]
  have hz : size = 0 := by
    have ha := congrArg List.length hm.accepts_eq
    rw [h.accepts_eq hw, List.length_take, List.length_take_of_le hl, List.length_nil] at ha
    omega
  refine ⟨hz, Nat.pos_of_ne_zero fun hc => hm.ne_ready ?_⟩
  rw [he, hw]
  simp [answered, wrote, hz, hc, h.done_eq]

end Failed

theorem Failed.always_iff (h : this.Failed) (calls : List (WriterCall Ctx E U))
    (hs : Always Sound this calls) : Always Silent this calls ↔ Always Withheld this calls := by
  induction calls generalizing this
  case nil => exact .rfl
  case cons call calls hi =>
    cases call
    case turn m =>
      obtain ⟨hm, hs⟩ := hs
      constructor
      · rintro ⟨h₁, h₂⟩
        have h₁ := h.withheld_of_silent hm h₁
        exact ⟨h₁, (hi (h.silent_of_withheld hm h₁).2 hs).mp h₂⟩
      · rintro ⟨h₁, h₂⟩
        have ⟨h₁, hf⟩ := h.silent_of_withheld hm h₁
        exact ⟨h₁, (hi hf hs).mpr h₂⟩
    case reset item =>
      have hr := h.reset_none item
      exact ⟨fun ha _ => (hi h (hs hr)).mp (ha hr), fun ha _ => (hi h (hs hr)).mpr (ha hr)⟩

end AsyncWriter

section

open AsyncWriter

-- Once `poll` has returned an error of the serializer, the writer stays silent if and only if the
-- transport takes nothing of what it is offered from then on.
theorem asyncWriter_silent_iff [BitSliceMut B] {w : MinCodecWrite Ctx B U} {this : AsyncWriter w}
    {m : WriteMoment Ctx E} {e : w.Error}
    (h : (this.turn m.ctx m.write).1 = .ret (.ready (.error (.serialize e))))
    {calls : List (WriterCall Ctx E U)} (hs : Always Sound (this.turn m.ctx m.write).2 calls) :
    ¬(this.turn m.ctx m.write).2.isDone ∧
    (Always Silent (this.turn m.ctx m.write).2 calls ↔
      Always Withheld (this.turn m.ctx m.write).2 calls) :=
  have hf := failed_of_error h
  ⟨hf.not_isDone, hf.always_iff calls hs⟩

end

section

def failWrite : MinCodecWrite Unit SliceMut Unit where
  Serialize         := Unit
  Error             := Unit
  serialize         := id
  pollSerialize _ _ := fun b => (BitBufMut.pollWriteBool true b).andThen id Empty.elim fun _ _ b =>
    ⟨.ready (.error ()), (), b⟩

def newFailed : AsyncWriter failWrite :=
  ((AsyncWriter.new failWrite ()).turn waits.ctx waits.write).2

def serializeFails {α : Type} : Flow (Except (AsyncWriterError α Unit) Unit) → Bool
  | .ret (.ready (.error (.serialize ()))) => true
  | _                                      => false

theorem eq_serialize {α : Type} {f : Flow (Except (AsyncWriterError α Unit) Unit)}
    (h : serializeFails f) : f = .ret (.ready (.error (.serialize ()))) := by
  match f with
  | .ret (.ready (.error (.serialize ()))) => rfl

theorem failWrite_fails :
    ((AsyncWriter.new failWrite ()).turn waits.ctx waits.write).1 =
      .ret (.ready (.error (.serialize ()))) :=
  eq_serialize (by decide +kernel)

theorem newFailed_sound (m : WriteMoment Unit Empty) (h : ¬(newFailed.turn m.ctx m.write).1.Panics) :
    newFailed.Sound m := by
  intro msg hr
  rw [hr] at h
  exact h trivial

theorem asyncWriter_silent_iff_waits :
    ¬newFailed.isDone ∧
    (AsyncWriter.Always AsyncWriter.Silent newFailed [.turn waits, .reset ()] ↔
      AsyncWriter.Always AsyncWriter.Withheld newFailed [.turn waits, .reset ()]) :=
  asyncWriter_silent_iff failWrite_fails
    ⟨newFailed_sound waits (by decide +kernel), fun _ => trivial⟩

-- The transport takes what it is offered: the bit that was written is sent, and `poll` is ready.
theorem asyncWriter_reports_success :
    ((AsyncWriter.new failWrite ()).turn waits.ctx waits.write).1 =
      .ret (.ready (.error (.serialize ()))) ∧
    newFailed.accepts (takes 1).write = [128] ∧
    (newFailed.turn (takes 1).ctx (takes 1).write).1 = .ret (.ready (.ok ())) ∧
    (newFailed.turn (takes 1).ctx (takes 1).write).2.isDone ∧
    AsyncWriter.Always AsyncWriter.Sound newFailed [.turn (takes 1)] ∧
    ¬AsyncWriter.Always AsyncWriter.Silent newFailed [.turn (takes 1)] := by
  have ha : newFailed.accepts (takes 1).write = [128] := by decide +kernel
  refine ⟨failWrite_fails, ha, eq_ready (by decide +kernel), by decide +kernel,
    ⟨newFailed_sound (takes 1) (by decide +kernel), trivial⟩, ?_⟩
  rintro ⟨hs, _⟩
  rw [hs.accepts_eq] at ha
  cases ha

end

end Mincodec
