import Mincodec.Theorems.WriterInv
import Mincodec.Theorems.Allocated
import Mincodec.Await
import Mincodec.Slice

-- What an `AsyncWriter` sends.
namespace Mincodec

open Stream BitSink Sending

section

variable {Ctx B U E : Type} [BitSliceMut B] [LawfulBitSliceMut B]

-- If every slice of two bytes or more is accepted as a whole, and no serializer is pending with bits
-- in the buffer, then what has been accepted for an item is at every moment the front of its bits cut
-- into bytes, and all of it once `poll` is ready.
theorem asyncWriter_accepted {w : MinCodecWrite Ctx B U} {item : U} (h : Serializable w item)
    {this : Sending Ctx B} (hs : Steps Serializable
      (Steady : Sending Ctx B → WriteMoment Ctx E → Prop) (.new w item) this) :
    (∀ s ∈ this.before, s.Whole) ∧
    ∀ e, Outputs this.codec this.item e →
      (∃ bytes, Bits.IsCut e.bits bytes ∧ this.accepted <+: bytes) ∧
      ∀ m : WriteMoment Ctx E, this.Steady m → (this.turn m).1 = .ret (.ready (.ok ())) →
        Bits.IsCut e.bits (this.after m).accepted := by
  have hi := (new_inv h).steps_inv id id hs
  refine ⟨hi.before, fun e he => ⟨(hi.tracks e he).prefix_cut, fun m hm hr => ?_⟩⟩
  have hi := hi.turn_inv hm (by rw [hr]; exact id)
  exact (hi.tracks e he).isCut (AsyncWriter.complete_of_ready hr)

-- If the transport accepts every slice in full, and no serializer is pending with bits in the buffer,
-- then what is sent is what is written into a contiguous buffer when the serializer is polled again
-- while it is pending, cut into bytes.
theorem asyncWriter_repeated {w : MinCodecWrite Ctx B U} {item : U} (h : Interruptible w item)
    {this : Sending Ctx B} (hs : Steps Interruptible
      (InFull : Sending Ctx B → WriteMoment Ctx E → Prop) (.new w item) this) :
    (∀ s ∈ this.before, s.Contiguous) ∧
    ∀ cs b r,
      (pollAgain this.codec.pollSerialize cs (this.codec.serialize this.item) b).outcome = .ready r →
      ∃ bytes, this.accepted <+: bytes ∧
        Bits.IsCut (written b
          (pollAgain this.codec.pollSerialize cs (this.codec.serialize this.item) b).buf) bytes ∧
        (this.writer.state = .complete → this.accepted = bytes) := by
  have hi := (new_inv h.serializable).steps_inv Interruptible.serializable InFull.steady hs
  have ⟨hb, ha⟩ := hs.allowed nofun h
  constructor
  case left  =>
    intro s hm cs b r hr
    have ⟨e, he⟩ := hb s hm
    have hcut := hi.before s hm e he.outputs
    rwa [he.written_eq hr] at hcut
  case right =>
    intro cs b r hr
    have ⟨e, he⟩ := ha
    have ht := hi.tracks e he.outputs
    rw [he.written_eq hr] at ht
    by_cases hc : this.writer.state = .complete
    case pos => exact ⟨_, List.prefix_rfl, ht.isCut hc, fun _ => rfl⟩
    case neg =>
      have ⟨bytes, hcut, hp⟩ := ht.prefix_cut
      exact ⟨bytes, hp, hcut, fun h => absurd h hc⟩

end

section

def waits : WriteMoment Unit Empty :=
  ⟨(), .pending⟩

def takes (size : Nat) : WriteMoment Unit Empty :=
  ⟨(), .ready (.ok size)⟩

def isReady {α : Type} : Flow (Except α Unit) → Bool
  | .ret (.ready (.ok ())) => true
  | _                      => false

theorem eq_ready {α : Type} {f : Flow (Except α Unit)} (h : isReady f) :
    f = .ret (.ready (.ok ())) := by
  match f with
  | .ret (.ready (.ok ())) => rfl

def answer (write : Poll (Except Unit Nat)) : WriteMoment Unit Unit :=
  ⟨(), write⟩

def lateString : MinCodecWrite Unit SliceMut Str :=
  awaitWrite 1 stringWrite

theorem lateString_quiet : lateString.Quiet :=
  awaitWrite_quiet (MinCodecWrite.Prompt.quiet fun _ s b =>
    Polled.lift_ne_pending (sufficient_ne_pending (BitBufMut.drainInto (BytesSerialize.drain s) b))) 1

theorem lateString_outputs (s : Str) : Outputs lateString s (.done (stringBits SliceMut s)) :=
  (awaitWrite_resumes (stringWrite_encodes.resumes s) 1).outputs

-- With nine bytes for its length it fills a buffer and one byte of the next one.
def longString : Str :=
  ⟨.ofList (List.replicate 1016 'a'), by decide +kernel⟩

def emptyString : Str :=
  ⟨"", by decide⟩

def newLong : Sending Unit SliceMut :=
  .new lateString longString

def longAnswers : List (WriteMoment Unit Unit) :=
  [.pending, .pending, .ready (.ok 1024), .pending, .pending, .ready (.error ()), .ready (.ok 0),
    .ready (.ok 1)].map answer

def nextEmpty : Sending Unit SliceMut :=
  (newLong.turns longAnswers).again emptyString

def emptyAnswers : List (WriteMoment Unit Unit) :=
  [.pending, .pending, .pending].map answer

def Answered (this : Sending Unit SliceMut) (m : WriteMoment Unit Unit) : Prop :=
  this.writer.Valid m.write ∧ this.writer.Accepts m.write

instance (this : Sending Unit SliceMut) (m : WriteMoment Unit Unit) : Decidable (Answered this m) :=
  inferInstanceAs (Decidable (_ ∧ _))

theorem Sending.Runs.steady {this : Sending Unit SliceMut} {ms : List (WriteMoment Unit Unit)}
    (h : Runs Answered this ms) (hq : this.codec.Quiet) :
    Steps Serializable (Steady : _ → WriteMoment Unit Unit → Prop) this (this.turns ms) ∧
      (this.turns ms).codec.Quiet :=
  h.steps (P := fun this => this.codec.Quiet) hq (fun hq _ _ => hq) fun hq h =>
    ⟨h.1, h.2, AsyncWriter.quiet hq _ _⟩

theorem asyncWriter_accepted_strings : (∀ s ∈ (nextEmpty.turns emptyAnswers).before, s.Whole) ∧
    (nextEmpty.turns emptyAnswers).before.map (·.bytes.length) = [1025] ∧
    Bits.IsCut (stringBits SliceMut emptyString)
      ((nextEmpty.turns emptyAnswers).after (answer (.ready (.ok 1)))).accepted := by
  have ⟨hr, hr', hd, hl, ha, ho⟩ : Runs Answered newLong longAnswers ∧
      Runs Answered nextEmpty emptyAnswers ∧ (newLong.turns longAnswers).writer.isDone ∧
      (nextEmpty.turns emptyAnswers).before.map (·.bytes.length) = [1025] ∧
      Answered (nextEmpty.turns emptyAnswers) (answer (.ready (.ok 1))) ∧
      isReady ((nextEmpty.turns emptyAnswers).turn (answer (.ready (.ok 1)))).1 := by
    decide +kernel
  have ⟨hs, _⟩ := hr.steady lateString_quiet
  have ⟨hs', hq⟩ := hr'.steady lateString_quiet
  have hs := (hs.trans (steps_again ⟨_, lateString_outputs emptyString⟩ hd)).trans hs'
  have ⟨hb, h⟩ := asyncWriter_accepted ⟨_, lateString_outputs longString⟩ hs
  exact ⟨hb, hl, (h _ (lateString_outputs emptyString)).2 _
    ⟨ha.1, ha.2, AsyncWriter.quiet hq _ _⟩ (eq_ready ho)⟩

def newU16 : Sending Unit SliceMut :=
  .new u16Write 258

-- The transport is pending once, and then takes what it is offered.
theorem asyncWriter_loses :
    Outputs (u16Write : MinCodecWrite Unit SliceMut _) 258 (.done (Bits.ofBytes [1, 2])) ∧
    Steps Serializable (fun (this : Sending Unit SliceMut) (m : WriteMoment Unit Empty) =>
      this.writer.Valid m.write) newU16 ((newU16.after waits).after waits) ∧
    ((newU16.after waits).after waits).writer.Valid (takes 1).write ∧
    (((newU16.after waits).after waits).turn (takes 1)).1 = .ret (.ready (.ok ())) ∧
    (((newU16.after waits).after waits).after (takes 1)).accepted = [1] ∧
    ¬Bits.IsCut (Bits.ofBytes [1, 2]) [1] := by
  refine ⟨((numberWrite_encodes 2).resumes 258).outputs, ?steps, ?valid, ?ready, by decide +kernel, ?cut⟩
  case steps =>
    have h₁ : ¬(newU16.turn waits).1.Panics := by decide +kernel
    have h₂ : ¬((newU16.after waits).turn waits).1.Panics := by decide +kernel
    exact (Relation.ReflTransGen.refl.tail (.turn trivial h₁)).tail (.turn trivial h₂)
  case valid =>
    show 1 ≤ _
    decide +kernel
  case ready => exact eq_ready (by decide +kernel)
  case cut   =>
    intro h
    have hl := h.length
    simp at hl

def lateU16Write : MinCodecWrite Unit SliceMut (BitVec (8 * 2)) :=
  awaitWrite 1 u16Write

theorem u16Write_prompt {Ctx B : Type} [BitSliceMut B] :
    (u16Write : MinCodecWrite Ctx B _).Prompt := by
  intro c s b
  show (NumberSerialize.poll s b).outcome ≠ .pending
  unfold NumberSerialize.poll
  split
  case h_1     => simp
  case h_2 d _ =>
    exact Polled.andThen_ne_pending (sufficient_ne_pending (BitBufMut.drainInto d b)) (by simp)

theorem lateU16Write_quiet : lateU16Write.Quiet :=
  awaitWrite_quiet u16Write_prompt.quiet 1

theorem lateU16Write_resumes (x : BitVec (8 * 2)) : Resumes lateU16Write x (.done (numberBits x)) :=
  awaitWrite_resumes ((numberWrite_encodes 2).resumes x) 1

def u16Answers : List (WriteMoment Unit Empty) :=
  [takes 0, takes 0, takes 2]

def newU16s : Sending Unit SliceMut :=
  .new lateU16Write 258

def nextU16s : Sending Unit SliceMut :=
  (newU16s.turns u16Answers).again (772 : BitVec (8 * 2))

def sentU16s : Sending Unit SliceMut :=
  nextU16s.turns u16Answers

def TakesAll (this : Sending Unit SliceMut) (m : WriteMoment Unit Empty) : Prop :=
  m.write = .ready (.ok this.writer.offered.length)

instance (this : Sending Unit SliceMut) (m : WriteMoment Unit Empty) : Decidable (TakesAll this m) :=
  inferInstanceAs (Decidable (_ = _))

theorem Sending.Runs.inFull {this : Sending Unit SliceMut} {ms : List (WriteMoment Unit Empty)}
    {Allowed : {U : Type} → MinCodecWrite Unit SliceMut U → U → Prop}
    (h : Runs TakesAll this ms) (hq : this.codec.Quiet) :
    Steps Allowed (InFull : _ → WriteMoment Unit Empty → Prop) this (this.turns ms) :=
  (h.steps (P := fun this => this.codec.Quiet) hq (fun hq _ _ => hq) fun hq h =>
    ⟨h, AsyncWriter.quiet hq _ _⟩).1

section

variable {Allowed : {U : Type} → MinCodecWrite Unit SliceMut U → U → Prop}

theorem newU16s_steps :
    Steps Allowed (InFull : _ → WriteMoment Unit Empty → Prop) newU16s (newU16s.turns u16Answers) ∧
      (newU16s.turns u16Answers).writer.isDone := by
  have ⟨hr, hd⟩ : Runs TakesAll newU16s u16Answers ∧ (newU16s.turns u16Answers).writer.isDone := by
    decide +kernel
  exact ⟨hr.inFull lateU16Write_quiet, hd⟩

theorem nextU16s_steps :
    Steps Allowed (InFull : _ → WriteMoment Unit Empty → Prop) nextU16s sentU16s := by
  have hr : Runs TakesAll nextU16s u16Answers := by decide +kernel
  exact hr.inFull lateU16Write_quiet

theorem sentU16s_steps (ha : Allowed lateU16Write 772) :
    Steps Allowed (InFull : _ → WriteMoment Unit Empty → Prop) newU16s sentU16s := by
  have ⟨hs, hd⟩ := @newU16s_steps Allowed
  exact (hs.trans (steps_again ha hd)).trans nextU16s_steps

end

theorem asyncWriter_repeated_u16s : (∀ s ∈ sentU16s.before, s.Contiguous) ∧
    sentU16s.before.map Sent.bytes = [[1, 2]] ∧
    Bits.IsCut (written (BitSliceMut.new [0, 0]) (pollAgain lateU16Write.pollSerialize [(), ()]
      (lateU16Write.serialize 772) (BitSliceMut.new [0, 0] : SliceMut)).buf) [3, 4] := by
  have ⟨hb, hs, ha⟩ : sentU16s.before.map Sent.bytes = [[1, 2]] ∧
      sentU16s.writer.state = .complete ∧ sentU16s.accepted = [3, 4] := by decide +kernel
  have ⟨h, hc⟩ := asyncWriter_repeated ⟨_, lateU16Write_resumes 258⟩
    (sentU16s_steps ⟨_, lateU16Write_resumes 772⟩)
  have ⟨bytes, _, hcut, hbytes⟩ := hc [(), ()] (BitSliceMut.new [0, 0]) (.ok ()) rfl
  exact ⟨h, hb, ha ▸ hbytes hs ▸ hcut⟩

def all (this : Sending Unit SliceMut) : WriteMoment Unit Empty :=
  takes this.writer.offered.length

def sends (this : Sending Unit SliceMut) : Sending Unit SliceMut :=
  this.after (all this)

def pollPairWrite (this : Option Bool × Bool) (b : SliceMut) :
    Polled (Option Bool × Bool) SliceMut (Except Empty Unit) :=
  match this with
  | (some x, y) => (BitBufMut.pollWriteBool x b).andThen (fun _ => (some x, y)) id fun _ _ b =>
    ⟨.pending, (none, y), b⟩
  | (none, y)   => (BitBufMut.pollWriteBool y b).lift (fun _ => (none, y)) id

def pairWrite : MinCodecWrite Unit SliceMut (Bool × Bool) where
  Serialize        := Option Bool × Bool
  Error            := Empty
  serialize item   := (some item.1, item.2)
  pollSerialize _  := pollPairWrite

theorem pairWrite_encodes : pairWrite.Encodes fun item => .done [item.1, item.2] := by
  intro item
  let x := item.1
  let y := item.2
  refine ⟨fun s e => (s = (some x, y) ∧ e = .done [x, y]) ∨ (s = (none, y) ∧ e = .done [y]), ?_,
    .inl ⟨rfl, rfl⟩⟩
  rintro c s e b (⟨rfl, rfl⟩ | ⟨rfl, rfl⟩)
  case inl =>
    show Writes _ _ _ b (pollPairWrite (some x, y) b)
    unfold pollPairWrite
    apply BitBufMut.pollWriteBool_andThen (f := .done [y])
    · exact fun _ => .inl ⟨rfl, rfl⟩
    · exact fun _ b' => ⟨[], .refl b', .done [y], rfl, .inr ⟨rfl, rfl⟩⟩
  case inr =>
    show Writes _ _ _ b (pollPairWrite (none, y) b)
    unfold pollPairWrite
    apply (BitBufMut.pollWriteBool_writes y b).finish_id
    · rintro s e rfl
      exact .inr ⟨rfl, rfl⟩
    · exact fun _ _ => .ready

def newPair : Sending Unit SliceMut :=
  .new pairWrite (true, false)

def sentPair : Sending Unit SliceMut :=
  sends (sends (sends newPair))

theorem sentPair_steps {Allowed : {U : Type} → MinCodecWrite Unit SliceMut U → U → Prop} :
    Steps Allowed (fun (this : Sending Unit SliceMut) (m : WriteMoment Unit Empty) =>
      m.write = .ready (.ok this.writer.offered.length)) newPair sentPair := by
  have ⟨hp₁, hp₂, hp₃⟩ : ¬(newPair.turn (all newPair)).1.Panics ∧
      ¬((sends newPair).turn (all (sends newPair))).1.Panics ∧
      ¬((sends (sends newPair)).turn (all (sends (sends newPair)))).1.Panics := by
    decide +kernel
  exact ((Relation.ReflTransGen.refl.tail (.turn rfl hp₁)).tail (.turn rfl hp₂)).tail
    (.turn rfl hp₃)

-- The bit that is written before the wait is overwritten after it.
theorem asyncWriter_overwrites :
    Interruptible pairWrite (true, false) ∧
    Steps Interruptible (fun (this : Sending Unit SliceMut) (m : WriteMoment Unit Empty) =>
      m.write = .ready (.ok this.writer.offered.length)) newPair sentPair ∧
    sentPair.writer.isDone ∧ sentPair.accepted = [0] ∧
    BitSliceMut.bytes (pollAgain pairWrite.pollSerialize [(), ()] (pairWrite.serialize (true, false))
      (BitSliceMut.new [0])).buf = [128] := by
  refine ⟨⟨_, pairWrite_encodes.resumes _⟩, sentPair_steps, ?_, ?_, rfl⟩ <;> decide +kernel

end

end Mincodec
