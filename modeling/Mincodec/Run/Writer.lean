import Mincodec.AsyncWriter
import Mathlib.Logic.Relation

-- Runs of an `AsyncWriter`.
namespace Mincodec

open Stream BitSink

variable {Ctx B U E : Type}

structure WriteMoment (Ctx E : Type) where
  ctx   : Ctx
  write : Poll (Except E Nat)

inductive WriterCall (Ctx E U : Type)
  | turn (m : WriteMoment Ctx E)
  | reset (item : U)

-- What an `AsyncWriter` polls its serializer on.
def Fresh [BitSink B] (b : B) : Prop :=
  filled b = 0 ∧ (image b).length = 8 * asyncWriterBufSize

-- Over such buffers the serializer of the item writes the emission `e`, and fills every one of them
-- before it is out of room.
def Outputs [BitSink B] (w : MinCodecWrite Ctx B U) (item : U) (e : Emission w.Error) : Prop :=
  EncodesIn (fun _ _ b => Fresh b) Full w.pollSerialize (w.serialize item) e

def Serializable [BitSink B] (w : MinCodecWrite Ctx B U) (item : U) : Prop :=
  ∃ e, Outputs w item e

-- It writes the same over any single buffer that it is not out of room in.
def Resumes [BitSink B] (w : MinCodecWrite Ctx B U) (item : U) (e : Emission w.Error) : Prop :=
  EncodesIn (fun c s b => Fresh b ∨ (w.pollSerialize c s b).outcome ≠ .insufficient) Full
    w.pollSerialize (w.serialize item) e

def Interruptible [BitSink B] (w : MinCodecWrite Ctx B U) (item : U) : Prop :=
  ∃ e, Resumes w item e

section

variable [BitSink B] {w : MinCodecWrite Ctx B U} {item : U}

theorem Resumes.outputs {e : Emission w.Error} (h : Resumes w item e) : Outputs w item e :=
  h.mono fun _ _ _ => .inl

theorem Interruptible.serializable (h : Interruptible w item) : Serializable w item :=
  h.imp fun _ => Resumes.outputs

theorem MinCodecWrite.Encodes.resumes {enc : U → Emission w.Error} (h : w.Encodes enc) (item : U) :
    Resumes w item (enc item) :=
  Stream.Encodes.encodesIn (h item) _

theorem MinCodecWrite.EncodesOnce.resumes {enc : U → List Bool} (h : w.EncodesOnce enc)
    (hl : (enc item).length ≤ 8 * asyncWriterBufSize) : Resumes w item (.done (enc item)) := by
  apply WritesOnce.encodesIn (h item)
  intro c b hb
  cases hb
  case inl hb => rwa [room, hb.1, hb.2, Nat.sub_zero]
  case inr hb =>
    by_contra hr
    exact hb ((h item c b).short (Nat.lt_of_not_le hr)).1

theorem Resumes.eq_done {e : Emission w.Error} (h : Resumes w item e) {u : List Bool} {c : Ctx} {b : B}
    (hw : WritesOnce u b (w.pollSerialize c (w.serialize item) b)) (hl : u.length ≤ room b) :
    e = .done u :=
  EncodesIn.eq_done h (.inr (by simp [(hw.fits hl).1])) hw hl

theorem Resumes.written_eq {e : Emission w.Error} (h : Resumes w item e) {cs : List Ctx} {b : B}
    {r : Except w.Error Unit}
    (hr : (pollAgain w.pollSerialize cs (w.serialize item) b).outcome = .ready r) :
    e = ⟨written b (pollAgain w.pollSerialize cs (w.serialize item) b).buf, .finished r⟩ := by
  have ⟨u, hu, hx⟩ := h.pollAgain (fun _ _ _ => .inr) cs b (by simp [hr])
  simp only [hr] at hx
  rw [hu.written_eq, hx]

end

def MinCodecWrite.Quiet (w : MinCodecWrite Ctx B U) : Prop :=
  ∀ c s b, (w.pollSerialize c s b).outcome = .pending → (w.pollSerialize c s b).buf = b

def MinCodecWrite.Prompt (w : MinCodecWrite Ctx B U) : Prop :=
  ∀ c s b, (w.pollSerialize c s b).outcome ≠ .pending

theorem MinCodecWrite.Prompt.quiet {w : MinCodecWrite Ctx B U} (h : w.Prompt) : w.Quiet :=
  fun c s b hp => absurd hp (h c s b)

namespace AsyncWriter

variable {w : MinCodecWrite Ctx B U}

def accepts (write : Poll (Except E Nat)) (this : AsyncWriter w) : List UInt8 :=
  match this.state, write with
  | .writing, .ready (.ok size) => this.offered.take size
  | _, _                        => []

def Valid (this : AsyncWriter w) (write : Poll (Except E Nat)) : Prop :=
  match write with
  | .ready (.ok size) => size ≤ this.offered.length
  | .panicked _       => False
  | _                 => True

-- A slice of two bytes or more is accepted as a whole.
def Accepts (this : AsyncWriter w) (write : Poll (Except E Nat)) : Prop :=
  2 ≤ this.offered.length → write = .ready (.ok this.offered.length)

instance (this : AsyncWriter w) : (write : Poll (Except E Nat)) → Decidable (this.Valid write)
  | .ready (.ok size)             => inferInstanceAs (Decidable (size ≤ this.offered.length))
  | .panicked _                   => .isFalse id
  | .pending | .ready (.error _)  => .isTrue trivial

instance [DecidableEq E] (this : AsyncWriter w) (write : Poll (Except E Nat)) :
    Decidable (this.Accepts write) :=
  inferInstanceAs (Decidable (_ → _))

def poll (this : AsyncWriter w) (ctx : Ctx) (b : B) :
    Polled w.Serialize B (Except w.Error Unit) :=
  w.pollSerialize ctx this.serializer b

def Quiet [BitSliceMut B] [LawfulBitSliceMut B] (this : AsyncWriter w) (ctx : Ctx) : Prop :=
  ∀ b, BitSliceMut.advance this.cursor (BitSliceMut.new this.buffer) = some b →
    (this.poll ctx b).outcome = .pending → filled (this.poll ctx b).buf = filled b

theorem quiet [BitSliceMut B] [LawfulBitSliceMut B] (h : w.Quiet) (this : AsyncWriter w) (ctx : Ctx) :
    this.Quiet ctx :=
  fun b _ hp => congrArg filled (h ctx this.serializer b hp)

def Always [BitSliceMut B] (P : AsyncWriter w → WriteMoment Ctx E → Prop) :
    AsyncWriter w → List (WriterCall Ctx E U) → Prop
  | _, []                    => True
  | this, .turn m :: calls   => P this m ∧ Always P (this.turn m.ctx m.write).2 calls
  | this, .reset item :: calls => this.reset item = none → Always P this calls

end AsyncWriter

structure Sent (Ctx B : Type) where
  {U : Type}
  codec : MinCodecWrite Ctx B U
  item  : U
  bytes : List UInt8

def Sent.Whole [BitSink B] (s : Sent Ctx B) : Prop :=
  ∀ e, Outputs s.codec s.item e → Bits.IsCut e.bits s.bytes

-- What has been accepted is what is written into a contiguous buffer when the serializer is polled
-- again while it is pending.
def Sent.Contiguous [BitSink B] (s : Sent Ctx B) : Prop :=
  ∀ cs b r, (pollAgain s.codec.pollSerialize cs (s.codec.serialize s.item) b).outcome = .ready r →
    Bits.IsCut (written b
      (pollAgain s.codec.pollSerialize cs (s.codec.serialize s.item) b).buf) s.bytes

-- A writer, the item it serializes with the bytes that the transport has accepted for it, and the
-- items before it.
structure Sending (Ctx B : Type) where
  {U : Type}
  {codec : MinCodecWrite Ctx B U}
  writer   : AsyncWriter codec
  item     : U
  accepted : List UInt8
  before   : List (Sent Ctx B)

namespace Sending

def new (w : MinCodecWrite Ctx B U) (item : U) : Sending Ctx B where
  writer   := .new w item
  item
  accepted := []
  before   := []

def sent (this : Sending Ctx B) : Sent Ctx B where
  codec := this.codec
  item  := this.item
  bytes := this.accepted

def next {w : MinCodecWrite Ctx B U} (this : Sending Ctx B) (writer : AsyncWriter w) (item : U) :
    Sending Ctx B where
  writer
  item
  accepted := []
  before   := this.before ++ [this.sent]

variable [BitSliceMut B]

def turn (this : Sending Ctx B) (m : WriteMoment Ctx E) :
    Flow (Except (AsyncWriterError E this.codec.Error) Unit) × AsyncWriter this.codec :=
  this.writer.turn m.ctx m.write

def after (this : Sending Ctx B) (m : WriteMoment Ctx E) : Sending Ctx B where
  writer   := (this.turn m).2
  item     := this.item
  accepted := this.accepted ++ this.writer.accepts m.write
  before   := this.before

section

variable [LawfulBitSliceMut B]

-- The transport accepts as a whole what has two bytes or more, and the serializer is quiet.
def Steady (this : Sending Ctx B) (m : WriteMoment Ctx E) : Prop :=
  this.writer.Valid m.write ∧ this.writer.Accepts m.write ∧ this.writer.Quiet m.ctx

-- The transport accepts everything as a whole, and the serializer is quiet.
def InFull (this : Sending Ctx B) (m : WriteMoment Ctx E) : Prop :=
  m.write = .ready (.ok this.writer.offered.length) ∧ this.writer.Quiet m.ctx

theorem InFull.steady {this : Sending Ctx B} {m : WriteMoment Ctx E} (h : this.InFull m) :
    this.Steady m := by
  have ⟨hw, hq⟩ := h
  exact ⟨by rw [hw]; exact le_refl _, fun _ => hw, hq⟩

end

-- One iteration, or the next item: of the same type, or of another one. `Allowed` holds of the items,
-- and `Ok` of the iterations.
inductive Step (Allowed : {U : Type} → MinCodecWrite Ctx B U → U → Prop)
    (Ok : Sending Ctx B → WriteMoment Ctx E → Prop) : Sending Ctx B → Sending Ctx B → Prop
  | turn {this : Sending Ctx B} {m : WriteMoment Ctx E} : Ok this m → ¬(this.turn m).1.Panics →
    Step Allowed Ok this (this.after m)
  | reset {this : Sending Ctx B} {item : this.U} {writer : AsyncWriter this.codec} :
    Allowed this.codec item → this.writer.reset item = some writer →
    Step Allowed Ok this (this.next writer item)
  | rebuild {this : Sending Ctx B} {S : Type} {w : MinCodecWrite Ctx B S} {item : S} :
    Allowed w item → this.writer.isDone → Step Allowed Ok this (this.next (.new w item) item)

abbrev Steps (Allowed : {U : Type} → MinCodecWrite Ctx B U → U → Prop)
    (Ok : Sending Ctx B → WriteMoment Ctx E → Prop) : Sending Ctx B → Sending Ctx B → Prop :=
  Relation.ReflTransGen (Step Allowed Ok)

def turns : Sending Ctx B → List (WriteMoment Ctx E) → Sending Ctx B
  | this, []      => this
  | this, m :: ms => (this.after m).turns ms

def again (this : Sending Ctx B) (item : this.U) : Sending Ctx B :=
  this.next ((this.writer.reset item).getD this.writer) item

def Runs (Ok : Sending Ctx B → WriteMoment Ctx E → Prop) :
    Sending Ctx B → List (WriteMoment Ctx E) → Prop
  | _, []         => True
  | this, m :: ms => Ok this m ∧ ¬(this.turn m).1.Panics ∧ Runs Ok (this.after m) ms

instance instDecidableRuns {Ok : Sending Ctx B → WriteMoment Ctx E → Prop}
    [∀ this m, Decidable (Ok this m)] : ∀ this ms, Decidable (Runs Ok this ms)
  | _, []         => .isTrue trivial
  | this, m :: ms =>
    have : Decidable (Runs Ok (this.after m) ms) := instDecidableRuns (this.after m) ms
    inferInstanceAs (Decidable (_ ∧ _ ∧ _))

variable {Allowed Allowed' : {U : Type} → MinCodecWrite Ctx B U → U → Prop}
variable {Ok Ok' : Sending Ctx B → WriteMoment Ctx E → Prop} {this next : Sending Ctx B}

theorem Step.mono (ha : ∀ {U} {w : MinCodecWrite Ctx B U} {item}, Allowed w item → Allowed' w item)
    (ho : ∀ {this m}, Ok this m → Ok' this m) (h : Step Allowed Ok this next) :
    Step Allowed' Ok' this next := by
  cases h
  case turn hm hp    => exact .turn (ho hm) hp
  case reset h hr    => exact .reset (ha h) hr
  case rebuild h hd  => exact .rebuild (ha h) hd

theorem Steps.mono (ha : ∀ {U} {w : MinCodecWrite Ctx B U} {item}, Allowed w item → Allowed' w item)
    (ho : ∀ {this m}, Ok this m → Ok' this m) (h : Steps Allowed Ok this next) :
    Steps Allowed' Ok' this next := by
  induction h
  case refl         => exact .refl
  case tail hs hi   => exact hi.tail (hs.mono ha ho)

theorem Steps.allowed (hb : ∀ s ∈ this.before, Allowed s.codec s.item)
    (ha : Allowed this.codec this.item) (h : Steps Allowed Ok this next) :
    (∀ s ∈ next.before, Allowed s.codec s.item) ∧ Allowed next.codec next.item := by
  induction h
  case refl       => exact ⟨hb, ha⟩
  case tail hs hi =>
    have ⟨hb, ha⟩ := hi
    cases hs
    case turn => exact ⟨hb, ha⟩
    case reset h _ | rebuild h _ =>
      refine ⟨fun s hm => ?_, h⟩
      cases List.mem_append.mp hm
      case inl hm => exact hb s hm
      case inr hm =>
        obtain rfl := List.mem_singleton.mp hm
        exact ha

theorem Runs.steps {P : Sending Ctx B → Prop} {ms : List (WriteMoment Ctx E)} (h : Runs Ok this ms)
    (hp : P this) (ha : ∀ {this m}, P this → Ok this m → ¬(this.turn m).1.Panics → P (this.after m))
    (ho : ∀ {this m}, P this → Ok this m → Ok' this m) :
    Steps Allowed Ok' this (this.turns ms) ∧ P (this.turns ms) := by
  induction ms generalizing this
  case nil          => exact ⟨.refl, hp⟩
  case cons m ms hi =>
    have ⟨hm, hn, h⟩ := h
    have ⟨hs, hp'⟩ := hi h (ha hp hm hn)
    exact ⟨.head (.turn (ho hp hm) hn) hs, hp'⟩

omit [BitSliceMut B] in
theorem reset_of_isDone (hd : this.writer.isDone) (item : this.U) :
    this.writer.reset item = some ((this.writer.reset item).getD this.writer) := by
  unfold AsyncWriter.isDone at hd
  unfold AsyncWriter.reset
  split at hd
  case h_1 => rfl
  case h_2 => cases hd

theorem steps_again {item : this.U} (h : Allowed this.codec item) (hd : this.writer.isDone) :
    Steps Allowed Ok this (this.again item) :=
  .single (.reset h (reset_of_isDone hd item))

end Sending

end Mincodec
