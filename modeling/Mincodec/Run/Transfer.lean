import Mincodec.Run.Reader
import Mincodec.Run.Writer
import Mathlib.Data.List.Forall2

-- Items that are sent by an `AsyncWriter` to an `AsyncReader`.
namespace Mincodec

open Stream

variable {Ctx B B' U E : Type}

structure Message (Ctx B B' : Type) where
  {U : Type}
  write : MinCodecWrite Ctx B' U
  read  : MinCodecRead Ctx B U
  item  : U

namespace Message

def type (msg : Message Ctx B B') : ReadType Ctx B :=
  ⟨msg.U, msg.read⟩

def received (msg : Message Ctx B B') : Item Ctx B :=
  ⟨msg.read, .ok msg.item⟩

def Parses [BitSource B] (Wait : Prop) (Stop : B → Prop) (msg : Message Ctx B B')
    (w : List Bool) : Prop :=
  ∃ p, Decodes Wait Stop msg.read.pollDeserialize msg.read.deserialize p ∧
    p.Halts w (.finished (.ok msg.item))

def Conveys [BitSource B] [BitSink B'] (Wait : Prop) (Stop : B → Prop) (msg : Message Ctx B B')
    (w : List Bool) : Prop :=
  Resumes msg.write msg.item (.done w) ∧ msg.Parses Wait Stop w

def Carried (msg : Message Ctx B B') (s : Sent Ctx B') : Prop :=
  s = ⟨msg.write, msg.item, s.bytes⟩

end Message

def Sending.all (this : Sending Ctx B') : List (Sent Ctx B') :=
  this.before ++ [this.sent]

def Sending.stream (this : Sending Ctx B') : List (List UInt8) :=
  this.all.map Sent.bytes

namespace Reading

def At (messages : List (Message Ctx B B')) (this : Reading Ctx B) : Prop :=
  ∃ msg, messages[this.items.length]? = some msg ∧ this.type = msg.type

variable [BitSlice B]

-- The deserializer is pending on what is in the window.
def Waits (this : Reading Ctx B) (ctx : Ctx) : Prop :=
  this.reader.state = .deserialize ∧
    ∃ b, this.reader.window = some b ∧ (this.poll ctx b).outcome = .pending

variable [LawfulBitSlice B]

-- The reader is at the next of the items, the bytes it is given are the next ones of `stream`, and the
-- deserializer is quiet.
def Receives (messages : List (Message Ctx B B')) (stream : List UInt8) (this : Reading Ctx B)
    (m : ReadMoment Ctx E) : Prop :=
  this.Valid m ∧ this.Quiet m.ctx ∧ this.delivered ++ this.reader.gave m.read <+: stream ∧
    this.At messages

def Idle (messages : List (Message Ctx B B')) (stream : List UInt8) (ctx : Ctx) (this : Reading Ctx B)
    (m : ReadMoment Ctx E) : Prop :=
  this.Receives messages stream m ∧ m.ctx = ctx ∧ m.read = .pending

-- What a reader makes of a stream of messages.
structure Restores (B' E : Type) [BitSliceMut B'] (Wait : Prop) (Stop : B → Prop)
    (messages : List (Message Ctx B B')) (stream : List (List UInt8)) (this : Reading Ctx B) :
    Prop where
  items_eq   : this.items = (messages.take this.items.length).map Message.received
  not_panics : ∀ m : ReadMoment Ctx E, this.Receives messages stream.flatten m →
    this.reader.state ≠ .complete → ¬(this.turn B' m).1.Panics
  -- No byte behind the last one of the message is waited for.
  needs      : this.At messages → this.reader.state = .reading →
    this.delivered.length < (stream.take (this.items.length + 1)).flatten.length
  -- Nor any iteration after it has been delivered, but for the deserializer.
  returns    : this.At messages → this.reader.state = .deserialize →
    (stream.take (this.items.length + 1)).flatten.length ≤ this.delivered.length →
    ∀ m : ReadMoment Ctx E, this.Waits m.ctx ∧ (this.turn B' m).1 = .ret .pending ∨
      AsyncReader.returned (this.turn B' m).1 =
        (messages[this.items.length]?.map Message.received).toList
  -- When all has been delivered, all messages are returned, but for the deserializer.
  completes  : this.delivered = stream.flatten →
    (this.reader.state = .complete ∨ this.At messages) → ∀ ctx, ∃ last : Reading Ctx B,
      Steps B' (Resumable Wait Stop)
        (Idle messages stream.flatten ctx : Reading Ctx B → ReadMoment Ctx E → Prop) this last ∧
      (last.items = messages.map Message.received ∨ last.Waits ctx)

end Reading

end Mincodec
