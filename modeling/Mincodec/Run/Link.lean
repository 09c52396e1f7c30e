import Mincodec.Run.Transfer
import Mincodec.Theorems.ReaderInv
import Mincodec.Stream.Fifo

-- An `AsyncWriter` and an `AsyncReader` at the two ends of a bytestream, in any interleaving.
namespace Mincodec

open Stream

variable {Ctx B B' U E E' : Type}

structure Kind (Ctx B B' : Type) where
  {U : Type}
  write : MinCodecWrite Ctx B' U
  read  : MinCodecRead Ctx B U

def Kind.type (kind : Kind Ctx B B') : ReadType Ctx B :=
  ⟨kind.U, kind.read⟩

namespace Message

def kind (msg : Message Ctx B B') : Kind Ctx B B' :=
  ⟨msg.write, msg.read⟩

end Message

inductive Sending.Next (this : Sending Ctx B') : Message Ctx B B' → Sending Ctx B' → Prop
  | reset {item : this.U} {writer : AsyncWriter this.codec} {read : MinCodecRead Ctx B this.U} :
    this.writer.reset item = some writer →
    Next this ⟨this.codec, read, item⟩ (this.next writer item)
  | rebuild {msg : Message Ctx B B'} : this.writer.isDone →
    Next this msg (this.next (.new msg.write msg.item) msg.item)

-- The two ends, and the items that the owner of the writer has given it.
structure Link (Ctx B B' : Type) where
  messages : List (Message Ctx B B')
  sending  : Sending Ctx B'
  reading  : Reading Ctx B

namespace Link

def new (msg : Message Ctx B B') : Link Ctx B B' where
  messages := [msg]
  sending  := .new msg.write msg.item
  reading  := .new msg.read

def sent (this : Link Ctx B B') : List UInt8 :=
  this.sending.stream.flatten

def fifo (this : Link Ctx B B') : Fifo (Item Ctx B) where
  sent     := this.messages.map Message.received
  received := this.reading.items

variable [BitSlice B] [LawfulBitSlice B]

-- The transport delivers the next of the bytes that it has accepted, and the reader reads the type that
-- both ends have agreed on for the next item.
def Receives (kinds : Nat → Kind Ctx B B') (this : Link Ctx B B') (reading : Reading Ctx B)
    (m : ReadMoment Ctx E) : Prop :=
  reading.Valid m ∧ reading.Quiet m.ctx ∧
    reading.delivered ++ reading.reader.gave m.read <+: this.sent ∧
    reading.type = (kinds reading.items.length).type

variable [BitSliceMut B'] [LawfulBitSliceMut B']

-- One iteration of one of the ends, or its next item. Both ends know the types of all the items, but
-- the reader does not know how far the writer is.
inductive Step (E E' : Type) (Wait : Prop) (Stop : B → Prop) (kinds : Nat → Kind Ctx B B')
    (this : Link Ctx B B') : Link Ctx B B' → Prop
  | write {m : WriteMoment Ctx E} : this.sending.Steady m → ¬(this.sending.turn m).1.Panics →
    Step E E' Wait Stop kinds this { this with sending := this.sending.after m }
  | next {msg : Message Ctx B B'} {w : List Bool} {sending : Sending Ctx B'} :
    kinds this.messages.length = msg.kind → msg.Conveys Wait Stop w → this.sending.Next msg sending →
    Step E E' Wait Stop kinds this { this with messages := this.messages ++ [msg], sending }
  | read {reading : Reading Ctx B} : Reading.Step B' (Reading.Resumable Wait Stop)
      (this.Receives kinds : Reading Ctx B → ReadMoment Ctx E' → Prop) this.reading reading →
    Step E E' Wait Stop kinds this { this with reading }

abbrev Steps (E E' : Type) (Wait : Prop) (Stop : B → Prop) (kinds : Nat → Kind Ctx B B') :
    Link Ctx B B' → Link Ctx B B' → Prop :=
  Relation.ReflTransGen (Step E E' Wait Stop kinds)

-- A turn in which an end gets on: the transport takes all that the writer offers, and has bytes for a
-- reader that waits for them.
inductive Turn (E E' : Type) (kinds : Nat → Kind Ctx B B') (this : Link Ctx B B') :
    Link Ctx B B' → Prop
  | write {m : WriteMoment Ctx E} : this.sending.InFull m → ¬(this.sending.turn m).1.Panics →
    Turn E E' kinds this { this with sending := this.sending.after m }
  | read {m : ReadMoment Ctx E'} : this.Receives kinds this.reading m →
    (this.reading.reader.state = .reading → ∃ data, m.read = .ready (.ok data)) →
    ¬(this.reading.turn B' m).1.Panics →
    Turn E E' kinds this { this with reading := this.reading.after B' m }

inductive Turns (E E' : Type) (kinds : Nat → Kind Ctx B B') :
    Nat → Link Ctx B B' → Link Ctx B B' → Prop
  | refl {this : Link Ctx B B'} : Turns E E' kinds 0 this this
  | tail {n : Nat} {this next last : Link Ctx B B'} : Turns E E' kinds n this next →
    Turn E E' kinds next last → Turns E E' kinds (n + 1) this last

end Link

end Mincodec
