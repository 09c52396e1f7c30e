import Mincodec.Codec
import Mincodec.BitSlice
import Mincodec.Stream.Loop

-- `AsyncWriter`: items are serialized into a bytestream.
namespace Mincodec

open Stream BitSink

variable {Ctx B U E : Type}

def asyncWriterBufSize : Nat :=
  1024

inductive AsyncWriterState
  | serialize
  | writing
  | complete
  deriving DecidableEq

-- The writer without the `AsyncWrite`. What that answers is a parameter of each iteration.
structure AsyncWriter (w : MinCodecWrite Ctx B U) where
  buffer     : List UInt8
  serializer : w.Serialize
  cursor     : Nat
  done       : Bool
  state      : AsyncWriterState

inductive AsyncWriterError (T U : Type)
  | write (e : T)
  | serialize (e : U)
  deriving DecidableEq

namespace AsyncWriter

variable {w : MinCodecWrite Ctx B U}

def new (w : MinCodecWrite Ctx B U) (data : U) : AsyncWriter w where
  buffer     := List.replicate asyncWriterBufSize 0
  cursor     := 0
  done       := false
  serializer := w.serialize data
  state      := .serialize

def complete (w : MinCodecWrite Ctx B U) (data : U) : AsyncWriter w where
  buffer     := List.replicate asyncWriterBufSize 0
  cursor     := 0
  done       := true
  serializer := w.serialize data
  state      := .complete

def reset (this : AsyncWriter w) (item : U) : Option (AsyncWriter w) :=
  match this.state with
  | .complete =>
    some { this with done := false, state := .serialize, serializer := w.serialize item }
  | _         => none

def isDone (this : AsyncWriter w) : Bool :=
  match this.state with
  | .complete => true
  | _         => false

-- The state `Writing`, before `poll_write`: the cursor is divided. Returns the byte `l` as well.
def divide (this : AsyncWriter w) : Except String (UInt8 × AsyncWriter w) :=
  let cursor := this.cursor / 8
  if this.cursor % 8 = 0 then
    .ok (0, { this with cursor })
  else if this.done then
    .ok (0, { this with cursor := cursor + 1 })
  else
    match this.buffer[cursor + 1]? with
    | some l => .ok (l, { this with cursor })
    | none   => .error (indexOutOfBounds (cursor + 1) this.buffer.length)

def offered (this : AsyncWriter w) : List UInt8 :=
  match this.divide with
  | .ok (_, this) => this.buffer.take this.cursor
  | .error _      => []

def wrote (this : AsyncWriter w) (re : Nat) (l : UInt8) (size : Nat) :
    Flow (Except (AsyncWriterError E w.Error) Unit) × AsyncWriter w :=
  if size ≤ this.cursor then
    let cursor := this.cursor - size
    if cursor = 0 then
      if this.done then
        (.ret (.ready (.ok ())), { this with cursor, state := .complete })
      else
        (.next, { this with cursor := re, buffer := this.buffer.set 0 l, state := .serialize })
    else
      (.next, { this with cursor })
  else
    (.ret (.panicked subtractOverflow), this)

def answered (this : AsyncWriter w) (re : Nat) (l : UInt8) (write : Poll (Except E Nat)) :
    Flow (Except (AsyncWriterError E w.Error) Unit) × AsyncWriter w :=
  match write with
  | .pending          => (.ret .pending, this)
  | .ready (.ok size) => this.wrote re l size
  | .ready (.error e) => (.ret (.ready (.error (.write e))), this)
  | .panicked msg     => (.unwound msg, this)

def turnWriting (write : Poll (Except E Nat)) (this : AsyncWriter w) :
    Flow (Except (AsyncWriterError E w.Error) Unit) × AsyncWriter w :=
  match this.divide with
  | .error msg     => (.ret (.panicked msg), this)
  | .ok (l, that)  =>
    if that.cursor ≤ that.buffer.length then
      that.answered (this.cursor % 8) l write
    else
      (.ret (.panicked (rangeEnd that.cursor that.buffer.length)), that)

variable [BitSliceMut B]

-- The state `Serialize`, once the serializer has been polled on the buffer.
def serialized (this : AsyncWriter w) (x : Polled w.Serialize B (Except w.Error Unit)) :
    Flow (Except (AsyncWriterError E w.Error) Unit) × AsyncWriter w :=
  let this := { this with buffer := BitSliceMut.bytes x.buf, serializer := x.state }
  let cursor := this.cursor + BitBufMut.len x.buf
  match x.outcome with
  | .pending            => (.ret .pending, this)
  | .ready (.ok ())     => (.next, { this with cursor, state := .writing, done := true })
  | .ready (.error e)   =>
    (.ret (.ready (.error (.serialize e))), { this with cursor, state := .writing, done := true })
  | .insufficient       => (.next, { this with cursor, state := .writing })
  | .panicked msg       => (.unwound msg, this)

def turnSerialize (ctx : Ctx) (this : AsyncWriter w) :
    Flow (Except (AsyncWriterError E w.Error) Unit) × AsyncWriter w :=
  match BitSliceMut.advance this.cursor (BitSliceMut.new this.buffer) with
  | some buf => this.serialized (w.pollSerialize ctx this.serializer buf)
  | none     => (.ret (.panicked (unwrapErr "Insufficient")), this)

-- One iteration of the loop of `poll`. The answer of `poll_write` is `write`, with the number of bytes
-- that it has taken from the slice it was offered.
def turn (ctx : Ctx) (write : Poll (Except E Nat)) (this : AsyncWriter w) :
    Flow (Except (AsyncWriterError E w.Error) Unit) × AsyncWriter w :=
  match this.state with
  | .serialize => this.turnSerialize ctx
  | .writing   => this.turnWriting write
  | .complete  => (.ret (.panicked "AsyncWriter polled after completion"), this)

-- The body of the loop of `poll`, and how often `poll_write` has been called in it. The transport
-- answers these calls with `writes 0`, `writes 1` and so on.
def body (ctx : Ctx) (writes : Nat → Poll (Except E Nat)) (s : Nat × AsyncWriter w) :
    (Nat × AsyncWriter w) ⊕ (Flow (Except (AsyncWriterError E w.Error) Unit) × AsyncWriter w) :=
  let x := s.2.turn ctx (writes s.1)
  match x.1 with
  | .next => .inl (if s.2.state = .writing then s.1 + 1 else s.1, x.2)
  | _     => .inr x

def pollLoop (ctx : Ctx) (writes : Nat → Poll (Except E Nat)) (fuel : Nat) (this : AsyncWriter w) :
    Option (Flow (Except (AsyncWriterError E w.Error) Unit) × AsyncWriter w) :=
  loop (body ctx writes) fuel (0, this)

end AsyncWriter

end Mincodec
