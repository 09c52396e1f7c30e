import Mincodec.Codec
import Mincodec.BitSlice

-- `AsyncReader`: items are deserialized from a bytestream.
namespace Mincodec

open Stream BitSource

variable {Ctx B B' U E : Type}

def asyncReaderBufSize : Nat :=
  1024

inductive AsyncReaderState
  | reading
  | deserialize
  | complete
  deriving DecidableEq

-- The reader without the `AsyncRead`. What that answers is a parameter of each iteration.
structure AsyncReader (r : MinCodecRead Ctx B U) where
  buffer       : List UInt8
  cursor       : Nat
  lastByte     : Nat
  deserializer : r.Deserialize
  state        : AsyncReaderState

inductive AsyncReaderError (T U : Type)
  | read (e : T)
  | deserialize (e : U)
  deriving DecidableEq

-- `cursor + 7 & !7`
def alignUp (cursor : Nat) : Nat :=
  (cursor + 7) / 8 * 8

-- `copy_within(start..stop, 0)`
def copyWithin (xs : List UInt8) (start stop : Nat) : List UInt8 :=
  (xs.take stop).drop start ++ xs.drop (stop - start)

namespace AsyncReader

variable {r : MinCodecRead Ctx B U}

def new (r : MinCodecRead Ctx B U) : AsyncReader r where
  buffer       := List.replicate asyncReaderBufSize 0
  cursor       := 0
  lastByte     := 0
  deserializer := r.deserialize
  state        := .deserialize

-- `none` is `Err(Incomplete)`.
def reset (this : AsyncReader r) : Option (AsyncReader r) :=
  match this.state with
  | .complete => some { this with deserializer := r.deserialize, state := .deserialize }
  | _         => none

def resetAs {S : Type} (this : AsyncReader r) (s : MinCodecRead Ctx B S) : Option (AsyncReader s) :=
  match this.state with
  | .complete =>
    some
      { buffer       := this.buffer
        cursor       := this.cursor
        lastByte     := this.lastByte
        deserializer := s.deserialize
        state        := .deserialize }
  | _         => none

-- The state `Deserialize`, once the deserializer has been polled on the window.
def deserialized [BitSlice B] (this : AsyncReader r) (x : Polled r.Deserialize B (Except r.Error U)) :
    Flow (Except (AsyncReaderError E r.Error) U) × AsyncReader r :=
  match x.outcome with
  | .pending => (.ret .pending, { this with deserializer := x.state })
  | .ready item =>
    (.ret (.ready (item.mapError .deserialize)),
      { this with
        deserializer := x.state
        cursor       := alignUp (BitSlice.len x.buf)
        state        := .complete })
  | .insufficient =>
    (.next,
      { this with
        deserializer := x.state
        cursor       := BitSlice.len x.buf
        state        := .reading })
  | .panicked msg => (.unwound msg, { this with deserializer := x.state })

def turnDeserialize [BitSlice B] (ctx : Ctx) (this : AsyncReader r) :
    Flow (Except (AsyncReaderError E r.Error) U) × AsyncReader r :=
  if this.lastByte ≤ this.buffer.length then
    match BitSlice.advance this.cursor (BitSlice.new (this.buffer.take this.lastByte)) with
    | some buf => this.deserialized (r.pollDeserialize ctx this.deserializer buf)
    | none     => (.ret (.panicked (unwrapErr "Insufficient")), this)
  else
    (.ret (.panicked (rangeEnd this.lastByte this.buffer.length)), this)

def offered (this : AsyncReader r) : Option Nat :=
  if this.cursor / 8 ≤ this.lastByte ∧ this.lastByte - this.cursor / 8 ≤ asyncReaderBufSize then
    some (asyncReaderBufSize - (this.lastByte - this.cursor / 8))
  else
    none

def fill (B' : Type) [BitSliceMut B'] (this : AsyncReader r) (data : List UInt8) :
    Flow (Except (AsyncReaderError E r.Error) U) × AsyncReader r :=
  let cursorBytes := this.cursor / 8
  if this.lastByte ≤ this.buffer.length then
    let cursor := this.cursor % 8
    let firstByte := this.lastByte - cursorBytes
    match BitSliceMut.advance (firstByte * 8 + cursor)
        (BitSliceMut.new (copyWithin this.buffer cursorBytes this.lastByte) : B') with
    | none     => (.ret (.panicked "could not advance by cursor remainder: Insufficient"), this)
    | some buf =>
      if data.length ≤ asyncReaderBufSize then
        match BitSliceMut.writeAlignedAll data buf with
        | none     => (.ret (.panicked (unwrapErr "..")), this)
        | some buf =>
          (.next,
            { this with
              buffer   := BitSliceMut.bytes buf
              cursor
              lastByte := firstByte + data.length
              state    := .deserialize })
      else
        (.ret (.panicked (rangeEnd data.length asyncReaderBufSize)), this)
  else
    (.ret (.panicked (rangeEnd this.lastByte this.buffer.length)), this)

-- The state `Reading`, once `poll_read` has answered.
def answered (B' : Type) [BitSliceMut B'] (read : Poll (Except E (List UInt8)))
    (this : AsyncReader r) : Flow (Except (AsyncReaderError E r.Error) U) × AsyncReader r :=
  match read with
  | .pending          => (.ret .pending, this)
  | .ready (.error e) => (.ret (.ready (.error (.read e))), this)
  | .ready (.ok data) => this.fill B' data
  | .panicked msg     => (.unwound msg, this)

def turnReading (B' : Type) [BitSliceMut B'] (read : Poll (Except E (List UInt8)))
    (this : AsyncReader r) : Flow (Except (AsyncReaderError E r.Error) U) × AsyncReader r :=
  match this.offered with
  | none   => (.ret (.panicked subtractOverflow), this)
  | some _ => this.answered B' read

-- One iteration of the loop of `poll`. The answer of `poll_read` is `read`, with the bytes that it
-- has put into the slice it was offered.
def turn (B' : Type) [BitSlice B] [BitSliceMut B'] (ctx : Ctx) (read : Poll (Except E (List UInt8)))
    (this : AsyncReader r) : Flow (Except (AsyncReaderError E r.Error) U) × AsyncReader r :=
  match this.state with
  | .deserialize => this.turnDeserialize ctx
  | .reading     => this.turnReading B' read
  | .complete    => (.ret (.panicked "AsyncReader polled after completion"), this)

-- `poll`, given up after `fuel` iterations of its loop. The transport answers the calls of
-- `poll_read` with `reads`, and after them with no bytes, which is the end of the stream.
def poll (B' : Type) [BitSlice B] [BitSliceMut B'] (ctx : Ctx) :
    Nat → List (Poll (Except E (List UInt8))) → AsyncReader r →
      Option (Flow (Except (AsyncReaderError E r.Error) U) × AsyncReader r)
  | 0, _, _              => none
  | fuel + 1, reads, this =>
    let x := this.turn B' ctx (reads.headD (.ready (.ok [])))
    match x.1, this.state with
    | .next, .reading => poll B' ctx fuel reads.tail x.2
    | .next, _        => poll B' ctx fuel reads x.2
    | _, _            => some x

end AsyncReader

end Mincodec
