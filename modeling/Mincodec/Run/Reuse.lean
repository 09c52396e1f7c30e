import Mincodec.Run.Writer

-- An `AsyncWriter` that sends one item after another, over a transport that accepts everything.
namespace Mincodec

variable {Ctx B U E : Type}

def bitAt (xs : List UInt8) (i : Nat) : Bool :=
  (Bits.ofBytes xs).getD i false

namespace AsyncWriter

variable {w : MinCodecWrite Ctx B U}

def inFull (this : AsyncWriter w) : Poll (Except Empty Nat) :=
  .ready (.ok this.offered.length)

variable [BitSliceMut B]

def calls (this : AsyncWriter w) : List (WriterCall Ctx E U) → AsyncWriter w
  | []                  => this
  | .turn m :: rest     => (this.turn m.ctx m.write).2.calls rest
  | .reset item :: rest => ((this.reset item).getD this).calls rest

def send (this : AsyncWriter w) : List Ctx → Option (List UInt8)
  | []      => if this.isDone then some [] else none
  | c :: cs =>
    if (this.turn c this.inFull).1.Panics then
      none
    else
      ((this.turn c this.inFull).2.send cs).map (this.accepts this.inFull ++ ·)

-- Where the bits of the buffer come from: `left i` is the position that bit `i` had before the item,
-- or `none` if the bit belongs to the item.
def turnLeft (ctx : Ctx) (left : Nat → Option Nat) (this : AsyncWriter w) : Nat → Option Nat :=
  match this.state with
  | .serialize =>
    match BitSliceMut.advance this.cursor (BitSliceMut.new this.buffer) with
    | some b => fun i =>
      if this.cursor ≤ i ∧ i < BitBufMut.len (this.poll ctx b).buf then none else left i
    | none   => left
  | .writing   =>
    if this.done then
      left
    else fun i =>
      -- Byte 0 is the byte `l`, or 0.
      if i < 8 then
        if this.cursor % 8 = 0 then none else left (8 * (this.cursor / 8 + 1) + i)
      else
        left i
  | .complete  => left

def exposed (this : AsyncWriter w) (left : Nat → Option Nat) : List Ctx → List Nat
  | []      => []
  | c :: cs =>
    (List.range (8 * (this.accepts this.inFull).length)).filterMap left ++
      (this.turn c this.inFull).2.exposed (this.turnLeft c left) cs

-- The positions behind the bits that the serializer writes into a new buffer, up to the end of a byte.
def padding (w : MinCodecWrite Ctx B U) (item : U) (ctx : Ctx) : List Nat :=
  match BitSliceMut.advance 0 (BitSliceMut.new (List.replicate asyncWriterBufSize 0)) with
  | some b =>
    let n := BitBufMut.len (w.pollSerialize ctx (w.serialize item) b).buf
    List.range' n (8 * ((n + 7) / 8) - n)
  | none   => []

end AsyncWriter

end Mincodec
