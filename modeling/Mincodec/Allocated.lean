import Mincodec.Array
import Mincodec.Primitive

namespace Mincodec

open Stream BitSource BitSink

variable {Ctx B T : Type} {r : MinCodecRead Ctx B T} {w : MinCodecWrite Ctx B T}

-- The panic of `vec![0; len]` and of `reserve_exact(len)` when the items would take more than
-- `isize::MAX` bytes.
def capacityOverflow : String :=
  "capacity overflow"

def boxRead (r : MinCodecRead Ctx B T) : MinCodecRead Ctx B T where
  Deserialize             := r.Deserialize
  Error                   := r.Error
  deserialize             := r.deserialize
  pollDeserialize ctx s b := (r.pollDeserialize ctx s b).lift id id

def boxWrite (w : MinCodecWrite Ctx B T) : MinCodecWrite Ctx B T where
  Serialize             := w.Serialize
  Error                 := w.Error
  serialize             := w.serialize
  pollSerialize ctx s b := (w.pollSerialize ctx s b).lift id id

def Str :=
  { s : String // s.utf8ByteSize ≤ isizeMax }

structure FromUtf8Error where
  bytes : List UInt8

inductive StringReadError
  | tooLong
  | utf8 (e : FromUtf8Error)

def Str.bytes (s : Str) : List UInt8 :=
  s.val.toByteArray.data.toList

def Str.fromUtf8 (bytes : List UInt8) : Except FromUtf8Error Str :=
  if h : (ByteArray.mk bytes.toArray).IsValidUTF8 ∧ bytes.length ≤ isizeMax then
    .ok ⟨.fromUTF8 ⟨bytes.toArray⟩ h.1, h.2⟩
  else
    .error ⟨bytes⟩

theorem Str.fromUtf8_bytes (s : Str) : Str.fromUtf8 s.bytes = .ok s := by
  obtain ⟨s, h⟩ := s
  unfold fromUtf8 bytes
  rw [dif_pos ⟨s.isValidUTF8, h⟩]
  rfl

inductive StringDeserializeState
  | vlq
  | reading
  | complete

structure StringDeserialize (B : Type) [BitBuf B] where
  state : StringDeserializeState
  vlq   : BitBuf.AsyncReadVlq B
  data  : BitBuf.Fill B

namespace StringDeserialize

variable [BitBuf B]

def new : StringDeserialize B :=
  ⟨.vlq, BitBuf.asyncRead, BitBuf.newFill []⟩

def pollReading (this : StringDeserialize B) (b : B) :
    Polled (StringDeserialize B) B (Except StringReadError Str) :=
  (BitBuf.pollFill this.data b).andThen (fun data => { this with data }) Empty.elim
    fun bytes _ b =>
      ⟨.ready ((Str.fromUtf8 bytes).mapError .utf8), ⟨.complete, this.vlq, BitBuf.newFill []⟩, b⟩

def pollDeserialize (this : StringDeserialize B) (b : B) :
    Polled (StringDeserialize B) B (Except StringReadError Str) :=
  match this.state with
  | .vlq =>
    (BitBuf.pollVlq this.vlq b).andThen (fun vlq => { this with vlq }) Empty.elim
      fun len vlq b =>
        match usizeTryFrom len.toBitVec with
        | .error _ => ⟨.ready (.error .tooLong), { this with vlq }, b⟩
        | .ok len  =>
          if len.toNat ≤ isizeMax then
            pollReading ⟨.reading, vlq, BitBuf.newFill (List.replicate len.toNat 0)⟩ b
          else
            ⟨.panicked capacityOverflow, { this with vlq }, b⟩
  | .reading  => this.pollReading b
  | .complete => ⟨.panicked "String deserialize polled after completion", this, b⟩

end StringDeserialize

def stringRead [BitBuf B] : MinCodecRead Ctx B Str where
  Deserialize         := StringDeserialize B
  Error               := StringReadError
  deserialize         := .new
  pollDeserialize _ s := s.pollDeserialize

structure BytesSerialize (B : Type) [BitBufMut B] where
  drain : BitBufMut.Drain B

def BytesSerialize.pollSerialize [BitBufMut B] (this : BytesSerialize B) (b : B) :
    Polled (BytesSerialize B) B (Except Empty Unit) :=
  (BitBufMut.pollDrain this.drain b).lift .mk id

def stringWrite [BitBufMut B] : MinCodecWrite Ctx B Str where
  Serialize         := BytesSerialize B
  Error             := Empty
  serialize s       := ⟨BitBufMut.newDrain (BitBufMut.vlq B (.ofNat s.bytes.length) ++ s.bytes)⟩
  pollSerialize _ s := s.pollSerialize

-- A `Vec` whose items take `size` bytes each.
def Vec (T : Type) (size : Nat) :=
  { items : List T // items.length < 2 ^ 64 ∧ items.length * size ≤ isizeMax }

instance {T : Type} {size : Nat} [DecidableEq T] : DecidableEq (Vec T size) :=
  inferInstanceAs (DecidableEq (Subtype _))

inductive VecReadError (ε : Type)
  | tooLong
  | item (e : ε)
  deriving DecidableEq

inductive VecDeserializeState
  | vlq
  | reading
  | complete

structure VecDeserialize [BitBuf B] (r : MinCodecRead Ctx B T) (size : Nat) where
  state : VecDeserializeState
  vlq   : BitBuf.AsyncReadVlq B
  len   : UInt64
  deser : r.Deserialize
  data  : List T
  fits  : data.length ≤ len.toNat
  holds : len.toNat * size ≤ isizeMax
  fresh : state = .vlq → data = []

namespace VecDeserialize

variable [BitBuf B] {size : Nat}

def new (r : MinCodecRead Ctx B T) (size : Nat) : VecDeserialize r size where
  state := .vlq
  vlq   := BitBuf.asyncRead
  len   := 0
  deser := r.deserialize
  data  := []
  fits  := Nat.le_refl 0
  holds := by simp
  fresh := fun _ => rfl

def pollReading (ctx : Ctx) (this : VecDeserialize r size) (hr : this.state = .reading) (b : B) :
    Polled (VecDeserialize r size) B (Except (VecReadError r.Error) (Vec T size)) :=
  if h : this.data.length = this.len.toNat then
    ⟨.ready (.ok ⟨this.data, h ▸ this.len.toNat_lt, h ▸ this.holds⟩),
      { this with state := .complete, data := [], fits := Nat.zero_le _, fresh := fun _ => rfl }, b⟩
  else
    (r.pollDeserialize ctx this.deser b).andThen (fun deser => { this with deser }) .item
      fun item _ b =>
        pollReading ctx
          { this with
            data  := this.data ++ [item]
            deser := r.deserialize
            fits  := by have := this.fits; simp; omega
            fresh := by simp [hr] } hr b
termination_by this.len.toNat - this.data.length
decreasing_by have := this.fits; simp; omega

def pollDeserialize (ctx : Ctx) (this : VecDeserialize r size) (b : B) :
    Polled (VecDeserialize r size) B (Except (VecReadError r.Error) (Vec T size)) :=
  match hs : this.state with
  | .vlq =>
    (BitBuf.pollVlq this.vlq b).andThen (fun vlq => { this with vlq }) Empty.elim
      fun len vlq b =>
        match usizeTryFrom len.toBitVec with
        | .error _ => ⟨.ready (.error .tooLong), { this with vlq }, b⟩
        | .ok len  =>
          if h : len.toNat * size ≤ isizeMax then
            pollReading ctx
              { this with
                state := .reading, vlq, len
                fits  := by simp [this.fresh hs]
                holds := h
                fresh := by simp } rfl b
          else
            ⟨.panicked capacityOverflow, { this with vlq }, b⟩
  | .reading  => this.pollReading ctx hs b
  | .complete => ⟨.panicked "Vec deserialize polled after completion", this, b⟩

end VecDeserialize

def vecRead [BitBuf B] (r : MinCodecRead Ctx B T) (size : Nat) :
    MinCodecRead Ctx B (Vec T size) where
  Deserialize     := VecDeserialize r size
  Error           := VecReadError r.Error
  deserialize     := .new r size
  pollDeserialize := VecDeserialize.pollDeserialize

inductive VecSerializeState
  | vlq
  | writing
  | complete

structure VecSerialize [BitBufMut B] (w : MinCodecWrite Ctx B T) where
  ser   : Option w.Serialize
  state : VecSerializeState
  vlq   : BitBufMut.Drain B
  data  : List T

namespace VecSerialize

variable [BitBufMut B]

def pollWriting (ctx : Ctx) (this : VecSerialize w) (b : B) :
    Polled (VecSerialize w) B (Except w.Error Unit) :=
  (pollItems w ctx this.data this.ser b).andThen
    (fun s => { this with data := s.1, ser := s.2 }) id fun _ s b =>
      ⟨.ready (.ok ()), { this with data := s.1, ser := s.2, state := .complete }, b⟩

def pollSerialize (ctx : Ctx) (this : VecSerialize w) (b : B) :
    Polled (VecSerialize w) B (Except w.Error Unit) :=
  match this.state with
  | .vlq =>
    (BitBufMut.pollDrain this.vlq b).andThen (fun vlq => { this with vlq }) Empty.elim
      fun _ vlq b => pollWriting ctx { this with vlq, state := .writing } b
  | .writing  => this.pollWriting ctx b
  | .complete => ⟨.panicked "Vec serialize polled after completion", this, b⟩

end VecSerialize

def vecWrite [BitBufMut B] (w : MinCodecWrite Ctx B T) (size : Nat) :
    MinCodecWrite Ctx B (Vec T size) where
  Serialize       := VecSerialize w
  Error           := w.Error
  serialize items :=
    { ser   := none
      state := .vlq
      vlq   := BitBufMut.newDrain (BitBufMut.vlq B (.ofNat items.val.length))
      data  := items.val }
  pollSerialize   := VecSerialize.pollSerialize

end Mincodec
