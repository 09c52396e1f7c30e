import Mincodec.Codec

namespace Mincodec

open Stream BitSource BitSink

variable {Ctx B T : Type} {Wait : Prop}

def unwrapNone : String :=
  "called `Option::unwrap()` on a `None` value"

-- The codecs that `impl_primitives!` generates for the numbers. A number of `n` bytes is its bit
-- pattern, `n` is its `size_of`.
structure NumberDeserialize (B : Type) [BitBuf B] where
  data : Option (BitBuf.Fill B)

structure NumberSerialize (B : Type) [BitBufMut B] where
  data : Option (BitBufMut.Drain B)

def fromBeBytes (n : Nat) (bytes : List UInt8) : BitVec (8 * n) :=
  .ofNat _ (Bits.ofBe bytes)

def toBeBytes {n : Nat} (x : BitVec (8 * n)) : List UInt8 :=
  Bits.toBe n x.toNat

theorem fromBeBytes_toBeBytes {n : Nat} (x : BitVec (8 * n)) :
    fromBeBytes n (toBeBytes x) = x := by
  have h : x.toNat < 256 ^ n := by
    have := x.isLt
    rwa [Nat.pow_mul] at this
  simp [fromBeBytes, toBeBytes, Bits.ofBe_toBe, Nat.mod_eq_of_lt h]

def NumberDeserialize.poll [BitBuf B] (n : Nat) (this : NumberDeserialize B) (b : B) :
    Polled (NumberDeserialize B) B (Except Empty (BitVec (8 * n))) :=
  match this.data with
  | none   => ⟨.panicked unwrapNone, this, b⟩
  | some f =>
    (BitBuf.pollFill f b).andThen (⟨some ·⟩) id fun bytes _ b =>
      ⟨.ready (.ok (fromBeBytes n bytes)), ⟨none⟩, b⟩

def NumberSerialize.poll [BitBufMut B] (this : NumberSerialize B) (b : B) :
    Polled (NumberSerialize B) B (Except Empty Unit) :=
  match this.data with
  | none   => ⟨.panicked unwrapNone, this, b⟩
  | some d =>
    (BitBufMut.pollDrain d b).andThen (⟨some ·⟩) id fun _ _ b => ⟨.ready (.ok ()), ⟨none⟩, b⟩

def numberRead [BitBuf B] (n : Nat) : MinCodecRead Ctx B (BitVec (8 * n)) where
  Deserialize         := NumberDeserialize B
  Error               := Empty
  deserialize         := ⟨some (BitBuf.newFill (List.replicate n 0))⟩
  pollDeserialize _ s := s.poll n

def numberWrite [BitBufMut B] (n : Nat) : MinCodecWrite Ctx B (BitVec (8 * n)) where
  Serialize         := NumberSerialize B
  Error             := Empty
  serialize x       := ⟨some (BitBufMut.newDrain (toBeBytes x))⟩
  pollSerialize _ s := s.poll

def numberParser (n : Nat) : Parser Empty (BitVec (8 * n)) :=
  (fillParser (List.replicate n 0) (8 * n)).map (fromBeBytes n)

def numberBits {n : Nat} (x : BitVec (8 * n)) : List Bool :=
  Bits.ofBytes (toBeBytes x)

theorem numberRead_decodes [BitBuf B] [LawfulBitBuf B] (n : Nat) :
    (numberRead n : MinCodecRead Ctx B _).Decodes Wait (numberParser n) := by
  refine ⟨fun (s : NumberDeserialize B) q => ∃ f q', s.data = some f ∧
    Decodes Wait Drained (fun (_ : Unit) => BitBuf.pollFill) f q' ∧
    q = (q'.mapErr id).bind fun bytes => .pure (fromBeBytes n bytes), ?_, ?_⟩
  · rintro c s q b ⟨f, q', hs, h, rfl⟩
    show Follows _ _ _ _ _ _ (NumberDeserialize.poll n s b)
    simp only [NumberDeserialize.poll, hs]
    apply (h.follows () b).andThen
    · exact fun f q h => ⟨f, q, rfl, h, rfl⟩
    · rintro bytes f b' _ rfl
      exact .ready rfl
  · refine ⟨_, _, rfl, BitBuf.fill_decodes _, ?_⟩
    rw [List.length_replicate, Parser.mapErr_id]
    rfl

theorem numberWrite_encodes [BitBufMut B] [LawfulBitBufMut B] (n : Nat) :
    (numberWrite n : MinCodecWrite Ctx B _).Encodes fun x => .done (numberBits x) := by
  intro x
  refine ⟨fun (s : NumberSerialize B) e => ∃ d w, s.data = some d ∧
    Drains BitBufMut.drainInto d w ∧ e = .done w, ?_, ?_⟩
  · rintro c s e b ⟨d, w, hs, h, rfl⟩
    show Writes _ _ _ _ (NumberSerialize.poll s b)
    simp only [NumberSerialize.poll, hs]
    apply (h.writes b).finish_id
    · rintro d _ ⟨w, hd, rfl⟩
      exact ⟨d, w, rfl, hd, rfl⟩
    · exact fun _ _ => .ready
  · exact ⟨_, _, rfl, LawfulBitBufMut.drain_drains _, rfl⟩

theorem numberWrite_encodesOnce [BitBufMut B] [LawfulBitBufMut B] (n : Nat) :
    (numberWrite n : MinCodecWrite Ctx B _).EncodesOnce numberBits := by
  intro x c b
  show WritesOnce _ b (NumberSerialize.poll ⟨some (BitBufMut.newDrain (toBeBytes x))⟩ b)
  simp only [NumberSerialize.poll]
  exact ((LawfulBitBufMut.drain_drains (toBeBytes x)).writesOnce b).finish fun _ _ => .ready

theorem numberParser_halts {n : Nat} (x : BitVec (8 * n)) :
    (numberParser n).Halts (numberBits x) (.finished (.ok x)) := by
  have hl : (numberBits x).length = 8 * n := by simp [numberBits, toBeBytes]
  have h := (fillParser_halts (List.replicate n 0) (numberBits x)).map (f := fromBeBytes n)
  rw [hl, List.drop_of_length_le (by simp), List.append_nil, numberBits, Bits.toBytes_ofBytes,
    fromBeBytes_toBeBytes] at h
  exact h

section
variable [BitBuf B]

def u8Read   : MinCodecRead Ctx B (BitVec (8 * 1))  := numberRead 1
def u16Read  : MinCodecRead Ctx B (BitVec (8 * 2))  := numberRead 2
def u32Read  : MinCodecRead Ctx B (BitVec (8 * 4))  := numberRead 4
def u64Read  : MinCodecRead Ctx B (BitVec (8 * 8))  := numberRead 8
def u128Read : MinCodecRead Ctx B (BitVec (8 * 16)) := numberRead 16
def i8Read   : MinCodecRead Ctx B (BitVec (8 * 1))  := numberRead 1
def i16Read  : MinCodecRead Ctx B (BitVec (8 * 2))  := numberRead 2
def i32Read  : MinCodecRead Ctx B (BitVec (8 * 4))  := numberRead 4
def i64Read  : MinCodecRead Ctx B (BitVec (8 * 8))  := numberRead 8
def i128Read : MinCodecRead Ctx B (BitVec (8 * 16)) := numberRead 16
def f32Read  : MinCodecRead Ctx B (BitVec (8 * 4))  := numberRead 4
def f64Read  : MinCodecRead Ctx B (BitVec (8 * 8))  := numberRead 8

end

section
variable [BitBufMut B]

def u8Write   : MinCodecWrite Ctx B (BitVec (8 * 1))  := numberWrite 1
def u16Write  : MinCodecWrite Ctx B (BitVec (8 * 2))  := numberWrite 2
def u32Write  : MinCodecWrite Ctx B (BitVec (8 * 4))  := numberWrite 4
def u64Write  : MinCodecWrite Ctx B (BitVec (8 * 8))  := numberWrite 8
def u128Write : MinCodecWrite Ctx B (BitVec (8 * 16)) := numberWrite 16
def i8Write   : MinCodecWrite Ctx B (BitVec (8 * 1))  := numberWrite 1
def i16Write  : MinCodecWrite Ctx B (BitVec (8 * 2))  := numberWrite 2
def i32Write  : MinCodecWrite Ctx B (BitVec (8 * 4))  := numberWrite 4
def i64Write  : MinCodecWrite Ctx B (BitVec (8 * 8))  := numberWrite 8
def i128Write : MinCodecWrite Ctx B (BitVec (8 * 16)) := numberWrite 16
def f32Write  : MinCodecWrite Ctx B (BitVec (8 * 4))  := numberWrite 4
def f64Write  : MinCodecWrite Ctx B (BitVec (8 * 8))  := numberWrite 8

end

-- The types that are encoded by a cast to a number: `as` to write, `TryFrom` to read.
structure CharTryFromError
  deriving DecidableEq

structure TryFromIntError

def charTryFrom (x : BitVec (8 * 4)) : Except CharTryFromError Char :=
  if x.toNat.isValidChar then .ok (Char.ofNat x.toNat) else .error ⟨⟩

def charAs (c : Char) : BitVec (8 * 4) :=
  .ofNat _ c.toNat

def usizeTryFrom (x : BitVec (8 * 8)) : Except TryFromIntError UInt64 :=
  .ok (.ofBitVec x)

def usizeAs (x : UInt64) : BitVec (8 * 8) :=
  x.toBitVec

def isizeMax : Nat :=
  2 ^ 63 - 1

def isizeTryFrom (x : BitVec (8 * 8)) : Except TryFromIntError Int64 :=
  if x.toNat ≤ isizeMax then .ok (.ofBitVec x) else .error ⟨⟩

def isizeAs (x : Int64) : BitVec (8 * 8) :=
  x.toBitVec

def charRead [BitBuf B] : MinCodecRead Ctx B Char :=
  mapRead u32Read charTryFrom

def usizeRead [BitBuf B] : MinCodecRead Ctx B UInt64 :=
  mapRead u64Read usizeTryFrom

def isizeRead [BitBuf B] : MinCodecRead Ctx B Int64 :=
  mapRead u64Read isizeTryFrom

def charWrite [BitBufMut B] : MinCodecWrite Ctx B Char :=
  mapWrite u32Write fun c => (.ok (charAs c) : Except Empty _)

def usizeWrite [BitBufMut B] : MinCodecWrite Ctx B UInt64 :=
  mapWrite u64Write fun x => (.ok (usizeAs x) : Except Empty _)

def isizeWrite [BitBufMut B] : MinCodecWrite Ctx B Int64 :=
  mapWrite u64Write fun x => (.ok (isizeAs x) : Except Empty _)

theorem charTryFrom_charAs (c : Char) : charTryFrom (charAs c) = .ok c := by
  have hv : c.toNat.isValidChar := c.valid
  have hl : c.toNat < 2 ^ 32 := c.val.toNat_lt
  have ht : (charAs c).toNat = c.toNat := by
    simp only [charAs, BitVec.toNat_ofNat]
    exact Nat.mod_eq_of_lt hl
  simp [charTryFrom, ht, hv, Char.ofNat_toNat]

theorem usizeTryFrom_usizeAs (x : UInt64) : usizeTryFrom (usizeAs x) = .ok x := rfl

def boolRead [BitBuf B] : MinCodecRead Ctx B Bool where
  Deserialize           := Unit
  Error                 := Empty
  deserialize           := ()
  pollDeserialize _ _ b := BitBuf.pollBool b

structure BoolSerialize where
  item : Bool

def boolWrite [BitBufMut B] : MinCodecWrite Ctx B Bool where
  Serialize             := BoolSerialize
  Error                 := Empty
  serialize x           := ⟨x⟩
  pollSerialize _ s b   := (BitBufMut.pollWriteBool s.item b).lift (fun _ => s) id

def unitRead (unit : T) : MinCodecRead Ctx B T where
  Deserialize           := Unit
  Error                 := Empty
  deserialize           := ()
  pollDeserialize _ s b := ⟨.ready (.ok unit), s, b⟩

def unitWrite (T : Type) : MinCodecWrite Ctx B T where
  Serialize             := Unit
  Error                 := Empty
  serialize _           := ()
  pollSerialize _ s b   := ⟨.ready (.ok ()), s, b⟩

theorem boolRead_decodes [BitBuf B] [LawfulBitBuf B] :
    (boolRead : MinCodecRead Ctx B _).Decodes Wait .bit := by
  refine ⟨fun _ q => q = .bit, ?_, rfl⟩
  rintro c s q b rfl
  exact BitBuf.pollBool_follows b

theorem boolWrite_encodes [BitBufMut B] [LawfulBitBufMut B] :
    (boolWrite : MinCodecWrite Ctx B _).Encodes fun x => .done [x] := by
  intro x
  refine ⟨fun s e => s = ⟨x⟩ ∧ e = .done [x], ?_, rfl, rfl⟩
  rintro c s e b ⟨rfl, rfl⟩
  show Writes _ _ (.done [x]) b
    ((BitBufMut.pollWriteBool x b).lift (fun _ => BoolSerialize.mk x) (id : Empty → Empty))
  apply (BitBufMut.pollWriteBool_writes x b).finish_id
  · rintro s e rfl
    exact ⟨rfl, rfl⟩
  · exact fun _ _ => .ready

theorem boolWrite_encodesOnce [BitBufMut B] [LawfulBitBufMut B] :
    (boolWrite : MinCodecWrite Ctx B _).EncodesOnce fun x => [x] := by
  intro x c b
  show WritesOnce [x] b
    ((BitBufMut.pollWriteBool x b).lift (fun _ => BoolSerialize.mk x) (id : Empty → Empty))
  exact (BitBufMut.pollWriteBool_writesOnce x b).finish fun _ _ => .ready

theorem unitRead_decodes [BitSource B] (unit : T) :
    (unitRead unit : MinCodecRead Ctx B T).Decodes Wait (.pure unit) := by
  refine ⟨fun _ q => q = .pure unit, ?_, rfl⟩
  rintro c s q b rfl
  exact .ready rfl

theorem unitWrite_encodes [BitSink B] (T : Type) :
    (unitWrite T : MinCodecWrite Ctx B T).Encodes fun _ => .done [] := by
  intro x
  refine ⟨fun _ e => e = .done [], ?_, rfl⟩
  rintro c s e b rfl
  exact .ready

theorem unitWrite_encodesOnce [BitSink B] (T : Type) :
    (unitWrite T : MinCodecWrite Ctx B T).EncodesOnce fun _ => [] :=
  fun _ _ _ => .ready

structure EmptyError

def emptyRead (T : Type) : MinCodecRead Ctx B T where
  Deserialize           := Unit
  Error                 := EmptyError
  deserialize           := ()
  pollDeserialize _ s b := ⟨.ready (.error ⟨⟩), s, b⟩

def emptyWrite (T : Type) : MinCodecWrite Ctx B T where
  Serialize             := Unit
  Error                 := EmptyError
  serialize _           := ()
  pollSerialize _ s b   := ⟨.panicked "attempted to serialize empty type", s, b⟩

theorem emptyRead_decodes [BitSource B] (T : Type) :
    (emptyRead T : MinCodecRead Ctx B T).Decodes Wait (.fail ⟨⟩) := by
  refine ⟨fun _ q => q = .fail ⟨⟩, ?_, rfl⟩
  rintro c s q b rfl
  exact .fail

theorem emptyWrite_encodes [BitSink B] (T : Type) :
    (emptyWrite T : MinCodecWrite Ctx B T).Encodes fun _ =>
      ⟨[], .panicked "attempted to serialize empty type"⟩ := by
  intro x
  refine ⟨fun _ e => e = ⟨[], .panicked "attempted to serialize empty type"⟩, ?_, rfl⟩
  rintro c s e b rfl
  exact ⟨[], .refl b, rfl⟩

end Mincodec
