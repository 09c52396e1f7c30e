import Mincodec.Theorems.Derive
import Mincodec.Slice

-- The code of a determinant, for which the macro computes a number of bits, a number of bytes and an
-- integer type.
namespace Mincodec

open Stream BitSource BitSink

variable {B B' : Type} {S : Shape}

namespace Shape

variable (S)

-- The array of the serializer of variant `i`: its index as an integer of `size` bytes, little endian,
-- with the bits of each byte reversed.
def determinantData (size : Nat) (i : Fin S.variants) : List UInt8 :=
  (Bits.toLe size i).map Bits.reverseBits

def determinantCode (size : Nat) (i : Fin S.variants) : List Bool :=
  (Bits.ofBytes (S.determinantData size i)).take S.bits

variable (B B') [BitBuf B] [BitSource B] [BitBufMut B'] [BitSink B']

structure SoundWith (size : Nat) : Prop where
  size_eq    : S.bytes = size
  fits       : ∀ i : Fin S.variants, i.val < 256 ^ size
  writes     : ∀ i, (S.determinantCode size i).length = S.bits ∧
    ∃ d, BitBufMut.newCappedDrain (B := B') (S.determinantData size i) S.bits = some d ∧
      Encodes Full (fun (_ : Unit) => BitBufMut.pollCappedDrain) d (.done (S.determinantCode size i))
  reads_back : ∃ f, BitBuf.newCappedFill (B := B) (List.replicate S.bytes 0) S.bits = some f ∧
    ∀ i chunk rest, (∀ c ∈ chunk :: rest, c.1 ≠ []) →
      S.determinantCode size i <+: chunkBits (chunk :: rest) →
      ∃ data, pollChunks (fun (_ : Unit) => BitBuf.pollCappedFill) f chunk rest =
          (.ready (.ok data), S.bits) ∧
        Bits.ofLe (data.map Bits.reverseBits) = i
  distinct   : Function.Injective (S.determinantCode size)

structure SoundDeterminant : Prop where
  sound    : ∀ size, S.determinantSize = some size → S.SoundWith B B' size
  rejected : 32 ≤ S.bits → S.determinantSize = none

variable {S}

-- The test for 32 bits is only made below 16 bits, so no number of variants is rejected.
theorem determinantSize_eq :
    S.determinantSize = some (if S.bits < 8 then 1 else if S.bits < 16 then 2 else 4) := by
  unfold determinantSize
  split_ifs <;> first | rfl | omega

theorem determinantCode_eq {size : Nat} (h : S.bytes = size) (i : Fin S.variants) :
    S.determinantCode size i = Bits.lsb S.bits i := by
  rw [determinantCode, determinantData, Bits.ofBytes_reverseBits_toLe, Bits.take_lsb (h ▸ S.bits_le)]

theorem determinantCode_injective {size : Nat} (h : S.bytes = size) :
    Function.Injective (S.determinantCode size) := by
  intro i j hc
  rw [determinantCode_eq h, determinantCode_eq h] at hc
  have hn := congrArg Bits.ofLsb hc
  rw [Bits.ofLsb_lsb (lt_two_pow_bits i), Bits.ofLsb_lsb (lt_two_pow_bits j)] at hn
  exact Fin.ext hn

end Shape

section
variable [BitBuf B] [LawfulBitBuf B] [BitBufMut B'] [LawfulBitBufMut B']

theorem cappedDrain_encodes (data : List UInt8) {n : Nat} (h : n ≤ 8 * data.length) :
    ∃ d, BitBufMut.newCappedDrain (B := B') data n = some d ∧
      Encodes Full (fun (_ : Unit) => BitBufMut.pollCappedDrain) d
        (.done ((Bits.ofBytes data).take n)) := by
  have ⟨d, hn, hd⟩ := LawfulBitBufMut.cappedDrain_drains (B := B') data n h
  refine ⟨d, hn, fun d e => ∃ w, Drains BitBufMut.cappedDrainInto d w ∧ e = .done w, ?_, _, hd, rfl⟩
  intro _ d e b ⟨w, hd, he⟩
  exact he ▸ hd.writes b

theorem Shape.soundWith {size : Nat} (h : S.bytes = size) : S.SoundWith B B' size where
  size_eq    := h
  fits i     := by
    calc i.val < 2 ^ S.bits     := lt_two_pow_bits i
         _ ≤ 2 ^ (8 * size)     := Nat.pow_le_pow_right (by decide) (h ▸ S.bits_le)
         _ = 256 ^ size         := Nat.pow_mul ..
  writes i   := by
    refine ⟨by rw [determinantCode_eq h, Bits.length_lsb], cappedDrain_encodes _ ?_⟩
    simpa [determinantData, Bits.toLe] using h ▸ S.bits_le
  reads_back := by
    have hb : S.bits ≤ 8 * (List.replicate S.bytes (0 : UInt8)).length := by
      rw [List.length_replicate]
      exact S.bits_le
    obtain ⟨f, hf, hd⟩ := LawfulBitBuf.cappedFill_decodes (B := B) _ _ hb
    refine ⟨f, hf, fun i chunk rest hc hw => ?_⟩
    rw [determinantCode_eq h] at hw
    have hp := fillParser_halts (List.replicate S.bytes 0) (Bits.lsb S.bits i)
    have hl := Bits.ofLe_reverseBits_toBytes (w := Bits.lsb S.bits i) (n := S.bytes)
    rw [Bits.length_lsb] at hp hl
    have hx := hd.pollChunks_ends hp hc hw
    rw [Bits.length_lsb] at hx
    exact ⟨_, hx, (hl S.bits_le).trans (Bits.ofLsb_lsb (lt_two_pow_bits i))⟩
  distinct   := determinantCode_injective h

-- From 2^15 + 1 variants on, up to 2^23, the array is one byte short, and above 2^31 the type is not
-- rejected.
theorem sound_determinant_iff : S.SoundDeterminant B B' ↔
    S.variants ≤ 2 ^ 15 ∨ 2 ^ 23 < S.variants ∧ S.variants ≤ 2 ^ 31 := by
  have h15 : S.bits ≤ 15 ↔ S.variants ≤ 2 ^ 15 := Nat.clog_le_iff_le_pow (by decide)
  have h23 : 23 < S.bits ↔ 2 ^ 23 < S.variants := Nat.lt_clog_iff_pow_lt (by decide)
  have h31 : S.bits ≤ 31 ↔ S.variants ≤ 2 ^ 31 := Nat.clog_le_iff_le_pow (by decide)
  rw [← h15, ← h23, ← h31]
  constructor
  case mp =>
    intro hs
    have hr : ¬32 ≤ S.bits := fun hb => by
      have := hs.rejected hb
      rw [Shape.determinantSize_eq] at this
      cases this
    have he := (hs.sound _ Shape.determinantSize_eq).size_eq
    unfold Shape.bytes at he
    split_ifs at he <;> omega
  case mpr =>
    intro hb
    refine ⟨fun size hs => Shape.soundWith ?_, by omega⟩
    rw [Shape.determinantSize_eq] at hs
    injection hs with hs
    unfold Shape.bytes
    split_ifs at hs <;> omega

end

-- With 65536 variants there are three bytes for a `u32`, and 2^32 variants are not rejected.
theorem unsound_determinant : ¬(Shape.flags 65536 0).SoundDeterminant Slice SliceMut ∧
    ¬(Shape.flags 4294967296 0).SoundDeterminant Slice SliceMut := by
  constructor
  case left  =>
    intro h
    have hb : (Shape.flags 65536 0).bits = 16 := Nat.clog_pow 2 16 (by decide)
    have he := (h.sound _ Shape.determinantSize_eq).size_eq
    rw [Shape.bytes, hb] at he
    cases he
  case right =>
    intro h
    have hb : (Shape.flags 4294967296 0).bits = 32 := Nat.clog_pow 2 32 (by decide)
    have hr := h.rejected hb.ge
    rw [Shape.determinantSize_eq] at hr
    cases hr

end Mincodec
