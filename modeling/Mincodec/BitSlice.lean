import Mincodec.Bitbuf

-- The bit buffers over byte slices, which are assumed of `bitbuf` as well.
namespace Mincodec

open Stream BitSource BitSink

class BitSlice (B : Type) extends BitBuf B where
  new     : List UInt8 → B
  -- `none` is `Err(Insufficient)`.
  advance : Nat → B → Option B
  len     : B → Nat

class LawfulBitSlice (B : Type) [BitSlice B] extends LawfulBitBuf B where
  unread_new (xs : List UInt8) : unread (BitSlice.new xs : B) = Bits.ofBytes xs
  taken_new (xs : List UInt8) : taken (BitSlice.new xs : B) = 0
  advance_some {b : B} {n : Nat} : n ≤ (unread b).length →
    ∃ b', BitSlice.advance n b = some b' ∧ Consumes b ((unread b).take n) b'
  len_eq_taken (b : B) : BitSlice.len b = taken b

class BitSliceMut (B : Type) extends BitBufMut B where
  new             : List UInt8 → B
  advance         : Nat → B → Option B
  -- `none` is any error.
  writeAlignedAll : List UInt8 → B → Option B
  -- The slice, as it is once the buffer is dropped.
  bytes           : B → List UInt8

class LawfulBitSliceMut (B : Type) [BitSliceMut B] extends LawfulBitBufMut B where
  image_new (xs : List UInt8) : image (BitSliceMut.new xs : B) = Bits.ofBytes xs
  filled_new (xs : List UInt8) : filled (BitSliceMut.new xs : B) = 0
  advance_some {b : B} {n : Nat} : n ≤ room b →
    ∃ b', BitSliceMut.advance n b = some b' ∧ image b' = image b ∧ filled b' = filled b + n
  writeAlignedAll_some {b : B} {xs : List UInt8} : filled b % 8 = 0 → 8 * xs.length ≤ room b →
    ∃ b', BitSliceMut.writeAlignedAll xs b = some b' ∧ Produces b (Bits.ofBytes xs) b'
  bytes_eq (b : B) : BitSliceMut.bytes b = Bits.toBytes (image b)

-- At any position, what has been written before is kept by `write_aligned_all`.
class KeepsWritten (B : Type) [BitSliceMut B] [LawfulBitSliceMut B] : Prop where
  length_image {b b' : B} {xs : List UInt8} : BitSliceMut.writeAlignedAll xs b = some b' →
    (image b').length = (image b).length
  take_image {b b' : B} {xs : List UInt8} : BitSliceMut.writeAlignedAll xs b = some b' →
    (image b').take (filled b) = (image b).take (filled b)

section

variable {B : Type} [BitSlice B] [LawfulBitSlice B]

theorem BitSlice.exists_window (xs : List UInt8) {n : Nat} (h : n ≤ 8 * xs.length) :
    ∃ b : B, BitSlice.advance n (BitSlice.new xs) = some b ∧
      unread b = (Bits.ofBytes xs).drop n ∧ taken b = n := by
  have hl : n ≤ (Bits.ofBytes xs).length := by rwa [Bits.length_ofBytes]
  have hu := LawfulBitSlice.unread_new (B := B) xs
  have ⟨b, hb, hc⟩ := LawfulBitSlice.advance_some (B := B) (b := BitSlice.new xs) (hu ▸ hl)
  refine ⟨b, hb, ?_, ?_⟩
  · rw [hc.unread_eq_drop, hu, List.length_take_of_le hl]
  · rw [hc.taken_eq, hu, List.length_take_of_le hl, LawfulBitSlice.taken_new, Nat.zero_add]

end

section

variable {B : Type} [BitSliceMut B] [LawfulBitSliceMut B]

theorem BitSliceMut.exists_window (xs : List UInt8) {n : Nat} (h : n ≤ 8 * xs.length) :
    ∃ b : B, BitSliceMut.advance n (BitSliceMut.new xs) = some b ∧ image b = Bits.ofBytes xs ∧
      filled b = n := by
  have hi := LawfulBitSliceMut.image_new (B := B) xs
  have hf := LawfulBitSliceMut.filled_new (B := B) xs
  have hr : n ≤ room (BitSliceMut.new xs : B) := by
    rw [room, hi, hf, Bits.length_ofBytes]
    exact h
  obtain ⟨b, hb, hib, hfb⟩ := LawfulBitSliceMut.advance_some hr
  exact ⟨b, hb, hib.trans hi, by rw [hfb, hf, Nat.zero_add]⟩

theorem BitSliceMut.ofBytes_bytes {xs : List UInt8} {b b' : B} {w : List Bool}
    (hb : image b = Bits.ofBytes xs) (h : Produces b w b') :
    Bits.ofBytes (BitSliceMut.bytes b') = overwrite (Bits.ofBytes xs) (filled b) w := by
  have hl := h.length_image
  rw [LawfulBitSliceMut.bytes_eq, Bits.ofBytes_toBytes, h.image_eq, hb]
  rw [hl, hb, Bits.length_ofBytes]
  exact Nat.dvd_mul_right ..

theorem BitSliceMut.length_bytes {xs : List UInt8} {b b' : B} {w : List Bool}
    (hb : image b = Bits.ofBytes xs) (h : Produces b w b') :
    (BitSliceMut.bytes b').length = xs.length := by
  rw [LawfulBitSliceMut.bytes_eq, Bits.length_toBytes, h.length_image, hb, Bits.length_ofBytes]
  omega

end

end Mincodec
