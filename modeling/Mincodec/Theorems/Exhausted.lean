import Mincodec.Slice
import Mincodec.Theorems.Blind

-- Codecs that report that a buffer is not sufficient.
namespace Mincodec

open Stream BitSource BitSink

variable {Ctx B B' T : Type}

-- In every state between two polls: a deserializer is starved only once no bit is left in the buffer,
-- and a serializer is out of room only once the buffer is full.
theorem insufficient_exhausted [BitBuf B] [LawfulBitBuf B] [BitBufMut B'] [LawfulBitBufMut B']
    {r : MinCodecRead Ctx B T} {w : MinCodecWrite Ctx B' T} (h : Format .closed r w) :
    (∀ s, Reaches r.pollDeserialize r.deserialize s → ∀ c b,
      (r.pollDeserialize c s b).outcome = .insufficient →
      unread (r.pollDeserialize c s b).buf = []) ∧
    ∀ v s, Reaches w.pollSerialize (w.serialize v) s → ∀ c b,
      (w.pollSerialize c s b).outcome = .insufficient → room (w.pollSerialize c s b).buf = 0 := by
  constructor
  case left =>
    intro s hs c b ho
    have ⟨p, hp⟩ : ∃ p, r.Decodes False p := h.decodes False.elim
    exact Decodes.stops hp hs ho
  case right =>
    intro v s hs c b ho
    have hb : w.Blind False Full := h.blind (fun _ => id) False.elim
    exact (hb v).stops hs ho

def optionalRead : MinCodecRead Unit Slice (Option Bool) :=
  Optional.optionRead boolRead

def optionalWrite : MinCodecWrite Unit SliceMut (Option Bool) :=
  Optional.optionWrite boolWrite

def emptySlice : Slice :=
  ⟨[], 0⟩

theorem nil_le : 0 ≤ ([] : List Bool).length :=
  Nat.le_refl 0

def emptySliceMut : SliceMut :=
  ⟨[], 0, nil_le⟩

theorem insufficient_exhausted_optional :
    unread (optionalRead.pollDeserialize () ⟨(), .reading⟩ emptySlice).buf = [] ∧
    room (optionalWrite.pollSerialize () ⟨some ⟨true⟩, .writing⟩ emptySliceMut).buf = 0 := by
  have ⟨hr, hw⟩ := insufficient_exhausted
    (Format.option .bool : Format (.closed : Scope Unit Slice SliceMut) _ _)
  constructor
  case left =>
    have hs : Reaches optionalRead.pollDeserialize optionalRead.deserialize ⟨(), .reading⟩ :=
      .poll (c := ()) (b := (⟨[true], 0⟩ : Slice)) .refl (.inr rfl)
    exact hr _ hs () emptySlice rfl
  case right =>
    have hs : Reaches optionalWrite.pollSerialize (optionalWrite.serialize (some true))
        ⟨some ⟨true⟩, .writing⟩ :=
      .poll (c := ()) (b := (⟨[false], 0, Nat.zero_le 1⟩ : SliceMut)) .refl (.inr rfl)
    exact hw _ _ hs () emptySliceMut rfl

end Mincodec
