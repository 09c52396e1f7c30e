import Mincodec.Allocated
import Mincodec.Slice
import Mincodec.Stream.Skip

-- What becomes of lists whose serializers are interrupted.
namespace Mincodec

open Stream BitSink

variable {Ctx B T : Type} [BitSink B] {w : MinCodecWrite Ctx B T} {enc : T → Emission w.Error}

-- A poll that goes through the items `data` on `b` does not stop inside an item: an item that is
-- interrupted has nothing left to write.
def Whole (w : MinCodecWrite Ctx B T) (enc : T → Emission w.Error) (ctx : Ctx) : List T → B → Prop
  | [], _           => True
  | item :: data, b =>
    let x := w.pollSerialize ctx (w.serialize item) b
    (x.outcome.Unfinished → enc item = .done (written b x.buf)) ∧
      (x.outcome = .ready (.ok ()) → Whole w enc ctx data x.buf)

theorem pollItems_skips (h : w.Encodes enc) (ctx : Ctx) (items : List T) (ser : Option w.Serialize)
    (b : B) : Skips (Whole w enc ctx items b) (fun s e => e = listEmission enc s.1)
      (listEmission enc items) b (pollItems w ctx items ser b) := by
  induction items generalizing ser b
  case nil => exact .ready trivial
  case cons item items hi =>
    apply Skips.of_dropped ((h item).writes ctx b)
    · exact fun _ => rfl
    · exact fun _ => hi _ _

def ArraySerialize.Whole (enc : T → Emission w.Error) (this : ArraySerialize w) (ctx : Ctx) (b : B) :
    Prop :=
  Mincodec.Whole w enc ctx this.data b

theorem ArraySerialize.isSkipping (h : w.Encodes enc) : IsSkipping ArraySerialize.pollSerialize
    (ArraySerialize.Whole enc) fun s e => e = listEmission enc s.data := by
  rintro ctx s _ b rfl
  unfold ArraySerialize.pollSerialize ArraySerialize.Whole Polled.lift
  exact (pollItems_skips h ctx s.data s.ser b).finish fun _ _ => id

namespace VecSerialize

variable {B : Type} [BitBufMut B] [LawfulBitBufMut B] {w : MinCodecWrite Ctx B T}
variable {enc : T → Emission w.Error}

def Whole (enc : T → Emission w.Error) (this : VecSerialize w) (ctx : Ctx) (b : B) : Prop :=
  match this.state with
  | .vlq =>
    (BitBufMut.drainInto this.vlq b).1 = some () →
      Mincodec.Whole w enc ctx this.data (BitBufMut.drainInto this.vlq b).2.2
  | .writing  => Mincodec.Whole w enc ctx this.data b
  | .complete => True

def WritesOf (enc : T → Emission w.Error) (this : VecSerialize w) (e : Emission w.Error) : Prop :=
  match this.state with
  | .vlq      => ∃ u, Drains BitBufMut.drainInto this.vlq u ∧
    e = (listEmission enc this.data).prepend u
  | .writing  => e = listEmission enc this.data
  | .complete => False

theorem pollWriting_skips (h : w.Encodes enc) (ctx : Ctx) (this : VecSerialize w)
    (hs : this.state = .writing) (b : B) :
    Skips (Mincodec.Whole w enc ctx this.data b) (WritesOf enc) (listEmission enc this.data) b
      (pollWriting ctx this b) := by
  apply (pollItems_skips h ctx this.data this.ser b).finish
  intro s e he
  simpa [WritesOf, hs] using he

theorem isSkipping (h : w.Encodes enc) :
    IsSkipping VecSerialize.pollSerialize (Whole enc) (WritesOf enc) := by
  intro ctx this e b he
  unfold WritesOf at he
  unfold Whole pollSerialize
  match hs : this.state with
  | .complete =>
    simp only [hs] at he
  | .writing =>
    simp only [hs] at he
    exact he ▸ pollWriting_skips h ctx this hs b
  | .vlq =>
    simp only [hs] at he
    obtain ⟨u, hd, rfl⟩ := he
    apply Skips.of_writes (hd.writes b)
    · intro hu hx
      match hb : BitBufMut.drainInto this.vlq b with
      | (some (), _, _) => simp [hb] at hu
      | (none, _, _)    => simp [hb] at hx
    · rintro d _ ⟨u, hd, rfl⟩
      simpa [WritesOf, hs] using ⟨u, hd, rfl⟩
    · intro hx
      match hb : BitBufMut.drainInto this.vlq b with
      | (none, _, _)     => simp [hb] at hx
      | (some (), d, b') =>
        simp only [sufficient_some, forall_true_left]
        exact pollWriting_skips h ctx { this with vlq := d, state := .writing } rfl b'

end VecSerialize

-- The runs of the list serializers in which every poll is whole are those that write the length and
-- all the items.
theorem lists_whole_iff {B : Type} [BitBufMut B] [LawfulBitBufMut B] {w : MinCodecWrite Ctx B T}
    {enc : T → Emission w.Error} (h : w.Encodes enc) :
    (∀ size (items : Vec T size) run bits,
      Finishes (vecWrite w size).pollSerialize ((vecWrite w size).serialize items) run bits →
      (Along (vecWrite w size).pollSerialize (VecSerialize.Whole enc)
          ((vecWrite w size).serialize items) run ↔
        (listEmission enc items.val).prepend
          (Bits.ofBytes (BitBufMut.vlq B (.ofNat items.val.length))) = .done bits)) ∧
    ∀ n (items : List.Vector T n) run bits,
      Finishes (arrayWrite w n).pollSerialize ((arrayWrite w n).serialize items) run bits →
      (Along (arrayWrite w n).pollSerialize (ArraySerialize.Whole enc)
          ((arrayWrite w n).serialize items) run ↔
        listEmission enc items.toList = .done bits) := by
  constructor
  case left =>
    intro size items run bits hf
    exact hf.along_iff (VecSerialize.isSkipping h) ⟨_, LawfulBitBufMut.drain_drains _, rfl⟩
  case right =>
    intro n items run bits hf
    exact hf.along_iff (ArraySerialize.isSkipping h) rfl

section

def blank (n : Nat) : SliceMut :=
  ⟨List.replicate n false, 0, Nat.zero_le _⟩

def flagsWrite : MinCodecWrite Unit SliceMut (Vec Bool 1) :=
  vecWrite boolWrite 1

def twoFlags : Vec Bool 1 :=
  ⟨[true, true], by decide, by decide⟩

theorem lists_whole_iff_flags : Along flagsWrite.pollSerialize
    (VecSerialize.Whole fun x => .done [x]) (flagsWrite.serialize twoFlags)
      [((), blank 3), ((), blank 7)] := by
  have hf : Finishes flagsWrite.pollSerialize (flagsWrite.serialize twoFlags)
      [((), blank 3), ((), blank 7)]
      ([false, false, false] ++ [false, false, false, true, false, true, true]) :=
    .more (.inr rfl) (.last rfl)
  exact ((lists_whole_iff boolWrite_encodes).1 1 twoFlags _ _ hf).mpr rfl

-- The second item is taken when the first buffer is full, and is not written into the second one.
theorem lists_drop_items :
    (boolWrite : MinCodecWrite Unit SliceMut Bool).Encodes (fun x => .done [x]) ∧
    (∃ bits, Finishes flagsWrite.pollSerialize (flagsWrite.serialize twoFlags)
        [((), blank 9), ((), blank 8)] bits ∧
      bits ≠ Bits.ofBytes (BitBufMut.vlq SliceMut 2) ++ [true, true]) ∧
    ∃ bits, Finishes (arrayWrite boolWrite 2).pollSerialize
        ((arrayWrite (boolWrite : MinCodecWrite Unit SliceMut Bool) 2).serialize ⟨[true, true], rfl⟩)
        [((), blank 1), ((), blank 8)] bits ∧
      bits ≠ [true, true] := by
  refine ⟨boolWrite_encodes, ?vec, ?array⟩
  case vec =>
    have hf : Finishes flagsWrite.pollSerialize (flagsWrite.serialize twoFlags)
        [((), blank 9), ((), blank 8)] (Bits.ofBytes (BitBufMut.vlq SliceMut 2) ++ [true] ++ []) :=
      .more (.inr rfl) (.last rfl)
    exact ⟨_, hf, by decide⟩
  case array =>
    have hf : Finishes (arrayWrite boolWrite 2).pollSerialize
        ((arrayWrite (boolWrite : MinCodecWrite Unit SliceMut Bool) 2).serialize ⟨[true, true], rfl⟩)
        [((), blank 1), ((), blank 8)] ([true] ++ []) :=
      .more (.inr rfl) (.last rfl)
    exact ⟨_, hf, by decide⟩

end

end Mincodec
