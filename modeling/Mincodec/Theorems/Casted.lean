import Mincodec.Primitive
import Mincodec.Slice

-- The types that are encoded by a cast to a number survive the round trip where the conversion that
-- reads undoes the cast.
namespace Mincodec

open Stream BitSource BitSink

variable {Ctx B B' T U E E' : Type}

-- The bits of `v`, written into any buffers, are read back as `v` from any buffers that are all
-- polled, whatever comes after them.
def Survives [BitSource B] [BitSink B'] (r : MinCodecRead Ctx B T) (w : MinCodecWrite Ctx B' T)
    (v : T) : Prop :=
  ∀ run bits, Finishes w.pollSerialize (w.serialize v) run bits →
    ∀ chunk rest, (∀ c ∈ chunk :: rest, c.1 ≠ []) → bits <+: chunkBits (chunk :: rest) →
      pollChunks r.pollDeserialize r.deserialize chunk rest = (.ready (.ok v), bits.length)

def castedRead [BitBuf B] (n : Nat) (tryFrom : BitVec (8 * n) → Except E U) : MinCodecRead Ctx B U :=
  mapRead (numberRead n) tryFrom

def castedWrite [BitBufMut B] (n : Nat) (cast : U → BitVec (8 * n)) : MinCodecWrite Ctx B U :=
  mapWrite (numberWrite n) fun v => (.ok (cast v) : Except Empty _)

section
variable [BitBuf B] [LawfulBitBuf B] [BitBufMut B'] [LawfulBitBufMut B']
variable {n : Nat} {tryFrom : BitVec (8 * n) → Except E U} {cast : U → BitVec (8 * n)} {v : U}

theorem castedWrite_finishes {run : List (Ctx × B')} {bits : List Bool}
    (h : Finishes (castedWrite n cast).pollSerialize ((castedWrite n cast).serialize v) run bits) :
    bits = numberBits (cast v) := by
  have hn : (numberWrite n : MinCodecWrite Ctx B' _).Encodes fun x => .done (numberBits x) :=
    numberWrite_encodes n
  have he := (mapWrite_encodes hn (fun v => (.ok (cast v) : Except Empty _)) v).finishes h
  injection he with hb
  exact hb.symm

theorem castedRead_ends (x : BitVec (8 * n)) {chunk : List Ctx × B} {rest : List (List Ctx × B)}
    (hc : ∀ c ∈ chunk :: rest, c.1 ≠ []) (hb : numberBits x <+: chunkBits (chunk :: rest)) :
    pollChunks (castedRead n tryFrom).pollDeserialize (castedRead n tryFrom).deserialize chunk rest =
      (.ready ((tryFrom x).mapError .map), (numberBits x).length) := by
  have hp : (((numberParser n).mapErr MapDeserializeError.deserialize).bind fun item =>
      .lift ((tryFrom item).mapError .map)).Halts (numberBits x)
        (.finished ((tryFrom x).mapError .map)) := by
    rw [← List.append_nil (numberBits x)]
    exact (numberParser_halts x).mapErr.bind (Parser.lift_halts _)
  exact Decodes.pollChunks_ends (mapRead_decodes (numberRead_decodes n) tryFrom) hp hc hb

end

section
variable [BitSlice B] [LawfulBitSlice B] [BitSliceMut B'] [LawfulBitSliceMut B']
variable {n : Nat} {tryFrom : BitVec (8 * n) → Except E U} {cast : U → BitVec (8 * n)}

variable (B' cast) in
theorem exists_castedWrite_finishes (ctx : Ctx) (v : U) :
    ∃ b : B', Finishes (castedWrite n cast).pollSerialize ((castedWrite n cast).serialize v)
      [(ctx, b)] (numberBits (cast v)) := by
  let b : B' := BitSliceMut.new (List.replicate n 0)
  have hr : (numberBits (cast v)).length ≤ room b := by
    rw [room, LawfulBitSliceMut.image_new, LawfulBitSliceMut.filled_new]
    simp [numberBits, toBeBytes]
  have hn : (numberWrite n : MinCodecWrite Ctx B' _).EncodesOnce numberBits :=
    numberWrite_encodesOnce n
  obtain ⟨ho, hp⟩ := (mapWrite_encodesOnce (E := Empty) hn (fun _ => rfl) v ctx b).fits hr
  have hf : Finishes (castedWrite n cast).pollSerialize ((castedWrite n cast).serialize v)
      [(ctx, b)] _ := .last ho
  exact ⟨b, (congrArg (Finishes _ _ _) hp.written_eq).mp hf⟩

theorem casted_survives_iff (ctx : Ctx) {r : MinCodecRead Ctx B U} {w : MinCodecWrite Ctx B' U}
    (hr : r = castedRead n tryFrom) (hw : w = castedWrite n cast) {v : U} :
    Survives r w v ↔ tryFrom (cast v) = .ok v := by
  subst hr hw
  constructor
  case mp =>
    intro h
    have ⟨b, hf⟩ := exists_castedWrite_finishes B' cast ctx v
    let chunk : List Ctx × B := ([ctx], BitSlice.new (toBeBytes (cast v)))
    have hc : ∀ c ∈ [chunk], c.1 ≠ [] := by simp [chunk]
    have hb : numberBits (cast v) <+: chunkBits [chunk] := by
      simp [chunkBits, chunk, LawfulBitSlice.unread_new, numberBits]
    have he := (castedRead_ends (cast v) hc hb).symm.trans (h _ _ hf chunk [] hc hb)
    cases ht : tryFrom (cast v) <;> simp_all [Except.mapError]
  case mpr =>
    intro h run bits hf chunk rest hc hb
    cases castedWrite_finishes hf
    rw [castedRead_ends (cast v) hc hb, h]
    rfl

-- The conversion to `isize` fails on the upper half of the numbers, which the negative values are
-- cast to.
theorem isizeTryFrom_isizeAs (x : Int64) : isizeTryFrom (isizeAs x) = .ok x ↔ 0 ≤ x := by
  have h : x.toBitVec.toNat ≤ isizeMax ↔ 0 ≤ x := by
    rw [Int64.le_iff_toInt_le, ← Int64.toInt_toBitVec x, BitVec.toInt_eq_toNat_cond,
      Int64.toInt_zero, isizeMax]
    have := x.toBitVec.isLt
    split <;> omega
  unfold isizeTryFrom
  split
  case isTrue hx  => exact iff_of_true rfl (h.mp hx)
  case isFalse hx => exact iff_of_false nofun fun hn => hx (h.mpr hn)

-- Every `char` and every `usize` survives, and an `isize` does if and only if it is not negative.
theorem casted_survives (ctx : Ctx) :
    (∀ c, Survives (charRead : MinCodecRead Ctx B _) (charWrite : MinCodecWrite Ctx B' _) c) ∧
    (∀ x, Survives (usizeRead : MinCodecRead Ctx B _) (usizeWrite : MinCodecWrite Ctx B' _) x) ∧
    ∀ x, Survives (isizeRead : MinCodecRead Ctx B _) (isizeWrite : MinCodecWrite Ctx B' _) x ↔
      0 ≤ x := by
  refine ⟨fun c => ?char, fun x => ?usize, fun x => ?isize⟩
  case char  => exact (casted_survives_iff (n := 4) ctx rfl rfl).mpr (charTryFrom_charAs c)
  case usize => exact (casted_survives_iff (n := 8) ctx rfl rfl).mpr (usizeTryFrom_usizeAs x)
  case isize => exact (casted_survives_iff (n := 8) ctx rfl rfl).trans (isizeTryFrom_isizeAs x)

end

theorem isize_lost : ¬Survives (isizeRead : MinCodecRead Unit Slice _)
    (isizeWrite : MinCodecWrite Unit SliceMut _) (-1) := by
  intro h
  let w : MinCodecWrite Unit SliceMut _ := isizeWrite
  let r : MinCodecRead Unit Slice _ := isizeRead
  let b : SliceMut := BitSliceMut.new (List.replicate 8 0)
  let ones : List Unit × Slice := ([()], ⟨List.replicate 64 true, 0⟩)
  have hf : Finishes w.pollSerialize (w.serialize (-1)) [((), b)] (List.replicate 64 true) := .last rfl
  have hd : pollChunks r.pollDeserialize r.deserialize ones [] =
      (.ready (.error (.map ⟨⟩)), 64) := rfl
  have hs := h _ _ hf ones [] (by simp [ones]) ⟨[], rfl⟩
  cases hd.symm.trans hs

end Mincodec
