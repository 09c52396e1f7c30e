import Mincodec.Immediate
import Mincodec.Format
import Mincodec.Slice
import Mathlib.Data.Fin.VecNotation

-- Items that are written one after the other into one buffer are read back from it.
namespace Mincodec

open Stream BitSource BitSink

variable {Ctx B B' : Type} [BitBuf B] [BitBufMut B'] {scope : Scope Ctx B B'}

structure Codec (scope : Scope Ctx B B') where
  T      : Type
  read   : MinCodecRead Ctx B T
  write  : MinCodecWrite Ctx B' T
  format : Format scope read write

def Values : List (Codec scope) → Type
  | []      => Unit
  | c :: cs => c.T × Values cs

def writeAll (ctx : Ctx) : (cs : List (Codec scope)) → Values cs → B' → Option (List Nat × B')
  | [], _, b            => some ([], b)
  | c :: cs, (v, vs), b =>
    match (c.write.writeImmediate v b).poll ctx with
    | (.ready (.ok n), fut) => (writeAll ctx cs vs fut.buf).map fun x => (n :: x.1, x.2)
    | _                     => none

def readAll [BitSource B] (ctx : Ctx) :
    (cs : List (Codec scope)) → B → Option (Values cs × List Nat × B)
  | [], b      => some ((), [], b)
  | c :: cs, b =>
    match (c.read.readImmediate b).poll ctx with
    | (.ready (.ok v), fut) =>
      (readAll ctx cs fut.buf).map fun x => ((v, x.1), taken fut.buf :: x.2.1, x.2.2)
    | _                     => none

-- The types whose values can all be written: conversions undo each other, and the index of a
-- variant does not overflow.
def Scope.lossless : Scope Ctx B B' where
  leaf _ _ := False
  map f g  := ∀ u, ∃ t, g u = .ok t ∧ f t = .ok u
  isize    := False
  lists    := True
  arity k  := k < 255

variable [LawfulBitBuf B] [LawfulBitBufMut B'] [LawfulVlq B B']

theorem Codec.roundTrips (c : Codec (.lossless : Scope Ctx B B')) : RoundTrips c.read c.write :=
  c.format.roundTrips id (fun _ => id) False.elim id

theorem exists_bits (cs : List (Codec (.lossless : Scope Ctx B B'))) (vs : Values cs) :
    ∃ w : List Bool, ∀ ctx (b₀ : B'), w.length ≤ room b₀ → ∃ ps b₁,
      writeAll ctx cs vs b₀ = some (ps, b₁) ∧ Produces b₀ w b₁ ∧
      ∀ ctx (b : B) rest, taken b = filled b₀ → unread b = w ++ rest →
        ∃ b', readAll ctx cs b = some (vs, ps, b') ∧ unread b' = rest := by
  induction cs
  case nil =>
    refine ⟨[], fun ctx b₀ _ => ⟨[], b₀, rfl, .refl b₀, fun ctx b rest _ hu => ⟨b, rfl, hu⟩⟩⟩
  case cons c cs hi =>
    obtain ⟨v, vs⟩ := vs
    have ⟨p, enc, hr, hw, hp⟩ := c.roundTrips
    have ⟨w, hi⟩ := hi vs
    refine ⟨enc v ++ w, fun ctx b₀ hb => ?_⟩
    rw [List.length_append] at hb
    have ⟨fut, hx, hv⟩ := writeImmediate_ready hw ctx v (b := b₀) (by omega)
    have hroom := hv.room_eq
    have ⟨ps, b₁, hws, hvs, hi⟩ := hi ctx fut.buf (by omega)
    refine ⟨filled fut.buf :: ps, b₁, by simp [writeAll, hx, hws], hv.trans hvs, ?_⟩
    intro ctx b rest ht hu
    rw [List.append_assoc] at hu
    have ⟨fut', hx', hc⟩ := readImmediate_ready hr ctx (hp v) (b := b) ⟨_, hu.symm⟩
    have ht' : taken fut'.buf = filled fut.buf := by rw [hc.taken_eq, ht, hv.filled_eq]
    have hu' : unread fut'.buf = w ++ rest := by rw [hc.unread_eq_drop, hu, List.drop_left]
    have ⟨b', hrs, hd⟩ := hi ctx fut'.buf rest ht' hu'
    exact ⟨b', by simp [readAll, hx', hrs, ht'], hd⟩

-- In a buffer that is large enough all the values are written, and whatever bits follow them, the
-- same types read them back and stop where each of them was written to.
theorem readAll_writeAll (cs : List (Codec (.lossless : Scope Ctx B B'))) (vs : Values cs) :
    ∃ n, ∀ ctx (b₀ : B'), n ≤ room b₀ → ∃ ps b₁, writeAll ctx cs vs b₀ = some (ps, b₁) ∧
      ∀ ctx (b : B) rest, taken b = filled b₀ → unread b = written b₀ b₁ ++ rest →
        ∃ b', readAll ctx cs b = some (vs, ps, b') ∧ unread b' = rest := by
  have ⟨w, h⟩ := exists_bits cs vs
  refine ⟨w.length, fun ctx b₀ hb => ?_⟩
  have ⟨ps, b₁, hws, hp, hr⟩ := h ctx b₀ hb
  refine ⟨ps, b₁, hws, ?_⟩
  rw [hp.written_eq]
  exact hr

def sampleCodecs : List (Codec (.lossless : Scope Unit Slice SliceMut)) :=
  [⟨_, _, _, .vec 4 trivial .char⟩, ⟨_, _, _, .option .usize⟩,
    ⟨_, deriveRead (S := .flags 3 2) (fun _ _ => boolRead) (by decide),
      deriveWrite fun _ _ => boolWrite,
      .derive _ (Shape.compiles_of_le (by decide) (by decide)) (fun _ => by decide : ∀ _, 2 < 255)
        fun _ _ => .bool⟩]

def sampleValues : Values sampleCodecs :=
  (⟨['a', 'é'], by decide, by decide⟩, some 300, ⟨(2 : Fin 3), ![true, false]⟩, ())

theorem readAll_writeAll_sample : ∃ n, ∀ ctx (b₀ : SliceMut), n ≤ room b₀ → ∃ ps b₁,
    writeAll ctx sampleCodecs sampleValues b₀ = some (ps, b₁) ∧
      ∀ ctx (b : Slice) rest, taken b = filled b₀ → unread b = written b₀ b₁ ++ rest →
        ∃ b', readAll ctx sampleCodecs b = some (sampleValues, ps, b') ∧ unread b' = rest :=
  readAll_writeAll sampleCodecs sampleValues

end Mincodec
