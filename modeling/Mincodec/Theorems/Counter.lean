import Mincodec.Theorems.Derive
import Mincodec.BitSlice
import Mincodec.Slice

-- The index that the derived serializer counts its determinant and its fields with.
namespace Mincodec

open Stream BitSource BitSink

variable {Ctx B : Type} {S : Shape}

-- However the fields write their bits, and wherever they stop, the serializer writes the determinant
-- and each of the fields once and in order, and then is ready.
def Shape.Value.WritesFields (Ctx B : Type) [BitBufMut B] [BitSink B] (v : S.Value) : Prop :=
  ∀ (Stop : B → Prop) (ws : S.Writes Ctx B)
    (encs : (i : Fin S.variants) → (j : Fin (S.arity i)) → S.field i j → List Bool),
    (∀ b, Full b → Stop b) →
    (∀ j, Stream.Encodes Stop (ws v.variant j).pollSerialize
      ((ws v.variant j).serialize (v.fields j)) (.done (encs v.variant j (v.fields j)))) →
    Stream.Encodes Stop (deriveWrite ws).pollSerialize ((deriveWrite ws).serialize v)
      (.done (S.valueBits encs v))

theorem le_indexLimit (bl : Nat) : 2 ^ 8 ≤ indexLimit bl := by
  unfold indexLimit
  split_ifs <;> decide

theorem firstArm_add_lt_iff {bl : Nat} (h : bl < 2 ^ 32) :
    S.firstArm + bl < indexLimit bl ↔ ¬(1 < S.variants ∧ bl ∈ [255, 65535, 4294967295]) := by
  simp only [Shape.firstArm, indexLimit, List.mem_cons, List.not_mem_nil, or_false]
  split_ifs <;> omega

section
variable {n : Nat} {T : Fin n → Type} {ε : Fin n → Type}

theorem fieldsEmissionFrom_done (encs : (i : Fin n) → T i → List Bool) (v : (i : Fin n) → T i)
    (k : Nat) :
    (fieldsEmissionFrom (fun i x => .done (encs i x)) v k : Emission (FieldError ε)) =
      .done (fieldsBitsFrom encs v k) := by
  fun_induction fieldsBitsFrom encs v k
  case case1 k h hi =>
    rw [fieldsEmissionFrom, dif_pos h, hi]
    rfl
  case case2 k h    =>
    rw [fieldsEmissionFrom, dif_neg h]

theorem Shape.emission_done {ε : (i : Fin S.variants) → Fin (S.arity i) → Type}
    (encs : (i : Fin S.variants) → (j : Fin (S.arity i)) → S.field i j → List Bool) (v : S.Value) :
    (emission (fun i j x => .done (encs i j x)) v : Emission (DeriveError ε)) =
      .done (S.valueBits encs v) := by
  rw [emission, fieldsEmission, fieldsEmissionFrom_done]
  rfl

-- With fields that write nothing the index goes up to the limit of its type.
theorem Sers.poll_overflows {first limit : Nat} (hl : limit ≤ first + n) (ctx : Ctx) {k : Nat}
    (hk : k < n) (sers : Sers fun i => (unitWrite (T i) : MinCodecWrite Ctx B _)) (b : B) :
    (poll first limit ctx k sers b).outcome = .panicked addOverflow := by
  obtain ⟨j, hj⟩ : ∃ j, k + (j + 1) = n := ⟨n - k - 1, by omega⟩
  induction j generalizing k sers
  all_goals
    unfold poll
    rw [dif_pos hk, Polled.andThen_ok rfl]
  case zero      => rw [if_neg (by omega)]
  case succ j hi =>
    split
    case isTrue  => exact hi (by omega) _ (by omega)
    case isFalse => rfl

end

variable [BitSliceMut B] [LawfulBitSliceMut B]

theorem DeriveSerialize.poll_overflows (ctx : Ctx) (h₁ : 1 < S.variants) {v : S.Value}
    (hl : indexLimit (S.arity v.variant) ≤ S.firstArm + S.arity v.variant) {b : B}
    (hb : S.bits ≤ room b) :
    (pollSerialize ctx (new (fun i j => unitWrite (S.field i j)) v) b).outcome =
      .panicked addOverflow := by
  have hf : S.firstArm = 1 := if_pos h₁
  have hk : 0 < S.arity v.variant := by
    have := le_indexLimit (S.arity v.variant)
    omega
  have ⟨d, hn, hd⟩ := newCappedDrain_drains (B := B) v.variant
  have ⟨ho, _⟩ := (hd.writesOnce b).fits (by rwa [Bits.length_lsb])
  have ho : (BitBufMut.pollCappedDrain d b).outcome = .ready (.ok ()) := ho
  simp only [new, pollSerialize, h₁, and_self, if_true, hn]
  rw [Polled.andThen_ok ho, pollFields, Polled.andThen_panicked]
  rw [hf] at hl ⊢
  exact Sers.poll_overflows hl ctx hk _ _

theorem Shape.Value.not_writesFields (ctx : Ctx) (hc : S.Compiles) {v : S.Value}
    (hl : indexLimit (S.arity v.variant) ≤ S.firstArm + S.arity v.variant) :
    ¬v.WritesFields Ctx B := by
  intro hw
  have ha := lt_indexLimit (hc.arity_lt v.variant)
  have h₁ : 1 < S.variants := by
    by_contra h₁
    simp only [firstArm, if_neg h₁] at hl
    omega
  let b : B := BitSliceMut.new (List.replicate S.bytes 0)
  have hb : S.bits ≤ room b := by
    rw [room, LawfulBitSliceMut.image_new, LawfulBitSliceMut.filled_new]
    simpa using S.bits_le
  have he := hw Full (fun i j => unitWrite _) (fun _ _ _ => []) (fun _ => id) fun j =>
    unitWrite_encodes _ (v.fields j)
  obtain ⟨w, _, hx⟩ := he.writes ctx b
  have hp := DeriveSerialize.poll_overflows ctx h₁ hl hb
  simp only [deriveWrite, hp] at hx
  injection hx with _ hx
  cases hx

theorem writesFields_iff (ctx : Ctx) (hc : S.Compiles) (v : S.Value) :
    v.WritesFields Ctx B ↔ ¬(1 < S.variants ∧ S.arity v.variant ∈ [255, 65535, 4294967295]) := by
  rw [← firstArm_add_lt_iff (hc.arity_lt v.variant)]
  constructor
  case mp =>
    intro hw
    by_contra hl
    exact Shape.Value.not_writesFields ctx hc (Nat.not_lt.mp hl) hw
  case mpr =>
    intro hl Stop ws encs hs hw
    have he : Stream.Encodes Stop (deriveWrite ws).pollSerialize _
        (S.emission (fun i j x => .done (encs i j x)) v) := deriveWrite_encodesTo hs hl hw
    rwa [Shape.emission_done] at he

def Shape.flagsOn (k : Nat) : (Shape.flags 2 k).Value where
  variant  := (0 : Fin 2)
  fields _ := true

theorem Shape.flags_compiles {k : Nat} (h : k < 2 ^ 32) : (Shape.flags 2 k).Compiles :=
  compiles_of_le (by decide : 2 ≤ 32768) fun _ => h

theorem writesFields_iff_254 : (Shape.flagsOn 254).WritesFields Unit SliceMut :=
  (writesFields_iff () (Shape.flags_compiles (by decide)) (Shape.flagsOn 254)).mpr
    fun h => absurd h.2 (by decide : 254 ∉ [255, 65535, 4294967295])

-- With 255 flags the index reaches 256.
theorem not_writesFields_255 : ¬(Shape.flagsOn 255).WritesFields Unit SliceMut :=
  Shape.Value.not_writesFields () (Shape.flags_compiles (by decide))
    (by decide : indexLimit 255 ≤ 1 + 255)

end Mincodec
