import Mincodec.Immediate
import Mincodec.Size
import Mincodec.Slice

-- The adapters of fixed buffers end early if and only if the buffer is too short.
namespace Mincodec

open Stream BitSource BitSink

variable {Ctx B B' T U : Type} {enc : T → List Bool} {size : T → Nat}

theorem length_numberBits {n : Nat} (x : BitVec (8 * n)) : (numberBits x).length = 8 * n := by
  simp [numberBits, toBeBytes]

theorem length_optionBits (h : ∀ v, (enc v).length = size v) (v : Option T) :
    (Optional.optionBits enc v).length = optionSize size v := by
  cases v
  case none      => rfl
  case some item => rw [Optional.optionBits, List.length_cons, h, optionSize, Nat.add_comm]

theorem length_resultBits {enc' : U → List Bool} {size' : U → Nat}
    (h : ∀ v, (enc v).length = size v) (h' : ∀ v, (enc' v).length = size' v) (v : Except U T) :
    (resultBits enc enc' v).length = resultSize size size' v := by
  cases v
  case ok item     => rw [resultBits, List.length_cons, h, resultSize, Nat.add_comm]
  case error error => rw [resultBits, List.length_cons, h', resultSize, Nat.add_comm]

theorem length_flatMap (h : ∀ v, (enc v).length = size v) (items : List T) :
    (items.flatMap enc).length = listSize size items := by
  rw [List.length_flatMap, listSize]
  congr 2
  exact funext h

theorem length_stringBits [BitBufMut B'] (s : Str) :
    (stringBits B' s).length = stringSize B' s := by
  rw [stringBits, Bits.length_ofBytes, List.length_append, Nat.mul_add]
  rfl

theorem length_vecBits [BitBufMut B'] {n : Nat} (h : ∀ v, (enc v).length = size v) (v : Vec T n) :
    (vecBits B' enc v).length = vecSize B' size v := by
  rw [vecBits, List.length_append, length_flatMap h, Bits.length_ofBytes]
  rfl

section
variable {n : Nat} {F : Fin n → Type} {encs : (i : Fin n) → F i → List Bool}
variable {sizes : (i : Fin n) → F i → Nat}

theorem fieldsBitsFrom_eq_flatten (v : (i : Fin n) → F i) (k : Nat) :
    fieldsBitsFrom encs v k = ((List.ofFn fun i => encs i (v i)).drop k).flatten := by
  fun_induction fieldsBitsFrom encs v k
  case case2 k hk    => rw [List.drop_of_length_le (by simpa using Nat.not_lt.mp hk)]; rfl
  case case1 k hk hi =>
    rw [List.drop_eq_getElem_cons (by simpa using hk), List.flatten_cons, hi, List.getElem_ofFn]

theorem length_fieldsBits (h : ∀ i v, (encs i v).length = sizes i v) (v : (i : Fin n) → F i) :
    (fieldsBits encs v).length = fieldsSize sizes v := by
  rw [fieldsBits, fieldsBitsFrom_eq_flatten, List.drop_zero, List.length_flatten, List.map_ofFn,
    fieldsSize]
  congr 2
  exact funext fun i => h i (v i)

end

theorem Shape.length_valueBits {S : Shape}
    {encs : (i : Fin S.variants) → (j : Fin (S.arity i)) → S.field i j → List Bool}
    {sizes : (i : Fin S.variants) → (j : Fin (S.arity i)) → S.field i j → Nat}
    (h : ∀ i j v, (encs i j v).length = sizes i j v) (v : S.Value) :
    (S.valueBits encs v).length = S.valueSize sizes v := by
  have hd : (S.determinantBits v.variant).length = Nat.clog 2 S.variants := by
    unfold determinantBits
    split
    case isTrue    => exact Bits.length_lsb ..
    case isFalse h => rw [Nat.clog_of_right_le_one (by omega)]; rfl
  rw [valueBits, List.length_append, hd, length_fieldsBits (h v.variant)]
  rfl

variable [BitBuf B] [LawfulBitBuf B] [BitBufMut B'] [LawfulBitBufMut B']
variable {r : MinCodecRead Ctx B T} {w : MinCodecWrite Ctx B' T}

theorem Sized.exists_bits [LawfulVlq B B'] (h : Sized r w size) :
    ∃ enc, ReadsBack r w enc ∧ ∀ v, (enc v).length = size v := by
  induction h
  case bool            => exact ⟨_, .bool, fun _ => rfl⟩
  case number n        => exact ⟨_, .number n, length_numberBits⟩
  case char            => exact ⟨_, .char, fun _ => length_numberBits _⟩
  case usize           => exact ⟨_, .usize, fun _ => length_numberBits _⟩
  case unit u h        => exact ⟨_, .unit u h, fun _ => rfl⟩
  case empty h         => exact ⟨_, .empty h, fun _ => rfl⟩
  case string          => exact ⟨_, .string, length_stringBits⟩
  case box hi          =>
    have ⟨_, h, hl⟩ := hi
    exact ⟨_, h.box, hl⟩
  case option hi       =>
    have ⟨_, h, hl⟩ := hi
    exact ⟨_, h.option, length_optionBits hl⟩
  case result hi hi'   =>
    have ⟨_, h, hl⟩ := hi
    have ⟨_, h', hl'⟩ := hi'
    exact ⟨_, h.result h', length_resultBits hl hl'⟩
  case vec n _ hi      =>
    have ⟨_, h, hl⟩ := hi
    exact ⟨_, h.vec n, length_vecBits hl⟩
  case array hn _ hi   =>
    have ⟨_, h, hl⟩ := hi
    exact ⟨_, h.array hn, fun v => length_flatMap hl v.toList⟩
  case tuple1 hi       =>
    have ⟨_, h, hl⟩ := hi
    exact ⟨_, h.tuple1, fun v => hl (v 0)⟩
  case tuple hn _ hi   =>
    choose encs h hl using hi
    exact ⟨_, .tuple h hn, length_fieldsBits hl⟩
  case derive h₀ hc ha _ hi =>
    choose encs h hl using hi
    exact ⟨_, .derive h h₀ hc ha, Shape.length_valueBits hl⟩
  case deriveEmpty h   => exact ⟨_, .deriveEmpty h, fun _ => rfl⟩

-- A value is written if and only if its size is at most that of the buffer, and otherwise the buffer
-- is filled with the first bits of its encoding. It is not read from fewer bits than its size.
theorem immediate_boundary [LawfulVlq B B'] (h : Sized r w size) :
    ∃ enc : T → List Bool, ∀ v, (enc v).length = size v ∧
      (∀ ctx (b : B'), filled b = 0 → ∃ fut, (w.writeImmediate v b).poll ctx =
          (.ready (if size v ≤ room b then .ok (size v) else .error .insufficient), fut) ∧
        Produces b ((enc v).take (room b)) fut.buf) ∧
      ∀ ctx (b : B), unread b <+: enc v → unread b ≠ enc v →
        ∃ fut, (r.readImmediate b).poll ctx = (.ready (.error .insufficient), fut) := by
  have ⟨enc, ⟨p, hr, hw, hp⟩, hl⟩ := h.exists_bits
  refine ⟨enc, fun v => ⟨hl v, ?write, fun ctx b => readImmediate_insufficient hr ctx (hp v)⟩⟩
  intro ctx b hb
  by_cases hs : size v ≤ room b
  case pos =>
    have ⟨fut, hx, hv⟩ := writeImmediate_ready hw ctx v (b := b) (by rwa [hl])
    rw [hv.filled_eq, hb, Nat.zero_add, hl] at hx
    rw [if_pos hs, List.take_of_length_le (by rwa [hl])]
    exact ⟨fut, hx, hv⟩
  case neg =>
    rw [if_neg hs]
    exact writeImmediate_insufficient hw ctx v (by rw [hl]; omega)

-- `Some("hello")` and `[true, false, true]`, with one byte for the length.
example : optionSize (stringSize SliceMut) (some ⟨"hello", by decide⟩) = 1 + 48 ∧
    vecSize SliceMut (n := 1) (fun _ => 1) ⟨[true, false, true], by decide⟩ = 11 := by
  decide

theorem immediate_boundary_sample : ∃ fut,
    ((Optional.optionWrite (vecWrite (boolWrite : MinCodecWrite Unit SliceMut _) 1)).writeImmediate
        (some ⟨[true], by decide⟩) ⟨List.replicate 9 false, 0, by decide⟩).poll () =
      (.ready (.error .insufficient), fut) := by
  have h : @Sized Unit Slice SliceMut _ _ _ _ _ _ := .option (.vec 1 .bool)
  have ⟨enc, h⟩ := immediate_boundary h
  have ⟨fut, hx, _⟩ := (h (some ⟨[true], by decide⟩)).2.1 ()
    (⟨List.replicate 9 false, 0, by decide⟩ : SliceMut) rfl
  exact ⟨fut, hx⟩

end Mincodec
