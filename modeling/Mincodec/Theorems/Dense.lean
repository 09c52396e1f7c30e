import Mincodec.Meaning
import Mincodec.Stream.Complete
import Mincodec.Theorems.Canonical
import Mincodec.Theorems.Incremental
import Mathlib.Data.Fintype.Order

-- Types that every string of bits is a value of.
namespace Mincodec

open Stream BitSource BitSink InformationTheory

variable {Ctx B B' T U : Type}

-- The number of variants of an enum is a power of two, and so on for its fields.
inductive Dense [BitBuf B] [BitBufMut B'] :
    {T : Type} → MinCodecRead Ctx B T → MinCodecWrite Ctx B' T → Prop
  | bool : Dense boolRead boolWrite
  | number (n : Nat) : Dense (numberRead n) (numberWrite n)
  | usize : Dense usizeRead usizeWrite
  | unit {T : Type} (unit : T) : (∀ x, x = unit) → Dense (unitRead unit) (unitWrite T)
  | box {T : Type} {r : MinCodecRead Ctx B T} {w : MinCodecWrite Ctx B' T} :
    Dense r w → Dense (boxRead r) (boxWrite w)
  | option {T : Type} {r : MinCodecRead Ctx B T} {w : MinCodecWrite Ctx B' T} :
    Dense r w → Dense (Optional.optionRead r) (Optional.optionWrite w)
  | result {T U : Type} {r : MinCodecRead Ctx B T} {w : MinCodecWrite Ctx B' T}
    {r' : MinCodecRead Ctx B U} {w' : MinCodecWrite Ctx B' U} : Dense r w → Dense r' w' →
    Dense (resultRead r r') (resultWrite w w')
  | array {T : Type} {r : MinCodecRead Ctx B T} {w : MinCodecWrite Ctx B' T} {n : Nat} : 0 < n →
    Dense r w → Dense (arrayRead r n) (arrayWrite w n)
  | tuple1 {T : Fin 1 → Type} {r : MinCodecRead Ctx B (T 0)} {w : MinCodecWrite Ctx B' (T 0)} :
    Dense r w → Dense (tuple1Read r) (tuple1Write w)
  | tuple {n : Nat} {T : Fin n → Type} {rs : (i : Fin n) → MinCodecRead Ctx B (T i)}
    {ws : (i : Fin n) → MinCodecWrite Ctx B' (T i)} : 2 ≤ n → n ≤ 16 →
    (∀ i, Dense (rs i) (ws i)) → Dense (tupleRead rs) (tupleWrite ws)
  | derive {S : Shape} {rs : S.Reads Ctx B} {ws : S.Writes Ctx B'} {k : Nat}
    (h : 0 < S.variants) : S.variants = 2 ^ k → S.Compiles → (∀ i, S.arity i < 255) →
    (∀ i j, Dense (rs i j) (ws i j)) → Dense (deriveRead rs h) (deriveWrite ws)

section

variable {ε ε' : Type} {p : Parser ε T} {p' : Parser ε' U} {n m : Nat}

theorem numberParser_isTotal (n : Nat) : (numberParser n).IsTotal (8 * n) :=
  ((Parser.take_isTotal _).map _).map _

theorem optionParser_isTotal (h : p.IsTotal n) : (Optional.optionParser p).IsTotal (1 + n) := by
  apply Parser.bit_isTotal.bind
  intro isSome
  cases isSome
  case true  => exact h.map some
  case false => exact (Parser.pure_isTotal none).mono n.zero_le

theorem resultParser_isTotal (h : p.IsTotal n) (h' : p'.IsTotal m) :
    (resultParser p p').IsTotal (1 + max n m) := by
  apply Parser.bit_isTotal.bind
  intro isT
  cases isT
  case true  => exact ((h.mapErr _).map _).mono (le_max_left ..)
  case false => exact ((h'.mapErr _).map _).mono (le_max_right ..)

end

section

variable {n m : Nat} {F ε : Fin n → Type} {ps : (i : Fin n) → Parser (ε i) (F i)}

theorem fieldsParserFrom_isTotal (h : ∀ i, (ps i).IsTotal m) (k : Nat)
    (vs : (i : Fin n) → i.val < k → F i) : (fieldsParserFrom ps k vs).IsTotal ((n - k) * m) := by
  fun_induction fieldsParserFrom ps k vs
  case case1 k vs hk hi =>
    have hn : (n - k) * m = m + (n - (k + 1)) * m := by
      rw [show n - k = n - (k + 1) + 1 by omega, Nat.succ_mul, Nat.add_comm]
    rw [hn]
    exact ((h _).mapErr _).bind hi
  case case2 k vs hk    => exact (Parser.pure_isTotal _).mono (Nat.zero_le _)

theorem fieldsParser_isTotal (h : ∀ i, (ps i).IsTotal m) : (fieldsParser ps).IsTotal (n * m) :=
  fieldsParserFrom_isTotal h 0 _

end

theorem Shape.parser_isTotal {S : Shape} {ε : (i : Fin S.variants) → Fin (S.arity i) → Type}
    {ps : (i : Fin S.variants) → (j : Fin (S.arity i)) → Parser (ε i j) (S.field i j)} {m n k : Nat}
    (h : ∀ i j, (ps i j).IsTotal m) (hn : ∀ i, S.arity i ≤ n) (hk : S.variants = 2 ^ k)
    (h₀ : 0 < S.variants) : (parser ps h₀).IsTotal (S.bits + n * m) := by
  have hv (i : Fin S.variants) : (variantParser ps i).IsTotal (n * m) :=
    (((fieldsParser_isTotal (h i)).mapErr _).map _).mono (Nat.mul_le_mul_right m (hn i))
  unfold parser
  split
  case isFalse => exact (hv _).mono (Nat.le_add_left ..)
  case isTrue  =>
    apply (Parser.take_isTotal S.bits).bind_of_halts
    intro u w hw
    have hb : S.bits = k := by
      unfold bits
      rw [hk, Nat.clog_pow 2 k (by decide)]
    have hd : Bits.ofLsb w < S.variants := by
      rw [hk, ← hb, ← (Parser.accepts_take.mp hw.accepts).1]
      exact Bits.ofLsb_lt w
    unfold chosenParser
    rw [dif_pos hd]
    exact hv _

structure Packs [BitSource B] [BitSink B'] (r : MinCodecRead Ctx B T) (w : MinCodecWrite Ctx B' T)
    (p : Parser r.Error T) (enc : T → List Bool) (n : Nat) : Prop where
  decodes   : r.Decodes False p
  encodes   : w.EncodesOnce enc
  halts     : ∀ v, p.Halts (enc v) (.finished (.ok v))
  canonical : p.IsCanonical enc
  total     : p.IsTotal n

namespace Packs

section

variable [BitSource B] [BitSink B'] {r : MinCodecRead Ctx B T} {w : MinCodecWrite Ctx B' T}
variable {p : Parser r.Error T} {enc : T → List Bool} {n : Nat}

theorem isComplete (h : Packs r w p enc n) : IsComplete enc n :=
  h.total.isComplete h.canonical h.halts

theorem map {E E' : Type} {f : T → Except E U} {g : U → Except E' T} {t : U → T}
    (h : Packs r w p enc n) (hg : ∀ u, g u = .ok (t u)) (hf : ∀ u, f (t u) = .ok u)
    (ht : ∀ x, ∃ u, t u = x) : ∃ p, Packs (mapRead r f) (mapWrite w g) p (enc ∘ t) n := by
  have hlift (x : T) : ∃ u, f x = .ok u ∧ t u = x := by
    have ⟨u, hu⟩ := ht x
    exact ⟨u, hu ▸ hf u, hu⟩
  refine ⟨_, mapRead_decodes h.decodes f, mapWrite_encodesOnce h.encodes hg, ?_, ?_, ?_⟩
  case refine_1 =>
    intro u
    rw [← List.append_nil ((enc ∘ t) u)]
    apply (h.halts (t u)).mapErr.bind
    rw [hf u]
    exact Parser.pure_halts u
  case refine_2 =>
    intro bs u rest ha
    obtain ⟨x, mid, hx, hu⟩ := Parser.accepts_bind.mp ha
    obtain ⟨hfx, rfl⟩ := Parser.accepts_lift_mapError.mp hu
    have ⟨u', hfu, htu⟩ := hlift x
    cases hfu.symm.trans hfx
    rw [h.canonical.mapErr _ _ _ _ hx, Function.comp_apply, htu]
  case refine_3 =>
    apply (h.total.mapErr _).bind (m := 0)
    intro x
    have ⟨u, hu, _⟩ := hlift x
    rw [hu]
    exact Parser.pure_isTotal u

end

variable [BitBuf B] [LawfulBitBuf B] [BitBufMut B'] [LawfulBitBufMut B']
variable {r : MinCodecRead Ctx B T} {w : MinCodecWrite Ctx B' T} {p : Parser r.Error T}
variable {enc : T → List Bool} {n : Nat}

theorem number (n : Nat) : Packs (numberRead n : MinCodecRead Ctx B _)
    (numberWrite n : MinCodecWrite Ctx B' _) (numberParser n) numberBits (8 * n) where
  decodes   := numberRead_decodes n
  encodes   := numberWrite_encodesOnce n
  halts     := numberParser_halts
  canonical := numberParser_isCanonical n
  total     := numberParser_isTotal n

theorem option (h : Packs r w p enc n) : Packs (Optional.optionRead r) (Optional.optionWrite w)
    (Optional.optionParser p) (Optional.optionBits enc) (1 + n) where
  decodes   := Optional.optionRead_decodes h.decodes
  encodes   := Optional.optionWrite_encodesOnce h.encodes
  halts     := Optional.optionParser_halts h.halts
  canonical := optionParser_isCanonical h.canonical
  total     := optionParser_isTotal h.total

theorem result {r' : MinCodecRead Ctx B U} {w' : MinCodecWrite Ctx B' U} {p' : Parser r'.Error U}
    {enc' : U → List Bool} {m : Nat} (h : Packs r w p enc n) (h' : Packs r' w' p' enc' m) :
    Packs (resultRead r r') (resultWrite w w') (resultParser p p') (resultBits enc enc')
      (1 + max n m) where
  decodes   := resultRead_decodes h.decodes h'.decodes
  encodes   := resultWrite_encodesOnce h.encodes h'.encodes
  halts     := resultParser_halts h.halts h'.halts
  canonical := resultParser_isCanonical h.canonical h'.canonical
  total     := resultParser_isTotal h.total h'.total

theorem array (h : Packs r w p enc n) {k : Nat} (hk : 0 < k) : Packs (arrayRead r k)
    (arrayWrite w k) (arrayParser p k) (arrayBits enc) (k * n) where
  decodes   := arrayRead_decodes h.decodes hk
  encodes   := arrayWrite_encodesOnce h.encodes _
  halts     := arrayParser_halts h.halts
  canonical := h.canonical.replicate k
  total     := h.total.replicate k

theorem tuple {k : Nat} {F : Fin k → Type} {rs : (i : Fin k) → MinCodecRead Ctx B (F i)}
    {ws : (i : Fin k) → MinCodecWrite Ctx B' (F i)} {ps : (i : Fin k) → Parser (rs i).Error (F i)}
    {encs : (i : Fin k) → F i → List Bool} (h : ∀ i, Packs (rs i) (ws i) (ps i) (encs i) n)
    (hk : k ≤ 16) : Packs (tupleRead rs) (tupleWrite ws) (fieldsParser ps) (fieldsBits encs)
      (k * n) where
  decodes   := tupleRead_decodes (fun i => (h i).decodes) (by omega)
  encodes   := tupleWrite_encodesOnce (fun i => (h i).encodes) (by omega)
  halts     := fieldsParser_halts fun i => (h i).halts
  canonical := fieldsParser_isCanonical fun i => (h i).canonical
  total     := fieldsParser_isTotal fun i => (h i).total

theorem derive {S : Shape} {rs : S.Reads Ctx B} {ws : S.Writes Ctx B'}
    {ps : ∀ i j, Parser (rs i j).Error (S.field i j)} {encs : ∀ i j, S.field i j → List Bool}
    (h : ∀ i j, Packs (rs i j) (ws i j) (ps i j) (encs i j) n) (h₀ : 0 < S.variants) {k : Nat}
    (hk : S.variants = 2 ^ k) (hc : S.Compiles) (ha : ∀ i, S.arity i < 255) :
    Packs (deriveRead rs h₀) (deriveWrite ws) (S.parser ps h₀) (S.valueBits encs)
      (S.bits + 254 * n) where
  decodes   := deriveRead_decodes hc (fun i j => (h i j).decodes) h₀
  encodes   := deriveWrite_encodesOnce (fun i => firstArm_add_lt_indexLimit (ha i))
    fun i j => (h i j).encodes
  halts v   := Shape.parser_halts (fun i j => (h i j).halts) v h₀
  canonical := Shape.parser_isCanonical (fun i j => (h i j).canonical) h₀
  total     := Shape.parser_isTotal (fun i j => (h i j).total) (fun i => Nat.le_of_lt_succ (ha i)) hk h₀

theorem mono {m : Nat} (h : Packs r w p enc n) (hm : n ≤ m) : Packs r w p enc m :=
  { h with total := h.total.mono hm }

end Packs

section

variable [BitBuf B] [LawfulBitBuf B] [BitBufMut B'] [LawfulBitBufMut B']
variable {r : MinCodecRead Ctx B T} {w : MinCodecWrite Ctx B' T}

theorem Dense.exists_packs (h : Dense r w) : ∃ p enc n, Packs r w p enc n := by
  induction h
  case bool             =>
    exact ⟨_, _, 1, boolRead_decodes, boolWrite_encodesOnce, Parser.bit_halts,
      fun _ _ _ => Parser.accepts_bit.mp, Parser.bit_isTotal⟩
  case number n         => exact ⟨_, _, _, .number n⟩
  case usize            =>
    have ⟨p, h⟩ : ∃ p, Packs (usizeRead : MinCodecRead Ctx B _)
        (usizeWrite : MinCodecWrite Ctx B' _) p _ _ :=
      (Packs.number 8).map (fun _ => rfl) usizeTryFrom_usizeAs fun x => ⟨.ofBitVec x, rfl⟩
    exact ⟨p, _, _, h⟩
  case unit u hu        =>
    exact ⟨_, _, 0, unitRead_decodes u, unitWrite_encodesOnce _, fun v => hu v ▸ Parser.pure_halts _,
      fun _ _ _ h => (Parser.accepts_pure.mp h).2, Parser.pure_isTotal u⟩
  case box hi           =>
    have ⟨p, enc, n, h⟩ := hi
    exact ⟨p, enc, n, boxRead_decodes h.decodes, boxWrite_encodesOnce h.encodes, h.halts, h.canonical,
      h.total⟩
  case option hi        =>
    have ⟨_, _, _, h⟩ := hi
    exact ⟨_, _, _, h.option⟩
  case result hi hi'    =>
    have ⟨_, _, _, h⟩ := hi
    have ⟨_, _, _, h'⟩ := hi'
    exact ⟨_, _, _, h.result h'⟩
  case array hn _ hi    =>
    have ⟨_, _, _, h⟩ := hi
    exact ⟨_, _, _, h.array hn⟩
  case tuple1 r w _ hi  =>
    have ⟨_, _, _, h⟩ := hi
    have ⟨p, h⟩ : ∃ p, Packs (tuple1Read r) (tuple1Write w) p _ _ :=
      h.map (fun _ => rfl) (fun v => congrArg Except.ok (Meaning.single_zero v))
        fun x => ⟨Meaning.single x, rfl⟩
    exact ⟨p, _, _, h⟩
  case tuple hn _ hi    =>
    choose p enc n h using hi
    have ⟨m, hm⟩ := Finite.exists_le n
    exact ⟨_, _, _, Packs.tuple (fun i => (h i).mono (hm i)) hn⟩
  case derive h₀ hk hc ha _ hi =>
    choose p enc n h using hi
    have ⟨m, hm⟩ := Finite.exists_le fun x : (i : Fin _) × Fin _ => n x.1 x.2
    exact ⟨_, _, _, Packs.derive (fun i j => (h i j).mono (hm ⟨i, j⟩)) h₀ hk hc ha⟩

-- Nothing but values is decoded, from any bits and in any chunks, and no encoding that is uniquely
-- decodable, of one value or of several in a row, takes fewer bits for some value without taking more
-- for another one.
theorem dense_optimal (h : Dense r w) : ∃ enc n, w.EncodesOnce enc ∧
    (∀ chunk rest, (∀ c ∈ chunk :: rest, c.1 ≠ []) → n ≤ (chunkBits (chunk :: rest)).length →
      ∃ v, pollChunks r.pollDeserialize r.deserialize chunk rest = (.ready (.ok v), (enc v).length) ∧
        enc v <+: chunkBits (chunk :: rest)) ∧
    ∀ code : T → List Bool, UniquelyDecodable (Set.range code) → Function.Injective code →
      (∀ v, (code v).length ≤ (enc v).length) → ∀ v, (code v).length = (enc v).length := by
  have ⟨p, enc, n, h⟩ := h.exists_packs
  refine ⟨enc, n, h.encodes, fun chunk rest hc hl => ?_, fun code => h.isComplete.length_eq⟩
  have ⟨v, hv⟩ := h.isComplete.exists_prefix hl
  exact ⟨v, h.decodes.pollChunks_ends (h.halts v) hc hv, hv⟩

end

def optionOrU16Read : MinCodecRead Unit Slice (Except (BitVec (8 * 2)) (Option Bool)) :=
  resultRead (Optional.optionRead boolRead) u16Read

def optionOrU16Write : MinCodecWrite Unit SliceMut (Except (BitVec (8 * 2)) (Option Bool)) :=
  resultWrite (Optional.optionWrite boolWrite) u16Write

theorem dense_optimal_optionOrU16 : ∃ enc n, optionOrU16Write.EncodesOnce enc ∧
    (∀ chunk rest, (∀ c ∈ chunk :: rest, c.1 ≠ []) → n ≤ (chunkBits (chunk :: rest)).length →
      ∃ v, pollChunks optionOrU16Read.pollDeserialize optionOrU16Read.deserialize chunk rest =
          (.ready (.ok v), (enc v).length) ∧
        enc v <+: chunkBits (chunk :: rest)) ∧
    ∀ code : Except (BitVec (8 * 2)) (Option Bool) → List Bool, UniquelyDecodable (Set.range code) →
      Function.Injective code → (∀ v, (code v).length ≤ (enc v).length) →
      ∀ v, (code v).length = (enc v).length :=
  dense_optimal (.result (.option .bool) (.number 2) : Dense optionOrU16Read optionOrU16Write)

end Mincodec
