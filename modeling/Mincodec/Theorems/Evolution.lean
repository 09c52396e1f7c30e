import Mincodec.Meaning
import Mincodec.Theorems.Counter
import Mincodec.Theorems.Frameless
import Mincodec.Theorems.RoundTrip
import Mathlib.Data.Vector.Basic

-- Types whose values are written alike, so that what is written as the one is read as the other.
namespace Mincodec

open Stream BitSource BitSink Reading

variable {Ctx B B' T U V W E E' : Type}

def Str.items (s : Str) : Vec (BitVec (8 * 1)) 1 where
  val      := s.bytes.map UInt8.toBitVec
  property := by
    have hs : s.bytes.length ≤ isizeMax := s.property
    rw [List.length_map, Nat.mul_one]
    unfold isizeMax at *
    omega

theorem Str.vecBits_items [BitBufMut B'] (s : Str) :
    vecBits B' numberBits s.items = stringBits B' s := by
  have hb (x : UInt8) : numberBits (n := 1) x.toBitVec = Bits.ofByte x := by
    simp [numberBits, toBeBytes, Bits.toBe]
  have hf : s.items.val.flatMap numberBits = Bits.ofBytes s.bytes := by
    show (s.bytes.map fun x => (x.toBitVec : BitVec (8 * 1))).flatMap numberBits = _
    rw [List.flatMap_map]
    simp only [hb]
    rfl
  have hl : s.items.val.length = s.bytes.length := List.length_map ..
  rw [vecBits, hl, hf, stringBits, Bits.ofBytes_append]

namespace Shape

def ofOption (T : Type) : Shape where
  name      := "Option"
  variants  := 2
  arity i   := i
  field _ _ := T

def ofOption.value : Option T → (ofOption T).Value
  | none   => ⟨⟨0, Nat.zero_lt_two⟩, fun j => j.elim0⟩
  | some x => ⟨⟨1, Nat.one_lt_two⟩, fun _ => x⟩

def ofResult (T U : Type) : Shape where
  name      := "Result"
  variants  := 2
  arity _   := 1
  field i _ := if i.val = 0 then U else T

def ofResult.value : Except U T → (ofResult T U).Value
  | .error e => ⟨⟨0, Nat.zero_lt_two⟩, fun _ => e⟩
  | .ok x    => ⟨⟨1, Nat.one_lt_two⟩, fun _ => x⟩

def ofResult.writes (w : MinCodecWrite Ctx B' T) (w' : MinCodecWrite Ctx B' U) :
    (ofResult T U).Writes Ctx B'
  | ⟨0, _⟩, _ => w'
  | ⟨1, _⟩, _ => w

def ofResult.bits (enc : T → List Bool) (enc' : U → List Bool) :
    (i : Fin 2) → Fin 1 → (if i.val = 0 then U else T) → List Bool
  | ⟨0, _⟩, _ => enc'
  | ⟨1, _⟩, _ => enc

def ofBool.value (x : Bool) : (flags 2 0).Value :=
  ⟨if x then ⟨1, Nat.one_lt_two⟩ else ⟨0, Nat.zero_lt_two⟩, fun j => j.elim0⟩

def struct {n : Nat} (T : Fin n → Type) : Shape where
  name      := "Struct"
  variants  := 1
  arity _   := n
  field _ j := T j

end Shape

-- The variants of an enum are the first ones of another enum, whose determinant has as many bits, and
-- have as many fields there.
structure Shape.Grows (S S' : Shape) : Prop where
  le         : S.variants ≤ S'.variants
  bits_eq    : S.bits = S'.bits
  arity_eq i : S'.arity (i.castLE le) = S.arity i

abbrev Shape.Grows.Fields {S S' : Shape} (g : S.Grows S') :=
  ∀ i j, S.field i (j.cast (g.arity_eq i)) → S'.field (i.castLE g.le) j → Prop

inductive Shape.Grows.Relates {S S' : Shape} (g : S.Grows S') (R : g.Fields) :
    S.Value → S'.Value → Prop
  | mk {i : Fin S.variants} {fields : (j : Fin (S.arity i)) → S.field i j}
    {fields' : (j : Fin (S'.arity (i.castLE g.le))) → S'.field (i.castLE g.le) j} :
    (∀ j, R i j (fields (j.cast (g.arity_eq i))) (fields' j)) →
    Relates g R ⟨i, fields⟩ ⟨i.castLE g.le, fields'⟩

inductive Except.Relates (R : T → U → Prop) (P : V → W → Prop) : Except V T → Except W U → Prop
  | ok {x : T} {y : U} : R x y → Relates R P (.ok x) (.ok y)
  | error {x : V} {y : W} : P x y → Relates R P (.error x) (.error y)

-- The values of the one type are written like the related values of the other one.
inductive Evolves [BitBufMut B'] [LawfulBitBufMut B'] :
    {T U : Type} → MinCodecWrite Ctx B' T → MinCodecWrite Ctx B' U → (T → U → Prop) → Prop
  | refl {T : Type} {w : MinCodecWrite Ctx B' T} {enc : T → List Bool} : w.EncodesOnce enc →
    Evolves w w Eq
  | trans {T U V : Type} {w : MinCodecWrite Ctx B' T} {w' : MinCodecWrite Ctx B' U}
    {w'' : MinCodecWrite Ctx B' V} {R : T → U → Prop} {R' : U → V → Prop} : Evolves w w' R →
    Evolves w' w'' R' → Evolves w w'' (Relation.Comp R R')
  | symm {T U : Type} {w : MinCodecWrite Ctx B' T} {w' : MinCodecWrite Ctx B' U}
    {R : T → U → Prop} : Evolves w w' R → Evolves w' w (flip R)
  | box {T U : Type} {w : MinCodecWrite Ctx B' T} {w' : MinCodecWrite Ctx B' U}
    {R : T → U → Prop} : Evolves w w' R → Evolves w (boxWrite w') R
  | option {T U : Type} {w : MinCodecWrite Ctx B' T} {w' : MinCodecWrite Ctx B' U}
    {R : T → U → Prop} : Evolves w w' R →
    Evolves (Optional.optionWrite w) (Optional.optionWrite w') (Option.Rel R)
  | result {T U T' U' : Type} {w : MinCodecWrite Ctx B' T} {w' : MinCodecWrite Ctx B' U}
    {e : MinCodecWrite Ctx B' T'} {e' : MinCodecWrite Ctx B' U'} {R : T → U → Prop}
    {P : T' → U' → Prop} : Evolves w w' R → Evolves e e' P →
    Evolves (resultWrite w e) (resultWrite w' e') (Except.Relates R P)
  | array {T U : Type} {w : MinCodecWrite Ctx B' T} {w' : MinCodecWrite Ctx B' U}
    {R : T → U → Prop} (n : Nat) : Evolves w w' R →
    Evolves (arrayWrite w n) (arrayWrite w' n) fun v v' => List.Forall₂ R v.toList v'.toList
  | vec {T U : Type} {w : MinCodecWrite Ctx B' T} {w' : MinCodecWrite Ctx B' U}
    {R : T → U → Prop} (size size' : Nat) : Evolves w w' R →
    Evolves (vecWrite w size) (vecWrite w' size') fun v v' => List.Forall₂ R v.val v'.val
  | tuple {n : Nat} {T U : Fin n → Type} {ws : (i : Fin n) → MinCodecWrite Ctx B' (T i)}
    {ws' : (i : Fin n) → MinCodecWrite Ctx B' (U i)} {R : (i : Fin n) → T i → U i → Prop} : n ≤ 16 →
    (∀ i, Evolves (ws i) (ws' i) (R i)) →
    Evolves (tupleWrite ws) (tupleWrite ws') fun v v' => ∀ i, R i (v i) (v' i)
  | derive {S S' : Shape} {ws : S.Writes Ctx B'} {ws' : S'.Writes Ctx B'} (g : S.Grows S')
    {R : g.Fields} : (∀ i, S'.arity i < 255) → (∀ i j, ∃ enc, (ws' i j).EncodesOnce enc) →
    (∀ i j, Evolves (ws i (j.cast (g.arity_eq i))) (ws' (i.castLE g.le) j) (R i j)) →
    Evolves (deriveWrite ws) (deriveWrite ws') (g.Relates R)
  | char : Evolves charWrite (numberWrite 4) fun x y => y = charAs x
  | usize : Evolves usizeWrite (numberWrite 8) fun x y => y = usizeAs x
  | string : Evolves stringWrite (vecWrite (numberWrite 1) 1) fun s v => v = s.items
  | bool : Evolves boolWrite (deriveWrite (S := .flags 2 0) fun _ _ => boolWrite)
    fun x v => v = Shape.ofBool.value x
  | optionEnum {T : Type} {w : MinCodecWrite Ctx B' T} {enc : T → List Bool} : w.EncodesOnce enc →
    Evolves (Optional.optionWrite w) (deriveWrite (S := .ofOption T) fun _ _ => w)
      fun x v => v = Shape.ofOption.value x
  | resultEnum {T U : Type} {w : MinCodecWrite Ctx B' T} {w' : MinCodecWrite Ctx B' U}
    {enc : T → List Bool} {enc' : U → List Bool} : w.EncodesOnce enc → w'.EncodesOnce enc' →
    Evolves (resultWrite w w') (deriveWrite (S := .ofResult T U) (Shape.ofResult.writes w w'))
      fun x v => v = Shape.ofResult.value x
  | arrayTuple {T : Type} {w : MinCodecWrite Ctx B' T} {enc : T → List Bool} {n : Nat} : n ≤ 16 →
    w.EncodesOnce enc →
    Evolves (arrayWrite w n) (tupleWrite fun _ : Fin n => w) fun v t => t = v.get
  | tupleStruct {n : Nat} {T : Fin n → Type} {ws : (i : Fin n) → MinCodecWrite Ctx B' (T i)}
    {encs : (i : Fin n) → T i → List Bool} : n ≤ 16 → (∀ i, (ws i).EncodesOnce (encs i)) →
    Evolves (tupleWrite ws) (deriveWrite (S := .struct T) fun _ => ws)
      fun v s => s = ⟨(0 : Fin 1), v⟩

section

variable {n m : Nat} {F : Fin n → Type} {G : Fin m → Type}

theorem fieldsBits_cast (h : m = n) {encs : (i : Fin n) → F i → List Bool}
    {encs' : (i : Fin m) → G i → List Bool} {v : (i : Fin n) → F i} {v' : (i : Fin m) → G i}
    (he : ∀ j, encs' j (v' j) = encs (j.cast h) (v (j.cast h))) :
    fieldsBits encs' v' = fieldsBits encs v := by
  subst h
  suffices h : ∀ k, fieldsBitsFrom encs' v' k = fieldsBitsFrom encs v k from h 0
  intro k
  fun_induction fieldsBitsFrom encs v k
  case case1 k hk hi =>
    rw [fieldsBitsFrom, dif_pos hk, hi]
    exact congrArg (· ++ fieldsBitsFrom encs v (k + 1)) (he ⟨k, hk⟩)
  case case2 k hk    => rw [fieldsBitsFrom, dif_neg hk]

theorem fieldsBits_nil (h : n = 0) (encs : (i : Fin n) → F i → List Bool) (v : (i : Fin n) → F i) :
    fieldsBits encs v = [] := by
  rw [fieldsBits, fieldsBitsFrom, dif_neg (by omega)]

theorem fieldsBits_singleton (h : n = 1) (encs : (i : Fin n) → F i → List Bool)
    (v : (i : Fin n) → F i) : fieldsBits encs v = encs ⟨0, by omega⟩ (v ⟨0, by omega⟩) := by
  rw [fieldsBits, fieldsBitsFrom, dif_pos (by omega), fieldsBitsFrom, dif_neg (by omega),
    List.append_nil]

theorem fieldsBits_get (enc : T → List Bool) (v : List.Vector T n) :
    fieldsBits (fun _ => enc) v.get = arrayBits enc v := by
  suffices h : ∀ k, fieldsBitsFrom (fun _ => enc) v.get k = (v.toList.drop k).flatMap enc from h 0
  intro k
  fun_induction fieldsBitsFrom (fun _ => enc) v.get k
  case case1 k hk hi =>
    have hl : k < v.toList.length := by rwa [v.toList_length]
    rw [hi, List.drop_eq_getElem_cons hl, List.flatMap_cons]
    rfl
  case case2 k hk    =>
    rw [List.drop_of_length_le (by rw [v.toList_length]; omega)]
    rfl

end

namespace Shape

theorem one_lt_variants_iff (S : Shape) : 1 < S.variants ↔ 0 < S.bits := by
  constructor
  case mp  => exact Nat.clog_pos (by decide)
  case mpr =>
    intro h
    by_contra hle
    exact absurd (Nat.clog_of_right_le_one (Nat.le_of_not_lt hle) 2) (Nat.ne_of_gt h)

theorem determinantBits_two {S : Shape} (h : S.variants = 2) (i : Fin S.variants) :
    S.determinantBits i = [decide (i.val = 1)] := by
  have hb : S.bits = 1 := by
    unfold bits
    rw [h]
    exact Nat.clog_pow 2 1 (by decide)
  have hi : i.val = 0 ∨ i.val = 1 := by omega
  rw [Shape.determinantBits, if_pos (by omega), hb, Bits.lsb_succ]
  cases hi <;> simp [*, Bits.lsb]

section

variable {S : Shape} {encs : (i : Fin S.variants) → (j : Fin (S.arity i)) → S.field i j → List Bool}

theorem valueBits_nil (h : S.variants = 2) (v : S.Value) (ha : S.arity v.variant = 0) :
    S.valueBits encs v = [decide (v.variant.val = 1)] := by
  rw [valueBits, determinantBits_two h, fieldsBits_nil ha, List.append_nil]

theorem valueBits_singleton (h : S.variants = 2) (v : S.Value) (ha : S.arity v.variant = 1) :
    S.valueBits encs v = decide (v.variant.val = 1) ::
      encs v.variant ⟨0, by omega⟩ (v.fields ⟨0, by omega⟩) := by
  rw [valueBits, determinantBits_two h, fieldsBits_singleton ha]
  rfl

end

theorem Grows.determinantBits {S S' : Shape} (g : S.Grows S') (i : Fin S.variants) :
    S'.determinantBits (i.castLE g.le) = S.determinantBits i := by
  have h : 1 < S'.variants ↔ 1 < S.variants := by
    rw [one_lt_variants_iff, one_lt_variants_iff, g.bits_eq]
  unfold Shape.determinantBits
  rw [← g.bits_eq]
  simp only [h]
  rfl

theorem Grows.valueBits {S S' : Shape} {g : S.Grows S'} {R : g.Fields}
    {encs : (i : Fin S.variants) → (j : Fin (S.arity i)) → S.field i j → List Bool}
    {encs' : (i : Fin S'.variants) → (j : Fin (S'.arity i)) → S'.field i j → List Bool}
    (h : ∀ i j x y, R i j x y → encs' (i.castLE g.le) j y = encs i (j.cast (g.arity_eq i)) x)
    {v : S.Value} {v' : S'.Value} (hv : g.Relates R v v') :
    S'.valueBits encs' v' = S.valueBits encs v := by
  obtain ⟨hr⟩ := hv
  rename_i i fields fields'
  have hf : fieldsBits (encs' (i.castLE g.le)) fields' = fieldsBits (encs i) fields :=
    fieldsBits_cast (g.arity_eq i) fun j => h i j _ _ (hr j)
  unfold Shape.valueBits
  rw [← g.determinantBits, ← hf]

end Shape

section

variable [BitSliceMut B'] [LawfulBitSliceMut B']

structure Alike (w : MinCodecWrite Ctx B' T) (w' : MinCodecWrite Ctx B' U) (R : T → U → Prop)
    (enc : T → List Bool) (enc' : U → List Bool) : Prop where
  encodes  : w.EncodesOnce enc
  encodes' : w'.EncodesOnce enc'
  bits_eq {v : T} {v' : U} : R v v' → enc' v' = enc v

namespace Alike

variable {w : MinCodecWrite Ctx B' T} {w' : MinCodecWrite Ctx B' U} {R : T → U → Prop}
variable {enc : T → List Bool} {enc' : U → List Bool}

theorem flatMap_eq (h : Alike w w' R enc enc') {vs : List T} {vs' : List U}
    (hv : List.Forall₂ R vs vs') : vs'.flatMap enc' = vs.flatMap enc := by
  induction hv
  case nil          => rfl
  case cons hv _ hi => rw [List.flatMap_cons, List.flatMap_cons, h.bits_eq hv, hi]

theorem symm (h : Alike w w' R enc enc') : Alike w' w (flip R) enc' enc where
  encodes   := h.encodes'
  encodes'  := h.encodes
  bits_eq   := fun hv => (h.bits_eq hv).symm

theorem option (h : Alike w w' R enc enc') :
    Alike (Optional.optionWrite w) (Optional.optionWrite w') (Option.Rel R)
      (Optional.optionBits enc) (Optional.optionBits enc') where
  encodes   := Optional.optionWrite_encodesOnce h.encodes
  encodes'  := Optional.optionWrite_encodesOnce h.encodes'
  bits_eq   := by
    intro v v' hv
    cases hv
    case none    => rfl
    case some hv => exact congrArg (true :: ·) (h.bits_eq hv)

theorem result {T' U' : Type} {e : MinCodecWrite Ctx B' T'} {e' : MinCodecWrite Ctx B' U'}
    {P : T' → U' → Prop} {enc₁ : T' → List Bool} {enc₂ : U' → List Bool} (h : Alike w w' R enc enc')
    (he : Alike e e' P enc₁ enc₂) :
    Alike (resultWrite w e) (resultWrite w' e') (Except.Relates R P) (resultBits enc enc₁)
      (resultBits enc' enc₂) where
  encodes   := resultWrite_encodesOnce h.encodes he.encodes
  encodes'  := resultWrite_encodesOnce h.encodes' he.encodes'
  bits_eq   := by
    intro v v' hv
    cases hv
    case ok hv    => exact congrArg (true :: ·) (h.bits_eq hv)
    case error hv => exact congrArg (false :: ·) (he.bits_eq hv)

theorem array (h : Alike w w' R enc enc') (n : Nat) :
    Alike (arrayWrite w n) (arrayWrite w' n) (fun v v' => List.Forall₂ R v.toList v'.toList)
      (arrayBits enc) (arrayBits enc') where
  encodes   := arrayWrite_encodesOnce h.encodes n
  encodes'  := arrayWrite_encodesOnce h.encodes' n
  bits_eq   := h.flatMap_eq

theorem vec (h : Alike w w' R enc enc') (size size' : Nat) :
    Alike (vecWrite w size) (vecWrite w' size') (fun v v' => List.Forall₂ R v.val v'.val)
      (vecBits B' enc) (vecBits B' enc') where
  encodes   := vecWrite_encodesOnce h.encodes size
  encodes'  := vecWrite_encodesOnce h.encodes' size'
  bits_eq   := by
    intro v v' hv
    unfold vecBits
    rw [hv.length_eq, h.flatMap_eq hv]

theorem tuple {n : Nat} {F G : Fin n → Type} {ws : (i : Fin n) → MinCodecWrite Ctx B' (F i)}
    {ws' : (i : Fin n) → MinCodecWrite Ctx B' (G i)} {R : (i : Fin n) → F i → G i → Prop}
    {encs : (i : Fin n) → F i → List Bool} {encs' : (i : Fin n) → G i → List Bool} (hn : n ≤ 16)
    (h : ∀ i, Alike (ws i) (ws' i) (R i) (encs i) (encs' i)) :
    Alike (tupleWrite ws) (tupleWrite ws') (fun v v' => ∀ i, R i (v i) (v' i)) (fieldsBits encs)
      (fieldsBits encs') where
  encodes   := tupleWrite_encodesOnce (fun i => (h i).encodes) (by omega)
  encodes'  := tupleWrite_encodesOnce (fun i => (h i).encodes') (by omega)
  bits_eq   := fun hv => fieldsBits_cast rfl fun j => (h j).bits_eq (hv j)

theorem derive {S S' : Shape} {ws : S.Writes Ctx B'} {ws' : S'.Writes Ctx B'} (g : S.Grows S')
    {R : g.Fields} {encs : (i : Fin S.variants) → (j : Fin (S.arity i)) → S.field i j → List Bool}
    {encs' : (i : Fin S'.variants) → (j : Fin (S'.arity i)) → S'.field i j → List Bool}
    (ha : ∀ i, S'.arity i < 255) (hw : ∀ i j, (ws' i j).EncodesOnce (encs' i j))
    (h : ∀ i j, Alike (ws i (j.cast (g.arity_eq i))) (ws' (i.castLE g.le) j) (R i j)
      (encs i (j.cast (g.arity_eq i))) (encs' (i.castLE g.le) j)) :
    Alike (deriveWrite ws) (deriveWrite ws') (g.Relates R) (S.valueBits encs) (S'.valueBits encs') where
  encodes   := by
    apply deriveWrite_encodesOnce
    · exact fun i => firstArm_add_lt_indexLimit (g.arity_eq i ▸ ha _)
    · exact fun i j => (h i (j.cast (g.arity_eq i).symm)).encodes
  encodes'  := deriveWrite_encodesOnce (fun i => firstArm_add_lt_indexLimit (ha i)) hw
  bits_eq   := Shape.Grows.valueBits fun i j _ _ hr => (h i j).bits_eq hr

theorem bool :
    Alike boolWrite (deriveWrite fun _ _ => boolWrite : MinCodecWrite Ctx B' (Shape.flags 2 0).Value)
      (fun x v => v = Shape.ofBool.value x) (fun x => [x]) (Shape.valueBits fun _ _ x => [x]) where
  encodes   := boolWrite_encodesOnce
  encodes'  := by
    apply deriveWrite_encodesOnce
    · exact fun _ => firstArm_add_lt_indexLimit (show 0 < 255 by decide)
    · exact fun _ _ => boolWrite_encodesOnce
  bits_eq   := by
    rintro x _ rfl
    exact (Shape.valueBits_nil rfl _ rfl).trans (by cases x <;> rfl)

theorem optionEnum (h : w.EncodesOnce enc) :
    Alike (Optional.optionWrite w) (deriveWrite (S := .ofOption T) fun _ _ => w)
      (fun x v => v = Shape.ofOption.value x) (Optional.optionBits enc)
      (Shape.valueBits (S := .ofOption T) fun _ _ => enc) where
  encodes   := Optional.optionWrite_encodesOnce h
  encodes'  := by
    apply deriveWrite_encodesOnce
    · exact fun i => firstArm_add_lt_indexLimit (i.isLt.trans (show 2 < 255 by decide))
    · exact fun _ _ => h
  bits_eq   := by
    rintro v _ rfl
    cases v
    case none   => exact Shape.valueBits_nil rfl _ rfl
    case some x => exact Shape.valueBits_singleton rfl _ rfl

theorem resultEnum {w' : MinCodecWrite Ctx B' U} {enc' : U → List Bool} (h : w.EncodesOnce enc)
    (h' : w'.EncodesOnce enc') :
    Alike (resultWrite w w') (deriveWrite (S := .ofResult T U) (Shape.ofResult.writes w w'))
      (fun x v => v = Shape.ofResult.value x) (resultBits enc enc')
      (Shape.valueBits (S := .ofResult T U) (Shape.ofResult.bits enc enc')) where
  encodes   := resultWrite_encodesOnce h h'
  encodes'  := by
    apply deriveWrite_encodesOnce
    · exact fun _ => firstArm_add_lt_indexLimit (show 1 < 255 by decide)
    · intro i j
      match i with
      | ⟨0, _⟩ => exact h'
      | ⟨1, _⟩ => exact h
  bits_eq   := by
    rintro v _ rfl
    exact (Shape.valueBits_singleton rfl _ rfl).trans (by cases v <;> rfl)

end Alike

theorem Evolves.exists_alike {w : MinCodecWrite Ctx B' T} {w' : MinCodecWrite Ctx B' U}
    {R : T → U → Prop} (h : Evolves w w' R) (ctx : Ctx) : ∃ enc enc', Alike w w' R enc enc' := by
  induction h
  case refl h             => exact ⟨_, _, h, h, fun hv => hv ▸ rfl⟩
  case trans hi hi'       =>
    have ⟨enc, _, h⟩ := hi
    have ⟨_, enc', h'⟩ := hi'
    obtain rfl := h.encodes'.unique h'.encodes ctx
    exact ⟨enc, enc', h.encodes, h'.encodes', fun ⟨_, hv, hv'⟩ =>
      (h'.bits_eq hv').trans (h.bits_eq hv)⟩
  case symm hi            =>
    have ⟨_, _, h⟩ := hi
    exact ⟨_, _, h.symm⟩
  case box hi             =>
    have ⟨_, _, h⟩ := hi
    exact ⟨_, _, h.encodes, boxWrite_encodesOnce h.encodes', h.bits_eq⟩
  case option hi          =>
    have ⟨_, _, h⟩ := hi
    exact ⟨_, _, h.option⟩
  case result hi hi'      =>
    have ⟨_, _, h⟩ := hi
    have ⟨_, _, h'⟩ := hi'
    exact ⟨_, _, h.result h'⟩
  case array n _ hi       =>
    have ⟨_, _, h⟩ := hi
    exact ⟨_, _, h.array n⟩
  case vec size size' _ hi =>
    have ⟨_, _, h⟩ := hi
    exact ⟨_, _, h.vec size size'⟩
  case tuple hn _ hi      =>
    choose _ _ h using hi
    exact ⟨_, _, .tuple hn h⟩
  case derive g R ha hw _ hi =>
    choose encs encs₁ h using hi
    choose encs' hw using hw
    let encs₀ i (j : Fin _) := encs i (j.cast (g.arity_eq i).symm)
    refine ⟨_, _, .derive g ha hw (?_ : ∀ i j, Alike _ _ _ (encs₀ i (j.cast (g.arity_eq i))) (encs' _ j))⟩
    intro i j
    rw [← (h i j).encodes'.unique (hw _ j) ctx]
    exact h i j
  case char               =>
    exact ⟨_, _, mapWrite_encodesOnce (numberWrite_encodesOnce 4) fun _ => rfl,
      numberWrite_encodesOnce 4, fun hv => hv ▸ rfl⟩
  case usize              =>
    exact ⟨_, _, mapWrite_encodesOnce (numberWrite_encodesOnce 8) fun _ => rfl,
      numberWrite_encodesOnce 8, fun hv => hv ▸ rfl⟩
  case string             =>
    exact ⟨_, _, stringWrite_encodesOnce, vecWrite_encodesOnce (numberWrite_encodesOnce 1) 1,
      fun {s _} hv => hv ▸ s.vecBits_items⟩
  case bool               => exact ⟨_, _, .bool⟩
  case optionEnum h       => exact ⟨_, _, .optionEnum h⟩
  case resultEnum h h'    => exact ⟨_, _, .resultEnum h h'⟩
  case arrayTuple hn h    =>
    exact ⟨_, _, arrayWrite_encodesOnce h _, tupleWrite_encodesOnce (fun _ => h) (by omega),
      fun hv => hv ▸ fieldsBits_get _ _⟩
  case tupleStruct hn h   =>
    refine ⟨_, _, tupleWrite_encodesOnce h (by omega),
      deriveWrite_encodesOnce (fun i => firstArm_add_lt_indexLimit ?_) fun _ => h, fun hv => hv ▸ rfl⟩
    exact hn.trans_lt (by decide)

end

-- An item of a type that is written, and what it is as an item of the type that is read for it.
structure Upgrade (Ctx B B' : Type) where
  {T U : Type}
  old      : MinCodecWrite Ctx B' T
  item     : T
  write    : MinCodecWrite Ctx B' U
  read     : MinCodecRead Ctx B U
  upgraded : U

namespace Upgrade

def message (this : Upgrade Ctx B B') : Message Ctx B B' :=
  ⟨this.write, this.read, this.upgraded⟩

def Carried (this : Upgrade Ctx B B') (s : Sent Ctx B') : Prop :=
  s = ⟨this.old, this.item, s.bytes⟩

structure Sound [BitBuf B] [BitBufMut B'] [LawfulBitBufMut B'] (this : Upgrade Ctx B B') : Prop where
  evolves : ∃ R, Evolves this.old this.write R ∧ R this.item this.upgraded
  format  : Format (.lossless : Scope Ctx B B') this.read this.write
  resumes : Interruptible this.old this.item

section

variable [BitSlice B] [LawfulBitSlice B] [BitSliceMut B'] [LawfulBitSliceMut B'] [LawfulVlq B B']

theorem Sound.holds {this : Upgrade Ctx B B'} (h : this.Sound) (ctx : Ctx) {s : Sent Ctx B'}
    (hc : this.Carried s) (hs : s.Whole) : this.message.Holds False Drained s.bytes := by
  have ⟨R, hevolves, hr⟩ := h.evolves
  have ⟨enc, enc', ha⟩ := hevolves.exists_alike ctx
  have ⟨p, enc₁, hp, hw, hh⟩ := h.format.roundTrips id (fun _ => id) False.elim id
  obtain rfl := hw.unique ha.encodes' ctx
  have ⟨e, he⟩ := h.resumes
  have ⟨b, hb⟩ := exists_room B' (enc this.item).length
  rw [hc] at hs
  have hcut := hs e he.outputs
  rw [he.eq_done (ha.encodes this.item ctx b) hb] at hcut
  exact ⟨_, ⟨p, hp, hh _⟩, (ha.bits_eq hr).symm ▸ hcut⟩

end

end Upgrade

section

variable [BitSlice B] [LawfulBitSlice B] [BitSliceMut B'] [LawfulBitSliceMut B'] [LawfulVlq B B']
variable {first : Upgrade Ctx B B'} {rest : List (Upgrade Ctx B B')}

-- A reader of newer types is given the bytes that a writer sends for items of the old ones. It returns
-- what these are as items of the newer types, however the bytes are cut.
theorem asyncReader_upgrades (hu : ∀ u ∈ first :: rest, u.Sound) (ctx : Ctx) {sending : Sending Ctx B'}
    (hs : Sending.Steps Serializable (Sending.Steady : _ → WriteMoment Ctx E → Prop)
      (.new first.old first.item) sending)
    (hd : sending.writer.isDone) (hm : List.Forall₂ Upgrade.Carried (first :: rest) sending.all)
    {reading : Reading Ctx B} (hr : Reading.Steps B' (Resumable False Drained)
      (Receives ((first :: rest).map Upgrade.message) sending.stream.flatten :
        _ → ReadMoment Ctx E' → Prop) (.new first.read) reading) :
    reading.Restores B' E' False Drained ((first :: rest).map Upgrade.message) sending.stream ∧
    ∀ ctx, ¬reading.Waits ctx := by
  have ⟨p, hp⟩ : ∃ p, first.read.Decodes False p :=
    (hu first (.head _)).format.decodes False.elim
  have hi : Reading.Inv False Drained reading :=
    (Reading.new_inv hp).steps_inv id (fun _ h => ⟨h.1, h.2.1⟩) hr
  have hsent := (Sending.new_inv (hu first (.head _)).resumes.serializable).steps_inv id id hs
  have hholds := hsent.holds hd hm fun u hmem _ hc hs => (hu u hmem).holds ctx hc hs
  exact ⟨((Reading.Fed.new hholds first.read).steps id hr).restores hi
    (Reading.length_items_le hr (Nat.zero_le _)), hi.not_waits⟩

end

section

def enumWrite : MinCodecWrite Unit SliceMut (Shape.flags 2 0).Value :=
  deriveWrite fun _ _ => boolWrite

def enumRead : MinCodecRead Unit Slice (Shape.flags 2 0).Value :=
  deriveRead (fun _ _ => boolRead) Nat.zero_lt_two

def flagsUpgrade : Upgrade Unit Slice SliceMut where
  old      := flagsWrite
  item     := twoFlags
  write    := vecWrite enumWrite 1
  read     := vecRead enumRead 1
  upgraded := ⟨[Shape.ofBool.value true, Shape.ofBool.value true], by decide, by decide⟩

theorem flagsUpgrade_sound : flagsUpgrade.Sound where
  evolves := ⟨_, .vec 1 1 .bool, .cons rfl (.cons rfl .nil)⟩
  format  := .vec 1 trivial (.derive Nat.zero_lt_two (Shape.flags_compiles (by decide))
    (fun _ => (by decide : 0 < 255)) fun _ _ => .bool)
  resumes := by
    have ⟨_, w, hw, _⟩ := flagsMessage_conveys
    exact ⟨_, hw⟩

def readEnum : Reading Unit Slice :=
  (new flagsUpgrade.read).turns SliceMut (earlyReads 2 ++ laterReads 192 2)

def readEnums : Reading Unit Slice :=
  readEnum.again.turns SliceMut (nextReads 192)

theorem flagsUpgrades_at : ∀ {n : Nat}, n < 2 →
    ∃ msg, ([flagsUpgrade, flagsUpgrade].map Upgrade.message)[n]? = some msg ∧
      (⟨_, flagsUpgrade.read⟩ : ReadType Unit Slice) = msg.type
  | 0, _ | 1, _ => ⟨flagsUpgrade.message, rfl, rfl⟩

theorem asyncReader_upgrades_flags :
    readEnums.Restores SliceMut Unit False Drained [flagsUpgrade.message, flagsUpgrade.message]
      bothFlags.stream ∧
    readEnums.items = [flagsUpgrade.message.received, flagsUpgrade.message.received] := by
  have ⟨hd, hstream, hr, hc, hr', hi⟩ : bothFlags.writer.isDone ∧
      bothFlags.stream.flatten = [2, 192, 2, 192] ∧
      Runs SliceMut (Served [2, 192, 2, 192]) (new flagsUpgrade.read)
        (earlyReads 2 ++ laterReads 192 2) ∧
      readEnum.reader.state = .complete ∧
      Runs SliceMut (Served [2, 192, 2, 192]) readEnum.again (nextReads 192) ∧
      readEnums.items.length = 2 := by
    decide +kernel
  have hu : ∀ u ∈ [flagsUpgrade, flagsUpgrade], u.Sound := by
    intro u hu
    obtain rfl : u = flagsUpgrade := by simpa using hu
    exact flagsUpgrade_sound
  have ⟨hfirst, hdone⟩ := @firstFlags_steps Serializable
  have hs : Sending.Steps Serializable (Sending.InFull : _ → WriteMoment Unit Empty → Prop)
      (.new flagsWrite twoFlags) bothFlags :=
    (hfirst.trans (Sending.steps_again flagsUpgrade_sound.resumes.serializable hdone)).trans
      bothFlags_steps
  have ⟨p, hp⟩ : ∃ p, flagsUpgrade.read.Decodes False p :=
    flagsUpgrade_sound.format.decodes False.elim
  have hreads : Steps SliceMut (Resumable False Drained)
      (Receives ([flagsUpgrade, flagsUpgrade].map Upgrade.message) bothFlags.stream.flatten :
        _ → ReadMoment Unit Unit → Prop) (.new flagsUpgrade.read) readEnums :=
    hr.served_again (new_inv hp) rfl (fun hi _ => hi.quiet) hc hr' fun hm hq ht =>
      ⟨hm.1, hq, hstream ▸ hm.2.1, (flagsUpgrades_at hm.2.2).imp fun _ h => ⟨h.1, ht.trans h.2⟩⟩
  have ⟨h, _⟩ := asyncReader_upgrades hu () (hs.mono id Sending.InFull.steady) hd
    (.cons rfl (.cons rfl .nil)) hreads
  exact ⟨h, by rw [h.items_eq, hi]; rfl⟩

end

end Mincodec
