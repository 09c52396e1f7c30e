import Mincodec.Codec
import Mathlib.Logic.Function.Basic

-- The loops over the fields that the codecs of tuples and of derived types share. The arms that the
-- macros generate for the fields are one arm with the field's position as a parameter.
namespace Mincodec

open Stream BitSource BitSink

variable {Ctx B : Type} {n : Nat} {T : Fin n → Type}

def addOverflow : String :=
  "attempt to add with overflow"

structure FieldError (ε : Fin n → Type) where
  field : Fin n
  error : ε field

instance {ε : Fin n → Type} [∀ i, DecidableEq (ε i)] : DecidableEq (FieldError ε)
  | ⟨i, e⟩, ⟨j, e'⟩ => decidable_of_iff (∃ h : i = j, h ▸ e = e') <| by
    constructor
    case mp =>
      rintro ⟨rfl, rfl⟩
      rfl
    case mpr =>
      rintro ⟨⟩
      exact ⟨rfl, rfl⟩

abbrev Slots (rs : (i : Fin n) → MinCodecRead Ctx B (T i)) :=
  (i : Fin n) → OptionDeserialize (rs i)

abbrev Sers (ws : (i : Fin n) → MinCodecWrite Ctx B (T i)) :=
  (i : Fin n) → (ws i).Serialize

namespace Slots

variable {rs : (i : Fin n) → MinCodecRead Ctx B (T i)}

def new (rs : (i : Fin n) → MinCodecRead Ctx B (T i)) : Slots rs :=
  fun i => .new (rs i)

-- The arms of the fields, from the index on. The index has a type of `limit` values.
def poll (limit : Nat) (ctx : Ctx) (idx : Nat) (slots : Slots rs) (b : B) :
    Polled (Nat × Slots rs) B (Except (FieldError fun i => (rs i).Error) Unit) :=
  if h : idx < n then
    (OptionDeserialize.pollDeserialize ctx (slots ⟨idx, h⟩) b).andThen
      (fun slot => (idx, Function.update slots ⟨idx, h⟩ slot)) (⟨⟨idx, h⟩, ·⟩)
      fun _ slot b =>
        if idx + 1 < limit then
          poll limit ctx (idx + 1) (Function.update slots ⟨idx, h⟩ slot) b
        else
          ⟨.panicked addOverflow, (idx, Function.update slots ⟨idx, h⟩ slot), b⟩
  else
    ⟨.ready (.ok ()), (idx, slots), b⟩
termination_by n - idx

def take (slots : Slots rs) : Slots rs :=
  fun i => (slots i).take.2

def unwrap (slots : Slots rs) : Option ((i : Fin n) → T i) :=
  if h : ∀ i, ((slots i).take.1).isSome then
    some fun i => ((slots i).take.1).get (h i)
  else
    none

end Slots

-- The arms of the fields, from field `k` on. The arm of the first field has the index `first`.
def Sers.poll {ws : (i : Fin n) → MinCodecWrite Ctx B (T i)} (first limit : Nat) (ctx : Ctx)
    (k : Nat) (sers : Sers ws) (b : B) :
    Polled (Nat × Sers ws) B (Except (FieldError fun i => (ws i).Error) Unit) :=
  if h : k < n then
    ((ws ⟨k, h⟩).pollSerialize ctx (sers ⟨k, h⟩) b).andThen
      (fun ser => (first + k, Function.update sers ⟨k, h⟩ ser)) (⟨⟨k, h⟩, ·⟩)
      fun _ ser b =>
        if first + k + 1 < limit then
          poll first limit ctx (k + 1) (Function.update sers ⟨k, h⟩ ser) b
        else
          ⟨.panicked addOverflow, (first + k, Function.update sers ⟨k, h⟩ ser), b⟩
  else
    ⟨.ready (.ok ()), (first + k, sers), b⟩
termination_by n - k

theorem Sers.poll_ready {ws : (i : Fin n) → MinCodecWrite Ctx B (T i)} {first limit k : Nat}
    (h : ¬k < n) (ctx : Ctx) (sers : Sers ws) (b : B) :
    Sers.poll first limit ctx k sers b = ⟨.ready (.ok ()), (first + k, sers), b⟩ := by
  rw [Sers.poll, dif_neg h]

section
variable {ε : Fin n → Type}

def snoc {k : Nat} (h : k < n) (vs : (i : Fin n) → i.val < k → T i) (v : T ⟨k, h⟩) (i : Fin n)
    (hi : i.val < k + 1) : T i :=
  if h' : i.val < k then vs i h' else
    have hk : ⟨k, h⟩ = i := Fin.ext (by simp only; omega)
    hk ▸ v

theorem snoc_lt {k : Nat} (h : k < n) (vs : (i : Fin n) → i.val < k → T i) (v : T ⟨k, h⟩)
    {i : Fin n} (hi : i.val < k) : snoc h vs v i (by omega) = vs i hi :=
  dif_pos hi

theorem snoc_self {k : Nat} (h : k < n) (vs : (i : Fin n) → i.val < k → T i) (v : T ⟨k, h⟩) :
    snoc h vs v ⟨k, h⟩ k.lt_succ_self = v :=
  dif_neg (Nat.lt_irrefl k)

theorem snoc_eq {v : (i : Fin n) → T i} {k : Nat} (h : k < n) :
    snoc h (fun i _ => v i) (v ⟨k, h⟩) = fun i _ => v i := by
  funext i hi
  by_cases h' : i.val < k
  case pos => exact snoc_lt h _ _ h'
  case neg =>
    obtain rfl : i = ⟨k, h⟩ := Fin.ext (by simp only; omega)
    exact snoc_self h _ _

def fieldsParserFrom (ps : (i : Fin n) → Parser (ε i) (T i)) (k : Nat)
    (vs : (i : Fin n) → i.val < k → T i) : Parser (FieldError ε) ((i : Fin n) → T i) :=
  if h : k < n then
    ((ps ⟨k, h⟩).mapErr (⟨⟨k, h⟩, ·⟩)).bind fun v => fieldsParserFrom ps (k + 1) (snoc h vs v)
  else
    .pure fun i => vs i (by omega)
termination_by n - k

def fieldsEmissionFrom (encs : (i : Fin n) → T i → Emission (ε i)) (v : (i : Fin n) → T i) (k : Nat) :
    Emission (FieldError ε) :=
  if h : k < n then
    ((encs ⟨k, h⟩ (v ⟨k, h⟩)).mapErr (⟨⟨k, h⟩, ·⟩)).seq (fieldsEmissionFrom encs v (k + 1))
  else
    .done []
termination_by n - k

def fieldsBitsFrom (encs : (i : Fin n) → T i → List Bool) (v : (i : Fin n) → T i) (k : Nat) :
    List Bool :=
  if h : k < n then encs ⟨k, h⟩ (v ⟨k, h⟩) ++ fieldsBitsFrom encs v (k + 1) else []
termination_by n - k

theorem fieldsParserFrom_halts {ps : (i : Fin n) → Parser (ε i) (T i)}
    {encs : (i : Fin n) → T i → List Bool}
    (h : ∀ i v, (ps i).Halts (encs i v) (.finished (.ok v))) (v : (i : Fin n) → T i) (k : Nat) :
    (fieldsParserFrom ps k fun i _ => v i).Halts (fieldsBitsFrom encs v k) (.finished (.ok v)) := by
  fun_induction fieldsBitsFrom encs v k
  case case2 k hk =>
    unfold fieldsParserFrom
    rw [dif_neg hk]
    exact Parser.pure_halts v
  case case1 k hk hi =>
    unfold fieldsParserFrom
    rw [dif_pos hk]
    apply (h _ _).mapErr.bind
    rwa [snoc_eq]

def fieldsParser (ps : (i : Fin n) → Parser (ε i) (T i)) :
    Parser (FieldError ε) ((i : Fin n) → T i) :=
  fieldsParserFrom ps 0 fun _ hi => (Nat.not_lt_zero _ hi).elim

def fieldsEmission (encs : (i : Fin n) → T i → Emission (ε i)) (v : (i : Fin n) → T i) :
    Emission (FieldError ε) :=
  fieldsEmissionFrom encs v 0

def fieldsBits (encs : (i : Fin n) → T i → List Bool) (v : (i : Fin n) → T i) : List Bool :=
  fieldsBitsFrom encs v 0

theorem fieldsParser_eq (ps : (i : Fin n) → Parser (ε i) (T i))
    (vs : (i : Fin n) → i.val < 0 → T i) : fieldsParser ps = fieldsParserFrom ps 0 vs := by
  unfold fieldsParser
  congr 1
  funext i hi
  exact (Nat.not_lt_zero _ hi).elim

theorem fieldsParser_halts {ps : (i : Fin n) → Parser (ε i) (T i)}
    {encs : (i : Fin n) → T i → List Bool}
    (h : ∀ i v, (ps i).Halts (encs i v) (.finished (.ok v))) (v : (i : Fin n) → T i) :
    (fieldsParser ps).Halts (fieldsBits encs v) (.finished (.ok v)) := by
  rw [fieldsParser_eq ps fun i _ => v i]
  exact fieldsParserFrom_halts h v 0

end

end Mincodec
