import Mincodec.Primitive
import Mincodec.Theorems.Fields
import Mathlib.Data.Nat.Log

-- The codecs that `derive(MinCodec)` generates.
namespace Mincodec

open Stream BitSource BitSink

variable {Ctx B : Type}

-- A struct or an enum: the number of fields of each variant, and their types. A struct has one
-- variant.
structure Shape where
  name     : String
  variants : Nat
  arity    : Fin variants → Nat
  field    : (i : Fin variants) → Fin (arity i) → Type

namespace Shape

structure Value (S : Shape) where
  variant : Fin S.variants
  fields  : (j : Fin (S.arity variant)) → S.field variant j

variable (S : Shape)

abbrev Reads (Ctx B : Type) : Type 1 :=
  (i : Fin S.variants) → (j : Fin (S.arity i)) → MinCodecRead Ctx B (S.field i j)

abbrev Writes (Ctx B : Type) : Type 1 :=
  (i : Fin S.variants) → (j : Fin (S.arity i)) → MinCodecWrite Ctx B (S.field i j)

-- `(len as f64).log2().ceil()`
def bits : Nat :=
  Nat.clog 2 S.variants

def bytes : Nat :=
  S.bits / 8 + 1

-- The bytes of the integer type `i_ty` of the determinant. The test for 32 bits is made where `b`
-- is less than 16.
def determinantSize : Option Nat :=
  if 8 ≤ S.bits then
    if 16 ≤ S.bits then
      some 4
    else if 32 ≤ S.bits then
      none
    else
      some 2
  else
    some 1

def firstArm : Nat :=
  if 1 < S.variants then 1 else 0

end Shape

def indexLimit (bl : Nat) : Nat :=
  if bl < 2 ^ 8 then 2 ^ 8 else if bl < 2 ^ 16 then 2 ^ 16 else 2 ^ 32

-- A type for which the macro does not panic and the generated code compiles: the arrays of the
-- determinant have the size of its integer type.
structure Shape.Compiles (S : Shape) : Prop where
  size_eq  : 1 < S.variants → S.determinantSize = some S.bytes
  arity_lt : ∀ i, S.arity i < 2 ^ 32

structure DeriveError {S : Shape} (ε : (i : Fin S.variants) → Fin (S.arity i) → Type) where
  variant : Fin S.variants
  error   : FieldError (ε variant)

instance {S : Shape} {ε : (i : Fin S.variants) → Fin (S.arity i) → Type}
    [∀ i j, DecidableEq (ε i j)] : DecidableEq (DeriveError ε)
  | ⟨i, e⟩, ⟨j, e'⟩ => decidable_of_iff (∃ h : i = j, h ▸ e = e') <| by
    constructor
    case mp =>
      rintro ⟨rfl, rfl⟩
      rfl
    case mpr =>
      rintro ⟨⟩
      exact ⟨rfl, rfl⟩

variable {S : Shape} {rs : S.Reads Ctx B} {ws : S.Writes Ctx B}

-- A determinant is `none` where `CappedFill::new(..).unwrap()` panics. A variant without fields has
-- no index, its index here stays 0.
inductive DeriveDeserialize [BitBuf B] (rs : S.Reads Ctx B)
  | determinant (d : Option (BitBuf.CappedFill B))
  | variant (i : Fin S.variants) (idx : Nat) (slots : Slots (rs i))

namespace DeriveDeserialize

variable [BitBuf B]

def new (rs : S.Reads Ctx B) (h : 0 < S.variants) : DeriveDeserialize rs :=
  if 1 < S.variants then
    .determinant (BitBuf.newCappedFill (List.replicate S.bytes 0) S.bits)
  else
    .variant ⟨0, h⟩ 0 (.new _)

def pollVariant (ctx : Ctx) (i : Fin S.variants) (idx : Nat) (slots : Slots (rs i)) (b : B) :
    Polled (DeriveDeserialize rs) B (Except (DeriveError fun i j => (rs i j).Error) S.Value) :=
  (slots.poll (indexLimit (S.arity i)) ctx idx b).andThen (fun s => .variant i s.1 s.2) (⟨i, ·⟩)
    fun _ s b =>
      match s.2.unwrap with
      | some v => ⟨.ready (.ok ⟨i, v⟩), .variant i s.1 s.2.take, b⟩
      | none   => ⟨.panicked unwrapNone, .variant i s.1 s.2.take, b⟩

-- The arms of the determinant. Its `CappedFill` has been replaced by one of 0 bits.
def pollChosen (ctx : Ctx) (determinant : Nat) (b : B) :
    Polled (DeriveDeserialize rs) B (Except (DeriveError fun i j => (rs i j).Error) S.Value) :=
  if h : determinant < S.variants then
    pollVariant ctx ⟨determinant, h⟩ 0 (.new _) b
  else
    ⟨.panicked "invalid determinant",
      .determinant (BitBuf.newCappedFill (List.replicate S.bytes 0) 0), b⟩

def pollDeserialize (ctx : Ctx) (this : DeriveDeserialize rs) (b : B) :
    Polled (DeriveDeserialize rs) B (Except (DeriveError fun i j => (rs i j).Error) S.Value) :=
  match this with
  | .determinant none     => ⟨.panicked unwrapNone, this, b⟩
  | .determinant (some d) =>
    (BitBuf.pollCappedFill d b).andThen (fun d => .determinant (some d)) Empty.elim
      fun bytes _ b =>
        pollChosen ctx (Bits.ofLe (bytes.map Bits.reverseBits)) b
  | .variant i idx slots  => pollVariant ctx i idx slots b

end DeriveDeserialize

inductive DeriveSerialize [BitBufMut B] (ws : S.Writes Ctx B)
  | variant (i : Fin S.variants) (idx : Nat) (d : Option (BitBufMut.CappedDrain B))
    (sers : Sers (ws i))
  | complete

namespace DeriveSerialize

variable [BitBufMut B]

def new (ws : S.Writes Ctx B) (v : S.Value) : DeriveSerialize ws :=
  .variant v.variant 0
    (if 1 < S.variants then
      BitBufMut.newCappedDrain ((Bits.toLe S.bytes v.variant).map Bits.reverseBits) S.bits
    else
      none)
    fun j => (ws v.variant j).serialize (v.fields j)

def pollFields (ctx : Ctx) (i : Fin S.variants) (idx : Nat) (d : Option (BitBufMut.CappedDrain B))
    (sers : Sers (ws i)) (b : B) :
    Polled (DeriveSerialize ws) B (Except (DeriveError fun i j => (ws i j).Error) Unit) :=
  (sers.poll S.firstArm (indexLimit (S.arity i)) ctx (idx - S.firstArm) b).andThen
    (fun s => .variant i s.1 d s.2) (⟨i, ·⟩) fun _ _ b => ⟨.ready (.ok ()), .complete, b⟩

def pollSerialize (ctx : Ctx) (this : DeriveSerialize ws) (b : B) :
    Polled (DeriveSerialize ws) B (Except (DeriveError fun i j => (ws i j).Error) Unit) :=
  match this with
  | .variant i idx d sers =>
    if 1 < S.variants ∧ idx = 0 then
      match d with
      | none   => ⟨.panicked unwrapNone, this, b⟩
      | some d =>
        (BitBufMut.pollCappedDrain d b).andThen (fun d => .variant i idx (some d) sers) Empty.elim
          fun _ d b => pollFields ctx i 1 (some d) sers b
    else
      pollFields ctx i idx d sers b
  | .complete => ⟨.panicked s!"derived Serialize for {S.name} polled after completion", this, b⟩

end DeriveSerialize

def deriveRead [BitBuf B] (rs : S.Reads Ctx B) (h : 0 < S.variants) :
    MinCodecRead Ctx B S.Value where
  Deserialize     := DeriveDeserialize rs
  Error           := DeriveError fun i j => (rs i j).Error
  deserialize     := .new rs h
  pollDeserialize := DeriveDeserialize.pollDeserialize

def deriveWrite [BitBufMut B] (ws : S.Writes Ctx B) : MinCodecWrite Ctx B S.Value where
  Serialize     := DeriveSerialize ws
  Error         := DeriveError fun i j => (ws i j).Error
  serialize     := .new ws
  pollSerialize := DeriveSerialize.pollSerialize

def deriveEmptyRead (S : Shape) : MinCodecRead Ctx B S.Value :=
  emptyRead S.Value

def deriveEmptyWrite (S : Shape) : MinCodecWrite Ctx B S.Value :=
  emptyWrite S.Value

end Mincodec
