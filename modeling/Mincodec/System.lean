import Mincodec.Format
import Mathlib.Logic.Relation

-- Systems of derived types that refer to each other.
namespace Mincodec

open Stream BitSource BitSink

variable {Ctx B B' : Type}

inductive Prim
  | bool
  | number (bytes : Nat)
  | char
  | usize
  | isize
  | unit
  | string

-- The types of fields, over `n` derived types. The items of a `Vec` take `size` bytes each.
inductive Ty (n : Nat)
  | prim (p : Prim)
  | option (t : Ty n)
  | result (t u : Ty n)
  | vec (size : Nat) (h : size ≤ isizeMax) (t : Ty n)
  | tuple1 (t : Fin 1 → Ty n)
  | tuple (k : Nat) (h : 2 ≤ k ∧ k ≤ 16) (ts : Fin k → Ty n)
  | box (t : Ty n)
  | derived (i : Fin n)

namespace Prim

def Carrier : Prim → Type
  | .bool         => Bool
  | .number bytes => BitVec (8 * bytes)
  | .char         => Char
  | .usize        => UInt64
  | .isize        => Int64
  | .unit         => Unit
  | .string       => Str

def read [BitBuf B] : (p : Prim) → MinCodecRead Ctx B p.Carrier
  | .bool         => boolRead
  | .number bytes => numberRead bytes
  | .char         => charRead
  | .usize        => usizeRead
  | .isize        => isizeRead
  | .unit         => unitRead ()
  | .string       => stringRead

def write [BitBufMut B] : (p : Prim) → MinCodecWrite Ctx B p.Carrier
  | .bool         => boolWrite
  | .number bytes => numberWrite bytes
  | .char         => charWrite
  | .usize        => usizeWrite
  | .isize        => isizeWrite
  | .unit         => unitWrite Unit
  | .string       => stringWrite

end Prim

namespace Ty

variable {n : Nat} {ρ : Fin n → Type}

def Carrier (ρ : Fin n → Type) : Ty n → Type
  | .prim p       => p.Carrier
  | .option t     => Option (t.Carrier ρ)
  | .result t u   => Except (u.Carrier ρ) (t.Carrier ρ)
  | .vec size _ t => Vec (t.Carrier ρ) size
  | .tuple1 t     => (i : Fin 1) → (t i).Carrier ρ
  | .tuple _ _ ts => (i : _) → (ts i).Carrier ρ
  | .box t        => t.Carrier ρ
  | .derived i    => ρ i

def read [BitBuf B] (rs : (i : Fin n) → MinCodecRead Ctx B (ρ i)) :
    (t : Ty n) → MinCodecRead Ctx B (t.Carrier ρ)
  | .prim p       => p.read
  | .option t     => Optional.optionRead (t.read rs)
  | .result t u   => resultRead (t.read rs) (u.read rs)
  | .vec size _ t => vecRead (t.read rs) size
  | .tuple1 t     => tuple1Read ((t 0).read rs)
  | .tuple _ _ ts => tupleRead fun i => (ts i).read rs
  | .box t        => boxRead (t.read rs)
  | .derived i    => rs i

def write [BitBufMut B] (ws : (i : Fin n) → MinCodecWrite Ctx B (ρ i)) :
    (t : Ty n) → MinCodecWrite Ctx B (t.Carrier ρ)
  | .prim p       => p.write
  | .option t     => Optional.optionWrite (t.write ws)
  | .result t u   => resultWrite (t.write ws) (u.write ws)
  | .vec size _ t => vecWrite (t.write ws) size
  | .tuple1 t     => tuple1Write ((t 0).write ws)
  | .tuple _ _ ts => tupleWrite fun i => (ts i).write ws
  | .box t        => boxWrite (t.write ws)
  | .derived i    => ws i

end Ty

def allSome {k : Nat} {α : Fin k → Type} (f : (i : Fin k) → Option (α i)) :
    Option ((i : Fin k) → α i) :=
  if h : ∀ i, (f i).isSome then some fun i => (f i).get (h i) else none

-- `deserialize` of a type, where the calls of `deserialize` of the derived types return `desers`, or
-- do not return. A composite deserializer makes those of its parts at once.
def Ty.deserialize {n : Nat} {ρ : Fin n → Type} [BitBuf B]
    {rs : (i : Fin n) → MinCodecRead Ctx B (ρ i)} (desers : (i : Fin n) → Option (rs i).Deserialize) :
    (t : Ty n) → Option (t.read rs).Deserialize
  | .prim p       => some (p.read : MinCodecRead Ctx B _).deserialize
  | .option t     =>
    (t.deserialize desers).map fun deser => (⟨deser, .predicate⟩ : Optional.OptionDeserialize _)
  | .result t u   =>
    (t.deserialize desers).bind fun deserT => (u.deserialize desers).map fun deserU =>
      (⟨deserU, deserT, .predicate⟩ : ResultDeserialize _ _)
  | .vec size _ t =>
    (t.deserialize desers).map fun deser => { VecDeserialize.new (t.read rs) size with deser }
  | .tuple1 t     =>
    ((t 0).deserialize desers).map fun deser =>
      let new : MapDeserialize ((t 0).read rs) ((i : Fin 1) → (t i).Carrier ρ) Empty :=
        (tuple1Read (T := fun i => (t i).Carrier ρ) ((t 0).read rs)).deserialize
      { new with deser }
  | .tuple _ _ ts =>
    (allSome fun i => (ts i).deserialize desers).map fun desers =>
      (⟨0, fun i => .deserialize (desers i)⟩ : TupleDeserialize _)
  | .box t        => t.deserialize desers
  | .derived i    => desers i

namespace Ty

variable {n : Nat}

def Contains (boxed : Bool) (i : Fin n) : Ty n → Prop
  | .prim _       => False
  | .option t     => t.Contains boxed i
  | .result t u   => t.Contains boxed i ∨ u.Contains boxed i
  | .vec _ _ t    => t.Contains boxed i
  | .tuple1 t     => (t 0).Contains boxed i
  | .tuple _ _ ts => ∃ j, (ts j).Contains boxed i
  | .box t        => boxed ∧ t.Contains boxed i
  | .derived j    => i = j

def ContainsIsize : Ty n → Prop
  | .prim p       => p = .isize
  | .option t     => t.ContainsIsize
  | .result t u   => t.ContainsIsize ∨ u.ContainsIsize
  | .vec _ _ t    => t.ContainsIsize
  | .tuple1 t     => (t 0).ContainsIsize
  | .tuple _ _ ts => ∃ j, (ts j).ContainsIsize
  | .box t        => t.ContainsIsize
  | .derived _    => False

end Ty

structure Decl (n : Nat) where
  name     : String
  variants : Nat
  arity    : Fin variants → Nat
  field    : (k : Fin variants) → Fin (arity k) → Ty n
  pos      : 0 < variants

def Decl.shape {n : Nat} (decl : Decl n) (ρ : Fin n → Type) : Shape where
  name      := decl.name
  variants  := decl.variants
  arity     := decl.arity
  field k j := (decl.field k j).Carrier ρ

abbrev Decls (n : Nat) :=
  Fin n → Decl n

namespace Decls

variable {n : Nat} (decls : Decls n)

def Carrier : Nat → Fin n → Type
  | 0, _         => Empty
  | depth + 1, i => ((decls i).shape (Carrier depth)).Value

-- The codecs for these values. What they would do with deeper values is left out.
def read [BitBuf B] : (depth : Nat) → (i : Fin n) → MinCodecRead Ctx B (decls.Carrier depth i)
  | 0, _         => emptyRead Empty
  | depth + 1, i =>
    deriveRead (S := (decls i).shape (decls.Carrier depth))
      (fun k j => ((decls i).field k j).read (read depth)) (decls i).pos

def write [BitBufMut B] : (depth : Nat) → (i : Fin n) → MinCodecWrite Ctx B (decls.Carrier depth i)
  | 0, _         => emptyWrite Empty
  | depth + 1, i =>
    deriveWrite (S := (decls i).shape (decls.Carrier depth)) fun k j =>
      ((decls i).field k j).write (write depth)

-- `deserialize` of the derived types, given up where more than `depth` calls are nested. That of a
-- type with a determinant makes no deserializers of fields.
def deserialize [BitBuf B] : (depth : Nat) → (i : Fin n) →
    Option (decls.read depth i : MinCodecRead Ctx B _).Deserialize
  | 0, _         => none
  | depth + 1, i =>
    let S := (decls i).shape (decls.Carrier depth)
    if 1 < (decls i).variants then
      some (DeriveDeserialize.determinant
        (BitBuf.newCappedFill (List.replicate S.bytes 0) S.bits) : DeriveDeserialize (S := S) _)
    else
      (allSome fun j =>
        ((decls i).field ⟨0, (decls i).pos⟩ j).deserialize (deserialize depth)).map fun desers =>
          (.variant ⟨0, (decls i).pos⟩ 0 fun j => .deserialize (desers j) :
            DeriveDeserialize (S := S) _)

def ReturnsWithin (Ctx B : Type) [BitBuf B] (depth : Nat) (i : Fin n) : Prop :=
  (decls.deserialize depth i : Option (decls.read depth i : MinCodecRead Ctx B _).Deserialize).isSome

def Terminates (Ctx B : Type) [BitBuf B] (i : Fin n) : Prop :=
  ∃ depth, decls.ReturnsWithin Ctx B depth i

def Refers (boxed : Bool) (j i : Fin n) : Prop :=
  ∃ k f, ((decls i).field k f).Contains boxed j

def Makes (j i : Fin n) : Prop :=
  (decls i).variants = 1 ∧ decls.Refers true j i

end Decls

-- A finite system of derived types. It compiles, every recursion passes through a `Box` and every type
-- has a value.
structure System (n : Nat) where
  decls     : Decls n
  compiles  : ∀ i ρ, ((decls i).shape ρ).Compiles
  boxed     : ∀ i, ¬Relation.TransGen (decls.Refers false) i i
  inhabited : ∀ i, ∃ depth, Nonempty (decls.Carrier depth i)

end Mincodec
