import Mincodec.Format

-- The sizes of values in bits.
namespace Mincodec

open Stream BitSource BitSink

variable {Ctx B B' T U : Type}

def optionSize (size : T → Nat) : Option T → Nat
  | none      => 1
  | some item => 1 + size item

def resultSize (size : T → Nat) (size' : U → Nat) : Except U T → Nat
  | .ok item     => 1 + size item
  | .error error => 1 + size' error

def listSize (size : T → Nat) (items : List T) : Nat :=
  (items.map size).sum

def vlqSize (B : Type) [BitBufMut B] (n : Nat) : Nat :=
  8 * (BitBufMut.vlq B (.ofNat n)).length

def stringSize (B : Type) [BitBufMut B] (s : Str) : Nat :=
  vlqSize B s.bytes.length + 8 * s.bytes.length

def vecSize (B : Type) [BitBufMut B] {n : Nat} (size : T → Nat) (items : Vec T n) : Nat :=
  vlqSize B items.val.length + listSize size items.val

def fieldsSize {n : Nat} {F : Fin n → Type} (sizes : (i : Fin n) → F i → Nat) (v : (i : Fin n) → F i) :
    Nat :=
  (List.ofFn fun i => sizes i (v i)).sum

def Shape.valueSize {S : Shape}
    (sizes : (i : Fin S.variants) → (j : Fin (S.arity i)) → S.field i j → Nat) (v : S.Value) : Nat :=
  Nat.clog 2 S.variants + fieldsSize (sizes v.variant) v.fields

-- The types without `isize` and without variants that have so many fields that the index overflows,
-- with the sizes of their values.
inductive Sized [BitBuf B] [BitBufMut B'] :
    {T : Type} → MinCodecRead Ctx B T → MinCodecWrite Ctx B' T → (T → Nat) → Prop
  | bool : Sized boolRead boolWrite fun _ => 1
  | number (n : Nat) : Sized (numberRead n) (numberWrite n) fun _ => 8 * n
  | char : Sized charRead charWrite fun _ => 32
  | usize : Sized usizeRead usizeWrite fun _ => 64
  | unit {T : Type} (unit : T) : (∀ x, x = unit) → Sized (unitRead unit) (unitWrite T) fun _ => 0
  | empty (T : Type) : (T → False) → Sized (emptyRead T) (emptyWrite T) fun _ => 0
  | string : Sized stringRead stringWrite (stringSize B')
  | box {T : Type} {r : MinCodecRead Ctx B T} {w : MinCodecWrite Ctx B' T} {size : T → Nat} :
    Sized r w size → Sized (boxRead r) (boxWrite w) size
  | option {T : Type} {r : MinCodecRead Ctx B T} {w : MinCodecWrite Ctx B' T} {size : T → Nat} :
    Sized r w size → Sized (Optional.optionRead r) (Optional.optionWrite w) (optionSize size)
  | result {T U : Type} {r : MinCodecRead Ctx B T} {w : MinCodecWrite Ctx B' T}
    {r' : MinCodecRead Ctx B U} {w' : MinCodecWrite Ctx B' U} {size : T → Nat} {size' : U → Nat} :
    Sized r w size → Sized r' w' size' →
    Sized (resultRead r r') (resultWrite w w') (resultSize size size')
  | vec {T : Type} {r : MinCodecRead Ctx B T} {w : MinCodecWrite Ctx B' T} {size : T → Nat}
    (n : Nat) : Sized r w size → Sized (vecRead r n) (vecWrite w n) (vecSize B' size)
  | array {T : Type} {r : MinCodecRead Ctx B T} {w : MinCodecWrite Ctx B' T} {size : T → Nat}
    {n : Nat} : 0 < n → Sized r w size →
    Sized (arrayRead r n) (arrayWrite w n) fun items => listSize size items.toList
  | tuple1 {T : Fin 1 → Type} {r : MinCodecRead Ctx B (T 0)} {w : MinCodecWrite Ctx B' (T 0)}
    {size : T 0 → Nat} : Sized r w size → Sized (tuple1Read r) (tuple1Write w) fun v => size (v 0)
  | tuple {n : Nat} {T : Fin n → Type} {rs : (i : Fin n) → MinCodecRead Ctx B (T i)}
    {ws : (i : Fin n) → MinCodecWrite Ctx B' (T i)} {sizes : (i : Fin n) → T i → Nat} : 2 ≤ n →
    n ≤ 16 → (∀ i, Sized (rs i) (ws i) (sizes i)) →
    Sized (tupleRead rs) (tupleWrite ws) (fieldsSize sizes)
  | derive {S : Shape} {rs : S.Reads Ctx B} {ws : S.Writes Ctx B'}
    {sizes : (i : Fin S.variants) → (j : Fin (S.arity i)) → S.field i j → Nat}
    (h : 0 < S.variants) : S.Compiles → (∀ i, S.arity i < 255) →
    (∀ i j, Sized (rs i j) (ws i j) (sizes i j)) →
    Sized (deriveRead rs h) (deriveWrite ws) (S.valueSize sizes)
  | deriveEmpty {S : Shape} : S.variants = 0 →
    Sized (deriveEmptyRead S) (deriveEmptyWrite S) fun _ => 0

def Scope.plain : Scope Ctx B B' where
  leaf _ _ := False
  map _ _  := False
  isize    := False
  lists    := True
  arity k  := k < 255

theorem Format.exists_sized [BitBuf B] [BitBufMut B'] {r : MinCodecRead Ctx B T}
    {w : MinCodecWrite Ctx B' T} (h : Format (.plain : Scope Ctx B B') r w) :
    ∃ size, Sized r w size := by
  induction h
  case leaf h              => exact h.elim
  case map h _ _           => exact h.elim
  case bool                => exact ⟨_, .bool⟩
  case number n            => exact ⟨_, .number n⟩
  case char                => exact ⟨_, .char⟩
  case usize               => exact ⟨_, .usize⟩
  case isize h             => exact h.elim
  case unit u h            => exact ⟨_, .unit u h⟩
  case empty h             => exact ⟨_, .empty _ h⟩
  case string              => exact ⟨_, .string⟩
  case box hi              => exact ⟨_, hi.choose_spec.box⟩
  case option hi           => exact ⟨_, hi.choose_spec.option⟩
  case result hi hi'       => exact ⟨_, hi.choose_spec.result hi'.choose_spec⟩
  case vec size _ _ hi     => exact ⟨_, hi.choose_spec.vec size⟩
  case array hn _ hi       => exact ⟨_, hi.choose_spec.array hn⟩
  case tuple1 hi           => exact ⟨_, hi.choose_spec.tuple1⟩
  case tuple h₂ h₁₆ _ hi   => exact ⟨_, .tuple h₂ h₁₆ fun i => (hi i).choose_spec⟩
  case derive h₀ hc h _ hi => exact ⟨_, .derive h₀ hc h fun i j => (hi i j).choose_spec⟩
  case deriveEmpty h       => exact ⟨_, .deriveEmpty h⟩

end Mincodec
