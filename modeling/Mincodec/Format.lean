import Mincodec.Option
import Mincodec.Result
import Mincodec.Tuple
import Mincodec.Theorems.Allocated
import Mincodec.Theorems.Derive

-- The types of the format, arbitrarily nested.
namespace Mincodec

open Stream BitSource BitSink

variable {Ctx B B' : Type}

-- What a type may be built from, besides the codecs that are always there: user codecs at the
-- leaves, conversions of mapped codecs, `isize`, `Vec` and arrays that are not empty, and variants
-- with a number of fields.
structure Scope (Ctx B B' : Type) where
  leaf  : {T : Type} → MinCodecRead Ctx B T → MinCodecWrite Ctx B' T → Prop
  map   : {T U E E' : Type} → (T → Except E U) → (U → Except E' T) → Prop
  isize : Prop
  lists : Prop
  arity : Nat → Prop

def Scope.closed : Scope Ctx B B' where
  leaf _ _ := False
  map _ _  := True
  isize    := True
  lists    := True
  arity _  := True

inductive Format [BitBuf B] [BitBufMut B'] (scope : Scope Ctx B B') :
    {T : Type} → MinCodecRead Ctx B T → MinCodecWrite Ctx B' T → Prop
  | leaf {T : Type} {r : MinCodecRead Ctx B T} {w : MinCodecWrite Ctx B' T} :
    scope.leaf r w → Format scope r w
  | map {T U E E' : Type} {f : T → Except E U} {g : U → Except E' T} {r : MinCodecRead Ctx B T}
    {w : MinCodecWrite Ctx B' T} : scope.map f g → Format scope r w →
    Format scope (mapRead r f) (mapWrite w g)
  | bool : Format scope boolRead boolWrite
  | number (n : Nat) : Format scope (numberRead n) (numberWrite n)
  | char : Format scope charRead charWrite
  | usize : Format scope usizeRead usizeWrite
  | isize : scope.isize → Format scope isizeRead isizeWrite
  | unit {T : Type} (unit : T) : (∀ x, x = unit) → Format scope (unitRead unit) (unitWrite T)
  | empty (T : Type) : (T → False) → Format scope (emptyRead T) (emptyWrite T)
  | string : Format scope stringRead stringWrite
  | box {T : Type} {r : MinCodecRead Ctx B T} {w : MinCodecWrite Ctx B' T} :
    Format scope r w → Format scope (boxRead r) (boxWrite w)
  | option {T : Type} {r : MinCodecRead Ctx B T} {w : MinCodecWrite Ctx B' T} :
    Format scope r w → Format scope (Optional.optionRead r) (Optional.optionWrite w)
  | result {T U : Type} {r : MinCodecRead Ctx B T} {w : MinCodecWrite Ctx B' T}
    {r' : MinCodecRead Ctx B U} {w' : MinCodecWrite Ctx B' U} : Format scope r w →
    Format scope r' w' → Format scope (resultRead r r') (resultWrite w w')
  | vec {T : Type} {r : MinCodecRead Ctx B T} {w : MinCodecWrite Ctx B' T} (size : Nat) :
    scope.lists → Format scope r w → Format scope (vecRead r size) (vecWrite w size)
  | array {T : Type} {r : MinCodecRead Ctx B T} {w : MinCodecWrite Ctx B' T} {n : Nat} :
    scope.lists → 0 < n → Format scope r w → Format scope (arrayRead r n) (arrayWrite w n)
  | tuple1 {T : Fin 1 → Type} {r : MinCodecRead Ctx B (T 0)} {w : MinCodecWrite Ctx B' (T 0)} :
    Format scope r w → Format scope (tuple1Read r) (tuple1Write w)
  | tuple {n : Nat} {T : Fin n → Type} {rs : (i : Fin n) → MinCodecRead Ctx B (T i)}
    {ws : (i : Fin n) → MinCodecWrite Ctx B' (T i)} : 2 ≤ n → n ≤ 16 →
    (∀ i, Format scope (rs i) (ws i)) → Format scope (tupleRead rs) (tupleWrite ws)
  | derive {S : Shape} {rs : S.Reads Ctx B} {ws : S.Writes Ctx B'} (h : 0 < S.variants) :
    S.Compiles → (∀ i, scope.arity (S.arity i)) → (∀ i j, Format scope (rs i j) (ws i j)) →
    Format scope (deriveRead rs h) (deriveWrite ws)
  | deriveEmpty {S : Shape} : S.variants = 0 →
    Format scope (deriveEmptyRead S) (deriveEmptyWrite S)

variable [BitBuf B] [LawfulBitBuf B] [BitBufMut B'] [LawfulBitBufMut B'] {scope : Scope Ctx B B'}
variable {T : Type} {r : MinCodecRead Ctx B T} {w : MinCodecWrite Ctx B' T}

omit [LawfulBitBufMut B'] in
theorem Format.decodes {Wait : Prop} (h : Format scope r w)
    (hl : ∀ {T} {r : MinCodecRead Ctx B T} {w : MinCodecWrite Ctx B' T}, scope.leaf r w →
      ∃ p, r.Decodes Wait p) : ∃ p, r.Decodes Wait p := by
  induction h
  case leaf h              => exact hl h
  case map hi              => exact ⟨_, mapRead_decodes hi.choose_spec _⟩
  case bool                => exact ⟨_, boolRead_decodes⟩
  case number n            => exact ⟨_, numberRead_decodes n⟩
  case char                => exact ⟨_, mapRead_decodes (numberRead_decodes 4) _⟩
  case usize               => exact ⟨_, mapRead_decodes (numberRead_decodes 8) _⟩
  case isize               => exact ⟨_, mapRead_decodes (numberRead_decodes 8) _⟩
  case unit                => exact ⟨_, unitRead_decodes _⟩
  case empty               => exact ⟨_, emptyRead_decodes _⟩
  case string              => exact ⟨_, stringRead_decodes⟩
  case box hi              => exact ⟨_, boxRead_decodes hi.choose_spec⟩
  case option hi           => exact ⟨_, Optional.optionRead_decodes hi.choose_spec⟩
  case result hi hi'       => exact ⟨_, resultRead_decodes hi.choose_spec hi'.choose_spec⟩
  case vec size _ _ hi     => exact ⟨_, vecRead_decodes hi.choose_spec size⟩
  case array hn _ hi       => exact ⟨_, arrayRead_decodes hi.choose_spec hn⟩
  case tuple1 hi           => exact ⟨_, mapRead_decodes hi.choose_spec _⟩
  case tuple hn _ hi       => exact ⟨_, tupleRead_decodes (fun i => (hi i).choose_spec) (by omega)⟩
  case derive h hc _ _ hi  => exact ⟨_, deriveRead_decodes hc (fun i j => (hi i j).choose_spec) h⟩
  case deriveEmpty         => exact ⟨_, emptyRead_decodes _⟩

omit [LawfulBitBuf B] in
theorem Format.encodes (h : Format scope r w) (hs : ¬scope.lists)
    (ha : ∀ k, scope.arity k → k < 255)
    (hl : ∀ {T} {r : MinCodecRead Ctx B T} {w : MinCodecWrite Ctx B' T}, scope.leaf r w →
      ∃ enc, w.Encodes enc) : ∃ enc, w.Encodes enc := by
  induction h
  case leaf h          => exact hl h
  case map hi          => exact ⟨_, mapWrite_encodes hi.choose_spec _⟩
  case bool            => exact ⟨_, boolWrite_encodes⟩
  case number n        => exact ⟨_, numberWrite_encodes n⟩
  case char            => exact ⟨_, mapWrite_encodes (numberWrite_encodes 4) _⟩
  case usize           => exact ⟨_, mapWrite_encodes (numberWrite_encodes 8) _⟩
  case isize           => exact ⟨_, mapWrite_encodes (numberWrite_encodes 8) _⟩
  case unit            => exact ⟨_, unitWrite_encodes _⟩
  case empty           => exact ⟨_, emptyWrite_encodes _⟩
  case string          => exact ⟨_, stringWrite_encodes⟩
  case box hi          => exact ⟨_, boxWrite_encodes hi.choose_spec⟩
  case option hi       => exact ⟨_, Optional.optionWrite_encodes hi.choose_spec⟩
  case result hi hi'   => exact ⟨_, resultWrite_encodes hi.choose_spec hi'.choose_spec⟩
  case vec h _ _       => exact absurd h hs
  case array h _ _ _   => exact absurd h hs
  case tuple1 hi       => exact ⟨_, mapWrite_encodes hi.choose_spec _⟩
  case tuple hn _ hi   => exact ⟨_, tupleWrite_encodes (fun i => (hi i).choose_spec) (by omega)⟩
  case derive h _ hi   =>
    exact ⟨_, deriveWrite_encodes (fun i => firstArm_add_lt_indexLimit (ha _ (h i)))
      fun i j => (hi i j).choose_spec⟩
  case deriveEmpty     => exact ⟨_, emptyWrite_encodes _⟩

def RoundTrips (r : MinCodecRead Ctx B T) (w : MinCodecWrite Ctx B' T) : Prop :=
  ∃ p enc, r.Decodes False p ∧ w.EncodesOnce enc ∧ ∀ v, p.Halts (enc v) (.finished (.ok v))

def ReadsBack (r : MinCodecRead Ctx B T) (w : MinCodecWrite Ctx B' T) (enc : T → List Bool) :
    Prop :=
  ∃ p, r.Decodes False p ∧ w.EncodesOnce enc ∧ ∀ v, p.Halts (enc v) (.finished (.ok v))

namespace ReadsBack

variable {enc : T → List Bool}

theorem roundTrips (h : ReadsBack r w enc) : RoundTrips r w :=
  have ⟨p, h⟩ := h
  ⟨p, enc, h⟩

theorem map {U E E' : Type} {f : T → Except E U} {g : U → Except E' T} {t : U → T}
    (h : ReadsBack r w enc) (hg : ∀ u, g u = .ok (t u)) (hf : ∀ u, f (t u) = .ok u) :
    ReadsBack (mapRead r f) (mapWrite w g) (enc ∘ t) := by
  have ⟨p, hr, hw, hp⟩ := h
  refine ⟨_, mapRead_decodes hr f, mapWrite_encodesOnce hw hg, fun u => ?_⟩
  rw [← List.append_nil ((enc ∘ t) u)]
  apply (hp (t u)).mapErr.bind
  rw [hf u]
  exact Parser.pure_halts u

theorem bool :
    ReadsBack (boolRead : MinCodecRead Ctx B _) (boolWrite : MinCodecWrite Ctx B' _) fun x => [x] :=
  ⟨_, boolRead_decodes, boolWrite_encodesOnce, Parser.bit_halts⟩

theorem number (n : Nat) :
    ReadsBack (numberRead n : MinCodecRead Ctx B _) (numberWrite n : MinCodecWrite Ctx B' _)
      numberBits :=
  ⟨_, numberRead_decodes n, numberWrite_encodesOnce n, numberParser_halts⟩

theorem char :
    ReadsBack (charRead : MinCodecRead Ctx B _) (charWrite : MinCodecWrite Ctx B' _)
      (numberBits ∘ charAs) :=
  (number 4).map (fun _ => rfl) charTryFrom_charAs

theorem usize :
    ReadsBack (usizeRead : MinCodecRead Ctx B _) (usizeWrite : MinCodecWrite Ctx B' _)
      (numberBits ∘ usizeAs) :=
  (number 8).map (fun _ => rfl) usizeTryFrom_usizeAs

theorem unit (u : T) (h : ∀ x, x = u) :
    ReadsBack (unitRead u : MinCodecRead Ctx B T) (unitWrite T : MinCodecWrite Ctx B' T)
      fun _ => [] :=
  ⟨_, unitRead_decodes u, unitWrite_encodesOnce _, fun v => h v ▸ Parser.pure_halts _⟩

theorem empty (h : T → False) :
    ReadsBack (emptyRead T : MinCodecRead Ctx B T) (emptyWrite T : MinCodecWrite Ctx B' T)
      fun _ => [] :=
  ⟨_, emptyRead_decodes _, fun v => (h v).elim, fun v => (h v).elim⟩

theorem string [LawfulVlq B B'] :
    ReadsBack (stringRead : MinCodecRead Ctx B _) (stringWrite : MinCodecWrite Ctx B' _)
      (stringBits B') :=
  ⟨_, stringRead_decodes, stringWrite_encodesOnce, stringParser_halts⟩

theorem box (h : ReadsBack r w enc) : ReadsBack (boxRead r) (boxWrite w) enc :=
  have ⟨_, hr, hw, hp⟩ := h
  ⟨_, boxRead_decodes hr, boxWrite_encodesOnce hw, hp⟩

theorem option (h : ReadsBack r w enc) :
    ReadsBack (Optional.optionRead r) (Optional.optionWrite w) (Optional.optionBits enc) :=
  have ⟨_, hr, hw, hp⟩ := h
  ⟨_, Optional.optionRead_decodes hr, Optional.optionWrite_encodesOnce hw,
    Optional.optionParser_halts hp⟩

theorem result {U : Type} {r' : MinCodecRead Ctx B U} {w' : MinCodecWrite Ctx B' U}
    {enc' : U → List Bool} (h : ReadsBack r w enc) (h' : ReadsBack r' w' enc') :
    ReadsBack (resultRead r r') (resultWrite w w') (resultBits enc enc') :=
  have ⟨_, hr, hw, hp⟩ := h
  have ⟨_, hr', hw', hp'⟩ := h'
  ⟨_, resultRead_decodes hr hr', resultWrite_encodesOnce hw hw', resultParser_halts hp hp'⟩

theorem vec [LawfulVlq B B'] (h : ReadsBack r w enc) (size : Nat) :
    ReadsBack (vecRead r size) (vecWrite w size) (vecBits B' enc) :=
  have ⟨_, hr, hw, hp⟩ := h
  ⟨_, vecRead_decodes hr size, vecWrite_encodesOnce hw size, vecParser_halts hp⟩

theorem array (h : ReadsBack r w enc) {n : Nat} (hn : 0 < n) :
    ReadsBack (arrayRead r n) (arrayWrite w n) (arrayBits enc) :=
  have ⟨_, hr, hw, hp⟩ := h
  ⟨_, arrayRead_decodes hr hn, arrayWrite_encodesOnce hw _, arrayParser_halts hp⟩

theorem tuple1 {T : Fin 1 → Type} {r : MinCodecRead Ctx B (T 0)} {w : MinCodecWrite Ctx B' (T 0)}
    {enc : T 0 → List Bool} (h : ReadsBack r w enc) :
    ReadsBack (tuple1Read r) (tuple1Write w) fun v => enc (v 0) := by
  refine h.map (fun _ => rfl) fun v => ?_
  congr 1
  funext i
  exact Fin.cases rfl (fun i => i.elim0) i

theorem tuple {n : Nat} {T : Fin n → Type} {rs : (i : Fin n) → MinCodecRead Ctx B (T i)}
    {ws : (i : Fin n) → MinCodecWrite Ctx B' (T i)} {encs : (i : Fin n) → T i → List Bool}
    (h : ∀ i, ReadsBack (rs i) (ws i) (encs i)) (hn : n ≤ 16) :
    ReadsBack (tupleRead rs) (tupleWrite ws) (fieldsBits encs) := by
  choose p hr hw hp using h
  exact ⟨_, tupleRead_decodes hr (by omega), tupleWrite_encodesOnce hw (by omega),
    fieldsParser_halts hp⟩

theorem derive {S : Shape} {rs : S.Reads Ctx B} {ws : S.Writes Ctx B'}
    {encs : (i : Fin S.variants) → (j : Fin (S.arity i)) → S.field i j → List Bool}
    (h : ∀ i j, ReadsBack (rs i j) (ws i j) (encs i j)) (h₀ : 0 < S.variants) (hc : S.Compiles)
    (ha : ∀ i, S.arity i < 255) :
    ReadsBack (deriveRead rs h₀) (deriveWrite ws) (S.valueBits encs) := by
  choose p hr hw hp using h
  exact ⟨_, deriveRead_decodes hc hr h₀,
    deriveWrite_encodesOnce (fun i => firstArm_add_lt_indexLimit (ha i)) hw,
    fun v => Shape.parser_halts hp v h₀⟩

theorem deriveEmpty {S : Shape} (h : S.variants = 0) :
    ReadsBack (deriveEmptyRead S : MinCodecRead Ctx B _) (deriveEmptyWrite S : MinCodecWrite Ctx B' _)
      fun _ => [] :=
  empty fun v => by have := v.variant.isLt; omega

end ReadsBack

theorem Format.roundTrips [LawfulVlq B B'] (h : Format scope r w) (hs : ¬scope.isize)
    (ha : ∀ k, scope.arity k → k < 255)
    (hl : ∀ {T} {r : MinCodecRead Ctx B T} {w : MinCodecWrite Ctx B' T}, scope.leaf r w →
      RoundTrips r w)
    (hm : ∀ {T U E E'} {f : T → Except E U} {g : U → Except E' T}, scope.map f g →
      ∀ u, ∃ t, g u = .ok t ∧ f t = .ok u) : RoundTrips r w := by
  suffices ∃ enc, ReadsBack r w enc from this.choose_spec.roundTrips
  induction h
  case leaf h          =>
    have ⟨p, enc, h⟩ := hl h
    exact ⟨enc, p, h⟩
  case map h _ hi      =>
    choose t hg hf using hm h
    exact ⟨_, hi.choose_spec.map hg hf⟩
  case bool            => exact ⟨_, .bool⟩
  case number n        => exact ⟨_, .number n⟩
  case char            => exact ⟨_, .char⟩
  case usize           => exact ⟨_, .usize⟩
  case isize h         => exact absurd h hs
  case unit u h        => exact ⟨_, .unit u h⟩
  case empty h         => exact ⟨_, .empty h⟩
  case string          => exact ⟨_, .string⟩
  case box hi          => exact ⟨_, hi.choose_spec.box⟩
  case option hi       => exact ⟨_, hi.choose_spec.option⟩
  case result hi hi'   => exact ⟨_, hi.choose_spec.result hi'.choose_spec⟩
  case vec size _ _ hi => exact ⟨_, hi.choose_spec.vec size⟩
  case array hn _ hi   => exact ⟨_, hi.choose_spec.array hn⟩
  case tuple1 hi       => exact ⟨_, hi.choose_spec.tuple1⟩
  case tuple hn _ hi   => exact ⟨_, .tuple (fun i => (hi i).choose_spec) hn⟩
  case derive h₀ hc h _ hi =>
    exact ⟨_, .derive (fun i j => (hi i j).choose_spec) h₀ hc fun i => ha _ (h i)⟩
  case deriveEmpty h   => exact ⟨_, .deriveEmpty h⟩

end Mincodec
