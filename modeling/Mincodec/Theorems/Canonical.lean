import Mincodec.Format
import Mincodec.Slice

-- A value is decoded from no bits but those that it is written as.
namespace Mincodec

open Stream BitSource BitSink

variable {Ctx B B' T U : Type}

section
variable {ε ε' : Type} {n : Nat} {bs rest : List Bool} {xs : List UInt8}

theorem fillParser_accepts (h : (fillParser (List.replicate n 0) (8 * n)).Accepts bs xs rest) :
    bs = Bits.ofBytes xs ++ rest ∧ xs.length = n := by
  obtain ⟨w, hw, rfl⟩ := Parser.accepts_map.mp h
  obtain ⟨hl, rfl⟩ := Parser.accepts_take.mp hw
  rw [List.drop_of_length_le (by simp), List.append_nil, Bits.length_toBytes, hl,
    Bits.ofBytes_toBytes w (hl ▸ Nat.dvd_mul_right ..)]
  exact ⟨rfl, by omega⟩

theorem toBeBytes_fromBeBytes (h : xs.length = n) : toBeBytes (fromBeBytes n xs) = xs := by
  subst h
  have hl := Bits.ofBe_lt xs
  unfold fromBeBytes toBeBytes
  rw [BitVec.toNat_ofNat, Nat.pow_mul, Nat.mod_eq_of_lt hl, Bits.toBe_ofBe]

theorem numberParser_isCanonical (n : Nat) : (numberParser n).IsCanonical numberBits := by
  intro bs x rest h
  obtain ⟨xs, hx, rfl⟩ := Parser.accepts_map.mp h
  obtain ⟨rfl, hl⟩ := fillParser_accepts hx
  rw [numberBits, toBeBytes_fromBeBytes hl]

theorem charAs_charTryFrom {x : BitVec (8 * 4)} {c : Char} (h : charTryFrom x = .ok c) :
    charAs c = x := by
  unfold charTryFrom at h
  split at h
  case isFalse   => cases h
  case isTrue hv =>
    cases h
    have hc : (Char.ofNat x.toNat).toNat = x.toNat := by
      unfold Char.ofNat
      rw [dif_pos hv]
      rfl
    unfold charAs
    rw [hc, BitVec.ofNat_toNat, BitVec.setWidth_eq]

theorem usizeAs_usizeTryFrom {x : BitVec (8 * 8)} {u : UInt64} (h : usizeTryFrom x = .ok u) :
    usizeAs u = x := by
  cases h
  rfl

theorem isizeAs_isizeTryFrom {x : BitVec (8 * 8)} {i : Int64} (h : isizeTryFrom x = .ok i) :
    isizeAs i = x := by
  unfold isizeTryFrom at h
  split at h
  case isFalse => cases h
  case isTrue  =>
    cases h
    rfl

variable {p : Parser ε T} {p' : Parser ε' U} {enc : T → List Bool} {enc' : U → List Bool}

theorem optionParser_isCanonical (h : p.IsCanonical enc) :
    (Optional.optionParser p).IsCanonical (Optional.optionBits enc) := by
  intro bs v rest ha
  obtain ⟨isSome, mid, hb, hv⟩ := Parser.accepts_bind.mp ha
  obtain rfl := Parser.accepts_bit.mp hb
  cases isSome
  case false =>
    obtain ⟨rfl, rfl⟩ := Parser.accepts_pure.mp hv
    rfl
  case true =>
    obtain ⟨item, hi, rfl⟩ := Parser.accepts_map.mp hv
    rw [h _ _ _ hi]
    rfl

theorem resultParser_isCanonical (h : p.IsCanonical enc) (h' : p'.IsCanonical enc') :
    (resultParser p p').IsCanonical (resultBits enc enc') := by
  intro bs v rest ha
  obtain ⟨isT, mid, hb, hv⟩ := Parser.accepts_bind.mp ha
  obtain rfl := Parser.accepts_bit.mp hb
  cases isT
  case false =>
    obtain ⟨error, he, rfl⟩ := Parser.accepts_map.mp hv
    rw [h'.mapErr _ _ _ _ he]
    rfl
  case true =>
    obtain ⟨item, hi, rfl⟩ := Parser.accepts_map.mp hv
    rw [h.mapErr _ _ _ _ hi]
    rfl

end

theorem Str.bytes_fromUtf8 {xs : List UInt8} {s : Str} (h : Str.fromUtf8 xs = .ok s) :
    s.bytes = xs := by
  unfold fromUtf8 at h
  split at h
  case isFalse => cases h
  case isTrue  =>
    cases h
    rfl

theorem bytesParser_accepts {len : Nat} {bs rest : List Bool} {s : Str}
    (h : (bytesParser len).Accepts bs s rest) :
    bs = Bits.ofBytes s.bytes ++ rest ∧ s.bytes.length = len := by
  obtain ⟨xs, mid, hx, hs⟩ := Parser.accepts_bind.mp h
  obtain ⟨hf, rfl⟩ := Parser.accepts_lift_mapError.mp hs
  obtain ⟨rfl, hl⟩ := fillParser_accepts (Parser.accepts_mapErr.mp hx)
  rw [Str.bytes_fromUtf8 hf]
  exact ⟨rfl, hl⟩

section
variable [BitBuf B] [LawfulBitBuf B] [BitBufMut B'] [CanonicalVlq B B']

variable (B') in
theorem vlq_accepts {len : UInt64} {bs rest : List Bool}
    (h : ((LawfulBitBuf.vlqParser B).mapErr (Empty.elim : Empty → U)).Accepts bs len rest) {n : Nat}
    (hn : n = len.toNat) : bs = Bits.ofBytes (BitBufMut.vlq B' (.ofNat n)) ++ rest := by
  rw [hn, UInt64.ofNat_toNat]
  have hc : (LawfulBitBuf.vlqParser B).IsCanonical fun n => Bits.ofBytes (BitBufMut.vlq B' n) :=
    CanonicalVlq.vlq_isCanonical
  exact hc.mapErr _ _ _ _ h

theorem stringParser_isCanonical :
    (stringParser (LawfulBitBuf.vlqParser B)).IsCanonical (stringBits B') := by
  intro bs s rest h
  obtain ⟨len, mid, hv, hs⟩ := Parser.accepts_bind.mp h
  split at hs
  case isFalse => cases hs
  case isTrue  =>
    obtain ⟨rfl, hl⟩ := bytesParser_accepts hs
    rw [vlq_accepts B' hv hl, stringBits, Bits.ofBytes_append, List.append_assoc]

theorem vecParser_isCanonical {ε : Type} {p : Parser ε T} {enc : T → List Bool}
    (h : p.IsCanonical enc) (size : Nat) :
    (vecParser (LawfulBitBuf.vlqParser B) p size).IsCanonical (vecBits B' enc) := by
  intro bs items rest ha
  obtain ⟨len, mid, hv, hs⟩ := Parser.accepts_bind.mp ha
  unfold vecItemsParser at hs
  split at hs
  case isFalse => cases hs
  case isTrue  =>
    obtain ⟨⟨as, hl⟩, hi, rfl⟩ := Parser.accepts_map.mp hs
    rw [vlq_accepts B' hv hl, (h.mapErr _).replicate _ _ _ _ hi, vecBits, List.append_assoc]
    rfl

end

section
variable {n : Nat} {F ε : Fin n → Type}
variable {ps : (i : Fin n) → Parser (ε i) (F i)} {encs : (i : Fin n) → F i → List Bool}

theorem fieldsParserFrom_accepts (h : ∀ i, (ps i).IsCanonical (encs i)) {k : Nat}
    {vs : (i : Fin n) → i.val < k → F i} {bs rest : List Bool} {v : (i : Fin n) → F i}
    (ha : (fieldsParserFrom ps k vs).Accepts bs v rest) :
    bs = fieldsBitsFrom encs v k ++ rest ∧ ∀ i hi, v i = vs i hi := by
  fun_induction fieldsBitsFrom encs v k generalizing bs
  case case2 k hk =>
    unfold fieldsParserFrom at ha
    rw [dif_neg hk] at ha
    obtain ⟨rfl, rfl⟩ := Parser.accepts_pure.mp ha
    exact ⟨rfl, fun _ _ => rfl⟩
  case case1 k hk hi =>
    unfold fieldsParserFrom at ha
    rw [dif_pos hk] at ha
    obtain ⟨x, mid, hx, ha⟩ := Parser.accepts_bind.mp ha
    obtain ⟨rfl, hv⟩ := hi ha
    have hk' : v ⟨k, hk⟩ = x := by rw [hv _ k.lt_succ_self, snoc_self]
    constructor
    case left  => rw [(h _).mapErr _ _ _ _ hx, hk', List.append_assoc]
    case right =>
      intro i hi
      rw [hv i (by omega), snoc_lt hk vs x hi]

theorem fieldsParser_isCanonical (h : ∀ i, (ps i).IsCanonical (encs i)) :
    (fieldsParser ps).IsCanonical (fieldsBits encs) :=
  fun _ _ _ ha => (fieldsParserFrom_accepts h ha).1

end

namespace Shape

variable {S : Shape} {ε : (i : Fin S.variants) → Fin (S.arity i) → Type}
variable {ps : (i : Fin S.variants) → (j : Fin (S.arity i)) → Parser (ε i j) (S.field i j)}
variable {encs : (i : Fin S.variants) → (j : Fin (S.arity i)) → S.field i j → List Bool}

theorem variantParser_accepts (h : ∀ i j, (ps i j).IsCanonical (encs i j)) {i : Fin S.variants}
    {bs rest : List Bool} {v : S.Value} (ha : (variantParser ps i).Accepts bs v rest) :
    v.variant = i ∧ bs = fieldsBits (encs v.variant) v.fields ++ rest := by
  obtain ⟨fields, hf, rfl⟩ := Parser.accepts_map.mp ha
  exact ⟨rfl, (fieldsParser_isCanonical (h i)).mapErr _ _ _ _ hf⟩

theorem parser_isCanonical (h : ∀ i j, (ps i j).IsCanonical (encs i j)) (h₀ : 0 < S.variants) :
    (parser ps h₀).IsCanonical (valueBits encs) := by
  intro bs v rest ha
  unfold parser at ha
  unfold valueBits determinantBits
  split at ha
  case isFalse h₁ =>
    rw [if_neg h₁]
    exact (variantParser_accepts h ha).2
  case isTrue h₁ =>
    obtain ⟨w, mid, hw, hv⟩ := Parser.accepts_bind.mp ha
    obtain ⟨hl, rfl⟩ := Parser.accepts_take.mp hw
    unfold chosenParser at hv
    split at hv
    case isFalse => cases hv
    case isTrue  =>
      have ⟨hi, hf⟩ := variantParser_accepts h hv
      have hd : Bits.lsb S.bits v.variant = w := by rw [hi, ← hl, Bits.lsb_ofLsb]
      rw [if_pos h₁, hf, hd, List.append_assoc]

end Shape

variable {Wait : Prop} {r : MinCodecRead Ctx B T} {w : MinCodecWrite Ctx B' T}

-- The deserializer accepts a value from no bits but those that a single poll of the serializer
-- writes.
def Canonical [BitSource B] [BitSink B'] (r : MinCodecRead Ctx B T) (w : MinCodecWrite Ctx B' T) :
    Prop :=
  ∃ p enc, r.Decodes False p ∧ w.EncodesOnce enc ∧ p.IsCanonical enc

theorem Canonical.map [BitSource B] [BitSink B'] {E E' : Type} {f : T → Except E U}
    {g : U → Except E' T} (h : Canonical r w) (hg : ∀ u, ∃ t, g u = .ok t)
    (hf : ∀ t u, f t = .ok u → g u = .ok t) : Canonical (mapRead r f) (mapWrite w g) := by
  have ⟨p, enc, hr, hw, hp⟩ := h
  choose t ht using hg
  refine ⟨_, _, mapRead_decodes hr f, mapWrite_encodesOnce hw ht, ?_⟩
  intro bs u rest ha
  obtain ⟨x, mid, hx, hu⟩ := Parser.accepts_bind.mp ha
  obtain ⟨hfx, rfl⟩ := Parser.accepts_lift_mapError.mp hu
  have ht : t u = x := Except.ok.inj ((ht u).symm.trans (hf _ _ hfx))
  rw [hp.mapErr _ _ _ _ hx, Function.comp_apply, ht]

variable [BitBuf B] [LawfulBitBuf B] [BitBufMut B'] [LawfulBitBufMut B'] {scope : Scope Ctx B B'}

theorem Canonical.number (n : Nat) :
    Canonical (numberRead n : MinCodecRead Ctx B _) (numberWrite n : MinCodecWrite Ctx B' _) :=
  ⟨_, _, numberRead_decodes n, numberWrite_encodesOnce n, numberParser_isCanonical n⟩

theorem Format.canonical [CanonicalVlq B B'] (h : Format scope r w)
    (ha : ∀ k, scope.arity k → k < 255)
    (hl : ∀ {T} {r : MinCodecRead Ctx B T} {w : MinCodecWrite Ctx B' T}, scope.leaf r w →
      Canonical r w)
    (hm : ∀ {T U E E'} {f : T → Except E U} {g : U → Except E' T}, scope.map f g →
      (∀ u, ∃ t, g u = .ok t) ∧ ∀ t u, f t = .ok u → g u = .ok t) : Canonical r w := by
  induction h
  case leaf h        => exact hl h
  case map h _ hi    => exact hi.map (hm h).1 (hm h).2
  case bool          =>
    exact ⟨_, _, boolRead_decodes, boolWrite_encodesOnce, fun _ _ _ => Parser.accepts_bit.mp⟩
  case number n      => exact .number n
  case char          =>
    exact (Canonical.number 4).map (fun c => ⟨_, rfl⟩) fun _ _ h => by rw [charAs_charTryFrom h]
  case usize         =>
    exact (Canonical.number 8).map (fun c => ⟨_, rfl⟩) fun _ _ h => by rw [usizeAs_usizeTryFrom h]
  case isize         =>
    exact (Canonical.number 8).map (fun c => ⟨_, rfl⟩) fun _ _ h => by rw [isizeAs_isizeTryFrom h]
  case unit u _      =>
    exact ⟨_, _, unitRead_decodes u, unitWrite_encodesOnce _, fun _ _ _ h =>
      (Parser.accepts_pure.mp h).2⟩
  case empty h       =>
    exact ⟨_, fun _ => [], emptyRead_decodes _, fun v => (h v).elim, fun _ v => (h v).elim⟩
  case string        =>
    exact ⟨_, _, stringRead_decodes, stringWrite_encodesOnce, stringParser_isCanonical⟩
  case box hi        =>
    have ⟨_, _, hr, hw, hp⟩ := hi
    exact ⟨_, _, boxRead_decodes hr, boxWrite_encodesOnce hw, hp⟩
  case option hi     =>
    have ⟨_, _, hr, hw, hp⟩ := hi
    exact ⟨_, _, Optional.optionRead_decodes hr, Optional.optionWrite_encodesOnce hw,
      optionParser_isCanonical hp⟩
  case result hi hi' =>
    have ⟨_, _, hr, hw, hp⟩ := hi
    have ⟨_, _, hr', hw', hp'⟩ := hi'
    exact ⟨_, _, resultRead_decodes hr hr', resultWrite_encodesOnce hw hw',
      resultParser_isCanonical hp hp'⟩
  case vec size _ _ hi =>
    have ⟨_, _, hr, hw, hp⟩ := hi
    exact ⟨_, _, vecRead_decodes hr size, vecWrite_encodesOnce hw size,
      vecParser_isCanonical hp size⟩
  case array hn _ hi =>
    have ⟨_, _, hr, hw, hp⟩ := hi
    exact ⟨_, _, arrayRead_decodes hr hn, arrayWrite_encodesOnce hw _, hp.replicate _⟩
  case tuple1 hi     =>
    exact hi.map (fun _ => ⟨_, rfl⟩) fun _ _ h => by cases h; rfl
  case tuple hn _ hi =>
    choose p enc hr hw hp using hi
    exact ⟨_, _, tupleRead_decodes hr (by omega), tupleWrite_encodesOnce hw (by omega),
      fieldsParser_isCanonical hp⟩
  case derive h₀ hc h _ hi =>
    choose p enc hr hw hp using hi
    exact ⟨_, _, deriveRead_decodes hc hr h₀,
      deriveWrite_encodesOnce (fun i => firstArm_add_lt_indexLimit (ha _ (h i))) hw,
      Shape.parser_isCanonical hp h₀⟩
  case deriveEmpty S h =>
    have he : S.Value → False := fun v => by have := v.variant.isLt; omega
    exact ⟨_, fun _ => [], emptyRead_decodes _, fun v => (he v).elim, fun _ v => (he v).elim⟩

def Scope.standard : Scope Ctx B B' where
  leaf _ _ := False
  map _ _  := False
  isize    := True
  lists    := True
  arity k  := k < 255

-- A run of a deserializer that returns a value has taken the bits that the serializer writes for
-- it, and no run takes other bits for the same value.
theorem taken_eq_written [CanonicalVlq B B'] (h : Format (.standard : Scope Ctx B B') r w)
    {chunk : List Ctx × B} {rest : List (List Ctx × B)} {v : T} {k : Nat}
    (hd : pollChunks r.pollDeserialize r.deserialize chunk rest = (.ready (.ok v), k)) :
    k ≤ (chunkBits (chunk :: rest)).length ∧
    (∀ ctx (b : B'), k ≤ room b →
      (w.pollSerialize ctx (w.serialize v) b).outcome = .ready (.ok ()) ∧
      Produces b ((chunkBits (chunk :: rest)).take k) (w.pollSerialize ctx (w.serialize v) b).buf) ∧
    ∀ chunk' rest' k', pollChunks r.pollDeserialize r.deserialize chunk' rest' = (.ready (.ok v), k') →
      (chunkBits (chunk' :: rest')).take k' = (chunkBits (chunk :: rest)).take k := by
  have ⟨p, enc, hr, hw, hp⟩ := h.canonical (fun _ => id) False.elim False.elim
  have taken {chunk rest k}
      (hd : pollChunks r.pollDeserialize r.deserialize chunk rest = (.ready (.ok v), k)) :
      k ≤ (chunkBits (chunk :: rest)).length ∧ (chunkBits (chunk :: rest)).take k = enc v := by
    have ha := hr.pollChunks_agrees chunk rest
    rw [hd] at ha
    exact ⟨ha.1, hp.eq_of_halts ha.2⟩
  have ⟨hk, ht⟩ := taken hd
  refine ⟨hk, ?_, fun chunk' rest' k' hd' => (taken hd').2.trans ht.symm⟩
  intro ctx b hb
  rw [ht]
  apply (hw v ctx b).fits
  rw [← ht, List.length_take]
  omega

def signedChunks : List (List Unit × Slice) :=
  [([()], ⟨Bits.ofBytes (Bits.toBe 8 5) ++ [true], 0⟩)]

theorem taken_eq_written_signed :
    ((Optional.optionWrite isizeWrite).pollSerialize ()
      ((Optional.optionWrite isizeWrite).serialize (some 5))
        (⟨List.replicate 65 false, 0, by decide⟩ : SliceMut)).outcome = .ready (.ok ()) := by
  let r : MinCodecRead Unit Slice _ := Optional.optionRead isizeRead
  have hd : pollChunks r.pollDeserialize r.deserialize ([()], ⟨[true], 0⟩) signedChunks =
      (.ready (.ok (some 5)), 65) := by
    rfl
  let b : SliceMut := ⟨List.replicate 65 false, 0, by decide⟩
  exact ((taken_eq_written (.option (.isize trivial)) hd).2.1 () b (by decide)).1

end Mincodec
