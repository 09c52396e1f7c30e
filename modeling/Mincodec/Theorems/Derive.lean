import Mincodec.Derive

namespace Mincodec

open Stream BitSource BitSink

variable {Ctx B : Type} {Wait : Prop} {S : Shape} {rs : S.Reads Ctx B} {ws : S.Writes Ctx B}

theorem lt_indexLimit {bl : Nat} (h : bl < 2 ^ 32) : bl < indexLimit bl := by
  unfold indexLimit
  split
  case isTrue => assumption
  case isFalse =>
    split
    case isTrue  => assumption
    case isFalse => exact h

theorem firstArm_add_lt_indexLimit {S : Shape} {bl : Nat} (h : bl < 255) :
    S.firstArm + bl < indexLimit bl := by
  have hf : S.firstArm ≤ 1 := by
    unfold Shape.firstArm
    split <;> decide
  rw [indexLimit, if_pos (by omega)]
  omega

namespace Shape

theorem compiles_of_le {S : Shape} (hv : S.variants ≤ 32768) (ha : ∀ i, S.arity i < 2 ^ 32) :
    S.Compiles := by
  refine ⟨fun _ => ?_, ha⟩
  have hb : S.bits ≤ 15 := (Nat.clog_le_iff_le_pow (by omega)).mpr hv
  unfold determinantSize bytes
  split
  case isTrue h =>
    rw [if_neg (by omega), if_neg (by omega)]
    congr 1
    omega
  case isFalse h =>
    congr 1
    omega

theorem bits_le (S : Shape) : S.bits ≤ 8 * S.bytes := by
  unfold bytes
  omega

theorem lt_two_pow_bits (i : Fin S.variants) : i.val < 2 ^ S.bits :=
  i.isLt.trans_le (Nat.le_pow_clog (by omega) _)

def flags (n k : Nat) : Shape where
  name      := "Flags"
  variants  := n
  arity _   := k
  field _ _ := Bool

variable (S)

def determinantBits (i : Fin S.variants) : List Bool :=
  if 1 < S.variants then Bits.lsb S.bits i else []

variable {S} {ε : (i : Fin S.variants) → Fin (S.arity i) → Type}

def variantParser (ps : (i : Fin S.variants) → (j : Fin (S.arity i)) → Parser (ε i j) (S.field i j))
    (i : Fin S.variants) : Parser (DeriveError ε) S.Value :=
  ((fieldsParser (ps i)).mapErr (⟨i, ·⟩)).map (⟨i, ·⟩)

def chosenParser
    (ps : (i : Fin S.variants) → (j : Fin (S.arity i)) → Parser (ε i j) (S.field i j))
    (determinant : Nat) : Parser (DeriveError ε) S.Value :=
  if h : determinant < S.variants then
    variantParser ps ⟨determinant, h⟩
  else
    .abort "invalid determinant"

def parser (ps : (i : Fin S.variants) → (j : Fin (S.arity i)) → Parser (ε i j) (S.field i j))
    (h : 0 < S.variants) : Parser (DeriveError ε) S.Value :=
  if 1 < S.variants then
    (Parser.take S.bits).bind fun w => chosenParser ps (Bits.ofLsb w)
  else
    variantParser ps ⟨0, h⟩

def emission
    (encs : (i : Fin S.variants) → (j : Fin (S.arity i)) → S.field i j → Emission (ε i j))
    (v : S.Value) : Emission (DeriveError ε) :=
  ((fieldsEmission (encs v.variant) v.fields).mapErr (⟨v.variant, ·⟩)).prepend (S.determinantBits v.variant)

def valueBits (encs : (i : Fin S.variants) → (j : Fin (S.arity i)) → S.field i j → List Bool)
    (v : S.Value) : List Bool :=
  S.determinantBits v.variant ++ fieldsBits (encs v.variant) v.fields

theorem parser_after
    (ps : (i : Fin S.variants) → (j : Fin (S.arity i)) → Parser (ε i j) (S.field i j))
    (h : 0 < S.variants) (i : Fin S.variants) :
    (parser ps h).after (S.determinantBits i) = variantParser ps i := by
  unfold parser determinantBits
  split
  case isTrue h₁  =>
    have hd := Parser.take_halts (ε := DeriveError ε) (Bits.lsb S.bits i)
    rw [Bits.length_lsb] at hd
    rw [hd.bind_after, chosenParser, Bits.ofLsb_lsb (lt_two_pow_bits i), dif_pos i.isLt]
  case isFalse h₁ =>
    obtain rfl : i = ⟨0, h⟩ := Fin.ext (by have := i.isLt; simp only; omega)
    rfl

theorem parser_halts
    {ps : (i : Fin S.variants) → (j : Fin (S.arity i)) → Parser (ε i j) (S.field i j)}
    {encs : (i : Fin S.variants) → (j : Fin (S.arity i)) → S.field i j → List Bool}
    (h : ∀ i j v, (ps i j).Halts (encs i j v) (.finished (.ok v))) (v : S.Value)
    (h₀ : 0 < S.variants) :
    (parser ps h₀).Halts (valueBits encs v) (.finished (.ok v)) := by
  apply Parser.Halts.after.mp
  rw [parser_after]
  exact (fieldsParser_halts (h v.variant) v.fields).mapErr.map

end Shape

namespace DeriveDeserialize

variable [BitBuf B] [LawfulBitBuf B]
variable {ps : (i : Fin S.variants) → (j : Fin (S.arity i)) → Parser (rs i j).Error (S.field i j)}

def Reads (Wait : Prop)
    (ps : (i : Fin S.variants) → (j : Fin (S.arity i)) → Parser (rs i j).Error (S.field i j))
    (this : DeriveDeserialize rs)
    (q : Parser (DeriveError fun i j => (rs i j).Error) S.Value) : Prop :=
  match this with
  | .determinant none     => False
  | .determinant (some d) => ∃ q', Decodes Wait Drained (fun (_ : Unit) => BitBuf.pollCappedFill) d q' ∧
      q = (q'.mapErr Empty.elim).bind fun bytes =>
        S.chosenParser ps (Bits.ofLe (bytes.map Bits.reverseBits))
  | .variant i idx slots  => ∃ q', Slots.Reads Wait (ps i) (idx, slots) q' ∧
      q = (q'.mapErr (⟨i, ·⟩)).map (⟨i, ·⟩)

theorem pollVariant_follows (hc : S.Compiles) (hr : ∀ i j, (rs i j).Decodes Wait (ps i j)) (ctx : Ctx)
    {i : Fin S.variants} {idx : Nat} {slots : Slots (rs i)}
    {q : Parser (FieldError fun j => (rs i j).Error) ((j : Fin (S.arity i)) → S.field i j)}
    (h : Slots.Reads Wait (ps i) (idx, slots) q) (b : B) :
    Follows Wait Drained (Reads Wait ps) Returns ((q.mapErr (⟨i, ·⟩)).map (⟨i, ·⟩)) b
      (pollVariant ctx i idx slots b) := by
  apply (Slots.poll_follows (hr i) (lt_indexLimit (hc.arity_lt i)) ctx h b).andThen
  · exact fun s q h => ⟨q, h, rfl⟩
  rintro _ s b' v ⟨_, hv⟩
  rw [Slots.unwrap_eq_some hv]
  exact .ready rfl

theorem pollDeserialize_follows (hc : S.Compiles) (hr : ∀ i j, (rs i j).Decodes Wait (ps i j))
    (ctx : Ctx) {this : DeriveDeserialize rs}
    {q : Parser (DeriveError fun i j => (rs i j).Error) S.Value} (h : Reads Wait ps this q) (b : B) :
    Follows Wait Drained (Reads Wait ps) Returns q b (pollDeserialize ctx this b) := by
  match this with
  | .determinant none    => exact h.elim
  | .variant i idx slots =>
    obtain ⟨q, h, rfl⟩ := h
    exact pollVariant_follows hc hr ctx h b
  | .determinant (some d) =>
    obtain ⟨q, h, rfl⟩ := h
    unfold pollDeserialize
    apply (h.follows () b).andThen
    · exact fun d q h => ⟨q, h, rfl⟩
    rintro bytes d b' _ rfl
    unfold Shape.chosenParser pollChosen
    split
    case isTrue h  => exact pollVariant_follows hc hr ctx (Slots.new_reads (hr _)) b'
    case isFalse h => exact .abort

theorem new_reads (hr : ∀ i j, (rs i j).Decodes Wait (ps i j)) (h : 0 < S.variants) :
    Reads Wait ps (new rs h) (S.parser ps h) := by
  unfold new Shape.parser
  split
  case isFalse h₁ => exact ⟨_, Slots.new_reads (hr _), rfl⟩
  case isTrue h₁ =>
    have ⟨f, hf, hd⟩ : ∃ f, BitBuf.newCappedFill (List.replicate S.bytes 0) S.bits = some f ∧
        Decodes (B := B) Wait Drained (fun (_ : Unit) => BitBuf.pollCappedFill) f _ :=
      BitBuf.cappedFill_decodes (by rw [List.length_replicate]; exact S.bits_le)
    rw [hf]
    refine ⟨_, hd, ?_⟩
    unfold fillParser
    rw [Parser.mapErr_map, Parser.mapErr_take, Parser.map_bind]
    apply Parser.take_bind_congr
    intro w hw
    have := Bits.ofLe_reverseBits_toBytes (hw.trans_le S.bits_le)
    rw [hw] at this
    simp only [Function.comp_apply, this]

end DeriveDeserialize

theorem deriveRead_decodes [BitBuf B] [LawfulBitBuf B] (hc : S.Compiles)
    {ps : (i : Fin S.variants) → (j : Fin (S.arity i)) → Parser (rs i j).Error (S.field i j)}
    (hr : ∀ i j, (rs i j).Decodes Wait (ps i j)) (h : 0 < S.variants) :
    (deriveRead rs h).Decodes Wait (S.parser ps h) :=
  ⟨DeriveDeserialize.Reads Wait ps,
    fun c _ _ b hq => DeriveDeserialize.pollDeserialize_follows hc hr c hq b,
    DeriveDeserialize.new_reads hr h⟩

namespace DeriveSerialize

variable [BitBufMut B] [LawfulBitBufMut B]
variable {encs : (i : Fin S.variants) → (j : Fin (S.arity i)) → S.field i j →
  Emission (ws i j).Error}

def WritesOf (Stop : B → Prop)
    (encs : (i : Fin S.variants) → (j : Fin (S.arity i)) → S.field i j → Emission (ws i j).Error)
    (v : S.Value) (this : DeriveSerialize ws)
    (e : Emission (DeriveError fun i j => (ws i j).Error)) : Prop :=
  (∃ d w sers, 1 < S.variants ∧ this = .variant v.variant 0 (some d) sers ∧
    Drains BitBufMut.cappedDrainInto d w ∧ (∀ j, sers j = (ws v.variant j).serialize (v.fields j)) ∧
    e = ((fieldsEmission (encs v.variant) v.fields).mapErr (⟨v.variant, ·⟩)).prepend w) ∨
  ∃ k d sers e', this = .variant v.variant (S.firstArm + k) d sers ∧
    Sers.WritesOf Stop (encs v.variant) v.fields S.firstArm (S.firstArm + k, sers) e' ∧
    e = e'.mapErr (⟨v.variant, ·⟩)

variable {Stop : B → Prop} {v : S.Value}

theorem pollFields_writes
    (hl : S.firstArm + S.arity v.variant < indexLimit (S.arity v.variant))
    (hw : ∀ j, Stream.Encodes Stop (ws v.variant j).pollSerialize
      ((ws v.variant j).serialize (v.fields j)) (encs v.variant j (v.fields j)))
    (ctx : Ctx) {k : Nat} {d : Option (BitBufMut.CappedDrain B)} {sers : Sers (ws v.variant)}
    {e : Emission (FieldError fun j => (ws v.variant j).Error)}
    (h : Sers.WritesOf Stop (encs v.variant) v.fields S.firstArm (S.firstArm + k, sers) e) (b : B) :
    Writes Stop (WritesOf Stop encs v) (e.mapErr (⟨v.variant, ·⟩)) b
      (pollFields ctx v.variant (S.firstArm + k) d sers b) := by
  unfold pollFields
  rw [Nat.add_sub_cancel_left]
  apply (Sers.poll_writes hw hl ctx h b).finish
  · intro s e h
    have ⟨k, hk, _⟩ := h
    exact .inr ⟨k, d, s.2, e, by rw [hk], hk ▸ h, rfl⟩
  · exact fun _ _ => .ready

theorem pollSerialize_writes (hs : ∀ b, Full b → Stop b)
    (hl : S.firstArm + S.arity v.variant < indexLimit (S.arity v.variant))
    (hw : ∀ j, Stream.Encodes Stop (ws v.variant j).pollSerialize
      ((ws v.variant j).serialize (v.fields j)) (encs v.variant j (v.fields j)))
    (ctx : Ctx) {this : DeriveSerialize ws} {e : Emission (DeriveError fun i j => (ws i j).Error)}
    (h : WritesOf Stop encs v this e) (b : B) :
    Writes Stop (WritesOf Stop encs v) e b (pollSerialize ctx this b) := by
  unfold pollSerialize
  obtain ⟨d, w, sers, h₁, rfl, hd, hser, rfl⟩ | ⟨k, d, sers, e, rfl, he, rfl⟩ := h
  case inl =>
    simp only [h₁, and_self, if_true]
    apply ((hd.writes b).mono hs fun _ _ => id).andThen
    · rintro d _ ⟨w, hd, rfl⟩
      exact .inl ⟨d, w, sers, h₁, rfl, hd, hser, rfl⟩
    intro d b'
    have hf : 1 = S.firstArm + 0 := by simp [Shape.firstArm, h₁]
    rw [hf]
    exact pollFields_writes hl hw ctx
      (Sers.writesOf_of_fresh hw (Nat.zero_le _) fun j _ => hser j) b'
  case inr =>
    have hk : ¬(1 < S.variants ∧ S.firstArm + k = 0) := by
      intro ⟨h₁, hk⟩
      simp [Shape.firstArm, h₁] at hk
    simp only [hk, if_false]
    exact pollFields_writes hl hw ctx he b

theorem newCappedDrain_drains (i : Fin S.variants) :
    ∃ d, BitBufMut.newCappedDrain (B := B) ((Bits.toLe S.bytes i).map Bits.reverseBits) S.bits =
      some d ∧ Drains BitBufMut.cappedDrainInto d (Bits.lsb S.bits i) := by
  have hb := S.bits_le
  have ⟨d, hn, hd⟩ := LawfulBitBufMut.cappedDrain_drains (B := B)
    ((Bits.toLe S.bytes i).map Bits.reverseBits) S.bits (by simpa [Bits.toLe] using hb)
  rw [Bits.ofBytes_reverseBits_toLe, Bits.take_lsb hb] at hd
  exact ⟨d, hn, hd⟩

end DeriveSerialize

section
variable [BitBufMut B] [LawfulBitBufMut B]
variable {encs : (i : Fin S.variants) → (j : Fin (S.arity i)) → S.field i j → Emission (ws i j).Error}

-- The fields may stop wherever `Stop` holds of the buffer.
theorem deriveWrite_encodesTo {Stop : B → Prop} (hs : ∀ b, Full b → Stop b) {v : S.Value}
    (hl : S.firstArm + S.arity v.variant < indexLimit (S.arity v.variant))
    (hw : ∀ j, Stream.Encodes Stop (ws v.variant j).pollSerialize
      ((ws v.variant j).serialize (v.fields j)) (encs v.variant j (v.fields j))) :
    Stream.Encodes Stop (deriveWrite ws).pollSerialize ((deriveWrite ws).serialize v)
      (S.emission encs v) := by
  refine ⟨DeriveSerialize.WritesOf Stop encs v,
    fun c _ _ b h => DeriveSerialize.pollSerialize_writes hs hl hw c h b, ?_⟩
  show DeriveSerialize.WritesOf Stop encs v (DeriveSerialize.new ws v) _
  unfold DeriveSerialize.new Shape.emission Shape.determinantBits
  split
  case isTrue h₁ =>
    have ⟨d, hn, hd⟩ := DeriveSerialize.newCappedDrain_drains (B := B) v.variant
    rw [hn]
    exact .inl ⟨d, _, _, h₁, rfl, hd, fun _ => rfl, rfl⟩
  case isFalse h₁ =>
    have hf : 0 = S.firstArm + 0 := by simp [Shape.firstArm, h₁]
    refine .inr ⟨0, none, _, _, by rw [← hf], ?_, rfl⟩
    exact Sers.writesOf_of_fresh hw (Nat.zero_le _) fun _ _ => rfl

theorem deriveWrite_encodes (hl : ∀ i, S.firstArm + S.arity i < indexLimit (S.arity i))
    (hw : ∀ i j, (ws i j).Encodes (encs i j)) : (deriveWrite ws).Encodes (S.emission encs) :=
  fun v => deriveWrite_encodesTo (fun _ => id) (hl v.variant) fun j => hw v.variant j (v.fields j)

end

theorem deriveWrite_encodesOnce [BitBufMut B] [LawfulBitBufMut B]
    {encs : (i : Fin S.variants) → (j : Fin (S.arity i)) → S.field i j → List Bool}
    (hl : ∀ i, S.firstArm + S.arity i < indexLimit (S.arity i))
    (hw : ∀ i j, (ws i j).EncodesOnce (encs i j)) :
    (deriveWrite ws).EncodesOnce (S.valueBits encs) := by
  intro v c b
  have fields : ∀ d b, WritesOnce (fieldsBits (encs v.variant) v.fields) b
      (DeriveSerialize.pollFields c v.variant S.firstArm d
        (fun j => (ws v.variant j).serialize (v.fields j)) b) := by
    intro d b
    unfold DeriveSerialize.pollFields
    rw [Nat.sub_self]
    exact (Sers.poll_writesOnce (hw v.variant) (hl v.variant) c (fun _ _ => rfl) b).finish
      fun _ _ => .ready
  show WritesOnce _ b (DeriveSerialize.pollSerialize c (DeriveSerialize.new ws v) b)
  unfold DeriveSerialize.new DeriveSerialize.pollSerialize Shape.valueBits Shape.determinantBits
  by_cases h₁ : 1 < S.variants
  case pos =>
    have ⟨d, hn, hd⟩ := DeriveSerialize.newCappedDrain_drains (B := B) v.variant
    have hf : S.firstArm = 1 := by simp [Shape.firstArm, h₁]
    simp only [h₁, and_self, if_true, hn]
    rw [hf] at fields
    exact (hd.writesOnce b).andThen fun d b' => fields _ b'
  case neg =>
    have hf : S.firstArm = 0 := by simp [Shape.firstArm, h₁]
    rw [hf] at fields
    simp only [h₁, false_and, if_false, List.nil_append]
    exact fields none b

end Mincodec
