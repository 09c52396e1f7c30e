import Mincodec.BitSlice
import Mincodec.Format
import Mincodec.Stream.Echo
import Mincodec.Theorems.Counter

-- What the codecs do with every value, also with those that are not read back.
namespace Mincodec

open Stream BitSource BitSink

variable {Ctx B B' T U : Type}

-- The parser and the emissions behind a codec, and that they keep or lose every value.
structure Meaning [BitSource B] [BitSink B'] (r : MinCodecRead Ctx B T)
    (w : MinCodecWrite Ctx B' T) where
  parser   : Parser r.Error T
  emission : T → Emission w.Error
  decodes  : r.Decodes False parser
  emits    : ∀ v ctx b, Emits (emission v) b (w.pollSerialize ctx (w.serialize v) b)
  settled  : ∀ v, Settled parser (emission v) v

section
variable {w : MinCodecWrite Ctx B' T} {ε : Type}

theorem pollItems_emits [BitSink B'] {enc : T → Emission w.Error}
    (h : ∀ v ctx b, Emits (enc v) b (w.pollSerialize ctx (w.serialize v) b)) (ctx : Ctx)
    (items : List T) (ser : Option w.Serialize) (b : B') :
    Emits (listEmission enc items) b (pollItems w ctx items ser b) := by
  induction items generalizing ser b
  case nil                => exact .ready
  case cons item items hi => exact (h item ctx b).andThen_id fun ser b => hi (some ser) b

theorem list_kept {p : Parser ε T} {enc : T → Emission w.Error} {items : List T} {n : Nat}
    (hn : items.length = n) (h : ∀ x ∈ items, Kept p (enc x) x) :
    Kept (p.replicate n) (listEmission enc items) ⟨items, hn⟩ := by
  subst hn
  induction items
  case nil                => exact ⟨[], rfl, Parser.pure_halts _⟩
  case cons item items hi =>
    have ⟨hx, h⟩ := List.forall_mem_cons.mp h
    exact hx.seq ((hi h).map (List.Vector.cons item))

theorem list_lost {p : Parser ε T} {enc : T → Emission w.Error} {items : List T} {n : Nat}
    (hn : items.length = n) (hs : ∀ x, Settled p (enc x) x) (h : ∃ x ∈ items, Lost p (enc x)) :
    Lost (p.replicate n) (listEmission enc items) := by
  subst hn
  induction items
  case nil                =>
    have ⟨_, hm, _⟩ := h
    cases hm
  case cons item items hi =>
    by_cases hl : ∃ x ∈ items, Lost p (enc x)
    case pos =>
      have hi := hi hl
      cases hs item
      case inl hx => exact hx.seq_lost (hi.bind _)
      case inr hx => exact hx.seq hi.definite _
    case neg =>
      have hk (x : T) (hm : x ∈ items) : Kept p (enc x) x :=
        (hs x).resolve_right fun hx => hl ⟨x, hm, hx⟩
      have ⟨x, hm, hx⟩ := h
      cases List.mem_cons.mp hm
      case inr hm => exact absurd ⟨x, hm, hx⟩ hl
      case inl he =>
        subst he
        exact hx.seq (Settled.definite (.inl (list_kept rfl hk))) _

end

section
variable {n : Nat} {T : Fin n → Type} {ws : (i : Fin n) → MinCodecWrite Ctx B' (T i)}
variable {ε : Fin n → Type} {δ : Fin n → Type} {ps : (i : Fin n) → Parser (ε i) (T i)}
variable {encs : (i : Fin n) → T i → Emission (δ i)} {v : (i : Fin n) → T i}

-- The emission of the loop over the fields, whose index overflows after the last field if its type is
-- too small.
def armsEmission (first limit : Nat) (encs : (i : Fin n) → T i → Emission (δ i))
    (v : (i : Fin n) → T i) (k : Nat) : Emission (FieldError δ) :=
  (fieldsEmissionFrom encs v k).seq
    (if first + n < limit then .done [] else ⟨[], .panicked addOverflow⟩)

theorem Sers.poll_emits [BitSink B'] {encs : (i : Fin n) → T i → Emission (ws i).Error}
    (hw : ∀ i v ctx b, Emits (encs i v) b ((ws i).pollSerialize ctx ((ws i).serialize v) b))
    {first limit : Nat} (hl : first + n ≤ limit) (ctx : Ctx) {k : Nat} {sers : Sers ws}
    (hk : k < n ∨ k = n ∧ first + n < limit)
    (hs : ∀ i : Fin n, k ≤ i.val → sers i = (ws i).serialize (v i)) (b : B') :
    Emits (armsEmission first limit encs v k) b (poll first limit ctx k sers b) := by
  obtain ⟨j, hj⟩ : ∃ j, k + j = n := ⟨n - k, by omega⟩
  induction j generalizing k sers b
  case zero =>
    have h : ¬k < n := by omega
    rw [armsEmission, fieldsEmissionFrom, dif_neg h, Emission.done_seq, if_pos (hk.resolve_left h).2]
    unfold poll
    rw [dif_neg h]
    exact .ready
  case succ j hi =>
    have h : k < n := by omega
    rw [armsEmission, fieldsEmissionFrom, dif_pos h, Emission.seq_assoc]
    unfold poll
    rw [dif_pos h, hs _ k.le_refl]
    apply (hw _ _ ctx b).andThen
    intro ser b'
    by_cases hlt : first + k + 1 < limit
    case neg =>
      rw [if_neg hlt, fieldsEmissionFrom, dif_neg (by omega), Emission.done_seq, if_neg (by omega)]
      exact .panicked
    case pos =>
      rw [if_pos hlt]
      apply hi (by omega) _ _ (by omega)
      intro i hi
      rw [Function.update_of_ne (Fin.ne_of_val_ne (by simp only; omega)), hs i (by omega)]

theorem fields_kept {k : Nat} (h : ∀ i, k ≤ i.val → Kept (ps i) (encs i (v i)) (v i)) :
    Kept (fieldsParserFrom ps k fun i _ => v i)
      (fieldsEmissionFrom encs v k : Emission (FieldError δ)) v := by
  fun_induction fieldsEmissionFrom encs v k
  case case1 k hk hi =>
    rw [fieldsParserFrom, dif_pos hk]
    apply (((h _ k.le_refl).mapErr _).mapEmission _).seq
    rw [snoc_eq]
    exact hi fun i hi => h i (by omega)
  case case2 k hk    =>
    rw [fieldsParserFrom, dif_neg hk]
    exact ⟨[], rfl, Parser.pure_halts v⟩

theorem fields_lost {k : Nat} (hs : ∀ i, Settled (ps i) (encs i (v i)) (v i))
    (h : ∃ i : Fin n, k ≤ i.val ∧ Lost (ps i) (encs i (v i))) :
    Lost (fieldsParserFrom ps k fun i _ => v i)
      (fieldsEmissionFrom encs v k : Emission (FieldError δ)) := by
  fun_induction fieldsEmissionFrom encs v k
  case case2 k hk    =>
    have ⟨i, hi, _⟩ := h
    exact absurd i.isLt (by omega)
  case case1 k hk hi =>
    rw [fieldsParserFrom, dif_pos hk]
    by_cases hl : ∃ i : Fin n, k + 1 ≤ i.val ∧ Lost (ps i) (encs i (v i))
    case pos =>
      have hi := hi hl
      cases hs ⟨k, hk⟩
      case inr hx => exact ((hx.mapErr _).mapEmission _).seq hi.definite _
      case inl hx =>
        apply ((hx.mapErr _).mapEmission _).seq_lost
        rwa [snoc_eq]
    case neg =>
      have hr : Kept (fieldsParserFrom ps (k + 1) fun i _ => v i)
          (fieldsEmissionFrom encs v (k + 1) : Emission (FieldError δ)) v :=
        fields_kept fun i hi => (hs i).resolve_right fun hx => hl ⟨i, hi, hx⟩
      have ⟨i, hki, hx⟩ := h
      obtain rfl : i = ⟨k, hk⟩ := by
        by_contra hne
        have := Fin.val_ne_of_ne hne
        exact hl ⟨i, by simp only at this; omega, hx⟩
      exact ((hx.mapErr _).mapEmission _).seq (Settled.definite (.inl hr)) _

theorem arms_kept {first limit : Nat} (h : ∀ i, Kept (ps i) (encs i (v i)) (v i))
    (hl : first + n < limit) : Kept (fieldsParser ps) (armsEmission first limit encs v 0) v := by
  rw [fieldsParser_eq ps fun i _ => v i, armsEmission, if_pos hl, Emission.seq_done_nil]
  exact fields_kept fun i _ => h i

theorem arms_lost {first limit : Nat} (hs : ∀ i, Settled (ps i) (encs i (v i)) (v i))
    (h : (∃ i, Lost (ps i) (encs i (v i))) ∨ ¬first + n < limit) :
    Lost (fieldsParser ps) (armsEmission first limit encs v 0) := by
  rw [fieldsParser_eq ps fun i _ => v i, armsEmission]
  by_cases hf : ∃ i : Fin n, 0 ≤ i.val ∧ Lost (ps i) (encs i (v i))
  case pos =>
    have hf : Lost (fieldsParserFrom ps 0 fun i _ => v i)
        (fieldsEmissionFrom encs v 0 : Emission (FieldError δ)) := fields_lost hs hf
    split
    case isTrue  => rwa [Emission.seq_done_nil]
    case isFalse => exact hf.definite.seq_panicked _ _
  case neg =>
    have hk : Kept (fieldsParserFrom ps 0 fun i _ => v i)
        (fieldsEmissionFrom encs v 0 : Emission (FieldError δ)) v :=
      fields_kept fun i hi => (hs i).resolve_right fun hx => hf ⟨i, hi, hx⟩
    have hl : ¬first + n < limit := by
      refine h.resolve_left fun hx => hf ?_
      have ⟨i, hx⟩ := hx
      exact ⟨i, Nat.zero_le _, hx⟩
    rw [if_neg hl]
    exact (Settled.definite (.inl hk)).seq_panicked _ _

end

namespace Shape

variable {S : Shape} {ε δ : (i : Fin S.variants) → Fin (S.arity i) → Type}

def indexedEmission
    (encs : (i : Fin S.variants) → (j : Fin (S.arity i)) → S.field i j → Emission (δ i j))
    (v : S.Value) : Emission (DeriveError δ) :=
  ((armsEmission S.firstArm (indexLimit (S.arity v.variant)) (encs v.variant) v.fields 0).mapErr
    (⟨v.variant, ·⟩)).prepend (S.determinantBits v.variant)

theorem firstArm_le : S.firstArm ≤ 1 := by
  unfold firstArm
  split <;> decide

variable {ws : S.Writes Ctx B'}

theorem Compiles.pollFields_emits [BitBufMut B'] [LawfulBitBufMut B'] (hc : S.Compiles)
    {encs : (i : Fin S.variants) → (j : Fin (S.arity i)) → S.field i j → Emission (ws i j).Error}
    (hw : ∀ i j v ctx b, Emits (encs i j v) b ((ws i j).pollSerialize ctx ((ws i j).serialize v) b))
    (v : S.Value) (ctx : Ctx) (d : Option (BitBufMut.CappedDrain B')) (b : B') :
    Emits ((armsEmission S.firstArm (indexLimit (S.arity v.variant)) (encs v.variant) v.fields
        0).mapErr (⟨v.variant, ·⟩)) b
      (DeriveSerialize.pollFields ctx v.variant S.firstArm d
        (fun j => (ws v.variant j).serialize (v.fields j)) b) := by
  have hf := S.firstArm_le
  have hl := lt_indexLimit (hc.arity_lt v.variant)
  have h8 := le_indexLimit (S.arity v.variant)
  unfold DeriveSerialize.pollFields
  rw [Nat.sub_self]
  exact (Sers.poll_emits (hw v.variant) (by omega) ctx (by omega) (fun _ _ => rfl) b).finish
    fun _ _ => .ready

theorem Compiles.emits [BitBufMut B'] [LawfulBitBufMut B'] (hc : S.Compiles)
    {encs : (i : Fin S.variants) → (j : Fin (S.arity i)) → S.field i j → Emission (ws i j).Error}
    (hw : ∀ i j v ctx b, Emits (encs i j v) b ((ws i j).pollSerialize ctx ((ws i j).serialize v) b))
    (v : S.Value) (ctx : Ctx) (b : B') : Emits (S.indexedEmission encs v) b
      ((deriveWrite ws).pollSerialize ctx ((deriveWrite ws).serialize v) b) := by
  have fields := hc.pollFields_emits hw v ctx
  show Emits _ b (DeriveSerialize.pollSerialize ctx (DeriveSerialize.new ws v) b)
  unfold DeriveSerialize.new DeriveSerialize.pollSerialize indexedEmission determinantBits
  by_cases h₁ : 1 < S.variants
  case pos =>
    have ⟨d, hn, hd⟩ := DeriveSerialize.newCappedDrain_drains (B := B') v.variant
    have hf : S.firstArm = 1 := by simp [firstArm, h₁]
    simp only [h₁, and_self, if_true, hn]
    rw [hf] at fields ⊢
    exact (hd.writesOnce b).emits.andThen fun d b' => fields _ b'
  case neg =>
    have hf : S.firstArm = 0 := by simp [firstArm, h₁]
    rw [hf] at fields ⊢
    simp only [h₁, false_and, if_false, Emission.prepend_nil]
    exact fields none b

end Shape

namespace Meaning

variable [BitBuf B] [LawfulBitBuf B] [BitBufMut B'] [LawfulBitBufMut B']
variable {r : MinCodecRead Ctx B T} {w : MinCodecWrite Ctx B' T}

def Keeps (m : Meaning r w) (v : T) : Prop :=
  Kept m.parser (m.emission v) v

theorem lost (m : Meaning r w) {v : T} (h : ¬m.Keeps v) : Lost m.parser (m.emission v) :=
  (m.settled v).lost h

noncomputable def ofReadsBack {enc : T → List Bool} (h : ReadsBack r w enc) : Meaning r w where
  parser       := h.choose
  emission v   := .done (enc v)
  decodes      := h.choose_spec.1
  emits v c b  := (h.choose_spec.2.1 v c b).emits
  settled v    := .inl ⟨_, rfl, h.choose_spec.2.2 v⟩

theorem ofReadsBack_keeps {enc : T → List Bool} (h : ReadsBack r w enc) (v : T) :
    (ofReadsBack h).Keeps v :=
  ⟨_, rfl, h.choose_spec.2.2 v⟩

theorem isize_halts (x : Int64) :
    (((numberParser 8).mapErr MapDeserializeError.deserialize).bind fun item =>
      .lift ((isizeTryFrom item).mapError .map)).Halts (numberBits (isizeAs x))
        (.finished ((isizeTryFrom (isizeAs x)).mapError .map)) := by
  rw [← List.append_nil (numberBits (isizeAs x))]
  exact (numberParser_halts (isizeAs x)).mapErr.bind (Parser.lift_halts _)

def isize : Meaning (isizeRead : MinCodecRead Ctx B _) (isizeWrite : MinCodecWrite Ctx B' _) where
  parser       := _
  emission x   := .done (numberBits (isizeAs x))
  decodes      := mapRead_decodes (numberRead_decodes 8) isizeTryFrom
  emits x c b  := (mapWrite_encodesOnce (numberWrite_encodesOnce 8) (fun _ => rfl) x c b).emits
  settled x    := by
    have h := isize_halts x
    cases hx : isizeTryFrom (isizeAs x)
    case error e =>
      rw [hx] at h
      exact .inr (.inr ⟨_, [], _, by rw [List.append_nil], h⟩)
    case ok y    =>
      have hy : y = x := by
        unfold isizeTryFrom at hx
        split at hx <;> cases hx
        rfl
      rw [hx, hy] at h
      exact .inl ⟨_, rfl, h⟩

theorem isize_not_keeps {x : Int64} (h : isizeTryFrom (isizeAs x) ≠ .ok x) :
    ¬(isize : Meaning (isizeRead : MinCodecRead Ctx B _)
      (isizeWrite : MinCodecWrite Ctx B' _)).Keeps x := by
  intro hk
  have ⟨w, hw, hp⟩ := hk
  obtain rfl : numberBits (isizeAs x) = w := congrArg Emission.bits hw
  have he := ((isize_halts x).unique hp (List.append_nil _)).1
  cases hx : isizeTryFrom (isizeAs x)
  case error e =>
    rw [hx] at he
    cases he
  case ok y    =>
    rw [hx] at he
    injection he with he
    injection he with he
    exact h (he ▸ hx)

def box (m : Meaning r w) : Meaning (boxRead r) (boxWrite w) where
  parser      := m.parser
  emission    := m.emission
  decodes     := boxRead_decodes m.decodes
  emits v c b := (m.emits v c b).finish_id fun _ _ => .ready
  settled     := m.settled

theorem box_keeps (m : Meaning r w) {v : T} : m.box.Keeps v ↔ m.Keeps v :=
  Iff.rfl

theorem optionWrite_emits {enc : T → Emission w.Error}
    (h : ∀ v c b, Emits (enc v) b (w.pollSerialize c (w.serialize v) b)) (v : Option T) (c : Ctx)
    (b : B') : Emits (Optional.optionEmission enc v) b
      ((Optional.optionWrite w).pollSerialize c ((Optional.optionWrite w).serialize v) b) := by
  cases v
  case none      =>
    exact ((BitBufMut.pollWriteBool_writesOnce false b).emits).finish fun _ _ => .ready
  case some item =>
    apply ((BitBufMut.pollWriteBool_writesOnce true b).emits).andThen
    exact fun _ b' => (h item c b').finish_id fun _ _ => .ready

theorem some_kept (m : Meaning r w) {item : T} (h : m.Keeps item) :
    Kept (Optional.optionParser m.parser) (Optional.optionEmission m.emission (some item))
      (some item) :=
  Kept.prepend (Parser.bit_halts true) (h.map some)

theorem some_lost (m : Meaning r w) {item : T} (h : ¬m.Keeps item) :
    Lost (Optional.optionParser m.parser) (Optional.optionEmission m.emission (some item)) :=
  Lost.prepend (Parser.bit_halts true) ((m.lost h).bind _)

def option (m : Meaning r w) : Meaning (Optional.optionRead r) (Optional.optionWrite w) where
  parser    := Optional.optionParser m.parser
  emission  := Optional.optionEmission m.emission
  decodes   := Optional.optionRead_decodes m.decodes
  emits     := optionWrite_emits m.emits
  settled v := by
    cases v
    case none      => exact .inl ⟨_, rfl, (Parser.bit_halts false).bind (Parser.pure_halts none)⟩
    case some item => exact .of_cases m.some_kept m.some_lost

theorem option_keeps_none (m : Meaning r w) : m.option.Keeps none :=
  ⟨_, rfl, (Parser.bit_halts false).bind (Parser.pure_halts none)⟩

theorem option_keeps_some (m : Meaning r w) {item : T} :
    m.option.Keeps (some item) ↔ m.Keeps item :=
  Kept.iff_of_cases m.some_kept m.some_lost

section
variable {r' : MinCodecRead Ctx B U} {w' : MinCodecWrite Ctx B' U}

theorem resultWrite_emits {enc : T → Emission w.Error} {enc' : U → Emission w'.Error}
    (h : ∀ v c b, Emits (enc v) b (w.pollSerialize c (w.serialize v) b))
    (h' : ∀ v c b, Emits (enc' v) b (w'.pollSerialize c (w'.serialize v) b)) (v : Except U T)
    (c : Ctx) (b : B') : Emits (resultEmission enc enc' v) b
      ((resultWrite w w').pollSerialize c ((resultWrite w w').serialize v) b) := by
  cases v
  case ok item     =>
    apply ((BitBufMut.pollWriteBool_writesOnce true b).emits).andThen
    exact fun _ b' => (h item c b').finish fun _ _ => .ready
  case error error =>
    apply ((BitBufMut.pollWriteBool_writesOnce false b).emits).andThen
    exact fun _ b' => (h' error c b').finish fun _ _ => .ready

theorem ok_kept (m : Meaning r w) (m' : Meaning r' w') {item : T} (h : m.Keeps item) :
    Kept (resultParser m.parser m'.parser)
      (resultEmission m.emission m'.emission (.ok item)) (.ok item : Except U T) :=
  Kept.prepend (Parser.bit_halts true)
    (((h.mapErr ResultError.ok).mapEmission ResultError.ok).map Except.ok)

theorem ok_lost (m : Meaning r w) (m' : Meaning r' w') {item : T} (h : ¬m.Keeps item) :
    Lost (resultParser m.parser m'.parser) (resultEmission m.emission m'.emission (.ok item)) :=
  Lost.prepend (Parser.bit_halts true)
    ((((m.lost h).mapErr ResultError.ok).mapEmission ResultError.ok).bind _)

theorem error_kept (m : Meaning r w) (m' : Meaning r' w') {error : U} (h : m'.Keeps error) :
    Kept (resultParser m.parser m'.parser)
      (resultEmission m.emission m'.emission (.error error)) (.error error : Except U T) :=
  Kept.prepend (Parser.bit_halts false)
    (((h.mapErr ResultError.err).mapEmission ResultError.err).map Except.error)

theorem error_lost (m : Meaning r w) (m' : Meaning r' w') {error : U} (h : ¬m'.Keeps error) :
    Lost (resultParser m.parser m'.parser)
      (resultEmission m.emission m'.emission (.error error)) :=
  Lost.prepend (Parser.bit_halts false)
    ((((m'.lost h).mapErr ResultError.err).mapEmission ResultError.err).bind _)

def result (m : Meaning r w) (m' : Meaning r' w') :
    Meaning (resultRead r r') (resultWrite w w') where
  parser    := resultParser m.parser m'.parser
  emission  := resultEmission m.emission m'.emission
  decodes   := resultRead_decodes m.decodes m'.decodes
  emits     := resultWrite_emits m.emits m'.emits
  settled v := by
    cases v
    case ok item     => exact .of_cases (m.ok_kept m') (m.ok_lost m')
    case error error => exact .of_cases (m.error_kept m') (m.error_lost m')

theorem result_keeps_ok (m : Meaning r w) (m' : Meaning r' w') {item : T} :
    (m.result m').Keeps (.ok item) ↔ m.Keeps item :=
  Kept.iff_of_cases (m.ok_kept m') (m.ok_lost m')

theorem result_keeps_error (m : Meaning r w) (m' : Meaning r' w') {error : U} :
    (m.result m').Keeps (.error error) ↔ m'.Keeps error :=
  Kept.iff_of_cases (m.error_kept m') (m.error_lost m')

end

section
variable [LawfulVlq B B']

def vecEmission {ε : Type} (B' : Type) [BitBufMut B'] {size : Nat} (enc : T → Emission ε)
    (items : Vec T size) : Emission ε :=
  (listEmission enc items.val).prepend
    (Bits.ofBytes (BitBufMut.vlq B' (.ofNat items.val.length)))

omit [LawfulVlq B B'] in
theorem vecWrite_emits {enc : T → Emission w.Error} {size : Nat}
    (h : ∀ v c b, Emits (enc v) b (w.pollSerialize c (w.serialize v) b)) (items : Vec T size)
    (c : Ctx) (b : B') : Emits (vecEmission B' enc items) b
      ((vecWrite w size).pollSerialize c ((vecWrite w size).serialize items) b) := by
  apply ((LawfulBitBufMut.drain_drains _).writesOnce b).emits.andThen
  exact fun _ b' => (pollItems_emits h c _ _ b').finish_id fun _ _ => .ready

theorem vec_kept (m : Meaning r w) {size : Nat} {items : Vec T size}
    (h : ∀ x ∈ items.val, m.Keeps x) :
    Kept (vecParser (LawfulBitBuf.vlqParser B) m.parser size) (vecEmission B' m.emission items)
      items := by
  obtain ⟨items, hl, hs⟩ := items
  have ht : (UInt64.ofNat items.length).toNat = items.length := UInt64.toNat_ofNat_of_lt' hl
  apply Kept.prepend (@LawfulVlq.vlq_halts B B' _ _ _ _ _).mapErr
  unfold vecItemsParser
  rw [dif_pos (by rwa [ht])]
  exact (list_kept ht.symm fun x hm => (h x hm).mapErr VecReadError.item).map _

theorem vec_lost (m : Meaning r w) {size : Nat} {items : Vec T size}
    (h : ¬∀ x ∈ items.val, m.Keeps x) :
    Lost (vecParser (LawfulBitBuf.vlqParser B) m.parser size)
      (vecEmission B' m.emission items) := by
  obtain ⟨items, hl, hs⟩ := items
  have ht : (UInt64.ofNat items.length).toNat = items.length := UInt64.toNat_ofNat_of_lt' hl
  apply Lost.prepend (@LawfulVlq.vlq_halts B B' _ _ _ _ _).mapErr
  unfold vecItemsParser
  rw [dif_pos (by rwa [ht])]
  push Not at h
  have ⟨x, hm, hx⟩ := h
  have hs (x : T) : Settled (m.parser.mapErr VecReadError.item) (m.emission x) x := by
    cases m.settled x
    case inl h => exact .inl (h.mapErr _)
    case inr h => exact .inr (h.mapErr _)
  exact (list_lost ht.symm hs ⟨x, hm, (m.lost hx).mapErr _⟩).bind _

def vec (m : Meaning r w) (size : Nat) : Meaning (vecRead r size) (vecWrite w size) where
  parser          := vecParser (LawfulBitBuf.vlqParser B) m.parser size
  emission        := vecEmission B' m.emission
  decodes         := vecRead_decodes m.decodes size
  emits           := vecWrite_emits m.emits
  settled _       := .of_cases m.vec_kept m.vec_lost

theorem vec_keeps (m : Meaning r w) {size : Nat} {items : Vec T size} :
    (m.vec size : Meaning _ _).Keeps items ↔ ∀ x ∈ items.val, m.Keeps x :=
  Kept.iff_of_cases m.vec_kept m.vec_lost

end

section
variable {T : Fin 1 → Type} {r : MinCodecRead Ctx B (T ⟨0, Nat.one_pos⟩)}
variable {w : MinCodecWrite Ctx B' (T ⟨0, Nat.one_pos⟩)}

def single (item : T ⟨0, Nat.one_pos⟩) : (i : Fin 1) → T i :=
  fun i => Fin.cases item (fun i => i.elim0) i

theorem single_zero (v : (i : Fin 1) → T i) : single (v 0) = v := by
  funext i
  exact Fin.cases rfl (fun i => i.elim0) i

theorem tuple1_kept (m : Meaning r w) {v : (i : Fin 1) → T i} (h : m.Keeps (v 0)) :
    Kept ((m.parser.mapErr (MapDeserializeError.deserialize (E := Empty))).map single)
      ((m.emission (v 0)).mapErr (MapSerializeError.serialize (E := Empty))) v := by
  have hk := ((h.mapErr (MapDeserializeError.deserialize (E := Empty))).mapEmission
    (MapSerializeError.serialize (E := Empty))).map single
  rwa [single_zero] at hk

theorem tuple1_lost (m : Meaning r w) {v : (i : Fin 1) → T i} (h : ¬m.Keeps (v 0)) :
    Lost ((m.parser.mapErr (MapDeserializeError.deserialize (E := Empty))).map single)
      ((m.emission (v 0)).mapErr (MapSerializeError.serialize (E := Empty))) :=
  (((m.lost h).mapErr _).mapEmission _).bind _

def tuple1 (m : Meaning r w) : Meaning (tuple1Read r) (tuple1Write w) where
  parser      := (m.parser.mapErr (MapDeserializeError.deserialize (E := Empty))).map single
  emission v  := (m.emission (v ⟨0, Nat.one_pos⟩)).mapErr (MapSerializeError.serialize (E := Empty))
  decodes     := mapRead_decodes m.decodes fun item => .ok (single item)
  emits _ c b := (m.emits _ c b).finish fun _ _ => .ready
  settled _   := .of_cases m.tuple1_kept m.tuple1_lost

theorem tuple1_keeps (m : Meaning r w) {v : (i : Fin 1) → T i} :
    m.tuple1.Keeps v ↔ m.Keeps (v 0) :=
  Kept.iff_of_cases m.tuple1_kept m.tuple1_lost

end

section
variable {n : Nat} {T : Fin n → Type} {rs : (i : Fin n) → MinCodecRead Ctx B (T i)}
variable {ws : (i : Fin n) → MinCodecWrite Ctx B' (T i)}

theorem tupleWrite_emits {encs : (i : Fin n) → T i → Emission (ws i).Error}
    (hw : ∀ i v c b, Emits (encs i v) b ((ws i).pollSerialize c ((ws i).serialize v) b))
    (hn : n ≤ 16) (v : (i : Fin n) → T i) (c : Ctx) (b : B') : Emits (armsEmission 0 256 encs v 0) b
      ((tupleWrite ws).pollSerialize c ((tupleWrite ws).serialize v) b) := by
  show Emits _ b (TupleSerialize.pollSerialize c ⟨0, fun i => (ws i).serialize (v i)⟩ b)
  unfold TupleSerialize.pollSerialize
  rw [TupleSerialize.poll_finish n.zero_le]
  exact (Sers.poll_emits hw (by omega) c (by omega) (fun _ _ => rfl) b).finish_id fun _ _ => .ready

variable (ms : (i : Fin n) → Meaning (rs i) (ws i)) {v : (i : Fin n) → T i}

theorem tuple_kept (hn : n ≤ 16) (h : ∀ i, (ms i).Keeps (v i)) :
    Kept (fieldsParser fun i => (ms i).parser)
      (armsEmission 0 256 (fun i => (ms i).emission) v 0) v :=
  arms_kept h (by omega)

theorem tuple_lost (h : ¬∀ i, (ms i).Keeps (v i)) :
    Lost (fieldsParser fun i => (ms i).parser)
      (armsEmission 0 256 (fun i => (ms i).emission) v 0) := by
  push Not at h
  have ⟨i, h⟩ := h
  exact arms_lost (fun i => (ms i).settled (v i)) (.inl ⟨i, (ms i).lost h⟩)

def tuple (hn : n ≤ 16) : Meaning (tupleRead rs) (tupleWrite ws) where
  parser     := fieldsParser fun i => (ms i).parser
  emission v := armsEmission 0 256 (fun i => (ms i).emission) v 0
  decodes    := tupleRead_decodes (fun i => (ms i).decodes) (by omega)
  emits      := tupleWrite_emits (fun i => (ms i).emits) hn
  settled _  := .of_cases (tuple_kept ms hn) (tuple_lost ms)

theorem tuple_keeps (hn : n ≤ 16) : (tuple ms hn).Keeps v ↔ ∀ i, (ms i).Keeps (v i) :=
  Kept.iff_of_cases (tuple_kept ms hn) (tuple_lost ms)

end

section
variable {S : Shape} {rs : S.Reads Ctx B} {ws : S.Writes Ctx B'}
variable (ms : ∀ i j, Meaning (rs i j) (ws i j)) {v : S.Value}

def DeriveKeeps (v : S.Value) : Prop :=
  (∀ j, (ms v.variant j).Keeps (v.fields j)) ∧
    S.firstArm + S.arity v.variant < indexLimit (S.arity v.variant)

theorem derive_kept (h₀ : 0 < S.variants) (h : DeriveKeeps ms v) :
    Kept (S.parser (fun i j => (ms i j).parser) h₀)
      (S.indexedEmission (fun i j => (ms i j).emission) v) v := by
  apply Kept.of_after
  rw [Shape.parser_after]
  exact (((arms_kept h.1 h.2).mapErr _).mapEmission _).map _

theorem derive_lost (h₀ : 0 < S.variants) (h : ¬DeriveKeeps ms v) :
    Lost (S.parser (fun i j => (ms i j).parser) h₀)
      (S.indexedEmission (fun i j => (ms i j).emission) v) := by
  have hl : (∃ j, Lost (ms v.variant j).parser ((ms v.variant j).emission (v.fields j))) ∨
      ¬S.firstArm + S.arity v.variant < indexLimit (S.arity v.variant) := by
    by_contra hn
    push Not at hn
    exact h ⟨fun j => ((ms v.variant j).settled _).resolve_right (hn.1 j), hn.2⟩
  apply Lost.of_after
  rw [Shape.parser_after]
  exact (((arms_lost (fun j => (ms v.variant j).settled (v.fields j)) hl).mapErr _).mapEmission
    _).bind _

def derive (hc : S.Compiles) (h₀ : 0 < S.variants) :
    Meaning (deriveRead rs h₀) (deriveWrite ws) where
  parser    := S.parser (fun i j => (ms i j).parser) h₀
  emission  := S.indexedEmission fun i j => (ms i j).emission
  decodes   := deriveRead_decodes hc (fun i j => (ms i j).decodes) h₀
  emits     := hc.emits fun i j => (ms i j).emits
  settled _ := .of_cases (derive_kept ms h₀) (derive_lost ms h₀)

theorem derive_keeps (hc : S.Compiles) (h₀ : 0 < S.variants) :
    (derive ms hc h₀).Keeps v ↔ DeriveKeeps ms v :=
  Kept.iff_of_cases (derive_kept ms h₀) (derive_lost ms h₀)

end

def empty (h : T → False) :
    Meaning (emptyRead T : MinCodecRead Ctx B T) (emptyWrite T : MinCodecWrite Ctx B' T) where
  parser      := _
  emission v  := (h v).elim
  decodes     := emptyRead_decodes T
  emits v     := (h v).elim
  settled v   := (h v).elim

end Meaning

-- With enough room a poll of the serializer writes bits from which the deserializer, also in several
-- chunks, reads the value back.
def DecodesBack [BitSource B] [BitSink B'] (r : MinCodecRead Ctx B T) (w : MinCodecWrite Ctx B' T)
    (v : T) : Prop :=
  ∃ bits : List Bool,
    (∀ ctx (b : B'), bits.length ≤ room b →
      (w.pollSerialize ctx (w.serialize v) b).outcome = .ready (.ok ()) ∧
        Produces b bits (w.pollSerialize ctx (w.serialize v) b).buf) ∧
    ∀ chunk rest, (∀ c ∈ chunk :: rest, c.1 ≠ []) → bits <+: chunkBits (chunk :: rest) →
      pollChunks r.pollDeserialize r.deserialize chunk rest = (.ready (.ok v), bits.length)

section
variable [BitSlice B] [LawfulBitSlice B] [BitSliceMut B'] [LawfulBitSliceMut B']
variable {r : MinCodecRead Ctx B T} {w : MinCodecWrite Ctx B' T}

variable (B') in
theorem exists_room (n : Nat) : ∃ b : B', n ≤ room b := by
  refine ⟨BitSliceMut.new (List.replicate n 0), ?_⟩
  rw [room, LawfulBitSliceMut.image_new, LawfulBitSliceMut.filled_new, Bits.length_ofBytes,
    List.length_replicate]
  omega

theorem MinCodecWrite.EncodesOnce.unique {w : MinCodecWrite Ctx B' T} {enc enc' : T → List Bool}
    (h : w.EncodesOnce enc) (h' : w.EncodesOnce enc') (ctx : Ctx) : enc = enc' := by
  funext v
  have ⟨b, hb⟩ := exists_room B' ((enc v).length + (enc' v).length)
  rw [← ((h v ctx b).fits (by omega)).2.written_eq, ((h' v ctx b).fits (by omega)).2.written_eq]

variable (B) in
theorem exists_unread (bits : List Bool) : ∃ b : B, bits <+: unread b := by
  have ⟨xs, pad, _, hx⟩ := Bits.IsCut.exists bits
  exact ⟨BitSlice.new xs, by rw [LawfulBitSlice.unread_new, hx]; exact ⟨pad, rfl⟩⟩

theorem DecodesBack.not_lost {p : Parser r.Error T} {e : Emission w.Error} {v : T} (ctx : Ctx)
    (hr : r.Decodes False p) (he : ∀ b, Emits e b (w.pollSerialize ctx (w.serialize v) b))
    (h : DecodesBack r w v) : ¬Lost p e := by
  have ⟨bits, hw, hd⟩ := h
  have ⟨b, hb⟩ := exists_room B' (max bits.length e.bits.length)
  have ⟨ho, hp⟩ := hw ctx b (by omega)
  have ⟨hp', ho'⟩ := he b (by omega)
  rw [ho] at ho'
  intro hl
  cases hl
  case inl hm =>
    have ⟨m, hm⟩ := hm
    rw [hm] at ho'
    cases ho'
  case inr hx =>
    have ⟨u, t, x, hx, hu⟩ := hx
    have hut : bits = u ++ t := by
      rw [← hp.written_eq, hp'.written_eq, hx]
      rfl
    have ⟨c, hc⟩ := exists_unread B bits
    let chunk : List Ctx × B := ([ctx], c)
    have hn : ∀ c ∈ [chunk], c.1 ≠ [] := by simp [chunk]
    have hb : chunkBits [chunk] = unread c := by simp [chunkBits, chunk]
    have hl : u <+: chunkBits [chunk] := hb ▸ (hut ▸ List.prefix_append u t).trans hc
    have hd' : pollChunks r.pollDeserialize r.deserialize chunk [] = (_, u.length) :=
      Decodes.pollChunks_ends hr hu hn hl
    cases hd'.symm.trans (hd chunk [] hn (hb ▸ hc))

theorem Meaning.decodesBack_iff (m : Meaning r w) (ctx : Ctx) {v : T} :
    DecodesBack r w v ↔ m.Keeps v := by
  constructor
  case mp =>
    intro h
    by_contra hk
    exact h.not_lost ctx m.decodes (m.emits v ctx) (m.lost hk)
  case mpr =>
    intro h
    have ⟨bits, he, hp⟩ := h
    refine ⟨bits, fun ctx b hb => ?_, fun chunk rest => Decodes.pollChunks_ends m.decodes hp⟩
    have hw := m.emits v ctx b
    rw [he] at hw
    have ⟨hb, ho⟩ := hw hb
    exact ⟨ho, hb⟩

end

end Mincodec
