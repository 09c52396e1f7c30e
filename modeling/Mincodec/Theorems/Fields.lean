import Mincodec.Fields

namespace Mincodec

open Stream BitSource BitSink

variable {Ctx B : Type} {Wait : Prop} {n : Nat} {T : Fin n → Type}

namespace Slots

variable {rs : (i : Fin n) → MinCodecRead Ctx B (T i)} {slots : Slots rs}

theorem unwrap_eq_some {v : (i : Fin n) → T i} (h : ∀ i, slots i = .done (v i)) :
    slots.unwrap = some v := by
  have ht : ∀ i, (slots i).take.1 = some (v i) := fun i => by rw [h i]; rfl
  unfold unwrap
  rw [dif_pos fun i => by rw [ht i]; rfl]
  congr 1
  funext i
  simp only [ht i, Option.get_some]

variable [BitSource B] {ps : (i : Fin n) → Parser (rs i).Error (T i)}

-- The fields before `idx` are done with the values `vs`, field `idx` is underway and decodes as
-- `p`, the fields after it are new.
structure At (Wait : Prop) (slots : Slots rs) (idx : Nat) (h : idx < n) (vs : (i : Fin n) → i.val < idx → T i)
    (p : Parser (rs ⟨idx, h⟩).Error (T ⟨idx, h⟩)) : Prop where
  done     : ∀ i hi, slots i = .done (vs i hi)
  underway : (slots ⟨idx, h⟩).Underway Wait p
  fresh    : ∀ i, idx < i.val → slots i = .new (rs i)

def Complete (s : Nat × Slots rs) (v : (i : Fin n) → T i) : Prop :=
  s.1 = n ∧ ∀ i, s.2 i = .done (v i)

def Reads (Wait : Prop) (ps : (i : Fin n) → Parser (rs i).Error (T i)) (s : Nat × Slots rs)
    (q : Parser (FieldError fun i => (rs i).Error) ((i : Fin n) → T i)) : Prop :=
  (∃ h vs p, s.2.At Wait s.1 h vs p ∧
    q = (p.mapErr (⟨⟨s.1, h⟩, ·⟩)).bind fun v => fieldsParserFrom ps (s.1 + 1) (snoc h vs v)) ∨
  ∃ v, Complete s v ∧ q = .pure v

theorem new_reads (hr : ∀ i, (rs i).Decodes Wait (ps i)) : Reads Wait ps (0, new rs) (fieldsParser ps) := by
  unfold fieldsParser
  rw [fieldsParserFrom]
  split
  case isTrue h =>
    refine .inl ⟨h, _, ps ⟨0, h⟩, ?_, rfl⟩
    exact
      { done     := fun _ hi => (Nat.not_lt_zero _ hi).elim
        underway := OptionDeserialize.new_underway (hr _)
        fresh    := fun _ _ => rfl }
  case isFalse h =>
    obtain rfl : n = 0 := by omega
    exact .inr ⟨_, ⟨rfl, fun i => i.elim0⟩, rfl⟩

namespace At

variable {idx : Nat} {h : idx < n} {vs : (i : Fin n) → i.val < idx → T i}
variable {p : Parser (rs ⟨idx, h⟩).Error (T ⟨idx, h⟩)}

theorem update_done (ha : slots.At Wait idx h vs p) (v : T ⟨idx, h⟩) (i : Fin n) (hi : i.val < idx + 1) :
    Function.update slots ⟨idx, h⟩ (.done v) i = .done (snoc h vs v i hi) := by
  by_cases h' : i.val < idx
  case pos =>
    rw [Function.update_of_ne (Fin.ne_of_val_ne h'.ne), snoc_lt h vs v h', ha.done i h']
  case neg =>
    obtain rfl : i = ⟨idx, h⟩ := Fin.ext (by simp only; omega)
    rw [Function.update_self, snoc_self]

theorem next (hr : ∀ i, (rs i).Decodes Wait (ps i)) (ha : slots.At Wait idx h vs p) (v : T ⟨idx, h⟩)
    (h' : idx + 1 < n) :
    At Wait (Function.update slots ⟨idx, h⟩ (.done v)) (idx + 1) h' (snoc h vs v) (ps ⟨idx + 1, h'⟩) where
  done i hi := ha.update_done v i hi
  underway := by
    rw [Function.update_of_ne (Fin.ne_of_val_ne (by simp)), ha.fresh _ idx.lt_succ_self]
    exact OptionDeserialize.new_underway (hr _)
  fresh i hi := by
    rw [Function.update_of_ne (Fin.ne_of_val_ne (by simp only; omega)), ha.fresh i (by omega)]

theorem update (ha : slots.At Wait idx h vs p) {slot : OptionDeserialize (rs ⟨idx, h⟩)}
    {q : Parser (rs ⟨idx, h⟩).Error (T ⟨idx, h⟩)} (hs : slot.Underway Wait q) :
    At Wait (Function.update slots ⟨idx, h⟩ slot) idx h vs q where
  done i hi  := by rw [Function.update_of_ne (Fin.ne_of_val_ne hi.ne), ha.done i hi]
  underway   := by rwa [Function.update_self]
  fresh i hi := by rw [Function.update_of_ne (Fin.ne_of_val_ne hi.ne'), ha.fresh i hi]

end At

theorem poll_follows (hr : ∀ i, (rs i).Decodes Wait (ps i)) {limit : Nat} (hl : n < limit) (ctx : Ctx)
    {idx : Nat} {q : Parser (FieldError fun i => (rs i).Error) ((i : Fin n) → T i)}
    (h : Reads Wait ps (idx, slots) q) (b : B) :
    Follows Wait Drained (Reads Wait ps) (fun _ s v => Complete s v) q b (poll limit ctx idx slots b) := by
  obtain ⟨h, vs, p, ha, rfl⟩ | ⟨v, hc, rfl⟩ := h
  case inr =>
    unfold poll
    rw [dif_neg hc.1.not_lt]
    exact .ready hc
  obtain ⟨k, hk⟩ : ∃ k, idx + (k + 1) = n := ⟨n - idx - 1, by simp only at h; omega⟩
  induction k generalizing idx slots b
  all_goals
    unfold poll
    rw [dif_pos h]
    apply (OptionDeserialize.poll_follows ha.underway ctx b).andThen
    · exact fun slot q hs => .inl ⟨h, vs, q, ha.update hs, rfl⟩
    rintro ⟨⟩ slot b' v rfl
    rw [if_pos (by omega)]
  case inl.zero =>
    unfold poll fieldsParserFrom
    rw [dif_neg (by omega), dif_neg (by omega)]
    exact .ready ⟨hk, fun i => ha.update_done v i _⟩
  case inl.succ k hi =>
    have h' : idx + 1 < n := by omega
    unfold fieldsParserFrom
    rw [dif_pos h']
    exact hi b' h' _ _ (ha.next hr v h') (by omega)

end Slots

namespace Sers

variable {ws : (i : Fin n) → MinCodecWrite Ctx B (T i)}

theorem poll_index {first limit : Nat} {ctx : Ctx} {k : Nat} {sers : Sers ws} {b : B} (hk : k ≤ n)
    (h : (poll first limit ctx k sers b).outcome = .ready (.ok ())) :
    (poll first limit ctx k sers b).state.1 = first + n := by
  obtain ⟨j, hj⟩ := Nat.exists_eq_add_of_le hk
  induction j generalizing k sers b
  case zero =>
    unfold poll
    rw [dif_neg (by omega)]
    simp only
    omega
  case succ j hi =>
    unfold poll at h ⊢
    rw [dif_pos (by omega)] at h ⊢
    have ⟨_, _, hx⟩ := Polled.andThen_ready h
    rw [hx] at h ⊢
    split at h
    case isTrue hl =>
      rw [if_pos hl]
      exact hi (by omega) h (by omega)
    case isFalse => simp at h

variable [BitSink B]
variable {encs : (i : Fin n) → T i → Emission (ws i).Error} {v : (i : Fin n) → T i}
variable {Stop : B → Prop}

def WritesOf (Stop : B → Prop) (encs : (i : Fin n) → T i → Emission (ws i).Error)
    (v : (i : Fin n) → T i) (first : Nat) (s : Nat × Sers ws)
    (e : Emission (FieldError fun i => (ws i).Error)) : Prop :=
  ∃ k, s.1 = first + k ∧ (∀ i : Fin n, k < i.val → s.2 i = (ws i).serialize (v i)) ∧
    if h : k < n then
      ∃ f, Encodes Stop (ws ⟨k, h⟩).pollSerialize (s.2 ⟨k, h⟩) f ∧
        e = (f.mapErr (⟨⟨k, h⟩, ·⟩)).seq (fieldsEmissionFrom encs v (k + 1))
    else
      k = n ∧ e = .done []

theorem WritesOf.index_le {first : Nat} {s : Nat × Sers ws}
    {e : Emission (FieldError fun i => (ws i).Error)} (h : WritesOf Stop encs v first s e) :
    s.1 ≤ first + n := by
  have ⟨k, hk, _, h⟩ := h
  split at h
  case isTrue h'  => omega
  case isFalse h' => have := h.1; omega

theorem writesOf_of_fresh
    (hw : ∀ i, Encodes Stop (ws i).pollSerialize ((ws i).serialize (v i)) (encs i (v i)))
    {first k : Nat} (hk : k ≤ n) {sers : Sers ws}
    (hs : ∀ i : Fin n, k ≤ i.val → sers i = (ws i).serialize (v i)) :
    WritesOf Stop encs v first (first + k, sers) (fieldsEmissionFrom encs v k) := by
  refine ⟨k, rfl, fun i hi => hs i hi.le, ?_⟩
  rw [fieldsEmissionFrom]
  split
  case isTrue h  =>
    have := hw ⟨k, h⟩
    rw [← hs ⟨k, h⟩ k.le_refl] at this
    exact ⟨_, this, rfl⟩
  case isFalse h => exact ⟨by omega, rfl⟩

theorem poll_writes
    (hw : ∀ i, Encodes Stop (ws i).pollSerialize ((ws i).serialize (v i)) (encs i (v i)))
    {first limit : Nat} (hl : first + n < limit) (ctx : Ctx) {k : Nat} {sers : Sers ws}
    {e : Emission (FieldError fun i => (ws i).Error)}
    (h : WritesOf Stop encs v first (first + k, sers) e) (b : B) :
    Writes Stop (WritesOf Stop encs v first) e b (poll first limit ctx k sers b) := by
  obtain ⟨j, hj⟩ : ∃ j, k + j = n := by
    have : first + k ≤ first + n := WritesOf.index_le h
    exact ⟨n - k, by omega⟩
  induction j generalizing k sers b e
  all_goals
    obtain ⟨_, hk, hs, h⟩ := h
    obtain rfl := Nat.add_left_cancel hk
    unfold poll
  case zero =>
    rw [dif_neg (by omega)] at h ⊢
    obtain ⟨_, rfl⟩ := h
    exact .ready
  case succ j hi =>
    have h' : k < n := by omega
    rw [dif_pos h'] at h ⊢
    obtain ⟨f, hf, rfl⟩ := h
    apply (hf.writes ctx b).andThen
    · intro ser g hg
      refine ⟨k, rfl, fun i hi =>
        (Function.update_of_ne (Fin.ne_of_val_ne hi.ne') _ _).trans (hs i hi), ?_⟩
      rw [dif_pos h']
      exact ⟨g, by simpa using hg, rfl⟩
    intro ser b'
    rw [if_pos (by omega)]
    apply hi (writesOf_of_fresh hw h' _) b' (by omega)
    intro i hi
    rw [Function.update_of_ne (Fin.ne_of_val_ne (by simp only; omega))]
    exact hs i (by omega)

theorem poll_writesOnce {encs : (i : Fin n) → T i → List Bool}
    (hw : ∀ i, (ws i).EncodesOnce (encs i)) {first limit : Nat} (hl : first + n < limit)
    (ctx : Ctx) {k : Nat} {sers : Sers ws}
    (hs : ∀ i : Fin n, k ≤ i.val → sers i = (ws i).serialize (v i)) (b : B) :
    WritesOnce (fieldsBitsFrom encs v k) b (poll first limit ctx k sers b) := by
  fun_induction fieldsBitsFrom encs v k generalizing sers b
  case case2 k h =>
    unfold poll
    rw [dif_neg h]
    exact .ready
  case case1 k h hi =>
    unfold poll
    rw [dif_pos h, hs _ k.le_refl]
    apply (hw _ _ ctx b).andThen
    intro ser b'
    rw [if_pos (by omega)]
    apply hi
    intro i hi
    rw [Function.update_of_ne (Fin.ne_of_val_ne (by simp only; omega)), hs i (by omega)]

end Sers

end Mincodec
