import Mincodec.Format
import Mincodec.Slice
import Mincodec.Stream.Finished

-- Deserializers that are polled again after they have returned a value.
namespace Mincodec

open Stream BitSource

variable {Ctx B T U : Type} {r : MinCodecRead Ctx B T} {r' : MinCodecRead Ctx B U}

def MinCodecRead.Returned (r : MinCodecRead Ctx B T) (v : T) (s : r.Deserialize) : Prop :=
  Stream.Returned r.pollDeserialize r.deserialize (.ok v) s

section

variable [BitBuf B]

theorem StringDeserialize.poll_leaves (this : StringDeserialize B) (b : B) :
    (this.pollDeserialize b).Leaves fun _ s => s.state = .complete := by
  have reading (this : StringDeserialize B) (b : B) :
      (this.pollReading b).Leaves fun _ s => s.state = .complete :=
    .andThen fun _ _ _ => .of_ready fun _ => rfl
  obtain ⟨_ | _ | _, vlq, data⟩ := this
  case complete => exact .panicked
  case reading  => exact reading _ b
  case vlq      =>
    unfold pollDeserialize
    apply Polled.Leaves.andThen
    intro len vlq b
    simp only [usizeTryFrom]
    split
    case isTrue  => exact reading _ b
    case isFalse => exact .panicked

theorem stringRead_stuck {v : Str} {s : StringDeserialize B}
    (h : (stringRead : MinCodecRead Ctx B Str).Returned v s) :
    Stuck (stringRead : MinCodecRead Ctx B Str).pollDeserialize s := by
  have hs := h.leaves fun _ s b => s.poll_leaves b
  obtain ⟨state, vlq, data⟩ := s
  obtain rfl := hs
  exact fun c b => ⟨_, rfl⟩

theorem VecDeserialize.pollReading_leaves {size : Nat} (ctx : Ctx) (this : VecDeserialize r size)
    (hr : this.state = .reading) (b : B) :
    (this.pollReading ctx hr b).Leaves fun _ s => s.state = .complete := by
  obtain ⟨k, hk⟩ : ∃ k, this.len.toNat ≤ this.data.length + k := ⟨this.len.toNat, by omega⟩
  induction k generalizing this b
  all_goals unfold pollReading
  case zero =>
    rw [dif_pos (Nat.le_antisymm this.fits hk)]
    exact .ready rfl
  case succ k hi =>
    split
    case isTrue  => exact .ready rfl
    case isFalse =>
      apply Polled.Leaves.andThen
      intro item _ b
      exact hi _ _ b (by simp; omega)

theorem VecDeserialize.poll_leaves {size : Nat} (ctx : Ctx) (this : VecDeserialize r size) (b : B) :
    (this.pollDeserialize ctx b).Leaves fun _ s => s.state = .complete := by
  obtain ⟨_ | _ | _, vlq, len, deser, data, fits, holds, fresh⟩ := this
  case complete => exact .panicked
  case reading  => exact pollReading_leaves ctx _ rfl b
  case vlq      =>
    unfold pollDeserialize
    apply Polled.Leaves.andThen
    intro len vlq b
    simp only [usizeTryFrom]
    split
    case isTrue  => exact pollReading_leaves ctx _ rfl b
    case isFalse => exact .panicked

theorem vecRead_stuck {size : Nat} {v : Vec T size} {s : VecDeserialize r size}
    (h : (vecRead r size).Returned v s) : Stuck (vecRead r size).pollDeserialize s := by
  have hs := h.leaves VecDeserialize.poll_leaves
  obtain ⟨state, vlq, len, deser, data, fits, holds, fresh⟩ := s
  obtain rfl := hs
  exact fun c b => ⟨_, rfl⟩

theorem Optional.OptionDeserialize.poll_leaves (ctx : Ctx) (this : OptionDeserialize r) (b : B) :
    (this.pollDeserialize ctx b).Leaves fun _ s => s.state = .complete := by
  have reading (this : OptionDeserialize r) (b : B) :
      (this.pollReading ctx b).Leaves fun _ s => s.state = .complete :=
    .andThen fun _ _ _ => .ready rfl
  obtain ⟨deser, _ | _ | _⟩ := this
  case complete  => exact .panicked
  case reading   => exact reading _ b
  case predicate =>
    unfold pollDeserialize
    apply Polled.Leaves.andThen
    intro isSome _ b
    cases isSome
    case false => exact .ready rfl
    case true  => exact reading _ b

theorem optionRead_stuck {v : Option T} {s : Optional.OptionDeserialize r}
    (h : (Optional.optionRead r).Returned v s) : Stuck (Optional.optionRead r).pollDeserialize s := by
  have hs := h.leaves Optional.OptionDeserialize.poll_leaves
  obtain ⟨deser, state⟩ := s
  obtain rfl := hs
  exact fun c b => ⟨_, rfl⟩

theorem ResultDeserialize.poll_leaves (ctx : Ctx) (this : ResultDeserialize r r') (b : B) :
    (this.pollDeserialize ctx b).Leaves fun _ s => s.state = .complete := by
  have readingT (this : ResultDeserialize r r') (b : B) :
      (this.pollT ctx b).Leaves fun _ s => s.state = .complete :=
    .andThen fun _ _ _ => .ready rfl
  have readingU (this : ResultDeserialize r r') (b : B) :
      (this.pollU ctx b).Leaves fun _ s => s.state = .complete :=
    .andThen fun _ _ _ => .ready rfl
  obtain ⟨deserU, deserT, _ | _ | _ | _⟩ := this
  case complete  => exact .panicked
  case readingT  => exact readingT _ b
  case readingU  => exact readingU _ b
  case predicate =>
    unfold pollDeserialize
    apply Polled.Leaves.andThen
    intro isT _ b
    cases isT
    case false => exact readingU _ b
    case true  => exact readingT _ b

theorem resultRead_stuck {v : Except U T} {s : ResultDeserialize r r'}
    (h : (resultRead r r').Returned v s) : Stuck (resultRead r r').pollDeserialize s := by
  have hs := h.leaves ResultDeserialize.poll_leaves
  obtain ⟨deserU, deserT, state⟩ := s
  obtain rfl := hs
  exact fun c b => ⟨_, rfl⟩

end

namespace Slots

variable {n : Nat} {T : Fin n → Type} {rs : (i : Fin n) → MinCodecRead Ctx B (T i)} {slots : Slots rs}

theorem poll_ready {limit idx : Nat} (h : ¬idx < n) (ctx : Ctx) (b : B) :
    slots.poll limit ctx idx b = ⟨.ready (.ok ()), (idx, slots), b⟩ := by
  rw [poll, dif_neg h]

theorem poll_leaves (limit idx : Nat) (ctx : Ctx) (b : B) :
    (slots.poll limit ctx idx b).Leaves fun _ s => ¬s.1 < n := by
  obtain ⟨k, hk⟩ : ∃ k, n ≤ idx + k := ⟨n, by omega⟩
  induction k generalizing idx slots b
  case zero =>
    have h : ¬idx < n := by omega
    rw [poll_ready h]
    exact .ready h
  case succ k hi =>
    by_cases h : idx < n
    case neg =>
      rw [poll_ready h]
      exact .ready h
    case pos =>
      rw [poll, dif_pos h]
      apply Polled.Leaves.andThen
      intro _ slot b
      split
      case isTrue  => exact hi _ b (by omega)
      case isFalse => exact .panicked

def Emptied (slots : Slots rs) : Prop :=
  ∀ i, (slots i).take = (none, slots i)

theorem take_emptied (slots : Slots rs) : slots.take.Emptied := by
  intro i
  unfold take
  cases slots i <;> rfl

namespace Emptied

theorem take_eq (h : slots.Emptied) : slots.take = slots := by
  funext i
  unfold take
  rw [h i]

theorem unwrap_eq (h : slots.Emptied) (hn : 0 < n) : slots.unwrap = none := by
  unfold unwrap
  rw [dif_neg]
  intro hs
  have := hs ⟨0, hn⟩
  rw [h ⟨0, hn⟩] at this
  cases this

end Emptied

end Slots

section

variable {n : Nat} {T : Fin n → Type} {rs : (i : Fin n) → MinCodecRead Ctx B (T i)}

theorem TupleDeserialize.poll_leaves (ctx : Ctx) (this : TupleDeserialize rs) (b : B) :
    (this.pollDeserialize ctx b).Leaves fun _ s => s.index = n + 1 := by
  unfold pollDeserialize
  apply Polled.Leaves.andThen
  intro _ s b
  split
  case isFalse => exact .panicked
  case isTrue  =>
    split
    case h_1 => exact .ready rfl
    case h_2 => exact .panicked

theorem tupleRead_stuck {v : (i : Fin n) → T i} {s : TupleDeserialize rs}
    (h : (tupleRead rs).Returned v s) : Stuck (tupleRead rs).pollDeserialize s := by
  have hs := h.leaves TupleDeserialize.poll_leaves
  obtain ⟨idx, slots⟩ := s
  obtain rfl := hs
  intro c b
  refine ⟨"tuple serialize polled after completion", ?_⟩
  show TupleDeserialize.pollDeserialize c ⟨n + 1, slots⟩ b = _
  unfold TupleDeserialize.pollDeserialize
  rw [Slots.poll_ready (by simp), Polled.andThen_ok rfl, if_neg (by simp)]
  rfl

end

namespace DeriveDeserialize

variable [BitBuf B] {S : Shape} {rs : S.Reads Ctx B}

def Finished (v : S.Value) (this : DeriveDeserialize rs) : Prop :=
  ∃ idx slots, this = .variant v.variant idx slots ∧ ¬idx < S.arity v.variant ∧ slots.Emptied

theorem pollVariant_leaves (ctx : Ctx) (i : Fin S.variants) (idx : Nat) (slots : Slots (rs i)) (b : B) :
    (pollVariant ctx i idx slots b).Leaves Finished := by
  intro v ho
  obtain ⟨_, hx, hk⟩ := Polled.andThen_ready ho
  have hl := Slots.poll_leaves _ _ ctx b _ hx
  change pollVariant ctx i idx slots b = _ at hk
  rw [hk] at ho ⊢
  split at ho
  case h_2 => cases ho
  case h_1 =>
    cases ho
    exact ⟨_, _, rfl, hl, Slots.take_emptied _⟩

theorem poll_leaves (ctx : Ctx) (this : DeriveDeserialize rs) (b : B) :
    (pollDeserialize ctx this b).Leaves Finished := by
  obtain (_ | d) | ⟨i, idx, slots⟩ := this
  case determinant.none => exact .panicked
  case variant          => exact pollVariant_leaves ctx i idx slots b
  case determinant.some =>
    unfold pollDeserialize
    apply Polled.Leaves.andThen
    intro bytes _ b
    unfold pollChosen
    split
    case isTrue  => exact pollVariant_leaves ctx _ 0 _ b
    case isFalse => exact .panicked

namespace Finished

variable {v : S.Value} {this : DeriveDeserialize rs}

theorem stuck (h : this.Finished v) (ha : 0 < S.arity v.variant) : Stuck pollDeserialize this := by
  obtain ⟨idx, slots, rfl, hi, hs⟩ := h
  intro c b
  refine ⟨unwrapNone, ?_⟩
  show pollVariant c v.variant idx slots b = _
  unfold pollVariant
  rw [Slots.poll_ready hi, Polled.andThen_ok rfl]
  simp only [hs.unwrap_eq ha, hs.take_eq]

theorem poll_eq (h : this.Finished v) (ha : S.arity v.variant = 0) (c : Ctx) (b : B) :
    pollDeserialize c this b = ⟨.ready (.ok v), this, b⟩ := by
  obtain ⟨idx, slots, rfl, hi, hs⟩ := h
  obtain ⟨i, fields⟩ := v
  have he (j : Fin (S.arity i)) : False := by
    have := j.isLt
    simp only at ha
    omega
  have hu : slots.unwrap = some fields := by
    unfold Slots.unwrap
    rw [dif_pos fun j => (he j).elim]
    congr 1
    funext j
    exact (he j).elim
  show pollVariant c i idx slots b = _
  unfold pollVariant
  rw [Slots.poll_ready hi, Polled.andThen_ok rfl]
  simp only [hu, hs.take_eq]

end Finished

end DeriveDeserialize

structure MinCodecRead.Hungry [BitSource B] (r : MinCodecRead Ctx B T) : Prop where
  exists_decodes : ∃ p, r.Decodes False p
  rereads        : Rereads r.pollDeserialize r.deserialize

section

variable [BitSource B]

theorem MinCodecRead.hungry_of_not_halts {p : Parser r.Error T} (hp : r.Decodes False p)
    (h : ∀ e, ¬p.Halts [] e) : r.Hungry := by
  refine ⟨⟨p, hp⟩, fun c b hb => ?_⟩
  have hf := Decodes.follows hp c b
  by_cases ho : (r.pollDeserialize c r.deserialize b).outcome = .insufficient
  case pos =>
    obtain ⟨w, hw, hx⟩ := hf
    rw [ho] at hx
    have hu := hw.unread_eq
    rw [show unread _ = [] from hx.1, List.append_nil] at hu
    rw [hw.taken_eq, ← hu]
    have := List.length_pos_of_ne_nil hb
    omega
  case neg =>
    obtain ⟨w, e, hw, hh⟩ := hf.exists_halts ho
    rw [hw.taken_eq]
    have : w ≠ [] := by
      rintro rfl
      exact h e hh
    have := List.length_pos_of_ne_nil this
    omega

end

namespace ArrayDeserialize

variable {n : Nat}

def Underway (this : ArrayDeserialize r n) : Prop :=
  Reaches r.pollDeserialize r.deserialize this.deser

structure Finished (v : List.Vector T n) (this : ArrayDeserialize r n) : Prop where
  data_eq : this.data = []
  last    : ∃ data t, v.val = data ++ [t] ∧ r.Returned t this.deser

theorem pollItem_underway (ctx : Ctx) (this : ArrayDeserialize r n) (h : this.data.length < n) (b : B)
    (hu : this.Underway) : ((this.pollItem ctx h b).outcome.Unfinished →
      (this.pollItem ctx h b).state.Underway) ∧ (this.pollItem ctx h b).Leaves Finished := by
  obtain ⟨k, hk⟩ : ∃ k, n ≤ this.data.length + k := ⟨n, by omega⟩
  induction k generalizing this b
  case zero => omega
  case succ k hi =>
    unfold pollItem
    cases hx : (r.pollDeserialize ctx this.deser b).outcome
    case pending =>
      rw [Polled.andThen_pending hx]
      exact ⟨fun _ => hu.poll (hx ▸ .inl rfl), fun _ => nofun⟩
    case insufficient =>
      rw [Polled.andThen_insufficient hx]
      exact ⟨fun _ => hu.poll (hx ▸ .inr rfl), fun _ => nofun⟩
    case panicked m =>
      rw [Polled.andThen_panicked hx]
      exact ⟨by simp, fun _ => nofun⟩
    case ready a =>
      cases a
      case error e =>
        rw [Polled.andThen_error hx]
        exact ⟨by simp, fun _ => nofun⟩
      case ok item =>
        rw [Polled.andThen_ok hx]
        split
        case isTrue h' => exact hi _ _ _ .refl (by simp; omega)
        case isFalse h' =>
          refine ⟨by simp, .ready ⟨rfl, this.data, item, rfl, ?_⟩⟩
          exact ⟨this.deser, ctx, b, hu, hx, rfl⟩

theorem poll_eq (ctx : Ctx) (this : ArrayDeserialize r n) (h : this.data.length < n) (b : B) :
    this.pollDeserialize ctx b = this.pollItem ctx h b :=
  dif_pos h

theorem poll_underway (ctx : Ctx) (this : ArrayDeserialize r n) (b : B) (hu : this.Underway) :
    ((this.pollDeserialize ctx b).outcome.Unfinished → (this.pollDeserialize ctx b).state.Underway) ∧
      (this.pollDeserialize ctx b).Leaves Finished := by
  by_cases h : this.data.length < n
  case pos =>
    rw [poll_eq ctx this h]
    exact pollItem_underway ctx this h b hu
  case neg =>
    unfold pollDeserialize
    rw [dif_neg h]
    exact ⟨by simp, .panicked⟩

theorem returned_finished {v : List.Vector T n} {s : ArrayDeserialize r n}
    (h : (arrayRead r n).Returned v s) : Finished v s := by
  obtain ⟨t, c, b, ht, ho, rfl⟩ := h
  have hu : Underway t := ht.preserves .refl fun c t b hu => (poll_underway c t b hu).1
  exact (poll_underway c t b hu).2 v ho

theorem Finished.lt {v : List.Vector T n} {this : ArrayDeserialize r n} (h : Finished v this) :
    this.data.length < n := by
  obtain ⟨hd, data, t, hv, _⟩ := h
  have hl := congrArg List.length hv
  rw [v.property, List.length_append] at hl
  rw [hd, hl]
  exact Nat.succ_pos _

theorem eq_single {v : List.Vector T 1} {data : List T} {t : T} (h : v.val = data ++ [t]) :
    v = ⟨[t], rfl⟩ := by
  have hl := congrArg List.length h
  rw [v.property] at hl
  cases data
  case nil  => exact Subtype.ext h
  case cons => simp at hl

theorem poll_single (ctx : Ctx) {deser deser' : r.Deserialize} {fits : [].length ≤ 1} {b b' : B} {t : T}
    (hx : r.pollDeserialize ctx deser b = ⟨.ready (.ok t), deser', b'⟩) :
    (arrayRead r 1).pollDeserialize ctx ⟨[], deser, fits⟩ b =
      ⟨.ready (.ok ⟨[t], rfl⟩), ⟨[], deser', fits⟩, b'⟩ := by
  refine (poll_eq ctx ⟨[], deser, fits⟩ Nat.one_pos b).trans ?_
  rw [pollItem, hx, Polled.andThen_ok rfl, dif_neg (by simp)]
  rfl

section

variable [BitSource B] {p : Parser r.Error T}

theorem taken_le_pollItem (hp : r.Decodes False p) (ctx : Ctx) (this : ArrayDeserialize r n)
    (h : this.data.length < n) (b : B) :
    taken (r.pollDeserialize ctx this.deser b).buf ≤ taken (this.pollItem ctx h b).buf := by
  unfold pollItem
  cases hx : (r.pollDeserialize ctx this.deser b).outcome
  case pending      => rw [Polled.andThen_pending hx]
  case insufficient => rw [Polled.andThen_insufficient hx]
  case panicked m   => rw [Polled.andThen_panicked hx]
  case ready a      =>
    cases a
    case error e => rw [Polled.andThen_error hx]
    case ok item =>
      rw [Polled.andThen_ok hx]
      split
      case isFalse   => exact le_refl _
      case isTrue h' =>
        have hk : (this.data ++ [item]).length + (n - this.data.length - 2 + 1) = n := by
          simp
          omega
        obtain ⟨w, hw, _⟩ := pollItem_follows hp ctx ⟨this.data ++ [item], r.deserialize, _⟩ _
          (r.pollDeserialize ctx this.deser b).buf ⟨p, _, hk, hp, rfl⟩
        rw [hw.taken_eq]
        omega

theorem taken_le_next (hp : r.Decodes False p) (ctx : Ctx) {this : ArrayDeserialize r n}
    (h : this.data.length < n) {b b' : B} {t : T} {deser : r.Deserialize}
    (hx : r.pollDeserialize ctx this.deser b = ⟨.ready (.ok t), deser, b'⟩)
    (h' : this.data.length + 1 < n) :
    taken (r.pollDeserialize ctx r.deserialize b').buf ≤ taken (this.pollItem ctx h b).buf := by
  unfold pollItem
  rw [hx, Polled.andThen_ok rfl, dif_pos h']
  exact taken_le_pollItem hp ctx ⟨this.data ++ [t], r.deserialize, _⟩ _ b'

end

end ArrayDeserialize

theorem boxRead_wraps (r : MinCodecRead Ctx B T) :
    Wraps r.pollDeserialize (boxRead r).pollDeserialize id .ok :=
  ⟨id, fun _ _ _ => rfl⟩

theorem mapRead_wraps {E : Type} (r : MinCodecRead Ctx B T) (map : T → Except E U) :
    Wraps r.pollDeserialize (mapRead r map).pollDeserialize (MapDeserialize.mk map)
      fun item => (map item).mapError .map :=
  ⟨.deserialize, fun _ _ _ => rfl⟩

theorem mapError_ok {E E' : Type} {x : Except E T} {g : E → E'} {v : T} (h : x.mapError g = .ok v) :
    x = .ok v := by
  cases x
  case error e => cases h
  case ok u    =>
    cases h
    rfl

theorem unitRead_returned {unit v : T} {s : Unit}
    (h : (unitRead unit : MinCodecRead Ctx B T).Returned v s) : v = unit :=
  h.leaves (P := fun v _ => v = unit) fun _ _ _ => .ready rfl

theorem boxRead_returned {v : T} {s : r.Deserialize} (h : (boxRead r).Returned v s) : r.Returned v s := by
  obtain ⟨_, _, rfl, h, hv⟩ := (boxRead_wraps r).returned h
  cases hv
  exact h

theorem mapRead_returned {E : Type} {map : T → Except E U} {v : U} {s : MapDeserialize r U E}
    (h : (mapRead r map).Returned v s) : s.map = map ∧ ∃ t, r.Returned t s.deser ∧ map t = .ok v := by
  obtain ⟨t, _, rfl, h, hv⟩ := (mapRead_wraps r map).returned h
  exact ⟨rfl, t, h, mapError_ok hv⟩

section

variable [BitBuf B]

-- A deserializer that returns the value again that it has returned: that of a type with one value, of
-- a variant without fields, of an array with one such item.
inductive Repeats : {T : Type} → (r : MinCodecRead Ctx B T) → r.Deserialize → Prop
  | unit {T : Type} (unit : T) (s : Unit) : Repeats (unitRead unit) s
  | derive {S : Shape} {rs : S.Reads Ctx B} {h : 0 < S.variants} {i : Fin S.variants} {idx : Nat}
    {slots : Slots (rs i)} : S.arity i = 0 → Repeats (deriveRead rs h) (.variant i idx slots)
  | box {T : Type} {r : MinCodecRead Ctx B T} {s : r.Deserialize} : Repeats r s → Repeats (boxRead r) s
  | map {T U E : Type} {r : MinCodecRead Ctx B T} {map : T → Except E U} {s : r.Deserialize} :
    Repeats r s → Repeats (mapRead r map) ⟨map, s⟩
  | array {T : Type} {r : MinCodecRead Ctx B T} {s : ArrayDeserialize r 1} : Repeats r s.deser →
    Repeats (arrayRead r 1) s

theorem Repeats.poll_eq {s : r.Deserialize} (h : Repeats r s) {v : T} (hs : r.Returned v s) (c : Ctx)
    (b : B) : r.pollDeserialize c s b = ⟨.ready (.ok v), s, b⟩ := by
  induction h generalizing b
  case unit =>
    obtain rfl := unitRead_returned hs
    rfl
  case derive ha =>
    have hf := hs.leaves DeriveDeserialize.poll_leaves
    refine hf.poll_eq ?_ c b
    obtain ⟨_, _, he, _⟩ := hf
    cases he
    exact ha
  case box hi => exact (boxRead_wraps _).poll_ok (hi (boxRead_returned hs) b)
  case map hi =>
    obtain ⟨_, t, hs, hv⟩ := mapRead_returned hs
    rw [(mapRead_wraps _ _).poll_ok (hi hs b), hv]
    rfl
  case array r s _ hi =>
    obtain ⟨hd, data, t, hv, ht⟩ := ArrayDeserialize.returned_finished hs
    obtain rfl := ArrayDeserialize.eq_single hv
    obtain ⟨_, deser, fits⟩ := s
    obtain rfl := hd
    exact ArrayDeserialize.poll_single c (hi ht b)

variable [LawfulBitBuf B]

-- A deserializer that reads on after it has returned a value: that of a `bool`, and that of an array
-- whose last item has such a deserializer, or one that returns the item again, so that the array goes
-- on with a new one.
inductive Reruns : {T : Type} → (r : MinCodecRead Ctx B T) → r.Deserialize → Prop
  | bool (s : Unit) : Reruns boolRead s
  | box {T : Type} {r : MinCodecRead Ctx B T} {s : r.Deserialize} : Reruns r s → Reruns (boxRead r) s
  | map {T U E : Type} {r : MinCodecRead Ctx B T} {map : T → Except E U} {s : r.Deserialize} :
    Reruns r s → Reruns (mapRead r map) ⟨map, s⟩
  | item {T : Type} {r : MinCodecRead Ctx B T} {n : Nat} {s : ArrayDeserialize r n} : r.Hungry →
    Reruns r s.deser → Reruns (arrayRead r n) s
  | next {T : Type} {r : MinCodecRead Ctx B T} {n : Nat} {s : ArrayDeserialize r n} : r.Hungry →
    1 < n → Repeats r s.deser → Reruns (arrayRead r n) s

theorem boolRead_hungry : (boolRead : MinCodecRead Ctx B Bool).Hungry :=
  MinCodecRead.hungry_of_not_halts boolRead_decodes fun _ h => nomatch h []

theorem Reruns.rereads {s : r.Deserialize} (h : Reruns r s) {v : T} (hs : r.Returned v s) :
    Rereads r.pollDeserialize s := by
  induction h
  case bool     => exact boolRead_hungry.rereads
  case box hi   => exact (boxRead_wraps _).rereads_iff.mpr (hi (boxRead_returned hs))
  case map hi   =>
    obtain ⟨_, t, hs, _⟩ := mapRead_returned hs
    exact (mapRead_wraps _ _).rereads_iff.mpr (hi hs)
  case item hr _ hi =>
    have hf := ArrayDeserialize.returned_finished hs
    obtain ⟨data, t, _, ht⟩ := hf.last
    obtain ⟨p, hp⟩ := hr.exists_decodes
    intro c b hb
    rw [show (arrayRead _ _).pollDeserialize c _ b = _ from ArrayDeserialize.poll_eq c _ hf.lt b]
    exact (hi ht c b hb).trans_le (ArrayDeserialize.taken_le_pollItem hp c _ hf.lt b)
  case next hr hn h =>
    have hf := ArrayDeserialize.returned_finished hs
    obtain ⟨data, t, _, ht⟩ := hf.last
    obtain ⟨p, hp⟩ := hr.exists_decodes
    intro c b hb
    rw [show (arrayRead _ _).pollDeserialize c _ b = _ from ArrayDeserialize.poll_eq c _ hf.lt b]
    exact (hr.rereads c b hb).trans_le (ArrayDeserialize.taken_le_next hp c hf.lt
      (h.poll_eq ht c b) (by rw [hf.data_eq]; exact hn))

-- What every deserializer of a type of the format does once it has returned a value.
structure MinCodecRead.Settles (r : MinCodecRead Ctx B T) : Prop where
  exists_decodes : ∃ p, r.Decodes False p
  cases_returned : ∀ {v s}, r.Returned v s → Stuck r.pollDeserialize s ∨
    Again r.pollDeserialize v s ∧ (r.Hungry → Repeats r s) ∨ Reruns r s
  of_not_hungry  : ¬r.Hungry → ∀ {v s}, r.Returned v s →
    Stuck r.pollDeserialize s ∨ Again r.pollDeserialize v s

namespace MinCodecRead.Settles

theorem of_stuck (hp : ∃ p, r.Decodes False p)
    (h : ∀ {v s}, r.Returned v s → Stuck r.pollDeserialize s) : r.Settles where
  exists_decodes         := hp
  cases_returned hs      := .inl (h hs)
  of_not_hungry _ _ _ hs := .inl (h hs)

theorem of_repeats (hp : ∃ p, r.Decodes False p) (h : ∀ {v s}, r.Returned v s →
    Stuck r.pollDeserialize s ∨ Repeats r s) : r.Settles where
  exists_decodes         := hp
  cases_returned hs      := (h hs).imp_right fun h => .inl ⟨.of_eq (h.poll_eq hs), fun _ => h⟩
  of_not_hungry _ _ _ hs := (h hs).imp_right fun h => .of_eq (h.poll_eq hs)

theorem wraps {r' : MinCodecRead Ctx B U} {put : r.Deserialize → r'.Deserialize}
    {f : T → Except r'.Error U} (h : r.Settles) (hp : ∃ p, r'.Decodes False p)
    (hw : Wraps r.pollDeserialize r'.pollDeserialize put f) (hd : r'.deserialize = put r.deserialize)
    (repeats : ∀ {s}, Repeats r s → Repeats r' (put s))
    (reruns : ∀ {s}, Reruns r s → Reruns r' (put s)) : r'.Settles := by
  have hungry : r'.Hungry ↔ r.Hungry :=
    ⟨fun hr => ⟨h.exists_decodes, hw.rereads_iff.mp (hd ▸ hr.rereads)⟩,
      fun hr => ⟨hp, hd ▸ hw.rereads_iff.mpr hr.rereads⟩⟩
  refine ⟨hp, fun hs => ?_, fun hn _ _ hs => ?_⟩
  all_goals
    unfold Returned at hs
    rw [hd] at hs
    obtain ⟨t, s, rfl, hs, hv⟩ := hw.returned hs
  case refine_1 =>
    obtain hs | ⟨ha, hr⟩ | hs := h.cases_returned hs
    · exact .inl (hw.stuck hs)
    · exact .inr (.inl ⟨hw.again ha hv, fun hh => repeats (hr (hungry.mp hh))⟩)
    · exact .inr (.inr (reruns hs))
  case refine_2 =>
    exact (h.of_not_hungry (hungry.not.mp hn) hs).imp hw.stuck fun ha => hw.again ha hv

end MinCodecRead.Settles

theorem eq_pure {ε α : Type} {p : Parser ε α} {a : α} (h : p.Halts [] (.finished (.ok a))) :
    p = .pure a :=
  funext h

theorem replicate_pure {ε α : Type} (a : α) (n : Nat) :
    (.pure a : Parser ε α).replicate n = .pure (.replicate n a) := by
  induction n
  case zero      => rfl
  case succ n hi =>
    rw [Parser.replicate_succ, hi]
    rfl

omit [BitBuf B] [LawfulBitBuf B] in
theorem eq_of_pure_halts {ε α : Type} {a a' : α} {w : List Bool}
    (h : (.pure a : Parser ε α).Halts w (.finished (.ok a'))) : a = a' := by
  have := h []
  simp only [Parser.pure, Verdict.halt.injEq, Ending.finished.injEq, Except.ok.injEq] at this
  exact this.1

namespace ArrayDeserialize

variable {n : Nat}

omit [BitBuf B] [LawfulBitBuf B] in
theorem stuck {this : ArrayDeserialize r n} (h : this.data.length < n)
    (hs : Stuck r.pollDeserialize this.deser) : Stuck (arrayRead r n).pollDeserialize this := by
  intro c b
  obtain ⟨m, hx⟩ := hs c b
  refine ⟨m, (poll_eq c this h b).trans ?_⟩
  rw [pollItem, hx, Polled.andThen_panicked rfl]
  rfl

omit [BitBuf B] [LawfulBitBuf B] in
theorem rest_pure (t : T) {k : Nat} (hk : [t].length + (k + 1) = n) :
    (rest (.pure t) (.pure t) [t] k hk : Parser r.Error _) = .pure (.replicate n t) := by
  obtain rfl : n = k + 1 + 1 := by simp at hk; omega
  unfold rest
  rw [replicate_pure]
  rfl

theorem again {t : T} (hp : r.Decodes False (.pure t))
    (hr : ∀ {s}, r.Returned t s → Stuck r.pollDeserialize s ∨ Again r.pollDeserialize t s)
    {this : ArrayDeserialize r n} (hn : 0 < n) (hd : this.data = [])
    (h : Again r.pollDeserialize t this.deser) :
    Again (arrayRead r n).pollDeserialize (.replicate n t) this := by
  refine ⟨fun s => s.data = [] ∧ Again r.pollDeserialize t s.deser, ⟨hd, h⟩, ?_⟩
  rintro c ⟨data, deser, fits⟩ b ⟨hd, h⟩
  obtain rfl : data = [] := hd
  obtain ⟨ha, hs⟩ := h.answers c b
  rw [show (arrayRead r n).pollDeserialize c _ b = _ from poll_eq c ⟨[], deser, fits⟩ hn b, pollItem,
    Polled.andThen_ok ha.outcome_eq]
  by_cases h' : 1 < n
  case neg =>
    obtain rfl : n = 1 := by omega
    rw [dif_neg (by simp)]
    exact ⟨⟨rfl, ha.consumes⟩, hs.imp (fun hs => ⟨rfl, hs⟩) (stuck hn)⟩
  case pos =>
    obtain ⟨k, rfl⟩ := Nat.exists_eq_add_of_lt h'
    rw [dif_pos (by simp)]
    simp only [List.nil_append]
    have hk : [t].length + (k + 1) = 1 + k + 1 := by simp; omega
    have hf := fun h => pollItem_follows hp c ⟨[t], r.deserialize, by simp⟩ h
      (r.pollDeserialize c deser b).buf ⟨.pure t, k, hk, hp, rfl⟩
    rw [rest_pure] at hf
    obtain ⟨ho, hc⟩ := (hf h').ends (Parser.pure_halts _) (List.nil_prefix) (hf h').ne_pending
    obtain ⟨hd, data, t', _, ht⟩ := (pollItem_underway c ⟨[t], r.deserialize, by simp⟩ h'
      (r.pollDeserialize c deser b).buf .refl).2 _ ho
    obtain ⟨w, hw⟩ := Decodes.returned hp ht
    obtain rfl := eq_of_pure_halts hw
    exact ⟨⟨ho, ha.consumes.trans hc⟩, (hr ht).symm.imp (fun hs => ⟨hd, hs⟩) (stuck (by rw [hd]; exact hn))⟩

end ArrayDeserialize

omit [BitBuf B] [LawfulBitBuf B] in
theorem MinCodecRead.decodes_pure [BitSource B] (hp : ∃ p, r.Decodes False p) (hr : ¬r.Hungry) {t : T}
    {s : r.Deserialize} (hs : r.Returned t s) : r.Decodes False (.pure t) := by
  obtain ⟨p, hp⟩ := hp
  obtain ⟨e, he⟩ : ∃ e, p.Halts [] e := by
    by_contra h
    exact hr (hungry_of_not_halts hp (not_exists.mp h))
  obtain ⟨w, hw⟩ := Decodes.returned hp hs
  obtain ⟨rfl, rfl⟩ := he.unique hw (List.nil_append w)
  rwa [← eq_pure he]

omit [BitBuf B] [LawfulBitBuf B] in
theorem MinCodecRead.not_hungry_of_pure [BitSource B] {U : Type} {r' : MinCodecRead Ctx B U} {v : U}
    (hp : ∃ p, r.Decodes False p) (hr : ¬r.Hungry) (hp' : r'.Decodes False (.pure v)) : ¬r'.Hungry := by
  intro hh
  apply hr
  refine ⟨hp, fun c b hb => ?_⟩
  have := hh.rereads c b hb
  rw [(hp'.ends c (Parser.pure_halts v) List.nil_prefix).2.taken_eq] at this
  exact absurd this (Nat.lt_irrefl _)

omit [BitBuf B] [LawfulBitBuf B] in
theorem arrayRead_hungry [BitSource B] {n : Nat} (h : r.Hungry) (hn : 0 < n) : (arrayRead r n).Hungry := by
  obtain ⟨p, hp⟩ := h.exists_decodes
  refine ⟨⟨_, arrayRead_decodes hp hn⟩, fun c b hb => ?_⟩
  change taken b < taken (ArrayDeserialize.pollDeserialize c ⟨[], r.deserialize, n.zero_le⟩ b).buf
  rw [ArrayDeserialize.poll_eq c _ hn b]
  exact (h.rereads c b hb).trans_le
    (ArrayDeserialize.taken_le_pollItem hp c ⟨[], r.deserialize, n.zero_le⟩ hn b)

structure ArrayDeserialize.Reopened {n : Nat} (this : ArrayDeserialize r n) : Prop where
  hungry : r.Hungry
  last   : Reruns r this.deser ∨ 1 < n ∧ Repeats r this.deser

theorem ArrayDeserialize.Reopened.reruns {n : Nat} {this : ArrayDeserialize r n}
    (h : this.Reopened) : Reruns (arrayRead r n) this := by
  obtain hr | ⟨hn, hr⟩ := h.last
  case inl => exact .item h.hungry hr
  case inr => exact .next h.hungry hn hr

section

variable {n : Nat} {v : List.Vector T n} {s : ArrayDeserialize r n}

theorem arrayRead_cases (h : r.Settles) (hn : 0 < n) (hs : (arrayRead r n).Returned v s) :
    Stuck (arrayRead r n).pollDeserialize s ∨
      Again (arrayRead r n).pollDeserialize v s ∧ Repeats (arrayRead r n) s ∨
      s.Reopened ∨ ¬r.Hungry := by
  by_cases hr : r.Hungry
  case neg => exact .inr (.inr (.inr hr))
  case pos =>
    have hf := ArrayDeserialize.returned_finished hs
    obtain ⟨data, t, _, ht⟩ := hf.last
    obtain h | ⟨_, h⟩ | h := h.cases_returned ht
    case inl     => exact .inl (ArrayDeserialize.stuck hf.lt h)
    case inr.inr => exact .inr (.inr (.inl ⟨hr, .inl h⟩))
    case inr.inl =>
      obtain rfl | hn := Nat.eq_or_lt_of_le (Nat.succ_le_of_lt hn)
      case inr => exact .inr (.inr (.inl ⟨hr, .inr ⟨hn, h hr⟩⟩))
      case inl =>
        have h := Repeats.array (h hr)
        exact .inr (.inl ⟨.of_eq (h.poll_eq hs), h⟩)

theorem arrayRead_cases_pure (h : r.Settles) (hr : ¬r.Hungry) (hn : 0 < n)
    (hs : (arrayRead r n).Returned v s) : ¬(arrayRead r n).Hungry ∧
      (Stuck (arrayRead r n).pollDeserialize s ∨ Again (arrayRead r n).pollDeserialize v s) := by
  have hf := ArrayDeserialize.returned_finished hs
  obtain ⟨data, t, _, ht⟩ := hf.last
  have hp := MinCodecRead.decodes_pure h.exists_decodes hr ht
  have hp' := arrayRead_decodes hp hn
  unfold arrayParser at hp'
  rw [replicate_pure] at hp'
  obtain ⟨w, hw⟩ := Decodes.returned hp' hs
  obtain rfl := eq_of_pure_halts hw
  refine ⟨MinCodecRead.not_hungry_of_pure h.exists_decodes hr hp', ?_⟩
  exact (h.of_not_hungry hr ht).imp (ArrayDeserialize.stuck hf.lt)
    (ArrayDeserialize.again hp (h.of_not_hungry hr) hn hf.data_eq)

theorem arrayRead_settles (h : r.Settles) (hn : 0 < n) : (arrayRead r n).Settles := by
  refine ⟨⟨_, arrayRead_decodes h.exists_decodes.choose_spec hn⟩, fun hs => ?_, fun hh _ _ hs => ?_⟩
  case refine_1 =>
    obtain hs | ⟨ha, hr⟩ | ho | hr := arrayRead_cases h hn hs
    · exact .inl hs
    · exact .inr (.inl ⟨ha, fun _ => hr⟩)
    · exact .inr (.inr ho.reruns)
    · obtain ⟨hh, hc⟩ := arrayRead_cases_pure h hr hn hs
      exact hc.imp_right fun ha => .inl ⟨ha, fun h => absurd h hh⟩
  case refine_2 =>
    have hr : ¬r.Hungry := fun hr => hh (arrayRead_hungry hr hn)
    exact (arrayRead_cases_pure h hr hn hs).2

theorem arrayRead_staysFinished_iff (h : r.Settles) (hn : 0 < n)
    (hs : (arrayRead r n).Returned v s) (hb : ∃ b : B, unread b ≠ []) :
    (∀ run, StaysFinished (arrayRead r n).pollDeserialize v s run) ↔ ¬s.Reopened := by
  constructor
  case mp =>
    intro hf ho
    have ⟨b, hb⟩ := hb
    have ⟨_, c, _⟩ := hs
    exact (ho.reruns.rereads hs).not_staysFinished hb c (hf [(c, b)])
  case mpr =>
    intro ho run
    obtain hs | ⟨ha, _⟩ | ho' | hr := arrayRead_cases h hn hs
    · exact hs.staysFinished run
    · exact ha.staysFinished run
    · exact absurd ho' ho
    · obtain ⟨_, hs | ha⟩ := arrayRead_cases_pure h hr hn hs
      case inl => exact hs.staysFinished run
      case inr => exact ha.staysFinished run

end

omit [LawfulBitBuf B] in
theorem numberRead_stuck {n : Nat} {v : BitVec (8 * n)} {s : NumberDeserialize B}
    (h : (numberRead n : MinCodecRead Ctx B _).Returned v s) :
    Stuck (numberRead n : MinCodecRead Ctx B _).pollDeserialize s := by
  have hs : s.data = none := by
    refine h.leaves (P := fun _ s => s.data = none) fun c s b => ?_
    change (NumberDeserialize.poll n s b).Leaves _
    unfold NumberDeserialize.poll
    cases s.data
    case none   => exact .panicked
    case some f => exact .andThen fun _ _ _ => .ready rfl
  obtain ⟨data⟩ := s
  obtain rfl := hs
  exact fun c b => ⟨_, rfl⟩

theorem numberRead_settles (n : Nat) : (numberRead n : MinCodecRead Ctx B _).Settles :=
  .of_stuck ⟨_, numberRead_decodes n⟩ numberRead_stuck

theorem MinCodecRead.Settles.map {E : Type} (h : r.Settles) (map : T → Except E U) :
    (mapRead r map).Settles :=
  h.wraps ⟨_, mapRead_decodes h.exists_decodes.choose_spec map⟩ (mapRead_wraps r map) rfl .map .map

theorem emptyRead_settles (T : Type) : (emptyRead T : MinCodecRead Ctx B T).Settles :=
  .of_stuck ⟨_, emptyRead_decodes T⟩ fun h => by
    obtain ⟨_, _, _, _, ho, _⟩ := h
    cases ho

theorem Format.settles {B' : Type} [BitBufMut B'] {scope : Scope Ctx B B'} {w : MinCodecWrite Ctx B' T}
    (h : Format scope r w) (hl : ∀ {T} {r : MinCodecRead Ctx B T} {w : MinCodecWrite Ctx B' T},
      ¬scope.leaf r w) : r.Settles := by
  induction h
  case leaf h        => exact absurd h hl
  case map hi        => exact hi.map _
  case bool          =>
    refine ⟨⟨_, boolRead_decodes⟩, fun _ => .inr (.inr (.bool _)), fun hn => ?_⟩
    exact absurd boolRead_hungry hn
  case number n      => exact numberRead_settles n
  case char          => exact (numberRead_settles 4).map _
  case usize         => exact (numberRead_settles 8).map _
  case isize         => exact (numberRead_settles 8).map _
  case unit unit _   => exact .of_repeats ⟨_, unitRead_decodes unit⟩ fun _ => .inr (.unit unit _)
  case empty T _     => exact emptyRead_settles T
  case string        => exact .of_stuck ⟨_, stringRead_decodes⟩ stringRead_stuck
  case box hi        =>
    exact hi.wraps ⟨_, boxRead_decodes hi.exists_decodes.choose_spec⟩ (boxRead_wraps _) rfl .box .box
  case option hi     =>
    exact .of_stuck ⟨_, Optional.optionRead_decodes hi.exists_decodes.choose_spec⟩ optionRead_stuck
  case result hi hi' =>
    exact .of_stuck ⟨_, resultRead_decodes hi.exists_decodes.choose_spec hi'.exists_decodes.choose_spec⟩
      resultRead_stuck
  case vec size _ _ hi =>
    exact .of_stuck ⟨_, vecRead_decodes hi.exists_decodes.choose_spec size⟩ vecRead_stuck
  case array hn _ hi => exact arrayRead_settles hi hn
  case tuple1 hi     => exact hi.map _
  case tuple hn _ hi =>
    exact .of_stuck ⟨_, tupleRead_decodes (fun i => (hi i).exists_decodes.choose_spec) (by omega)⟩
      tupleRead_stuck
  case derive h hc _ _ hi =>
    refine .of_repeats ⟨_, deriveRead_decodes hc (fun i j => (hi i j).exists_decodes.choose_spec) h⟩ ?_
    intro v s hs
    have hf := hs.leaves DeriveDeserialize.poll_leaves
    by_cases ha : 0 < Shape.arity _ v.variant
    case pos => exact .inl (hf.stuck ha)
    case neg =>
      obtain ⟨_, _, rfl, _⟩ := hf
      exact .inr (.derive (Nat.eq_zero_of_not_pos ha))
  case deriveEmpty   => exact emptyRead_settles _

end

def MinCodecRead.StaysFinished [BitSource B] (r : MinCodecRead Ctx B T) : Prop :=
  ∀ {v s}, r.Returned v s → ∀ run, Stream.StaysFinished r.pollDeserialize v s run

theorem deriveRead_staysFinished [BitBuf B] [BitSource B] {S : Shape} (rs : S.Reads Ctx B)
    (h : 0 < S.variants) : (deriveRead rs h).StaysFinished := by
  intro v s hs run
  have hf := hs.leaves DeriveDeserialize.poll_leaves
  by_cases ha : 0 < S.arity v.variant
  case pos => exact (hf.stuck ha).staysFinished run
  case neg => exact (Again.of_eq (hf.poll_eq (Nat.eq_zero_of_not_pos ha))).staysFinished run

-- Once they have returned a value, `String`, `Vec`, `Option`, `Result`, tuples and derived types stay
-- finished. An array does if its last item does not answer the next poll with another item.
theorem staysFinished_iff (B' : Type) [BitSlice B] [LawfulBitSlice B] [BitBufMut B'] :
    (stringRead : MinCodecRead Ctx B Str).StaysFinished ∧
    (∀ {T : Type} (r : MinCodecRead Ctx B T) (size : Nat), (vecRead r size).StaysFinished) ∧
    (∀ {T : Type} (r : MinCodecRead Ctx B T), (Optional.optionRead r).StaysFinished) ∧
    (∀ {T U : Type} (r : MinCodecRead Ctx B T) (r' : MinCodecRead Ctx B U),
      (resultRead r r').StaysFinished) ∧
    (∀ {n : Nat} {T : Fin n → Type} (rs : (i : Fin n) → MinCodecRead Ctx B (T i)),
      (tupleRead rs).StaysFinished) ∧
    (∀ {S : Shape} (rs : S.Reads Ctx B) (h : 0 < S.variants), (deriveRead rs h).StaysFinished) ∧
    ∀ {T : Type} {r : MinCodecRead Ctx B T} {w : MinCodecWrite Ctx B' T} {n : Nat}
      {v : List.Vector T n} {s : ArrayDeserialize r n}, Format .closed r w → 0 < n →
      (arrayRead r n).Returned v s →
      ((∀ run, StaysFinished (arrayRead r n).pollDeserialize v s run) ↔ ¬s.Reopened) := by
  refine ⟨?_, ?_, ?_, ?_, ?_, ?_, ?_⟩
  · exact fun hs => (stringRead_stuck hs).staysFinished
  · exact fun _ _ _ _ hs => (vecRead_stuck hs).staysFinished
  · exact fun _ _ _ hs => (optionRead_stuck hs).staysFinished
  · exact fun _ _ _ _ hs => (resultRead_stuck hs).staysFinished
  · exact fun _ _ _ hs => (tupleRead_stuck hs).staysFinished
  · exact fun rs h => deriveRead_staysFinished rs h
  · intro T r w n v s h hn hs
    refine arrayRead_staysFinished_iff (h.settles id) hn hs ⟨BitSlice.new [0], ?_⟩
    rw [LawfulBitSlice.unread_new]
    decide

theorem ArrayDeserialize.not_reopened [BitBuf B] [LawfulBitBuf B] {n : Nat} {t : T}
    {this : ArrayDeserialize r n} (hs : r.Returned t this.deser)
    (h : Stuck r.pollDeserialize this.deser) (c : Ctx) {b : B} (hb : unread b ≠ []) :
    ¬this.Reopened := by
  rintro ⟨_, hr | ⟨_, hr⟩⟩
  case inl => exact (hr.rereads hs).not_staysFinished (v := t) hb c (h.staysFinished _)
  case inr =>
    obtain ⟨m, hx⟩ := h c b
    rw [hr.poll_eq hs] at hx
    cases hx

def flagRead : MinCodecRead Unit Slice (Option Bool) :=
  Optional.optionRead boolRead

def flagsRead : MinCodecRead Unit Slice (List.Vector (Option Bool) 1) :=
  arrayRead flagRead 1

def flagDone : Optional.OptionDeserialize (boolRead : MinCodecRead Unit Slice Bool) :=
  ⟨(), .complete⟩

def flagsDone : ArrayDeserialize flagRead 1 :=
  ⟨[], flagDone, Nat.zero_le 1⟩

theorem flagRead_poll : flagRead.pollDeserialize () flagRead.deserialize ⟨[false], 0⟩ =
    ⟨.ready (.ok none), flagDone, ⟨[false], 1⟩⟩ := rfl

theorem staysFinished_iff_flags :
    StaysFinished flagsRead.pollDeserialize ⟨[none], rfl⟩ flagsDone [((), ⟨[true], 0⟩)] := by
  have h : flagRead.Returned none flagDone := ⟨_, (), ⟨[false], 0⟩, .refl, rfl, rfl⟩
  have hs : flagsRead.Returned ⟨[none], rfl⟩ flagsDone := by
    refine ⟨_, (), ⟨[false], 0⟩, .refl, ?_⟩
    have hx : flagsRead.pollDeserialize () flagsRead.deserialize ⟨[false], 0⟩ =
        ⟨.ready (.ok ⟨[none], rfl⟩), flagsDone, ⟨[false], 1⟩⟩ :=
      ArrayDeserialize.poll_single () flagRead_poll
    exact ⟨congrArg Polled.outcome hx, congrArg Polled.state hx⟩
  have ho : ¬flagsDone.Reopened :=
    ArrayDeserialize.not_reopened (b := ⟨[true], 0⟩) h (optionRead_stuck h) () nofun
  exact ((staysFinished_iff SliceMut).2.2.2.2.2.2 (.option .bool) Nat.one_pos hs).mpr ho _

def boolsRead : MinCodecRead Unit Slice (List.Vector Bool 1) :=
  arrayRead boolRead 1

def boolsNew : ArrayDeserialize (boolRead : MinCodecRead Unit Slice Bool) 1 :=
  boolsRead.deserialize

theorem boolsRead_poll (x : Bool) : boolsRead.pollDeserialize () boolsNew ⟨[x], 0⟩ =
    ⟨.ready (.ok ⟨[x], rfl⟩), boolsNew, ⟨[x], 1⟩⟩ :=
  ArrayDeserialize.poll_single () rfl

-- The array `[true]` has been read. The next poll takes a bit of another buffer and returns `[false]`.
theorem boolsRead_reads_on :
    boolsRead.Returned ⟨[true], rfl⟩ boolsNew ∧
    boolsRead.pollDeserialize () boolsNew ⟨[false], 0⟩ =
      ⟨.ready (.ok ⟨[false], rfl⟩), boolsNew, ⟨[false], 1⟩⟩ ∧
    ¬StaysFinished boolsRead.pollDeserialize ⟨[true], rfl⟩ boolsNew [((), ⟨[false], 0⟩)] := by
  refine ⟨⟨boolsNew, (), ⟨[true], 0⟩, .refl, ?_⟩, boolsRead_poll false, ?_⟩
  case refine_1 =>
    rw [boolsRead_poll]
    exact ⟨rfl, rfl⟩
  case refine_2 =>
    rintro ⟨_, hv, _⟩
    rw [boolsRead_poll] at hv
    cases hv ⟨[false], rfl⟩ rfl

end Mincodec
