import Mincodec.Format
import Mincodec.Stream.Blind

-- What a serializer writes, and what it reports, does not depend on what the buffers hold.
namespace Mincodec

open Stream BitSink

variable {Ctx B T U E : Type} {Wait : Prop} {w : MinCodecWrite Ctx B T} {w' : MinCodecWrite Ctx B U}

def MinCodecWrite.Blind [BitSink B] (w : MinCodecWrite Ctx B T) (Wait : Prop)
    (Stop : B → Prop) : Prop :=
  ∀ v, Alike Wait Stop w.pollSerialize (w.serialize v) (w.serialize v)

section

variable [BitSink B] {Stop : B → Prop}

def SameDrain {D : Type} (drain : D → B → Partial Unit D B) (d d' : D) : Prop :=
  ∃ w, Drains drain d w ∧ Drains drain d' w

theorem SameDrain.twins {D : Type} {drain : D → B → Partial Unit D B} {d d' : D} {b b' : B}
    (h : SameDrain drain d d') (hs : ∀ b, Full b → Stop b) (hb : Level b b') :
    Twins Wait Stop (SameDrain drain) b b' (sufficient (drain d b) : Polled D B (Except Empty Unit))
      (sufficient (drain d' b')) := by
  obtain ⟨w, hd, hd'⟩ := h
  obtain ⟨ho, hp, hr⟩ := hd.step b
  obtain ⟨ho', hp', hr'⟩ := hd'.step b'
  rw [hb.room_eq] at ho' hp' hr'
  have hroom := hp.room_eq
  rw [List.length_take] at hroom
  by_cases hl : w.length ≤ room b
  case pos =>
    rw [if_pos hl] at ho ho'
    have hx : drain d b = (some (), (drain d b).2.1, (drain d b).2.2) := Prod.ext ho rfl
    have hx' : drain d' b' = (some (), (drain d' b').2.1, (drain d' b').2.2) := Prod.ext ho' rfl
    rw [hx, hx', sufficient_some, sufficient_some]
    exact ⟨rfl, ⟨_, hp, hp'⟩, nofun, nofun, _, hr, hr'⟩
  case neg =>
    rw [if_neg hl] at ho ho'
    have hx : drain d b = (none, (drain d b).2.1, (drain d b).2.2) := Prod.ext ho rfl
    have hx' : drain d' b' = (none, (drain d' b').2.1, (drain d' b').2.2) := Prod.ext ho' rfl
    have hf : room (drain d b).2.2 = 0 := by omega
    rw [hx, hx', sufficient_none, sufficient_none]
    exact ⟨rfl, ⟨_, hp, hp'⟩, nofun, fun _ => hs _ hf, _, hr, hr'⟩

theorem unitWrite_blind : (unitWrite T : MinCodecWrite Ctx B T).Blind Wait Stop :=
  fun _ => ⟨fun _ _ => True, trivial, fun _ _ _ _ _ _ _ => .ready trivial⟩

theorem emptyWrite_blind : (emptyWrite T : MinCodecWrite Ctx B T).Blind Wait Stop :=
  fun _ => ⟨fun _ _ => True, trivial, fun _ _ _ _ _ _ _ => .panicked trivial⟩

theorem boxWrite_blind (h : w.Blind Wait Stop) : (boxWrite w).Blind Wait Stop := by
  refine fun v => ⟨Alike Wait Stop w.pollSerialize, h v, fun c s s' b b' h hb => ?_⟩
  exact (h.twins c hb).andThen hb (fun _ _ => id) fun _ _ _ _ h _ => .ready h

inductive MapSerialize.Same (Wait : Prop) (Stop : B → Prop) : MapSerialize w E → MapSerialize w E → Prop
  | serialize {ser ser' : w.Serialize} : Alike Wait Stop w.pollSerialize ser ser' →
    Same Wait Stop (.serialize ser) (.serialize ser')
  | complete : Same Wait Stop .complete .complete
  | mapError (e : E) : Same Wait Stop (.mapError e) (.mapError e)

theorem mapWrite_blind (h : w.Blind Wait Stop) (map : U → Except E T) : (mapWrite w map).Blind Wait Stop := by
  refine fun v => ⟨MapSerialize.Same Wait Stop, ?_, fun c s s' b b' h hb => ?_⟩
  case refine_1 =>
    change MapSerialize.Same Wait Stop (.new w v map) (.new w v map)
    unfold MapSerialize.new
    cases map v
    case error e => exact .mapError e
    case ok t    => exact .serialize (h t)
  case refine_2 =>
    cases h
    case mapError e  => exact .ready .complete
    case complete    => exact .panicked .complete
    case serialize ser ser' h =>
      show Twins Wait Stop _ b b' (MapSerialize.pollSerialize c (.serialize ser) b)
        (MapSerialize.pollSerialize c (.serialize ser') b')
      unfold MapSerialize.pollSerialize
      exact (h.twins c hb).andThen hb (fun _ _ => .serialize) fun _ _ _ _ _ _ => .ready .complete

theorem pollItems_twins (h : w.Blind Wait Stop) (ctx : Ctx) (items : List T) (ser ser' : Option w.Serialize)
    {b b' : B} (hb : Level b b') : Twins Wait Stop (fun s s' => s'.1 = s.1) b b'
      (pollItems w ctx items ser b) (pollItems w ctx items ser' b') := by
  induction items generalizing ser ser' b b'
  case nil             => exact .ready rfl
  case cons item _ hi =>
    exact ((h item).twins ctx hb).andThen hb (fun _ _ _ => rfl) fun _ _ _ _ _ hb => hi _ _ hb

theorem arrayWrite_blind (h : w.Blind Wait Stop) (n : Nat) : (arrayWrite w n).Blind Wait Stop := by
  refine fun v => ⟨fun s s' => s'.data = s.data, rfl, fun c s s' b b' hd hb => ?_⟩
  show Twins Wait Stop _ b b' (ArraySerialize.pollSerialize c s b) (ArraySerialize.pollSerialize c s' b')
  unfold ArraySerialize.pollSerialize
  rw [hd]
  exact (pollItems_twins h c s.data s.ser s'.ser hb).andThen hb (fun _ _ => id)
    fun _ _ _ _ h _ => .ready h

end

section

variable {n : Nat} {T : Fin n → Type} {ws : (i : Fin n) → MinCodecWrite Ctx B (T i)}
variable [BitSink B] {Stop : B → Prop}

structure Sers.Same (Wait : Prop) (Stop : B → Prop) (s s' : Nat × Sers ws) : Prop where
  index : s'.1 = s.1
  sers  : ∀ i, Alike Wait Stop (ws i).pollSerialize (s.2 i) (s'.2 i)

theorem Sers.update_alike {sers sers' : Sers ws}
    (h : ∀ i, Alike Wait Stop (ws i).pollSerialize (sers i) (sers' i)) {j : Fin n}
    {ser ser' : (ws j).Serialize} (hj : Alike Wait Stop (ws j).pollSerialize ser ser') (i : Fin n) :
    Alike Wait Stop (ws i).pollSerialize (Function.update sers j ser i) (Function.update sers' j ser' i) := by
  by_cases hi : i = j
  case neg =>
    rw [Function.update_of_ne hi, Function.update_of_ne hi]
    exact h i
  case pos =>
    subst hi
    rw [Function.update_self, Function.update_self]
    exact hj

theorem Sers.poll_twins (first limit : Nat) (ctx : Ctx) (k : Nat) {sers sers' : Sers ws}
    (h : ∀ i, Alike Wait Stop (ws i).pollSerialize (sers i) (sers' i)) {b b' : B} (hb : Level b b') :
    Twins Wait Stop (Same Wait Stop) b b' (sers.poll first limit ctx k b) (sers'.poll first limit ctx k b') := by
  obtain ⟨m, hm⟩ : ∃ m, n ≤ k + m := ⟨n, by omega⟩
  induction m generalizing k sers sers' b b'
  all_goals unfold poll
  case zero =>
    rw [dif_neg (by omega), dif_neg (by omega)]
    exact .ready ⟨rfl, h⟩
  case succ m hi =>
    by_cases hk : k < n
    case neg =>
      rw [dif_neg hk, dif_neg hk]
      exact .ready ⟨rfl, h⟩
    case pos =>
      rw [dif_pos hk, dif_pos hk]
      apply ((h ⟨k, hk⟩).twins ctx hb).andThen hb
      · exact fun _ _ hs => ⟨rfl, update_alike h hs⟩
      · intro _ _ _ _ hs hb
        split
        case isTrue  => exact hi _ (update_alike h hs) hb (by omega)
        case isFalse => exact .panicked ⟨rfl, update_alike h hs⟩

structure TupleSerialize.Same (Wait : Prop) (Stop : B → Prop) (s s' : TupleSerialize ws) : Prop where
  index : s'.index = s.index
  sers  : ∀ i, Alike Wait Stop (ws i).pollSerialize (s.sers i) (s'.sers i)

theorem tupleWrite_blind (h : ∀ i, (ws i).Blind Wait Stop) : (tupleWrite ws).Blind Wait Stop := by
  refine fun v => ⟨TupleSerialize.Same Wait Stop, ⟨rfl, fun i => h i (v i)⟩, fun c s s' b b' h hb => ?_⟩
  show Twins Wait Stop _ b b' (TupleSerialize.pollSerialize c s b) (TupleSerialize.pollSerialize c s' b')
  unfold TupleSerialize.pollSerialize
  rw [h.index]
  apply (Sers.poll_twins 0 256 c s.index h.sers hb).andThen hb
  · exact fun _ _ h => ⟨h.index, h.sers⟩
  · intro s s' _ _ h _
    rw [h.index]
    split
    case isTrue  => exact .ready ⟨rfl, h.sers⟩
    case isFalse => exact .panicked ⟨rfl, h.sers⟩

end

section

variable [BitBufMut B] [LawfulBitBufMut B] {Stop : B → Prop}

theorem BitBufMut.pollWriteBool_twins (hs : ∀ b, Full b → Stop b) (x : Bool) {b b' : B}
    (hb : Level b b') : Twins Wait Stop (fun _ _ => True) b b' (pollWriteBool x b) (pollWriteBool x b') := by
  unfold pollWriteBool
  have hroom := hb.room_eq
  by_cases hr : room b = 0
  case pos =>
    obtain ⟨hw, hp⟩ := LawfulBitBufMut.writeBool_full x hr
    obtain ⟨hw', hp'⟩ := LawfulBitBufMut.writeBool_full x (hroom.trans hr)
    have hf : room (writeBool x b).2 = 0 := by
      have := hp.room_eq
      rw [List.length_nil] at this
      omega
    rw [hw, hw']
    exact ⟨rfl, ⟨_, hp, hp'⟩, nofun, fun _ => hs _ hf, trivial⟩
  case neg =>
    obtain ⟨hw, hp⟩ := LawfulBitBufMut.writeBool_room x (Nat.pos_of_ne_zero hr)
    obtain ⟨hw', hp'⟩ := LawfulBitBufMut.writeBool_room x (Nat.pos_of_ne_zero (hroom ▸ hr))
    rw [hw, hw']
    exact ⟨rfl, ⟨_, hp, hp'⟩, nofun, nofun, trivial⟩

theorem boolWrite_blind (hs : ∀ b, Full b → Stop b) :
    (boolWrite : MinCodecWrite Ctx B Bool).Blind Wait Stop := by
  refine fun v => ⟨fun s s' => s' = s, rfl, ?_⟩
  rintro c ⟨x⟩ _ b b' rfl hb
  show Twins Wait Stop _ b b'
    ((BitBufMut.pollWriteBool x b).lift (fun _ => BoolSerialize.mk x) (id : Empty → Empty))
    ((BitBufMut.pollWriteBool x b').lift (fun _ => BoolSerialize.mk x) id)
  exact (BitBufMut.pollWriteBool_twins hs x hb).andThen hb (fun _ _ _ => rfl)
    fun _ _ _ _ _ _ => .ready rfl

theorem numberWrite_blind (hs : ∀ b, Full b → Stop b) (n : Nat) :
    (numberWrite n : MinCodecWrite Ctx B _).Blind Wait Stop := by
  have hd (v : BitVec (8 * n)) := LawfulBitBufMut.drain_drains (B := B) (toBeBytes v)
  refine fun v => ⟨fun (s s' : NumberSerialize B) =>
    s.data.Rel (SameDrain BitBufMut.drainInto) s'.data, .some ⟨_, hd v, hd v⟩, ?_⟩
  rintro c ⟨data⟩ ⟨data'⟩ b b' h hb
  show Twins Wait Stop _ b b' (NumberSerialize.poll ⟨data⟩ b) (NumberSerialize.poll ⟨data'⟩ b')
  unfold NumberSerialize.poll
  cases h
  case none   => exact .panicked .none
  case some h => exact (h.twins hs hb).andThen hb (fun _ _ => .some) fun _ _ _ _ _ _ => .ready .none

theorem stringWrite_blind (hs : ∀ b, Full b → Stop b) :
    (stringWrite : MinCodecWrite Ctx B Str).Blind Wait Stop := by
  refine fun v => ⟨fun (s s' : BytesSerialize B) => SameDrain BitBufMut.drainInto s.drain s'.drain,
    ⟨_, LawfulBitBufMut.drain_drains _, LawfulBitBufMut.drain_drains _⟩, ?_⟩
  intro c s s' b b' h hb
  show Twins Wait Stop _ b b' (BytesSerialize.pollSerialize s b) (BytesSerialize.pollSerialize s' b')
  unfold BytesSerialize.pollSerialize BitBufMut.pollDrain
  apply (h.twins hs hb).andThen hb
  · exact fun _ _ h => h
  · exact fun _ _ _ _ h _ => .ready h

section

variable {w : MinCodecWrite Ctx B T} {w' : MinCodecWrite Ctx B U}

structure Optional.OptionSerialize.Same (Wait : Prop) (Stop : B → Prop) (s s' : OptionSerialize w) : Prop where
  ser   : s.ser.Rel (Alike Wait Stop w.pollSerialize) s'.ser
  state : s'.state = s.state

theorem isSome_eq {α : Type} {R : α → α → Prop} {o o' : Option α} (h : o.Rel R o') :
    o'.isSome = o.isSome := by
  cases h <;> rfl

theorem Optional.OptionSerialize.pollWriting_twins (ctx : Ctx) {s s' : OptionSerialize w}
    (h : Same Wait Stop s s') {b b' : B} (hb : Level b b') :
    Twins Wait Stop (Same Wait Stop) b b' (s.pollWriting ctx b) (s'.pollWriting ctx b') := by
  obtain ⟨ser, state⟩ := s
  obtain ⟨ser', _⟩ := s'
  obtain ⟨h, rfl⟩ := h
  unfold pollWriting
  cases h
  case none   => exact .panicked ⟨.none, rfl⟩
  case some h =>
    exact (h.twins ctx hb).andThen hb (fun _ _ h => ⟨.some h, rfl⟩)
      fun _ _ _ _ h _ => .ready ⟨.some h, rfl⟩

theorem Optional.optionWrite_blind (hs : ∀ b, Full b → Stop b) (h : w.Blind Wait Stop) :
    (optionWrite w).Blind Wait Stop := by
  refine fun v => ⟨OptionSerialize.Same Wait Stop, ⟨?_, rfl⟩, fun c s s' b b' h hb => ?_⟩
  case refine_1 =>
    change (v.map w.serialize).Rel _ (v.map w.serialize)
    cases v
    case none   => exact .none
    case some v => exact .some (h v)
  case refine_2 =>
    show Twins Wait Stop _ b b' (OptionSerialize.pollSerialize c s b) (OptionSerialize.pollSerialize c s' b')
    unfold OptionSerialize.pollSerialize
    rw [h.state]
    split
    case h_1 =>
      rw [isSome_eq h.ser]
      apply (BitBufMut.pollWriteBool_twins hs s.ser.isSome hb).andThen hb
      · exact fun _ _ _ => h
      · intro _ _ _ _ _ hb
        split
        case isFalse => exact .ready ⟨h.ser, rfl⟩
        case isTrue  =>
          apply OptionSerialize.pollWriting_twins c _ hb
          exact ⟨h.ser, rfl⟩
    case h_2 => exact OptionSerialize.pollWriting_twins c h hb
    case h_3 => exact .panicked h

structure ResultSerialize.Same (Wait : Prop) (Stop : B → Prop) (s s' : ResultSerialize w w') : Prop where
  serT  : s.serT.Rel (Alike Wait Stop w.pollSerialize) s'.serT
  serU  : s.serU.Rel (Alike Wait Stop w'.pollSerialize) s'.serU
  state : s'.state = s.state

namespace ResultSerialize

variable {s s' : ResultSerialize w w'} {b b' : B}

theorem pollT_twins (ctx : Ctx) (h : Same Wait Stop s s') (hb : Level b b') :
    Twins Wait Stop (Same Wait Stop) b b' (s.pollT ctx b) (s'.pollT ctx b') := by
  obtain ⟨serT, serU, state⟩ := s
  obtain ⟨serT', serU', _⟩ := s'
  obtain ⟨hT, hU, rfl⟩ := h
  unfold pollT
  cases hT
  case none   => exact .panicked ⟨.none, hU, rfl⟩
  case some h =>
    exact (h.twins ctx hb).andThen hb (fun _ _ h => ⟨.some h, hU, rfl⟩)
      fun _ _ _ _ h _ => .ready ⟨.some h, hU, rfl⟩

theorem pollU_twins (ctx : Ctx) (h : Same Wait Stop s s') (hb : Level b b') :
    Twins Wait Stop (Same Wait Stop) b b' (s.pollU ctx b) (s'.pollU ctx b') := by
  obtain ⟨serT, serU, state⟩ := s
  obtain ⟨serT', serU', _⟩ := s'
  obtain ⟨hT, hU, rfl⟩ := h
  unfold pollU
  cases hU
  case none   => exact .panicked ⟨hT, .none, rfl⟩
  case some h =>
    exact (h.twins ctx hb).andThen hb (fun _ _ h => ⟨hT, .some h, rfl⟩)
      fun _ _ _ _ h _ => .ready ⟨hT, .some h, rfl⟩

end ResultSerialize

theorem resultWrite_blind (hs : ∀ b, Full b → Stop b) (h : w.Blind Wait Stop) (h' : w'.Blind Wait Stop) :
    (resultWrite w w').Blind Wait Stop := by
  refine fun v => ⟨ResultSerialize.Same Wait Stop, ?_, fun c s s' b b' h hb => ?_⟩
  case refine_1 =>
    change ResultSerialize.Same Wait Stop (.new w w' v) (.new w w' v)
    cases v
    case ok item     => exact ⟨.some (h item), .none, rfl⟩
    case error error => exact ⟨.none, .some (h' error), rfl⟩
  case refine_2 =>
    show Twins Wait Stop _ b b' (ResultSerialize.pollSerialize c s b) (ResultSerialize.pollSerialize c s' b')
    unfold ResultSerialize.pollSerialize
    rw [h.state]
    split
    case h_1 =>
      rw [isSome_eq h.serT]
      apply (BitBufMut.pollWriteBool_twins hs s.serT.isSome hb).andThen hb
      · exact fun _ _ _ => h
      · intro _ _ _ _ _ hb
        split
        case isTrue  => exact ResultSerialize.pollT_twins c ⟨h.serT, h.serU, rfl⟩ hb
        case isFalse => exact ResultSerialize.pollU_twins c ⟨h.serT, h.serU, rfl⟩ hb
    case h_2 => exact ResultSerialize.pollT_twins c h hb
    case h_3 => exact ResultSerialize.pollU_twins c h hb
    case h_4 => exact .panicked h

-- Which serializer is kept of the item before does not matter.
structure VecSerialize.Same (s s' : VecSerialize w) : Prop where
  state : s'.state = s.state
  vlq   : SameDrain BitBufMut.drainInto s.vlq s'.vlq
  data  : s'.data = s.data

theorem VecSerialize.pollWriting_twins (h : w.Blind Wait Stop) (ctx : Ctx) {s s' : VecSerialize w}
    (hs : Same s s') {b b' : B} (hb : Level b b') :
    Twins Wait Stop Same b b' (s.pollWriting ctx b) (s'.pollWriting ctx b') := by
  unfold pollWriting
  rw [hs.data]
  exact (pollItems_twins h ctx s.data s.ser s'.ser hb).andThen hb
    (fun _ _ hd => ⟨hs.state, hs.vlq, hd⟩) fun _ _ _ _ hd _ => .ready ⟨rfl, hs.vlq, hd⟩

theorem vecWrite_blind (hs : ∀ b, Full b → Stop b) (h : w.Blind Wait Stop) (size : Nat) :
    (vecWrite w size).Blind Wait Stop := by
  have hd := LawfulBitBufMut.drain_drains (B := B)
  refine fun v => ⟨VecSerialize.Same, ⟨rfl, ⟨_, hd _, hd _⟩, rfl⟩, fun c s s' b b' hv hb => ?_⟩
  show Twins Wait Stop _ b b' (VecSerialize.pollSerialize c s b) (VecSerialize.pollSerialize c s' b')
  unfold VecSerialize.pollSerialize
  rw [hv.state]
  split
  case h_1 =>
    apply (hv.vlq.twins hs hb).andThen hb
    · exact fun _ _ hd => ⟨rfl, hd, hv.data⟩
    · intro _ _ _ _ hd hb
      apply VecSerialize.pollWriting_twins h c _ hb
      exact ⟨rfl, hd, hv.data⟩
  case h_2 => exact VecSerialize.pollWriting_twins h c hv hb
  case h_3 => exact .panicked hv

end

section

variable {S : Shape} {ws : S.Writes Ctx B}

inductive DeriveSerialize.Same (Wait : Prop) (Stop : B → Prop) : DeriveSerialize ws → DeriveSerialize ws → Prop
  | variant {i : Fin S.variants} {idx : Nat} {d d' : Option (BitBufMut.CappedDrain B)}
    {sers sers' : Sers (ws i)} : d.Rel (SameDrain BitBufMut.cappedDrainInto) d' →
    (∀ j, Alike Wait Stop (ws i j).pollSerialize (sers j) (sers' j)) →
    Same Wait Stop (.variant i idx d sers) (.variant i idx d' sers')
  | complete : Same Wait Stop .complete .complete

theorem DeriveSerialize.pollFields_twins (ctx : Ctx) (i : Fin S.variants) (idx : Nat)
    {d d' : Option (BitBufMut.CappedDrain B)} {sers sers' : Sers (ws i)}
    (hd : d.Rel (SameDrain BitBufMut.cappedDrainInto) d')
    (h : ∀ j, Alike Wait Stop (ws i j).pollSerialize (sers j) (sers' j)) {b b' : B} (hb : Level b b') :
    Twins Wait Stop (Same Wait Stop) b b' (pollFields ctx i idx d sers b) (pollFields ctx i idx d' sers' b') := by
  unfold pollFields
  apply (Sers.poll_twins _ _ ctx _ h hb).andThen hb
  · rintro ⟨idx, sers⟩ ⟨_, sers'⟩ ⟨rfl, h⟩
    exact .variant hd h
  · exact fun _ _ _ _ _ _ => .ready .complete

theorem deriveWrite_blind (hs : ∀ b, Full b → Stop b) (h : ∀ i j, (ws i j).Blind Wait Stop) :
    (deriveWrite ws).Blind Wait Stop := by
  refine fun v => ⟨DeriveSerialize.Same Wait Stop, ?_, fun c s s' b b' h hb => ?_⟩
  case refine_1 =>
    have ⟨d, hn, hd⟩ := DeriveSerialize.newCappedDrain_drains (B := B) v.variant
    refine .variant ?_ fun j => h v.variant j (v.fields j)
    split
    case isTrue  => exact hn ▸ .some ⟨_, hd, hd⟩
    case isFalse => exact .none
  case refine_2 =>
    cases h
    case complete => exact .panicked .complete
    case variant i idx d d' sers sers' hd h =>
      show Twins Wait Stop _ b b' (DeriveSerialize.pollSerialize c (.variant i idx d sers) b)
        (DeriveSerialize.pollSerialize c (.variant i idx d' sers') b')
      unfold DeriveSerialize.pollSerialize
      by_cases hi : 1 < S.variants ∧ idx = 0
      case neg =>
        simp only [if_neg hi]
        exact DeriveSerialize.pollFields_twins c i idx hd h hb
      case pos =>
        simp only [if_pos hi]
        cases hd
        case none    => exact .panicked (.variant .none h)
        case some hd =>
          apply (hd.twins hs hb).andThen hb
          · exact fun _ _ hd => .variant (.some hd) h
          · exact fun _ _ _ _ hd hb => DeriveSerialize.pollFields_twins c i 1 (.some hd) h hb

end

variable {B' : Type} [BitBuf B'] {scope : Scope Ctx B' B} {r : MinCodecRead Ctx B' T}

theorem Format.blind (h : Format scope r w) (hs : ∀ b, Full b → Stop b)
    (hl : ∀ {T} {r : MinCodecRead Ctx B' T} {w : MinCodecWrite Ctx B T}, scope.leaf r w →
      w.Blind Wait Stop) : w.Blind Wait Stop := by
  induction h
  case leaf h           => exact hl h
  case map hi           => exact mapWrite_blind hi _
  case bool             => exact boolWrite_blind hs
  case number n         => exact numberWrite_blind hs n
  case char             => exact mapWrite_blind (numberWrite_blind hs 4) _
  case usize            => exact mapWrite_blind (numberWrite_blind hs 8) _
  case isize            => exact mapWrite_blind (numberWrite_blind hs 8) _
  case unit             => exact unitWrite_blind
  case empty            => exact emptyWrite_blind
  case string           => exact stringWrite_blind hs
  case box hi           => exact boxWrite_blind hi
  case option hi        => exact Optional.optionWrite_blind hs hi
  case result hi hi'    => exact resultWrite_blind hs hi hi'
  case vec size _ _ hi  => exact vecWrite_blind hs hi size
  case array hi         => exact arrayWrite_blind hi _
  case tuple1 hi        => exact mapWrite_blind hi _
  case tuple hi         => exact tupleWrite_blind hi
  case derive hi        => exact deriveWrite_blind hs hi
  case deriveEmpty      => exact emptyWrite_blind

end

end Mincodec
