import Mincodec.Format
import Mincodec.Meaning
import Mincodec.Slice
import Mincodec.Stream.Silent

-- Serializers that are polled again after they have written their item.
namespace Mincodec

open Stream BitSource BitSink

variable {Ctx B T U : Type} {w : MinCodecWrite Ctx B T} {w' : MinCodecWrite Ctx B U}

def MinCodecWrite.Returned (w : MinCodecWrite Ctx B T) (item : T) (s : w.Serialize) : Prop :=
  Stream.Returned w.pollSerialize (w.serialize item) (.ok ()) s

def MinCodecWrite.Silences [BitSink B] (w : MinCodecWrite Ctx B T) : Prop :=
  ∀ item s, w.Returned item s → Silent w.pollSerialize s

theorem MinCodecWrite.Silences.of_stuck [BitSink B]
    (h : ∀ {item s}, w.Returned item s → Stuck w.pollSerialize s) : w.Silences :=
  fun _ _ hs => .of_stuck (h hs)

theorem mapWrite_stuck {E : Type} {map : U → Except E T} {item : U} {s : MapSerialize w E}
    (h : (mapWrite w map).Returned item s) : Stuck (mapWrite w map).pollSerialize s := by
  have hs : s = .complete := by
    refine h.leaves (P := fun _ s => s = .complete) fun c s b => ?_
    change (MapSerialize.pollSerialize c s b).Leaves _
    cases s
    case complete  => exact .panicked
    case mapError  => exact fun _ h => by cases h
    case serialize =>
      unfold MapSerialize.pollSerialize
      apply Polled.Leaves.andThen
      exact fun _ _ _ => .ready rfl
  obtain rfl := hs
  exact fun c b => ⟨_, rfl⟩

section

variable [BitBufMut B]

theorem numberWrite_stuck {n : Nat} {item : BitVec (8 * n)} {s : NumberSerialize B}
    (h : (numberWrite n : MinCodecWrite Ctx B _).Returned item s) :
    Stuck (numberWrite n : MinCodecWrite Ctx B _).pollSerialize s := by
  have hs : s.data = none := by
    refine h.leaves (P := fun _ s => s.data = none) fun c s b => ?_
    change (NumberSerialize.poll s b).Leaves _
    unfold NumberSerialize.poll
    cases s.data
    case none   => exact .panicked
    case some d => exact .andThen fun _ _ _ => .ready rfl
  obtain ⟨data⟩ := s
  obtain rfl := hs
  exact fun c b => ⟨_, rfl⟩

theorem OptionSerialize.poll_leaves (ctx : Ctx) (this : Optional.OptionSerialize w) (b : B) :
    (this.pollSerialize ctx b).Leaves fun _ s => s.state = .complete := by
  have writing (this : Optional.OptionSerialize w) (b : B) :
      (this.pollWriting ctx b).Leaves fun _ s => s.state = .complete := by
    unfold Optional.OptionSerialize.pollWriting
    split
    case h_1 => exact .panicked
    case h_2 => exact .andThen fun _ _ _ => .ready rfl
  obtain ⟨ser, _ | _ | _⟩ := this
  case complete  => exact .panicked
  case writing   => exact writing _ b
  case predicate =>
    unfold Optional.OptionSerialize.pollSerialize
    apply Polled.Leaves.andThen
    intro _ _ b
    split
    case isTrue  => exact writing _ b
    case isFalse => exact .ready rfl

theorem optionWrite_stuck {item : Option T} {s : Optional.OptionSerialize w}
    (h : (Optional.optionWrite w).Returned item s) : Stuck (Optional.optionWrite w).pollSerialize s := by
  have hs := h.leaves OptionSerialize.poll_leaves
  obtain ⟨ser, state⟩ := s
  obtain rfl := hs
  exact fun c b => ⟨_, rfl⟩

theorem ResultSerialize.poll_leaves (ctx : Ctx) (this : ResultSerialize w w') (b : B) :
    (this.pollSerialize ctx b).Leaves fun _ s => s.state = .complete := by
  have writingT (this : ResultSerialize w w') (b : B) :
      (this.pollT ctx b).Leaves fun _ s => s.state = .complete := by
    unfold pollT
    split
    case h_1 => exact .panicked
    case h_2 => exact .andThen fun _ _ _ => .ready rfl
  have writingU (this : ResultSerialize w w') (b : B) :
      (this.pollU ctx b).Leaves fun _ s => s.state = .complete := by
    unfold pollU
    split
    case h_1 => exact .panicked
    case h_2 => exact .andThen fun _ _ _ => .ready rfl
  obtain ⟨serT, serU, _ | _ | _ | _⟩ := this
  case complete  => exact .panicked
  case writingT  => exact writingT _ b
  case writingU  => exact writingU _ b
  case predicate =>
    unfold pollSerialize
    apply Polled.Leaves.andThen
    intro _ _ b
    split
    case isTrue  => exact writingT _ b
    case isFalse => exact writingU _ b

theorem resultWrite_stuck {item : Except U T} {s : ResultSerialize w w'}
    (h : (resultWrite w w').Returned item s) : Stuck (resultWrite w w').pollSerialize s := by
  have hs := h.leaves ResultSerialize.poll_leaves
  obtain ⟨serT, serU, state⟩ := s
  obtain rfl := hs
  exact fun c b => ⟨_, rfl⟩

theorem VecSerialize.poll_leaves (ctx : Ctx) (this : VecSerialize w) (b : B) :
    (this.pollSerialize ctx b).Leaves fun _ s => s.state = .complete := by
  have writing (this : VecSerialize w) (b : B) :
      (this.pollWriting ctx b).Leaves fun _ s => s.state = .complete :=
    .andThen fun _ _ _ => .ready rfl
  obtain ⟨ser, _ | _ | _, vlq, data⟩ := this
  case complete => exact .panicked
  case writing  => exact writing _ b
  case vlq      => exact .andThen fun _ _ b => writing _ b

theorem vecWrite_stuck {size : Nat} {item : Vec T size} {s : VecSerialize w}
    (h : (vecWrite w size).Returned item s) : Stuck (vecWrite w size).pollSerialize s := by
  have hs := h.leaves VecSerialize.poll_leaves
  obtain ⟨ser, state, vlq, data⟩ := s
  obtain rfl := hs
  exact fun c b => ⟨_, rfl⟩

theorem deriveWrite_stuck {S : Shape} {ws : S.Writes Ctx B} {item : S.Value} {s : DeriveSerialize ws}
    (h : (deriveWrite ws).Returned item s) : Stuck (deriveWrite ws).pollSerialize s := by
  have hs : s = .complete := by
    refine h.leaves (P := fun _ s => s = .complete) fun c s b => ?_
    change (DeriveSerialize.pollSerialize c s b).Leaves _
    have fields i idx d (sers : Sers (ws i)) (b : B) :
        (DeriveSerialize.pollFields c i idx d sers b).Leaves fun _ s => s = .complete := by
      unfold DeriveSerialize.pollFields
      apply Polled.Leaves.andThen
      exact fun _ _ _ => .ready rfl
    cases s
    case complete             => exact .panicked
    case variant i idx d sers =>
      simp only [DeriveSerialize.pollSerialize]
      split
      case isFalse => exact fields i idx d sers b
      case isTrue  =>
        cases d
        case none   => exact .panicked
        case some d =>
          apply Polled.Leaves.andThen
          exact fun _ d b => fields i 1 (some d) sers b
  obtain rfl := hs
  exact fun c b => ⟨_, rfl⟩

end

section

variable {n : Nat} {F : Fin n → Type} {ws : (i : Fin n) → MinCodecWrite Ctx B (F i)}

theorem tupleWrite_stuck {item : (i : Fin n) → F i} {s : TupleSerialize ws}
    (h : (tupleWrite ws).Returned item s) : Stuck (tupleWrite ws).pollSerialize s := by
  have hs : s.index = n + 1 := by
    refine h.leaves (P := fun _ s => s.index = n + 1) fun c s b => ?_
    change (TupleSerialize.pollSerialize c s b).Leaves _
    apply Polled.Leaves.andThen
    intro _ s b
    split
    case isTrue  => exact .ready rfl
    case isFalse => exact .panicked
  obtain ⟨index, sers⟩ := s
  obtain rfl := hs
  intro c b
  refine ⟨"tuple serialize polled after completion", ?_⟩
  show TupleSerialize.pollSerialize c ⟨n + 1, sers⟩ b = _
  unfold TupleSerialize.pollSerialize
  rw [Sers.poll_ready (by simp), Polled.andThen_ok rfl, Nat.zero_add, if_neg (by simp)]
  rfl

end

theorem pollItems_leaves (ctx : Ctx) (items : List T) (ser : Option w.Serialize) (b : B) :
    (pollItems w ctx items ser b).Leaves fun _ s => s.1 = [] := by
  induction items generalizing ser b
  case nil              => exact .ready rfl
  case cons item data hi =>
    unfold pollItems
    apply Polled.Leaves.andThen
    exact fun _ ser b => hi (some ser) b

theorem arrayWrite_silences [BitSink B] {n : Nat} : (arrayWrite w n).Silences := by
  intro _ s h
  have hs : s.data = [] := by
    refine h.leaves (P := fun _ s => s.data = []) fun c s b => ?_
    intro v ho
    obtain ⟨_, hx, hk⟩ := Polled.andThen_ready ho
    have hl := pollItems_leaves c s.data s.ser b _ hx
    exact (congrArg (fun x => x.state.data) hk).trans hl
  obtain ⟨data, ser⟩ := s
  obtain rfl := hs
  exact .of_eq fun _ _ => rfl

theorem boxWrite_eq (w : MinCodecWrite Ctx B T) : boxWrite w = w := by
  obtain ⟨Serialize, Error, serialize, pollSerialize⟩ := w
  unfold boxWrite
  congr 1
  funext c s b
  exact Polled.lift_id (pollSerialize c s b)

section

variable [BitBufMut B] [LawfulBitBufMut B]

theorem BytesSerialize.poll_drains {this : BytesSerialize B} {bits : List Bool}
    (h : Drains BitBufMut.drainInto this.drain bits) (b : B) :
    Produces b (bits.take (room b)) (this.pollSerialize b).buf ∧
    Drains BitBufMut.drainInto (this.pollSerialize b).state.drain (bits.drop (room b)) ∧
    ((this.pollSerialize b).outcome = .ready (.ok ()) → bits.length ≤ room b) := by
  obtain ⟨ho, hp, hd⟩ := h.step b
  unfold pollSerialize BitBufMut.pollDrain
  cases hx : BitBufMut.drainInto this.drain b with
  | mk done rest =>
    obtain ⟨drain, b'⟩ := rest
    rw [hx] at ho hp hd
    cases done
    case none    => exact ⟨hp, hd, nofun⟩
    case some u  =>
      refine ⟨hp, hd, fun _ => ?_⟩
      by_contra hc
      rw [if_neg hc] at ho
      cases ho

theorem stringWrite_silences : (stringWrite : MinCodecWrite Ctx B Str).Silences := by
  intro _ s h
  obtain ⟨t, c, b, ht, ho, rfl⟩ := h
  have hd : ∃ bits, Drains BitBufMut.drainInto t.drain bits := by
    refine ht.preserves (P := fun t => ∃ bits, Drains BitBufMut.drainInto t.drain bits)
      ⟨_, LawfulBitBufMut.drain_drains _⟩ ?_
    rintro _ t b ⟨bits, hd⟩ _
    exact ⟨_, (BytesSerialize.poll_drains hd b).2.1⟩
  obtain ⟨bits, hd⟩ := hd
  obtain ⟨_, hd, hl⟩ := BytesSerialize.poll_drains hd b
  rw [List.drop_of_length_le (hl ho)] at hd
  refine ⟨fun s => Drains BitBufMut.drainInto s.drain [], hd, fun _ s b hs => ?_⟩
  obtain ⟨hp, hs, _⟩ := BytesSerialize.poll_drains hs b
  rw [List.take_nil] at hp
  rw [List.drop_nil] at hs
  exact ⟨hp, hs⟩

end

-- Whatever run it has written its item in, the serializer writes nothing more.
def MinCodecWrite.StaysSilent [BitSink B] (w : MinCodecWrite Ctx B T) : Prop :=
  ∀ {item s}, w.Returned item s → ∀ run, Stream.StaysSilent w.pollSerialize s run

-- Whatever run it has written its item in, the serializer writes it again in each poll with room for
-- it. It is a single bit.
def MinCodecWrite.Rewrites [BitSink B] (w : MinCodecWrite Ctx B T) : Prop :=
  ∃ bit : T → Bool, w.EncodesOnce (fun v => [bit v]) ∧
    ∀ {item s}, w.Returned item s → ∀ run, Stream.Rewrites w.pollSerialize [bit item] s run

-- `bool`, and what only hands it on. Its serializer keeps the item, and has no state that says that
-- it is complete.
inductive MinCodecWrite.Reemits [BitBufMut B] : {T : Type} → MinCodecWrite Ctx B T → Prop
  | bool : Reemits boolWrite
  | box {T : Type} {w : MinCodecWrite Ctx B T} : Reemits w → Reemits (boxWrite w)

theorem boolWrite_poll_state [BitBufMut B] (ctx : Ctx)
    (s : (boolWrite : MinCodecWrite Ctx B Bool).Serialize) (b : B) :
    ((boolWrite : MinCodecWrite Ctx B Bool).pollSerialize ctx s b).state = s := by
  show ((BitBufMut.pollWriteBool (BoolSerialize.item s) b).lift (fun _ => s) (id : Empty → Empty)).state = s
  unfold Polled.lift Polled.andThen
  split <;> rfl

theorem boolWrite_rewrites [BitBufMut B] [LawfulBitBufMut B] :
    (boolWrite : MinCodecWrite Ctx B Bool).Rewrites := by
  refine ⟨id, boolWrite_encodesOnce, ?_⟩
  rintro item s ⟨t, c, b, ht, _, rfl⟩ run
  have hs : t = boolWrite.serialize item :=
    ht.preserves (P := fun t => t = _) rfl fun c t b ht _ => (boolWrite_poll_state c t b).trans ht
  rw [boolWrite_poll_state, hs]
  exact .of_state_eq (fun c b => boolWrite_poll_state c _ b)
    (fun c b hb => ((boolWrite_encodesOnce item c b).fits hb).2) run

theorem MinCodecWrite.Reemits.rewrites [BitBufMut B] [LawfulBitBufMut B] (h : w.Reemits) :
    w.Rewrites := by
  induction h
  case bool       => exact boolWrite_rewrites
  case box w _ hi =>
    rw [boxWrite_eq]
    exact hi

theorem MinCodecWrite.Reemits.nonempty [BitBufMut B] (h : w.Reemits) : Nonempty T := by
  induction h
  case bool   => exact ⟨true⟩
  case box hi => exact hi

theorem Format.silences {B' : Type} [BitBuf B] [BitBufMut B'] [LawfulBitBufMut B']
    {r : MinCodecRead Ctx B T} {w : MinCodecWrite Ctx B' T} (h : Format .closed r w)
    (hw : ¬w.Reemits) : w.Silences := by
  induction h
  case leaf h        => exact h.elim
  case map           => exact .of_stuck mapWrite_stuck
  case bool          => exact absurd .bool hw
  case number        => exact .of_stuck numberWrite_stuck
  case char          => exact .of_stuck mapWrite_stuck
  case usize         => exact .of_stuck mapWrite_stuck
  case isize         => exact .of_stuck mapWrite_stuck
  case unit          => exact fun _ _ _ => .of_eq fun _ _ => rfl
  case empty h       => exact fun item _ _ => (h item).elim
  case string        => exact stringWrite_silences
  case box w _ hi    =>
    rw [boxWrite_eq]
    exact hi fun h => hw h.box
  case option        => exact .of_stuck optionWrite_stuck
  case result        => exact .of_stuck resultWrite_stuck
  case vec           => exact .of_stuck vecWrite_stuck
  case array         => exact arrayWrite_silences
  case tuple1        => exact .of_stuck mapWrite_stuck
  case tuple         => exact .of_stuck tupleWrite_stuck
  case derive        => exact .of_stuck deriveWrite_stuck
  case deriveEmpty h => exact fun item _ _ => by have := item.variant.isLt; omega

section

variable {B' : Type} [BitSliceMut B'] [LawfulBitSliceMut B'] {w : MinCodecWrite Ctx B' T}

theorem MinCodecWrite.Rewrites.not_staysSilent (h : w.Rewrites) (v : T) (ctx : Ctx) :
    ¬w.StaysSilent := by
  intro hs
  have ⟨bit, he, hr⟩ := h
  have ⟨b, hb⟩ := exists_room B' 1
  have hv : w.Returned v (w.pollSerialize ctx (w.serialize v) b).state :=
    ⟨_, ctx, b, .refl, ((he v ctx b).fits hb).1, rfl⟩
  exact (hr hv [(ctx, b)]).not_staysSilent hb (List.cons_ne_nil _ _) (hs hv _)

-- Once a serializer has written its item, no poll writes another bit. It is different for `bool`
-- alone, which writes its bit again, and for what hands it on.
theorem staysSilent_iff [BitBuf B] {r : MinCodecRead Ctx B T} (ctx : Ctx) (h : Format .closed r w) :
    (w.StaysSilent ↔ ¬w.Reemits) ∧ (w.Reemits → w.Rewrites) := by
  refine ⟨⟨fun hs hw => ?_, fun hw _ _ hs => (h.silences hw _ _ hs).staysSilent⟩, fun hw => hw.rewrites⟩
  have ⟨v⟩ := hw.nonempty
  exact hw.rewrites.not_staysSilent v ctx hs

theorem u16Write_not_reemits : ¬(u16Write : MinCodecWrite Unit SliceMut _).Reemits := by
  intro h
  have ⟨bit, he, _⟩ := h.rewrites
  have hl := congrArg (fun enc => (enc 0).length) (he.unique (numberWrite_encodesOnce 2) ())
  cases hl

theorem staysSilent_iff_bool : (u16Write : MinCodecWrite Unit SliceMut _).StaysSilent ∧
    (boxWrite boolWrite : MinCodecWrite Unit SliceMut Bool).Rewrites ∧
    ¬(boxWrite boolWrite : MinCodecWrite Unit SliceMut Bool).StaysSilent := by
  have hn : Format .closed (u16Read : MinCodecRead Unit Slice _) (u16Write : MinCodecWrite Unit SliceMut _) :=
    .number 2
  have hb : Format .closed (boxRead boolRead : MinCodecRead Unit Slice Bool)
      (boxWrite boolWrite : MinCodecWrite Unit SliceMut Bool) := .box .bool
  exact ⟨(staysSilent_iff () hn).1.mpr u16Write_not_reemits, (staysSilent_iff () hb).2 (.box .bool),
    fun hs => (staysSilent_iff () hb).1.mp hs (.box .bool)⟩

end

end Mincodec
