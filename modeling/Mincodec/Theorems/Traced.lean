import Mincodec.Format
import Mincodec.Stream.Traced

-- What a codec of the format does to its buffer, if the codecs at its leaves and the buffer itself do.
namespace Mincodec

open Stream BitSource BitSink Polled

variable {Ctx B B' T U : Type} {K : B → B → Prop} {P : Ctx → B → B → Prop}
variable {K' : B' → B' → Prop} {P' : Ctx → B' → B' → Prop}

def MinCodecRead.Traces (r : MinCodecRead Ctx B T) (K : B → B → Prop) (P : Ctx → B → B → Prop) :
    Prop :=
  ∀ c s b, (r.pollDeserialize c s b).Traces K (P c) b

def MinCodecWrite.Traces (w : MinCodecWrite Ctx B T) (K : B → B → Prop) (P : Ctx → B → B → Prop) :
    Prop :=
  ∀ c s b, (w.pollSerialize c s b).Traces K (P c) b

structure BitBuf.Keeps [BitBuf B] (K : B → B → Prop) : Prop where
  readBool b         : K b (BitBuf.readBool b).2
  fillFrom f b       : K b (BitBuf.fillFrom f b).2.2
  cappedFillFrom f b : K b (BitBuf.cappedFillFrom f b).2.2
  pollRead v b       : K b (BitBuf.pollRead v b).2.2

structure BitBufMut.Keeps [BitBufMut B] (K : B → B → Prop) : Prop where
  writeBool x b       : K b (BitBufMut.writeBool x b).2
  drainInto d b       : K b (BitBufMut.drainInto d b).2.2
  cappedDrainInto d b : K b (BitBufMut.cappedDrainInto d b).2.2

theorem sufficient_traces {P : B → B → Prop} {α S ε : Type} {x : Partial α S B} {b : B}
    (h : K b x.2.2) : (sufficient x : Polled S B (Except ε α)).Traces K P b := by
  obtain ⟨_ | a, s, b⟩ := x <;> exact ⟨nofun, fun _ => h⟩

theorem BitBuf.Keeps.pollFill [BitBuf B] {P : B → B → Prop} (ht : Traced K P) (hk : Keeps K) (f : Fill B)
    (b : B) : (pollFill f b).Traces K P b :=
  (sufficient_traces (hk.fillFrom f b)).andThen ht fun _ _ _ => .ready ht

theorem BitBuf.Keeps.pollCappedFill [BitBuf B] {P : B → B → Prop} (ht : Traced K P) (hk : Keeps K)
    (f : CappedFill B) (b : B) : (pollCappedFill f b).Traces K P b :=
  (sufficient_traces (hk.cappedFillFrom f b)).andThen ht fun _ _ _ => .ready ht

section

variable {r : MinCodecRead Ctx B T} {r' : MinCodecRead Ctx B U} (ht : ∀ c, Traced K (P c))

include ht

theorem mapRead_traces {E : Type} (h : r.Traces K P) (map : T → Except E U) :
    (mapRead r map).Traces K P :=
  fun c s b => (h c s.deser b).andThen (ht c) fun _ _ _ => .ready (ht c)

theorem boxRead_traces (h : r.Traces K P) : (boxRead r).Traces K P :=
  fun c s b => (h c s b).lift (ht c)

theorem arrayRead_traces (h : r.Traces K P) (n : Nat) : (arrayRead r n).Traces K P := by
  have hi (c : Ctx) (s : ArrayDeserialize r n) (hs : s.data.length < n) (b : B) :
      (s.pollItem c hs b).Traces K (P c) b := by
    fun_induction ArrayDeserialize.pollItem c s hs b
    case case1 s hs b hi =>
      apply (h c s.deser b).andThen (ht c)
      intro item _ b
      split
      case isTrue hl => exact hi item b hl
      case isFalse   => exact .ready (ht c)
  intro c s b
  show (ArrayDeserialize.pollDeserialize c s b).Traces K (P c) b
  unfold ArrayDeserialize.pollDeserialize
  split
  case isTrue hs => exact hi c s hs b
  case isFalse   => exact .panicked (ht c)

theorem OptionDeserialize.poll_traces (h : r.Traces K P) (c : Ctx) (s : OptionDeserialize r) (b : B) :
    (s.pollDeserialize c b).Traces K (P c) b := by
  cases s
  case deserialize deser => exact (h c deser b).andThen (ht c) fun _ _ _ => .ready (ht c)
  case done              => exact .panicked (ht c)

theorem Slots.poll_traces {n : Nat} {F : Fin n → Type} {rs : (i : Fin n) → MinCodecRead Ctx B (F i)}
    (h : ∀ i, (rs i).Traces K P) (limit : Nat) (ctx : Ctx) (idx : Nat) (slots : Slots rs) (b : B) :
    (Slots.poll limit ctx idx slots b).Traces K (P ctx) b := by
  fun_induction Slots.poll limit ctx idx slots b
  case case1 idx slots b hi hn =>
    apply (OptionDeserialize.poll_traces ht (h ⟨idx, hi⟩) ctx (slots ⟨idx, hi⟩) b).andThen (ht ctx)
    intro _ slot b
    split
    case isTrue  => exact hn slot b
    case isFalse => exact .panicked (ht ctx)
  case case2 => exact .ready (ht ctx)

theorem tupleRead_traces {n : Nat} {F : Fin n → Type} {rs : (i : Fin n) → MinCodecRead Ctx B (F i)}
    (h : ∀ i, (rs i).Traces K P) : (tupleRead rs).Traces K P := by
  intro c s b
  apply (Slots.poll_traces ht h 256 c s.index s.data b).andThen (ht c)
  intro _ s b
  split
  case isFalse => exact .panicked (ht c)
  case isTrue  =>
    split
    case h_1 => exact .ready (ht c)
    case h_2 => exact .panicked (ht c)

theorem unitRead_traces (unit : T) : (unitRead unit : MinCodecRead Ctx B T).Traces K P :=
  fun c _ _ => .ready (ht c)

theorem emptyRead_traces (T : Type) : (emptyRead T : MinCodecRead Ctx B T).Traces K P :=
  fun c _ _ => .ready (ht c)

variable [BitBuf B] (hk : BitBuf.Keeps K)

include hk

omit ht in
theorem boolRead_traces : (boolRead : MinCodecRead Ctx B _).Traces K P :=
  fun _ _ _ => sufficient_traces (hk.readBool ..)

theorem numberRead_traces (n : Nat) : (numberRead n : MinCodecRead Ctx B _).Traces K P := by
  rintro c ⟨_ | f⟩ b
  case none => exact .panicked (ht c)
  case some => exact (hk.pollFill (ht c) f b).andThen (ht c) fun _ _ _ => .ready (ht c)

theorem stringRead_traces : (stringRead : MinCodecRead Ctx B _).Traces K P := by
  have hr (c : Ctx) (s : StringDeserialize B) (b : B) : (s.pollReading b).Traces K (P c) b :=
    (hk.pollFill (ht c) s.data b).andThen (ht c) fun _ _ _ => .ready (ht c)
  rintro c ⟨_ | _ | _, vlq, data⟩ b
  case reading  => exact hr c _ b
  case complete => exact .panicked (ht c)
  case vlq      =>
    show (StringDeserialize.pollDeserialize _ b).Traces K (P c) b
    unfold StringDeserialize.pollDeserialize
    apply (sufficient_traces (hk.pollRead ..)).andThen (ht c)
    intro _ _ b
    split
    case h_1 => exact .ready (ht c)
    case h_2 =>
      split
      case isTrue  => exact hr c _ b
      case isFalse => exact .panicked (ht c)

theorem Optional.optionRead_traces (h : r.Traces K P) : (optionRead r).Traces K P := by
  have hr (c : Ctx) (s : OptionDeserialize r) (b : B) :
      (OptionDeserialize.pollReading c s b).Traces K (P c) b :=
    (h c s.deser b).andThen (ht c) fun _ _ _ => .ready (ht c)
  rintro c ⟨deser, _ | _ | _⟩ b
  case reading   => exact hr c _ b
  case complete  => exact .panicked (ht c)
  case predicate =>
    apply (sufficient_traces (hk.readBool ..)).andThen (ht c)
    intro _ _ b
    split
    case isTrue  => exact hr c _ b
    case isFalse => exact .ready (ht c)

theorem resultRead_traces (h : r.Traces K P) (h' : r'.Traces K P) : (resultRead r r').Traces K P := by
  have hT (c : Ctx) (s : ResultDeserialize r r') (b : B) :
      (ResultDeserialize.pollT c s b).Traces K (P c) b :=
    (h c s.deserT b).andThen (ht c) fun _ _ _ => .ready (ht c)
  have hU (c : Ctx) (s : ResultDeserialize r r') (b : B) :
      (ResultDeserialize.pollU c s b).Traces K (P c) b :=
    (h' c s.deserU b).andThen (ht c) fun _ _ _ => .ready (ht c)
  rintro c ⟨deserU, deserT, _ | _ | _ | _⟩ b
  case readingT  => exact hT c _ b
  case readingU  => exact hU c _ b
  case complete  => exact .panicked (ht c)
  case predicate =>
    apply (sufficient_traces (hk.readBool ..)).andThen (ht c)
    intro _ _ b
    split
    case isTrue  => exact hT c _ b
    case isFalse => exact hU c _ b

theorem vecRead_traces (h : r.Traces K P) (size : Nat) : (vecRead r size).Traces K P := by
  have hr (c : Ctx) (s : VecDeserialize r size) (hs : s.state = .reading) (b : B) :
      (s.pollReading c hs b).Traces K (P c) b := by
    fun_induction VecDeserialize.pollReading c s hs b
    case case1             => exact .ready (ht c)
    case case2 s hs b _ hi => exact (h c s.deser b).andThen (ht c) fun item _ b => hi item b
  intro c s b
  show (s.pollDeserialize c b).Traces K (P c) b
  unfold VecDeserialize.pollDeserialize
  split
  case h_2 hs => exact hr c s hs b
  case h_3    => exact .panicked (ht c)
  case h_1    =>
    apply (sufficient_traces (hk.pollRead ..)).andThen (ht c)
    intro _ _ b
    split
    case h_1 => exact .ready (ht c)
    case h_2 =>
      split
      case isTrue  => exact hr c _ rfl b
      case isFalse => exact .panicked (ht c)

theorem deriveRead_traces {S : Shape} {rs : S.Reads Ctx B} (hv : 0 < S.variants)
    (h : ∀ i j, (rs i j).Traces K P) : (deriveRead rs hv).Traces K P := by
  have hi (c : Ctx) (i : Fin S.variants) (idx : Nat) (slots : Slots (rs i)) (b : B) :
      (DeriveDeserialize.pollVariant c i idx slots b).Traces K (P c) b := by
    apply (Slots.poll_traces ht (h i) _ c idx slots b).andThen (ht c)
    intro _ _ b
    split
    case h_1 => exact .ready (ht c)
    case h_2 => exact .panicked (ht c)
  rintro c (d | ⟨i, idx, slots⟩) b
  case variant     => exact hi c i idx slots b
  case determinant =>
    cases d
    case none   => exact .panicked (ht c)
    case some d =>
      apply (hk.pollCappedFill (ht c) d b).andThen (ht c)
      intro _ _ b
      unfold DeriveDeserialize.pollChosen
      split
      case isTrue  => exact hi c _ 0 _ b
      case isFalse => exact .panicked (ht c)

end

section

variable {w : MinCodecWrite Ctx B' T} {w' : MinCodecWrite Ctx B' U} (ht : ∀ c, Traced K' (P' c))

include ht

theorem mapWrite_traces {E : Type} (h : w.Traces K' P') (map : U → Except E T) :
    (mapWrite w map).Traces K' P' := by
  intro c s b
  cases s
  case mapError      => exact .ready (ht c)
  case complete      => exact .panicked (ht c)
  case serialize ser => exact (h c ser b).andThen (ht c) fun _ _ _ => .ready (ht c)

theorem boxWrite_traces (h : w.Traces K' P') : (boxWrite w).Traces K' P' :=
  fun c s b => (h c s b).lift (ht c)

theorem pollItems_traces (h : w.Traces K' P') (ctx : Ctx) (items : List T)
    (ser : Option w.Serialize) (b : B') : (pollItems w ctx items ser b).Traces K' (P' ctx) b := by
  induction items generalizing ser b
  case nil                => exact .ready (ht ctx)
  case cons item items hi =>
    exact (h ctx (w.serialize item) b).andThen (ht ctx) fun _ ser b => hi (some ser) b

theorem arrayWrite_traces (h : w.Traces K' P') (n : Nat) : (arrayWrite w n).Traces K' P' :=
  fun c s b => (pollItems_traces ht h c s.data s.ser b).lift (ht c)

theorem Sers.poll_traces {n : Nat} {F : Fin n → Type}
    {ws : (i : Fin n) → MinCodecWrite Ctx B' (F i)} (h : ∀ i, (ws i).Traces K' P') (first limit : Nat)
    (ctx : Ctx) (k : Nat) (sers : Sers ws) (b : B') :
    (Sers.poll first limit ctx k sers b).Traces K' (P' ctx) b := by
  fun_induction Sers.poll first limit ctx k sers b
  case case1 k sers b hk hi =>
    apply (h ⟨k, hk⟩ ctx (sers ⟨k, hk⟩) b).andThen (ht ctx)
    intro _ ser b
    split
    case isTrue  => exact hi ser b
    case isFalse => exact .panicked (ht ctx)
  case case2 => exact .ready (ht ctx)

theorem tupleWrite_traces {n : Nat} {F : Fin n → Type}
    {ws : (i : Fin n) → MinCodecWrite Ctx B' (F i)} (h : ∀ i, (ws i).Traces K' P') :
    (tupleWrite ws).Traces K' P' := by
  intro c s b
  apply (Sers.poll_traces ht h 0 256 c s.index s.sers b).andThen (ht c)
  intro _ s b
  split
  case isTrue  => exact .ready (ht c)
  case isFalse => exact .panicked (ht c)

theorem unitWrite_traces (T : Type) : (unitWrite T : MinCodecWrite Ctx B' T).Traces K' P' :=
  fun c _ _ => .ready (ht c)

theorem emptyWrite_traces (T : Type) : (emptyWrite T : MinCodecWrite Ctx B' T).Traces K' P' :=
  fun c _ _ => .panicked (ht c)

variable [BitBufMut B'] (hk : BitBufMut.Keeps K')

include hk

theorem boolWrite_traces : (boolWrite : MinCodecWrite Ctx B' _).Traces K' P' :=
  fun c _ _ => (sufficient_traces (hk.writeBool ..)).lift (ht c)

theorem numberWrite_traces (n : Nat) : (numberWrite n : MinCodecWrite Ctx B' _).Traces K' P' := by
  rintro c ⟨_ | d⟩ b
  case none => exact .panicked (ht c)
  case some => exact (sufficient_traces (hk.drainInto ..)).andThen (ht c) fun _ _ _ => .ready (ht c)

theorem stringWrite_traces : (stringWrite : MinCodecWrite Ctx B' _).Traces K' P' :=
  fun c _ _ => (sufficient_traces (hk.drainInto ..)).lift (ht c)

theorem Optional.optionWrite_traces (h : w.Traces K' P') : (optionWrite w).Traces K' P' := by
  have hw (c : Ctx) (s : OptionSerialize w) (b : B') :
      (OptionSerialize.pollWriting c s b).Traces K' (P' c) b := by
    obtain ⟨_ | ser, state⟩ := s
    case none => exact .panicked (ht c)
    case some => exact (h c ser b).andThen (ht c) fun _ _ _ => .ready (ht c)
  rintro c ⟨ser, _ | _ | _⟩ b
  case writing   => exact hw c _ b
  case complete  => exact .panicked (ht c)
  case predicate =>
    apply (sufficient_traces (hk.writeBool ..)).andThen (ht c)
    intro _ _ b
    split
    case isTrue  => exact hw c _ b
    case isFalse => exact .ready (ht c)

theorem resultWrite_traces (h : w.Traces K' P') (h' : w'.Traces K' P') :
    (resultWrite w w').Traces K' P' := by
  have hT (c : Ctx) (s : ResultSerialize w w') (b : B') : (s.pollT c b).Traces K' (P' c) b := by
    obtain ⟨_ | ser, serU, state⟩ := s
    case none => exact .panicked (ht c)
    case some => exact (h c ser b).andThen (ht c) fun _ _ _ => .ready (ht c)
  have hU (c : Ctx) (s : ResultSerialize w w') (b : B') : (s.pollU c b).Traces K' (P' c) b := by
    obtain ⟨serT, _ | ser, state⟩ := s
    case none => exact .panicked (ht c)
    case some => exact (h' c ser b).andThen (ht c) fun _ _ _ => .ready (ht c)
  rintro c ⟨serT, serU, _ | _ | _ | _⟩ b
  case writingT  => exact hT c _ b
  case writingU  => exact hU c _ b
  case complete  => exact .panicked (ht c)
  case predicate =>
    apply (sufficient_traces (hk.writeBool ..)).andThen (ht c)
    intro _ _ b
    split
    case isTrue  => exact hT c _ b
    case isFalse => exact hU c _ b

theorem vecWrite_traces (h : w.Traces K' P') (size : Nat) : (vecWrite w size).Traces K' P' := by
  have hw (c : Ctx) (s : VecSerialize w) (b : B') : (s.pollWriting c b).Traces K' (P' c) b :=
    (pollItems_traces ht h c s.data s.ser b).andThen (ht c) fun _ _ _ => .ready (ht c)
  rintro c ⟨ser, _ | _ | _, vlq, data⟩ b
  case vlq      => exact (sufficient_traces (hk.drainInto ..)).andThen (ht c) fun _ _ b => hw c _ b
  case writing  => exact hw c _ b
  case complete => exact .panicked (ht c)

theorem deriveWrite_traces {S : Shape} {ws : S.Writes Ctx B'} (h : ∀ i j, (ws i j).Traces K' P') :
    (deriveWrite ws).Traces K' P' := by
  have hf (c : Ctx) (i : Fin S.variants) (idx : Nat) (d : Option (BitBufMut.CappedDrain B'))
      (sers : Sers (ws i)) (b : B') : (DeriveSerialize.pollFields c i idx d sers b).Traces K' (P' c) b :=
    (Sers.poll_traces ht (h i) _ _ c _ sers b).andThen (ht c) fun _ _ _ => .ready (ht c)
  rintro c (⟨i, idx, d, sers⟩ | _) b
  case complete => exact .panicked (ht c)
  case variant  =>
    show (DeriveSerialize.pollSerialize c (.variant i idx d sers) b).Traces K' (P' c) b
    simp only [DeriveSerialize.pollSerialize]
    split
    case isFalse => exact hf c i idx d sers b
    case isTrue  =>
      cases d
      case none   => exact .panicked (ht c)
      case some d =>
        exact (sufficient_traces (hk.cappedDrainInto ..)).andThen (ht c) fun _ d b =>
          hf c i 1 (some d) sers b

end

variable [BitBuf B] [BitBufMut B'] {scope : Scope Ctx B B'}
variable {r : MinCodecRead Ctx B T} {w : MinCodecWrite Ctx B' T}

theorem Format.read_traces (ht : ∀ c, Traced K (P c)) (hk : BitBuf.Keeps K) (h : Format scope r w)
    (hl : ∀ {T} {r : MinCodecRead Ctx B T} {w : MinCodecWrite Ctx B' T}, scope.leaf r w →
      r.Traces K P) : r.Traces K P := by
  induction h
  case leaf h           => exact hl h
  case map hi           => exact mapRead_traces ht hi _
  case bool             => exact boolRead_traces hk
  case number n         => exact numberRead_traces ht hk n
  case char             => exact mapRead_traces ht (numberRead_traces ht hk 4) _
  case usize            => exact mapRead_traces ht (numberRead_traces ht hk 8) _
  case isize            => exact mapRead_traces ht (numberRead_traces ht hk 8) _
  case unit             => exact unitRead_traces ht _
  case empty            => exact emptyRead_traces ht _
  case string           => exact stringRead_traces ht hk
  case box hi           => exact boxRead_traces ht hi
  case option hi        => exact Optional.optionRead_traces ht hk hi
  case result hi hi'    => exact resultRead_traces ht hk hi hi'
  case vec size _ _ hi  => exact vecRead_traces ht hk hi size
  case array hi         => exact arrayRead_traces ht hi _
  case tuple1 hi        => exact mapRead_traces ht hi _
  case tuple hi         => exact tupleRead_traces ht hi
  case derive hv _ _ _ hi => exact deriveRead_traces ht hk hv hi
  case deriveEmpty      => exact emptyRead_traces ht _

theorem Format.write_traces (ht : ∀ c, Traced K' (P' c)) (hk : BitBufMut.Keeps K')
    (h : Format scope r w)
    (hl : ∀ {T} {r : MinCodecRead Ctx B T} {w : MinCodecWrite Ctx B' T}, scope.leaf r w →
      w.Traces K' P') : w.Traces K' P' := by
  induction h
  case leaf h          => exact hl h
  case map hi          => exact mapWrite_traces ht hi _
  case bool            => exact boolWrite_traces ht hk
  case number n        => exact numberWrite_traces ht hk n
  case char            => exact mapWrite_traces ht (numberWrite_traces ht hk 4) _
  case usize           => exact mapWrite_traces ht (numberWrite_traces ht hk 8) _
  case isize           => exact mapWrite_traces ht (numberWrite_traces ht hk 8) _
  case unit            => exact unitWrite_traces ht _
  case empty           => exact emptyWrite_traces ht _
  case string          => exact stringWrite_traces ht hk
  case box hi          => exact boxWrite_traces ht hi
  case option hi       => exact Optional.optionWrite_traces ht hk hi
  case result hi hi'   => exact resultWrite_traces ht hk hi hi'
  case vec size _ _ hi => exact vecWrite_traces ht hk hi size
  case array hi        => exact arrayWrite_traces ht hi _
  case tuple1 hi       => exact mapWrite_traces ht hi _
  case tuple hi        => exact tupleWrite_traces ht hi
  case derive hi       => exact deriveWrite_traces ht hk hi
  case deriveEmpty     => exact emptyWrite_traces ht _

end Mincodec
