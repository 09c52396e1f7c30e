import Mincodec.Format
import Mincodec.Stream.Settles

-- The serializers of the format are out of room only so many times, those of lists included.
namespace Mincodec

open Stream BitSink

variable {Ctx B B' T U : Type}

def Settling [BitSink B] (w : MinCodecWrite Ctx B T) (item : T) : Prop :=
  ∃ n, Stream.Settles w.pollSerialize n (w.serialize item)

def MinCodecWrite.Settles [BitSink B] (w : MinCodecWrite Ctx B T) : Prop :=
  ∀ item, Settling w item

theorem MinCodecWrite.Encodes.settles [BitSink B] {w : MinCodecWrite Ctx B T}
    {enc : T → Emission w.Error} (h : w.Encodes enc) : w.Settles :=
  fun item => ⟨_, Stream.Encodes.settles (h item)⟩

section

variable [BitSink B] {w : MinCodecWrite Ctx B T} {w' : MinCodecWrite Ctx B U}

namespace MapSerialize

variable {E : Type}

def Left (n : Nat) : MapSerialize w E → Prop
  | .serialize ser => Stream.Settles w.pollSerialize n ser
  | _              => True

theorem poll_closer {n : Nat} {s : MapSerialize w E} (hs : s.Left n) (c : Ctx) (b : B) :
    Closer (fun n (s : MapSerialize w E) => s.Left n) n b (s.pollSerialize c b) := by
  unfold MapSerialize.pollSerialize
  cases s
  case mapError      => exact .ready
  case complete      => exact .panicked
  case serialize ser =>
    exact (Settles.closer hs c b).finish (fun _ _ => id) fun _ _ =>
      ⟨Outcome.not_unfinished_ready _, rfl⟩

end MapSerialize

theorem mapWrite_settles {E : Type} (h : w.Settles) (map : U → Except E T) :
    (mapWrite w map).Settles := by
  intro item
  show ∃ n, Stream.Settles MapSerialize.pollSerialize n (MapSerialize.new w item map)
  unfold MapSerialize.new
  cases map item
  case error e => exact ⟨0, _, trivial, fun c _ _ b hs => MapSerialize.poll_closer hs c b⟩
  case ok x    => exact (h x).imp fun n hn => ⟨_, hn, fun c _ _ b hs => MapSerialize.poll_closer hs c b⟩

theorem boxWrite_settles (h : w.Settles) : (boxWrite w).Settles :=
  fun item => (h item).imp fun _ hn => ⟨Stream.Settles w.pollSerialize, hn, fun c _ _ b hs =>
    (Settles.closer hs c b).lift fun _ _ => id⟩

theorem pollItems_closer (h : w.Settles) (c : Ctx) (items : List T) (ser : Option w.Serialize) (b : B) :
    Closer (fun n s => 2 * s.1.length ≤ n) (2 * items.length) b (pollItems w c items ser b) := by
  induction items generalizing ser b
  case nil                => exact .ready
  case cons item items hi =>
    have ⟨n, hn⟩ := h item
    have hx : Closer (fun m _ => m = 0) 1 b (w.pollSerialize c (w.serialize item) b) :=
      ⟨(hn.closer c b).exists_produces, fun _ => ⟨0, rfl⟩, fun _ => ⟨0, rfl, by omega, by omega⟩⟩
    have hl : 2 * (item :: items).length = 1 + 2 * items.length + 1 := by
      rw [List.length_cons]
      omega
    rw [hl]
    unfold pollItems
    exact hx.andThen (fun m _ hm => by simp only; omega) fun ser b => hi (some ser) b

theorem arrayWrite_settles (h : w.Settles) (n : Nat) : (arrayWrite w n).Settles := by
  intro items
  let R n (s : ArraySerialize w) : Prop := 2 * s.data.length ≤ n
  refine ⟨_, R, le_refl _, fun c n s b hs => ?_⟩
  have hx : Closer R (2 * s.data.length) b (ArraySerialize.pollSerialize c s b) :=
    (pollItems_closer h c s.data s.ser b).lift fun _ _ => id
  exact hx.mono (fun _ _ => id) hs

def fieldsLeft {n : Nat} (ns : Fin n → Nat) (k : Nat) : Nat :=
  if h : k < n then ns ⟨k, h⟩ + fieldsLeft ns (k + 1) + 1 else 0
termination_by n - k

theorem fieldsLeft_of_lt {n : Nat} (ns : Fin n → Nat) {k : Nat} (h : k < n) :
    fieldsLeft ns k = ns ⟨k, h⟩ + fieldsLeft ns (k + 1) + 1 := by
  rw [fieldsLeft, dif_pos h]

theorem fieldsLeft_update {n : Nat} (ns : Fin n → Nat) {i : Fin n} {m k : Nat} (h : i.val < k) :
    fieldsLeft (Function.update ns i m) k = fieldsLeft ns k := by
  fun_induction fieldsLeft ns k
  case case1 k hk hi =>
    have hne : (⟨k, hk⟩ : Fin n) ≠ i := fun he => by
      rw [← he] at h
      exact Nat.lt_irrefl k h
    rw [fieldsLeft_of_lt _ hk, Function.update_of_ne hne, hi (Nat.lt_succ_of_lt h)]
  case case2 k hk    => rw [fieldsLeft, dif_neg hk]

section

variable {n : Nat} {F : Fin n → Type} {ws : (i : Fin n) → MinCodecWrite Ctx B (F i)}

def Sers.Left (first k n' : Nat) (s : Nat × Sers ws) : Prop :=
  s.1 = first + k ∧ ∃ ns, (∀ i : Fin n, k ≤ i.val →
    Stream.Settles (ws i).pollSerialize (ns i) (s.2 i)) ∧ n' = fieldsLeft ns k

theorem Sers.poll_closer (first limit : Nat) (c : Ctx) (k : Nat) (sers : Sers ws) (b : B)
    (ns : Fin n → Nat)
    (h : ∀ i : Fin n, k ≤ i.val → Stream.Settles (ws i).pollSerialize (ns i) (sers i)) :
    Closer (fun m s => ∃ k, Sers.Left first k m s) (fieldsLeft ns k) b
      (Sers.poll first limit c k sers b) := by
  fun_induction Sers.poll first limit c k sers b
  case case1 k sers b hk hi =>
    have hlt (ser : (ws ⟨k, hk⟩).Serialize) (i : Fin n) (hle : k + 1 ≤ i.val) :
        Stream.Settles (ws i).pollSerialize (ns i) (Function.update sers ⟨k, hk⟩ ser i) := by
      have hne : i ≠ ⟨k, hk⟩ := fun he => by simp [he] at hle
      rw [Function.update_of_ne hne]
      exact h i (Nat.le_of_succ_le hle)
    rw [fieldsLeft_of_lt ns hk]
    apply ((h ⟨k, hk⟩ (le_refl k)).closer c b).andThen
    case hput =>
      intro m ser hm
      refine ⟨k, rfl, Function.update ns ⟨k, hk⟩ m, fun i hle => ?_, ?_⟩
      case refine_1 =>
        by_cases he : i = ⟨k, hk⟩
        case pos =>
          subst he
          simpa only [Function.update_self] using hm
        case neg => simpa only [Function.update_of_ne he] using h i hle
      case refine_2 =>
        rw [fieldsLeft_of_lt _ hk, Function.update_self, fieldsLeft_update ns (Nat.lt_succ_self k)]
    case hf   =>
      intro ser b
      split
      case isTrue  => exact hi ser b (hlt ser)
      case isFalse => exact .panicked
  case case2 => exact .ready

theorem exists_settles (h : ∀ i, (ws i).Settles) (v : (i : Fin n) → F i) : ∃ ns : Fin n → Nat,
    ∀ i, Stream.Settles (ws i).pollSerialize (ns i) ((ws i).serialize (v i)) := by
  choose ns hn using fun i => h i (v i)
  exact ⟨ns, hn⟩

theorem tupleWrite_settles (h : ∀ i, (ws i).Settles) : (tupleWrite ws).Settles := by
  intro v
  have ⟨ns, hn⟩ := exists_settles h v
  let R m (s : TupleSerialize ws) : Prop := ∃ k, Sers.Left 0 k m (s.index, s.sers)
  refine ⟨fieldsLeft ns 0, R, ⟨0, rfl, ns, fun i _ => hn i, rfl⟩, ?_⟩
  rintro c m s b ⟨k, hk, ns, hs, rfl⟩
  obtain rfl : s.index = k := hk.trans k.zero_add
  show Closer R _ b (TupleSerialize.pollSerialize c s b)
  refine (Sers.poll_closer 0 256 c s.index s.sers b ns hs).finish (fun _ _ => id) fun s b => ?_
  split
  case isTrue  => exact ⟨Outcome.not_unfinished_ready _, rfl⟩
  case isFalse => exact ⟨Outcome.not_unfinished_panicked _, rfl⟩

end

end

section

variable [BitBufMut B] [LawfulBitBufMut B] {w : MinCodecWrite Ctx B T} {w' : MinCodecWrite Ctx B U}

theorem BitBufMut.pollWriteBool_closer (x : Bool) (b : B) :
    Closer (fun m _ => m = 1) 1 b (pollWriteBool x b) := by
  refine (pollWriteBool_writes x b).closer.mono ?_ (le_refl 1)
  rintro m _ ⟨f, rfl, rfl⟩
  rfl

theorem Drains.closer {D : Type} {drain : D → B → Partial Unit D B} {d : D} {bits : List Bool}
    (h : Drains drain d bits) (b : B) :
    Closer (fun m d => ∃ bits, Drains drain d bits ∧ m = bits.length) bits.length b
      (sufficient (drain d b) : Polled D B (Except Empty Unit)) := by
  refine (h.writes b).closer.mono ?_ (le_refl _)
  rintro m d ⟨_, rfl, bits, hd, rfl⟩
  exact ⟨bits, hd, rfl⟩

namespace Optional

namespace OptionSerialize

def Left (m : Nat) : OptionSerialize w → Prop
  | ⟨some ser, .predicate⟩ => ∃ k, Stream.Settles w.pollSerialize k ser ∧ m = 1 + k + 1
  | ⟨none, .predicate⟩     => ∃ k, m = 1 + k + 1
  | ⟨some ser, .writing⟩   => Stream.Settles w.pollSerialize m ser
  | _                      => True

theorem pollWriting_closer {k : Nat} {ser : w.Serialize} (hs : Stream.Settles w.pollSerialize k ser)
    (c : Ctx) (b : B) : Closer (fun m (s : OptionSerialize w) => s.Left m) k b
      (pollWriting c ⟨some ser, .writing⟩ b) := by
  unfold OptionSerialize.pollWriting
  exact (hs.closer c b).finish (fun _ _ => id) fun _ _ => ⟨Outcome.not_unfinished_ready _, rfl⟩

theorem poll_closer {m : Nat} {s : OptionSerialize w} (hs : s.Left m) (c : Ctx) (b : B) :
    Closer (fun m (s : OptionSerialize w) => s.Left m) m b (s.pollSerialize c b) := by
  unfold OptionSerialize.pollSerialize
  obtain ⟨_ | ser, _ | _ | _⟩ := s
  case none.predicate =>
    obtain ⟨k, rfl⟩ := hs
    exact (BitBufMut.pollWriteBool_closer false b).andThen (by rintro m s rfl; exact ⟨k, rfl⟩)
      fun _ _ => .ready
  case some.predicate =>
    obtain ⟨k, hs, rfl⟩ := hs
    exact (BitBufMut.pollWriteBool_closer true b).andThen (by rintro m s rfl; exact ⟨k, hs, rfl⟩)
      fun _ b => pollWriting_closer hs c b
  case none.writing | none.complete | some.complete => exact .panicked
  case some.writing => exact pollWriting_closer hs c b

end OptionSerialize

theorem optionWrite_settles (h : w.Settles) : (optionWrite w).Settles := by
  intro item
  cases item
  case none   =>
    exact ⟨1 + 0 + 1, _, ⟨0, rfl⟩, fun c _ _ b hs => OptionSerialize.poll_closer hs c b⟩
  case some x =>
    obtain ⟨k, hk⟩ := h x
    exact ⟨_, _, ⟨k, hk, rfl⟩, fun c _ _ b hs => OptionSerialize.poll_closer hs c b⟩

end Optional

namespace ResultSerialize

def Left (m : Nat) : ResultSerialize w w' → Prop
  | ⟨some ser, _, .predicate⟩    => ∃ k, Stream.Settles w.pollSerialize k ser ∧ m = 1 + k + 1
  | ⟨none, some ser, .predicate⟩ => ∃ k, Stream.Settles w'.pollSerialize k ser ∧ m = 1 + k + 1
  | ⟨none, none, .predicate⟩     => ∃ k, m = 1 + k + 1
  | ⟨some ser, _, .writingT⟩     => Stream.Settles w.pollSerialize m ser
  | ⟨_, some ser, .writingU⟩     => Stream.Settles w'.pollSerialize m ser
  | _                            => True

theorem pollT_closer {k : Nat} {ser : w.Serialize} {serU : Option w'.Serialize}
    (hs : Stream.Settles w.pollSerialize k ser) (c : Ctx) (b : B) :
    Closer (fun m (s : ResultSerialize w w') => s.Left m) k b
      (pollT c ⟨some ser, serU, .writingT⟩ b) := by
  unfold ResultSerialize.pollT
  refine (hs.closer c b).finish (fun m s hm => ?_) fun _ _ => ⟨Outcome.not_unfinished_ready _, rfl⟩
  cases serU <;> exact hm

theorem pollU_closer {k : Nat} {ser : w'.Serialize} {serT : Option w.Serialize}
    (hs : Stream.Settles w'.pollSerialize k ser) (c : Ctx) (b : B) :
    Closer (fun m (s : ResultSerialize w w') => s.Left m) k b
      (pollU c ⟨serT, some ser, .writingU⟩ b) := by
  unfold ResultSerialize.pollU
  refine (hs.closer c b).finish (fun m s hm => ?_) fun _ _ => ⟨Outcome.not_unfinished_ready _, rfl⟩
  cases serT <;> exact hm

theorem poll_closer {m : Nat} {s : ResultSerialize w w'} (hs : s.Left m) (c : Ctx) (b : B) :
    Closer (fun m (s : ResultSerialize w w') => s.Left m) m b (s.pollSerialize c b) := by
  unfold ResultSerialize.pollSerialize
  obtain ⟨_ | ser, _ | ser', _ | _ | _ | _⟩ := s
  case none.none.predicate =>
    obtain ⟨k, rfl⟩ := hs
    exact (BitBufMut.pollWriteBool_closer _ b).andThen (by rintro m s rfl; exact ⟨k, rfl⟩)
      fun _ _ => .panicked
  case none.some.predicate =>
    obtain ⟨k, hs, rfl⟩ := hs
    exact (BitBufMut.pollWriteBool_closer _ b).andThen (by rintro m s rfl; exact ⟨k, hs, rfl⟩)
      fun _ b => pollU_closer hs c b
  case some.none.predicate | some.some.predicate =>
    obtain ⟨k, hs, rfl⟩ := hs
    exact (BitBufMut.pollWriteBool_closer _ b).andThen (by rintro m s rfl; exact ⟨k, hs, rfl⟩)
      fun _ b => pollT_closer hs c b
  case some.none.writingT | some.some.writingT => exact pollT_closer hs c b
  case none.some.writingU | some.some.writingU => exact pollU_closer hs c b
  all_goals exact .panicked

end ResultSerialize

theorem resultWrite_settles (h : w.Settles) (h' : w'.Settles) : (resultWrite w w').Settles := by
  intro item
  cases item
  case ok x    =>
    obtain ⟨k, hk⟩ := h x
    exact ⟨_, _, ⟨k, hk, rfl⟩, fun c _ _ b hs => ResultSerialize.poll_closer hs c b⟩
  case error x =>
    obtain ⟨k, hk⟩ := h' x
    exact ⟨_, _, ⟨k, hk, rfl⟩, fun c _ _ b hs => ResultSerialize.poll_closer hs c b⟩

namespace VecSerialize

def Left (m : Nat) (s : VecSerialize w) : Prop :=
  match s.state with
  | .vlq      => ∃ bits, Drains BitBufMut.drainInto s.vlq bits ∧
    m = bits.length + 2 * s.data.length + 1
  | .writing  => 2 * s.data.length ≤ m
  | .complete => True

theorem pollWriting_closer (h : w.Settles) {s : VecSerialize w} (hs : s.state = .writing) (c : Ctx)
    (b : B) : Closer (fun m (s : VecSerialize w) => s.Left m) (2 * s.data.length) b
      (s.pollWriting c b) := by
  unfold VecSerialize.pollWriting
  refine (pollItems_closer h c s.data s.ser b).finish (fun m items hm => ?_) fun _ _ =>
    ⟨Outcome.not_unfinished_ready _, rfl⟩
  simp only [Left, hs]
  exact hm

theorem poll_closer (h : w.Settles) {m : Nat} {s : VecSerialize w} (hs : s.Left m) (c : Ctx) (b : B) :
    Closer (fun m (s : VecSerialize w) => s.Left m) m b (s.pollSerialize c b) := by
  unfold VecSerialize.pollSerialize
  obtain ⟨ser, _ | _ | _, vlq, data⟩ := s
  case vlq      =>
    obtain ⟨bits, hd, rfl⟩ := hs
    exact (hd.closer b).andThen (by rintro m s ⟨bits, hd, rfl⟩; exact ⟨bits, hd, rfl⟩)
      fun vlq b => pollWriting_closer h (s := ⟨ser, .writing, vlq, data⟩) rfl c b
  case writing  =>
    exact (pollWriting_closer h (s := ⟨ser, .writing, vlq, data⟩) rfl c b).mono (fun _ _ => id) hs
  case complete => exact .panicked

end VecSerialize

theorem vecWrite_settles (h : w.Settles) (size : Nat) : (vecWrite w size).Settles :=
  fun _ => ⟨_, _, ⟨_, LawfulBitBufMut.drain_drains _, rfl⟩, fun c _ _ b hs =>
    VecSerialize.poll_closer h hs c b⟩

namespace DeriveSerialize

variable {S : Shape} {ws : S.Writes Ctx B}

def Left (m : Nat) : DeriveSerialize ws → Prop
  | .variant i idx d sers =>
    if 1 < S.variants ∧ idx = 0 then
      ∃ ns : Fin (S.arity i) → Nat,
        (∀ j, Stream.Settles (ws i j).pollSerialize (ns j) (sers j)) ∧
        ∀ d', d = some d' → ∃ bits, Drains BitBufMut.cappedDrainInto d' bits ∧
          m = bits.length + fieldsLeft ns 0 + 1
    else
      ∃ k, Sers.Left S.firstArm k m (idx, sers)
  | .complete             => True

variable {i : Fin S.variants} {d : Option (BitBufMut.CappedDrain B)} {sers : Sers (ws i)}
variable {ns : Fin (S.arity i) → Nat}

theorem pollFields_closer {k : Nat} (hs : ∀ j : Fin _, k ≤ j.val →
      Stream.Settles (ws i j).pollSerialize (ns j) (sers j)) (c : Ctx) (b : B) :
    Closer (fun m (s : DeriveSerialize ws) => s.Left m) (fieldsLeft ns k) b
      (pollFields c i (S.firstArm + k) d sers b) := by
  unfold DeriveSerialize.pollFields
  rw [Nat.add_sub_cancel_left]
  refine (Sers.poll_closer S.firstArm _ c k sers b ns hs).finish (fun m s hm => ?_) fun _ _ =>
    ⟨Outcome.not_unfinished_ready _, rfl⟩
  have hk : ¬(1 < S.variants ∧ s.1 = 0) := by
    obtain ⟨k, hk, _⟩ := hm
    rintro ⟨h₁, h₀⟩
    simp [Shape.firstArm, h₁, h₀] at hk
    omega
  show if _ then _ else _
  rw [if_neg hk]
  exact hm

theorem pollDrain_closer {idx : Nat} {d : BitBufMut.CappedDrain B} {bits : List Bool}
    (hd : 1 < S.variants ∧ idx = 0) (hb : Drains BitBufMut.cappedDrainInto d bits)
    (hs : ∀ j, Stream.Settles (ws i j).pollSerialize (ns j) (sers j)) (c : Ctx) (b : B) :
    Closer (fun m (s : DeriveSerialize ws) => s.Left m) (bits.length + fieldsLeft ns 0 + 1) b
      (pollSerialize c (.variant i idx (some d) sers) b) := by
  simp only [DeriveSerialize.pollSerialize]
  rw [if_pos hd]
  apply (hb.closer b).andThen
  case hput =>
    rintro m d ⟨bits, hb, rfl⟩
    show if _ then _ else _
    rw [if_pos hd]
    exact ⟨ns, hs, fun d' he => ⟨bits, Option.some.inj he ▸ hb, rfl⟩⟩
  case hf   =>
    intro d b
    have hf := pollFields_closer (d := some d) (k := 0) (fun j _ => hs j) c b
    rwa [Nat.add_zero, show S.firstArm = 1 by simp [Shape.firstArm, hd.1]] at hf

theorem poll_closer {m : Nat} {s : DeriveSerialize ws} (hs : s.Left m) (c : Ctx) (b : B) :
    Closer (fun m (s : DeriveSerialize ws) => s.Left m) m b (s.pollSerialize c b) := by
  obtain ⟨i, idx, d, sers⟩ | _ := s
  case complete => exact .panicked
  case variant  =>
    replace hs : if _ then _ else _ := hs
    split at hs
    case isFalse hd =>
      obtain ⟨k, hk, ns, hs, rfl⟩ := hs
      obtain rfl : idx = S.firstArm + k := hk
      simp only [DeriveSerialize.pollSerialize]
      rw [if_neg hd]
      exact pollFields_closer hs c b
    case isTrue hd  =>
      obtain ⟨ns, hs, hdrain⟩ := hs
      obtain _ | d := d
      case none =>
        simp only [DeriveSerialize.pollSerialize]
        rw [if_pos hd]
        exact .panicked
      case some =>
        obtain ⟨bits, hb, rfl⟩ := hdrain d rfl
        exact pollDrain_closer hd hb hs c b

end DeriveSerialize

theorem deriveWrite_settles {S : Shape} {ws : S.Writes Ctx B} (h : ∀ i j, (ws i j).Settles) :
    (deriveWrite ws).Settles := by
  intro v
  obtain ⟨ns, hn⟩ := exists_settles (h v.variant) v.fields
  suffices hl : ∃ m, (DeriveSerialize.new ws v).Left m from
    hl.imp fun m hm => ⟨_, hm, fun c _ _ b hs => DeriveSerialize.poll_closer hs c b⟩
  unfold DeriveSerialize.new
  by_cases h₁ : 1 < S.variants
  case pos =>
    obtain ⟨d, hd, hb⟩ := DeriveSerialize.newCappedDrain_drains (B := B) v.variant
    rw [if_pos h₁, hd]
    refine ⟨(Bits.lsb S.bits v.variant).length + fieldsLeft ns 0 + 1, ?_⟩
    show if _ then _ else _
    rw [if_pos ⟨h₁, rfl⟩]
    exact ⟨ns, hn, fun d' he => ⟨_, Option.some.inj he ▸ hb, rfl⟩⟩
  case neg =>
    rw [if_neg h₁]
    refine ⟨fieldsLeft ns 0, ?_⟩
    show if _ then _ else _
    rw [if_neg fun h => h₁ h.1]
    exact ⟨0, by simp [Shape.firstArm, h₁], ns, fun j _ => hn j, rfl⟩

variable [BitBuf B'] {scope : Scope Ctx B' B} {r : MinCodecRead Ctx B' T}

-- Every serializer of the format settles, if those at the leaves do.
theorem Format.write_settles (h : Format scope r w)
    (hl : ∀ {T} {r : MinCodecRead Ctx B' T} {w : MinCodecWrite Ctx B T}, scope.leaf r w →
      w.Settles) : w.Settles := by
  induction h
  case leaf h          => exact hl h
  case map hi          => exact mapWrite_settles hi _
  case bool            => exact boolWrite_encodes.settles
  case number n        => exact (numberWrite_encodes n).settles
  case char            => exact mapWrite_settles (numberWrite_encodes 4).settles _
  case usize           => exact mapWrite_settles (numberWrite_encodes 8).settles _
  case isize           => exact mapWrite_settles (numberWrite_encodes 8).settles _
  case unit            => exact (unitWrite_encodes _).settles
  case empty           => exact (emptyWrite_encodes _).settles
  case string          => exact stringWrite_encodes.settles
  case box hi          => exact boxWrite_settles hi
  case option hi       => exact Optional.optionWrite_settles hi
  case result hi hi'   => exact resultWrite_settles hi hi'
  case vec size _ _ hi => exact vecWrite_settles hi size
  case array hi        => exact arrayWrite_settles hi _
  case tuple1 hi       => exact mapWrite_settles hi _
  case tuple hi        => exact tupleWrite_settles hi
  case derive hi       => exact deriveWrite_settles hi
  case deriveEmpty     => exact (emptyWrite_encodes _).settles

end

end Mincodec
