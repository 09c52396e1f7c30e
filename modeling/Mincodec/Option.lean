import Mincodec.Primitive

-- The codec of `Option`. The name `OptionDeserialize` is taken by the helper of the composite
-- deserializers, as it is in the crate root.
namespace Mincodec.Optional

open Stream BitSource BitSink

variable {Ctx B T : Type} {Wait : Prop} {r : MinCodecRead Ctx B T} {w : MinCodecWrite Ctx B T}

inductive OptionSerializeState
  | predicate
  | writing
  | complete

structure OptionSerialize (w : MinCodecWrite Ctx B T) where
  ser   : Option w.Serialize
  state : OptionSerializeState

inductive OptionDeserializeState
  | predicate
  | reading
  | complete

structure OptionDeserialize (r : MinCodecRead Ctx B T) where
  deser : r.Deserialize
  state : OptionDeserializeState

namespace OptionSerialize

def pollWriting (ctx : Ctx) (this : OptionSerialize w) (b : B) :
    Polled (OptionSerialize w) B (Except w.Error Unit) :=
  match this.ser with
  | none     => ⟨.panicked unwrapNone, this, b⟩
  | some ser =>
    (w.pollSerialize ctx ser b).andThen (fun ser => { this with ser := some ser }) id
      fun _ ser b => ⟨.ready (.ok ()), ⟨some ser, .complete⟩, b⟩

def pollSerialize [BitBufMut B] (ctx : Ctx) (this : OptionSerialize w) (b : B) :
    Polled (OptionSerialize w) B (Except w.Error Unit) :=
  match this.state with
  | .predicate =>
    (BitBufMut.pollWriteBool this.ser.isSome b).andThen (fun _ => this) Empty.elim fun _ _ b =>
      if this.ser.isSome then
        pollWriting ctx { this with state := .writing } b
      else
        ⟨.ready (.ok ()), { this with state := .complete }, b⟩
  | .writing  => this.pollWriting ctx b
  | .complete => ⟨.panicked "OptionSerialize polled after completion", this, b⟩

end OptionSerialize

namespace OptionDeserialize

def pollReading (ctx : Ctx) (this : OptionDeserialize r) (b : B) :
    Polled (OptionDeserialize r) B (Except r.Error (Option T)) :=
  (r.pollDeserialize ctx this.deser b).andThen (fun deser => { this with deser }) id
    fun item deser b => ⟨.ready (.ok (some item)), ⟨deser, .complete⟩, b⟩

def pollDeserialize [BitBuf B] (ctx : Ctx) (this : OptionDeserialize r) (b : B) :
    Polled (OptionDeserialize r) B (Except r.Error (Option T)) :=
  match this.state with
  | .predicate =>
    (BitBuf.pollBool b).andThen (fun _ => this) Empty.elim fun isSome _ b =>
      if isSome then
        pollReading ctx { this with state := .reading } b
      else
        ⟨.ready (.ok none), { this with state := .complete }, b⟩
  | .reading  => this.pollReading ctx b
  | .complete => ⟨.panicked "OptionDeserialize polled after completion", this, b⟩

end OptionDeserialize

def optionWrite [BitBufMut B] (w : MinCodecWrite Ctx B T) : MinCodecWrite Ctx B (Option T) where
  Serialize       := OptionSerialize w
  Error           := w.Error
  serialize item  := ⟨item.map w.serialize, .predicate⟩
  pollSerialize   := OptionSerialize.pollSerialize

def optionRead [BitBuf B] (r : MinCodecRead Ctx B T) : MinCodecRead Ctx B (Option T) where
  Deserialize     := OptionDeserialize r
  Error           := r.Error
  deserialize     := ⟨r.deserialize, .predicate⟩
  pollDeserialize := OptionDeserialize.pollDeserialize

def optionParser {ε : Type} (p : Parser ε T) : Parser ε (Option T) :=
  Parser.bit.bind fun isSome => if isSome then p.map some else .pure none

def optionEmission {ε : Type} (enc : T → Emission ε) : Option T → Emission ε
  | none      => .done [false]
  | some item => (enc item).prepend [true]

def optionBits (enc : T → List Bool) : Option T → List Bool
  | none      => [false]
  | some item => true :: enc item

def OptionDeserialize.Reads [BitSource B] (Wait : Prop) (p : Parser r.Error T) (this : OptionDeserialize r)
    (q : Parser r.Error (Option T)) : Prop :=
  match this.state with
  | .predicate => this.deser = r.deserialize ∧ q = optionParser p
  | .reading   => ∃ q', Decodes Wait Drained r.pollDeserialize this.deser q' ∧ q = q'.map some
  | .complete  => False

theorem OptionDeserialize.pollReading_follows [BitSource B] {p q : Parser r.Error T}
    {deser : r.Deserialize} (h : Decodes Wait Drained r.pollDeserialize deser q) (c : Ctx) (b : B) :
    Follows Wait Drained (Reads Wait p) Returns (q.map some) b (pollReading c ⟨deser, .reading⟩ b) := by
  apply (h.follows c b).andThen_id
  · exact fun deser q h => ⟨q, h, rfl⟩
  · rintro item deser b _ rfl
    exact .ready rfl

theorem optionRead_decodes [BitBuf B] [LawfulBitBuf B] {p : Parser r.Error T} (h : r.Decodes Wait p) :
    (optionRead r).Decodes Wait (optionParser p) := by
  refine ⟨OptionDeserialize.Reads Wait p, ?_, rfl, rfl⟩
  rintro c ⟨deser, _ | _ | _⟩ q b hq
  case complete => exact hq.elim
  case reading =>
    obtain ⟨q, hd, rfl⟩ := hq
    exact OptionDeserialize.pollReading_follows hd c b
  case predicate =>
    obtain ⟨rfl, rfl⟩ := hq
    show Follows _ _ _ _ _ b (OptionDeserialize.pollDeserialize c ⟨r.deserialize, .predicate⟩ b)
    unfold OptionDeserialize.pollDeserialize optionParser
    apply BitBuf.pollBool_andThen
    · exact fun _ => ⟨rfl, rfl⟩
    · rintro isSome _ b'
      cases isSome
      case false => exact .ready rfl
      case true  => exact OptionDeserialize.pollReading_follows h c b'

def OptionSerialize.WritesOf [BitSink B] (this : OptionSerialize w) (e : Emission w.Error) : Prop :=
  match this.state, this.ser with
  | .predicate, none     => e = .done [false]
  | .predicate, some ser => ∃ f, Encodes Full w.pollSerialize ser f ∧ e = f.prepend [true]
  | .writing, some ser   => Encodes Full w.pollSerialize ser e
  | _, _                 => False

theorem OptionSerialize.pollWriting_writes [BitSink B] {ser : w.Serialize} {e : Emission w.Error}
    (h : Encodes Full w.pollSerialize ser e) (c : Ctx) (b : B) :
    Writes Full WritesOf e b (pollWriting c ⟨some ser, .writing⟩ b) := by
  unfold pollWriting
  apply (h.writes c b).finish_id
  · exact fun _ _ h => h
  · exact fun _ _ => .ready

theorem optionWrite_encodes [BitBufMut B] [LawfulBitBufMut B] {enc : T → Emission w.Error}
    (h : w.Encodes enc) : (optionWrite w).Encodes (optionEmission enc) := by
  intro v
  refine ⟨OptionSerialize.WritesOf, ?_, ?_⟩
  case refine_2 =>
    cases v
    case none      => rfl
    case some item => exact ⟨_, h item, rfl⟩
  rintro c ⟨ser, _ | _ | _⟩ e b he
  case complete => exact he.elim
  case writing =>
    cases ser
    case none     => exact he.elim
    case some ser => exact OptionSerialize.pollWriting_writes he c b
  case predicate =>
    show Writes _ _ _ b (OptionSerialize.pollSerialize c ⟨ser, .predicate⟩ b)
    unfold OptionSerialize.pollSerialize
    cases ser
    case none =>
      obtain rfl : e = .prepend [false] (.done []) := he
      apply BitBufMut.pollWriteBool_andThen
      · exact fun _ => show OptionSerialize.WritesOf ⟨none, .predicate⟩ _ from rfl
      · exact fun _ _ => .ready
    case some ser =>
      obtain ⟨f, hs, rfl⟩ := he
      apply BitBufMut.pollWriteBool_andThen
      · exact fun _ => ⟨f, hs, rfl⟩
      · exact fun _ b' => OptionSerialize.pollWriting_writes hs c b'

theorem optionWrite_encodesOnce [BitBufMut B] [LawfulBitBufMut B] {enc : T → List Bool}
    (h : w.EncodesOnce enc) : (optionWrite w).EncodesOnce (optionBits enc) := by
  intro v c b
  cases v
  case none =>
    show WritesOnce [false] b (OptionSerialize.pollSerialize c ⟨none, .predicate⟩ b)
    unfold OptionSerialize.pollSerialize
    exact (BitBufMut.pollWriteBool_writesOnce false b).finish fun _ _ => .ready
  case some item =>
    show WritesOnce ([true] ++ enc item) b
      (OptionSerialize.pollSerialize c ⟨some (w.serialize item), .predicate⟩ b)
    unfold OptionSerialize.pollSerialize
    apply (BitBufMut.pollWriteBool_writesOnce true b).andThen
    intro _ b'
    show WritesOnce _ b' (OptionSerialize.pollWriting c ⟨some (w.serialize item), .writing⟩ b')
    unfold OptionSerialize.pollWriting
    exact (h item c b').finish fun _ _ => .ready

theorem optionParser_halts {ε : Type} {p : Parser ε T} {enc : T → List Bool}
    (h : ∀ v, p.Halts (enc v) (.finished (.ok v))) (v : Option T) :
    (optionParser p).Halts (optionBits enc v) (.finished (.ok v)) := by
  cases v
  case none      => exact (Parser.bit_halts false).bind (Parser.pure_halts none)
  case some item => exact (Parser.bit_halts true).bind (h item).map

end Mincodec.Optional
