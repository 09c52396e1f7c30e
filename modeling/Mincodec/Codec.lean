import Mincodec.Bitbuf

namespace Mincodec

open Stream BitSource BitSink

-- `BufPoll`, or a panic that unwinds out of the poll, is `Outcome`. The macros `buf_ready!` and
-- `buf_try!` are `Polled.andThen`, `buf_ok!` is `Outcome.ready` of `Except.ok`.

-- `core::task::Poll`, or a panic that unwinds out of the poll.
inductive Poll (α : Type)
  | pending
  | ready (a : α)
  | panicked (msg : String)
  deriving DecidableEq

-- What one iteration of the loop of a `poll` does: it goes on, returns, or a panic of the codec or of
-- the transport unwinds out of it.
inductive Flow (α : Type)
  | next
  | ret (p : Poll α)
  | unwound (msg : String)
  deriving DecidableEq

def Flow.Panics {α : Type} : Flow α → Prop
  | .ret (.panicked _) | .unwound _ => True
  | _                               => False

instance {α : Type} (f : Flow α) : Decidable f.Panics :=
  match f with
  | .ret (.panicked _) | .unwound _                => .isTrue trivial
  | .ret .pending | .ret (.ready _) | .next        => .isFalse id

def unwrapErr (e : String) : String :=
  "called `Result::unwrap()` on an `Err` value: " ++ e

def subtractOverflow : String :=
  "attempt to subtract with overflow"

def rangeEnd (n len : Nat) : String :=
  s!"range end index {n} out of range for slice of length {len}"

def indexOutOfBounds (index len : Nat) : String :=
  s!"index out of bounds: the len is {len} but the index is {index}"

-- The context `Ctx` is all that a poll can learn about the futures a user codec depends on.
structure MinCodecRead (Ctx B T : Type) where
  Deserialize     : Type
  Error           : Type
  deserialize     : Deserialize
  pollDeserialize : Ctx → Deserialize → B → Polled Deserialize B (Except Error T)

structure MinCodecWrite (Ctx B T : Type) where
  Serialize     : Type
  Error         : Type
  serialize     : T → Serialize
  pollSerialize : Ctx → Serialize → B → Polled Serialize B (Except Error Unit)

variable {Ctx B T U E : Type} {Wait : Prop}

-- The deserializer decodes what `p` does, and takes all the bits there are before it is starved. A
-- poll may be pending if `Wait` holds.
def MinCodecRead.Decodes [BitSource B] (r : MinCodecRead Ctx B T) (Wait : Prop)
    (p : Parser r.Error T) : Prop :=
  Stream.Decodes Wait Drained r.pollDeserialize r.deserialize p

def MinCodecWrite.Encodes [BitSink B] (w : MinCodecWrite Ctx B T) (enc : T → Emission w.Error) :
    Prop :=
  ∀ v, Stream.Encodes Full w.pollSerialize (w.serialize v) (enc v)

-- A single poll of a new serializer writes `enc v`, or as many bits of it as there is room for.
def MinCodecWrite.EncodesOnce [BitSink B] (w : MinCodecWrite Ctx B T) (enc : T → List Bool) :
    Prop :=
  ∀ v c b, WritesOnce (enc v) b (w.pollSerialize c (w.serialize v) b)

inductive OptionDeserialize (r : MinCodecRead Ctx B T)
  | deserialize (deser : r.Deserialize)
  | done (item : T)

namespace OptionDeserialize

variable {r : MinCodecRead Ctx B T}

def new (r : MinCodecRead Ctx B T) : OptionDeserialize r :=
  .deserialize r.deserialize

def pollDeserialize (ctx : Ctx) (this : OptionDeserialize r) (b : B) :
    Polled (OptionDeserialize r) B (Except r.Error Unit) :=
  match this with
  | .deserialize deser =>
    (r.pollDeserialize ctx deser b).andThen .deserialize id fun item _ b =>
      ⟨.ready (.ok ()), .done item, b⟩
  | .done _ => ⟨.panicked "OptionDeserialize polled after completion", this, b⟩

def take : OptionDeserialize r → Option T × OptionDeserialize r
  | .done item         => (some item, new r)
  | .deserialize deser => (none, .deserialize deser)

def Underway [BitSource B] (Wait : Prop) (this : OptionDeserialize r) (p : Parser r.Error T) :
    Prop :=
  ∃ deser, this = .deserialize deser ∧ Stream.Decodes Wait Drained r.pollDeserialize deser p

theorem new_underway [BitSource B] {p : Parser r.Error T} (h : r.Decodes Wait p) :
    (new r).Underway Wait p :=
  ⟨_, rfl, h⟩

theorem poll_follows [BitSource B] {this : OptionDeserialize r} {p : Parser r.Error T}
    (h : this.Underway Wait p) (ctx : Ctx) (b : B) :
    Follows Wait Drained (Underway Wait) (fun _ s v => s = .done v) p b (pollDeserialize ctx this b) := by
  obtain ⟨deser, rfl, h⟩ := h
  unfold pollDeserialize
  apply (h.follows ctx b).finish
  · exact fun deser q h => ⟨deser, rfl, h⟩
  · rintro a s b' v rfl
    exact .ready rfl

end OptionDeserialize

structure MapDeserialize (r : MinCodecRead Ctx B T) (U E : Type) where
  map   : T → Except E U
  deser : r.Deserialize

inductive MapDeserializeError (E ε : Type)
  | map (e : E)
  | deserialize (e : ε)
  deriving DecidableEq

def MapDeserialize.pollDeserialize {r : MinCodecRead Ctx B T} (ctx : Ctx)
    (this : MapDeserialize r U E) (b : B) :
    Polled (MapDeserialize r U E) B (Except (MapDeserializeError E r.Error) U) :=
  (r.pollDeserialize ctx this.deser b).andThen (fun deser => { this with deser }) .deserialize
    fun item deser b => ⟨.ready ((this.map item).mapError .map), { this with deser }, b⟩

def mapRead (r : MinCodecRead Ctx B T) (map : T → Except E U) : MinCodecRead Ctx B U where
  Deserialize     := MapDeserialize r U E
  Error           := MapDeserializeError E r.Error
  deserialize     := { map, deser := r.deserialize }
  pollDeserialize := MapDeserialize.pollDeserialize

theorem mapRead_decodes [BitSource B] {r : MinCodecRead Ctx B T} {p : Parser r.Error T}
    (h : r.Decodes Wait p) (map : T → Except E U) :
    (mapRead r map).Decodes Wait
      ((p.mapErr .deserialize).bind fun item => .lift ((map item).mapError .map)) := by
  refine ⟨fun (s : MapDeserialize r U E) q => s.map = map ∧ ∃ q', Stream.Decodes Wait Drained r.pollDeserialize s.deser q' ∧
    q = (q'.mapErr .deserialize).bind fun item => .lift ((map item).mapError .map), ?_,
    rfl, p, h, rfl⟩
  rintro c s q b ⟨hm, q', h, rfl⟩
  show Follows _ _ _ _ _ _ (MapDeserialize.pollDeserialize c s b)
  unfold MapDeserialize.pollDeserialize
  apply (h.follows c b).andThen
  · exact fun s q h => ⟨hm, q, h, rfl⟩
  · rintro a s' b' v rfl
    rw [hm]
    cases map a
    case ok u    => exact .ready rfl
    case error e => exact .fail

inductive MapSerialize (w : MinCodecWrite Ctx B U) (E : Type)
  | serialize (ser : w.Serialize)
  | complete
  | mapError (e : E)

inductive MapSerializeError (E ε : Type)
  | map (e : E)
  | serialize (e : ε)

namespace MapSerialize

variable {w : MinCodecWrite Ctx B U}

def new (w : MinCodecWrite Ctx B U) (item : T) (map : T → Except E U) : MapSerialize w E :=
  match map item with
  | .ok ser  => .serialize (w.serialize ser)
  | .error e => .mapError e

def pollSerialize (ctx : Ctx) (this : MapSerialize w E) (b : B) :
    Polled (MapSerialize w E) B (Except (MapSerializeError E w.Error) Unit) :=
  match this with
  | .mapError e => ⟨.ready (.error (.map e)), .complete, b⟩
  | .serialize ser =>
    (w.pollSerialize ctx ser b).andThen .serialize .serialize fun _ _ b =>
      ⟨.ready (.ok ()), .complete, b⟩
  | .complete => ⟨.panicked "polled MapSerialize after completion", this, b⟩

end MapSerialize

def mapWrite (w : MinCodecWrite Ctx B U) (map : T → Except E U) : MinCodecWrite Ctx B T where
  Serialize       := MapSerialize w E
  Error           := MapSerializeError E w.Error
  serialize item  := .new w item map
  pollSerialize   := MapSerialize.pollSerialize

def mapEmission {ε : Type} (enc : U → Emission ε) (map : T → Except E U) (item : T) :
    Emission (MapSerializeError E ε) :=
  match map item with
  | .ok u    => (enc u).mapErr .serialize
  | .error e => ⟨[], .finished (.error (.map e))⟩

theorem mapWrite_encodes [BitSink B] {w : MinCodecWrite Ctx B U} {enc : U → Emission w.Error}
    (h : w.Encodes enc) (map : T → Except E U) :
    (mapWrite w map).Encodes (mapEmission enc map) := by
  intro v
  let R (s : MapSerialize w E) (e : Emission (MapSerializeError E w.Error)) : Prop :=
    (∃ x, s = .mapError x ∧ e = ⟨[], .finished (.error (.map x))⟩) ∨
    ∃ ser e', s = .serialize ser ∧ Stream.Encodes Full w.pollSerialize ser e' ∧
      e = e'.mapErr .serialize
  refine ⟨R, ?_, ?_⟩
  · rintro c s e b (⟨x, rfl, rfl⟩ | ⟨ser, e', rfl, h, rfl⟩)
    · exact ⟨[], .refl b, rfl⟩
    · show Writes _ _ _ _ (MapSerialize.pollSerialize c (.serialize ser) b)
      unfold MapSerialize.pollSerialize
      apply (h.writes c b).finish
      · exact fun s e h => .inr ⟨s, e, rfl, h, rfl⟩
      · exact fun _ _ => .ready
  · unfold mapEmission
    cases hm : map v
    case error x => exact .inl ⟨x, by simp only [mapWrite, MapSerialize.new, hm], rfl⟩
    case ok u    => exact .inr ⟨_, _, by simp only [mapWrite, MapSerialize.new, hm], h u, rfl⟩

theorem mapWrite_encodesOnce [BitSink B] {w : MinCodecWrite Ctx B U} {enc : U → List Bool}
    (h : w.EncodesOnce enc) {map : T → Except E U} {f : T → U}
    (hm : ∀ item, map item = .ok (f item)) : (mapWrite w map).EncodesOnce (enc ∘ f) := by
  intro v c b
  show WritesOnce _ b (MapSerialize.pollSerialize c (.new w v map) b)
  simp only [MapSerialize.new, hm, MapSerialize.pollSerialize]
  exact (h (f v) c b).finish fun _ _ => .ready

end Mincodec
