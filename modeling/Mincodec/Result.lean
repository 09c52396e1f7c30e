import Mincodec.Primitive

-- The codec of `Result`.
namespace Mincodec

open Stream BitSource BitSink

variable {Ctx B T U : Type} {Wait : Prop}
variable {r : MinCodecRead Ctx B T} {r' : MinCodecRead Ctx B U}
variable {w : MinCodecWrite Ctx B T} {w' : MinCodecWrite Ctx B U}

inductive ResultDeserializeState
  | predicate
  | readingT
  | readingU
  | complete

structure ResultDeserialize (r : MinCodecRead Ctx B T) (r' : MinCodecRead Ctx B U) where
  deserU : r'.Deserialize
  deserT : r.Deserialize
  state  : ResultDeserializeState

inductive ResultError (ε ε' : Type)
  | ok (e : ε)
  | err (e : ε')
  deriving DecidableEq

namespace ResultDeserialize

def pollT (ctx : Ctx) (this : ResultDeserialize r r') (b : B) :
    Polled (ResultDeserialize r r') B (Except (ResultError r.Error r'.Error) (Except U T)) :=
  (r.pollDeserialize ctx this.deserT b).andThen (fun deser => { this with deserT := deser }) .ok
    fun item deser b => ⟨.ready (.ok (.ok item)), ⟨this.deserU, deser, .complete⟩, b⟩

def pollU (ctx : Ctx) (this : ResultDeserialize r r') (b : B) :
    Polled (ResultDeserialize r r') B (Except (ResultError r.Error r'.Error) (Except U T)) :=
  (r'.pollDeserialize ctx this.deserU b).andThen (fun deser => { this with deserU := deser }) .err
    fun item deser b => ⟨.ready (.ok (.error item)), ⟨deser, this.deserT, .complete⟩, b⟩

def pollDeserialize [BitBuf B] (ctx : Ctx) (this : ResultDeserialize r r') (b : B) :
    Polled (ResultDeserialize r r') B (Except (ResultError r.Error r'.Error) (Except U T)) :=
  match this.state with
  | .predicate =>
    (BitBuf.pollBool b).andThen (fun _ => this) Empty.elim fun isT _ b =>
      if isT then
        pollT ctx { this with state := .readingT } b
      else
        pollU ctx { this with state := .readingU } b
  | .readingT => this.pollT ctx b
  | .readingU => this.pollU ctx b
  | .complete => ⟨.panicked "OptionDeserialize polled after completion", this, b⟩

end ResultDeserialize

inductive ResultSerializeState
  | predicate
  | writingT
  | writingU
  | complete

structure ResultSerialize (w : MinCodecWrite Ctx B T) (w' : MinCodecWrite Ctx B U) where
  serT  : Option w.Serialize
  serU  : Option w'.Serialize
  state : ResultSerializeState

namespace ResultSerialize

def pollT (ctx : Ctx) (this : ResultSerialize w w') (b : B) :
    Polled (ResultSerialize w w') B (Except (ResultError w.Error w'.Error) Unit) :=
  match this.serT with
  | none     => ⟨.panicked unwrapNone, this, b⟩
  | some ser =>
    (w.pollSerialize ctx ser b).andThen (fun ser => { this with serT := some ser }) .ok
      fun _ ser b => ⟨.ready (.ok ()), ⟨some ser, this.serU, .complete⟩, b⟩

def pollU (ctx : Ctx) (this : ResultSerialize w w') (b : B) :
    Polled (ResultSerialize w w') B (Except (ResultError w.Error w'.Error) Unit) :=
  match this.serU with
  | none     => ⟨.panicked unwrapNone, this, b⟩
  | some ser =>
    (w'.pollSerialize ctx ser b).andThen (fun ser => { this with serU := some ser }) .err
      fun _ ser b => ⟨.ready (.ok ()), ⟨this.serT, some ser, .complete⟩, b⟩

def pollSerialize [BitBufMut B] (ctx : Ctx) (this : ResultSerialize w w') (b : B) :
    Polled (ResultSerialize w w') B (Except (ResultError w.Error w'.Error) Unit) :=
  match this.state with
  | .predicate =>
    (BitBufMut.pollWriteBool this.serT.isSome b).andThen (fun _ => this) Empty.elim fun _ _ b =>
      if this.serT.isSome then
        pollT ctx { this with state := .writingT } b
      else
        pollU ctx { this with state := .writingU } b
  | .writingT => this.pollT ctx b
  | .writingU => this.pollU ctx b
  | .complete => ⟨.panicked "OptionSerialize polled after completion", this, b⟩

-- `Result::Ok` is `Except.ok`, `Result::Err` is `Except.error`.
def new (w : MinCodecWrite Ctx B T) (w' : MinCodecWrite Ctx B U) :
    Except U T → ResultSerialize w w'
  | .ok item     => ⟨some (w.serialize item), none, .predicate⟩
  | .error error => ⟨none, some (w'.serialize error), .predicate⟩

end ResultSerialize

def resultRead [BitBuf B] (r : MinCodecRead Ctx B T) (r' : MinCodecRead Ctx B U) :
    MinCodecRead Ctx B (Except U T) where
  Deserialize     := ResultDeserialize r r'
  Error           := ResultError r.Error r'.Error
  deserialize     := ⟨r'.deserialize, r.deserialize, .predicate⟩
  pollDeserialize := ResultDeserialize.pollDeserialize

def resultWrite [BitBufMut B] (w : MinCodecWrite Ctx B T) (w' : MinCodecWrite Ctx B U) :
    MinCodecWrite Ctx B (Except U T) where
  Serialize     := ResultSerialize w w'
  Error         := ResultError w.Error w'.Error
  serialize     := .new w w'
  pollSerialize := ResultSerialize.pollSerialize

section
variable {ε ε' : Type}

def resultParser (p : Parser ε T) (p' : Parser ε' U) : Parser (ResultError ε ε') (Except U T) :=
  Parser.bit.bind fun isT =>
    if isT then (p.mapErr .ok).map .ok else (p'.mapErr .err).map .error

def resultEmission (enc : T → Emission ε) (enc' : U → Emission ε') :
    Except U T → Emission (ResultError ε ε')
  | .ok item     => ((enc item).mapErr .ok).prepend [true]
  | .error error => ((enc' error).mapErr .err).prepend [false]

def resultBits (enc : T → List Bool) (enc' : U → List Bool) : Except U T → List Bool
  | .ok item     => true :: enc item
  | .error error => false :: enc' error

theorem resultParser_halts {p : Parser ε T} {p' : Parser ε' U} {enc : T → List Bool}
    {enc' : U → List Bool} (h : ∀ v, p.Halts (enc v) (.finished (.ok v)))
    (h' : ∀ v, p'.Halts (enc' v) (.finished (.ok v))) (v : Except U T) :
    (resultParser p p').Halts (resultBits enc enc' v) (.finished (.ok v)) := by
  cases v
  case ok item     => exact (Parser.bit_halts true).bind (h item).mapErr.map
  case error error => exact (Parser.bit_halts false).bind (h' error).mapErr.map

end

namespace ResultDeserialize

def Reads [BitSource B] (Wait : Prop) (p : Parser r.Error T) (p' : Parser r'.Error U)
    (this : ResultDeserialize r r') (q : Parser (ResultError r.Error r'.Error) (Except U T)) :
    Prop :=
  match this.state with
  | .predicate =>
    this.deserT = r.deserialize ∧ this.deserU = r'.deserialize ∧ q = resultParser p p'
  | .readingT  =>
    ∃ q', Decodes Wait Drained r.pollDeserialize this.deserT q' ∧ q = (q'.mapErr .ok).map .ok
  | .readingU  =>
    ∃ q', Decodes Wait Drained r'.pollDeserialize this.deserU q' ∧ q = (q'.mapErr .err).map .error
  | .complete  => False

variable [BitSource B] {p : Parser r.Error T} {p' : Parser r'.Error U}
variable {deserT : r.Deserialize} {deserU : r'.Deserialize}

theorem pollT_follows {q : Parser r.Error T} (h : Decodes Wait Drained r.pollDeserialize deserT q)
    (c : Ctx) (b : B) :
    Follows Wait Drained (Reads Wait p p') Returns ((q.mapErr .ok).map .ok) b
      (pollT c ⟨deserU, deserT, .readingT⟩ b) := by
  apply (h.follows c b).andThen
  · exact fun deser q h => ⟨q, h, rfl⟩
  · rintro item deser b _ rfl
    exact .ready rfl

theorem pollU_follows {q : Parser r'.Error U} (h : Decodes Wait Drained r'.pollDeserialize deserU q)
    (c : Ctx) (b : B) :
    Follows Wait Drained (Reads Wait p p') Returns ((q.mapErr .err).map .error) b
      (pollU c ⟨deserU, deserT, .readingU⟩ b) := by
  apply (h.follows c b).andThen
  · exact fun deser q h => ⟨q, h, rfl⟩
  · rintro item deser b _ rfl
    exact .ready rfl

end ResultDeserialize

theorem resultRead_decodes [BitBuf B] [LawfulBitBuf B] {p : Parser r.Error T}
    {p' : Parser r'.Error U} (h : r.Decodes Wait p) (h' : r'.Decodes Wait p') :
    (resultRead r r').Decodes Wait (resultParser p p') := by
  refine ⟨ResultDeserialize.Reads Wait p p', ?_, rfl, rfl, rfl⟩
  rintro c ⟨deserU, deserT, _ | _ | _ | _⟩ q b hq
  case complete => exact hq.elim
  case readingT =>
    obtain ⟨q, hd, rfl⟩ := hq
    exact ResultDeserialize.pollT_follows hd c b
  case readingU =>
    obtain ⟨q, hd, rfl⟩ := hq
    exact ResultDeserialize.pollU_follows hd c b
  case predicate =>
    obtain ⟨rfl, rfl, rfl⟩ := hq
    show Follows _ _ _ _ _ b
      (ResultDeserialize.pollDeserialize c ⟨r'.deserialize, r.deserialize, .predicate⟩ b)
    unfold ResultDeserialize.pollDeserialize resultParser
    apply BitBuf.pollBool_andThen
    · exact fun _ => ⟨rfl, rfl, rfl⟩
    · rintro isT _ b'
      cases isT
      case false => exact ResultDeserialize.pollU_follows h' c b'
      case true  => exact ResultDeserialize.pollT_follows h c b'

namespace ResultSerialize

def WritesOf [BitSink B] (this : ResultSerialize w w')
    (e : Emission (ResultError w.Error w'.Error)) : Prop :=
  match this with
  | ⟨some ser, none, .predicate⟩ =>
    ∃ f, Encodes Full w.pollSerialize ser f ∧ e = (f.mapErr .ok).prepend [true]
  | ⟨none, some ser, .predicate⟩ =>
    ∃ f, Encodes Full w'.pollSerialize ser f ∧ e = (f.mapErr .err).prepend [false]
  | ⟨some ser, none, .writingT⟩  => ∃ f, Encodes Full w.pollSerialize ser f ∧ e = f.mapErr .ok
  | ⟨none, some ser, .writingU⟩  => ∃ f, Encodes Full w'.pollSerialize ser f ∧ e = f.mapErr .err
  | _                            => False

variable [BitSink B]

theorem pollT_writes {ser : w.Serialize} {f : Emission w.Error}
    (h : Encodes Full w.pollSerialize ser f) (c : Ctx) (b : B) :
    Writes Full WritesOf (f.mapErr .ok) b
      (pollT c (⟨some ser, none, .writingT⟩ : ResultSerialize w w') b) := by
  unfold pollT
  apply (h.writes c b).finish
  · exact fun ser f h => ⟨f, h, rfl⟩
  · exact fun _ _ => .ready

theorem pollU_writes {ser : w'.Serialize} {f : Emission w'.Error}
    (h : Encodes Full w'.pollSerialize ser f) (c : Ctx) (b : B) :
    Writes Full WritesOf (f.mapErr .err) b
      (pollU c (⟨none, some ser, .writingU⟩ : ResultSerialize w w') b) := by
  unfold pollU
  apply (h.writes c b).finish
  · exact fun ser f h => ⟨f, h, rfl⟩
  · exact fun _ _ => .ready

end ResultSerialize

theorem resultWrite_encodes [BitBufMut B] [LawfulBitBufMut B] {enc : T → Emission w.Error}
    {enc' : U → Emission w'.Error} (h : w.Encodes enc) (h' : w'.Encodes enc') :
    (resultWrite w w').Encodes (resultEmission enc enc') := by
  intro v
  refine ⟨ResultSerialize.WritesOf, ?_, ?_⟩
  case refine_2 =>
    cases v
    case ok item     => exact ⟨_, h item, rfl⟩
    case error error => exact ⟨_, h' error, rfl⟩
  rintro c ⟨_ | serT, _ | serU, _ | _ | _ | _⟩ e b he <;> try exact he.elim
  all_goals obtain ⟨f, hs, rfl⟩ := he
  case writingT => exact ResultSerialize.pollT_writes hs c b
  case writingU => exact ResultSerialize.pollU_writes hs c b
  case predicate =>
    show Writes _ _ _ b (ResultSerialize.pollSerialize c ⟨none, some serU, .predicate⟩ b)
    unfold ResultSerialize.pollSerialize
    apply BitBufMut.pollWriteBool_andThen
    · exact fun _ => ⟨f, hs, rfl⟩
    · exact fun _ b' => ResultSerialize.pollU_writes hs c b'
  case predicate =>
    show Writes _ _ _ b (ResultSerialize.pollSerialize c ⟨some serT, none, .predicate⟩ b)
    unfold ResultSerialize.pollSerialize
    apply BitBufMut.pollWriteBool_andThen
    · exact fun _ => ⟨f, hs, rfl⟩
    · exact fun _ b' => ResultSerialize.pollT_writes hs c b'

theorem resultWrite_encodesOnce [BitBufMut B] [LawfulBitBufMut B] {enc : T → List Bool}
    {enc' : U → List Bool} (h : w.EncodesOnce enc) (h' : w'.EncodesOnce enc') :
    (resultWrite w w').EncodesOnce (resultBits enc enc') := by
  intro v c b
  cases v
  case ok item =>
    show WritesOnce ([true] ++ enc item) b
      (ResultSerialize.pollSerialize c ⟨some (w.serialize item), none, .predicate⟩ b)
    unfold ResultSerialize.pollSerialize
    apply (BitBufMut.pollWriteBool_writesOnce true b).andThen
    intro _ b'
    show WritesOnce _ b'
      (ResultSerialize.pollT c (⟨some (w.serialize item), none, .writingT⟩ : ResultSerialize w w') b')
    unfold ResultSerialize.pollT
    exact (h item c b').finish fun _ _ => .ready
  case error error =>
    show WritesOnce ([false] ++ enc' error) b
      (ResultSerialize.pollSerialize c ⟨none, some (w'.serialize error), .predicate⟩ b)
    unfold ResultSerialize.pollSerialize
    apply (BitBufMut.pollWriteBool_writesOnce false b).andThen
    intro _ b'
    show WritesOnce _ b'
      (ResultSerialize.pollU c (⟨none, some (w'.serialize error), .writingU⟩ : ResultSerialize w w') b')
    unfold ResultSerialize.pollU
    exact (h' error c b').finish fun _ _ => .ready

end Mincodec
