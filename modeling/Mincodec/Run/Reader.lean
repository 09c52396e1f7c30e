import Mincodec.AsyncReader
import Mathlib.Logic.Relation

-- Runs of an `AsyncReader`.
namespace Mincodec

open Stream BitSource

variable {Ctx B B' U E : Type}

structure ReadMoment (Ctx E : Type) where
  ctx  : Ctx
  read : Poll (Except E (List UInt8))

structure Item (Ctx B : Type) where
  {U : Type}
  codec  : MinCodecRead Ctx B U
  result : Except codec.Error U

abbrev ReadType (Ctx B : Type) :=
  (U : Type) × MinCodecRead Ctx B U

def Item.type (item : Item Ctx B) : ReadType Ctx B :=
  ⟨item.U, item.codec⟩

def MinCodecRead.Quiet (r : MinCodecRead Ctx B U) : Prop :=
  ∀ c s b, (r.pollDeserialize c s b).outcome = .pending → (r.pollDeserialize c s b).buf = b

namespace AsyncReader

variable [BitSlice B] {r : MinCodecRead Ctx B U}

def window (this : AsyncReader r) : Option B :=
  BitSlice.advance this.cursor (BitSlice.new (this.buffer.take this.lastByte))

def rest (this : AsyncReader r) : List Bool :=
  (Bits.ofBytes (this.buffer.take this.lastByte)).drop this.cursor

def tookBy {S α : Type} [BitSource B] (b : B) (x : Polled S B α) : List Bool :=
  match x.outcome with
  | .ready _ => (unread b).take (alignUp (taken x.buf) - taken b)
  | _        => (unread b).take (taken x.buf - taken b)

def took [BitSource B] (ctx : Ctx) (this : AsyncReader r) : List Bool :=
  match this.state, this.window with
  | .deserialize, some b => tookBy b (r.pollDeserialize ctx this.deserializer b)
  | _, _                 => []

def gave (read : Poll (Except E (List UInt8))) (this : AsyncReader r) : List UInt8 :=
  match this.state, read with
  | .reading, .ready (.ok data) => data
  | _, _                        => []

def returned : Flow (Except (AsyncReaderError E r.Error) U) → List (Item Ctx B)
  | .ret (.ready (.ok v))                   => [⟨r, .ok v⟩]
  | .ret (.ready (.error (.deserialize e))) => [⟨r, .error e⟩]
  | _                                       => []

end AsyncReader

-- A reader, and what has happened since it was new: the bytes that the transport has delivered, the
-- bits that have been taken out of the window, in order, and the items that have been returned.
structure Reading (Ctx B : Type) where
  {U : Type}
  {codec : MinCodecRead Ctx B U}
  reader    : AsyncReader codec
  delivered : List UInt8
  taken     : List Bool
  items     : List (Item Ctx B)

namespace Reading

def new (r : MinCodecRead Ctx B U) : Reading Ctx B where
  reader    := .new r
  delivered := []
  taken     := []
  items     := []

def type (this : Reading Ctx B) : ReadType Ctx B :=
  ⟨this.U, this.codec⟩

def Resumable [BitSource B] (Wait : Prop) (Stop : B → Prop) (r : MinCodecRead Ctx B U) : Prop :=
  ∃ p, Decodes Wait Stop r.pollDeserialize r.deserialize p

variable [BitSlice B]

def turn (this : Reading Ctx B) (B' : Type) [BitSliceMut B'] (m : ReadMoment Ctx E) :
    Flow (Except (AsyncReaderError E this.codec.Error) this.U) × AsyncReader this.codec :=
  this.reader.turn B' m.ctx m.read

def poll (this : Reading Ctx B) (ctx : Ctx) (b : B) :
    Polled this.codec.Deserialize B (Except this.codec.Error this.U) :=
  this.codec.pollDeserialize ctx this.reader.deserializer b

-- `poll_read` does not panic, and if it reads it reads at least one byte and at most as many as it
-- is offered room for.
def Valid (this : Reading Ctx B) (m : ReadMoment Ctx E) : Prop :=
  match m.read with
  | .ready (.ok data) => 0 < data.length ∧ ∀ n, this.reader.offered = some n → data.length ≤ n
  | .panicked _       => False
  | _                 => True

theorem returned_eq (B' : Type) [BitSliceMut B'] (this : Reading Ctx B) (m : ReadMoment Ctx E) :
    AsyncReader.returned (this.turn B' m).1 = [] ∨
      ∃ result, AsyncReader.returned (this.turn B' m).1 = [⟨this.codec, result⟩] := by
  match (this.turn B' m).1 with
  | .ret (.ready (.ok v))                   => exact .inr ⟨_, rfl⟩
  | .ret (.ready (.error (.deserialize e))) => exact .inr ⟨_, rfl⟩
  | .ret (.ready (.error (.read e)))        => exact .inl rfl
  | .ret .pending | .ret (.panicked msg)    => exact .inl rfl
  | .next | .unwound msg                    => exact .inl rfl

instance (this : Reading Ctx B) : (m : ReadMoment Ctx E) → Decidable (this.Valid m)
  | ⟨_, .ready (.ok data)⟩                    =>
    inferInstanceAs (Decidable (0 < data.length ∧ ∀ n ∈ this.reader.offered, data.length ≤ n))
  | ⟨_, .panicked _⟩                          => .isFalse id
  | ⟨_, .pending⟩ | ⟨_, .ready (.error _)⟩    => .isTrue trivial

variable [LawfulBitSlice B]

def after (this : Reading Ctx B) (B' : Type) [BitSliceMut B'] (m : ReadMoment Ctx E) :
    Reading Ctx B where
  reader    := (this.turn B' m).2
  delivered := this.delivered ++ this.reader.gave m.read
  taken     := this.taken ++ this.reader.took m.ctx
  items     := this.items ++ AsyncReader.returned (this.turn B' m).1

def turns (B' : Type) [BitSliceMut B'] : Reading Ctx B → List (ReadMoment Ctx E) → Reading Ctx B
  | this, []      => this
  | this, m :: ms => (this.after B' m).turns B' ms

def again (this : Reading Ctx B) : Reading Ctx B where
  reader    := this.reader.reset.getD this.reader
  delivered := this.delivered
  taken     := this.taken
  items     := this.items

omit [BitSlice B] [LawfulBitSlice B] in
theorem again_items (this : Reading Ctx B) : this.again.items = this.items := rfl

theorem after_items [BitSliceMut B'] (this : Reading Ctx B) (m : ReadMoment Ctx E) :
    (this.after B' m).items = this.items ++ AsyncReader.returned (this.turn B' m).1 := rfl

-- A deserializer that is pending has taken nothing, and one that is starved stops between two bytes.
def Quiet (this : Reading Ctx B) (ctx : Ctx) : Prop :=
  ∀ b, this.reader.state = .deserialize → this.reader.window = some b →
    ((this.poll ctx b).outcome = .pending → BitSource.taken (this.poll ctx b).buf = BitSource.taken b) ∧
    ((this.poll ctx b).outcome = .insufficient → BitSource.taken (this.poll ctx b).buf % 8 = 0)

-- One iteration, or the next item. `Allowed` holds of the codecs of the items, and `Ok` of the
-- iterations.
inductive Step (B' : Type) [BitSliceMut B'] (Allowed : {U : Type} → MinCodecRead Ctx B U → Prop)
    (Ok : Reading Ctx B → ReadMoment Ctx E → Prop) : Reading Ctx B → Reading Ctx B → Prop
  | turn {this : Reading Ctx B} {m : ReadMoment Ctx E} : Ok this m → ¬(this.turn B' m).1.Panics →
    Step B' Allowed Ok this (this.after B' m)
  | reset {this : Reading Ctx B} {reader : AsyncReader this.codec} :
    this.reader.reset = some reader → Step B' Allowed Ok this { this with reader }
  | resetAs {this : Reading Ctx B} {S : Type} {s : MinCodecRead Ctx B S} {reader : AsyncReader s} :
    Allowed s → this.reader.resetAs s = some reader →
    Step B' Allowed Ok this ⟨reader, this.delivered, this.taken, this.items⟩

abbrev Steps (B' : Type) [BitSliceMut B'] (Allowed : {U : Type} → MinCodecRead Ctx B U → Prop)
    (Ok : Reading Ctx B → ReadMoment Ctx E → Prop) : Reading Ctx B → Reading Ctx B → Prop :=
  Relation.ReflTransGen (Step B' Allowed Ok)

variable [BitSliceMut B'] {Allowed : {U : Type} → MinCodecRead Ctx B U → Prop}
variable {Ok Ok' : Reading Ctx B → ReadMoment Ctx E → Prop} {this : Reading Ctx B}

def Runs (B' : Type) [BitSliceMut B'] (Ok : Reading Ctx B → ReadMoment Ctx E → Prop) :
    Reading Ctx B → List (ReadMoment Ctx E) → Prop
  | _, []         => True
  | this, m :: ms => Ok this m ∧ ¬(this.turn B' m).1.Panics ∧ Runs B' Ok (this.after B' m) ms

instance instDecidableRuns [∀ this m, Decidable (Ok this m)] :
    ∀ this ms, Decidable (Runs B' Ok this ms)
  | _, []         => .isTrue trivial
  | this, m :: ms =>
    have := instDecidableRuns (this.after B' m) ms
    inferInstanceAs (Decidable (_ ∧ _ ∧ _))

theorem Runs.steps {P : Reading Ctx B → Prop} {ms : List (ReadMoment Ctx E)} (h : Runs B' Ok this ms)
    (hp : P this)
    (ha : ∀ {this m}, P this → Ok this m → ¬(this.turn B' m).1.Panics → P (this.after B' m))
    (ho : ∀ {this m}, P this → Ok this m → Ok' this m) :
    Steps B' Allowed Ok' this (this.turns B' ms) ∧ P (this.turns B' ms) := by
  induction ms generalizing this
  case nil          => exact ⟨.refl, hp⟩
  case cons m ms hi =>
    have ⟨hm, hn, h⟩ := h
    have ⟨hs, hp'⟩ := hi h (ha hp hm hn)
    exact ⟨.head (.turn (ho hp hm) hn) hs, hp'⟩

theorem steps_again (hs : this.reader.state = .complete) : Steps B' Allowed Ok this this.again := by
  refine .single (.reset ?_)
  simp [AsyncReader.reset, hs]

def results (B' : Type) [BitSliceMut B'] : (this : Reading Ctx B) → List (ReadMoment Ctx E) →
    List (Except this.codec.Error this.U)
  | _, []         => []
  | this, m :: ms =>
    let rest := (this.after B' m).results B' ms
    match (this.turn B' m).1 with
    | .ret (.ready (.ok v))                   => .ok v :: rest
    | .ret (.ready (.error (.deserialize e))) => .error e :: rest
    | _                                       => rest

theorem turns_items (this : Reading Ctx B) (ms : List (ReadMoment Ctx E)) :
    (this.turns B' ms).items = this.items ++ (this.results B' ms).map (Item.mk this.codec) := by
  induction ms generalizing this
  case nil => simp [turns, results]
  case cons m ms hi =>
    simp only [turns, results, hi (this.after B' m), after_items, List.append_assoc]
    congr 1
    match (this.turn B' m).1 with
    | .ret (.ready (.ok v)) | .ret (.ready (.error (.deserialize e))) => rfl
    | .ret (.ready (.error (.read e))) | .ret .pending | .ret (.panicked t) => rfl
    | .next | .unwound t => rfl

end Reading

-- The items decoded one after the other from a contiguous stream, each from the first byte boundary
-- after the one before it, up to a position. `P` says what it means that an item is decoded from a
-- buffer, and is left at a position.
inductive Decoded [BitSlice B] (P : Item Ctx B → B → Nat → Prop) (stream : List UInt8) :
    List (Item Ctx B) → Nat → Prop
  | nil : Decoded P stream [] 0
  | snoc {items : List (Item Ctx B)} {item : Item Ctx B} {o n : Nat} {b : B} :
    Decoded P stream items o → BitSlice.advance o (BitSlice.new stream) = some b → P item b n →
    Decoded P stream (items ++ [item]) (alignUp n)

variable [BitSlice B]

def Item.OneShot (item : Item Ctx B) (b : B) (n : Nat) : Prop :=
  ∀ ctx,
    (item.codec.pollDeserialize ctx item.codec.deserialize b).outcome = .ready item.result ∧
    BitSlice.len (item.codec.pollDeserialize ctx item.codec.deserialize b).buf = n

def Item.Repeated (item : Item Ctx B) (b : B) (n : Nat) : Prop :=
  ∀ cs,
    (pollAgain item.codec.pollDeserialize cs item.codec.deserialize b).outcome ≠ .pending →
    (pollAgain item.codec.pollDeserialize cs item.codec.deserialize b).outcome =
      .ready item.result ∧
    BitSlice.len (pollAgain item.codec.pollDeserialize cs item.codec.deserialize b).buf = n

end Mincodec
