import Mincodec.Run.Transfer
import Mincodec.Stream.Fifo
import Mincodec.Theorems.AsyncReader
import Mincodec.Theorems.AsyncWriter
import Mathlib.Data.List.Infix

-- A reader returns the items that a writer has sent.
namespace Mincodec

open Stream BitSource BitSink Reading

variable {Ctx B B' U E E' : Type} {Wait : Prop} {Stop : B → Prop}

def Message.Holds [BitSource B] (Wait : Prop) (Stop : B → Prop) (msg : Message Ctx B B')
    (bytes : List UInt8) : Prop :=
  ∃ w, msg.Parses Wait Stop w ∧ Bits.IsCut w bytes

section

variable [BitSource B] {msg : Message Ctx B B'} {w : List Bool}

namespace Message.Parses

theorem ne_more (h : msg.Parses Wait Stop w) {r : MinCodecRead Ctx B U}
    (ht : (⟨U, r⟩ : ReadType Ctx B) = msg.type) (t : List Bool) :
    ∃ p, Decodes Wait Stop r.pollDeserialize r.deserialize p ∧ p (w ++ t) ≠ .more := by
  obtain ⟨write, read, item⟩ := msg
  cases ht
  have ⟨p, hd, hw⟩ := h
  exact ⟨p, hd, by rw [hw t]; nofun⟩

theorem unique (h : msg.Parses Wait Stop w) {r : MinCodecRead Ctx B U}
    (ht : (⟨U, r⟩ : ReadType Ctx B) = msg.type) {u t t' : List Bool} {d : Ending r.Error U}
    (hh : ∀ p, Decodes Wait Stop r.pollDeserialize r.deserialize p → p.Halts u d)
    (hb : u ++ t = w ++ t') :
    (∃ v, d = .finished (.ok v) ∧ (⟨r, .ok v⟩ : Item Ctx B) = msg.received) ∧ u = w ∧ t = t' := by
  obtain ⟨write, read, item⟩ := msg
  cases ht
  have ⟨p, hd, hw⟩ := h
  have ⟨hd, hu, ht⟩ := (hh p hd).eq_of_append hw hb
  exact ⟨⟨_, hd, rfl⟩, hu, ht⟩

theorem unique_item (h : msg.Parses Wait Stop w) {item : Item Ctx B} (ht : item.type = msg.type)
    {u t t' : List Bool} (hh : ∀ p, Decodes Wait Stop item.codec.pollDeserialize
      item.codec.deserialize p → p.Halts u (.finished item.result)) (hb : u ++ t = w ++ t') :
    item = msg.received ∧ u = w ∧ t = t' := by
  have ⟨⟨v, hv, hi⟩, h⟩ := h.unique ht hh hb
  injection hv with hv
  rw [← hv] at hi
  exact ⟨hi, h⟩

end Message.Parses

variable {messages : List (Message Ctx B B')}

-- The items are those of the messages, and behind the last message no bits have been needed.
structure Meets (Wait : Prop) (Stop : B → Prop) (messages : List (Message Ctx B B'))
    (items : List (Item Ctx B)) : Prop where
  received : ∀ (i : Nat) (item : Item Ctx B) (msg : Message Ctx B B'), items[i]? = some item →
    messages[i]? = some msg → item = msg.received
  foreseen : ∀ (i : Nat) (item : Item Ctx B), items[i]? = some item → messages.length ≤ i →
    ∀ p, Decodes Wait Stop item.codec.pollDeserialize item.codec.deserialize p →
      p.Halts [] (.finished item.result)

theorem Meets.snoc {items : List (Item Ctx B)} {item : Item Ctx B}
    (h : Meets Wait Stop messages items)
    (hr : ∀ msg, messages[items.length]? = some msg → item = msg.received)
    (hf : messages.length ≤ items.length →
      ∀ p, Decodes Wait Stop item.codec.pollDeserialize item.codec.deserialize p →
        p.Halts [] (.finished item.result)) : Meets Wait Stop messages (items ++ [item]) := by
  constructor
  case received =>
    intro i a msg ha hm
    cases Fifo.getElem?_append_singleton ha
    case inl ha => exact h.received i a msg ha hm
    case inr ha =>
      obtain ⟨rfl, rfl⟩ := ha
      exact hr msg hm
  case foreseen =>
    intro i a ha hl
    cases Fifo.getElem?_append_singleton ha
    case inl ha => exact h.foreseen i a ha hl
    case inr ha =>
      obtain ⟨rfl, rfl⟩ := ha
      exact hf hl

variable {stream : List (List UInt8)}

theorem exists_holds (h : List.Forall₂ (Message.Holds Wait Stop) messages stream) {n : Nat}
    (hn : messages[n]? = some msg) :
    ∃ w pad tail, msg.Parses Wait Stop w ∧ pad.length < 8 ∧ (w ++ pad).length % 8 = 0 ∧
      Bits.ofBytes (stream.take (n + 1)).flatten =
        Bits.ofBytes (stream.take n).flatten ++ (w ++ pad) ∧
      Bits.ofBytes stream.flatten =
        Bits.ofBytes (stream.take n).flatten ++ (w ++ (pad ++ tail)) := by
  have ⟨hlt, hm⟩ := List.getElem?_eq_some_iff.mp hn
  have hlt' : n < stream.length := h.length_eq ▸ hlt
  have ⟨w, he, pad, hp, hw⟩ : msg.Holds Wait Stop stream[n] := by
    rw [← hm]
    exact h.get hlt hlt'
  have ht : Bits.ofBytes (stream.take (n + 1)).flatten =
      Bits.ofBytes (stream.take n).flatten ++ (w ++ pad) := by
    rw [List.take_succ_eq_append_getElem hlt', List.flatten_append, Bits.ofBytes_append,
      List.flatten_singleton, hw]
  refine ⟨w, pad, Bits.ofBytes (stream.drop (n + 1)).flatten, he, hp, ?_, ht, ?_⟩
  · rw [← hw, Bits.length_ofBytes]
    exact Nat.mul_mod_right ..
  · have hs := congrArg List.flatten (List.take_append_drop (n + 1) stream)
    rw [List.flatten_append] at hs
    rw [← hs, Bits.ofBytes_append, ht]
    simp

theorem eq_nil_of_end (h : List.Forall₂ (Message.Holds Wait Stop) messages stream) {n : Nat}
    (hn : messages.length ≤ n) {u : List Bool}
    (hs : Bits.ofBytes (stream.take n).flatten ++ u <+: Bits.ofBytes stream.flatten) : u = [] := by
  have ⟨t, hs⟩ := hs
  rw [List.take_of_length_le (h := h.length_eq ▸ hn), List.append_assoc] at hs
  exact (List.append_eq_nil_iff.mp (List.self_eq_append_right.mp hs.symm)).1

theorem eq_received (h : List.Forall₂ (Message.Holds Wait Stop) messages stream) {n : Nat}
    (hn : messages[n]? = some msg) {item : Item Ctx B} (ht : item.type = msg.type)
    {u skip : List Bool} (hh : ∀ p, Decodes Wait Stop item.codec.pollDeserialize
      item.codec.deserialize p → p.Halts u (.finished item.result))
    (hlt : skip.length < 8)
    (hmod : (Bits.ofBytes (stream.take n).flatten ++ (u ++ skip)).length % 8 = 0)
    (hs : Bits.ofBytes (stream.take n).flatten ++ (u ++ skip) <+: Bits.ofBytes stream.flatten) :
    item = msg.received ∧ Bits.ofBytes (stream.take (n + 1)).flatten =
      Bits.ofBytes (stream.take n).flatten ++ (u ++ skip) := by
  have ⟨t, hs⟩ := hs
  have ⟨w, pad, tail, he, hp, hw, hto, hgo⟩ := exists_holds h hn
  have hgo : u ++ (skip ++ t) = w ++ (pad ++ tail) := by
    rw [hgo] at hs
    simpa using hs
  have ⟨hitem, huw, hst⟩ := he.unique_item ht hh hgo
  have hskip : skip.length = pad.length := by
    rw [List.length_append, Bits.length_ofBytes] at hmod
    simp only [huw, List.length_append] at hmod hw
    omega
  have ⟨hskip, _⟩ := List.append_inj hst hskip
  exact ⟨hitem, by rw [hto, huw, hskip]⟩

-- The items that have been decoded from the front of the stream are those that it holds.
theorem Reading.Chain.meets {items : List (Item Ctx B)} {start : List Bool}
    (h : Chain Wait Stop items start) (hl : List.Forall₂ (Message.Holds Wait Stop) messages stream)
    (ht : ∀ (i : Nat) (item : Item Ctx B) (msg : Message Ctx B B'), items[i]? = some item →
      messages[i]? = some msg → item.type = msg.type)
    (hs : start <+: Bits.ofBytes stream.flatten) :
    Meets Wait Stop messages items ∧ start = Bits.ofBytes (stream.take items.length).flatten := by
  induction h
  case nil => exact ⟨⟨nofun, nofun⟩, rfl⟩
  case snoc items item start u skip hc _ hh hlt hmod hi =>
    have ⟨hmeets, hstart⟩ := hi
      (fun i a msg ha => ht i a msg (by rw [List.getElem?_append_left]; exact ha; exact
        (List.getElem?_eq_some_iff.mp ha).1)) ((List.prefix_append ..).trans hs)
    rw [hstart] at hs hmod
    rw [List.length_append, List.length_singleton, hstart]
    cases hn : messages[items.length]?
    case none     =>
      have hle := List.getElem?_eq_none_iff.mp hn
      have hus := eq_nil_of_end hl hle hs
      have ⟨hu, _⟩ := List.append_eq_nil_iff.mp hus
      refine ⟨hmeets.snoc (fun msg h => by rw [hn] at h; cases h) fun _ => hu ▸ hh, ?_⟩
      have := hl.length_eq
      rw [hus, List.append_nil, List.take_of_length_le (h := by omega),
        List.take_of_length_le (h := by omega)]
    case some msg =>
      have ⟨hitem, hto⟩ := eq_received hl hn (ht _ item msg (List.getElem?_concat_length ..) hn) hh
        hlt hmod hs
      refine ⟨hmeets.snoc (fun msg' h => ?_) fun hle => ?_, hto.symm⟩
      · obtain rfl := Option.some.inj (hn.symm.trans h)
        exact hitem
      · rw [List.getElem?_eq_none hle] at hn
        cases hn

end

namespace Reading

theorem Inv.not_waits [BitSlice B] [LawfulBitSlice B] {this : Reading Ctx B}
    (hi : Inv False Stop this) (ctx : Ctx) : ¬this.Waits ctx :=
  fun ⟨hs, b, _, hp⟩ => hi.poll_ne_pending hs ctx b hp

theorem getElem?_after [BitSlice B] [LawfulBitSlice B] (this : Reading Ctx B) (B' : Type)
    [BitSliceMut B'] (m : ReadMoment Ctx E) {i : Nat} {item : Item Ctx B}
    (h : (this.after B' m).items[i]? = some item) :
    this.items[i]? = some item ∨ i = this.items.length ∧ item.type = this.type := by
  rw [after_items] at h
  cases this.returned_eq B' m
  case inl hr =>
    rw [hr, List.append_nil] at h
    exact .inl h
  case inr hr =>
    have ⟨result, hr⟩ := hr
    rw [hr] at h
    cases Fifo.getElem?_append_singleton h
    case inl h => exact .inl h
    case inr h =>
      obtain ⟨rfl, rfl⟩ := h
      exact .inr ⟨rfl, rfl⟩

-- The reader has been given bytes of a stream of messages, and has read their types.
structure Fed [BitSource B] (Wait : Prop) (Stop : B → Prop) (messages : List (Message Ctx B B'))
    (stream : List (List UInt8)) (this : Reading Ctx B) : Prop where
  holds     : List.Forall₂ (Message.Holds Wait Stop) messages stream
  types     : ∀ (i : Nat) (item : Item Ctx B) (msg : Message Ctx B B'), this.items[i]? = some item →
    messages[i]? = some msg → item.type = msg.type
  delivered : this.delivered <+: stream.flatten

namespace Fed

section

variable [BitSource B] {messages : List (Message Ctx B B')} {stream : List (List UInt8)}
variable {this : Reading Ctx B}

theorem new (h : List.Forall₂ (Message.Holds Wait Stop) messages stream) (r : MinCodecRead Ctx B U) :
    (Reading.new r).Fed Wait Stop messages stream :=
  ⟨h, nofun, List.nil_prefix⟩

theorem meets (h : this.Fed Wait Stop messages stream) {start : List Bool}
    (hc : Chain Wait Stop this.items start) (hb : start <+: Bits.ofBytes this.delivered) :
    Meets Wait Stop messages this.items ∧
      start = Bits.ofBytes (stream.take this.items.length).flatten := by
  refine hc.meets h.holds h.types (hb.trans ?_)
  have ⟨more, hmore⟩ := h.delivered
  rw [← hmore, Bits.ofBytes_append]
  exact List.prefix_append ..

end

variable [BitSlice B] [LawfulBitSlice B] {messages : List (Message Ctx B B')}
variable {stream : List (List UInt8)} {this : Reading Ctx B} {msg : Message Ctx B B'}

theorem meets_items (h : this.Fed Wait Stop messages stream) (hi : Inv Wait Stop this) :
    Meets Wait Stop messages this.items := by
  have ⟨start, w, hw, hc, _⟩ := hi.underway
  have hb := hi.bits_eq
  rw [hw, List.append_assoc] at hb
  exact (h.meets hc (hb ▸ List.prefix_append ..)).1

theorem not_panics [BitSliceMut B'] [LawfulBitSliceMut B'] (h : this.Fed Wait Stop messages stream)
    (hi : Inv Wait Stop this) (hn : messages[this.items.length]? = some msg)
    (ht : this.type = msg.type) (hs : this.reader.state ≠ .complete) {m : ReadMoment Ctx E}
    (hv : this.Valid m) : ¬(this.turn B' m).1.Panics := by
  match hf : (this.turn B' m).1 with
  | .next | .ret .pending | .ret (.ready v) => exact id
  | .ret (.panicked t)                      => exact absurd hf (hi.turn_ne_panicked hs hv t)
  | .unwound t                              =>
    have ⟨start, u, rest, hb, hc, hh⟩ := hi.halts_of_unwound hv hf
    have ⟨_, hstart⟩ := h.meets hc (hb ▸ List.prefix_append ..)
    have ⟨w, pad, tail, hp, _, _, _, hgo⟩ := exists_holds h.holds hn
    have ⟨more, hmore⟩ := h.delivered
    have hbits : u ++ (rest ++ Bits.ofBytes more) = w ++ (pad ++ tail) := by
      rw [← hmore, Bits.ofBytes_append, hb, hstart] at hgo
      simpa using hgo
    have ⟨⟨v, hd, _⟩, _⟩ := hp.unique ht hh hbits
    cases hd

theorem exists_bits (h : this.Fed Wait Stop messages stream) (hi : Inv Wait Stop this)
    (hn : messages[this.items.length]? = some msg)
    (hle : (stream.take (this.items.length + 1)).flatten.length ≤ this.delivered.length)
    {start w' : List Bool} (hw' : this.taken = start ++ w') (hc : Chain Wait Stop this.items start) :
    ∃ w t, msg.Parses Wait Stop w ∧ w' ++ this.reader.rest = w ++ t := by
  have hb := hi.bits_eq
  rw [hw', List.append_assoc] at hb
  have ⟨_, hstart⟩ := h.meets hc (hb ▸ List.prefix_append ..)
  have ⟨w, pad, tail, hp, _, _, hto, _⟩ := exists_holds h.holds hn
  have ⟨z, hz⟩ := List.prefix_of_prefix_length_le (.flatten (List.take_prefix ..)) h.delivered hle
  refine ⟨w, pad ++ Bits.ofBytes z, hp, ?_⟩
  rw [← hz, Bits.ofBytes_append, hto, hstart] at hb
  simpa using hb.symm

theorem length_lt (h : this.Fed Wait Stop messages stream) (hi : Inv Wait Stop this)
    (hn : messages[this.items.length]? = some msg) (ht : this.type = msg.type)
    (hs : this.reader.state = .reading) :
    this.delivered.length < (stream.take (this.items.length + 1)).flatten.length := by
  have ⟨start, w', hw', hc, hund⟩ := hi.underway
  simp only [hs] at hund
  by_contra hge
  have ⟨w, t, hp, hbits⟩ := h.exists_bits hi hn (Nat.le_of_not_lt hge) hw' hc
  have ⟨p, hd, hne⟩ := hp.ne_more ht t
  exact hne (hbits ▸ (hund p hd).2 hs)

theorem poll_ready (h : this.Fed Wait Stop messages stream) (hi : Inv Wait Stop this)
    (hn : messages[this.items.length]? = some msg) (ht : this.type = msg.type)
    (hs : this.reader.state = .deserialize)
    (hle : (stream.take (this.items.length + 1)).flatten.length ≤ this.delivered.length) {b : B}
    (hb : this.reader.window = some b) {ctx : Ctx} (hp : (this.poll ctx b).outcome ≠ .pending) :
    ∃ v, (this.poll ctx b).outcome = .ready (.ok v) ∧ ⟨this.codec, .ok v⟩ = msg.received := by
  have hu := (hi.window_eq hb).1
  have ⟨start, w', u, hw', hc, hcons, hund⟩ := hi.polled hs hu ctx
  have ⟨w, t, hparses, hbits⟩ := h.exists_bits hi hn hle hw' hc
  have ⟨p, hd, hne⟩ := hparses.ne_more ht t
  have hends : w' ++ u ++ unread (this.poll ctx b).buf = w ++ t := by
    rw [← hbits, ← hu, hcons.unread_eq, List.append_assoc]
  cases ho : (this.poll ctx b).outcome <;> simp only [ho] at hund
  case pending      => exact absurd ho hp
  case insufficient => exact absurd (hbits ▸ (hund p hd).1) hne
  case panicked t   =>
    have ⟨⟨v, hv, _⟩, _⟩ := hparses.unique ht hund hends
    cases hv
  case ready result =>
    have ⟨⟨v, hv, hitem⟩, _⟩ := hparses.unique ht hund hends
    injection hv with hv
    exact ⟨v, congrArg _ hv, hitem⟩

section

variable [BitSliceMut B']

variable (B') in
theorem returns (h : this.Fed Wait Stop messages stream) (hi : Inv Wait Stop this)
    (hn : messages[this.items.length]? = some msg) (ht : this.type = msg.type)
    (hs : this.reader.state = .deserialize)
    (hle : (stream.take (this.items.length + 1)).flatten.length ≤ this.delivered.length)
    (m : ReadMoment Ctx E) : this.Waits m.ctx ∧ (this.turn B' m).1 = .ret .pending ∨
      this.Quiet m.ctx ∧ AsyncReader.returned (this.turn B' m).1 = [msg.received] ∧
        (this.turn B' m).2.state = .complete := by
  obtain ⟨b, hb, _⟩ := hi.exists_window
  rw [hi.turn_eq hs hb]
  by_cases hp : (this.poll m.ctx b).outcome = .pending
  case pos => exact .inl ⟨⟨hs, b, hb, hp⟩, by simp only [AsyncReader.deserialized, hp]⟩
  case neg =>
    obtain ⟨v, ho, hitem⟩ := h.poll_ready hi hn ht hs hle hb hp
    refine .inr ⟨fun b' _ hb' => ?_, ?_⟩
    · cases hb.symm.trans hb'
      simp [ho]
    · simp only [AsyncReader.deserialized, ho]
      exact ⟨congrArg (fun item => [item]) hitem, trivial⟩

theorem step {next : Reading Ctx B} {Allowed : {U : Type} → MinCodecRead Ctx B U → Prop}
    {Ok : Reading Ctx B → ReadMoment Ctx E → Prop} (h : this.Fed Wait Stop messages stream)
    (ho : ∀ {this m}, Ok this m → this.Receives messages stream.flatten m)
    (hs : Step B' Allowed Ok this next) : next.Fed Wait Stop messages stream := by
  cases hs
  case reset | resetAs => exact ⟨h.holds, h.types, h.delivered⟩
  case turn m hm _     =>
    have ⟨_, _, hd, msg, hn, ht⟩ := ho hm
    refine ⟨h.holds, fun i item msg' hi hn' => ?_, hd⟩
    cases this.getElem?_after B' m hi
    case inl hi => exact h.types i item msg' hi hn'
    case inr hi =>
      obtain ⟨rfl, hitem⟩ := hi
      cases hn.symm.trans hn'
      exact hitem.trans ht

theorem steps {next : Reading Ctx B} {Allowed : {U : Type} → MinCodecRead Ctx B U → Prop}
    {Ok : Reading Ctx B → ReadMoment Ctx E → Prop} (h : this.Fed Wait Stop messages stream)
    (ho : ∀ {this m}, Ok this m → this.Receives messages stream.flatten m)
    (hs : Steps B' Allowed Ok this next) : next.Fed Wait Stop messages stream := by
  induction hs
  case refl         => exact h
  case tail hs hi   => exact hi.step ho hs

end

end Fed

end Reading

section

variable [BitSource B] {messages : List (Message Ctx B B')} {items : List (Item Ctx B)}

theorem Meets.eq_take (h : Meets Wait Stop messages items) (hl : items.length ≤ messages.length) :
    items = (messages.take items.length).map Message.received := by
  apply List.ext_getElem?
  intro i
  by_cases hi : i < items.length
  case pos =>
    have hn := List.getElem?_eq_getElem (hi.trans_le hl)
    have hr := h.received i _ _ (List.getElem?_eq_getElem hi) hn
    rw [List.getElem?_map, List.getElem?_take_of_lt hi, hn, List.getElem?_eq_getElem hi, hr]
    rfl
  case neg =>
    rw [List.getElem?_eq_none (Nat.le_of_not_lt hi), List.getElem?_eq_none]
    rw [List.length_map, List.length_take]
    omega

end

namespace Reading

variable [BitSlice B] [LawfulBitSlice B] [BitSliceMut B']
variable {messages : List (Message Ctx B B')} {stream : List (List UInt8)} {this : Reading Ctx B}

variable (B') in
theorem exists_resetAs {S : Type} {s : MinCodecRead Ctx B S} (hs : this.reader.state = .complete)
    (hr : Resumable Wait Stop s) (Ok : Reading Ctx B → ReadMoment Ctx E → Prop) :
    ∃ next : Reading Ctx B, Step B' (Resumable Wait Stop) Ok this next ∧
      next.type = ⟨S, s⟩ ∧ next.reader.state = .deserialize ∧
        next.items = this.items ∧ next.delivered = this.delivered := by
  have hreset : this.reader.resetAs s =
      some ⟨this.reader.buffer, this.reader.cursor, this.reader.lastByte, s.deserialize, .deserialize⟩ := by
    simp only [AsyncReader.resetAs, hs]
  exact ⟨_, .resetAs hr hreset, rfl, rfl, rfl, rfl⟩

theorem length_items_le {next : Reading Ctx B} {Allowed : {U : Type} → MinCodecRead Ctx B U → Prop}
    {bytes : List UInt8} (hs : Steps B' Allowed
      (Receives messages bytes : Reading Ctx B → ReadMoment Ctx E → Prop) this next)
    (hl : this.items.length ≤ messages.length) : next.items.length ≤ messages.length := by
  induction hs
  case refl             => exact hl
  case tail next _ _ hs hi =>
    cases hs
    case reset | resetAs => exact hi
    case turn m hm _     =>
      have ⟨_, _, _, msg, hn, _⟩ := hm
      have hlt := (List.getElem?_eq_some_iff.mp hn).1
      rw [after_items, List.length_append]
      cases next.returned_eq B' m
      case inl hr =>
        rw [hr]
        exact hi
      case inr hr =>
        have ⟨_, hr⟩ := hr
        rw [hr]
        exact hlt

variable [LawfulBitSliceMut B']

namespace Fed

-- The next message is returned, unless its deserializer is pending.
variable (B') in
theorem exists_next (h : this.Fed Wait Stop messages stream) (hi : Inv Wait Stop this)
    (hd : this.delivered = stream.flatten) (ha : this.At messages)
    (hs : this.reader.state = .deserialize) (ctx : Ctx) :
    this.Waits ctx ∨ ∃ next : Reading Ctx B, Step B' (Resumable Wait Stop)
      (Idle messages stream.flatten ctx : Reading Ctx B → ReadMoment Ctx E → Prop) this next ∧
        next.reader.state = .complete ∧ next.delivered = stream.flatten ∧
          next.items.length = this.items.length + 1 := by
  obtain ⟨msg, hn, ht⟩ := ha
  let m : ReadMoment Ctx E := ⟨ctx, .pending⟩
  have hle : (stream.take (this.items.length + 1)).flatten.length ≤ this.delivered.length :=
    hd ▸ (List.IsPrefix.flatten (List.take_prefix ..)).length_le
  have hg : this.delivered ++ this.reader.gave m.read = stream.flatten := by
    simp only [m, AsyncReader.gave, hs, List.append_nil, hd]
  cases h.returns B' hi hn ht hs hle m
  case inl hw => exact .inl hw.1
  case inr hr =>
    obtain ⟨hq, hr, hs'⟩ := hr
    have hm : this.Receives messages stream.flatten m := ⟨trivial, hq, hg ▸ List.prefix_rfl, msg, hn, ht⟩
    refine .inr ⟨this.after B' m, .turn ⟨hm, rfl, rfl⟩ ?_, hs', hg, ?_⟩
    · exact h.not_panics hi hn ht (by simp [hs]) hm.1
    · rw [after_items, hr, List.length_append, List.length_singleton]

variable (B') in
theorem exists_last_of_complete (h : this.Fed Wait Stop messages stream) (hi : Inv Wait Stop this)
    (hd : this.delivered = stream.flatten) (hs : this.reader.state = .complete)
    (hl : this.items.length ≤ messages.length) (ctx : Ctx) : ∃ last : Reading Ctx B,
      Steps B' (Resumable Wait Stop)
        (Idle messages stream.flatten ctx : Reading Ctx B → ReadMoment Ctx E → Prop) this last ∧
      (last.items.length = messages.length ∨ last.Waits ctx) := by
  obtain ⟨k, hk⟩ := Nat.exists_eq_add_of_le hl
  clear hl
  induction k generalizing this
  case zero      => exact ⟨this, .refl, .inl hk.symm⟩
  case succ k hk' =>
    have hn : messages[this.items.length]? = some messages[this.items.length] :=
      List.getElem?_eq_getElem (by omega)
    have ⟨w, _, _, ⟨p, hp, _⟩, _⟩ := exists_holds h.holds hn
    have hr : Resumable Wait Stop messages[this.items.length].read := ⟨p, hp⟩
    have ⟨next, hnext, ht, hs', hi', hd'⟩ :=
      this.exists_resetAs B' hs hr (Idle (E := E) messages stream.flatten ctx)
    have hat : next.At messages := ⟨messages[this.items.length], by rwa [hi'], ht⟩
    have hfed := h.step And.left hnext
    have hinv : Inv Wait Stop next := hi.step_inv id (fun _ hm => ⟨hm.1.1, hm.1.2.1⟩) hnext
    cases hfed.exists_next (E := E) B' hinv (hd'.trans hd) hat hs' ctx
    case inl hw   => exact ⟨next, .single hnext, .inr hw⟩
    case inr hgo  =>
      have ⟨done, hdone, hs, hd, hl⟩ := hgo
      have ⟨last, hlast, h⟩ := hk' (hfed.step And.left hdone)
        (hinv.step_inv id (fun _ hm => ⟨hm.1.1, hm.1.2.1⟩) hdone) hd hs (by rw [hl, hi']; omega)
      exact ⟨last, .head hnext (.head hdone hlast), h⟩

variable (B') in
theorem exists_last (h : this.Fed Wait Stop messages stream) (hi : Inv Wait Stop this)
    (hd : this.delivered = stream.flatten) (ha : this.reader.state = .complete ∨ this.At messages)
    (hl : this.items.length ≤ messages.length) (ctx : Ctx) : ∃ last : Reading Ctx B,
      Steps B' (Resumable Wait Stop)
        (Idle messages stream.flatten ctx : Reading Ctx B → ReadMoment Ctx E → Prop) this last ∧
      (last.items.length = messages.length ∨ last.Waits ctx) := by
  match hs : this.reader.state with
  | .complete    => exact h.exists_last_of_complete B' hi hd hs hl ctx
  | .reading     =>
    have ⟨msg, hn, ht⟩ := ha.resolve_left (by simp [hs])
    have hlt := h.length_lt hi hn ht hs
    have hle := (List.take_prefix (this.items.length + 1) stream).flatten.length_le
    rw [hd] at hlt
    omega
  | .deserialize =>
    have ha := ha.resolve_left (by simp [hs])
    cases h.exists_next (E := E) B' hi hd ha hs ctx
    case inl hw  => exact ⟨this, .refl, .inr hw⟩
    case inr hgo =>
      have ⟨next, hnext, hs, hd, hlen⟩ := hgo
      have ⟨_, hn, _⟩ := ha
      have hlt := (List.getElem?_eq_some_iff.mp hn).1
      have ⟨last, hlast, hend⟩ := (h.step And.left hnext).exists_last_of_complete (E := E) B'
        (hi.step_inv id (fun _ hm => ⟨hm.1.1, hm.1.2.1⟩) hnext) hd hs (by omega) ctx
      exact ⟨last, .head hnext hlast, hend⟩

theorem restores (h : this.Fed Wait Stop messages stream) (hi : Inv Wait Stop this)
    (hl : this.items.length ≤ messages.length) :
    this.Restores B' E Wait Stop messages stream where
  items_eq   := (h.meets_items hi).eq_take hl
  not_panics := fun m ⟨hv, _, _, msg, hn, ht⟩ hs => h.not_panics hi hn ht hs hv
  needs      := fun ⟨msg, hn, ht⟩ hs => h.length_lt hi hn ht hs
  returns    := by
    intro ⟨msg, hn, ht⟩ hs hle m
    cases h.returns B' hi hn ht hs hle m
    case inl hw => exact .inl hw
    case inr hr =>
      rw [hn]
      exact .inr hr.2.1
  completes  := by
    intro hd ha ctx
    have ⟨last, hlast, hend⟩ := h.exists_last (E := E) B' hi hd ha hl ctx
    refine ⟨last, hlast, hend.imp_left fun hlen => ?_⟩
    have hinv := hi.steps_inv id (fun _ hm => ⟨hm.1.1, hm.1.2.1⟩) hlast
    have hitems := (h.steps And.left hlast).meets_items hinv
    rw [hitems.eq_take hlen.le, hlen, List.take_length]

end Fed

end Reading

section

variable [BitSliceMut B'] [LawfulBitSliceMut B']

theorem Sending.Inv.whole {sending : Sending Ctx B'} (hi : Sending.Inv sending)
    (hd : sending.writer.isDone) : ∀ s ∈ sending.all, s.Whole := by
  intro s hs
  cases List.mem_append.mp hs
  case inl hs => exact hi.before s hs
  case inr hs =>
    obtain rfl := List.mem_singleton.mp hs
    exact fun e he => (hi.tracks e he).isCut (AsyncWriter.complete_of_isDone hd)

theorem Sending.Inv.holds [BitSource B] {sending : Sending Ctx B'} (hi : Sending.Inv sending)
    (hd : sending.writer.isDone) {A : Type 1} {f : A → Message Ctx B B'}
    {P : A → Sent Ctx B' → Prop} {as : List A} (hm : List.Forall₂ P as sending.all)
    (hp : ∀ a ∈ as, ∀ s, P a s → s.Whole → (f a).Holds Wait Stop s.bytes) :
    List.Forall₂ (Message.Holds Wait Stop) (as.map f) sending.stream := by
  have ⟨hl, hm⟩ := List.forall₂_iff_zip.mp hm
  refine List.forall₂_map_left_iff.mpr (List.forall₂_map_right_iff.mpr
    (List.forall₂_iff_zip.mpr ⟨hl, fun {a s} h => ?_⟩))
  have ⟨ha, hs⟩ := List.of_mem_zip h
  exact hp a ha s (hm h) (hi.whole hd s hs)

theorem Message.Conveys.holds [BitSource B] {msg : Message Ctx B B'} {w : List Bool}
    (h : msg.Conveys Wait Stop w) {s : Sent Ctx B'} (hc : msg.Carried s) (hs : s.Whole) :
    msg.Holds Wait Stop s.bytes := by
  rw [hc] at hs
  exact ⟨w, h.2, hs _ h.1.outputs⟩

variable [BitSlice B] [LawfulBitSlice B]

-- The items that have been sent over a transport that accepts everything are returned in their order,
-- whichever way their bytes are cut: each as soon as the last of its bytes has been delivered and its
-- deserializer is not pending. No serializer is pending with bits in the buffer, and no deserializer
-- after it has taken some.
theorem transfer {first : Message Ctx B B'} {rest : List (Message Ctx B B')}
    (hc : ∀ msg ∈ first :: rest, ∃ w, msg.Conveys Wait Stop w) {sending : Sending Ctx B'}
    (hs : Sending.Steps Serializable (Sending.InFull : _ → WriteMoment Ctx E → Prop)
      (.new first.write first.item) sending)
    (hd : sending.writer.isDone) (hm : List.Forall₂ Message.Carried (first :: rest) sending.all)
    {reading : Reading Ctx B} (hr : Reading.Steps B' (Resumable Wait Stop)
      (Receives (first :: rest) sending.stream.flatten : _ → ReadMoment Ctx E' → Prop)
      (.new first.read) reading) :
    reading.Restores B' E' Wait Stop (first :: rest) sending.stream := by
  have ⟨w, hw, p, hp, _⟩ := hc first List.mem_cons_self
  have hi : Reading.Inv Wait Stop reading :=
    (Reading.new_inv hp).steps_inv id (fun _ h => ⟨h.1, h.2.1⟩) hr
  have hsent := (Sending.new_inv ⟨_, hw.outputs⟩).steps_inv id Sending.InFull.steady hs
  have hholds : List.Forall₂ (Message.Holds Wait Stop) (first :: rest) sending.stream := by
    simpa using hsent.holds hd hm fun msg hmsg _ hm hs => (hc msg hmsg).choose_spec.holds hm hs
  exact ((Reading.Fed.new hholds first.read).steps id hr).restores hi
    (Reading.length_items_le hr (Nat.zero_le _))

end

section

def lateU16Message (x : BitVec (8 * 2)) : Message Unit Slice SliceMut :=
  ⟨lateU16Write, lateU16Read, x⟩

def lateU16Messages : List (Message Unit Slice SliceMut) :=
  [lateU16Message 258, lateU16Message 772]

theorem lateU16Message_conveys {msg : Message Unit Slice SliceMut} (h : msg ∈ lateU16Messages) :
    ∃ w, msg.Conveys True Drained w := by
  obtain ⟨x, rfl⟩ : ∃ x, msg = lateU16Message x := by
    cases List.mem_pair.mp h
    case inl h => exact ⟨258, h⟩
    case inr h => exact ⟨772, h⟩
  exact ⟨_, lateU16Write_resumes x, _, lateU16Read_decodes, numberParser_halts x⟩

theorem lateU16Messages_at : ∀ {n : Nat}, n < 2 →
    ∃ msg, lateU16Messages[n]? = some msg ∧ (⟨_, lateU16Read⟩ : ReadType Unit Slice) = msg.type
  | 0, _ => ⟨lateU16Message 258, rfl, rfl⟩
  | 1, _ => ⟨lateU16Message 772, rfl, rfl⟩

theorem transfer_u16s : lateU16s.delivered = sentU16s.stream.flatten ∧
    lateU16s.Restores SliceMut Unit True Drained lateU16Messages sentU16s.stream ∧
    lateU16s.items = [⟨lateU16Read, .ok 258⟩, ⟨lateU16Read, .ok 772⟩] := by
  have hm : List.Forall₂ Message.Carried lateU16Messages sentU16s.all := .cons rfl (.cons rfl .nil)
  have ⟨hd, hstream, hdelivered, hi⟩ : sentU16s.writer.isDone ∧
      sentU16s.stream.flatten = [1, 2, 3, 4] ∧ lateU16s.delivered = [1, 2, 3, 4] ∧
      lateU16s.items.length = 2 := by
    decide +kernel
  have receives {this : Reading Unit Slice} {m : ReadMoment Unit Unit} {bytes : List UInt8}
      (hb : bytes <+: [1, 2, 3, 4]) (hm : Served bytes this m) (hq : this.Quiet m.ctx)
      (ht : this.type = ⟨_, lateU16Read⟩) :
      this.Receives lateU16Messages sentU16s.stream.flatten m :=
    ⟨hm.1, hq, hstream ▸ hm.2.1.trans hb,
      (lateU16Messages_at hm.2.2).imp fun _ h => ⟨h.1, ht.trans h.2⟩⟩
  have hr : Steps SliceMut (Resumable True Drained)
      (Receives lateU16Messages sentU16s.stream.flatten : _ → ReadMoment Unit Unit → Prop)
      (.new lateU16Read) lateU16s :=
    (earlyU16_steps (receives (by decide))).1.trans (lateU16s_steps (receives List.prefix_rfl))
  have h := transfer (fun _ => lateU16Message_conveys)
    (sentU16s_steps ⟨_, (lateU16Write_resumes 772).outputs⟩) hd hm hr
  exact ⟨hdelivered.trans hstream.symm, h, by rw [h.items_eq, hi]; rfl⟩

def pairMessage : Message Unit Slice SliceMut :=
  ⟨pairWrite, pairRead, (true, false)⟩

-- An item whose serializer waits with a bit in the buffer is not the one that is returned.
theorem transfer_fails :
    pairMessage.Conveys True Drained [true, false] ∧
    Sending.Steps Serializable (fun (this : Sending Unit SliceMut) (m : WriteMoment Unit Empty) =>
      m.write = .ready (.ok this.writer.offered.length)) newPair sentPair ∧
    sentPair.writer.isDone ∧ List.Forall₂ Message.Carried [pairMessage] sentPair.all ∧
    ∃ reading : Reading Unit Slice, Steps SliceMut (Resumable True Drained)
        (Valid : Reading Unit Slice → ReadMoment Unit Empty → Prop) (.new pairRead) reading ∧
      reading.delivered = sentPair.stream.flatten ∧
      reading.items = [⟨pairRead, .ok (false, false)⟩] := by
  have ⟨reading, hr, ht, hi⟩ := @pairRead_steps 0 (false, false) (by decide +kernel)
    (by decide +kernel) (by decide +kernel) (by decide +kernel)
  have hstream : sentPair.stream.flatten = [0] := by decide +kernel
  have hhalts : (Parser.bit.bind fun x => Parser.bit.bind fun y => Parser.pure (x, y) :
      Parser Empty (Bool × Bool)).Halts [true, false] (.finished (.ok (true, false))) :=
    fun _ => rfl
  exact ⟨⟨pairWrite_encodes.resumes _, _, pairRead_decodes, hhalts⟩, sentPair_steps,
    by decide +kernel, .cons rfl .nil, reading, hr, ht ▸ hstream ▸ by decide +kernel, hi⟩

end

end Mincodec
