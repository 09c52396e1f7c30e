import Mincodec.Run.Link
import Mincodec.Theorems.Transfer
import Mathlib.Data.List.Infix

-- What an `AsyncWriter` and an `AsyncReader` do at the two ends of a bytestream.
namespace Mincodec

open Stream BitSource BitSink Reading

variable {Ctx B B' U E E' : Type} {Wait : Prop} {Stop : B → Prop}

def Message.Fills [BitSource B] [BitSink B'] (Wait : Prop) (Stop : B → Prop)
    (msg : Message Ctx B B') (bytes : List UInt8) : Prop :=
  ∃ w, msg.Conveys Wait Stop w ∧ Bits.IsCut w bytes

theorem Message.Fills.holds [BitSource B] [BitSink B'] {msg : Message Ctx B B'} {bytes : List UInt8}
    (h : msg.Fills Wait Stop bytes) : msg.Holds Wait Stop bytes :=
  h.imp fun _ h => ⟨h.1.2, h.2⟩

def Foreseen [BitSource B] (Wait : Prop) (Stop : B → Prop) (kinds : Nat → Kind Ctx B B') (n : Nat)
    (item : Item Ctx B) : Prop :=
  item.type = (kinds n).type ∧
    ∀ p, Decodes Wait Stop item.codec.pollDeserialize item.codec.deserialize p →
      p.Halts [] (.finished item.result)

section

variable [BitSliceMut B'] [LawfulBitSliceMut B']

omit [BitSliceMut B'] [LawfulBitSliceMut B'] in
theorem Message.Carried.congr {msg : Message Ctx B B'} {w : MinCodecWrite Ctx B' U} {item : U}
    {xs ys : List UInt8} (h : msg.Carried ⟨w, item, xs⟩) : msg.Carried ⟨w, item, ys⟩ := by
  obtain ⟨write, read, i⟩ := msg
  cases h
  rfl

theorem Sending.next_tracks {this next : Sending Ctx B'} {bits bits' : List Bool}
    (h : this.writer.Tracks this.accepted (.done bits)) {msg : Message Ctx B B'}
    (hn : this.Next msg next) (ho : Outputs msg.write msg.item (.done bits')) :
    Bits.IsCut bits this.accepted ∧ next.before = this.before ++ [this.sent] ∧
      next.accepted = [] ∧ msg.Carried next.sent ∧
        next.writer.Tracks next.accepted (.done bits') := by
  cases hn
  case rebuild hd =>
    have hs := AsyncWriter.complete_of_isDone hd
    exact ⟨h.isCut hs, rfl, rfl, rfl, AsyncWriter.new_tracks ho⟩
  case reset hr   =>
    have ⟨hs, ht⟩ := h.reset_tracks hr ho
    exact ⟨h.isCut hs, rfl, rfl, rfl, ht⟩

end

namespace Link

theorem sent_eq (this : Link Ctx B B') :
    this.sent = (this.sending.before.map Sent.bytes).flatten ++ this.sending.accepted := by
  simp [sent, Sending.stream, Sending.all, Sending.sent]

variable [BitSlice B] [LawfulBitSlice B] [BitSliceMut B'] [LawfulBitSliceMut B']
variable {kinds : Nat → Kind Ctx B B'} {this next : Link Ctx B B'}

-- Both ends follow what has been agreed on, the bytes that have been accepted are those of the items,
-- and the reader has not been given others.
structure Inv (Wait : Prop) (Stop : B → Prop) (kinds : Nat → Kind Ctx B B')
    (this : Link Ctx B B') : Prop where
  agreed    : ∀ (i : Nat) (msg : Message Ctx B B'), this.messages[i]? = some msg → kinds i = msg.kind
  types     : ∀ (i : Nat) (item : Item Ctx B), this.reading.items[i]? = some item →
    item.type = (kinds i).type
  delivered : this.reading.delivered <+: this.sent
  reading   : Reading.Inv Wait Stop this.reading
  sending   : ∃ earlier msg w, this.messages = earlier ++ [msg] ∧
    List.Forall₂ (Message.Fills Wait Stop) earlier (this.sending.before.map Sent.bytes) ∧
    msg.Carried this.sending.sent ∧ msg.Conveys Wait Stop w ∧
    this.sending.writer.Tracks this.sending.accepted (.done w)

theorem new_inv {msg : Message Ctx B B'} {w : List Bool} (hk : kinds 0 = msg.kind)
    (h : msg.Conveys Wait Stop w) : Inv Wait Stop kinds (new msg) where
  agreed    := by
    intro i a ha
    cases @Fifo.getElem?_append_singleton _ [] _ _ _ ha
    case inl ha => cases ha
    case inr ha =>
      obtain ⟨rfl, rfl⟩ := ha
      exact hk
  types     := nofun
  delivered := List.nil_prefix
  reading   := Reading.new_inv h.2.choose_spec.1
  sending   := ⟨[], msg, w, rfl, .nil, rfl, h, AsyncWriter.new_tracks h.1.outputs⟩

namespace Inv

theorem exists_stream (h : Inv Wait Stop kinds this) : ∃ stream,
    List.Forall₂ (Message.Fills Wait Stop) this.messages stream ∧ this.sent <+: stream.flatten ∧
      (stream.take (this.messages.length - 1)).flatten <+: this.sent ∧
      (this.sending.writer.state = .complete → this.sent = stream.flatten) := by
  have ⟨earlier, msg, w, hm, hf, _, hp, hc⟩ := h.sending
  have hlen : this.messages.length - 1 = (this.sending.before.map Sent.bytes).length := by
    rw [hm, ← hf.length_eq, List.length_append, List.length_singleton, Nat.add_sub_cancel]
  have hs := this.sent_eq
  rw [hs, hm, ← hm, hlen]
  by_cases hd : this.sending.writer.state = .complete
  case pos =>
    refine ⟨this.sending.before.map Sent.bytes ++ [this.sending.accepted], ?_, ?_, ?_, fun _ => ?_⟩
    · exact hm ▸ List.rel_append hf (.cons ⟨w, hp, hc.isCut hd⟩ .nil)
    · simp
    · simp
    · simp
  case neg =>
    have ⟨bytes, hb, ha⟩ := hc.prefix_cut
    refine ⟨this.sending.before.map Sent.bytes ++ [bytes], ?_, ?_, ?_, fun hd' => absurd hd' hd⟩
    · exact hm ▸ List.rel_append hf (.cons ⟨w, hp, hb⟩ .nil)
    · simpa using ha
    · simp

theorem write_inv (h : Inv Wait Stop kinds this) {m : WriteMoment Ctx E} (hm : this.sending.Steady m)
    (hp : ¬(this.sending.turn m).1.Panics) :
    Inv Wait Stop kinds { this with sending := this.sending.after m } where
  agreed    := h.agreed
  types     := h.types
  delivered := by
    apply h.delivered.trans
    rw [sent_eq, sent_eq]
    exact ⟨_, List.append_assoc ..⟩
  reading   := h.reading
  sending   := by
    have ⟨earlier, msg, w, he, hf, hmsg, hw, hc⟩ := h.sending
    exact ⟨earlier, msg, w, he, hf, hmsg.congr, hw,
      hc.turn_tracks hm.1 hm.2.1 hm.2.2 hp⟩

theorem next_inv (h : Inv Wait Stop kinds this) {msg : Message Ctx B B'} {w : List Bool}
    {sending : Sending Ctx B'} (hk : kinds this.messages.length = msg.kind)
    (hc : msg.Conveys Wait Stop w) (hn : this.sending.Next msg sending) :
    Inv Wait Stop kinds { this with messages := this.messages ++ [msg], sending } := by
  have ⟨earlier, last, u, he, hf, _, hu, hl⟩ := h.sending
  have ⟨hcut, hb, ha, hmsg, hs⟩ := Sending.next_tracks hl hn hc.1.outputs
  refine ⟨fun i a hi => ?_, h.types, ?_, h.reading, this.messages, msg, w, rfl, ?_, hmsg, hc, hs⟩
  · cases Fifo.getElem?_append_singleton hi
    case inl hi => exact h.agreed i a hi
    case inr hi =>
      obtain ⟨rfl, rfl⟩ := hi
      exact hk
  · have hd := h.delivered
    rw [sent_eq] at hd ⊢
    simpa [hb, ha, Sending.sent] using hd
  · show List.Forall₂ _ _ (sending.before.map Sent.bytes)
    rw [he, hb, List.map_append]
    exact List.rel_append hf (.cons ⟨u, hu, hcut⟩ .nil)

theorem read_inv (h : Inv Wait Stop kinds this) {reading : Reading Ctx B}
    (hs : Reading.Step B' (Resumable Wait Stop)
      (this.Receives kinds : Reading Ctx B → ReadMoment Ctx E → Prop) this.reading reading) :
    Inv Wait Stop kinds { this with reading } where
  agreed    := h.agreed
  sending   := h.sending
  reading   := h.reading.step_inv id (fun _ hm => ⟨hm.1, hm.2.1⟩) hs
  types     := by
    cases hs
    case reset | resetAs => exact h.types
    case turn m hm _     =>
      intro i item hi
      cases this.reading.getElem?_after B' m hi
      case inl hi => exact h.types i item hi
      case inr hi =>
        obtain ⟨rfl, hitem⟩ := hi
        exact hitem.trans hm.2.2.2
  delivered := by
    cases hs
    case reset | resetAs => exact h.delivered
    case turn m hm _     => exact hm.2.2.1

theorem step_inv (h : Inv Wait Stop kinds this) (hs : Step E E' Wait Stop kinds this next) :
    Inv Wait Stop kinds next := by
  cases hs
  case write hm hp    => exact h.write_inv hm hp
  case next hk hc hn  => exact h.next_inv hk hc hn
  case read hs        => exact h.read_inv hs

theorem steps_inv (h : Inv Wait Stop kinds this) (hs : Steps E E' Wait Stop kinds this next) :
    Inv Wait Stop kinds next := by
  induction hs
  case refl       => exact h
  case tail hs hi => exact hi.step_inv hs

theorem fed (h : Inv Wait Stop kinds this) {stream : List (List UInt8)}
    (hf : List.Forall₂ (Message.Fills Wait Stop) this.messages stream)
    (hs : this.sent <+: stream.flatten) : this.reading.Fed Wait Stop this.messages stream where
  holds                := hf.imp fun _ _ => Message.Fills.holds
  types i item msg hi hm := by
    rw [h.types i item hi, h.agreed i msg hm]
    rfl
  delivered            := h.delivered.trans hs

theorem meets (h : Inv Wait Stop kinds this) :
    Meets Wait Stop this.messages this.reading.items := by
  have ⟨_, hf, hs, _⟩ := h.exists_stream
  exact (h.fed hf hs).meets_items h.reading

theorem sends (hi : Inv Wait Stop kinds this) {msg : Message Ctx B B'} {w : List Bool}
    (hk : kinds this.messages.length = msg.kind) (hc : msg.Conveys Wait Stop w) :
    Fifo.Step (Foreseen Wait Stop kinds) this.fifo
      { this.fifo with sent := this.fifo.sent ++ [msg.received] } := by
  refine .send fun item hitem => ?_
  have hitem : this.reading.items[(this.messages.map Message.received).length]? = some item := hitem
  rw [List.length_map] at hitem
  have ht : item.type = msg.type := by
    rw [hi.types _ _ hitem, hk]
    rfl
  have hb : ([] : List Bool) ++ w = w ++ [] := by simp
  exact (hc.2.unique_item ht (hi.meets.foreseen _ _ hitem (le_refl _)) hb).1

theorem receives {reading : Reading Ctx B} (hi : Inv Wait Stop kinds { this with reading })
    {item : Item Ctx B} (hitem : reading.items = this.reading.items ++ [item]) :
    Fifo.Step (Foreseen Wait Stop kinds) this.fifo
      { this.fifo with received := this.fifo.received ++ [item] } := by
  have hget : reading.items[this.reading.items.length]? = some item := by
    rw [hitem, List.getElem?_concat_length]
  cases hn : this.messages[this.reading.items.length]?
  case some msg =>
    refine .receive ?_
    show (this.messages.map Message.received)[this.reading.items.length]? = _
    rw [List.getElem?_map, hn, hi.meets.received _ item msg hget hn]
    rfl
  case none     =>
    have hle := List.getElem?_eq_none_iff.mp hn
    refine .foresee ?_ ⟨hi.types _ _ hget, hi.meets.foreseen _ _ hget hle⟩
    show (this.messages.map Message.received).length ≤ _
    rw [List.length_map]
    exact hle

end Inv

theorem steps_of_read {reading : Reading Ctx B} (hs : Reading.Steps B' (Resumable Wait Stop)
    (this.Receives kinds : Reading Ctx B → ReadMoment Ctx E' → Prop) this.reading reading) :
    Steps E E' Wait Stop kinds this { this with reading } := by
  induction hs
  case refl       => exact .refl
  case tail hs hi => exact hi.tail (.read hs)

theorem steps_of_write {sending : Sending Ctx B'} (hs : Sending.Steps (fun _ _ => False)
    (Sending.Steady : Sending Ctx B' → WriteMoment Ctx E → Prop) this.sending sending) :
    Steps E E' Wait Stop kinds this { this with sending } := by
  induction hs
  case refl       => exact .refl
  case tail hs hi =>
    cases hs
    case turn hm hp           => exact hi.tail (.write hm hp)
    case reset h _ | rebuild h _ => exact h.elim

end Link

section

theorem Link.receives_served (kind : Kind Unit Slice SliceMut) {this : Link Unit Slice SliceMut}
    {bytes : List UInt8} (hb : this.sent = bytes) {reading : Reading Unit Slice}
    {m : ReadMoment Unit Unit} (hm : Served bytes reading m) (hq : reading.Quiet m.ctx)
    (ht : reading.type = kind.type) : this.Receives (fun _ => kind) reading m :=
  ⟨hm.1, hq, hb ▸ hm.2.1, ht⟩

end

end Mincodec
