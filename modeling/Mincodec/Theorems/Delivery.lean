import Mincodec.Theorems.Link
import Mincodec.Theorems.Traced
import Mincodec.Theorems.Truncated

-- The items that are written at one end of a link are returned at the other one.
namespace Mincodec

open Stream BitSource BitSink Reading

variable {Ctx B B' U E E' : Type} {Wait : Prop} {Stop : B → Prop}

section

variable [BitSliceMut B'] {this : Sending Ctx B'} {bits : List Bool}

def Sending.left (bits : List Bool) (this : Sending Ctx B') : Nat :=
  match this.writer.state, this.writer.done with
  | .complete, _    => 0
  | .writing, true  => 1
  | .writing, false => 2 * (bits.length - 8 * this.accepted.length) + 1
  | .serialize, _   => 2 * (bits.length - 8 * this.accepted.length) + 2

omit [BitSliceMut B'] in
theorem Message.Carried.prompt {msg : Message Ctx B B'} {w : MinCodecWrite Ctx B' U} {item : U}
    {xs : List UInt8} (h : msg.Carried ⟨w, item, xs⟩) (hw : msg.write.Prompt) : w.Prompt := by
  obtain ⟨write, read, i⟩ := msg
  cases h
  exact hw

namespace AsyncWriter

variable {w : MinCodecWrite Ctx B' U} {this : AsyncWriter w}

omit [BitSliceMut B'] in
theorem answered_not_panics {re : Nat} {l : UInt8} {write : Poll (Except E Nat)}
    (h : match write with
      | .ready (.ok size) => size ≤ this.cursor
      | .panicked _       => False
      | _                 => True) : ¬(this.answered re l write).1.Panics := by
  match write with
  | .pending | .ready (.error e) => exact id
  | .panicked msg                => exact h.elim
  | .ready (.ok size)            =>
    show ¬(this.wrote re l size).1.Panics
    have h : size ≤ this.cursor := h
    unfold wrote
    simp only [h, if_true]
    split
    case isTrue  => split <;> exact id
    case isFalse => exact id

theorem writing_not_panics (hs : this.state = .writing) {cursor : Nat}
    (hd : this.divide = .ok (0, { this with cursor })) (hl : cursor ≤ this.buffer.length)
    {m : WriteMoment Ctx E} (hv : this.Valid m.write) : ¬(this.turn m.ctx m.write).1.Panics := by
  rw [turn_writing hs hd hl]
  apply answered_not_panics
  unfold Valid at hv
  rw [length_offered hd hl] at hv
  exact hv

theorem Tracks.not_panics [LawfulBitSliceMut B'] {accepted : List UInt8} {bits : List Bool}
    (h : this.Tracks accepted (.done bits)) (hs : this.state ≠ .complete) {m : WriteMoment Ctx E} (hv : this.Valid m.write) :
    ¬(this.turn m.ctx m.write).1.Panics := by
  cases h.phase
  case complete hs' _ _     => exact absurd hs' hs
  case full hs' _ hc _      =>
    exact writing_not_panics hs' (divide_full hc) h.length_eq.ge hv
  case last k hs' hd hk hc _ =>
    refine writing_not_panics hs' (divide_last hd hc) ?_ hv
    rw [h.length_eq]
    omega
  case serialize hs' _ _ hu =>
    have ⟨b, hb, hib, hfb⟩ := h.exists_window hs'
    have ⟨f, hf, he⟩ := hu
    have ⟨u, _, hx⟩ := poll_writes he m.ctx (fresh_of_image h.length_eq hib hfb)
    rw [turn_serialize hs' hb]
    match ho : (this.poll m.ctx b).outcome with
    | .pending | .insufficient | .ready (.ok ()) | .ready (.error x) =>
      simp [serialized, ho, Flow.Panics]
    | .panicked msg =>
      simp only [ho] at hx
      rw [hx] at hf
      cases hf

theorem state_serialized (hs : this.state = .serialize) (hw : w.Prompt) {m : WriteMoment Ctx E}
    (hp : ¬(this.turn m.ctx m.write).1.Panics) : (this.turn m.ctx m.write).2.state = .writing := by
  unfold turn turnSerialize at hp ⊢
  simp only [hs] at hp ⊢
  split at hp
  case h_2      => exact absurd trivial hp
  case h_1 b hb =>
    unfold serialized at hp ⊢
    match ho : (w.pollSerialize m.ctx this.serializer b).outcome with
    | .pending      => exact (hw _ _ _ ho).elim
    | .panicked msg => simp [ho, Flow.Panics] at hp
    | .insufficient | .ready (.ok ()) | .ready (.error e) => rfl

theorem turn_accepted (hs : this.state = .writing) {cursor : Nat}
    (hd : this.divide = .ok (0, { this with cursor })) (hl : cursor ≤ this.buffer.length)
    {m : WriteMoment Ctx E} (hm : m.write = .ready (.ok this.offered.length)) :
    (this.turn m.ctx m.write).2.state = (if this.done then .complete else .serialize) ∧
      (this.accepts m.write).length = cursor := by
  have ho := length_offered hd hl
  constructor
  case left  =>
    rw [turn_writing hs hd hl, hm, ho]
    simp only [answered, wrote, le_refl, Nat.sub_self, if_true]
    split <;> rfl
  case right =>
    simp only [accepts, hs, hm]
    rw [List.take_length, ho]

end AsyncWriter

variable [LawfulBitSliceMut B']

theorem Sending.left_lt (h : this.writer.Tracks this.accepted (.done bits)) {m : WriteMoment Ctx E}
    (hm : this.InFull m) (hw : this.codec.Prompt) (hp : ¬(this.turn m).1.Panics) :
    (this.after m).left bits < this.left bits := by
  have hacc : (this.after m).accepted = this.accepted ++ this.writer.accepts m.write := rfl
  cases hs : this.writer.state
  case complete  => simp [Sending.turn, AsyncWriter.turn, hs, Flow.Panics] at hp
  case serialize =>
    have ha : this.writer.accepts m.write = [] := by simp only [AsyncWriter.accepts, hs]
    have hs' : (this.after m).writer.state = .writing :=
      AsyncWriter.state_serialized hs hw hp
    rw [ha, List.append_nil] at hacc
    cases hd : (this.after m).writer.done <;> simp only [left, hs, hs', hd, hacc] <;> omega
  case writing   =>
    cases h.phase
    case serialize hs' _ _ _ | complete hs' _ _ =>
      rw [hs'] at hs
      cases hs
    case last k _ hd hk hc _ =>
      have hl : (k + 7) / 8 ≤ this.writer.buffer.length := by
        rw [h.length_eq]
        omega
      obtain ⟨hs', _⟩ := AsyncWriter.turn_accepted hs (AsyncWriter.divide_last hd hc) hl hm.1
      have hs' : (this.after m).writer.state = .complete := by
        rw [hd] at hs'
        exact hs'
      simp only [left, hs, hs', hd, Nat.lt_one_iff]
    case full _ hd hc hu     =>
      obtain ⟨hs', hl⟩ := AsyncWriter.turn_accepted hs (AsyncWriter.divide_full hc) h.length_eq.ge hm.1
      have hs' : (this.after m).writer.state = .serialize := by
        rw [hd] at hs'
        exact hs'
      obtain ⟨f, he, _⟩ := hu
      have hb := congrArg (List.length ·.bits) he
      simp only [Emission.done, Emission.prepend, List.length_append, Bits.length_ofBytes,
        h.length_eq] at hb
      have hp : 0 < asyncWriterBufSize := by decide
      simp only [left, hs, hs', hd, hacc, List.length_append, hl]
      omega

end

namespace Reading.Inv

variable [BitSlice B] [LawfulBitSlice B] {this : Reading Ctx B}

theorem after_deserialize [BitSliceMut B'] (hi : Inv False Drained this) (hs : this.reader.state = .deserialize)
    {m : ReadMoment Ctx E} (hp : ¬(this.turn B' m).1.Panics) :
    (this.after B' m).delivered = this.delivered ∧
      ((this.after B' m).reader.state = .reading ∧ (this.after B' m).items = this.items ∨
        (this.after B' m).reader.state = .complete ∧
          (this.after B' m).items.length = this.items.length + 1) := by
  obtain ⟨b, hb, hu, _⟩ := hi.exists_window
  obtain ⟨start, w, u, _, _, _, hund⟩ := hi.polled hs hu m.ctx
  rw [hi.turn_eq hs hb] at hp
  rw [hi.after_eq hs hb]
  match ho : (this.poll m.ctx b).outcome with
  | .panicked msg  => simp [AsyncReader.deserialized, ho, Flow.Panics] at hp
  | .insufficient  =>
    simp only [AsyncReader.deserialized, ho, AsyncReader.returned, List.append_nil]
    exact ⟨trivial, .inl ⟨trivial, trivial⟩⟩
  | .ready item    =>
    simp only [AsyncReader.deserialized, ho, returned_ready, List.length_append,
      List.length_singleton]
    exact ⟨trivial, .inr ⟨trivial, trivial⟩⟩
  | .pending       => exact absurd ho (hi.poll_ne_pending hs m.ctx b)

theorem after_reading (B' : Type) [BitSliceMut B'] [LawfulBitSliceMut B'] (hi : Inv False Drained this)
    (hs : this.reader.state = .reading) {m : ReadMoment Ctx E} (hv : this.Valid m)
    {data : List UInt8} (hd : m.read = .ready (.ok data)) :
    0 < data.length ∧ (this.after B' m).delivered = this.delivered ++ data ∧
      (this.after B' m).reader.state = .deserialize ∧ (this.after B' m).items = this.items := by
  unfold Valid at hv
  simp only [hd] at hv
  have ⟨buffer, hf, _⟩ := hi.fill_eq (E := E) B' hs hv.2
  unfold after
  rw [hi.turn_reading_eq hs m]
  simp only [hd, AsyncReader.answered, AsyncReader.gave, AsyncReader.returned, hs, hf,
    List.append_nil]
  exact ⟨hv.1, trivial, trivial, trivial⟩

end Reading.Inv

namespace Link

variable [BitSlice B] [LawfulBitSlice B] [BitSliceMut B'] [LawfulBitSliceMut B']
variable {kinds : Nat → Kind Ctx B B'} {this next : Link Ctx B B'}

namespace Inv

theorem type_eq (h : Inv Wait Stop kinds this) {msg : Message Ctx B B'}
    (hn : this.messages[this.reading.items.length]? = some msg)
    (ht : this.reading.type = (kinds this.reading.items.length).type) :
    this.reading.type = msg.type := by
  rw [ht, h.agreed _ msg hn]
  rfl

theorem waits (h : Inv Wait Stop kinds this) (hs : this.reading.reader.state = .reading)
    (hlt : this.reading.items.length < this.messages.length)
    (ht : this.reading.type = (kinds this.reading.items.length).type)
    (hd : this.reading.delivered = this.sent) :
    this.reading.items.length + 1 = this.messages.length ∧
      this.sending.writer.state ≠ .complete := by
  have ⟨stream, hf, hsent, hbefore, hall⟩ := h.exists_stream
  have hn := List.getElem?_eq_getElem hlt
  have hl := (h.fed hf hsent).length_lt h.reading hn (h.type_eq hn ht) hs
  rw [hd] at hl
  constructor
  case left  =>
    by_contra hne
    have hle : this.reading.items.length + 1 ≤ this.messages.length - 1 := by omega
    have hpre := List.IsPrefix.flatten (List.take_prefix_take_left (l := stream) hle)
    exact absurd hl (Nat.not_lt.mpr (hpre.trans hbefore).length_le)
  case right =>
    intro hc
    have hpre := List.IsPrefix.flatten (List.take_prefix (this.reading.items.length + 1) stream)
    rw [hall hc] at hl
    exact absurd hl (Nat.not_lt.mpr hpre.length_le)

theorem prompt (h : Inv Wait Stop kinds this) (hw : ∀ n, (kinds n).write.Prompt) :
    this.sending.codec.Prompt := by
  have ⟨earlier, msg, w, hm, _, hmsg, _⟩ := h.sending
  have hk := h.agreed earlier.length msg (by rw [hm, List.getElem?_concat_length])
  have hw := hw earlier.length
  rw [hk] at hw
  exact hmsg.prompt hw

theorem delivered_le (h : Inv Wait Stop kinds this) {bits : List Bool}
    (hc : this.sending.writer.Tracks this.sending.accepted (.done bits)) :
    this.reading.delivered.length ≤
      (this.sending.before.map Sent.bytes).flatten.length + (bits.length + 7) / 8 := by
  have ⟨bytes, (hb : Bits.IsCut bits bytes), ha⟩ := hc.prefix_cut
  have hd := h.delivered.length_le
  have := ha.length_le
  rw [sent_eq, List.length_append] at hd
  rw [hb.length] at this
  omega

end Inv

def left (bits : List Bool) (this : Link Ctx B B') : Nat :=
  this.sending.left bits +
    2 * ((this.sending.before.map Sent.bytes).flatten.length + (bits.length + 7) / 8 -
      this.reading.delivered.length) +
    match this.reading.reader.state with
    | .deserialize => 2
    | .reading     => 1
    | .complete    => 0

namespace Turn

theorem step (h : Turn E E' kinds this next) : Step E E' Wait Stop kinds this next := by
  cases h
  case write hm hp  => exact .write hm.steady hp
  case read hm _ hp => exact .read (.turn hm hp)

theorem left_lt (h : Turn E E' kinds this next) (hi : Inv False Drained kinds this)
    {bits : List Bool} (hc : this.sending.writer.Tracks this.sending.accepted (.done bits))
    (hw : ∀ n, (kinds n).write.Prompt) :
    next.left bits < this.left bits := by
  have hi' := hi.step_inv h.step
  cases h
  case write m hm hp   =>
    exact Nat.add_lt_add_right (Nat.add_lt_add_right (Sending.left_lt hc hm (hi.prompt hw) hp) _) _
  case read m hm hd hp =>
    have hle : (this.reading.after B' m).delivered.length ≤
        (this.sending.before.map Sent.bytes).flatten.length + (bits.length + 7) / 8 :=
      hi'.delivered_le hc
    unfold left
    cases hs : this.reading.reader.state
    case complete    => simp [Reading.turn, AsyncReader.turn, hs, Flow.Panics] at hp
    case deserialize =>
      obtain ⟨hsame, hnext⟩ := hi.reading.after_deserialize hs hp
      cases hnext
      case inl hnext => simp only [hsame, hnext.1]; omega
      case inr hnext => simp only [hsame, hnext.1]; omega
    case reading     =>
      obtain ⟨data, hdata⟩ := hd hs
      obtain ⟨hpos, hmore, hs', _⟩ := hi.reading.after_reading B' hs hm.1 hdata
      rw [hmore, List.length_append] at hle
      simp only [hmore, hs', List.length_append]
      omega

end Turn

theorem Steps.reading {first : Link Ctx B B'} (h : Steps E E' Wait Stop kinds first this) :
    Reading.Steps B' (Resumable Wait Stop) (Valid : Reading Ctx B → ReadMoment Ctx E' → Prop)
      first.reading this.reading := by
  induction h
  case refl         => exact .refl
  case tail hs hi   =>
    cases hs
    case write | next => exact hi
    case read hs      =>
      apply hi.tail
      cases hs
      case turn hm hp      => exact .turn hm.1 hp
      case reset hr        => exact .reset hr
      case resetAs ha hr   => exact .resetAs ha hr

-- The reader is at item `n`, or has returned it and not gone on to the next one.
structure At (kinds : Nat → Kind Ctx B B') (n : Nat) (this : Link Ctx B B') : Prop where
  returned : this.reading.reader.state = .complete → this.reading.items.length = n + 1
  reads    : this.reading.reader.state ≠ .complete →
    this.reading.items.length = n ∧ this.reading.type = (kinds n).type

namespace Turn

variable {bits : List Bool} {n : Nat}

theorem keeps_at (h : Turn E E' kinds this next) (hi : Inv False Drained kinds this)
    (hn : this.At kinds n) : next.At kinds n := by
  cases h
  case write           => exact ⟨hn.returned, hn.reads⟩
  case read m hm hd hp =>
    cases hs : this.reading.reader.state
    case complete    => simp [Reading.turn, AsyncReader.turn, hs, Flow.Panics] at hp
    case deserialize =>
      obtain ⟨hlen, htype⟩ := hn.reads (by simp [hs])
      obtain ⟨_, hnext⟩ := hi.reading.after_deserialize hs hp
      cases hnext
      case inl hnext =>
        exact ⟨fun hs' => by simp [hnext.1] at hs', fun _ => ⟨hnext.2 ▸ hlen, htype⟩⟩
      case inr hnext =>
        exact ⟨fun _ => hlen ▸ hnext.2, fun hs' => absurd hnext.1 hs'⟩
    case reading     =>
      obtain ⟨hlen, htype⟩ := hn.reads (by simp [hs])
      obtain ⟨data, hdata⟩ := hd hs
      obtain ⟨_, _, hs', hitems⟩ := hi.reading.after_reading B' hs hm.1 hdata
      exact ⟨fun h => by simp [hs'] at h, fun _ => ⟨hitems ▸ hlen, htype⟩⟩

theorem messages_eq (h : Turn E E' kinds this next) : next.messages = this.messages := by
  cases h <;> rfl

theorem tracks (h : Turn E E' kinds this next)
    (hc : this.sending.writer.Tracks this.sending.accepted (.done bits)) :
    next.sending.writer.Tracks next.sending.accepted (.done bits) := by
  cases h
  case write hm hp =>
    have hm := hm.steady
    exact hc.turn_tracks hm.1 hm.2.1 hm.2.2 hp
  case read        => exact hc

end Turn

theorem Turns.keeps {bits : List Bool} {n : Nat} (h : Turns E E' kinds n this next)
    (hi : Inv False Drained kinds this)
    (hc : this.sending.writer.Tracks this.sending.accepted (.done bits))
    (hw : ∀ n, (kinds n).write.Prompt) : Steps E E' False Drained kinds this next ∧
      next.messages = this.messages ∧
      next.sending.writer.Tracks next.sending.accepted (.done bits) ∧
      next.left bits + n ≤ this.left bits ∧ ∀ k, this.At kinds k → next.At kinds k := by
  induction h
  case refl             => exact ⟨.refl, rfl, hc, le_refl _, fun _ => id⟩
  case tail hs ht ih =>
    have ⟨hsteps, hm, htracks, hl, hat⟩ := ih hi hc
    have hi' := hi.steps_inv hsteps
    have := ht.left_lt hi' htracks hw
    exact ⟨hsteps.tail ht.step, ht.messages_eq.trans hm, ht.tracks htracks, by omega,
      fun k hk => ht.keeps_at hi' (hat k hk)⟩

end Link

section

end

end Mincodec
