import Mincodec.Run.Reader

-- The invariant of the runs of an `AsyncReader`.
namespace Mincodec

open Stream BitSource

variable {Ctx B B' U E : Type} {Wait : Prop} {Stop : B → Prop}

theorem alignUp_le {n m : Nat} (h : n ≤ 8 * m) : alignUp n ≤ 8 * m := by
  unfold alignUp
  omega

theorem le_alignUp (n : Nat) : n ≤ alignUp n := by
  unfold alignUp
  omega

theorem alignUp_lt (n : Nat) : alignUp n < n + 8 := by
  unfold alignUp
  omega

theorem alignUp_mod (n : Nat) : alignUp n % 8 = 0 := by
  unfold alignUp
  omega

theorem alignUp_eq {n m : Nat} (h : n ≤ m) (hlt : m < n + 8) (hm : m % 8 = 0) : alignUp n = m := by
  unfold alignUp
  omega

namespace AsyncReader

variable {r : MinCodecRead Ctx B U} {this : AsyncReader r}

theorem rest_drop {cursor : Nat} (h : this.cursor ≤ cursor) :
    (Bits.ofBytes (this.buffer.take this.lastByte)).drop cursor =
      this.rest.drop (cursor - this.cursor) := by
  unfold rest
  rw [List.drop_drop, Nat.add_sub_cancel' h]

structure InBuffer (this : AsyncReader r) : Prop where
  length_eq : this.buffer.length = asyncReaderBufSize
  last_le   : this.lastByte ≤ asyncReaderBufSize
  cursor_le : this.cursor ≤ 8 * this.lastByte

theorem new_inBuffer (r : MinCodecRead Ctx B U) : (new r).InBuffer where
  length_eq := List.length_replicate
  last_le   := Nat.zero_le _
  cursor_le := Nat.zero_le _

namespace InBuffer

theorem length_window (h : this.InBuffer) : (this.buffer.take this.lastByte).length = this.lastByte :=
  List.length_take_of_le (h.length_eq ▸ h.last_le)

theorem length_rest (h : this.InBuffer) : this.rest.length = 8 * this.lastByte - this.cursor := by
  unfold rest
  rw [List.length_drop, Bits.length_ofBytes, h.length_window]

theorem offered_eq (h : this.InBuffer) :
    this.offered = some (asyncReaderBufSize - (this.lastByte - this.cursor / 8)) := by
  have := h.cursor_le
  have := h.last_le
  unfold offered
  rw [if_pos (by omega)]

theorem length_copied (h : this.InBuffer) :
    (copyWithin this.buffer (this.cursor / 8) this.lastByte).length = asyncReaderBufSize := by
  have := h.length_eq
  have := h.last_le
  simp only [copyWithin, List.length_append, List.length_drop, List.length_take]
  omega

theorem resetAs (h : this.InBuffer) {S : Type} {s : MinCodecRead Ctx B S} {reader : AsyncReader s}
    (hr : this.resetAs s = some reader) :
    reader.InBuffer ∧ reader.state = .deserialize ∧ reader.deserializer = s.deserialize := by
  unfold AsyncReader.resetAs at hr
  split at hr
  case h_1 =>
    cases hr
    exact ⟨⟨h.length_eq, h.last_le, h.cursor_le⟩, rfl, rfl⟩
  case h_2 => cases hr

variable [BitSlice B] [LawfulBitSlice B]

theorem exists_window (h : this.InBuffer) :
    ∃ b, this.window = some b ∧ unread b = this.rest ∧ taken b = this.cursor :=
  BitSlice.exists_window _ (by rw [h.length_window]; exact h.cursor_le)

omit [LawfulBitSlice B] in
theorem turn_eq (h : this.InBuffer) (hs : this.state = .deserialize) {b : B}
    (hb : this.window = some b) (B' : Type) [BitSliceMut B'] (ctx : Ctx)
    (read : Poll (Except E (List UInt8))) :
    this.turn B' ctx read = this.deserialized (r.pollDeserialize ctx this.deserializer b) := by
  have hl : this.lastByte ≤ this.buffer.length := h.length_eq ▸ h.last_le
  unfold window at hb
  simp only [turn, hs, turnDeserialize, hl, if_true, hb]

end InBuffer

theorem fill_eq (B' : Type) [BitSliceMut B'] [LawfulBitSliceMut B'] (hl : this.buffer.length = asyncReaderBufSize)
    (hlast : this.lastByte ≤ asyncReaderBufSize) (ha : this.cursor % 8 = 0)
    {data : List UInt8} (hd : this.lastByte - this.cursor / 8 + data.length ≤ asyncReaderBufSize) :
    ∃ buffer, (this.fill (E := E) B' data) =
        (.next, { this with
          buffer, cursor := 0, lastByte := this.lastByte - this.cursor / 8 + data.length,
          state := .deserialize }) ∧
      buffer.length = asyncReaderBufSize ∧
      buffer.take (this.lastByte - this.cursor / 8 + data.length) =
        (this.buffer.take this.lastByte).drop (this.cursor / 8) ++ data := by
  let moved := (this.buffer.take this.lastByte).drop (this.cursor / 8)
  let copied := copyWithin this.buffer (this.cursor / 8) this.lastByte
  have hm : moved.length = this.lastByte - this.cursor / 8 := by
    rw [List.length_drop, List.length_take_of_le (hl ▸ hlast)]
  have hcl : copied.length = asyncReaderBufSize := by
    show (moved ++ this.buffer.drop _).length = _
    rw [List.length_append, hm, List.length_drop, hl]
    omega
  have hct : (Bits.ofBytes copied).take (8 * moved.length) = Bits.ofBytes moved := by
    rw [← Bits.ofBytes_take]
    exact congrArg _ List.take_left
  obtain ⟨b, hb, hib, hfb⟩ := BitSliceMut.exists_window (B := B') copied
    (by rw [hm, hcl]; omega : moved.length * 8 ≤ 8 * copied.length)
  have hr : 8 * data.length ≤ room b := by
    rw [room, hib, hfb, Bits.length_ofBytes, hcl, hm]
    omega
  obtain ⟨b', hw, hp⟩ := LawfulBitSliceMut.writeAlignedAll_some (b := b) (by omega) hr
  refine ⟨BitSliceMut.bytes b', ?_, ?_, ?_⟩
  · have hb : BitSliceMut.advance ((this.lastByte - this.cursor / 8) * 8 + this.cursor % 8)
        (BitSliceMut.new (copyWithin this.buffer (this.cursor / 8) this.lastByte) : B') = some b := by
      rw [ha, ← hm]
      exact hb
    have hdl : data.length ≤ asyncReaderBufSize := by omega
    unfold fill
    simp only [hl, hlast, if_true, hb, hdl, hw]
    rw [ha]
  · rw [BitSliceMut.length_bytes hib hp, hcl]
  · apply Bits.ofBytes_injective
    have ht := take_overwrite (w := Bits.ofBytes data)
      (by rw [Bits.length_ofBytes, hcl, hm]; omega : 8 * moved.length ≤ (Bits.ofBytes copied).length)
    rw [hct, Bits.length_ofBytes] at ht
    rw [Bits.ofBytes_take, BitSliceMut.ofBytes_bytes hib hp, hfb, ← hm, Nat.mul_add,
      Nat.mul_comm moved.length, ht, Bits.ofBytes_append]

end AsyncReader

namespace Reading

-- The items have been decoded from these bits, with the bits that are skipped after each.
inductive Chain [BitSource B] (Wait : Prop) (Stop : B → Prop) :
    List (Item Ctx B) → List Bool → Prop
  | nil : Chain Wait Stop [] []
  | snoc {items : List (Item Ctx B)} {item : Item Ctx B} {start u skip : List Bool} :
    Chain Wait Stop items start → Resumable Wait Stop item.codec →
    (∀ p, Decodes Wait Stop item.codec.pollDeserialize item.codec.deserialize p →
      p.Halts u (.finished item.result)) →
    skip.length < 8 → (start ++ (u ++ skip)).length % 8 = 0 →
    Chain Wait Stop (items ++ [item]) (start ++ (u ++ skip))

-- The deserializer has taken the bits `w` of an item, whichever parser says what it does. One that
-- waits for bytes has not been given enough of them.
def Underway [BitSource B] (Wait : Prop) (Stop : B → Prop) (this : Reading Ctx B) (w : List Bool) :
    Prop :=
  ∀ p, Decodes Wait Stop this.codec.pollDeserialize this.codec.deserialize p →
    Decodes Wait Stop this.codec.pollDeserialize this.reader.deserializer (p.after w) ∧
    (this.reader.state = .reading → p (w ++ this.reader.rest) = .more)

variable [BitSlice B] [LawfulBitSlice B]

theorem poll_follows {this : Reading Ctx B} {q : Parser this.codec.Error this.U}
    (h : Decodes Wait Stop this.codec.pollDeserialize this.reader.deserializer q) (ctx : Ctx) (b : B) :
    Follows Wait Stop (Decodes Wait Stop this.codec.pollDeserialize) Returns q b (this.poll ctx b) :=
  h.follows ctx b

-- The window lies in the buffer and holds the bits that have been delivered and not been taken.
structure Inv (Wait : Prop) (Stop : B → Prop) (this : Reading Ctx B) : Prop where
  length_eq : this.reader.buffer.length = asyncReaderBufSize
  last_le   : this.reader.lastByte ≤ asyncReaderBufSize
  cursor_le : this.reader.cursor ≤ 8 * this.reader.lastByte
  aligned   : this.reader.state ≠ .deserialize → this.reader.cursor % 8 = 0
  bits_eq   : Bits.ofBytes this.delivered = this.taken ++ this.reader.rest
  resumable : Resumable Wait Stop this.codec
  underway  : ∃ start w, this.taken = start ++ w ∧ Chain Wait Stop this.items start ∧
    match this.reader.state with
    | .complete => w = []
    | _         => this.Underway Wait Stop w

theorem new_inv {r : MinCodecRead Ctx B U} {p : Parser r.Error U}
    (h : Decodes Wait Stop r.pollDeserialize r.deserialize p) : Inv Wait Stop (new r) where
  length_eq   := List.length_replicate
  last_le     := Nat.zero_le _
  cursor_le   := Nat.zero_le _
  aligned     := fun h => absurd rfl h
  bits_eq     := rfl
  resumable   := ⟨p, h⟩
  underway    := ⟨[], [], rfl, .nil, fun _ h => ⟨h, nofun⟩⟩

namespace Inv

variable {this : Reading Ctx B}

theorem inBuffer (hi : Inv Wait Stop this) : this.reader.InBuffer :=
  ⟨hi.length_eq, hi.last_le, hi.cursor_le⟩

theorem length_rest (hi : Inv Wait Stop this) :
    this.reader.rest.length = 8 * this.reader.lastByte - this.reader.cursor :=
  hi.inBuffer.length_rest

theorem exists_window (hi : Inv Wait Stop this) : ∃ b, this.reader.window = some b ∧
    unread b = this.reader.rest ∧ BitSource.taken b = this.reader.cursor :=
  hi.inBuffer.exists_window

theorem turn_eq [BitSliceMut B'] (hi : Inv Wait Stop this) (hs : this.reader.state = .deserialize)
    {b : B} (hb : this.reader.window = some b) (m : ReadMoment Ctx E) :
    this.turn B' m = this.reader.deserialized (this.poll m.ctx b) :=
  hi.inBuffer.turn_eq hs hb B' m.ctx m.read

theorem after_eq [BitSliceMut B'] (hi : Inv Wait Stop this) (hs : this.reader.state = .deserialize)
    {b : B} (hb : this.reader.window = some b) (m : ReadMoment Ctx E) :
    this.after B' m =
      { reader    := (this.reader.deserialized (E := E) (this.poll m.ctx b)).2
        delivered := this.delivered
        taken     := this.taken ++ AsyncReader.tookBy b (this.poll m.ctx b)
        items     := this.items ++
          AsyncReader.returned (this.reader.deserialized (E := E) (this.poll m.ctx b)).1 } := by
  have hg : this.reader.gave m.read = [] := by simp only [AsyncReader.gave, hs]
  have ht : this.reader.took m.ctx = AsyncReader.tookBy b (this.poll m.ctx b) := by
    simp only [AsyncReader.took, hs, hb]
    rfl
  unfold after
  rw [hi.turn_eq hs hb, hg, ht, List.append_nil]

theorem bits_eq_of_le (hi : Inv Wait Stop this) {cursor : Nat} (h : this.reader.cursor ≤ cursor) :
    Bits.ofBytes this.delivered =
      (this.taken ++ this.reader.rest.take (cursor - this.reader.cursor)) ++
        (Bits.ofBytes (this.reader.buffer.take this.reader.lastByte)).drop cursor := by
  rw [AsyncReader.rest_drop h, List.append_assoc, List.take_append_drop]
  exact hi.bits_eq

theorem length_taken_mod (hi : Inv Wait Stop this) :
    this.taken.length % 8 = this.reader.cursor % 8 := by
  have h := congrArg List.length hi.bits_eq
  have hc := hi.cursor_le
  rw [List.length_append, hi.length_rest, Bits.length_ofBytes] at h
  omega

theorem polled (hi : Inv Wait Stop this) (hs : this.reader.state = .deserialize) {b : B}
    (hu : unread b = this.reader.rest) (ctx : Ctx) :
    ∃ start w u, this.taken = start ++ w ∧ Chain Wait Stop this.items start ∧
      Consumes b u (this.poll ctx b).buf ∧
      ∀ p, Decodes Wait Stop this.codec.pollDeserialize this.codec.deserialize p →
        match (this.poll ctx b).outcome with
        | .pending      =>
          Decodes Wait Stop this.codec.pollDeserialize (this.poll ctx b).state (p.after (w ++ u))
        | .insufficient => p (w ++ this.reader.rest) = .more ∧
          Decodes Wait Stop this.codec.pollDeserialize (this.poll ctx b).state (p.after (w ++ u))
        | .ready item   => p.Halts (w ++ u) (.finished item)
        | .panicked msg => p.Halts (w ++ u) (.panicked msg) := by
  have ⟨start, w, hw, hc, hund⟩ := hi.underway
  have ⟨p₀, hp₀⟩ := hi.resumable
  simp only [hs] at hund
  have ⟨u, hcons, _⟩ := this.poll_follows (hund p₀ hp₀).1 ctx b
  refine ⟨start, w, u, hw, hc, hcons, fun p hp => ?_⟩
  have ⟨u', hcons', hf⟩ := this.poll_follows (hund p hp).1 ctx b
  obtain rfl : u' = u := hcons'.eq_take.trans hcons.eq_take.symm
  match ho : (this.poll ctx b).outcome with
  | .pending =>
    simp only [ho] at hf
    simpa using hf.2
  | .insufficient =>
    simp only [ho] at hf
    exact ⟨hu ▸ hf.2.1, by simpa using hf.2.2⟩
  | .panicked msg =>
    simp only [ho] at hf
    exact Parser.Halts.after.mp hf
  | .ready (.error e) =>
    simp only [ho] at hf
    exact Parser.Halts.after.mp hf
  | .ready (.ok v) =>
    simp only [ho] at hf
    obtain ⟨_, rfl, hf⟩ := hf
    exact Parser.Halts.after.mp hf

section

variable {b : B} {u : List Bool} {m : ReadMoment Ctx E}

theorem window_eq (hi : Inv Wait Stop this) (hb : this.reader.window = some b) :
    unread b = this.reader.rest ∧ BitSource.taken b = this.reader.cursor := by
  have ⟨b', hb', h⟩ := hi.exists_window
  obtain rfl := Option.some.inj (hb.symm.trans hb')
  exact h

theorem taken_polled (hi : Inv Wait Stop this) (hb : this.reader.window = some b)
    (hc : Consumes b u (this.poll m.ctx b).buf) :
    BitSource.taken (this.poll m.ctx b).buf = this.reader.cursor + u.length :=
  (hi.window_eq hb).2 ▸ hc.taken_eq

theorem len_polled (hi : Inv Wait Stop this) (hb : this.reader.window = some b)
    (hc : Consumes b u (this.poll m.ctx b).buf) :
    BitSlice.len (this.poll m.ctx b).buf = this.reader.cursor + u.length :=
  (LawfulBitSlice.len_eq_taken _).trans (hi.taken_polled hb hc)

theorem rest_polled (hi : Inv Wait Stop this) (hb : this.reader.window = some b)
    (hc : Consumes b u (this.poll m.ctx b).buf) :
    this.reader.rest = u ++ unread (this.poll m.ctx b).buf :=
  (hi.window_eq hb).1 ▸ hc.unread_eq

theorem cursor_polled_le (hi : Inv Wait Stop this) (hb : this.reader.window = some b)
    (hc : Consumes b u (this.poll m.ctx b).buf) :
    this.reader.cursor + u.length ≤ 8 * this.reader.lastByte := by
  have := hi.cursor_le
  have := hc.length_le
  rw [(hi.window_eq hb).1, hi.length_rest] at this
  omega

theorem pending_inv [BitSliceMut B'] (hi : Inv Wait Stop this) (hs : this.reader.state = .deserialize)
    (hb : this.reader.window = some b) (hq : this.Quiet m.ctx)
    (ho : (this.poll m.ctx b).outcome = .pending) : Inv Wait Stop (this.after B' m) := by
  have ⟨start, w, u, hw, hc, hcons, hund⟩ := hi.polled hs (hi.window_eq hb).1 m.ctx
  have ht := (hi.window_eq hb).2
  have hn := hi.taken_polled hb hcons
  simp only [ho] at hund
  obtain rfl : u = [] := by
    have := (hq b hs hb).1 ho
    exact List.eq_nil_of_length_eq_zero (by omega)
  rw [hi.after_eq hs hb]
  simp only [AsyncReader.deserialized, AsyncReader.tookBy, AsyncReader.returned, ho, hn, ht,
    List.length_nil, Nat.add_zero, Nat.sub_self, List.take_zero, List.append_nil]
  exact
    { length_eq := hi.length_eq
      last_le   := hi.last_le
      cursor_le := hi.cursor_le
      aligned   := fun h => absurd hs h
      bits_eq   := hi.bits_eq
      resumable := hi.resumable
      underway  := by
        refine ⟨start, w, hw, hc, ?_⟩
        simp only [hs]
        exact fun p hp => ⟨by simpa using hund p hp, nofun⟩ }

theorem starved_inv [BitSliceMut B'] (hi : Inv Wait Stop this) (hs : this.reader.state = .deserialize)
    (hb : this.reader.window = some b) (hq : this.Quiet m.ctx)
    (ho : (this.poll m.ctx b).outcome = .insufficient) : Inv Wait Stop (this.after B' m) := by
  have ⟨hu, ht⟩ := hi.window_eq hb
  have ⟨start, w, u, hw, hc, hcons, hund⟩ := hi.polled hs hu m.ctx
  have hn := hi.taken_polled hb hcons
  have hur := hi.rest_polled hb hcons
  simp only [ho] at hund
  have htook : AsyncReader.tookBy b (this.poll m.ctx b) = u := by
    simp only [AsyncReader.tookBy, ho, hn, ht, hu, hur, Nat.add_sub_cancel_left, List.take_left]
  rw [hi.after_eq hs hb]
  simp only [AsyncReader.deserialized, AsyncReader.returned, ho, hi.len_polled hb hcons, htook,
    List.append_nil]
  exact
    { length_eq := hi.length_eq
      last_le   := hi.last_le
      cursor_le := hi.cursor_polled_le hb hcons
      aligned   := fun _ => hn ▸ (hq b hs hb).2 ho
      bits_eq   := by
        have := hi.bits_eq_of_le (Nat.le_add_right _ u.length)
        rwa [Nat.add_sub_cancel_left, hur, List.take_left] at this
      resumable := hi.resumable
      underway  := by
        refine ⟨start, w ++ u, by simp [hw], hc, fun p hp => ⟨(hund p hp).2, fun _ => ?_⟩⟩
        have hd := AsyncReader.rest_drop (Nat.le_add_right this.reader.cursor u.length)
        have hm := (hund p hp).1
        rw [Nat.add_sub_cancel_left, hur, List.drop_left] at hd
        rw [hur] at hm
        unfold AsyncReader.rest
        rw [hd, List.append_assoc]
        exact hm }

theorem exists_skip (hi : Inv Wait Stop this) (hb : this.reader.window = some b)
    (hc : Consumes b u (this.poll m.ctx b).buf) :
    ∃ skip, this.reader.rest.take
        (alignUp (this.reader.cursor + u.length) - this.reader.cursor) = u ++ skip ∧
      skip.length + u.length = alignUp (this.reader.cursor + u.length) - this.reader.cursor := by
  have hle := le_alignUp (this.reader.cursor + u.length)
  have hal := alignUp_le (hi.cursor_polled_le hb hc)
  have hrl := hi.length_rest
  have hur := hi.rest_polled hb hc
  refine ⟨_, by rw [hur, List.take_append, List.take_of_length_le (by omega)], ?_⟩
  rw [hur, List.length_append] at hrl
  rw [List.length_take]
  omega

omit [BitSlice B] [LawfulBitSlice B] in
theorem returned_ready {r : MinCodecRead Ctx B U} (item : Except r.Error U) :
    AsyncReader.returned (.ret (.ready (item.mapError .deserialize)) :
      Flow (Except (AsyncReaderError E r.Error) U)) = [⟨r, item⟩] := by
  cases item
  case error => rfl
  case ok    => rfl

theorem ready_inv [BitSliceMut B'] (hi : Inv Wait Stop this) (hs : this.reader.state = .deserialize)
    (hb : this.reader.window = some b) {item : Except this.codec.Error this.U}
    (ho : (this.poll m.ctx b).outcome = .ready item) : Inv Wait Stop (this.after B' m) := by
  have ⟨hu, ht⟩ := hi.window_eq hb
  have ⟨start, w, u, hw, hc, hcons, hund⟩ := hi.polled hs hu m.ctx
  have hle := le_alignUp (this.reader.cursor + u.length)
  have hlt := alignUp_lt (this.reader.cursor + u.length)
  have hmod := alignUp_mod (this.reader.cursor + u.length)
  obtain ⟨skip, hskip, hsl⟩ := hi.exists_skip hb hcons
  simp only [ho] at hund
  have htook : AsyncReader.tookBy b (this.poll m.ctx b) = u ++ skip := by
    simp only [AsyncReader.tookBy, ho, hi.taken_polled hb hcons, ht, hu, hskip]
  have hbits := hi.bits_eq_of_le (Nat.le_of_add_right_le hle)
  rw [hskip] at hbits
  have htaken : this.taken ++ (u ++ skip) = start ++ (w ++ u ++ skip) := by simp [hw]
  rw [hi.after_eq hs hb]
  simp only [AsyncReader.deserialized, ho, hi.len_polled hb hcons, htook, returned_ready]
  exact
    { length_eq := hi.length_eq
      last_le   := hi.last_le
      cursor_le := alignUp_le (hi.cursor_polled_le hb hcons)
      aligned   := fun _ => hmod
      bits_eq   := hbits
      resumable := hi.resumable
      underway  := by
        refine ⟨start ++ (w ++ u ++ skip), [], by simp [htaken],
          .snoc hc hi.resumable hund (by omega) ?_, rfl⟩
        have := hi.length_taken_mod
        rw [← htaken]
        simp only [List.length_append]
        omega }

theorem deserialize_inv [BitSliceMut B'] (hi : Inv Wait Stop this)
    (hs : this.reader.state = .deserialize) (m : ReadMoment Ctx E) (hq : this.Quiet m.ctx)
    (hp : ¬(this.turn B' m).1.Panics) : Inv Wait Stop (this.after B' m) := by
  have ⟨b, hb, _⟩ := hi.exists_window
  rw [hi.turn_eq hs hb] at hp
  cases ho : (this.poll m.ctx b).outcome
  case pending      => exact hi.pending_inv hs hb hq ho
  case insufficient => exact hi.starved_inv hs hb hq ho
  case ready item   => exact hi.ready_inv hs hb ho
  case panicked msg => simp [AsyncReader.deserialized, ho, Flow.Panics] at hp

end

theorem offered_eq (hi : Inv Wait Stop this) : this.reader.offered =
    some (asyncReaderBufSize - (this.reader.lastByte - this.reader.cursor / 8)) :=
  hi.inBuffer.offered_eq

theorem turn_reading_eq [BitSliceMut B'] (hi : Inv Wait Stop this) (hs : this.reader.state = .reading)
    (m : ReadMoment Ctx E) : this.turn B' m = this.reader.answered B' m.read := by
  simp only [turn, AsyncReader.turn, hs, AsyncReader.turnReading, hi.offered_eq]

theorem fill_eq (B' : Type) [BitSliceMut B'] [LawfulBitSliceMut B'] (hi : Inv Wait Stop this)
    (hs : this.reader.state = .reading) {data : List UInt8}
    (hd : ∀ n, this.reader.offered = some n → data.length ≤ n) :
    ∃ buffer, this.reader.fill (E := E) B' data =
        (.next, { this.reader with
          buffer, cursor := 0,
          lastByte := this.reader.lastByte - this.reader.cursor / 8 + data.length,
          state := .deserialize }) ∧
      buffer.length = asyncReaderBufSize ∧
      Bits.ofBytes (buffer.take
        (this.reader.lastByte - this.reader.cursor / 8 + data.length)) =
          this.reader.rest ++ Bits.ofBytes data ∧
      this.reader.lastByte - this.reader.cursor / 8 + data.length ≤ asyncReaderBufSize := by
  have hd := hd _ hi.offered_eq
  have hlast := hi.last_le
  have hcl := hi.cursor_le
  have ha := hi.aligned (by simp [hs])
  have hle : this.reader.lastByte - this.reader.cursor / 8 + data.length ≤ asyncReaderBufSize := by
    omega
  have ⟨buffer, hf, hl, hb⟩ := AsyncReader.fill_eq (E := E) B' hi.length_eq hlast ha hle
  refine ⟨buffer, hf, hl, ?_, hle⟩
  rw [hb, Bits.ofBytes_append, Bits.ofBytes_drop]
  unfold AsyncReader.rest
  congr 2
  omega

theorem reading_inv [BitSliceMut B'] [LawfulBitSliceMut B'] (hi : Inv Wait Stop this)
    (hs : this.reader.state = .reading) (m : ReadMoment Ctx E) (hv : this.Valid m) :
    Inv Wait Stop (this.after B' m) := by
  have ht : this.reader.took m.ctx = [] := by simp only [AsyncReader.took, hs]
  unfold after
  unfold Valid at hv
  rw [hi.turn_reading_eq hs m, ht, List.append_nil]
  match hm : m.read with
  | .panicked msg    => simp only [hm] at hv
  | .pending | .ready (.error e) =>
    simpa only [AsyncReader.answered, AsyncReader.gave, AsyncReader.returned, hs, List.append_nil]
      using hi
  | .ready (.ok data) =>
    simp only [hm] at hv
    have ⟨buffer, hf, hl, hb, hle⟩ := hi.fill_eq (E := E) B' hs hv.2
    have ⟨start, w, hw, hc, hund⟩ := hi.underway
    simp only [hs] at hund
    simp only [AsyncReader.answered, AsyncReader.gave, AsyncReader.returned, hs, hf, List.append_nil]
    exact
      { length_eq := hl
        last_le   := hle
        cursor_le := Nat.zero_le _
        aligned   := fun h => absurd rfl h
        bits_eq   := by
          have hrest := congrArg (this.taken ++ ·) hb
          simp only [← List.append_assoc, ← hi.bits_eq, ← Bits.ofBytes_append] at hrest
          exact hrest.symm
        resumable := hi.resumable
        underway  := ⟨start, w, hw, hc, fun p hp => ⟨(hund p hp).1, nofun⟩⟩ }

theorem turn_inv [BitSliceMut B'] [LawfulBitSliceMut B'] (hi : Inv Wait Stop this)
    {m : ReadMoment Ctx E} (hv : this.Valid m) (hq : this.Quiet m.ctx)
    (hp : ¬(this.turn B' m).1.Panics) : Inv Wait Stop (this.after B' m) := by
  match hs : this.reader.state with
  | .deserialize => exact hi.deserialize_inv hs m hq hp
  | .reading     => exact hi.reading_inv hs m hv
  | .complete    => simp [turn, AsyncReader.turn, hs, Flow.Panics] at hp

theorem next_inv (hi : Inv Wait Stop this) (hs : this.reader.state = .complete) {S : Type}
    {s : MinCodecRead Ctx B S} (hr : Resumable Wait Stop s) :
    Inv Wait Stop
      { reader    :=
          { buffer       := this.reader.buffer
            cursor       := this.reader.cursor
            lastByte     := this.reader.lastByte
            deserializer := s.deserialize
            state        := .deserialize }
        delivered := this.delivered
        taken     := this.taken
        items     := this.items } where
  length_eq := hi.length_eq
  last_le   := hi.last_le
  cursor_le := hi.cursor_le
  aligned   := fun h => absurd rfl h
  bits_eq   := hi.bits_eq
  resumable := hr
  underway  := by
    have ⟨start, w, hw, hc, hund⟩ := hi.underway
    simp only [hs] at hund
    exact ⟨start, w, hw, hc, fun p hp => ⟨hund ▸ hp, nofun⟩⟩

variable [BitSliceMut B'] [LawfulBitSliceMut B']
variable {Allowed : {U : Type} → MinCodecRead Ctx B U → Prop}
variable {Ok : Reading Ctx B → ReadMoment Ctx E → Prop} {next : Reading Ctx B}

theorem step_inv (hi : Inv Wait Stop this) (hr : ∀ {U} {r : MinCodecRead Ctx B U}, Allowed r →
    Resumable Wait Stop r) (ho : ∀ {this m}, Inv Wait Stop this → Ok this m →
    this.Valid m ∧ this.Quiet m.ctx) (h : Step B' Allowed Ok this next) : Inv Wait Stop next := by
  cases h
  case turn m hm hp =>
    have ⟨hv, hq⟩ := ho hi hm
    exact hi.turn_inv hv hq hp
  case reset reader h =>
    unfold AsyncReader.reset at h
    split at h
    case h_1 hs =>
      cases h
      exact hi.next_inv hs hi.resumable
    case h_2 => cases h
  case resetAs S s reader ha h =>
    unfold AsyncReader.resetAs at h
    split at h
    case h_1 hs =>
      cases h
      exact hi.next_inv hs (hr ha)
    case h_2 => cases h

theorem steps_inv (hi : Inv Wait Stop this) (hr : ∀ {U} {r : MinCodecRead Ctx B U}, Allowed r →
    Resumable Wait Stop r) (ho : ∀ {this m}, Inv Wait Stop this → Ok this m →
    this.Valid m ∧ this.Quiet m.ctx) (h : Steps B' Allowed Ok this next) : Inv Wait Stop next := by
  induction h
  case refl           => exact hi
  case tail hs hi     => exact hi.step_inv hr ho hs

-- Nothing in an iteration can fail but the deserializer.
theorem turn_ne_panicked (hi : Inv Wait Stop this) (hs : this.reader.state ≠ .complete)
    {m : ReadMoment Ctx E} (hv : this.Valid m) (msg : String) :
    (this.turn B' m).1 ≠ .ret (.panicked msg) := by
  match hs' : this.reader.state with
  | .complete    => exact absurd hs' hs
  | .deserialize =>
    have ⟨b, hb, _⟩ := hi.exists_window
    rw [hi.turn_eq hs' hb]
    unfold AsyncReader.deserialized
    split <;> nofun
  | .reading     =>
    unfold Valid at hv
    rw [hi.turn_reading_eq hs' m]
    match hm : m.read with
    | .pending | .ready (.error e) | .panicked m => nofun
    | .ready (.ok data) =>
      simp only [hm] at hv
      have ⟨buffer, hf, _⟩ := hi.fill_eq (E := E) B' hs' hv.2
      simp only [AsyncReader.answered, hf]
      nofun

theorem halts_of_unwound (hi : Inv Wait Stop this) {m : ReadMoment Ctx E} (hv : this.Valid m)
    {msg : String} (h : (this.turn B' m).1 = .unwound msg) : ∃ start u rest,
      Bits.ofBytes this.delivered = start ++ (u ++ rest) ∧ Chain Wait Stop this.items start ∧
      ∀ p, Decodes Wait Stop this.codec.pollDeserialize this.codec.deserialize p →
        p.Halts u (.panicked msg) := by
  match hs : this.reader.state with
  | .complete    => simp [turn, AsyncReader.turn, hs] at h
  | .reading     =>
    unfold Valid at hv
    rw [hi.turn_reading_eq hs m] at h
    match hm : m.read with
    | .panicked m                  => simp only [hm] at hv
    | .pending | .ready (.error e) => simp [AsyncReader.answered, hm] at h
    | .ready (.ok data)            =>
      simp only [hm] at hv
      have ⟨buffer, hf, _⟩ := hi.fill_eq (E := E) B' hs hv.2
      simp [AsyncReader.answered, hm, hf] at h
  | .deserialize =>
    have ⟨b, hb, hu, _⟩ := hi.exists_window
    have ⟨start, w, u, hw, hc, hcons, hund⟩ := hi.polled hs hu m.ctx
    rw [hi.turn_eq hs hb] at h
    unfold AsyncReader.deserialized at h
    split at h
    case h_4 msg' ho =>
      cases h
      simp only [ho] at hund
      refine ⟨start, w ++ u, unread (this.poll m.ctx b).buf, ?_, hc, hund⟩
      rw [hi.bits_eq, hw, ← hu, hcons.unread_eq]
      simp
    all_goals cases h

end Inv

end Reading

end Mincodec
