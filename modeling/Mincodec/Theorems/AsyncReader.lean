import Mincodec.Theorems.ReaderInv
import Mincodec.Await
import Mincodec.Primitive
import Mincodec.Slice

-- What an `AsyncReader` returns, and what becomes of the bytes it is given.
namespace Mincodec

open Stream BitSource Reading

variable {Ctx B B' U E : Type} {Wait : Prop} {Stop : B → Prop}
variable [BitSlice B] [LawfulBitSlice B]

theorem Reading.exists_start {stream : List UInt8} {start rest : List Bool}
    (h : Bits.ofBytes stream = start ++ rest) :
    ∃ b : B, BitSlice.advance start.length (BitSlice.new stream) = some b ∧ unread b = rest ∧
      BitSource.taken b = start.length := by
  have hl := congrArg List.length h
  rw [List.length_append, Bits.length_ofBytes] at hl
  have ⟨b, hb, hu, ht⟩ := BitSlice.exists_window (B := B) stream
    (by omega : start.length ≤ 8 * stream.length)
  rw [h, List.drop_left] at hu
  exact ⟨b, hb, hu, ht⟩

theorem Reading.Chain.decoded {P : Item Ctx B → B → Nat → Prop}
    (hP : ∀ {item : Item Ctx B} {p u} {b : B},
      Decodes Wait Stop item.codec.pollDeserialize item.codec.deserialize p →
      p.Halts u (.finished item.result) → u <+: unread b → P item b (BitSource.taken b + u.length))
    {items : List (Item Ctx B)} {start : List Bool} (h : Chain Wait Stop items start)
    {stream : List UInt8} {rest : List Bool} (hs : Bits.ofBytes stream = start ++ rest) :
    Decoded P stream items start.length := by
  induction h generalizing rest
  case nil => exact .nil
  case snoc items item start u skip hc hr hh hlt hmod hi =>
    have ⟨p, hd⟩ := hr
    have hs : Bits.ofBytes stream = start ++ (u ++ (skip ++ rest)) := by simpa using hs
    have ⟨b, hb, hu, ht⟩ := exists_start (B := B) hs
    have hal : alignUp (BitSource.taken b + u.length) = (start ++ (u ++ skip)).length := by
      rw [ht]
      apply alignUp_eq _ _ hmod <;> simp only [List.length_append] <;> omega
    rw [← hal]
    exact .snoc (hi hs) hb (hP hd (hh p hd) (hu ▸ List.prefix_append ..))

theorem Item.oneShot {item : Item Ctx B} {p : Parser item.codec.Error item.U} {u : List Bool} {b : B}
    (hd : Decodes False Stop item.codec.pollDeserialize item.codec.deserialize p)
    (hh : p.Halts u (.finished item.result)) (hu : u <+: unread b) :
    item.OneShot b (BitSource.taken b + u.length) := by
  intro ctx
  have ⟨ho, hc⟩ := hd.ends ctx hh hu
  exact ⟨ho, (LawfulBitSlice.len_eq_taken _).trans hc.taken_eq⟩

theorem Item.repeated {item : Item Ctx B} {p : Parser item.codec.Error item.U} {u : List Bool} {b : B}
    (hd : Decodes Wait Stop item.codec.pollDeserialize item.codec.deserialize p)
    (hh : p.Halts u (.finished item.result)) (hu : u <+: unread b) :
    item.Repeated b (BitSource.taken b + u.length) := by
  intro cs hp
  have ⟨ho, hc⟩ := (hd.pollAgain cs b).ends hh hu hp
  exact ⟨ho, (LawfulBitSlice.len_eq_taken _).trans hc.taken_eq⟩

theorem Reading.Inv.starves {this : Reading Ctx B} (hi : Inv Wait Drained this) {ctx : Ctx} {b : B}
    (hs : this.reader.state = .deserialize) (hb : this.reader.window = some b)
    (ho : (this.poll ctx b).outcome = .insufficient) :
    BitSource.taken (this.poll ctx b).buf % 8 = 0 := by
  have ⟨hu, ht⟩ := hi.window_eq hb
  have ⟨start, w, _, _, hund⟩ := hi.underway
  simp only [hs] at hund
  have ⟨p, hp⟩ := hi.resumable
  have ⟨u, hc, hf⟩ := this.poll_follows (hund p hp).1 ctx b
  simp only [ho] at hf
  have hd : unread (this.poll ctx b).buf = [] := hf.1
  have hl := hi.length_rest
  have hcl := hi.cursor_le
  rw [← hu, hc.unread_eq, hd, List.append_nil] at hl
  rw [hc.taken_eq, ht, hl]
  omega

theorem Reading.Inv.poll_ne_pending {this : Reading Ctx B} (hi : Inv False Stop this)
    (hs : this.reader.state = .deserialize) (ctx : Ctx) (b : B) :
    (this.poll ctx b).outcome ≠ .pending := by
  have ⟨start, w, _, _, hund⟩ := hi.underway
  simp only [hs] at hund
  have ⟨p, hp⟩ := hi.resumable
  exact (this.poll_follows (hund p hp).1 ctx b).ne_pending

theorem Reading.Inv.quiet {this : Reading Ctx B} (hi : Inv False Drained this) (ctx : Ctx) :
    this.Quiet ctx :=
  fun b hs hb => ⟨fun ho => absurd ho (hi.poll_ne_pending hs ctx b), hi.starves hs hb⟩

theorem Reading.Inv.quiet_of_quiet {this : Reading Ctx B} (hi : Inv Wait Drained this)
    {T : ReadType Ctx B} (ht : this.type = T) (hq : T.2.Quiet) (ctx : Ctx) : this.Quiet ctx := by
  cases ht
  exact fun _ hs hb => ⟨fun ho => congrArg BitSource.taken (hq _ _ _ ho), hi.starves hs hb⟩

theorem Reading.Inv.exists_chain {this : Reading Ctx B} (hi : Inv Wait Stop this)
    (more : List UInt8) : ∃ start rest, Chain Wait Stop this.items start ∧
      Bits.ofBytes (this.delivered ++ more) = start ++ rest := by
  have ⟨start, w, hw, hc, _⟩ := hi.underway
  refine ⟨start, w ++ this.reader.rest ++ Bits.ofBytes more, hc, ?_⟩
  rw [Bits.ofBytes_append, hi.bits_eq, hw]
  simp

section

variable [BitSliceMut B'] [LawfulBitSliceMut B']

-- Whatever the transport does, the items are those that are decoded in one poll each from the
-- contiguous stream, the bits that have been delivered are those that have been taken and those that
-- are in the window, and nothing but the deserializer can panic, which it then does on the
-- contiguous stream as well.
theorem asyncReader_decoded {r : MinCodecRead Ctx B U} (hr : Resumable False Drained r)
    {this : Reading Ctx B} (h : Steps B' (Resumable False Drained)
      (Valid : Reading Ctx B → ReadMoment Ctx E → Prop) (.new r) this) :
    (∀ more, ∃ o, Decoded Item.OneShot (this.delivered ++ more) this.items o) ∧
    Bits.ofBytes this.delivered = this.taken ++ this.reader.rest ∧
    ∀ m : ReadMoment Ctx E, this.Valid m → this.reader.state ≠ .complete → ∀ msg,
      (this.turn B' m).1 ≠ .ret (.panicked msg) ∧
      ((this.turn B' m).1 = .unwound msg → ∀ more, ∃ o b,
        Decoded Item.OneShot (this.delivered ++ more) this.items o ∧
        BitSlice.advance o (BitSlice.new (this.delivered ++ more)) = some b ∧
        ∀ ctx, (this.codec.pollDeserialize ctx this.codec.deserialize b).outcome =
          .panicked msg) := by
  have ⟨p, hp⟩ := hr
  have hi : Inv False Drained this :=
    (new_inv hp).steps_inv id (fun hi hv => ⟨hv, hi.quiet _⟩) h
  refine ⟨?decoded, hi.bits_eq, ?panics⟩
  case decoded =>
    intro more
    have ⟨start, rest, hc, hb⟩ := hi.exists_chain more
    exact ⟨start.length, hc.decoded Item.oneShot hb⟩
  case panics =>
    intro m hv hs msg
    refine ⟨hi.turn_ne_panicked hs hv msg, fun hu more => ?_⟩
    have ⟨start, u, rest, hb, hc, hh⟩ := hi.halts_of_unwound hv hu
    have ⟨p, hd⟩ := hi.resumable
    have hb : Bits.ofBytes (this.delivered ++ more) = start ++ (u ++ (rest ++ Bits.ofBytes more)) := by
      rw [Bits.ofBytes_append, hb]
      simp
    have ⟨b, hadv, hub, _⟩ := exists_start (B := B) hb
    refine ⟨start.length, b, hc.decoded Item.oneShot hb, hadv, fun ctx => ?_⟩
    exact (hd.ends ctx (hh p hd) (hub ▸ List.prefix_append ..)).1

-- In the runs in which no deserializer is pending with bits in hand, the items are those that are
-- decoded from a contiguous buffer by polling again while the deserializer is pending.
theorem asyncReader_repeated {r : MinCodecRead Ctx B U} (hr : Resumable Wait Stop r)
    {this : Reading Ctx B} (h : Steps B' (Resumable Wait Stop)
      (fun (this : Reading Ctx B) (m : ReadMoment Ctx E) => this.Valid m ∧ this.Quiet m.ctx)
      (.new r) this) :
    (∀ more, ∃ o, Decoded Item.Repeated (this.delivered ++ more) this.items o) ∧
    Bits.ofBytes this.delivered = this.taken ++ this.reader.rest := by
  have ⟨p, hp⟩ := hr
  have hi : Inv Wait Stop this := (new_inv hp).steps_inv id (fun _ => id) h
  refine ⟨fun more => ?_, hi.bits_eq⟩
  have ⟨start, rest, hc, hb⟩ := hi.exists_chain more
  exact ⟨start.length, hc.decoded Item.repeated hb⟩

end

section

def arrives (read : Poll (Except Unit (List UInt8))) : ReadMoment Unit Unit :=
  ⟨(), read⟩

def earlyReads (x : UInt8) : List (ReadMoment Unit Unit) :=
  [.pending, .pending, .ready (.error ()), .ready (.ok [x]), .pending].map arrives

def laterReads (x y : UInt8) : List (ReadMoment Unit Unit) :=
  [.ready (.ok [x, y]), .pending].map arrives

def nextReads (x : UInt8) : List (ReadMoment Unit Unit) :=
  [.pending, .ready (.ok [x]), .pending].map arrives

def Served (bytes : List UInt8) (this : Reading Unit Slice) (m : ReadMoment Unit Unit) : Prop :=
  this.Valid m ∧ this.delivered ++ this.reader.gave m.read <+: bytes ∧ this.items.length < 2

instance (bytes : List UInt8) (this : Reading Unit Slice) (m : ReadMoment Unit Unit) :
    Decidable (Served bytes this m) :=
  inferInstanceAs (Decidable (_ ∧ _ ∧ _))

section

variable {bytes : List UInt8} {T : ReadType Unit Slice} {this : Reading Unit Slice}
variable {ms ms' : List (ReadMoment Unit Unit)} {Ok : Reading Unit Slice → ReadMoment Unit Unit → Prop}

theorem Reading.Runs.served (h : Runs SliceMut (Served bytes) this ms) (hi : Inv Wait Drained this)
    (ht : this.type = T)
    (hq : ∀ {this}, Inv Wait Drained this → this.type = T → ∀ ctx, this.Quiet ctx)
    (ho : ∀ {this m}, Served bytes this m → this.Quiet m.ctx → this.type = T → Ok this m) :
    Steps SliceMut (Resumable Wait Drained) Ok this (this.turns SliceMut ms) ∧
      Inv Wait Drained (this.turns SliceMut ms) ∧ (this.turns SliceMut ms).type = T := by
  refine h.steps (P := fun this => Inv Wait Drained this ∧ this.type = T) ⟨hi, ht⟩ ?after ?ok
  case after => exact fun hp hm hn => ⟨hp.1.turn_inv hm.1 (hq hp.1 hp.2 _) hn, hp.2⟩
  case ok    => exact fun hp hm => ho hm (hq hp.1 hp.2 _) hp.2

theorem Reading.Runs.served_again (h : Runs SliceMut (Served bytes) this ms) (hi : Inv Wait Drained this)
    (ht : this.type = T)
    (hq : ∀ {this}, Inv Wait Drained this → this.type = T → ∀ ctx, this.Quiet ctx)
    (hc : (this.turns SliceMut ms).reader.state = .complete)
    (h' : Runs SliceMut (Served bytes) (this.turns SliceMut ms).again ms')
    (ho : ∀ {this m}, Served bytes this m → this.Quiet m.ctx → this.type = T → Ok this m) :
    Steps SliceMut (Resumable Wait Drained) Ok this ((this.turns SliceMut ms).again.turns SliceMut ms') := by
  have ⟨hs, hi, ht⟩ := h.served hi ht hq ho
  have ha : Steps SliceMut (Resumable Wait Drained) (fun _ (_ : ReadMoment Unit Unit) => False)
      (this.turns SliceMut ms) (this.turns SliceMut ms).again := steps_again hc
  have hi := hi.steps_inv id (fun _ h => h.elim) ha
  exact (hs.trans (steps_again hc)).trans (h'.served hi ht hq ho).1

end

def readU16 : MinCodecRead Unit Slice (BitVec (8 * 2)) :=
  u16Read

theorem readU16_decodes : readU16.Decodes False (numberParser 2) :=
  numberRead_decodes 2

theorem readU16_quiet : readU16.Quiet := by
  intro ctx s b hp
  replace hp : (NumberDeserialize.poll 2 s b).outcome = .pending := hp
  unfold NumberDeserialize.poll at hp
  split at hp
  case h_1     => simp at hp
  case h_2 f _ =>
    refine absurd hp (Polled.andThen_ne_pending (Polled.andThen_ne_pending ?_ (by simp)) (by simp))
    exact sufficient_ne_pending (BitBuf.fillFrom f b)

def firstU16 : Reading Unit Slice :=
  (new readU16).turns SliceMut (earlyReads 1 ++ laterReads 2 3)

def bothU16s : Reading Unit Slice :=
  firstU16.again.turns SliceMut (nextReads 4)

def firstResults : List (Except Empty (BitVec (8 * 2))) :=
  (new readU16).results SliceMut (earlyReads 1 ++ laterReads 2 3)

def nextResults : List (Except Empty (BitVec (8 * 2))) :=
  firstU16.again.results SliceMut (nextReads 4)

theorem bothU16s_items (h : firstResults = [.ok 258]) (h' : nextResults = [.ok 772]) :
    bothU16s.items = [⟨readU16, .ok 258⟩, ⟨readU16, .ok 772⟩] := by
  have hf : firstU16.items = firstResults.map (Item.mk readU16) :=
    (turns_items (new readU16) (earlyReads 1 ++ laterReads 2 3)).trans (List.nil_append _)
  unfold bothU16s
  rw [turns_items, again_items, hf]
  show _ ++ nextResults.map (Item.mk readU16) = _
  rw [h, h']
  rfl

theorem asyncReader_decoded_u16s : bothU16s.items = [⟨readU16, .ok 258⟩, ⟨readU16, .ok 772⟩] ∧
    (∃ o, Decoded Item.OneShot [1, 2, 3, 4] bothU16s.items o) ∧
    Bits.ofBytes [1, 2, 3, 4] = bothU16s.taken := by
  have ⟨hr, hc, hr', hf, hn, hd, hl⟩ :
      Runs SliceMut (Served [1, 2, 3, 4]) (new readU16) (earlyReads 1 ++ laterReads 2 3) ∧
      firstU16.reader.state = .complete ∧
      Runs SliceMut (Served [1, 2, 3, 4]) firstU16.again (nextReads 4) ∧ firstResults = [.ok 258] ∧
      nextResults = [.ok 772] ∧ bothU16s.delivered = [1, 2, 3, 4] ∧ bothU16s.reader.rest = [] := by
    decide +kernel
  have hs : Steps SliceMut (Resumable False Drained) Valid (new readU16) bothU16s :=
    hr.served_again (new_inv readU16_decodes) rfl (fun hi _ => hi.quiet) hc hr' fun h _ _ => h.1
  have ⟨ho, hb, _⟩ := asyncReader_decoded ⟨_, readU16_decodes⟩ hs
  exact ⟨bothU16s_items hf hn, by simpa [hd] using ho [], by rw [← hd, hb, hl, List.append_nil]⟩

def lateU16Read : MinCodecRead Unit Slice (BitVec (8 * 2)) :=
  awaitRead 1 readU16

theorem lateU16Read_decodes : lateU16Read.Decodes True (numberParser 2) :=
  awaitRead_decodes (readU16_decodes.mono False.elim fun _ => id) 1

theorem lateU16Read_quiet : lateU16Read.Quiet :=
  awaitRead_quiet readU16_quiet 1

def earlyU16 : Reading Unit Slice :=
  (new lateU16Read).turns SliceMut (arrives .pending :: earlyReads 1)

def lateU16s : Reading Unit Slice :=
  (earlyU16.turns SliceMut (laterReads 2 3)).again.turns SliceMut (arrives .pending :: nextReads 4)

theorem earlyU16_steps {Ok : Reading Unit Slice → ReadMoment Unit Unit → Prop}
    (ho : ∀ {this m}, Served [1, 2] this m → this.Quiet m.ctx → this.type = ⟨_, lateU16Read⟩ →
      Ok this m) :
    Steps SliceMut (Resumable True Drained) Ok (new lateU16Read) earlyU16 ∧
      Inv True Drained earlyU16 ∧ earlyU16.type = ⟨_, lateU16Read⟩ := by
  have hr : Runs SliceMut (Served [1, 2]) (new lateU16Read) (arrives .pending :: earlyReads 1) := by
    decide +kernel
  exact hr.served (new_inv lateU16Read_decodes) rfl
    (fun hi ht => hi.quiet_of_quiet ht lateU16Read_quiet) ho

theorem lateU16s_steps {Ok : Reading Unit Slice → ReadMoment Unit Unit → Prop}
    (ho : ∀ {this m}, Served [1, 2, 3, 4] this m → this.Quiet m.ctx → this.type = ⟨_, lateU16Read⟩ →
      Ok this m) :
    Steps SliceMut (Resumable True Drained) Ok earlyU16 lateU16s := by
  have ⟨hr, hc, hr'⟩ : Runs SliceMut (Served [1, 2, 3, 4]) earlyU16 (laterReads 2 3) ∧
      (earlyU16.turns SliceMut (laterReads 2 3)).reader.state = .complete ∧
      Runs SliceMut (Served [1, 2, 3, 4]) (earlyU16.turns SliceMut (laterReads 2 3)).again
        (arrives .pending :: nextReads 4) := by
    decide +kernel
  have ⟨_, hi, ht⟩ := @earlyU16_steps (fun _ _ => True) fun _ _ _ => trivial
  exact hr.served_again hi ht (fun hi ht => hi.quiet_of_quiet ht lateU16Read_quiet) hc hr' ho

theorem asyncReader_repeated_u16s : lateU16s.items.length = 2 ∧
    (∃ o, Decoded Item.Repeated [1, 2, 3, 4] lateU16s.items o) ∧
    Bits.ofBytes [1, 2, 3, 4] = lateU16s.taken := by
  have ⟨hi, hd, hl⟩ : lateU16s.items.length = 2 ∧ lateU16s.delivered = [1, 2, 3, 4] ∧
      lateU16s.reader.rest = [] := by
    decide +kernel
  have hs : Steps SliceMut (Resumable True Drained) (fun this m => this.Valid m ∧ this.Quiet m.ctx)
      (new lateU16Read) lateU16s :=
    (earlyU16_steps fun h hq _ => ⟨h.1, hq⟩).1.trans (lateU16s_steps fun h hq _ => ⟨h.1, hq⟩)
  have ⟨ho, hb⟩ := asyncReader_repeated ⟨_, lateU16Read_decodes⟩ hs
  exact ⟨hi, by simpa [hd] using ho [], by rw [← hd, hb, hl, List.append_nil]⟩

end

section

def idle : ReadMoment Unit Empty :=
  ⟨(), .pending⟩

def oneByte (x : UInt8) : ReadMoment Unit Empty :=
  ⟨(), .ready (.ok [x])⟩

def starved {U : Type} (r : MinCodecRead Unit Slice U) : Reading Unit Slice :=
  (new r).after SliceMut idle

def readByte {U : Type} (r : MinCodecRead Unit Slice U) (x : UInt8) : Reading Unit Slice :=
  (starved r).after SliceMut (oneByte x)

def goesOn {α : Type} : Flow α → Bool
  | .next => true
  | _     => false

theorem eq_next {α : Type} {f : Flow α} (h : goesOn f) : f = .next := by
  cases f
  case next => rfl
  all_goals cases h

theorem after_items_of_next {this : Reading Unit Slice} {m : ReadMoment Unit Empty}
    (h : goesOn (this.turn SliceMut m).1) (hi : this.items = []) :
    (this.after SliceMut m).items = [] := by
  rw [after_items, eq_next h, hi]
  rfl

theorem readByte_steps {U : Type} {r : MinCodecRead Unit Slice U} {x : UInt8}
    {Allowed : {U : Type} → MinCodecRead Unit Slice U → Prop}
    {Ok : Reading Unit Slice → ReadMoment Unit Empty → Prop}
    (h₁ : goesOn ((new r).turn SliceMut idle).1)
    (h₂ : goesOn ((starved r).turn SliceMut (oneByte x)).1)
    (ho₁ : Ok (new r) idle) (ho₂ : Ok (starved r) (oneByte x)) :
    Steps SliceMut Allowed Ok (new r) (readByte r x) ∧ (readByte r x).items = [] := by
  refine ⟨(Relation.ReflTransGen.refl.tail (.turn ho₁ ?first)).tail (.turn ho₂ ?second), ?items⟩
  case first =>
    rw [eq_next h₁]
    exact id
  case second =>
    rw [eq_next h₂]
    exact id
  case items => exact after_items_of_next h₂ (after_items_of_next h₁ rfl)

def countRead : MinCodecRead Unit Slice Nat where
  Deserialize           := Nat
  Error                 := Empty
  deserialize           := 0
  pollDeserialize _ n b :=
    match (BitBuf.readBool b).1 with
    | some _ => ⟨.ready (.ok n), n, (BitBuf.readBool b).2⟩
    | none   => ⟨.insufficient, n + 1, (BitBuf.readBool b).2⟩

def countFlow : Flow (Except (AsyncReaderError Empty Empty) Nat) :=
  ((readByte countRead 128).turn SliceMut idle).1

-- A deserializer can tell how its bits have been cut, though it is never pending and takes all there
-- is.
theorem asyncReader_counts :
    (∀ c n b, (countRead.pollDeserialize c n b).outcome ≠ .pending ∧
      ((countRead.pollDeserialize c n b).outcome = .insufficient →
        Drained (countRead.pollDeserialize c n b).buf)) ∧
    (∃ this, Steps SliceMut (fun _ => True)
        (Valid : Reading Unit Slice → ReadMoment Unit Empty → Prop) (.new countRead) this ∧
      this.delivered = [128] ∧ this.items = [⟨countRead, .ok 1⟩]) ∧
    (countRead.pollDeserialize () countRead.deserialize (BitSlice.new [128])).outcome =
      .ready (.ok 0) := by
  refine ⟨fun c n b => ?calm, ⟨(readByte countRead 128).after SliceMut idle, ?steps⟩, rfl⟩
  case calm =>
    cases hu : unread b
    case nil =>
      have ⟨hr, hc⟩ := LawfulBitBuf.readBool_nil hu
      simp only [countRead, hr]
      refine ⟨nofun, fun _ => ?_⟩
      simpa [Drained, hu] using hc.unread_eq.symm
    case cons x bs =>
      have ⟨hr, _⟩ := LawfulBitBuf.readBool_cons hu
      simp only [countRead, hr]
      exact ⟨nofun, nofun⟩
  case steps =>
    have h₁ : (starved countRead).reader.offered = some 1024 := by decide +kernel
    have ⟨hs, hi⟩ := @readByte_steps _ countRead 128 (fun _ => True)
      (Valid : Reading Unit Slice → ReadMoment Unit Empty → Prop) (by decide +kernel) (by decide +kernel) trivial
      ⟨Nat.one_pos, fun n hn => by rw [h₁] at hn; cases hn; decide⟩
    have hf : countFlow = .ret (.ready (.ok 1)) := by decide +kernel
    refine ⟨hs.tail (.turn trivial ?_), by decide +kernel, ?_⟩
    · show ¬countFlow.Panics
      rw [hf]
      exact id
    · show (readByte countRead 128).items ++ AsyncReader.returned (r := countRead) countFlow = _
      rw [hf, hi]
      rfl

def pollPair (this : Option Bool) (b : Slice) :
    Polled (Option Bool) Slice (Except Empty (Bool × Bool)) :=
  match this with
  | none   => (BitBuf.pollBool b).andThen (fun _ => none) id fun x _ b => ⟨.pending, some x, b⟩
  | some x => (BitBuf.pollBool b).andThen (fun _ => some x) id fun y _ b =>
    ⟨.ready (.ok (x, y)), some x, b⟩

def pairRead : MinCodecRead Unit Slice (Bool × Bool) where
  Deserialize       := Option Bool
  Error             := Empty
  deserialize       := none
  pollDeserialize _ := pollPair

theorem pairRead_decodes :
    pairRead.Decodes True (.bind .bit fun x => .bind .bit fun y => .pure (x, y)) := by
  let second (x : Bool) : Parser Empty (Bool × Bool) := .bind .bit fun y => .pure (x, y)
  refine ⟨fun s q => (s = none ∧ q = .bind .bit second) ∨ ∃ x, s = some x ∧ q = second x, ?_,
    .inl ⟨rfl, rfl⟩⟩
  rintro c s q b (⟨rfl, rfl⟩ | ⟨x, rfl, rfl⟩)
  case inl =>
    show Follows _ _ _ _ _ b (pollPair none b)
    unfold pollPair
    apply (BitBuf.pollBool_follows b).andThen_id
    · rintro s q rfl
      exact .inl ⟨rfl, rfl⟩
    · rintro x s b' _ rfl
      exact ⟨[], .refl _, trivial, .inr ⟨x, rfl, by simp; rfl⟩⟩
  case inr =>
    show Follows _ _ _ _ _ b (pollPair (some x) b)
    unfold pollPair
    apply (BitBuf.pollBool_follows b).andThen_id
    · rintro s q rfl
      exact .inr ⟨x, rfl, rfl⟩
    · rintro y s b' _ rfl
      exact .ready rfl

def pairFlow (x : UInt8) : Flow (Except (AsyncReaderError Empty Empty) (Bool × Bool)) :=
  ((readByte pairRead x).turn SliceMut idle).1

def pairFlow' (x : UInt8) : Flow (Except (AsyncReaderError Empty Empty) (Bool × Bool)) :=
  (((readByte pairRead x).after SliceMut idle).turn SliceMut idle).1

theorem pairRead_steps {x : UInt8} {v : Bool × Bool}
    (h₁ : goesOn ((new pairRead).turn SliceMut idle).1)
    (h₂ : goesOn ((starved pairRead).turn SliceMut (oneByte x)).1) (hf : pairFlow x = .ret .pending)
    (hf' : pairFlow' x = .ret (.ready (.ok v))) : ∃ this, Steps SliceMut (Resumable True Drained)
      (Valid : Reading Unit Slice → ReadMoment Unit Empty → Prop) (.new pairRead) this ∧
      this = ((readByte pairRead x).after SliceMut idle).after SliceMut idle ∧
      this.items = [⟨pairRead, .ok v⟩] := by
  have hl : (starved pairRead).reader.offered = some 1024 := by decide +kernel
  have ⟨hs, hi⟩ := @readByte_steps _ pairRead x (Resumable True Drained)
    (Valid : Reading Unit Slice → ReadMoment Unit Empty → Prop) h₁ h₂ trivial
    ⟨Nat.one_pos, fun n hn => by rw [hl] at hn; cases hn; exact Nat.le_add_left 1 1023⟩
  refine ⟨_, (hs.tail (.turn (m := idle) trivial ?first)).tail (.turn (m := idle) trivial ?second),
    rfl, ?items⟩
  case first =>
    show ¬(pairFlow x).Panics
    rw [hf]
    exact id
  case second =>
    show ¬(pairFlow' x).Panics
    rw [hf']
    exact id
  case items =>
    show ((readByte pairRead x).items ++ AsyncReader.returned (r := pairRead) (pairFlow x)) ++
      AsyncReader.returned (r := pairRead) (pairFlow' x) = _
    rw [hf, hf', hi]
    rfl

-- The bit that is taken before the wait is presented again after it.
theorem asyncReader_repeats :
    Resumable True Drained pairRead ∧
    (∃ this, Steps SliceMut (Resumable True Drained)
        (Valid : Reading Unit Slice → ReadMoment Unit Empty → Prop) (.new pairRead) this ∧
      this.delivered = [128] ∧ this.items = [⟨pairRead, .ok (true, true)⟩]) ∧
    (pollAgain pairRead.pollDeserialize [(), ()] pairRead.deserialize (BitSlice.new [128])).outcome =
      .ready (.ok (true, false)) := by
  have ⟨this, hs, ht, hi⟩ := @pairRead_steps 128 (true, true) (by decide +kernel) (by decide +kernel)
    (by decide +kernel) (by decide +kernel)
  exact ⟨⟨_, pairRead_decodes⟩, ⟨this, hs, ht ▸ by decide +kernel, hi⟩, rfl⟩

end

end Mincodec
