import Mincodec.Theorems.AsyncReader

-- The refill of the buffer of an `AsyncReader`, for deserializers that may stop anywhere.
namespace Mincodec

open Stream BitSource BitSink

variable {Ctx B B' U E : Type}

-- A deserializer reads its bits in order, and may stop after any number of them.
def MinCodecRead.ReadsOn [BitSource B] (r : MinCodecRead Ctx B U) : Prop :=
  ∀ ctx s b, ∃ u, Consumes b u (r.pollDeserialize ctx s b).buf

namespace AsyncReader

variable {r : MinCodecRead Ctx B U} {this : AsyncReader r}

-- Whatever is read, the bits that have not been taken come first, and the bytes that are read after
-- them.
def Refills (E B' : Type) [BitSliceMut B'] (this : AsyncReader r) : Prop :=
  ∀ data : List UInt8, 0 < data.length → (∀ n, this.offered = some n → data.length ≤ n) →
    ∃ next, this.turnReading (E := E) B' (.ready (.ok data)) = (.next, next) ∧
      next.rest = this.rest ++ Bits.ofBytes data

namespace InBuffer

theorem exists_fill (B' : Type) [BitSliceMut B'] [LawfulBitSliceMut B'] (h : this.InBuffer)
    {data : List UInt8} (hd : 0 < data.length)
    (hle : ∀ n, this.offered = some n → data.length ≤ n) : ∃ b : B',
      image b = Bits.ofBytes (copyWithin this.buffer (this.cursor / 8) this.lastByte) ∧
      filled b = 8 * (this.lastByte - this.cursor / 8) + this.cursor % 8 ∧
      (BitSliceMut.writeAlignedAll data b = none →
        this.turnReading (E := E) B' (.ready (.ok data)) =
          (.ret (.panicked (unwrapErr "..")), this)) ∧
      ∀ b', BitSliceMut.writeAlignedAll data b = some b' →
        this.turnReading (E := E) B' (.ready (.ok data)) = (.next,
          { this with
            buffer   := BitSliceMut.bytes b'
            cursor   := this.cursor % 8
            lastByte := this.lastByte - this.cursor / 8 + data.length
            state    := .deserialize }) := by
  have hle := hle _ h.offered_eq
  have hl : this.lastByte ≤ this.buffer.length := h.length_eq ▸ h.last_le
  have ⟨b, hb, hi, hf⟩ := BitSliceMut.exists_window (B := B')
    (copyWithin this.buffer (this.cursor / 8) this.lastByte)
    (n := (this.lastByte - this.cursor / 8) * 8 + this.cursor % 8) (by
      rw [h.length_copied]
      omega)
  have hd : data.length ≤ asyncReaderBufSize := by omega
  refine ⟨b, hi, by rw [hf, Nat.mul_comm], fun hw => ?_, fun b' hw => ?_⟩
  all_goals simp only [turnReading, h.offered_eq, answered, fill, hl, if_true, hb, hd, hw]

variable [BitSliceMut B'] [LawfulBitSliceMut B']

theorem refills_of_aligned (h : this.InBuffer) (ha : this.cursor % 8 = 0) :
    this.Refills E B' := by
  intro data hd hle
  have hle' := hle _ h.offered_eq
  have ⟨buffer, hf, _, hb⟩ := AsyncReader.fill_eq (E := E) B' h.length_eq h.last_le ha
    (by omega : this.lastByte - this.cursor / 8 + data.length ≤ asyncReaderBufSize)
  simp only [turnReading, h.offered_eq, answered, hf]
  refine ⟨_, rfl, ?_⟩
  simp only [rest, hb, Bits.ofBytes_append, Bits.ofBytes_drop, List.drop_zero]
  congr 2
  omega

theorem getElem?_refilled [KeepsWritten B'] {b b' : B'} {xs data : List UInt8} {first c : Nat}
    (hi : image b = Bits.ofBytes xs) (hf : filled b = 8 * first + c) (hc : 0 < c)
    (hd : 0 < data.length) (hw : BitSliceMut.writeAlignedAll data b = some b') :
    (Bits.ofBytes ((BitSliceMut.bytes b').take (first + data.length)))[8 * first]? =
      (Bits.ofBytes xs)[8 * first]? := by
  have hl : 8 ∣ (image b').length := by
    rw [KeepsWritten.length_image hw, hi, Bits.length_ofBytes]
    exact Nat.dvd_mul_right ..
  have ht := congrArg (·[8 * first]?) (KeepsWritten.take_image hw)
  simp only [hf, List.getElem?_take_of_lt (Nat.lt_add_of_pos_right hc)] at ht
  rw [Bits.ofBytes_take, LawfulBitSliceMut.bytes_eq, Bits.ofBytes_toBytes _ hl,
    List.getElem?_take_of_lt (by omega), ht, hi]

theorem not_refills [KeepsWritten B'] (h : this.InBuffer) (ha : this.cursor % 8 ≠ 0)
    (ho : this.offered ≠ some 0) : ¬this.Refills E B' := by
  intro hr
  have hcl := h.cursor_le
  rw [h.offered_eq] at ho
  let copied := copyWithin this.buffer (this.cursor / 8) this.lastByte
  let first := this.lastByte - this.cursor / 8
  have hlt : 8 * first < (Bits.ofBytes copied).length := by
    rw [Bits.length_ofBytes, h.length_copied]
    have : asyncReaderBufSize - first ≠ 0 := fun hz => ho (congrArg some hz)
    omega
  have ⟨x, hx⟩ : ∃ x : UInt8, (Bits.ofBytes [x])[0]? ≠ (Bits.ofBytes copied)[8 * first]? := by
    rw [List.getElem?_eq_getElem hlt]
    cases (Bits.ofBytes copied)[8 * first]
    case false => exact ⟨255, by decide⟩
    case true  => exact ⟨0, by decide⟩
  have hd : 0 < [x].length := Nat.one_pos
  have hle (n : Nat) (hn : this.offered = some n) : [x].length ≤ n := by
    rw [h.offered_eq] at hn
    cases hn
    have : asyncReaderBufSize - first ≠ 0 := fun hz => ho (congrArg some hz)
    exact Nat.pos_of_ne_zero this
  have ⟨b, hi, hf, hnone, hsome⟩ := h.exists_fill (E := E) B' hd hle
  have ⟨next, hn, hb⟩ := hr [x] hd hle
  cases hw : BitSliceMut.writeAlignedAll [x] b
  case none    => cases (hnone hw).symm.trans hn
  case some b' =>
    cases (hsome b' hw).symm.trans hn
    have hs := getElem?_refilled hi hf (Nat.pos_of_ne_zero ha) hd hw
    have hl : this.cursor % 8 + this.rest.length = 8 * first := by
      rw [h.length_rest]
      omega
    have hb := congrArg (·[this.rest.length]?) hb
    simp only [List.getElem?_append_right (Nat.le_refl _), Nat.sub_self] at hb
    rw [rest, List.getElem?_drop, hl, hs] at hb
    exact hx hb.symm

end InBuffer

end AsyncReader

namespace Reading

variable [BitSlice B] [LawfulBitSlice B] [BitSliceMut B'] [LawfulBitSliceMut B'] [KeepsWritten B']
variable {this : Reading Ctx B}

theorem turn_inBuffer (h : this.reader.InBuffer) (hr : this.codec.ReadsOn) {m : ReadMoment Ctx E}
    (hv : this.Valid m) (hp : ¬(this.turn B' m).1.Panics) : (this.turn B' m).2.InBuffer := by
  cases hs : this.reader.state
  case complete    => simp [turn, AsyncReader.turn, hs, Flow.Panics] at hp
  case deserialize =>
    obtain ⟨b, hb, hu, ht⟩ := h.exists_window
    obtain ⟨u, hc⟩ := hr m.ctx this.reader.deserializer b
    have hcl := h.cursor_le
    have hle : BitSource.taken (this.poll m.ctx b).buf ≤ 8 * this.reader.lastByte := by
      have := hc.length_le
      rw [hu, h.length_rest] at this
      rw [poll, hc.taken_eq, ht]
      omega
    have hturn : this.turn B' m = this.reader.deserialized (this.poll m.ctx b) :=
      h.turn_eq hs hb B' m.ctx m.read
    rw [hturn]
    unfold AsyncReader.deserialized
    rw [LawfulBitSlice.len_eq_taken]
    split
    case h_1 | h_4 => exact ⟨h.length_eq, h.last_le, hcl⟩
    case h_2       => exact ⟨h.length_eq, h.last_le, alignUp_le hle⟩
    case h_3       => exact ⟨h.length_eq, h.last_le, hle⟩
  case reading     =>
    have hturn : this.turn B' m = this.reader.turnReading B' m.read := by
      simp only [turn, AsyncReader.turn, hs]
    rw [hturn] at hp ⊢
    unfold Valid at hv
    cases hm : m.read
    case panicked msg => simp only [hm] at hv
    case pending      =>
      simp only [AsyncReader.turnReading, h.offered_eq]
      exact h
    case ready res    =>
      cases res
      case error e =>
        simp only [AsyncReader.turnReading, h.offered_eq]
        exact h
      case ok data =>
        simp only [hm] at hv hp
        have hle := hv.2 _ h.offered_eq
        obtain ⟨b, hi, hf, hnone, hsome⟩ := h.exists_fill (E := E) B' hv.1 hv.2
        cases hw : BitSliceMut.writeAlignedAll data b
        case none    =>
          rw [hnone hw] at hp
          exact absurd trivial hp
        case some b' =>
          rw [hsome b' hw]
          exact
            { length_eq := by
                rw [LawfulBitSliceMut.bytes_eq, Bits.length_toBytes, KeepsWritten.length_image hw, hi,
                  Bits.length_ofBytes, h.length_copied]
                omega
              last_le   := by simp only; omega
              cursor_le := by simp only; omega }

theorem steps_inBuffer {r : MinCodecRead Ctx B U} (hr : r.ReadsOn) (h : Steps B' MinCodecRead.ReadsOn
    (Valid : Reading Ctx B → ReadMoment Ctx E → Prop) (.new r) this) :
    this.reader.InBuffer ∧ this.codec.ReadsOn := by
  induction h
  case refl => exact ⟨AsyncReader.new_inBuffer r, hr⟩
  case tail this next _ h hi =>
    have ⟨hb, hr⟩ := hi
    cases h
    case turn m hv hp            => exact ⟨turn_inBuffer hb hr hv hp, hr⟩
    case reset reader h          => exact ⟨(hb.resetAs h).1, hr⟩
    case resetAs S s reader ha h => exact ⟨(hb.resetAs h).1, ha⟩

end Reading

section
variable [BitSlice B] [LawfulBitSlice B] [BitSliceMut B'] [LawfulBitSliceMut B'] [KeepsWritten B']

-- In every window that is reached, a refill is in order if and only if the deserializer has stopped
-- between two bytes or there is no room for a byte.
theorem asyncReader_refills_iff {r : MinCodecRead Ctx B U} (hr : r.ReadsOn) {this : Reading Ctx B}
    (h : Reading.Steps B' MinCodecRead.ReadsOn
      (Reading.Valid : Reading Ctx B → ReadMoment Ctx E → Prop) (.new r) this) :
    this.reader.Refills E B' ↔
      this.reader.cursor % 8 = 0 ∨ this.reader.offered = some 0 := by
  have ⟨hb, _⟩ := Reading.steps_inBuffer hr h
  constructor
  case mp =>
    intro hf
    by_contra hn
    have ⟨ha, ho⟩ := not_or.mp hn
    exact hb.not_refills ha ho hf
  case mpr =>
    intro hor
    cases hor
    case inl ha => exact hb.refills_of_aligned ha
    case inr ho => exact fun data hd hle => absurd (hle 0 ho) (Nat.not_le.mpr hd)

end

section
open Reading

theorem boolRead_readsOn : (boolRead : MinCodecRead Unit Slice Bool).ReadsOn := by
  intro _ _ b
  have ⟨u, hu, _⟩ := (BitBuf.pollBool_follows b : Follows True ..)
  exact ⟨u, hu⟩

theorem u8Read_readsOn : (u8Read : MinCodecRead Unit Slice (BitVec (8 * 1))).ReadsOn := by
  intro _ s b
  show ∃ u, Consumes b u (NumberDeserialize.poll 1 s b).buf
  unfold NumberDeserialize.poll
  split
  case h_1     => exact ⟨[], .refl b⟩
  case h_2 f _ =>
    have hb : (sufficient (BitBuf.fillFrom f b) : Polled _ _ (Except Empty Unit)).buf =
        (BitBuf.fillFrom f b).2.2 := by
      obtain ⟨_ | a, f, b⟩ := BitBuf.fillFrom f b <;> rfl
    rw [Polled.andThen_buf fun _ _ _ => rfl, BitBuf.pollFill, Polled.andThen_buf fun _ _ _ => rfl, hb]
    exact ⟨_, b.consumes_skip _⟩

variable {r : MinCodecRead Unit Slice U}

-- Takes two items, and asks for more bytes after the first of them.
def pollSlow (r : MinCodecRead Unit Slice U) (this : r.Deserialize × Option U) (b : Slice) :
    Polled (r.Deserialize × Option U) Slice (Except r.Error (U × U)) :=
  (r.pollDeserialize () this.1 b).andThen (fun s => (s, this.2)) id fun y _ b =>
    match this.2 with
    | none   => ⟨.insufficient, (r.deserialize, some y), b⟩
    | some x => ⟨.ready (.ok (x, y)), (r.deserialize, some x), b⟩

def slowRead (r : MinCodecRead Unit Slice U) : MinCodecRead Unit Slice (U × U) where
  Deserialize       := r.Deserialize × Option U
  Error             := r.Error
  deserialize       := (r.deserialize, none)
  pollDeserialize _ := pollSlow r

theorem slowRead_readsOn (h : r.ReadsOn) : (slowRead r).ReadsOn := by
  intro _ s b
  have hb : ((slowRead r).pollDeserialize () s b).buf = (r.pollDeserialize () s.1 b).buf :=
    Polled.andThen_buf fun _ _ _ => by cases s.2 <;> rfl
  rw [hb]
  exact h () s.1 b

theorem runs_steps {this : Reading Unit Slice} {ms : List (ReadMoment Unit Unit)}
    (h : Runs SliceMut Valid this ms) : Steps SliceMut MinCodecRead.ReadsOn
      (Valid : Reading Unit Slice → ReadMoment Unit Unit → Prop) this (this.turns SliceMut ms) :=
  (h.steps (P := fun _ => True) trivial (fun _ _ _ => trivial) fun _ => id).1

def slowU8s : Reading Unit Slice :=
  (new (slowRead u8Read)).turns SliceMut ([.pending, .ready (.ok [1, 2]), .pending].map arrives)

theorem asyncReader_refills_iff_u8s :
    slowU8s.reader.rest = Bits.ofBytes [2] ∧ slowU8s.reader.Refills Unit SliceMut := by
  have ⟨hr, hb, ha⟩ : Runs SliceMut Valid (new (slowRead u8Read))
      ([.pending, .ready (.ok [1, 2]), .pending].map arrives) ∧
      slowU8s.reader.rest = Bits.ofBytes [2] ∧ slowU8s.reader.cursor % 8 = 0 := by
    decide +kernel
  have hs : Steps SliceMut MinCodecRead.ReadsOn
      (Valid : Reading Unit Slice → ReadMoment Unit Unit → Prop) (new (slowRead u8Read)) slowU8s :=
    runs_steps hr
  exact ⟨hb, (asyncReader_refills_iff (slowRead_readsOn u8Read_readsOn) hs).mpr (.inl ha)⟩

def slowBools : Reading Unit Slice :=
  (new (slowRead boolRead)).turns SliceMut ([.pending, .ready (.ok [128]), .pending].map arrives)

-- The deserializer has stopped after one of the eight bits that it has been given.
theorem asyncReader_misplaces : slowBools.reader.cursor = 1 ∧
    Steps SliceMut MinCodecRead.ReadsOn (Valid : Reading Unit Slice → ReadMoment Unit Unit → Prop)
      (new (slowRead boolRead)) slowBools ∧
    ¬slowBools.reader.Refills Unit SliceMut := by
  have ⟨hr, hc, ho⟩ : Runs SliceMut Valid (new (slowRead boolRead))
      ([.pending, .ready (.ok [128]), .pending].map arrives) ∧
      slowBools.reader.cursor = 1 ∧ slowBools.reader.offered = some 1023 := by
    decide +kernel
  have hs : Steps SliceMut MinCodecRead.ReadsOn
      (Valid : Reading Unit Slice → ReadMoment Unit Unit → Prop) (new (slowRead boolRead)) slowBools :=
    runs_steps hr
  have hb := (steps_inBuffer (slowRead_readsOn boolRead_readsOn) hs).1
  exact ⟨hc, hs, hb.not_refills (by rw [hc]; decide) (by rw [ho]; decide)⟩

end

end Mincodec
