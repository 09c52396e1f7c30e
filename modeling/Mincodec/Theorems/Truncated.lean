import Mincodec.Theorems.AsyncReader

-- A `poll` of an `AsyncReader` whose transport ends.
namespace Mincodec

open Stream BitSource

variable {Ctx B B' U E : Type} [BitSlice B]

def IsData : Poll (Except E (List UInt8)) → Prop
  | .ready (.ok _) => True
  | _              => False

def Fits : Poll (Except E (List UInt8)) → Prop
  | .ready (.ok data) => data.length ≤ asyncReaderBufSize
  | _                 => True

def delivers (reads : List (Poll (Except E (List UInt8)))) : List UInt8 :=
  reads.flatMap fun
    | .ready (.ok data) => data
    | _                 => []

namespace AsyncReader

variable {r : MinCodecRead Ctx B U} {this next : AsyncReader r}

-- The transport delivers bytes and then ends, and with all of them the deserializer is starved.
def Truncated [BitSource B] (ctx : Ctx) (reads : List (Poll (Except E (List UInt8))))
    (this : AsyncReader r) : Prop :=
  this.state ≠ .complete ∧ (∀ read ∈ reads, IsData read) ∧
  ∀ b : B, unread b = this.rest ++ Bits.ofBytes (delivers reads) →
    (r.pollDeserialize ctx this.deserializer b).outcome = .insufficient

-- `poll` leaves its loop, and returns an error if the stream ends before the item is complete.
def Returns (B' : Type) [BitSliceMut B'] [BitSource B] (ctx : Ctx)
    (reads : List (Poll (Except E (List UInt8)))) (this : AsyncReader r) : Prop :=
  ∃ fuel out, this.poll B' ctx fuel reads = some out ∧
    (this.Truncated ctx reads → ∃ e, out.1 = .ret (.ready (.error e)))

variable [LawfulBitSlice B] {q : Parser r.Error U}

-- The window lies in the buffer, the deserializer decodes what `q` does, and bytes are waited for
-- where none are left and more are needed.
structure Underway (this : AsyncReader r) (q : Parser r.Error U) : Prop extends this.InBuffer where
  decodes   : Decodes False Drained r.pollDeserialize this.deserializer q
  starved   : this.state = .reading → this.rest = [] ∧ q [] = .more

namespace Underway

theorem turn_ends (B' : Type) [BitSliceMut B'] (h : this.Underway q) (hs : this.state = .deserialize)
    (hq : q this.rest ≠ .more) (ctx : Ctx) (read : Poll (Except E (List UInt8))) :
    (this.turn B' ctx read).1 ≠ .next ∧
      ((this.turn B' ctx read).1.Panics ∨ (this.turn B' ctx read).2.state = .complete) := by
  have ⟨b, hb, hu, _⟩ := h.exists_window
  have hf := h.decodes.follows ctx b
  rw [h.turn_eq hs hb B' ctx read]
  unfold deserialized
  split
  case h_1 hp => exact absurd hp hf.ne_pending
  case h_2    => exact ⟨nofun, .inr rfl⟩
  case h_3 hi => exact absurd (hu ▸ hf.insufficient_iff.mp hi) hq
  case h_4    => exact ⟨nofun, .inl trivial⟩

theorem turn_starved (B' : Type) [BitSliceMut B'] (h : this.Underway q) (hs : this.state = .deserialize)
    (hq : q this.rest = .more) (ctx : Ctx) (read : Poll (Except E (List UInt8))) :
    ∃ next, this.turn B' ctx read = (.next, next) ∧ next.state = .reading ∧
      next.Underway (q.after this.rest) := by
  have ⟨b, hb, hu, ht⟩ := h.exists_window
  have hf := h.decodes.follows ctx b
  have ho := hf.insufficient_iff.mpr (hu ▸ hq)
  have ⟨w, hc, hx⟩ := hf
  rw [ho] at hx
  have ⟨hd, _, hx⟩ := hx
  obtain rfl : this.rest = w := by
    have := hc.unread_eq
    rwa [show unread _ = [] from hd, List.append_nil, hu] at this
  have hlen : BitSlice.len (r.pollDeserialize ctx this.deserializer b).buf = 8 * this.lastByte := by
    have := h.cursor_le
    rw [LawfulBitSlice.len_eq_taken, hc.taken_eq, ht, h.length_rest]
    omega
  rw [h.turn_eq hs hb B' ctx read]
  simp only [deserialized, ho, hlen]
  refine ⟨_, rfl, rfl, ?_⟩
  exact
    { length_eq := h.length_eq
      last_le   := h.last_le
      cursor_le := Nat.le_refl _
      decodes   := hx
      starved   := fun _ => by
        refine ⟨List.drop_of_length_le ?_, by simpa [Parser.after] using hq⟩
        rw [Bits.length_ofBytes, h.length_window] }

theorem cursor_eq (h : this.Underway q) (hs : this.state = .reading) :
    this.cursor = 8 * this.lastByte := by
  have hr := congrArg List.length (h.starved hs).1
  have := h.cursor_le
  rw [h.length_rest, List.length_nil] at hr
  omega

theorem offered_eq (h : this.Underway q) (hs : this.state = .reading) :
    this.offered = some asyncReaderBufSize := by
  have := h.cursor_eq hs
  rw [h.toInBuffer.offered_eq]
  congr 1
  omega

theorem turn_reading (B' : Type) [BitSliceMut B'] [LawfulBitSliceMut B'] (h : this.Underway q)
    (hs : this.state = .reading) (ctx : Ctx) {data : List UInt8}
    (hd : data.length ≤ asyncReaderBufSize) :
    ∃ next, this.turn (E := E) B' ctx (.ready (.ok data)) = (.next, next) ∧
      next.state = .deserialize ∧ next.rest = Bits.ofBytes data ∧ next.Underway q := by
  have hc := h.cursor_eq hs
  have hz : this.lastByte - this.cursor / 8 = 0 := by omega
  obtain ⟨buffer, hf, hl, ht⟩ := fill_eq (E := E) B' h.length_eq h.last_le (by omega)
    (by rwa [hz, Nat.zero_add] : this.lastByte - this.cursor / 8 + data.length ≤ asyncReaderBufSize)
  rw [hz, Nat.zero_add] at hf ht
  rw [List.drop_of_length_le (by rw [List.length_take]; omega), List.nil_append] at ht
  simp only [turn, hs, turnReading, h.offered_eq hs, answered, hf]
  refine ⟨_, rfl, rfl, congrArg Bits.ofBytes ht, ?_⟩
  exact
    { length_eq := hl
      last_le   := hd
      cursor_le := Nat.zero_le _
      decodes   := h.decodes
      starved h := by cases h }

end Underway

section
variable [BitSliceMut B'] {ctx : Ctx} {reads : List (Poll (Except E (List UInt8)))}

def Leaves (B' : Type) [BitSliceMut B'] (ctx : Ctx) (reads : List (Poll (Except E (List UInt8))))
    (this : AsyncReader r) : Prop :=
  ∃ fuel out, this.poll B' ctx fuel reads = some out

omit [LawfulBitSlice B] in
theorem leaves_of_ne_next (h : (this.turn B' ctx (reads.headD (.ready (.ok [])))).1 ≠ .next) :
    this.Leaves B' ctx reads := by
  refine ⟨1, this.turn B' ctx (reads.headD (.ready (.ok []))), ?_⟩
  simp only [poll]
  split
  case h_1 hn _ => exact absurd hn h
  case h_2 hn _ => exact absurd hn h
  case h_3      => rfl

omit [LawfulBitSlice B] in
theorem leaves_iff_of_next {next : AsyncReader r} {reads' : List (Poll (Except E (List UInt8)))}
    (h : this.turn B' ctx (reads.headD (.ready (.ok []))) = (.next, next))
    (hr : reads' = match this.state with
      | .reading => reads.tail
      | _        => reads) : this.Leaves B' ctx reads ↔ next.Leaves B' ctx reads' := by
  have hp (fuel : Nat) : this.poll B' ctx (fuel + 1) reads = next.poll B' ctx fuel reads' := by
    rw [poll, h, hr]
    cases this.state <;> rfl
  constructor
  case mp =>
    intro ⟨fuel, out, hl⟩
    cases fuel
    case zero      => cases hl
    case succ fuel => exact ⟨fuel, out, hp fuel ▸ hl⟩
  case mpr =>
    intro ⟨fuel, out, hl⟩
    exact ⟨fuel + 1, out, hp fuel ▸ hl⟩

variable [LawfulBitSliceMut B']

theorem Underway.poll_nil (h : this.Underway q) (hs : this.state ≠ .complete) (hr : this.rest = [])
    (hq : q [] = .more) (fuel : Nat) :
    this.poll (E := E) B' ctx fuel [] = none := by
  induction fuel generalizing this q
  case zero         => rfl
  case succ fuel hi =>
    have hx : (List.headD [] (.ready (.ok [])) : Poll (Except E (List UInt8))) = .ready (.ok []) := rfl
    cases hs' : this.state
    case complete    => exact absurd hs' hs
    case deserialize =>
      have ⟨next, ht, hn, hu⟩ := h.turn_starved B' hs' (hr ▸ hq) ctx (.ready (.ok []) : Poll (Except E _))
      simp only [poll, hx, ht, hs']
      exact hi hu (by simp [hn]) (hu.starved hn).1 (hu.starved hn).2
    case reading     =>
      have hd : ([] : List UInt8).length ≤ asyncReaderBufSize := Nat.zero_le _
      have ⟨next, ht, hn, hrest, hu⟩ := h.turn_reading (E := E) B' hs' ctx hd
      simp only [poll, hx, ht, hs']
      exact hi hu (by simp [hn]) hrest hq

def Starves (this : AsyncReader r) (reads : List (Poll (Except E (List UInt8))))
    (q : Parser r.Error U) : Prop :=
  (∀ read ∈ reads, IsData read) ∧ q (this.rest ++ Bits.ofBytes (delivers reads)) = .more

namespace Underway

omit [LawfulBitSliceMut B'] in
theorem leaves_deserialize (h : this.Underway q) (hs : this.state = .deserialize)
    (hi : ∀ {next : AsyncReader r} {q' : Parser r.Error U}, next.Underway q' →
      next.state = .reading → (next.Leaves B' ctx reads ↔ ¬next.Starves reads q')) :
    this.Leaves B' ctx reads ↔ ¬this.Starves reads q := by
  by_cases hq : q this.rest = .more
  case pos =>
    have ⟨next, ht, hn, hu⟩ := h.turn_starved B' hs hq ctx (reads.headD (.ready (.ok [])))
    have hr := (hu.starved hn).1
    rw [leaves_iff_of_next ht (by rw [hs]), hi hu hn, Starves, hr]
    rfl
  case neg =>
    refine iff_of_true (leaves_of_ne_next (h.turn_ends B' hs hq ctx _).1) fun hst => hq ?_
    have ⟨b, _, hu, _⟩ := h.exists_window
    have hf := h.decodes.follows ctx b
    rw [Starves, ← hu] at hst
    exact hu ▸ hf.insufficient_iff.mp (hf.more_of_append hst.2)

theorem leaves_reading (h : this.Underway q) (hs : this.state = .reading)
    (hf : ∀ read ∈ reads, Fits read) : this.Leaves B' ctx reads ↔ ¬this.Starves reads q := by
  obtain ⟨hr, hq⟩ := h.starved hs
  induction reads generalizing this q
  case nil =>
    refine iff_of_false ?_ (not_not.mpr ⟨by simp, ?_⟩)
    · rintro ⟨fuel, out, hl⟩
      rw [h.poll_nil (by simp [hs]) hr hq] at hl
      cases hl
    · rw [hr]
      exact hq
  case cons read reads hi =>
    have hrest := fun read hm => hf read (.tail _ hm)
    by_cases hd : IsData read
    case neg =>
      refine iff_of_true (leaves_of_ne_next ?_) fun hst => hd (hst.1 read (.head _))
      simp only [List.headD_cons, turn, hs, turnReading, h.offered_eq hs, answered]
      split
      case h_3 => exact absurd trivial hd
      all_goals simp
    case pos =>
      obtain ⟨data, rfl⟩ : ∃ data, read = .ready (.ok data) := by
        unfold IsData at hd
        split at hd
        case h_1 data => exact ⟨data, rfl⟩
        case h_2      => exact hd.elim
      obtain ⟨next, ht, hn, hb, hu⟩ := h.turn_reading (E := E) B' hs ctx (hf _ (.head _))
      have hl : this.Leaves B' ctx (.ready (.ok data) :: reads) ↔ next.Leaves B' ctx reads :=
        leaves_iff_of_next ht (by rw [hs, List.tail_cons])
      rw [hl, hu.leaves_deserialize hn fun hu hs =>
        hi hu hs hrest (hu.starved hs).1 (hu.starved hs).2]
      simp only [Starves, hr, hb, List.nil_append, List.forall_mem_cons, IsData, true_and]
      rw [← Bits.ofBytes_append]
      rfl

theorem leaves_iff (h : this.Underway q) (hs : this.state ≠ .complete)
    (hf : ∀ read ∈ reads, Fits read) : this.Leaves B' ctx reads ↔ ¬this.Starves reads q := by
  cases hs' : this.state
  case complete    => exact absurd hs' hs
  case reading     => exact h.leaves_reading hs' hf
  case deserialize => exact h.leaves_deserialize hs' fun h hs => h.leaves_reading hs hf

omit [BitSliceMut B'] [LawfulBitSliceMut B'] in
theorem starves_iff (h : this.Underway q) (hs : this.state ≠ .complete) :
    this.Starves reads q ↔ this.Truncated ctx reads := by
  refine (and_congr_right fun _ => ?_).trans (and_iff_right hs).symm
  have hc : this.cursor ≤ (Bits.ofBytes (this.buffer.take this.lastByte)).length := by
    rw [Bits.length_ofBytes, h.length_window]
    exact h.cursor_le
  have ⟨b, _, hb, _⟩ := BitSlice.exists_window (B := B) (n := this.cursor)
    (this.buffer.take this.lastByte ++ delivers reads) (by
      rw [List.length_append, Nat.mul_add, ← Bits.length_ofBytes]
      exact hc.trans (Nat.le_add_right _ _))
  rw [Bits.ofBytes_append, List.drop_append_of_le_length hc] at hb
  constructor
  case mp  => exact fun hq b hb => (h.decodes.follows ctx b).insufficient_iff.mpr (hb ▸ hq)
  case mpr =>
    intro hall
    have hq := (h.decodes.follows ctx b).insufficient_iff.mp (hall b hb)
    rwa [hb] at hq

end Underway

end

end AsyncReader

namespace Reading

variable [LawfulBitSlice B] [BitSliceMut B'] [LawfulBitSliceMut B']

theorem Inv.underway_next {this : Reading Ctx B} (hi : Inv False Drained this) {S : Type}
    {s : MinCodecRead Ctx B S} {reader : AsyncReader s} (hr : Resumable False Drained s)
    (h : this.reader.resetAs s = some reader) : ∃ q, reader.Underway q := by
  have ⟨p, hp⟩ := hr
  have ⟨hb, hs, hd⟩ := hi.inBuffer.resetAs h
  exact ⟨p,
    { toInBuffer := hb
      decodes    := hd ▸ hp
      starved    := by simp [hs] }⟩

theorem turn_underway {this : Reading Ctx B} {q : Parser this.codec.Error this.U}
    (h : this.reader.Underway q) {m : ReadMoment Ctx E} (hv : this.Valid m)
    (hp : ¬(this.turn B' m).1.Panics) (hs : (this.after B' m).reader.state ≠ .complete) :
    ∃ q, (this.after B' m).reader.Underway q := by
  cases hs' : this.reader.state
  case complete    => simp [turn, AsyncReader.turn, hs', Flow.Panics] at hp
  case deserialize =>
    by_cases hq : q this.reader.rest = .more
    case pos =>
      obtain ⟨next, ht, _, hu⟩ := h.turn_starved B' hs' hq m.ctx m.read
      have hn : (this.after B' m).reader = next := congrArg Prod.snd ht
      exact ⟨_, hn ▸ hu⟩
    case neg =>
      obtain ⟨_, he⟩ := h.turn_ends B' hs' hq m.ctx m.read
      cases he
      case inl he => exact absurd he hp
      case inr he => exact absurd he hs
  case reading     =>
    have ho := h.offered_eq hs'
    have hturn : this.turn B' m = this.reader.answered B' m.read := by
      simp only [turn, AsyncReader.turn, hs', AsyncReader.turnReading, ho]
    unfold Valid at hv
    cases hm : m.read
    case panicked msg => simp [hturn, hm, AsyncReader.answered, Flow.Panics] at hp
    case pending      =>
      have hn : (this.turn B' m).2 = this.reader := by
        rw [hturn, hm]
        rfl
      exact ⟨_, hn ▸ h⟩
    case ready res    =>
      cases res
      case error e =>
        have hn : (this.turn B' m).2 = this.reader := by
          rw [hturn, hm]
          rfl
        exact ⟨_, hn ▸ h⟩
      case ok data =>
        simp only [hm] at hv
        obtain ⟨next, ht, _, _, hu⟩ := h.turn_reading (E := E) B' hs' m.ctx (hv.2 _ ho)
        rw [← hm] at ht
        have hn : (this.after B' m).reader = next := congrArg Prod.snd ht
        exact ⟨_, hn ▸ hu⟩

-- In every state that is reached, a reader that is not done waits for bytes only where none are left.
theorem exists_underway {r : MinCodecRead Ctx B U} (hr : Resumable False Drained r)
    {this : Reading Ctx B} (h : Steps B' (Resumable False Drained)
      (Valid : Reading Ctx B → ReadMoment Ctx E → Prop) (.new r) this)
    (hs : this.reader.state ≠ .complete) : ∃ q, this.reader.Underway q := by
  obtain ⟨p, hp⟩ := hr
  induction h
  case refl =>
    exact ⟨p,
      { toInBuffer := AsyncReader.new_inBuffer r
        decodes    := hp
        starved    := nofun }⟩
  case tail this next h₀ h hi =>
    have inv : Inv False Drained this :=
      (new_inv hp).steps_inv id (fun hi hv => ⟨hv, hi.quiet _⟩) h₀
    cases h
    case turn m hv hp                 =>
      have hs' : this.reader.state ≠ .complete := by
        intro hs'
        simp [turn, AsyncReader.turn, hs', Flow.Panics] at hp
      obtain ⟨q, hu⟩ := hi hs'
      exact turn_underway hu hv hp hs
    case reset reader h               => exact inv.underway_next inv.resumable h
    case resetAs S s reader ha h      => exact inv.underway_next ha h

end Reading

variable [LawfulBitSlice B] [BitSliceMut B'] [LawfulBitSliceMut B']

-- A call of `poll` keeps its promise if and only if the transport makes it wait or fails, or delivers
-- what completes the item.
theorem asyncReader_returns_iff {r : MinCodecRead Ctx B U} (hr : Reading.Resumable False Drained r)
    {this : Reading Ctx B} (h : Reading.Steps B' (Reading.Resumable False Drained)
      (Reading.Valid : Reading Ctx B → ReadMoment Ctx E → Prop) (.new r) this)
    (ctx : Ctx) {reads : List (Poll (Except E (List UInt8)))} (hf : ∀ read ∈ reads, Fits read) :
    this.reader.Returns B' ctx reads ↔ ¬this.reader.Truncated ctx reads := by
  by_cases hs : this.reader.state = .complete
  case pos =>
    have ht : ¬this.reader.Truncated ctx reads := fun ht => ht.1 hs
    have hp : this.reader.poll B' ctx 1 reads =
        some (.ret (.panicked "AsyncReader polled after completion"), this.reader) := by
      simp only [AsyncReader.poll, AsyncReader.turn, hs]
    exact iff_of_true ⟨1, _, hp, fun h => absurd h ht⟩ ht
  case neg =>
    obtain ⟨q, hu⟩ := Reading.exists_underway hr h hs
    have hl : this.reader.Leaves B' ctx reads ↔ ¬this.reader.Starves reads q := hu.leaves_iff hs hf
    rw [← hu.starves_iff hs]
    constructor
    case mp  =>
      rintro ⟨fuel, out, hp, _⟩
      exact hl.mp ⟨fuel, out, hp⟩
    case mpr =>
      intro hst
      obtain ⟨fuel, out, hp⟩ := hl.mpr hst
      exact ⟨fuel, out, hp, fun ht => absurd ((hu.starves_iff hs).mpr ht) hst⟩

section
open Reading

def reads (chunks : List (List UInt8)) : List (Poll (Except Empty (List UInt8))) :=
  chunks.map fun data => .ready (.ok data)

theorem asyncReader_returns_iff_u16 :
    (new readU16).reader.Returns SliceMut () (reads [[1], [2]]) ∧
    ¬(new readU16).reader.Returns SliceMut () (reads [[1]]) := by
  have hf (x : UInt8) : Fits (.ready (.ok [x]) : Poll (Except Empty (List UInt8))) := by
    simp [Fits, asyncReaderBufSize]
  constructor
  case left =>
    refine (asyncReader_returns_iff ⟨_, readU16_decodes⟩ .refl () (by simp [reads, hf])).mpr ?_
    intro ⟨_, _, hb⟩
    cases hb ⟨Bits.ofBytes [1, 2], 0⟩ rfl
  case right =>
    refine fun hr => (asyncReader_returns_iff ⟨_, readU16_decodes⟩ .refl () (by simp [reads, hf])).mp hr ?_
    refine ⟨nofun, by simp [reads, IsData], fun b hb => ?_⟩
    refine (readU16_decodes.follows () b).insufficient_iff.mpr ?_
    rw [hb]
    rfl

def boolReader : AsyncReader (boolRead : MinCodecRead Unit Slice Bool) :=
  .new boolRead

theorem boolReader_underway : boolReader.Underway .bit where
  toInBuffer := AsyncReader.new_inBuffer _
  decodes    := boolRead_decodes
  starved    := nofun

-- When the stream ends before the first byte the loop is never left.
theorem asyncReader_hangs : (∀ fuel, boolReader.poll SliceMut () fuel (reads []) = none) ∧
    ¬boolReader.Returns SliceMut () (reads []) := by
  have hn (fuel : Nat) : boolReader.poll SliceMut () fuel (reads []) = none :=
    boolReader_underway.poll_nil nofun rfl rfl fuel
  refine ⟨hn, fun ⟨fuel, out, ho, _⟩ => ?_⟩
  cases (hn fuel).symm.trans ho

end

end Mincodec
