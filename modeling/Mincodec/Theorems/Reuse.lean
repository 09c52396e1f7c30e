import Mincodec.Run.Reuse
import Mincodec.Theorems.AsyncWriter
import Mincodec.Theorems.Blind

-- What an `AsyncWriter` that has been reset sends, compared with a new one.
namespace Mincodec

open Stream BitSink

variable {Ctx B U E : Type}

section

variable {xs ys : List UInt8}

theorem bitAt_set (h : 0 < xs.length) (l : UInt8) (i : Nat) :
    bitAt (xs.set 0 l) i = if i < 8 then (Bits.ofByte l).getD i false else bitAt xs i := by
  cases xs
  case nil       => simp at h
  case cons x xs =>
    unfold bitAt
    rw [List.set_cons_zero, Bits.ofBytes_cons, Bits.ofBytes_cons]
    split
    case isTrue hi  => exact List.getD_append _ _ _ _ (by simpa using hi)
    case isFalse hi =>
      rw [List.getD_append_right _ _ _ _ (by simpa using hi),
        List.getD_append_right _ _ _ _ (by simpa using hi), Bits.length_ofByte, Bits.length_ofByte]

theorem bitAt_of_getElem? {k : Nat} {l : UInt8} (h : xs[k]? = some l) {i : Nat} (hi : i < 8) :
    bitAt xs (8 * k + i) = (Bits.ofByte l).getD i false := by
  obtain ⟨hk, rfl⟩ := List.getElem?_eq_some_iff.mp h
  have hd : Bits.ofBytes (xs.drop k) = Bits.ofByte xs[k] ++ Bits.ofBytes (xs.drop (k + 1)) := by
    rw [List.drop_eq_getElem_cons hk, Bits.ofBytes_cons]
  rw [Bits.ofBytes_drop] at hd
  unfold bitAt
  rw [← List.getD_append (Bits.ofByte xs[k]) (Bits.ofBytes (xs.drop (k + 1))) false i (by simpa using hi), ← hd]
  simp [List.getD_eq_getElem?_getD]

theorem bitAt_replicate (n i : Nat) : bitAt (List.replicate n 0) i = false := by
  unfold bitAt
  rw [Bits.ofBytes_replicate_zero, List.getD_eq_getElem?_getD, List.getElem?_replicate]
  split <;> rfl

theorem take_eq_iff (h : ys.length = xs.length) (k : Nat) :
    ys.take k = xs.take k ↔ ∀ i < 8 * k, bitAt ys i = bitAt xs i := by
  rw [← Bits.ofBytes_injective.eq_iff, Bits.ofBytes_take, Bits.ofBytes_take]
  have hl : (Bits.ofBytes ys).length = (Bits.ofBytes xs).length := by simp [h]
  unfold bitAt
  constructor
  case mp =>
    intro he i hi
    have := congrArg (·[i]?) he
    simp only [List.getElem?_take, hi, if_true] at this
    rw [List.getD_eq_getElem?_getD, List.getD_eq_getElem?_getD, this]
  case mpr =>
    intro he
    apply List.ext_getElem
    · simp [h]
    · intro i h₁ h₂
      rw [List.length_take] at h₁ h₂
      have := he i (by omega)
      rw [List.getD_eq_getElem _ _ (by omega), List.getD_eq_getElem _ _ (by omega)] at this
      simpa using this

theorem getD_overwrite {bs w : List Bool} {n : Nat} (h : n + w.length ≤ bs.length) (i : Nat) :
    (overwrite bs n w).getD i false =
      if n ≤ i ∧ i < n + w.length then w.getD (i - n) false else bs.getD i false := by
  have hn : (bs.take n).length = n := List.length_take_of_le (by omega)
  have hw : (bs.take n ++ w).length = n + w.length := by rw [List.length_append, hn]
  unfold overwrite
  by_cases hi : i < n + w.length
  case neg =>
    rw [if_neg fun h => hi h.2, List.getD_append_right _ _ _ _ (by omega), hw]
    simp only [List.getD_eq_getElem?_getD, List.getElem?_drop]
    congr 2
    omega
  case pos =>
    rw [List.getD_append _ _ _ _ (by omega)]
    by_cases hi' : n ≤ i
    case pos => rw [if_pos ⟨hi', hi⟩, List.getD_append_right _ _ _ _ (by omega), hn]
    case neg =>
      rw [if_neg fun h => hi' h.1, List.getD_append _ _ _ _ (by omega)]
      simp only [List.getD_eq_getElem?_getD, List.getElem?_take, if_pos (Nat.lt_of_not_le hi')]

end

theorem bitAt_bytes [BitSliceMut B] [LawfulBitSliceMut B] {xs : List UInt8} {b b' : B}
    {u : List Bool} (hb : image b = Bits.ofBytes xs) (h : Produces b u b') (i : Nat) :
    bitAt (BitSliceMut.bytes b') i = if filled b ≤ i ∧ i < BitBufMut.len b' then
      u.getD (i - filled b) false else bitAt xs i := by
  have hf := h.fits
  rw [hb] at hf
  unfold bitAt
  rw [BitSliceMut.ofBytes_bytes hb h, getD_overwrite hf, LawfulBitBufMut.len_eq, h.filled_eq]

-- A bit in the buffers of a new and of a reused writer: it belongs to the item, or in the new one it
-- is 0 and in the reused one it is still a bit of the old buffer.
inductive Remains (old : Nat → Bool) (x y : Bool) : Option Nat → Prop
  | none : y = x → Remains old x y none
  | some {q : Nat} : x = false → y = old q → Remains old x y (some q)

theorem Remains.eq_iff {old : Nat → Bool} {x y : Bool} {o : Option Nat} (h : Remains old x y o) :
    y = x ↔ ∀ q ∈ o, old q = false := by
  cases h
  case none h    => simp [h]
  case some hx h => simp [hx, h]

namespace AsyncWriter

variable {w : MinCodecWrite Ctx B U} {this that : AsyncWriter w}

theorem divide_whole (h : this.cursor % 8 = 0 ∨ this.done) :
    this.divide = .ok (0, { this with cursor := (this.cursor + 7) / 8 }) := by
  unfold divide
  by_cases hm : this.cursor % 8 = 0
  case pos =>
    have hc : this.cursor / 8 = (this.cursor + 7) / 8 := by omega
    simp only [if_pos hm, hc]
  case neg =>
    have hd := h.resolve_left hm
    have hc : this.cursor / 8 + 1 = (this.cursor + 7) / 8 := by omega
    simp only [if_neg hm, if_pos hd, hc]

theorem divide_carry (h : ¬(this.cursor % 8 = 0 ∨ this.done)) {l : UInt8}
    (hl : this.buffer[this.cursor / 8 + 1]? = some l) :
    this.divide = .ok (l, { this with cursor := this.cursor / 8 }) := by
  obtain ⟨hm, hd⟩ := not_or.mp h
  unfold divide
  simp only [if_neg hm, if_neg hd, hl]

theorem divide_ok {l : UInt8} (hd : this.divide = .ok (l, that)) :
    (this.cursor % 8 = 0 ∨ this.done) ∧ l = 0 ∧
      that = { this with cursor := (this.cursor + 7) / 8 } ∨
    ¬(this.cursor % 8 = 0 ∨ this.done) ∧ this.buffer[this.cursor / 8 + 1]? = some l ∧
      that = { this with cursor := this.cursor / 8 } := by
  by_cases hw : this.cursor % 8 = 0 ∨ this.done
  case pos =>
    rw [divide_whole hw] at hd
    cases hd
    exact .inl ⟨hw, rfl, rfl⟩
  case neg =>
    obtain ⟨hm, hn⟩ := not_or.mp hw
    cases hb : this.buffer[this.cursor / 8 + 1]?
    case none   => simp [divide, hm, hn, hb] at hd
    case some m =>
      rw [divide_carry hw hb] at hd
      cases hd
      exact .inr ⟨hw, rfl, rfl⟩

variable [BitSliceMut B]

theorem turn_inFull (hs : this.state = .writing) {l : UInt8} {k : Nat}
    (hd : this.divide = .ok (l, { this with cursor := k })) (hl : k ≤ this.buffer.length) (c : Ctx) :
    this.turn c this.inFull = if this.done then
      (.ret (.ready (.ok ())), { this with cursor := 0, state := .complete })
    else
      (.next, { this with
        cursor := this.cursor % 8, buffer := this.buffer.set 0 l, state := .serialize }) := by
  unfold turn inFull
  simp only [hs, turnWriting, hd, if_pos hl, answered, wrote, length_offered hd hl, le_refl, if_true, Nat.sub_self]

theorem exists_divide (hs : this.state = .writing) {c : Ctx}
    (hp : ¬(this.turn c this.inFull).1.Panics) :
    ∃ l k, this.divide = .ok (l, { this with cursor := k }) ∧ k ≤ this.buffer.length := by
  by_cases h : this.cursor % 8 = 0 ∨ this.done
  case pos =>
    have hd := divide_whole h
    refine ⟨_, _, hd, ?_⟩
    by_contra hl
    simp [turn, hs, turnWriting, hd, hl, Flow.Panics] at hp
  case neg =>
    cases hb : this.buffer[this.cursor / 8 + 1]?
    case none =>
      obtain ⟨hm, hd⟩ := not_or.mp h
      simp [turn, hs, turnWriting, divide, hm, hd, hb, Flow.Panics] at hp
    case some l =>
      have hd := divide_carry h hb
      obtain ⟨hl, _⟩ := List.getElem?_eq_some_iff.mp hb
      exact ⟨_, _, hd, by omega⟩

theorem turnLeft_serialize (hs : this.state = .serialize) {b : B}
    (hb : BitSliceMut.advance this.cursor (BitSliceMut.new this.buffer) = some b) (c : Ctx)
    (left : Nat → Option Nat) (i : Nat) : this.turnLeft c left i =
      if this.cursor ≤ i ∧ i < BitBufMut.len (this.poll c b).buf then none else left i := by
  simp only [turnLeft, hs, hb]

theorem turnLeft_writing (hs : this.state = .writing) (c : Ctx) (left : Nat → Option Nat) (i : Nat) :
    this.turnLeft c left i = if this.done then left i else if i < 8 then
      (if this.cursor % 8 = 0 then none else left (8 * (this.cursor / 8 + 1) + i)) else left i := by
  simp only [turnLeft, hs]
  split <;> rfl

theorem send_cons {c : Ctx} {cs : List Ctx} {bytes : List UInt8}
    (h : this.send (c :: cs) = some bytes) : ¬(this.turn c this.inFull).1.Panics ∧
      ∃ rest, (this.turn c this.inFull).2.send cs = some rest ∧
        bytes = this.accepts this.inFull ++ rest := by
  unfold send at h
  split at h
  case isTrue     => cases h
  case isFalse hp =>
    obtain ⟨rest, hr, rfl⟩ := Option.map_eq_some_iff.mp h
    exact ⟨hp, rest, hr, rfl⟩

omit [BitSliceMut B] in
theorem accepts_inFull (hs : this.state = .writing) : this.accepts this.inFull = this.offered := by
  simp only [accepts, hs, inFull, List.take_length]

variable [LawfulBitSliceMut B]

-- A new writer, and one that is reused for the same item. Before the item its buffer was `old`.
structure Beside (left : Nat → Option Nat) (old : Nat → Bool) (this that : AsyncWriter w) :
    Prop where
  cursor_eq  : that.cursor = this.cursor
  done_eq    : that.done = this.done
  state_eq   : that.state = this.state
  low        : this.state = .serialize → this.cursor < 8
  length_eq  : this.buffer.length = asyncWriterBufSize
  length_eq' : that.buffer.length = asyncWriterBufSize
  alike      : Alike True (fun _ => True) w.pollSerialize this.serializer that.serializer
  held i     : Remains old (bitAt this.buffer i) (bitAt that.buffer i) (left i)

namespace Beside

variable {left : Nat → Option Nat} {old : Nat → Bool}

theorem turn_serialize (h : Beside left old this that) (hs : this.state = .serialize) (c : Ctx) :
    (that.turn c that.inFull).1 = (this.turn c this.inFull).1 ∧
    Beside (this.turnLeft c left) old (this.turn c this.inFull).2 (that.turn c that.inFull).2 := by
  have hc := h.low hs
  have ⟨b, hb, hi, hf⟩ := BitSliceMut.exists_window (B := B) this.buffer (n := this.cursor)
    (by rw [h.length_eq]; unfold asyncWriterBufSize; omega)
  have ⟨b', hb', hi', hf'⟩ := BitSliceMut.exists_window (B := B) that.buffer (n := that.cursor)
    (by rw [h.length_eq', h.cursor_eq]; unfold asyncWriterBufSize; omega)
  have hl : Level b b' := by
    refine ⟨by rw [hf, hf', h.cursor_eq], ?_⟩
    rw [hi, hi', Bits.length_ofBytes, Bits.length_ofBytes, h.length_eq, h.length_eq']
  have ht : Twins _ _ _ b b' (this.poll c b) (that.poll c b') := h.alike.twins c hl
  obtain ⟨u, hu, hu'⟩ := ht.exists_produces
  have hlen : BitBufMut.len (that.poll c b').buf = BitBufMut.len (this.poll c b).buf := by
    rw [LawfulBitBufMut.len_eq, LawfulBitBufMut.len_eq, (ht.level hl).filled_eq]
  have held (i : Nat) : Remains old (bitAt (BitSliceMut.bytes (this.poll c b).buf) i)
      (bitAt (BitSliceMut.bytes (that.poll c b').buf) i) (this.turnLeft c left i) := by
    rw [bitAt_bytes hi hu, bitAt_bytes hi' hu', hlen, hf, hf', h.cursor_eq, turnLeft_serialize hs hb]
    split
    case isTrue  => exact .none rfl
    case isFalse => exact h.held i
  have next (cursor : Nat) (done : Bool) (state : AsyncWriterState)
      (hc : state = .serialize → cursor < 8) : Beside (this.turnLeft c left) old
        ⟨BitSliceMut.bytes (this.poll c b).buf, (this.poll c b).state, cursor, done, state⟩
        ⟨BitSliceMut.bytes (that.poll c b').buf, (that.poll c b').state, cursor, done, state⟩ :=
    ⟨rfl, rfl, rfl, hc, (BitSliceMut.length_bytes hi hu).trans h.length_eq,
      (BitSliceMut.length_bytes hi' hu').trans h.length_eq', ht.related, held⟩
  have ho := ht.outcome_eq
  rw [AsyncWriter.turn_serialize hs hb ⟨c, this.inFull⟩,
    AsyncWriter.turn_serialize (h.state_eq.trans hs) hb' ⟨c, that.inFull⟩]
  unfold serialized
  simp only [ho, hlen, h.cursor_eq, h.done_eq, h.state_eq, hs]
  split
  case h_1 => exact ⟨rfl, next _ _ _ fun _ => hc⟩
  case h_5 => exact ⟨rfl, next _ _ _ fun _ => hc⟩
  all_goals exact ⟨rfl, next _ _ _ nofun⟩

theorem divide (h : Beside left old this that) {l : UInt8} {k : Nat}
    (hd : this.divide = .ok (l, { this with cursor := k })) :
    ∃ l', that.divide = .ok (l', { that with cursor := k }) ∧ (¬this.done → ∀ i < 8,
      Remains old ((Bits.ofByte l).getD i false) ((Bits.ofByte l').getD i false)
        (if this.cursor % 8 = 0 then none else left (8 * (this.cursor / 8 + 1) + i))) := by
  obtain ⟨hw, rfl, hk⟩ | ⟨hw, hb, hk⟩ := divide_ok hd
  case inl =>
    obtain rfl : k = (this.cursor + 7) / 8 := congrArg cursor hk
    refine ⟨0, ?_, fun hn i _ => ?_⟩
    · rw [divide_whole (by rwa [h.cursor_eq, h.done_eq]), h.cursor_eq]
    · rw [if_pos (hw.resolve_right hn)]
      exact .none rfl
  case inr =>
    obtain rfl : k = this.cursor / 8 := congrArg cursor hk
    obtain ⟨hl, _⟩ := List.getElem?_eq_some_iff.mp hb
    obtain ⟨l', hb'⟩ : ∃ l', that.buffer[this.cursor / 8 + 1]? = some l' :=
      ⟨_, List.getElem?_eq_getElem (by rw [h.length_eq', ← h.length_eq]; exact hl)⟩
    have hd' : that.divide = .ok (l', { that with cursor := that.cursor / 8 }) :=
      divide_carry (by rwa [h.cursor_eq, h.done_eq]) (by rwa [h.cursor_eq])
    refine ⟨l', by rw [hd', h.cursor_eq], fun _ i hi => ?_⟩
    rw [if_neg (not_or.mp hw).1, ← bitAt_of_getElem? hb hi, ← bitAt_of_getElem? hb' hi]
    exact h.held _

theorem turn_writing (h : Beside left old this that) (hs : this.state = .writing) {c : Ctx}
    (hp : ¬(this.turn c this.inFull).1.Panics) :
    (that.turn c that.inFull).1 = (this.turn c this.inFull).1 ∧
    Beside (this.turnLeft c left) old (this.turn c this.inFull).2 (that.turn c that.inFull).2 := by
  obtain ⟨l, k, hd, hk⟩ := exists_divide hs hp
  obtain ⟨l', hd', hl⟩ := h.divide hd
  have hk' : k ≤ that.buffer.length := by rwa [h.length_eq', ← h.length_eq]
  rw [turn_inFull hs hd hk, turn_inFull (h.state_eq.trans hs) hd' hk', h.done_eq, h.cursor_eq]
  have hpos : 0 < asyncWriterBufSize := by decide
  by_cases hn : this.done
  case pos =>
    rw [if_pos hn, if_pos hn]
    refine ⟨rfl, rfl, rfl, rfl, nofun, h.length_eq, h.length_eq', h.alike, fun i => ?_⟩
    rw [turnLeft_writing hs, if_pos hn]
    exact h.held i
  case neg =>
    rw [if_neg hn, if_neg hn]
    refine ⟨rfl, rfl, rfl, rfl, fun _ => Nat.mod_lt _ (by decide), ?_, ?_, h.alike, fun i => ?_⟩
    · rw [List.length_set, h.length_eq]
    · rw [List.length_set, h.length_eq']
    · rw [bitAt_set (by rw [h.length_eq]; exact hpos), bitAt_set (by rw [h.length_eq']; exact hpos),
        turnLeft_writing hs, if_neg hn]
      split
      case isTrue hi  => exact hl hn i hi
      case isFalse hi => exact h.held i

theorem turn_beside (h : Beside left old this that) {c : Ctx}
    (hp : ¬(this.turn c this.inFull).1.Panics) :
    (that.turn c that.inFull).1 = (this.turn c this.inFull).1 ∧
    Beside (this.turnLeft c left) old (this.turn c this.inFull).2 (that.turn c that.inFull).2 := by
  cases hs : this.state
  case serialize => exact h.turn_serialize hs c
  case writing   => exact h.turn_writing hs hp
  case complete  => simp [turn, hs, Flow.Panics] at hp

theorem accepts_eq_iff (h : Beside left old this that) {c : Ctx}
    (hp : ¬(this.turn c this.inFull).1.Panics) :
    (that.accepts that.inFull).length = (this.accepts this.inFull).length ∧
    (that.accepts that.inFull = this.accepts this.inFull ↔
      ∀ q ∈ (List.range (8 * (this.accepts this.inFull).length)).filterMap left, old q = false) := by
  cases hs : this.state
  case serialize => simp [accepts, hs, h.state_eq]
  case complete  => simp [accepts, hs, h.state_eq]
  case writing   =>
    obtain ⟨l, k, hd, hk⟩ := exists_divide hs hp
    obtain ⟨l', hd', _⟩ := h.divide hd
    have hl : that.buffer.length = this.buffer.length := h.length_eq'.trans h.length_eq.symm
    have ho := offered_of_divide hd
    have ho' := offered_of_divide hd'
    rw [accepts_inFull hs, accepts_inFull (h.state_eq.trans hs), ho, ho', List.length_take_of_le hk,
      List.length_take_of_le (hl ▸ hk), take_eq_iff hl]
    refine ⟨rfl, ?_⟩
    simp only [(h.held _).eq_iff, List.mem_filterMap, List.mem_range]
    constructor
    case mp =>
      rintro hq q ⟨i, hi, hl⟩
      exact hq i hi q hl
    case mpr => exact fun hq i hi q hl => hq q ⟨i, hi, hl⟩

theorem send_eq_iff (h : Beside left old this that) {cs : List Ctx} {bytes : List UInt8}
    (hb : this.send cs = some bytes) : ∃ bytes', that.send cs = some bytes' ∧
      bytes'.length = bytes.length ∧
      (bytes' = bytes ↔ ∀ q ∈ this.exposed left cs, old q = false) := by
  induction cs generalizing this that left bytes
  case nil =>
    unfold send at hb ⊢
    have hd : that.isDone = this.isDone := by simp only [isDone, h.state_eq]
    split at hb
    case isFalse hi => cases hb
    case isTrue hi  =>
      cases hb
      exact ⟨[], by rw [if_pos (hd.trans hi)], rfl, by simp [exposed]⟩
  case cons c cs hi =>
    obtain ⟨hp, rest, hr, rfl⟩ := send_cons hb
    obtain ⟨hf, hn⟩ := h.turn_beside hp
    obtain ⟨hl, ha⟩ := h.accepts_eq_iff hp
    obtain ⟨rest', hr', hlen, he⟩ := hi hn hr
    refine ⟨that.accepts that.inFull ++ rest', ?_, by simp [hl, hlen], ?_⟩
    · rw [send, hf, if_neg hp, hr', Option.map_some]
    · unfold exposed
      rw [List.forall_mem_append, ← ha, ← he]
      constructor
      case mp  => exact fun h => List.append_inj h hl
      case mpr =>
        rintro ⟨h, h'⟩
        rw [h, h']

end Beside

-- What holds of a writer whatever its owner and the transport do.
structure Reusable (this : AsyncWriter w) : Prop where
  length_eq : this.buffer.length = asyncWriterBufSize
  low       : this.state = .serialize → this.cursor < 8
  cursor_eq : this.state = .complete → this.cursor = 0
  alike     : Alike True (fun _ => True) w.pollSerialize this.serializer this.serializer

namespace Reusable

theorem exists_window (h : this.Reusable) (hs : this.state = .serialize) : ∃ b : B,
    BitSliceMut.advance this.cursor (BitSliceMut.new this.buffer) = some b ∧
      image b = Bits.ofBytes this.buffer ∧ filled b = this.cursor := by
  have hc := h.low hs
  apply BitSliceMut.exists_window
  rw [h.length_eq]
  unfold asyncWriterBufSize
  omega

theorem turn_serialize (h : this.Reusable) (hs : this.state = .serialize) (m : WriteMoment Ctx E) :
    (this.turn m.ctx m.write).2.Reusable := by
  have hc := h.low hs
  have ⟨b, hb, hi, _⟩ := h.exists_window hs
  have ht : Twins _ _ _ b b (this.poll m.ctx b) (this.poll m.ctx b) := h.alike.twins m.ctx (.refl b)
  obtain ⟨u, hu, _⟩ := ht.exists_produces
  have hl := (BitSliceMut.length_bytes hi hu).trans h.length_eq
  rw [AsyncWriter.turn_serialize hs hb]
  unfold serialized
  split
  case h_1 => exact ⟨hl, fun _ => hc, by simp [hs], ht.related⟩
  case h_5 => exact ⟨hl, fun _ => hc, by simp [hs], ht.related⟩
  all_goals exact ⟨hl, nofun, nofun, ht.related⟩

theorem answered (h : this.Reusable) (hs : this.state = .writing) {re : Nat} (hr : re < 8) (l : UInt8)
    (write : Poll (Except E Nat)) : (this.answered re l write).2.Reusable := by
  unfold AsyncWriter.answered
  split
  case h_2 size =>
    unfold wrote
    split
    case isFalse => exact h
    case isTrue  =>
      simp only
      split
      case isFalse => exact ⟨h.length_eq, by simp [hs], by simp [hs], h.alike⟩
      case isTrue hc =>
        split
        case isTrue  => exact ⟨h.length_eq, nofun, fun _ => hc, h.alike⟩
        case isFalse => exact ⟨by rw [List.length_set, h.length_eq], fun _ => hr, nofun, h.alike⟩
  all_goals exact h

theorem turn_writing (h : this.Reusable) (hs : this.state = .writing) (m : WriteMoment Ctx E) :
    (this.turn m.ctx m.write).2.Reusable := by
  unfold turn turnWriting
  simp only [hs]
  split
  case h_1 => exact h
  case h_2 hd =>
    have cut (cursor : Nat) : Reusable { this with cursor } :=
      ⟨h.length_eq, by simp [hs], by simp [hs], h.alike⟩
    have hm : this.cursor % 8 < 8 := Nat.mod_lt _ (by decide)
    have cut' (cursor : Nat) (l : UInt8) :
        ({ this with cursor }.answered (this.cursor % 8) l m.write).2.Reusable :=
      (cut cursor).answered hs hm l m.write
    obtain ⟨_, rfl, rfl⟩ | ⟨_, _, rfl⟩ := divide_ok hd
    all_goals
      split
      case isTrue  => exact cut' _ _
      case isFalse => exact cut _

theorem turn (h : this.Reusable) (m : WriteMoment Ctx E) :
    (this.turn m.ctx m.write).2.Reusable := by
  cases hs : this.state
  case serialize => exact h.turn_serialize hs m
  case writing   => exact h.turn_writing hs m
  case complete  =>
    unfold AsyncWriter.turn
    simp only [hs]
    exact h

theorem reset (h : this.Reusable) (hw : w.Blind True fun _ => True) {item : U}
    (hr : this.reset item = some that) : that.Reusable := by
  unfold AsyncWriter.reset at hr
  split at hr
  case h_2    => cases hr
  case h_1 hs =>
    cases hr
    exact ⟨h.length_eq, fun _ => by simp [h.cursor_eq hs], nofun, hw item⟩

theorem calls (h : this.Reusable) (hw : w.Blind True fun _ => True)
    (history : List (WriterCall Ctx E U)) : (this.calls history).Reusable := by
  induction history generalizing this
  case nil             => exact h
  case cons call _ hi =>
    cases call
    case turn m     => exact hi (h.turn m)
    case reset item =>
      cases hr : this.reset item
      case none =>
        rw [AsyncWriter.calls, hr]
        exact hi h
      case some =>
        rw [AsyncWriter.calls, hr]
        exact hi (h.reset hw hr)

theorem new (hw : w.Blind True fun _ => True) (item : U) : (new w item).Reusable :=
  ⟨List.length_replicate, fun _ => Nat.zero_lt_succ 7, nofun, hw item⟩

theorem complete (hw : w.Blind True fun _ => True) (item : U) : (complete w item).Reusable :=
  ⟨List.length_replicate, nofun, fun _ => rfl, hw item⟩

theorem beside (h : this.Reusable) (hw : w.Blind True fun _ => True) {item : U}
    (hr : this.reset item = some that) :
    Beside some (bitAt this.buffer) (AsyncWriter.new w item) that := by
  unfold AsyncWriter.reset at hr
  split at hr
  case h_2    => cases hr
  case h_1 hs =>
    cases hr
    exact ⟨h.cursor_eq hs, rfl, rfl, fun _ => Nat.zero_lt_succ 7, List.length_replicate, h.length_eq,
      hw item, fun i => .some (bitAt_replicate _ i) rfl⟩

end Reusable

omit [BitSliceMut B] [LawfulBitSliceMut B] in
theorem length_accepts_le (this : AsyncWriter w) (write : Poll (Except E Nat)) :
    (this.accepts write).length ≤ this.buffer.length := by
  unfold accepts offered
  split
  case h_2 => exact Nat.zero_le _
  case h_1 =>
    split
    case h_2    => simp
    case h_1 hd =>
      obtain ⟨_, _, rfl⟩ | ⟨_, _, rfl⟩ := divide_ok hd
      all_goals simp only [List.length_take]; omega

theorem turnLeft_eq_none (h : this.Reusable) {left : Nat → Option Nat}
    (hl : ∀ i < 8 * asyncWriterBufSize, left i = none) {c : Ctx}
    (hp : ¬(this.turn c this.inFull).1.Panics) {i : Nat} (hi : i < 8 * asyncWriterBufSize) :
    this.turnLeft c left i = none := by
  cases hs : this.state
  case complete  => simp only [turnLeft, hs, hl i hi]
  case serialize =>
    have ⟨b, hb, _⟩ := h.exists_window hs
    rw [turnLeft_serialize hs hb, hl i hi, ite_self]
  case writing   =>
    rw [turnLeft_writing hs, hl i hi, ite_eq_left_iff]
    intro hn
    rw [ite_eq_right_iff]
    intro h8
    rw [ite_eq_left_iff]
    intro hm
    obtain ⟨l, k, hd, _⟩ := exists_divide hs hp
    obtain ⟨hw, _⟩ | ⟨_, hb, _⟩ := divide_ok hd
    case inl => exact absurd hw (not_or.mpr ⟨hm, hn⟩)
    case inr =>
      obtain ⟨hlen, _⟩ := List.getElem?_eq_some_iff.mp hb
      rw [h.length_eq] at hlen
      exact hl _ (by omega)

theorem exposed_eq_nil (h : this.Reusable) {left : Nat → Option Nat}
    (hl : ∀ i < 8 * asyncWriterBufSize, left i = none) {cs : List Ctx} {bytes : List UInt8}
    (hb : this.send cs = some bytes) : this.exposed left cs = [] := by
  induction cs generalizing this left bytes
  case nil          => rfl
  case cons c cs hi =>
    obtain ⟨hp, rest, hr, _⟩ := send_cons hb
    have hn := hi (h.turn ⟨c, this.inFull⟩) (fun i hi => turnLeft_eq_none h hl hp hi) hr
    rw [exposed, hn, List.append_nil, List.filterMap_eq_nil_iff]
    intro i hi
    have := this.length_accepts_le this.inFull
    rw [h.length_eq] at this
    exact hl i (by have := List.mem_range.mp hi; omega)

omit [LawfulBitSliceMut B] in
theorem eq_nil_of_complete (hs : this.state = .complete) {cs : List Ctx}
    {bytes : List UInt8} (hb : this.send cs = some bytes) : cs = [] := by
  cases cs
  case nil       => rfl
  case cons c cs =>
    have hp := (send_cons hb).1
    simp [turn, hs, Flow.Panics] at hp

omit [LawfulBitSliceMut B] in
theorem exposed_done (hs : this.state = .writing) (hd : this.done)
    {left : Nat → Option Nat} {cs : List Ctx} {bytes : List UInt8} (hb : this.send cs = some bytes) :
    this.exposed left cs = (List.range (8 * ((this.cursor + 7) / 8))).filterMap left := by
  cases cs
  case nil       => simp [send, isDone, hs] at hb
  case cons c cs =>
    obtain ⟨hp, rest, hr, _⟩ := send_cons hb
    have hdiv := divide_whole (.inr hd : this.cursor % 8 = 0 ∨ this.done)
    obtain ⟨l, k, hd', hk⟩ := exists_divide hs hp
    rw [hdiv] at hd'
    obtain ⟨rfl, hk'⟩ := Prod.mk.inj (Except.ok.inj hd')
    obtain rfl : (this.cursor + 7) / 8 = k := congrArg cursor hk'
    have ho := length_offered hdiv hk
    have ht := turn_inFull hs hdiv hk c
    rw [if_pos hd] at ht
    rw [ht] at hr
    obtain rfl := eq_nil_of_complete rfl hr
    rw [exposed, exposed, List.append_nil, accepts_inFull hs, ho]

omit [LawfulBitSliceMut B] in
theorem mem_padding {item : U} {c : Ctx} {b : B}
    (hb : BitSliceMut.advance 0 (BitSliceMut.new (.replicate asyncWriterBufSize 0)) = some b) {n : Nat}
    (hn : BitBufMut.len (w.pollSerialize c (w.serialize item) b).buf = n) (q : Nat) :
    q ∈ padding w item c ↔ n ≤ q ∧ q < 8 * ((n + 7) / 8) := by
  unfold padding
  simp only [hb, hn, List.mem_range'_1]
  omega

omit [LawfulBitSliceMut B] in
theorem serialized_ready (this : AsyncWriter w) {x : Polled w.Serialize B (Except w.Error Unit)}
    {r : Except w.Error Unit} (ho : x.outcome = .ready r) :
      (this.serialized (E := E) x).2.state = .writing ∧
      (this.serialized (E := E) x).2.done ∧
      (this.serialized (E := E) x).2.cursor = this.cursor + BitBufMut.len x.buf := by
  cases r
  case error => simp [serialized, ho]
  case ok    => simp [serialized, ho]

theorem mem_behind (n k q : Nat) :
    q ∈ (List.range k).filterMap (fun i => if i < n then none else some i) ↔ n ≤ q ∧ q < k := by
  rw [List.mem_filterMap]
  constructor
  case mp  =>
    rintro ⟨i, hi, hq⟩
    split at hq
    case isTrue  => cases hq
    case isFalse h =>
      cases hq
      exact ⟨Nat.le_of_not_lt h, List.mem_range.mp hi⟩
  case mpr =>
    rintro ⟨hn, hq⟩
    exact ⟨q, List.mem_range.mpr hq, if_neg (Nat.not_lt.mpr hn)⟩

omit [LawfulBitSliceMut B] in
theorem exposed_new {item : U} {b : B} {n : Nat}
    (hb : BitSliceMut.advance (new w item).cursor (BitSliceMut.new (new w item).buffer) = some b) {c : Ctx}
    (hn : BitBufMut.len ((new w item).poll c b).buf = n) (cs : List Ctx) :
    (new w item).exposed some (c :: cs) =
      ((new w item).turn c (new w item).inFull).2.exposed
        (fun i => if i < n then none else some i) cs := by
  have hl : (new w item).turnLeft c some = fun i => if i < n then none else some i := by
    funext i
    rw [turnLeft_serialize rfl hb, hn]
    simp [new]
  rw [exposed, hl]
  rfl

-- If the serializer is never pending and fills the buffer before it is out of room, what is sent of
-- the old buffer is the padding of an item that fits into the first buffer.
theorem mem_exposed_iff (hw : w.Blind False Full) {item : U} {c : Ctx} {cs : List Ctx}
    {bytes : List UInt8} (hb : (new w item).send (c :: cs) = some bytes) (q : Nat) :
    q ∈ (new w item).exposed some (c :: cs) ↔ q ∈ padding w item c := by
  have hn : (new w item).Reusable := .new (fun v => (hw v).mono False.elim fun _ _ => trivial) item
  have ⟨b, hb', hi, hf⟩ := BitSliceMut.exists_window (B := B) (.replicate asyncWriterBufSize 0)
    (Nat.zero_le _)
  have hb₀ : BitSliceMut.advance (new w item).cursor (BitSliceMut.new (new w item).buffer) = some b :=
    hb'
  have ht : Twins _ _ _ b b ((new w item).poll c b) ((new w item).poll c b) :=
    (hw item).twins c (.refl b)
  obtain ⟨u, hu, _⟩ := ht.exists_produces
  have hlen : BitBufMut.len ((new w item).poll c b).buf = u.length := by
    rw [LawfulBitBufMut.len_eq, hu.filled_eq, hf, Nat.zero_add]
  obtain ⟨hp, rest, hr, _⟩ := send_cons hb
  have hnext := hn.turn ⟨c, (new w item).inFull⟩
  rw [exposed_new hb₀ hlen, mem_padding hb' hlen]
  have hs := AsyncWriter.turn_serialize rfl hb₀ ⟨c, (new w item).inFull⟩
  simp only at hs hnext
  rw [hs] at hp hr hnext ⊢
  cases ho : ((new w item).poll c b).outcome
  case pending      => exact (ht.wait ho).elim
  case panicked m   => simp [serialized, ho, Flow.Panics] at hp
  case insufficient =>
    have hfull : u.length = 8 * asyncWriterBufSize := by
      have := hu.room_eq
      rw [show room _ = 0 from ht.stop ho, room, hi, hf, Bits.length_ofBytes,
        List.length_replicate] at this
      omega
    rw [exposed_eq_nil hnext (fun i hi => if_pos (hfull ▸ hi)) hr, hfull]
    simp only [List.not_mem_nil, false_iff]
    omega
  case ready r      =>
    obtain ⟨hw', hd, hc⟩ := serialized_ready (new w item) ho
    rw [exposed_done hw' hd hr, hc, hlen, mem_behind]
    simp only [new, Nat.zero_add]

end AsyncWriter

section

open AsyncWriter

variable [BitSliceMut B] [LawfulBitSliceMut B] {w : MinCodecWrite Ctx B U}
variable {start writer : AsyncWriter w} {first item : U} {history : List (WriterCall Ctx E U)}

theorem reusable_calls (hw : w.Blind True fun _ => True)
    (hs : start = .new w first ∨ start = .complete w first) (history : List (WriterCall Ctx E U)) :
    (start.calls history).Reusable := by
  obtain rfl | rfl := hs
  case inl => exact (Reusable.new hw first).calls hw history
  case inr => exact (Reusable.complete hw first).calls hw history

-- A writer that is reset, after any items and any calls before that, sends the same bytes for the next
-- item as a new one if and only if the bits are 0 that the items before have left in its buffer and
-- that are sent with the item although it has not written them. If its serializer is never pending and
-- fills the buffer before it is out of room, these are the bits behind its last one in the last byte.
theorem asyncWriter_resends_iff (hw : w.Blind True fun _ => True)
    (hs : start = .new w first ∨ start = .complete w first)
    (hr : (start.calls history).reset item = some writer) {c : Ctx} {cs : List Ctx}
    {bytes : List UInt8} (hb : (AsyncWriter.new w item).send (c :: cs) = some bytes) :
    ∃ bytes', writer.send (c :: cs) = some bytes' ∧ bytes'.length = bytes.length ∧
      (bytes' = bytes ↔ ∀ q ∈ (AsyncWriter.new w item).exposed some (c :: cs),
        bitAt (start.calls history).buffer q = false) ∧
      (w.Blind False Full → (bytes' = bytes ↔ ∀ q ∈ padding w item c,
        bitAt (start.calls history).buffer q = false)) := by
  obtain ⟨bytes', hb', hl, hi⟩ := ((reusable_calls hw hs history).beside hw hr).send_eq_iff hb
  refine ⟨bytes', hb', hl, hi, fun hf => ?_⟩
  simp only [hi, mem_exposed_iff hf hb]

end

section

def maybeWrite : MinCodecWrite Unit SliceMut (Option Bool) :=
  Optional.optionWrite boolWrite

theorem maybeWrite_blind {Wait : Prop} {Stop : SliceMut → Prop} (hs : ∀ b, Full b → Stop b) :
    maybeWrite.Blind Wait Stop :=
  Optional.optionWrite_blind hs (boolWrite_blind hs)

def sentTrue : List (WriterCall Unit Empty (Option Bool)) :=
  [.turn (takes 0), .turn (takes 1)]

def newMaybe : AsyncWriter maybeWrite :=
  .new maybeWrite (some true)

def resetMaybe (item : Option Bool) : AsyncWriter maybeWrite :=
  { newMaybe.calls sentTrue with
    done := false, state := .serialize, serializer := maybeWrite.serialize item }

theorem resetMaybe_eq (item : Option Bool) :
    (newMaybe.calls sentTrue).reset item = some (resetMaybe item) := by
  have hs : (newMaybe.calls sentTrue).state = .complete := by decide +kernel
  simp only [AsyncWriter.reset, hs]
  rfl

theorem asyncWriter_resends_iff_maybe : ∃ bytes',
    (resetMaybe (some false)).send [(), ()] = some bytes' ∧
    bytes'.length = [(128 : UInt8)].length ∧
    (bytes' = [128] ↔ ∀ q ∈ (AsyncWriter.new maybeWrite (some false)).exposed some [(), ()],
      bitAt (newMaybe.calls sentTrue).buffer q = false) ∧
    (bytes' = [128] ↔ ∀ q ∈ AsyncWriter.padding maybeWrite (some false) (),
      bitAt (newMaybe.calls sentTrue).buffer q = false) := by
  have hb : (AsyncWriter.new maybeWrite (some false)).send [(), ()] = some [128] := by decide +kernel
  obtain ⟨bytes', hb', hl, hi, hf⟩ := asyncWriter_resends_iff (maybeWrite_blind fun _ _ => trivial)
    (.inl rfl) (resetMaybe_eq (some false)) hb
  exact ⟨bytes', hb', hl, hi, hf (maybeWrite_blind fun _ => id)⟩

-- `None` leaves the bit of `true` in the padding of its byte.
theorem asyncWriter_leaks :
    (newMaybe.calls sentTrue).reset none = some (resetMaybe none) ∧
    (AsyncWriter.new maybeWrite none).send [(), ()] = some [0] ∧
    (resetMaybe none).send [(), ()] = some [64] :=
  ⟨resetMaybe_eq none, by decide +kernel, by decide +kernel⟩

end

end Mincodec
