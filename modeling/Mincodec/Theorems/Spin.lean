import Mincodec.Theorems.AsyncReader
import Mincodec.Theorems.AsyncWriter
import Mincodec.Theorems.Items
import Mincodec.Theorems.Settles

-- A `poll` of an `AsyncWriter` whose transport takes nothing.
namespace Mincodec

open Stream BitSink

variable {Ctx B U E : Type}

namespace AsyncWriter

variable {w : MinCodecWrite Ctx B U} {this next : AsyncWriter w}

def divided (this : AsyncWriter w) : Nat :=
  if this.cursor % 8 ≠ 0 ∧ this.done then this.cursor / 8 + 1 else this.cursor / 8

theorem divide_cases (this : AsyncWriter w) : (∃ msg, this.divide = .error msg) ∨
    ∃ l, this.divide = .ok (l, { this with cursor := this.divided }) := by
  unfold divide divided
  by_cases hc : this.cursor % 8 = 0
  case pos => exact .inr ⟨0, by simp [hc]⟩
  case neg =>
    cases hd : this.done
    case true  => exact .inr ⟨0, by simp [hc]⟩
    case false =>
      cases hl : this.buffer[this.cursor / 8 + 1]?
      case none   =>
        exact .inl ⟨indexOutOfBounds (this.cursor / 8 + 1) this.buffer.length, by simp [hc, hl]⟩
      case some l => exact .inr ⟨l, by simp [hc, hl]⟩

inductive Wrote (this : AsyncWriter w) (size : Nat) : AsyncWriter w → Prop
  | rest {cursor : Nat} : cursor + size = this.divided → 0 < cursor →
    Wrote this size { this with cursor }
  | flushed {l : UInt8} : size = this.divided → this.done = false →
    Wrote this size
      { this with cursor := this.cursor % 8, buffer := this.buffer.set 0 l, state := .serialize }

theorem wrote_of_next {write : Poll (Except E Nat)} (h : this.turnWriting write = (.next, next)) :
    ∃ size, write = .ready (.ok size) ∧ this.Wrote size next := by
  unfold turnWriting at h
  cases this.divide_cases
  case inl hd =>
    obtain ⟨msg, hd⟩ := hd
    simp [hd] at h
  case inr hd =>
    obtain ⟨l, hd⟩ := hd
    simp only [hd] at h
    by_cases hl : this.divided ≤ this.buffer.length
    case neg => simp [hl] at h
    case pos =>
      simp only [hl, if_true, answered] at h
      cases write
      case pending | panicked msg => simp at h
      case ready r =>
        cases r
        case error e => simp at h
        case ok size =>
          refine ⟨size, rfl, ?_⟩
          simp only [wrote] at h
          by_cases hle : size ≤ this.divided
          case neg => simp [hle] at h
          case pos =>
            simp only [hle, if_true] at h
            by_cases hz : this.divided - size = 0
            case neg =>
              simp only [hz, if_false, Prod.mk.injEq, true_and] at h
              subst h
              have hsum : this.divided - size + size = this.divided := Nat.sub_add_cancel hle
              exact .rest hsum (Nat.pos_of_ne_zero hz)
            case pos =>
              by_cases hdone : this.done = true
              case pos => simp [hz, hdone] at h
              case neg =>
                rw [if_pos hz, if_neg hdone] at h
                cases h
                exact .flushed (Nat.le_antisymm hle (Nat.le_of_sub_eq_zero hz))
                  (Bool.eq_false_of_not_eq_true hdone)

-- The bytes that a `poll` has to do with. A serializer that is not done settles.
structure Working [BitSink B] (this : AsyncWriter w) : Prop where
  length_eq : this.buffer.length = asyncWriterBufSize
  cursor_lt : this.state ≠ .writing → this.cursor < 8
  not_done  : this.state = .serialize → this.done = false
  settles   : this.done = false → ∃ n, Settles w.pollSerialize n this.serializer

theorem working_of_writing [BitSink B] (hl : this.buffer.length = asyncWriterBufSize)
    (hs : this.state = .writing)
    (he : this.done = false → ∃ n, Settles w.pollSerialize n this.serializer) :
    this.Working where
  length_eq   := hl
  cursor_lt h := absurd hs h
  not_done h  := by
    rw [hs] at h
    cases h
  settles     := he

theorem turnWriting_keeps (hs : this.state = .writing) (write : Poll (Except E Nat)) :
    (this.turnWriting write).2.serializer = this.serializer ∧
      (this.turnWriting write).2.done = this.done ∧
      (this.turnWriting write).2.buffer.length = this.buffer.length ∧
      ((this.turnWriting write).2.state ≠ .writing → (this.turnWriting write).2.cursor < 8) ∧
      ((this.turnWriting write).2.state = .serialize → this.done = false) := by
  unfold turnWriting
  cases this.divide_cases
  case inl hd =>
    obtain ⟨msg, hd⟩ := hd
    simp [hd, hs]
  case inr hd =>
    obtain ⟨l, hd⟩ := hd
    simp only [hd]
    by_cases hl : this.divided ≤ this.buffer.length
    case neg => simp [hl, hs]
    case pos =>
      simp only [hl, if_true, answered]
      cases write
      case pending | panicked msg => simp [hs]
      case ready r =>
        cases r
        case error e => simp [hs]
        case ok size =>
          simp only [wrote]
          by_cases hle : size ≤ this.divided <;> by_cases hz : this.divided - size = 0 <;>
            cases this.done <;> simp [hle, hz, hs, Nat.mod_lt]

variable [BitSliceMut B] [LawfulBitSliceMut B]

theorem Working.exists_window (h : this.Working) (hs : this.state = .serialize) : ∃ b : B,
    BitSliceMut.advance this.cursor (BitSliceMut.new this.buffer) = some b ∧
      image b = Bits.ofBytes this.buffer ∧ filled b = this.cursor := by
  have hc := h.cursor_lt (by simp [hs])
  have hl : 8 ≤ 8 * asyncWriterBufSize := by decide
  apply BitSliceMut.exists_window
  rw [h.length_eq]
  omega

theorem Working.turn_serialize (h : this.Working) (hs : this.state = .serialize) {n : Nat}
    (hn : Settles w.pollSerialize n this.serializer) {ctx : Ctx} {write : Poll (Except E Nat)}
    (ht : this.turn ctx write = (.next, next)) :
    next.state = .writing ∧ next.buffer.length = asyncWriterBufSize ∧
      next.cursor < 8 + 8 * asyncWriterBufSize ∧ (next.done = true ∨ next.done = false ∧
        ∃ m < n, Settles w.pollSerialize m next.serializer) := by
  have ⟨b, hb, hib, hfb⟩ := h.exists_window hs
  have hc := h.cursor_lt (by simp [hs])
  have hd := h.not_done hs
  have ht : this.serialized (E := E) (this.poll ctx b) = (.next, next) := by
    rw [← ht, AsyncWriter.turn_serialize hs hb ⟨ctx, write⟩]
  have hx : Closer _ n b (this.poll ctx b) := hn.closer ctx b
  have ⟨u, hw⟩ := hx.exists_produces
  have hlen : (BitSliceMut.bytes (this.poll ctx b).buf).length = asyncWriterBufSize :=
    (BitSliceMut.length_bytes hib hw).trans h.length_eq
  have hfits := hw.fits
  rw [hib, Bits.length_ofBytes, h.length_eq, hfb] at hfits
  have hcur : this.cursor + BitBufMut.len (this.poll ctx b).buf < 8 + 8 * asyncWriterBufSize := by
    rw [LawfulBitBufMut.len_eq, hw.filled_eq, hfb]
    omega
  unfold serialized at ht
  match ho : (this.poll ctx b).outcome with
  | .pending | .panicked msg | .ready (.error e) => simp [ho] at ht
  | .ready (.ok ())                              =>
    simp only [ho, Prod.mk.injEq, true_and] at ht
    subst ht
    exact ⟨rfl, hlen, hcur, .inl rfl⟩
  | .insufficient                                =>
    have ⟨m, hm, _, hlt⟩ := hx.of_insufficient ho
    simp only [ho, Prod.mk.injEq, true_and] at ht
    subst ht
    have hroom : 0 < room b := by
      have hpos : 8 ≤ 8 * asyncWriterBufSize := by decide
      rw [room, hib, hfb, Bits.length_ofBytes, h.length_eq]
      omega
    exact ⟨rfl, hlen, hcur, .inr ⟨hd, m, hlt hroom, hm⟩⟩

theorem Working.turn (h : this.Working) (m : WriteMoment Ctx E)
    (hp : ¬(this.turn m.ctx m.write).1.Panics) : (this.turn m.ctx m.write).2.Working := by
  cases hs : this.state
  case complete  => simp [AsyncWriter.turn, hs, Flow.Panics] at hp
  case writing   =>
    have ht : this.turn m.ctx m.write = this.turnWriting m.write := by
      simp only [AsyncWriter.turn, hs]
    obtain ⟨hser, hd, hl, hc, hd'⟩ := turnWriting_keeps hs m.write
    rw [ht]
    exact
      { length_eq   := hl.trans h.length_eq
        cursor_lt   := hc
        not_done h' := hd ▸ hd' h'
        settles h'  := hser ▸ h.settles (hd ▸ h') }
  case serialize =>
    obtain ⟨b, hb, hib, _⟩ := h.exists_window hs
    have hc := h.cursor_lt (by simp [hs])
    have hd := h.not_done hs
    obtain ⟨n, hn⟩ := h.settles hd
    have hx : Closer _ n b (this.poll m.ctx b) := hn.closer m.ctx b
    obtain ⟨u, hw⟩ := hx.exists_produces
    have hlen : (BitSliceMut.bytes (this.poll m.ctx b).buf).length = asyncWriterBufSize :=
      (BitSliceMut.length_bytes hib hw).trans h.length_eq
    rw [AsyncWriter.turn_serialize hs hb] at hp ⊢
    cases ho : (this.poll m.ctx b).outcome
    case panicked msg => simp [serialized, ho, Flow.Panics] at hp
    case ready r      =>
      cases r <;> simp only [serialized, ho] <;>
        exact working_of_writing hlen rfl fun h => absurd h (by simp)
    case insufficient =>
      simp only [serialized, ho]
      exact working_of_writing hlen rfl fun _ => (hx.of_insufficient ho).imp fun _ => And.left
    case pending      =>
      simp only [serialized, ho]
      exact ⟨hlen, fun _ => hc, fun _ => hd, fun _ => hx.of_pending ho⟩

def perBuffer : Nat :=
  8 * asyncWriterBufSize + 9

inductive Away [BitSink B] (this : AsyncWriter w) : Nat → Prop
  | complete : this.state = .complete → Away this 0
  | last : this.state = .writing → this.done = true → Away this this.cursor
  | flush {n : Nat} : this.state = .writing → this.done = false →
    Settles w.pollSerialize n this.serializer → Away this (perBuffer * (n + 1) + this.cursor + 1)
  | serialize {n : Nat} : this.state = .serialize → Settles w.pollSerialize n this.serializer →
    Away this (perBuffer * (n + 1))

omit [BitSliceMut B] [LawfulBitSliceMut B] in
theorem Working.exists_away [BitSink B] (h : this.Working) : ∃ k, this.Away k := by
  cases hs : this.state
  case complete  => exact ⟨_, .complete hs⟩
  case serialize =>
    have ⟨n, hn⟩ := h.settles (h.not_done hs)
    exact ⟨_, .serialize hs hn⟩
  case writing   =>
    cases hd : this.done
    case true  => exact ⟨_, .last hs hd⟩
    case false =>
      have ⟨n, hn⟩ := h.settles hd
      exact ⟨_, .flush hs hd hn⟩

-- One byte is left, or a part of it.
structure Stuck (this : AsyncWriter w) : Prop where
  state_eq  : this.state = .writing
  done_eq   : this.done = true
  cursor_eq : this.cursor = 1

theorem Away.closer (h : this.Working) {k : Nat} (hk : this.Away k) {ctx : Ctx}
    {write : Poll (Except E Nat)} (ht : this.turn ctx write = (.next, next)) :
    this.Stuck ∨ ∃ j, next.Away j ∧ j < k := by
  have hwriting (hs : this.state = .writing) : this.turnWriting write = (.next, next) := by
    rw [← ht]
    simp only [AsyncWriter.turn, hs]
  cases hk
  case complete hs     => simp [AsyncWriter.turn, hs] at ht
  case last hs hd      =>
    obtain ⟨size, _, hw⟩ := wrote_of_next (hwriting hs)
    cases hw
    case flushed hd'        => simp [hd] at hd'
    case rest cursor hc hpos =>
      have hdiv : this.divided ≤ (this.cursor + 7) / 8 := by
        unfold divided
        split <;> omega
      by_cases hone : this.cursor = 1
      case pos => exact .inl ⟨hs, hd, hone⟩
      case neg => exact .inr ⟨cursor, .last hs hd, by omega⟩
  case flush n hs hd hn =>
    obtain ⟨size, _, hw⟩ := wrote_of_next (hwriting hs)
    cases hw
    case flushed           => exact .inr ⟨_, .serialize rfl hn, by omega⟩
    case rest cursor hc hpos =>
      have hdiv : this.divided = this.cursor / 8 := by simp [divided, hd]
      exact .inr ⟨_, .flush hs hd hn, by simp only; omega⟩
  case serialize n hs hn =>
    obtain ⟨hs', _, hc, hnext⟩ := h.turn_serialize hs hn ht
    have hb : perBuffer = 8 * asyncWriterBufSize + 9 := rfl
    cases hnext
    case inl hd =>
      refine .inr ⟨_, .last hs' hd, ?_⟩
      have : perBuffer ≤ perBuffer * (n + 1) := Nat.le_mul_of_pos_right _ (by omega)
      omega
    case inr hd =>
      obtain ⟨hd, m, hlt, hm⟩ := hd
      refine .inr ⟨_, .flush hs' hd hm, ?_⟩
      have : perBuffer * (m + 1 + 1) ≤ perBuffer * (n + 1) := Nat.mul_le_mul_left _ (by omega)
      rw [Nat.mul_add perBuffer (m + 1)] at this
      omega

variable {ctx : Ctx} {writes : Nat → Poll (Except E Nat)} {n : Nat}

omit [LawfulBitSliceMut B] in
theorem continues_turn (h : (this.turn ctx (writes n)).1 = .next) : Continues (body ctx writes)
    (n, this) (if this.state = .writing then n + 1 else n, (this.turn ctx (writes n)).2) := by
  unfold Continues body
  simp only [h]

omit [LawfulBitSliceMut B] in
theorem body_cases (ctx : Ctx) (writes : Nat → Poll (Except E Nat)) (n : Nat)
    (this : AsyncWriter w) : (∃ r, body ctx writes (n, this) = .inr r) ∨
      ∃ next, this.turn ctx (writes n) = (.next, next) ∧ Continues (body ctx writes) (n, this)
        (if this.state = .writing then n + 1 else n, next) := by
  cases hf : (this.turn ctx (writes n)).1
  case next        => exact .inr ⟨_, Prod.ext hf rfl, continues_turn hf⟩
  case ret p       => exact .inl ⟨this.turn ctx (writes n), by simp only [body, hf]⟩
  case unwound msg => exact .inl ⟨this.turn ctx (writes n), by simp only [body, hf]⟩

namespace Stuck

omit [LawfulBitSliceMut B] in
theorem goes_on (h : this.Stuck) (ctx : Ctx)
    (hl : this.buffer.length = asyncWriterBufSize)
    (hz : writes n = .ready (.ok 0)) : ∃ next : AsyncWriter w,
      Continues (body ctx writes) (n, this) (n + 1, next) ∧ next.Stuck ∧
        next.buffer.length = asyncWriterBufSize := by
  have ht : this.turn ctx (writes n) = (.next, { this with cursor := 1 }) := by
    have hle : 1 ≤ this.buffer.length := hl ▸ by decide
    rw [turn_writing h.state_eq (divide_last h.done_eq (.inl h.cursor_eq)) hle ⟨ctx, writes n⟩, hz]
    rfl
  cases body_cases ctx writes n this
  case inl hr =>
    have ⟨r, hr⟩ := hr
    simp only [body, ht, reduceCtorEq] at hr
  case inr hn =>
    have ⟨next, hn, hc⟩ := hn
    rw [if_pos h.state_eq] at hc
    cases ht.symm.trans hn
    exact ⟨_, hc, ⟨h.state_eq, h.done_eq, rfl⟩, hl⟩

omit [LawfulBitSliceMut B] in
theorem leaves (h : this.Stuck) (ctx : Ctx) (hne : writes n ≠ .ready (.ok 0)) :
    ∃ r, body ctx writes (n, this) = .inr r := by
  cases body_cases ctx writes n this
  case inl hr => exact hr
  case inr hn =>
    obtain ⟨next, ht, _⟩ := hn
    simp only [turn, h.state_eq] at ht
    obtain ⟨size, hsize, hw⟩ := wrote_of_next ht
    cases hw
    case flushed hd _        => simp [h.done_eq] at hd
    case rest cursor hc hpos =>
      have hdiv : this.divided = 1 := by simp [divided, h.cursor_eq, h.done_eq]
      obtain rfl : size = 0 := by omega
      exact absurd hsize hne

omit [LawfulBitSliceMut B] in
theorem diverges_iff (h : this.Stuck) (hl : this.buffer.length = asyncWriterBufSize) :
    Diverges (body ctx writes) (n, this) ↔ ∀ m, n ≤ m → writes m = .ready (.ok 0) := by
  constructor
  case mpr =>
    intro hz
    refine diverges_of_invariant (I := fun (s : Nat × AsyncWriter w) => s.2.Stuck ∧
      s.2.buffer.length = asyncWriterBufSize ∧ n ≤ s.1) ?_ ⟨h, hl, le_refl n⟩
    rintro ⟨m, that⟩ ⟨h, hl, hm⟩
    have ⟨next, hc, hs, hl⟩ := h.goes_on ctx hl (hz m hm)
    exact ⟨_, hc, hs, hl, Nat.le_succ_of_le hm⟩
  case mp  =>
    intro hd m hm
    obtain ⟨j, rfl⟩ := Nat.exists_eq_add_of_le hm
    clear hm
    have hz : writes n = .ready (.ok 0) := by
      by_contra hne
      have ⟨r, hr⟩ := h.leaves ctx hne
      exact not_diverges_of_leaves hr hd
    induction j generalizing this n
    case zero      => exact hz
    case succ j hi =>
      have ⟨next, hc, hs, hl⟩ := h.goes_on ctx hl hz
      have hd := hc.diverges_iff.mp hd
      rw [Nat.add_comm j, ← Nat.add_assoc]
      refine hi hs hl hd ?_
      by_contra hne
      have ⟨r, hr⟩ := hs.leaves ctx hne
      exact not_diverges_of_leaves hr hd

end Stuck

theorem Working.descends {k : Nat} {s : Nat × AsyncWriter w} (h : s.2.Working ∧ s.2.Away k) :
    (s.2.Stuck ∧ s.2.buffer.length = asyncWriterBufSize) ∨ (∃ r, body ctx writes s = .inr r) ∨
      ∃ t j, Continues (body ctx writes) s t ∧ (t.2.Working ∧ t.2.Away j) ∧ j < k := by
  obtain ⟨n, this⟩ := s
  have ⟨hw, hk⟩ := h
  cases body_cases ctx writes n this
  case inl hr => exact .inr (.inl hr)
  case inr hn =>
    have ⟨next, ht, hc⟩ := hn
    cases hk.closer hw ht
    case inl hs => exact .inl ⟨hs, hw.length_eq⟩
    case inr hj =>
      have ⟨j, hj, hlt⟩ := hj
      have hnext := hw.turn ⟨ctx, writes n⟩ (by simp only [ht]; exact id)
      simp only [ht] at hnext
      exact .inr (.inr ⟨_, j, hc, ⟨hnext, hj⟩, hlt⟩)

theorem Working.of_continues (h : this.Working) {n' : Nat}
    (hc : Relation.ReflTransGen (Continues (body ctx writes)) (n, this) (n', next)) :
    next.Working := by
  have key (s t : Nat × AsyncWriter w)
      (hc : Relation.ReflTransGen (Continues (body ctx writes)) s t) (h : s.2.Working) :
      t.2.Working := by
    induction hc
    case refl               => exact h
    case tail t u hc hn hi =>
      obtain ⟨m, that⟩ := t
      cases body_cases ctx writes m that
      case inl hr =>
        have ⟨r, hr⟩ := hr
        cases hr.symm.trans hn
      case inr hx =>
        have ⟨that', ht, hc'⟩ := hx
        cases hc'.symm.trans hn
        have hw := hi.turn ⟨ctx, writes m⟩ (by simp only [ht]; exact id)
        simp only [ht] at hw
        exact hw
  exact key _ _ hc h

theorem Working.diverges_iff (h : this.Working) : Diverges (body ctx writes) (0, this) ↔
    ∃ n next, Relation.ReflTransGen (Continues (body ctx writes)) (0, this) (n, next) ∧
      next.Stuck ∧ ∀ m, n ≤ m → writes m = .ready (.ok 0) := by
  have ⟨k, hk⟩ := h.exists_away
  constructor
  case mp  =>
    intro hd
    have ⟨⟨n, next⟩, hc, ⟨hs, hl⟩, hd⟩ := (diverges_iff_of_descent
      (I := fun k s => s.2.Working ∧ s.2.Away k)
      (P := fun s => s.2.Stuck ∧ s.2.buffer.length = asyncWriterBufSize)
      (fun k s => Working.descends) ⟨h, hk⟩).mp hd
    exact ⟨n, next, hc, hs, (hs.diverges_iff hl).mp hd⟩
  case mpr =>
    rintro ⟨n, next, hc, hs, hz⟩
    have hl := (h.of_continues hc).length_eq
    exact (diverges_iff_of_continues hc).mpr ((hs.diverges_iff hl).mpr hz)

end AsyncWriter

namespace Sending

variable [BitSliceMut B] [LawfulBitSliceMut B] {Ok : Sending Ctx B → WriteMoment Ctx E → Prop}
  {first this next : Sending Ctx B}

end Sending

section

end

end Mincodec
