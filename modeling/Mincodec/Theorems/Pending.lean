import Mincodec.Immediate
import Mincodec.Run.Reader
import Mincodec.AsyncWriter
import Mincodec.Slice
import Mincodec.Theorems.Traced

-- What a future waits for when it is pending.
namespace Mincodec

open Stream

variable {Ctx B B' T E : Type}

-- The log of a buffer says in which contexts codecs have been pending on it.
def SameLog (log : B → List Ctx) (b b' : B) : Prop :=
  log b' = log b

def Logs (log : B → List Ctx) (c : Ctx) (b b' : B) : Prop :=
  log b' = log b ++ [c]

-- The codecs at the leaves log when they are pending, and nothing else is logged.
structure Scope.Logs [BitBuf B] [BitBufMut B'] (scope : Scope Ctx B B') (log : B → List Ctx)
    (log' : B' → List Ctx) : Prop where
  bitBuf    : BitBuf.Keeps (SameLog log)
  bitBufMut : BitBufMut.Keeps (SameLog log')
  read {T : Type} {r : MinCodecRead Ctx B T} {w : MinCodecWrite Ctx B' T} :
    scope.leaf r w → r.Traces (SameLog log) (Mincodec.Logs log)
  write {T : Type} {r : MinCodecRead Ctx B T} {w : MinCodecWrite Ctx B' T} :
    scope.leaf r w → w.Traces (SameLog log') (Mincodec.Logs log')

-- On the way from `b` to `b'` a single codec has been pending. It is one of the leaves, it has been
-- polled in the context `c`, and nothing has been called after it.
structure Scope.ReadWaits (scope : Scope Ctx B B') (log : B → List Ctx) (c : Ctx) (b b' : B) :
    Prop where
  logs        : Mincodec.Logs log c b b'
  exists_leaf : ∃ (T : Type) (r : MinCodecRead Ctx B T) (w : MinCodecWrite Ctx B' T),
    scope.leaf r w ∧ ∃ s b₀, SameLog log b b₀ ∧ (r.pollDeserialize c s b₀).outcome = .pending ∧
      (r.pollDeserialize c s b₀).buf = b'

structure Scope.WriteWaits (scope : Scope Ctx B B') (log : B' → List Ctx) (c : Ctx) (b b' : B') :
    Prop where
  logs        : Mincodec.Logs log c b b'
  exists_leaf : ∃ (T : Type) (r : MinCodecRead Ctx B T) (w : MinCodecWrite Ctx B' T),
    scope.leaf r w ∧ ∃ s b₀, SameLog log b b₀ ∧ (w.pollSerialize c s b₀).outcome = .pending ∧
      (w.pollSerialize c s b₀).buf = b'

section

variable {scope : Scope Ctx B B'} {log : B → List Ctx} {log' : B' → List Ctx}

theorem Scope.readWaits_traced (c : Ctx) : Traced (SameLog log) (scope.ReadWaits log c) where
  refl _       := rfl
  trans h h'   := h'.trans h
  pending h hw := by
    have ⟨T, r, w, hl, s, b₀, hb, ho⟩ := hw.exists_leaf
    exact ⟨hw.logs.trans (congrArg (· ++ [c]) h), T, r, w, hl, s, b₀, hb.trans h, ho⟩

theorem Scope.writeWaits_traced (c : Ctx) : Traced (SameLog log') (scope.WriteWaits log' c) where
  refl _       := rfl
  trans h h'   := h'.trans h
  pending h hw := by
    have ⟨T, r, w, hl, s, b₀, hb, ho⟩ := hw.exists_leaf
    exact ⟨hw.logs.trans (congrArg (· ++ [c]) h), T, r, w, hl, s, b₀, hb.trans h, ho⟩

variable [BitBuf B] [BitBufMut B'] {r : MinCodecRead Ctx B T} {w : MinCodecWrite Ctx B' T}

theorem Format.readWaits (h : Format scope r w) (hl : scope.Logs log log') :
    r.Traces (SameLog log) (scope.ReadWaits log) :=
  h.read_traces scope.readWaits_traced hl.bitBuf fun hr c s b =>
    ⟨fun ho => ⟨(hl.read hr c s b).1 ho, _, _, _, hr, s, b, rfl, ho, rfl⟩, (hl.read hr c s b).2⟩

theorem Format.writeWaits (h : Format scope r w) (hl : scope.Logs log log') :
    w.Traces (SameLog log') (scope.WriteWaits log') :=
  h.write_traces scope.writeWaits_traced hl.bitBufMut fun hr c s b =>
    ⟨fun ho => ⟨(hl.write hr c s b).1 ho, _, _, _, hr, s, b, rfl, ho, rfl⟩, (hl.write hr c s b).2⟩

end

theorem ReadImmediate.poll_traces {K : B → B → Prop} {P : Ctx → B → B → Prop} {r : MinCodecRead Ctx B T}
    (ht : ∀ c, Traced K (P c)) (h : r.Traces K P) (this : ReadImmediate r) (c : Ctx) :
    ((this.poll c).1 = .pending → P c this.buf (this.poll c).2.buf) ∧
      ((this.poll c).1 ≠ .pending → K this.buf (this.poll c).2.buf) := by
  have ⟨hp, hk⟩ := h c this.deser this.buf
  unfold ReadImmediate.poll
  split
  case isTrue  =>
    refine ⟨fun ho => ?_, fun _ => (ht c).refl _⟩
    cases ho
  case isFalse =>
    cases hx : (r.pollDeserialize c this.deser this.buf).outcome
    all_goals simp only [hx]
    case pending => exact ⟨fun _ => hp hx, fun ho => absurd rfl ho⟩
    all_goals
      refine ⟨fun ho => ?_, fun _ => hk (by simp [hx])⟩
      cases ho

theorem WriteImmediate.poll_traces [BitBufMut B] {K : B → B → Prop} {P : Ctx → B → B → Prop}
    {w : MinCodecWrite Ctx B T} (ht : ∀ c, Traced K (P c)) (h : w.Traces K P)
    (this : WriteImmediate w) (c : Ctx) :
    ((this.poll c).1 = .pending → P c this.buf (this.poll c).2.buf) ∧
      ((this.poll c).1 ≠ .pending → K this.buf (this.poll c).2.buf) := by
  have ⟨hp, hk⟩ := h c this.ser this.buf
  unfold WriteImmediate.poll
  split
  case isTrue  =>
    refine ⟨fun ho => ?_, fun _ => (ht c).refl _⟩
    cases ho
  case isFalse =>
    cases hx : (w.pollSerialize c this.ser this.buf).outcome
    all_goals simp only [hx]
    case pending => exact ⟨fun _ => hp hx, fun ho => absurd rfl ho⟩
    all_goals
      refine ⟨fun ho => ?_, fun _ => hk (by simp [hx])⟩
      cases ho

namespace AsyncReader

variable [BitSlice B] {V : Type} [BitSliceMut V] {r : MinCodecRead Ctx B T}
variable {this that : AsyncReader r} {c : Ctx} {read : Poll (Except E (List UInt8))}

def Goes (V : Type) [BitSliceMut V] (c : Ctx)
    (s t : List (Poll (Except E (List UInt8))) × AsyncReader r) : Prop :=
  s.2.turn V c (s.1.headD (.ready (.ok []))) = (.next, t.2) ∧
    t.1 = match s.2.state with
      | .reading => s.1.tail
      | _        => s.1

-- What the iteration in which `poll` returns `Pending` waits for: the transport, or a codec that the
-- deserializer has polled on the window.
inductive Waits (scope : Scope Ctx B B') (log : B → List Ctx) (c : Ctx)
    (read : Poll (Except E (List UInt8))) (this that : AsyncReader r) : Prop
  | transport : this.state = .reading → read = .pending → that = this → Waits scope log c read this that
  | leaf {b : B} : this.state = .deserialize → this.window = some b →
    scope.ReadWaits log c b (r.pollDeserialize c this.deserializer b).buf →
    that = { this with deserializer := (r.pollDeserialize c this.deserializer b).state } →
    Waits scope log c read this that

omit [BitSlice B] in
theorem fill_ne_pending (this : AsyncReader r) (data : List UInt8) :
    (this.fill V data : Flow (Except (AsyncReaderError E r.Error) T) × _).1 ≠ .ret .pending := by
  intro h
  unfold fill at h
  simp only at h
  split at h
  case isFalse => cases h
  case isTrue  =>
    split at h
    case h_1 => cases h
    case h_2 =>
      split at h
      case isFalse => cases h
      case isTrue  => split at h <;> cases h

theorem turn_pending {scope : Scope Ctx B B'} {log : B → List Ctx}
    (hr : r.Traces (SameLog log) (scope.ReadWaits log)) (h : this.turn V c read = (.ret .pending, that)) :
    this.Waits scope log c read that := by
  unfold turn at h
  cases hs : this.state
  all_goals simp only [hs] at h
  case complete    => cases h
  case reading     =>
    unfold turnReading at h
    split at h
    case h_1 => cases h
    case h_2 =>
      unfold answered at h
      split at h
      case h_1 =>
        cases h
        exact .transport hs rfl rfl
      case h_2 => cases h
      case h_3 => exact absurd (congrArg Prod.fst h) (fill_ne_pending this _)
      case h_4 => cases h
  case deserialize =>
    unfold turnDeserialize at h
    split at h
    case isFalse => cases h
    case isTrue  =>
      split at h
      case h_2      => cases h
      case h_1 b hb =>
        unfold deserialized at h
        split at h
        case h_1 hx =>
          cases h
          exact .leaf hs hb ((hr c this.deserializer b).1 hx) rfl
        all_goals cases h

theorem exists_goes {fuel : Nat} {reads : List (Poll (Except E (List UInt8)))}
    {x : Flow (Except (AsyncReaderError E r.Error) T) × AsyncReader r}
    (h : this.poll V c fuel reads = some x) : ∃ rest last,
      Relation.ReflTransGen (Goes V c) (reads, this) (rest, last) ∧
        last.turn V c (rest.headD (.ready (.ok []))) = x := by
  induction fuel generalizing this reads
  case zero         => cases h
  case succ fuel hi =>
    unfold poll at h
    simp only at h
    split at h
    case h_1 ho hs      =>
      have ⟨rest, last, hg, hx⟩ := hi h
      exact ⟨rest, last, .head ⟨Prod.ext ho rfl, by simp only [hs]⟩ hg, hx⟩
    case h_2 ho hs      =>
      have ⟨rest, last, hg, hx⟩ := hi h
      refine ⟨rest, last, .head ⟨Prod.ext ho rfl, ?_⟩ hg, hx⟩
      cases hs' : this.state
      case reading => exact absurd hs' hs
      all_goals rfl
    case h_3            => exact ⟨reads, this, .refl, Option.some.inj h⟩

end AsyncReader

namespace AsyncWriter

variable [BitSliceMut B'] {w : MinCodecWrite Ctx B' T} {this that : AsyncWriter w} {c : Ctx}
variable {write : Poll (Except E Nat)}

-- What the iteration in which `poll` returns `Pending` waits for: the transport, or a codec that the
-- serializer has polled on the buffer. What has been written is in the buffer.
inductive Waits (scope : Scope Ctx B B') (log : B' → List Ctx) (c : Ctx) (write : Poll (Except E Nat))
    (this that : AsyncWriter w) : Prop
  | transport : this.state = .writing → write = .pending → Waits scope log c write this that
  | leaf {b : B'} : this.state = .serialize →
    BitSliceMut.advance this.cursor (BitSliceMut.new this.buffer) = some b →
    scope.WriteWaits log c b (w.pollSerialize c this.serializer b).buf →
    that =
      { this with
        buffer     := BitSliceMut.bytes (w.pollSerialize c this.serializer b).buf
        serializer := (w.pollSerialize c this.serializer b).state } →
    Waits scope log c write this that

omit [BitSliceMut B'] in
theorem wrote_ne_pending (this : AsyncWriter w) (re : Nat) (l : UInt8) (size : Nat) :
    (this.wrote re l size : Flow (Except (AsyncWriterError E w.Error) Unit) × _).1 ≠ .ret .pending := by
  intro h
  unfold wrote at h
  simp only at h
  split at h
  case isFalse => cases h
  case isTrue  =>
    split at h
    case isFalse => cases h
    case isTrue  => split at h <;> cases h

theorem turn_pending {scope : Scope Ctx B B'} {log : B' → List Ctx}
    (hw : w.Traces (SameLog log) (scope.WriteWaits log)) (h : this.turn c write = (.ret .pending, that)) :
    this.Waits scope log c write that := by
  unfold turn at h
  cases hs : this.state
  all_goals simp only [hs] at h
  case complete  => cases h
  case writing   =>
    refine .transport hs ?_
    unfold turnWriting at h
    split at h
    case h_1 => cases h
    case h_2 =>
      split at h
      case isFalse => cases h
      case isTrue  =>
        unfold answered at h
        split at h
        case h_1 => rfl
        case h_2 => exact absurd (congrArg Prod.fst h) (wrote_ne_pending _ _ _ _)
        case h_3 => cases h
        case h_4 => cases h
  case serialize =>
    unfold turnSerialize at h
    split at h
    case h_2      => cases h
    case h_1 b hb =>
      unfold serialized at h
      split at h
      case h_1 hx =>
        cases h
        exact .leaf hs hb ((hw c this.serializer b).1 hx) rfl
      all_goals cases h

end AsyncWriter

-- Whatever future is pending, a codec at a leaf has been polled in the same context and was pending, or
-- the transport was. It is the last one that has been polled, and the buffer is as it has left it.
theorem pending_waits [BitSlice B] [BitSliceMut B'] {scope : Scope Ctx B B'} {log : B → List Ctx}
    {log' : B' → List Ctx} (hl : scope.Logs log log') {r : MinCodecRead Ctx B T}
    {w : MinCodecWrite Ctx B' T} (h : Format scope r w) (c : Ctx) :
    (∀ this : ReadImmediate r,
      ((this.poll c).1 = .pending → scope.ReadWaits log c this.buf (this.poll c).2.buf) ∧
      ((this.poll c).1 ≠ .pending → SameLog log this.buf (this.poll c).2.buf)) ∧
    (∀ this : WriteImmediate w,
      ((this.poll c).1 = .pending → scope.WriteWaits log' c this.buf (this.poll c).2.buf) ∧
      ((this.poll c).1 ≠ .pending → SameLog log' this.buf (this.poll c).2.buf)) ∧
    (∀ (E V : Type) [BitSliceMut V] (this that : AsyncReader r) (fuel : Nat)
      (reads : List (Poll (Except E (List UInt8)))),
      this.poll V c fuel reads = some (.ret .pending, that) → ∃ rest last,
        Relation.ReflTransGen (AsyncReader.Goes V c) (reads, this) (rest, last) ∧
        last.Waits scope log c (rest.headD (.ready (.ok []))) that) ∧
    ∀ (E : Type) (this that : AsyncWriter w) (fuel : Nat) (writes : Nat → Poll (Except E Nat)),
      this.pollLoop c writes fuel = some (.ret .pending, that) → ∃ n last,
        Relation.ReflTransGen (Continues (AsyncWriter.body c writes)) (0, this) (n, last) ∧
        last.Waits scope log' c (writes n) that := by
  have hr := h.readWaits hl
  have hw := h.writeWaits hl
  refine ⟨fun this => this.poll_traces scope.readWaits_traced hr c,
    fun this => this.poll_traces scope.writeWaits_traced hw c, fun E V _ this that fuel reads hp => ?_,
    fun E this that fuel writes hp => ?_⟩
  case refine_1 =>
    have ⟨rest, last, hg, hx⟩ := AsyncReader.exists_goes hp
    exact ⟨rest, last, hg, AsyncReader.turn_pending hr hx⟩
  case refine_2 =>
    have ⟨⟨n, last⟩, hc, hx⟩ := exists_leaves_of_loop hp
    refine ⟨n, last, hc, ?_⟩
    unfold AsyncWriter.body at hx
    simp only at hx
    split at hx
    case h_1 => cases hx
    case h_2 => exact AsyncWriter.turn_pending hw (Sum.inr.inj hx)

-- Any buffer can carry a log.
structure Logged (B Ctx : Type) where
  buf : B
  log : List Ctx

namespace Logged

instance [BitSlice B] : BitSlice (Logged B Ctx) where
  readBool b         :=
    let (x, buf) := BitBuf.readBool b.buf
    (x, { b with buf })
  Fill               := BitBuf.Fill B
  newFill            := BitBuf.newFill
  fillFrom f b       :=
    let (x, f, buf) := BitBuf.fillFrom f b.buf
    (x, f, { b with buf })
  fillInner          := BitBuf.fillInner
  CappedFill         := BitBuf.CappedFill B
  newCappedFill      := BitBuf.newCappedFill
  cappedFillFrom f b :=
    let (x, f, buf) := BitBuf.cappedFillFrom f b.buf
    (x, f, { b with buf })
  cappedFillInner    := BitBuf.cappedFillInner
  AsyncReadVlq       := BitBuf.AsyncReadVlq B
  asyncRead          := BitBuf.asyncRead
  pollRead v b       :=
    let (x, v, buf) := BitBuf.pollRead v b.buf
    (x, v, { b with buf })
  new xs             := ⟨BitSlice.new xs, []⟩
  advance n b        := (BitSlice.advance n b.buf).map fun buf => { b with buf }
  len b              := BitSlice.len b.buf

instance [BitSliceMut B] : BitSliceMut (Logged B Ctx) where
  writeBool x b        :=
    let (x, buf) := BitBufMut.writeBool x b.buf
    (x, { b with buf })
  Drain                := BitBufMut.Drain B
  newDrain             := BitBufMut.newDrain
  drainInto d b        :=
    let (x, d, buf) := BitBufMut.drainInto d b.buf
    (x, d, { b with buf })
  CappedDrain          := BitBufMut.CappedDrain B
  newCappedDrain       := BitBufMut.newCappedDrain
  cappedDrainInto d b  :=
    let (x, d, buf) := BitBufMut.cappedDrainInto d b.buf
    (x, d, { b with buf })
  len b                := BitBufMut.len b.buf
  vlq                  := BitBufMut.vlq B
  new xs               := ⟨BitSliceMut.new xs, []⟩
  advance n b          := (BitSliceMut.advance n b.buf).map fun buf => { b with buf }
  writeAlignedAll xs b := (BitSliceMut.writeAlignedAll xs b.buf).map fun buf => { b with buf }
  bytes b              := BitSliceMut.bytes b.buf

theorem bitBuf_keeps [BitSlice B] : BitBuf.Keeps (B := Logged B Ctx) (SameLog log) :=
  ⟨fun _ => rfl, fun _ _ => rfl, fun _ _ => rfl, fun _ _ => rfl⟩

theorem bitBufMut_keeps [BitSliceMut B] : BitBufMut.Keeps (B := Logged B Ctx) (SameLog log) :=
  ⟨fun _ _ => rfl, fun _ _ => rfl, fun _ _ => rfl⟩

end Logged

section

def stallRead : MinCodecRead Unit (Logged Slice Unit) Unit where
  Deserialize           := Unit
  Error                 := Empty
  deserialize           := ()
  pollDeserialize c s b := ⟨.pending, s, { b with log := b.log ++ [c] }⟩

def stallWrite : MinCodecWrite Unit (Logged SliceMut Unit) Unit where
  Serialize           := Unit
  Error               := Empty
  serialize _         := ()
  pollSerialize c s b := ⟨.pending, s, { b with log := b.log ++ [c] }⟩

def stallScope : Scope Unit (Logged Slice Unit) (Logged SliceMut Unit) where
  leaf r w := r.Traces (SameLog Logged.log) (Logs Logged.log) ∧
    w.Traces (SameLog Logged.log) (Logs Logged.log)
  map _ _  := False
  isize    := False
  lists    := False
  arity _  := False

def stallOption : AsyncReader (Optional.optionRead stallRead) :=
  .new _

def isPending {α β : Type} : Option (Flow α × β) → Bool
  | some (.ret .pending, _) => true
  | _                       => false

theorem exists_eq_pending {α β : Type} {x : Option (Flow α × β)} (h : isPending x) :
    ∃ y, x = some (.ret .pending, y) := by
  match x with
  | some (.ret .pending, y) => exact ⟨y, rfl⟩

theorem pending_waits_option :
    stallScope.ReadWaits Logged.log () ⟨⟨[true, false], 0⟩, []⟩ ⟨⟨[true, false], 1⟩, [()]⟩ ∧
    ∃ that rest last, Relation.ReflTransGen
        (AsyncReader.Goes (E := Empty) (Logged SliceMut Unit) ())
        ([.ready (.ok [128])], stallOption) (rest, last) ∧
      last.Waits stallScope Logged.log () (rest.headD (.ready (.ok []))) that := by
  have hl : stallScope.Logs Logged.log Logged.log :=
    ⟨Logged.bitBuf_keeps, Logged.bitBufMut_keeps, And.left, And.right⟩
  have h : Format stallScope (Optional.optionRead stallRead) (Optional.optionWrite stallWrite) :=
    .option (.leaf ⟨fun _ _ _ => ⟨fun _ => rfl, fun ho => absurd rfl ho⟩,
      fun _ _ _ => ⟨fun _ => rfl, fun ho => absurd rfl ho⟩⟩)
  have hp : isPending (stallOption.poll (E := Empty) (Logged SliceMut Unit) () 3
      [.ready (.ok [128])]) := by
    decide +kernel
  have ⟨that, hp⟩ := exists_eq_pending hp
  have ⟨hr, _, ha, _⟩ := pending_waits hl h ()
  exact ⟨(hr ((Optional.optionRead stallRead).readImmediate ⟨⟨[true, false], 0⟩, []⟩)).1 rfl,
    that, ha Empty _ _ _ _ _ hp⟩

end

end Mincodec
