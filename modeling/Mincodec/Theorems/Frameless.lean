import Mincodec.Meaning
import Mincodec.Theorems.Link
import Mincodec.Theorems.Size
import Mincodec.Theorems.Items

-- How many bytes the items take on a link.
namespace Mincodec

open Stream BitSource BitSink Reading

variable {Ctx B B' E E' : Type} {Wait : Prop} {Stop : B → Prop}

def Message.Weighs [BitBuf B] [BitBufMut B'] (msg : Message Ctx B B') (weight : Nat) : Prop :=
  ∃ size, Sized msg.read msg.write size ∧ weight = (size msg.item + 7) / 8

section

variable [BitSliceMut B'] [LawfulBitSliceMut B'] {msg : Message Ctx B B'} {w : List Bool}
variable [BitSlice B] [LawfulBitSlice B] [LawfulVlq B B']

theorem Sized.conveys {T : Type} {r : MinCodecRead Ctx B T} {w : MinCodecWrite Ctx B' T}
    {size : T → Nat} (h : Sized r w size) (item : T)
    (hv : size item ≤ 8 * asyncWriterBufSize ∨ ∃ enc, w.Encodes enc) (ctx : Ctx) :
    ∃ bits, bits.length = size item ∧
      (⟨w, r, item⟩ : Message Ctx B B').Conveys False Drained bits := by
  have ⟨enc, ⟨p, hp, hw, hh⟩, hsize⟩ := h.exists_bits
  refine ⟨enc item, hsize item, ?_, p, hp, hh item⟩
  cases hv
  case inl hv => exact hw.resumes (hsize item ▸ hv)
  case inr hv =>
    have ⟨emission, he⟩ := hv
    have ⟨b, hb⟩ := exists_room B' (enc item).length
    exact (he.resumes item).eq_done (hw item ctx b) hb ▸ he.resumes item

theorem Message.Fills.length_eq {bytes : List UInt8} (h : msg.Fills Wait Stop bytes) {weight : Nat}
    (hw : msg.Weighs weight) (ctx : Ctx) : bytes.length = weight := by
  have ⟨w, hc, hcut⟩ := h
  have ⟨size, hsized, hweight⟩ := hw
  have ⟨enc, ⟨p, _, he, _⟩, hsize⟩ := hsized.exists_bits
  have ⟨b, hb⟩ := exists_room B' (enc msg.item).length
  obtain rfl : w = enc msg.item := congrArg Emission.bits (hc.1.eq_done (he msg.item ctx b) hb)
  rw [hcut.length, hsize, hweight]

theorem lengths_eq {messages : List (Message Ctx B B')} {stream : List (List UInt8)}
    {weights : List Nat} (hf : List.Forall₂ (Message.Fills Wait Stop) messages stream)
    (hw : List.Forall₂ Message.Weighs messages weights) (ctx : Ctx) :
    stream.map List.length = weights := by
  induction hf generalizing weights
  case nil           =>
    cases hw
    rfl
  case cons hf _ hi  =>
    cases hw
    case cons hw hws => rw [List.map_cons, hf.length_eq hw ctx, hi hws]

end

namespace Link

variable [BitSlice B] [LawfulBitSlice B] [BitSliceMut B'] [LawfulBitSliceMut B'] [LawfulVlq B B']
variable {kinds : Nat → Kind Ctx B B'} {this : Link Ctx B B'}

-- Nothing but the items is on the wire, each with less than a byte of padding: what has been accepted
-- once the writer is done, and where the reader is once it is, are the sums of their sizes.
theorem frameless {msg : Message Ctx B B'} {w : List Bool} (hk : kinds 0 = msg.kind)
    (hc : msg.Conveys Wait Stop w) (hs : Steps E E' Wait Stop kinds (new msg) this)
    {weights : List Nat} (hw : List.Forall₂ Message.Weighs this.messages weights) (ctx : Ctx) :
    this.sent.length ≤ weights.sum ∧
      (this.sending.writer.state = .complete → this.sent.length = weights.sum) ∧
      (this.reading.reader.state = .complete →
        this.reading.taken.length = 8 * (weights.take this.reading.items.length).sum) := by
  have hi := (new_inv hk hc).steps_inv hs
  have ⟨stream, hf, hsent, _, hall⟩ := hi.exists_stream
  have hl := lengths_eq hf hw ctx
  have hsum : stream.flatten.length = weights.sum := by rw [List.length_flatten, hl]
  refine ⟨hsum ▸ hsent.length_le, fun hd => hall hd ▸ hsum, fun hd => ?_⟩
  have ⟨start, w', hw', hchain, hund⟩ := hi.reading.underway
  simp only [hd] at hund
  have hb := hi.reading.bits_eq
  rw [hw', List.append_assoc] at hb
  have ⟨_, hstart⟩ := (hi.fed hf hsent).meets hchain (hb ▸ List.prefix_append ..)
  rw [hw', hund, List.append_nil, hstart, Bits.length_ofBytes, List.length_flatten, List.map_take,
    hl]

end Link

section

theorem pollItems_ne_pending {w : MinCodecWrite Ctx B' T} (h : w.Prompt) (ctx : Ctx) (items : List T)
    (ser : Option w.Serialize) (b : B') : (pollItems w ctx items ser b).outcome ≠ .pending := by
  induction items generalizing ser b
  case nil               => simp [pollItems]
  case cons item items hi => exact Polled.andThen_ne_pending (h _ _ _) fun _ ser b => hi (some ser) b

theorem vecWrite_prompt [BitBufMut B'] {w : MinCodecWrite Ctx B' T} (h : w.Prompt) (size : Nat) :
    (vecWrite w size).Prompt := by
  intro ctx s b
  have writing (s : VecSerialize w) (b : B') : (s.pollWriting ctx b).outcome ≠ .pending :=
    Polled.andThen_ne_pending (pollItems_ne_pending h ctx s.data s.ser b) (by simp)
  show (VecSerialize.pollSerialize ctx s b).outcome ≠ .pending
  unfold VecSerialize.pollSerialize
  split
  case h_1 =>
    exact Polled.andThen_ne_pending (sufficient_ne_pending (BitBufMut.drainInto s.vlq b))
      fun _ _ b => writing _ b
  case h_2 => exact writing s b
  case h_3 => simp

theorem boolWrite_prompt : (boolWrite : MinCodecWrite Unit SliceMut Bool).Prompt :=
  fun _ s b => Polled.lift_ne_pending (sufficient_ne_pending
    ((BitBufMut.writeBool s.item b).1, (), (BitBufMut.writeBool s.item b).2))

def flagListRead : MinCodecRead Unit Slice (Vec Bool 1) :=
  vecRead boolRead 1

def flagsKind : Kind Unit Slice SliceMut :=
  ⟨flagsWrite, flagListRead⟩

def flagsMessage : Message Unit Slice SliceMut :=
  ⟨flagsWrite, flagListRead, twoFlags⟩

def firstFlags : Sending Unit SliceMut :=
  (Sending.new flagsWrite twoFlags).turns [takes 0, takes 2]

def bothFlags : Sending Unit SliceMut :=
  (firstFlags.again twoFlags).turns [takes 0, takes 2]

theorem flagsWrite_quiet : flagsWrite.Quiet :=
  (vecWrite_prompt boolWrite_prompt 1).quiet

theorem firstFlags_steps {Allowed : {U : Type} → MinCodecWrite Unit SliceMut U → U → Prop} :
    Sending.Steps Allowed (Sending.InFull : _ → WriteMoment Unit Empty → Prop)
      (.new flagsWrite twoFlags) firstFlags ∧ firstFlags.writer.isDone := by
  have ⟨hr, hd⟩ : Sending.Runs TakesAll (.new flagsWrite twoFlags) [takes 0, takes 2] ∧
      firstFlags.writer.isDone := by
    decide +kernel
  exact ⟨hr.inFull flagsWrite_quiet, hd⟩

theorem bothFlags_steps {Allowed : {U : Type} → MinCodecWrite Unit SliceMut U → U → Prop} :
    Sending.Steps Allowed (Sending.InFull : _ → WriteMoment Unit Empty → Prop)
      (firstFlags.again twoFlags) bothFlags := by
  have hr : Sending.Runs TakesAll (firstFlags.again twoFlags) [takes 0, takes 2] := by decide +kernel
  exact hr.inFull flagsWrite_quiet

def readFlag (x : UInt8) : Reading Unit Slice :=
  (new flagListRead).turns SliceMut (earlyReads 2 ++ laterReads x 2)

def readFlags (x y : UInt8) : Reading Unit Slice :=
  (readFlag x).again.turns SliceMut (nextReads y)

theorem flagListRead_decodes : ∃ p, flagListRead.Decodes False p :=
  ⟨_, vecRead_decodes boolRead_decodes 1⟩

theorem readFlags_steps {x y : UInt8}
    (h : Runs SliceMut (Served [2, x, 2, y]) (new flagListRead) (earlyReads 2 ++ laterReads x 2))
    (hc : (readFlag x).reader.state = .complete)
    (h' : Runs SliceMut (Served [2, x, 2, y]) (readFlag x).again (nextReads y))
    {Ok : Reading Unit Slice → ReadMoment Unit Unit → Prop}
    (ho : ∀ {this m}, Served [2, x, 2, y] this m → this.Quiet m.ctx → this.type = flagsKind.type →
      Ok this m) :
    Steps SliceMut (Resumable False Drained) Ok (new flagListRead) (readFlags x y) :=
  h.served_again (new_inv flagListRead_decodes.choose_spec) rfl (fun hi _ => hi.quiet) hc h' ho

def flagsSent : Link Unit Slice SliceMut :=
  ⟨[flagsMessage, flagsMessage], bothFlags, new flagListRead⟩

def flagsLink : Link Unit Slice SliceMut :=
  { flagsSent with reading := readFlags 192 192 }

theorem flagsMessage_conveys : flagsMessage.Weighs 2 ∧
    ∃ w, flagsMessage.Conveys False Drained w := by
  have hs : Sized flagListRead flagsWrite (vecSize SliceMut fun _ => 1) := .vec 1 .bool
  have hv : vecSize SliceMut (fun _ => 1) twoFlags = 10 := by decide +kernel
  have ⟨bits, _, hc⟩ := hs.conveys twoFlags (.inl (hv ▸ by decide)) ()
  exact ⟨⟨_, hs, congrArg (fun n => (n + 7) / 8) hv.symm⟩, bits, hc⟩

theorem flagsLink_steps : Link.Steps Empty Unit False Drained (fun _ => flagsKind)
    (.new flagsMessage) flagsLink := by
  have ⟨hsent, hr, hc, hr'⟩ : flagsSent.sent = [2, 192, 2, 192] ∧
      Runs SliceMut (Served [2, 192, 2, 192]) (new flagListRead) (earlyReads 2 ++ laterReads 192 2) ∧
      (readFlag 192).reader.state = .complete ∧
      Runs SliceMut (Served [2, 192, 2, 192]) (readFlag 192).again (nextReads 192) := by
    decide +kernel
  have ⟨hw, hd⟩ := @firstFlags_steps fun _ _ => False
  have ⟨_, w, hconveys⟩ := flagsMessage_conveys
  have hfirst : Link.Steps Empty Unit False Drained (fun _ => flagsKind) (.new flagsMessage)
      ⟨[flagsMessage], firstFlags, new flagListRead⟩ :=
    Link.steps_of_write (hw.mono id Sending.InFull.steady)
  have hnext : Link.Step Empty Unit False Drained (fun _ => flagsKind)
      ⟨[flagsMessage], firstFlags, new flagListRead⟩
      ⟨[flagsMessage, flagsMessage], firstFlags.again twoFlags, new flagListRead⟩ :=
    .next rfl hconveys (.reset (Sending.reset_of_isDone hd twoFlags))
  have hboth : Link.Steps Empty Unit False Drained (fun _ => flagsKind)
      ⟨[flagsMessage, flagsMessage], firstFlags.again twoFlags, new flagListRead⟩ flagsSent :=
    Link.steps_of_write (bothFlags_steps.mono id Sending.InFull.steady)
  exact ((hfirst.tail hnext).trans hboth).trans
    (flagsSent.steps_of_read (readFlags_steps hr hc hr' (Link.receives_served flagsKind hsent)))

theorem Link.frameless_flags : flagsLink.sent.length = 4 ∧ flagsLink.reading.taken.length = 32 := by
  have ⟨hd, hs, hi⟩ : flagsLink.sending.writer.state = .complete ∧
      flagsLink.reading.reader.state = .complete ∧ flagsLink.reading.items.length = 2 := by
    decide +kernel
  have ⟨hw, w, hc⟩ := flagsMessage_conveys
  have ⟨_, hsent, htaken⟩ := frameless rfl hc flagsLink_steps (.cons hw (.cons hw .nil)) ()
  refine ⟨hsent hd, ?_⟩
  rw [htaken hs, hi]
  rfl

end

end Mincodec
