import Mincodec.Meaning
import Mincodec.Run.Transfer
import Mincodec.Theorems.Canonical
import Mincodec.Theorems.Items
import Mincodec.Theorems.ReaderInv
import Mincodec.Theorems.Frameless

-- A relay: the items that a reader returns are given to a writer.
namespace Mincodec

open Stream BitSource BitSink Reading

variable {Ctx B B' U V E E' : Type}

def Sending.finished (this : Sending Ctx B') : List (Sent Ctx B') :=
  if this.writer.isDone then this.all else this.before

theorem Sending.mem_all_of_finished {this : Sending Ctx B'} {s : Sent Ctx B'}
    (hm : s ∈ this.finished) : s ∈ this.all := by
  unfold finished at hm
  split at hm
  case isFalse => exact List.mem_append_left _ hm
  case isTrue  => exact hm

-- The same bits, with whatever padding.
def SamePayload (xs ys : List UInt8) : Prop :=
  ∃ bits, Bits.IsCut bits xs ∧ Bits.IsCut bits ys

section

variable [BitSource B] {Wait : Prop} {Stop : B → Prop}

theorem Reading.Chain.exists_prefix {items more : List (Item Ctx B)} {start : List Bool}
    (h : Chain Wait Stop (items ++ more) start) :
    ∃ front, Chain Wait Stop items front ∧ front <+: start := by
  induction more using List.reverseRecOn generalizing start
  case nil              => exact ⟨start, by simpa using h, List.prefix_rfl⟩
  case append_singleton more item hi =>
    rw [← List.append_assoc] at h
    generalize hl : items ++ more ++ [item] = all at h
    cases h
    case nil                        => simp at hl
    case snoc as a start u skip hc _ _ _ _ =>
      obtain ⟨rfl, _⟩ := List.append_inj' hl rfl
      have ⟨front, hf, hp⟩ := hi hc
      exact ⟨front, hf, hp.trans (List.prefix_append ..)⟩

def Message.Fits (msg : Message Ctx B B') (bytes : List UInt8) : Prop :=
  ∃ u, Bits.IsCut u bytes ∧
    ∀ p, msg.read.Decodes False p → p.Halts u (.finished (.ok msg.item))

theorem Reading.Chain.exists_chunks {messages : List (Message Ctx B B')} {start : List Bool}
    (h : Chain False Drained (messages.map Message.received) start) :
    ∃ chunks, start = Bits.ofBytes chunks.flatten ∧ List.Forall₂ Message.Fits messages chunks := by
  induction messages using List.reverseRecOn generalizing start
  case nil                          =>
    generalize hl : ([] : List (Message Ctx B B')).map Message.received = all at h
    cases h
    case nil  => exact ⟨[], rfl, .nil⟩
    case snoc => simp at hl
  case append_singleton messages msg hi =>
    rw [List.map_append] at h
    generalize hl : messages.map Message.received ++ [msg].map Message.received = all at h
    cases h
    case nil                                     => simp at hl
    case snoc items item start u skip hc _ hh hlt hmod =>
      obtain ⟨rfl, hitem⟩ := List.append_inj' hl rfl
      obtain rfl : msg.received = item := List.head_eq_of_cons_eq hitem
      have ⟨chunks, hstart, hf⟩ := hi hc
      have hb : Bits.ofBytes (Bits.toBytes (u ++ skip)) = u ++ skip := by
        apply Bits.ofBytes_toBytes
        rw [hstart, List.length_append, Bits.length_ofBytes] at hmod
        omega
      refine ⟨chunks ++ [Bits.toBytes (u ++ skip)], ?_, List.rel_append hf (.cons ?_ .nil)⟩
      case refine_1 =>
        rw [List.flatten_append, Bits.ofBytes_append, List.flatten_singleton, hb, hstart]
      case refine_2 => exact ⟨u, ⟨skip, hlt, hb⟩, hh⟩

end

section

variable [BitSlice B] [LawfulBitSlice B] [BitSliceMut B'] [LawfulBitSliceMut B'] [CanonicalVlq B B']

theorem Sending.Inv.finished {this : Sending Ctx B'} (h : this.Inv) {s : Sent Ctx B'}
    (hm : s ∈ this.finished) : s.Whole := by
  unfold Sending.finished at hm
  split at hm
  case isFalse   => exact h.before s hm
  case isTrue hd => exact h.whole hd s hm

theorem Message.Fits.samePayload {msg : Message Ctx B B'} {bytes : List UInt8} (h : msg.Fits bytes)
    (hf : Format (.standard : Scope Ctx B B') msg.read msg.write) (ctx : Ctx) {s : Sent Ctx B'}
    (hc : msg.Carried s) (hs : Interruptible s.codec s.item) (hw : s.Whole) :
    SamePayload bytes s.bytes := by
  have ⟨u, hcut, hu⟩ := h
  have ⟨p, enc, hr, hwrite, hp⟩ := hf.canonical (fun _ => id) False.elim False.elim
  obtain rfl := hp.eq_of_halts (hu p hr)
  rw [hc] at hs hw
  have ⟨e, he⟩ := hs
  have ⟨b, hb⟩ := exists_room B' (enc msg.item).length
  have hsent := hw e he.outputs
  rw [he.eq_done (hwrite msg.item ctx b) hb] at hsent
  exact ⟨_, hcut, hsent⟩

theorem Message.Fits.samePayloads {messages : List (Message Ctx B B')} {chunks : List (List UInt8)}
    (h : List.Forall₂ Message.Fits messages chunks)
    (hf : ∀ msg ∈ messages, Format (.standard : Scope Ctx B B') msg.read msg.write) (ctx : Ctx)
    {sents : List (Sent Ctx B')} (hc : List.Forall₂ Message.Carried messages sents)
    (hs : ∀ s ∈ sents, Interruptible s.codec s.item ∧ s.Whole) :
    List.Forall₂ SamePayload chunks (sents.map Sent.bytes) := by
  induction h generalizing sents
  case nil         =>
    cases hc
    exact .nil
  case cons h _ hi =>
    cases hc
    case cons hc hcs =>
      have ⟨hser, hw⟩ := hs _ (.head _)
      exact .cons (h.samePayload (hf _ (.head _)) ctx hc hser hw)
        (hi (fun msg hm => hf msg (.tail _ hm)) hcs fun s hm => hs s (.tail _ hm))

variable {r : MinCodecRead Ctx B U} {w : MinCodecWrite Ctx B' V} {item : V}

-- Whatever bytes a reader is given, and by whomever: if the items that it returns are given to a
-- writer, then that sends them as the bytes that they have been decoded from, but for the padding of
-- each item.
theorem relay_forwards (hr : Resumable False Drained r) {reading : Reading Ctx B}
    (hreads : Reading.Steps B' (Resumable False Drained)
      (Valid : Reading Ctx B → ReadMoment Ctx E → Prop) (.new r) reading)
    (hi : Interruptible w item) {sending : Sending Ctx B'}
    (hsends : Sending.Steps Interruptible
      (Sending.Steady : Sending Ctx B' → WriteMoment Ctx E' → Prop) (.new w item) sending)
    {messages : List (Message Ctx B B')}
    (hm : messages.map Message.received <+: reading.items)
    (hc : List.Forall₂ Message.Carried messages sending.finished)
    (hf : ∀ msg ∈ messages, Format (.standard : Scope Ctx B B') msg.read msg.write) (ctx : Ctx) :
    ∃ chunks, chunks.flatten <+: reading.delivered ∧
      List.Forall₂ SamePayload chunks (sending.finished.map Sent.bytes) := by
  have ⟨p, hp⟩ := hr
  have hinv : Inv False Drained reading :=
    (new_inv hp).steps_inv id (fun hi hv => ⟨hv, hi.quiet _⟩) hreads
  have hsend := (Sending.new_inv hi.serializable).steps_inv Interruptible.serializable id hsends
  have ⟨hbefore, hlast⟩ := hsends.allowed nofun hi
  have hall : ∀ s ∈ sending.all, Interruptible s.codec s.item := by
    intro s hs
    cases List.mem_append.mp hs
    case inl hs => exact hbefore s hs
    case inr hs =>
      obtain rfl := List.mem_singleton.mp hs
      exact hlast
  have ⟨start, rest, hchain, hbits⟩ := hinv.exists_chain []
  have ⟨more, hmore⟩ := hm
  rw [← hmore] at hchain
  have ⟨front, hfront, hle⟩ := hchain.exists_prefix
  have ⟨chunks, hstart, hfits⟩ := hfront.exists_chunks
  refine ⟨chunks, ?_, Message.Fits.samePayloads hfits hf ctx hc fun s hs =>
    ⟨hall s (Sending.mem_all_of_finished hs), hsend.finished hs⟩⟩
  rw [List.append_nil] at hbits
  exact Bits.prefix_of_ofBytes (hstart ▸ hle.trans ⟨rest, hbits.symm⟩)

end

section

def flagBits : List Bool :=
  [false, false, false, false, false, false, true, false, true, true]

def writtenFlags : Polled flagsWrite.Serialize SliceMut (Except Empty Unit) :=
  pollAgain flagsWrite.pollSerialize [()] (flagsWrite.serialize twoFlags) (BitSliceMut.new [0, 0])

theorem flagsMessage_parses : flagsMessage.Parses False Drained flagBits := by
  have ⟨_, w, hw, hp⟩ := flagsMessage_conveys
  have hr : writtenFlags.outcome = .ready (.ok ()) := rfl
  have hb : written (BitSliceMut.new [0, 0]) writtenFlags.buf = flagBits := by decide +kernel
  obtain rfl : w = flagBits := (Emission.mk.inj (hw.written_eq hr)).1.trans hb
  exact hp

-- The bits behind each item are not those of a writer.
def paddedChunks : List (List UInt8) :=
  [[2, 255], [2, 193]]

theorem paddedChunks_holds : List.Forall₂ (Message.Holds False Drained)
    [flagsMessage, flagsMessage] paddedChunks :=
  .cons ⟨_, flagsMessage_parses, [true, true, true, true, true, true], by decide, by decide⟩
    (.cons ⟨_, flagsMessage_parses, [false, false, false, false, false, true], by decide, by decide⟩
      .nil)

theorem paddedFlags_steps {Ok : Reading Unit Slice → ReadMoment Unit Unit → Prop}
    (ho : ∀ {this m}, Served [2, 255, 2, 193] this m → this.Quiet m.ctx →
      this.type = flagsKind.type → Ok this m) :
    Steps SliceMut (Resumable False Drained) Ok (new flagListRead) (readFlags 255 193) := by
  have ⟨hr, hc, hr'⟩ :
      Runs SliceMut (Served [2, 255, 2, 193]) (new flagListRead) (earlyReads 2 ++ laterReads 255 2) ∧
      (readFlag 255).reader.state = .complete ∧
      Runs SliceMut (Served [2, 255, 2, 193]) (readFlag 255).again (nextReads 193) := by
    decide +kernel
  exact readFlags_steps hr hc hr' ho

theorem flagsMessages_at : ∀ {n : Nat}, n < 2 →
    ∃ msg, [flagsMessage, flagsMessage][n]? = some msg ∧ flagsKind.type = msg.type
  | 0, _ | 1, _ => ⟨flagsMessage, rfl, rfl⟩

theorem paddedFlags_items :
    (readFlags 255 193).items = [flagsMessage, flagsMessage].map Message.received := by
  have hi : (readFlags 255 193).items.length = 2 := by decide +kernel
  have hr : Steps SliceMut (Resumable False Drained)
      (Receives [flagsMessage, flagsMessage] paddedChunks.flatten : _ → ReadMoment Unit Unit → Prop)
      (new flagListRead) (readFlags 255 193) :=
    paddedFlags_steps fun hm hq ht =>
      ⟨hm.1, hq, hm.2.1, (flagsMessages_at hm.2.2).imp fun _ h => ⟨h.1, ht.trans h.2⟩⟩
  have hinv : Inv False Drained (readFlags 255 193) :=
    (new_inv flagListRead_decodes.choose_spec).steps_inv id (fun _ h => ⟨h.1, h.2.1⟩) hr
  have h := ((Fed.new paddedChunks_holds flagListRead).steps id hr).meets_items hinv
  rw [h.eq_take hi.le, hi]
  rfl

theorem relay_forwards_flags : bothFlags.finished.map Sent.bytes = [[2, 192], [2, 192]] ∧
    ∃ chunks, chunks.flatten <+: [2, 255, 2, 193] ∧
      List.Forall₂ SamePayload chunks (bothFlags.finished.map Sent.bytes) := by
  have ⟨hdone, hsent, hdelivered⟩ : bothFlags.writer.isDone ∧
      bothFlags.finished.map Sent.bytes = [[2, 192], [2, 192]] ∧
      (readFlags 255 193).delivered = [2, 255, 2, 193] := by
    decide +kernel
  have ⟨_, w, hw, _⟩ := flagsMessage_conveys
  have hi : Interruptible flagsWrite twoFlags := ⟨_, hw⟩
  have ⟨hfirst, hd⟩ := @firstFlags_steps Interruptible
  have hfull : Sending.Steps Interruptible (Sending.InFull : _ → WriteMoment Unit Empty → Prop)
      (.new flagsWrite twoFlags) bothFlags :=
    (hfirst.trans (Sending.steps_again hi hd)).trans bothFlags_steps
  have hc : List.Forall₂ Message.Carried [flagsMessage, flagsMessage] bothFlags.finished := by
    rw [Sending.finished, if_pos hdone]
    exact .cons rfl (.cons rfl .nil)
  have hf : ∀ msg ∈ [flagsMessage, flagsMessage],
      Format (.standard : Scope Unit Slice SliceMut) msg.read msg.write := by
    intro msg hm
    obtain rfl : msg = flagsMessage := by simpa using hm
    exact .vec 1 trivial .bool
  have hreads : Steps SliceMut (Resumable False Drained)
      (Valid : Reading Unit Slice → ReadMoment Unit Unit → Prop) (new flagListRead) (readFlags 255 193) :=
    paddedFlags_steps fun hm _ _ => hm.1
  have h := relay_forwards flagListRead_decodes hreads hi (hfull.mono id Sending.InFull.steady)
    (paddedFlags_items ▸ List.prefix_rfl) hc hf ()
  exact ⟨hsent, hdelivered ▸ h⟩

end

end Mincodec
