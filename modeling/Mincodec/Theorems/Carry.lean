import Mincodec.Theorems.AsyncWriter

-- What an `AsyncWriter` carries over to the next buffer, for serializers that may ask for it after any
-- bit.
namespace Mincodec

open Stream BitSink

variable {Ctx B U E : Type}

-- The serializer of the item writes `bits`, and may be out of room after any of them.
def WritesBits [BitSink B] (w : MinCodecWrite Ctx B U) (item : U) (bits : List Bool) : Prop :=
  Encodes (fun _ => True) w.pollSerialize (w.serialize item) (.done bits)

def Sent.Exact [BitSink B] (s : Sent Ctx B) : Prop :=
  ∀ bits, WritesBits s.codec s.item bits → Bits.IsCut bits s.bytes

namespace AsyncWriter

variable {w : MinCodecWrite Ctx B U} {this : AsyncWriter w} {accepted : List UInt8}
variable {bits : List Bool}

def carried (this : AsyncWriter w) : List Bool :=
  (Bits.ofBytes this.buffer).take this.cursor

section

variable [BitSink B]

def GoesOn (this : AsyncWriter w) (rest : List Bool) : Prop :=
  Encodes (fun _ => True) w.pollSerialize this.serializer (.done rest)

-- What has been accepted is the front of the bits cut into bytes, and in the end all of it. Until then
-- the buffer carries what comes next, with less than a byte of it while the serializer is polled, and
-- the serializer goes on after it.
structure Carries (this : AsyncWriter w) (accepted : List UInt8) (bits : List Bool) : Prop where
  prefix_cut : ∃ bytes, Bits.IsCut bits bytes ∧ accepted <+: bytes
  isCut      : this.state = .complete → Bits.IsCut bits accepted
  carry      : this.state ≠ .complete →
    ∃ rest, bits = Bits.ofBytes accepted ++ this.carried ++ rest ∧
      if this.done then rest = [] else this.GoesOn rest
  cursor_lt  : this.state = .serialize → this.cursor < 8

inductive Stage (this : AsyncWriter w) (accepted : List UInt8) (bits : List Bool) : Prop
  | serialize : this.state = .serialize → this.done = false → this.cursor = 0 →
    (∃ rest, bits = Bits.ofBytes accepted ++ rest ∧ this.GoesOn rest) → Stage this accepted bits
  | flush : this.state = .writing → this.done = false → this.cursor ≤ 8 * asyncWriterBufSize →
    (∃ rest, bits = Bits.ofBytes accepted ++ this.carried ++ rest ∧ this.GoesOn rest) →
    Stage this accepted bits
  | last : this.state = .writing → this.done = true → this.cursor ≤ 8 * asyncWriterBufSize →
    bits = Bits.ofBytes accepted ++ this.carried → Stage this accepted bits
  | complete : this.state = .complete → this.cursor = 0 → Bits.IsCut bits accepted →
    Stage this accepted bits

structure Flushes (this : AsyncWriter w) (accepted : List UInt8) (bits : List Bool) : Prop where
  length_eq : this.buffer.length = asyncWriterBufSize
  stage     : this.Stage accepted bits

theorem new_flushes {item : U} (h : WritesBits w item bits) : (new w item).Flushes [] bits where
  length_eq := List.length_replicate
  stage     := .serialize rfl rfl rfl ⟨bits, rfl, h⟩

theorem prefix_cut_of_eq {rest : List Bool} (h : bits = Bits.ofBytes accepted ++ rest) :
    ∃ bytes, Bits.IsCut bits bytes ∧ accepted <+: bytes := by
  obtain ⟨ys, hy⟩ := Bits.IsCut.exists rest
  exact ⟨accepted ++ ys, h ▸ hy.append _, List.prefix_append ..⟩

theorem Flushes.carries (h : this.Flushes accepted bits) : this.Carries accepted bits := by
  cases h.stage
  case serialize hs hd hc hu =>
    obtain ⟨rest, hb, hr⟩ := hu
    exact
      { prefix_cut  := prefix_cut_of_eq hb
        isCut h     := by simp [hs] at h
        carry _     := ⟨rest, by simpa [carried, hc] using hb, by simpa [hd] using hr⟩
        cursor_lt _ := by rw [hc]; decide }
  case flush hs hd hc hu     =>
    obtain ⟨rest, hb, hr⟩ := hu
    exact
      { prefix_cut  := prefix_cut_of_eq (hb.trans (List.append_assoc ..))
        isCut h     := by simp [hs] at h
        carry _     := ⟨rest, hb, by simpa [hd] using hr⟩
        cursor_lt h := by simp [hs] at h }
  case last hs hd hc hb      =>
    exact
      { prefix_cut  := prefix_cut_of_eq hb
        isCut h     := by simp [hs] at h
        carry _     := ⟨[], by simpa using hb, by simp [hd]⟩
        cursor_lt h := by simp [hs] at h }
  case complete hs _ h       =>
    exact
      { prefix_cut  := ⟨_, h, List.prefix_rfl⟩
        isCut _     := h
        carry h     := absurd hs h
        cursor_lt h := by simp [hs] at h }

end

section

variable [BitSliceMut B] [LawfulBitSliceMut B]

namespace Flushes

theorem serialize_flushes (h : this.Flushes accepted bits) (hs : this.state = .serialize)
    {m : WriteMoment Ctx E} (hq : this.Quiet m.ctx) :
    ¬(this.turn m.ctx m.write).1.Panics ∧
      (this.turn m.ctx m.write).2.Flushes (accepted ++ this.accepts m.write) bits := by
  have ha : this.accepts m.write = [] := by simp only [accepts, hs]
  rw [ha, List.append_nil]
  cases h.stage
  case flush hs' _ _ _ | last hs' _ _ _ | complete hs' _ _ => simp [hs] at hs'
  case serialize hd hc hu =>
    obtain ⟨rest, hb, hr⟩ := hu
    obtain ⟨b, hadv, hib, hfb⟩ := BitSliceMut.exists_window (B := B) this.buffer (Nat.zero_le _)
    rw [← hc] at hadv
    rw [turn_serialize hs hadv]
    have hwrites : Writes _ _ _ b (this.poll m.ctx b) := hr.writes m.ctx b
    obtain ⟨u, hw, hx⟩ := hwrites
    obtain ⟨hlen, hul, hbuf, hcur⟩ := polled h.length_eq hib hfb hw
    have hcur : this.cursor + BitBufMut.len (this.poll m.ctx b).buf = u.length := by
      rw [hc, hcur, Nat.zero_add]
    cases ho : (this.poll m.ctx b).outcome
    case panicked msg => simp [ho, Emission.done] at hx
    case pending      =>
      simp only [ho] at hx
      obtain ⟨f, hf, hgo⟩ := hx
      obtain ⟨v, hv, hrest⟩ := Emission.prepend_eq_done hf.symm
      subst hv
      have hu : u = [] := by
        have := hq b hadv ho
        rw [hw.filled_eq] at this
        exact List.eq_nil_of_length_eq_zero (by omega)
      rw [hu, List.nil_append] at hrest
      simp only [serialized, ho, Flow.Panics]
      exact ⟨id, hlen, .serialize hs hd hc ⟨v, hrest ▸ hb, hgo⟩⟩
    case insufficient =>
      simp only [ho] at hx
      obtain ⟨_, f, hf, hgo⟩ := hx
      obtain ⟨v, hv, hrest⟩ := Emission.prepend_eq_done hf.symm
      subst hv
      simp only [serialized, ho, hcur, Flow.Panics]
      refine ⟨id, hlen, .flush rfl hd hul ⟨v, ?_, hgo⟩⟩
      rw [carried, hbuf, List.append_assoc, ← hrest, hb]
    case ready r      =>
      simp only [ho] at hx
      injection hx with hrest he
      injection he with he
      subst he
      simp only [serialized, ho, hcur, Flow.Panics]
      refine ⟨id, hlen, .last rfl rfl hul ?_⟩
      rw [carried, hbuf, ← hrest, hb]

theorem writing_flushes (h : this.Flushes accepted bits) (hs : this.state = .writing)
    {m : WriteMoment Ctx E} (hw : m.write = .ready (.ok this.offered.length))
    (hm : this.done = false → this.cursor % 8 = 0) :
    ¬(this.turn m.ctx m.write).1.Panics ∧
      (this.turn m.ctx m.write).2.Flushes (accepted ++ this.accepts m.write) bits := by
  have hacc : this.accepts m.write = this.offered := by
    simp only [accepts, hs, hw, List.take_length]
  rw [hacc]
  cases h.stage
  case serialize hs' _ _ _ | complete hs' _ _ => simp [hs] at hs'
  case flush hd hc hu =>
    obtain ⟨rest, hb, hr⟩ := hu
    have hm := hm hd
    have hdiv := divide_aligned hm
    have hcl : this.cursor / 8 ≤ this.buffer.length := by
      rw [h.length_eq]
      omega
    have ho := offered_of_divide hdiv
    have hol := length_offered hdiv hcl
    rw [turn_writing hs hdiv hcl]
    simp only [answered, wrote, hw, hol, hd, hm, le_refl, Nat.sub_self, if_true,
      Bool.false_eq_true, if_false, Flow.Panics]
    refine ⟨id, by rw [List.length_set, h.length_eq], .serialize rfl rfl rfl ⟨rest, ?_, hr⟩⟩
    have hc : 8 * (this.cursor / 8) = this.cursor := Nat.mul_div_cancel' (Nat.dvd_of_mod_eq_zero hm)
    rw [hb, carried, ho, Bits.ofBytes_append, Bits.ofBytes_take, hc]
  case last hd hc hb =>
    have hdiv := divide_last hd (.inl rfl)
    have hcl : (this.cursor + 7) / 8 ≤ this.buffer.length := by
      rw [h.length_eq]
      omega
    have ho := offered_of_divide hdiv
    have hol := length_offered hdiv hcl
    rw [turn_writing hs hdiv hcl]
    simp only [answered, wrote, hw, hol, hd, le_refl, Nat.sub_self, if_true, Flow.Panics]
    refine ⟨id, h.length_eq, .complete rfl rfl ?_⟩
    rw [hb, ho]
    exact (Bits.isCut_take this.buffer this.cursor).append accepted

end Flushes

end

end AsyncWriter

namespace Sending

variable [BitSliceMut B] [LawfulBitSliceMut B]

-- The transport accepts everything as a whole, the serializer is quiet, and no buffer is flushed that
-- ends inside a byte before the item is done.
def Aligned (this : Sending Ctx B) (m : WriteMoment Ctx E) : Prop :=
  this.InFull m ∧
    (this.writer.state = .writing → this.writer.done = false → this.writer.cursor % 8 = 0)

def HasBits (w : MinCodecWrite Ctx B U) (item : U) : Prop :=
  ∃ bits, WritesBits w item bits

structure Kept (this : Sending Ctx B) : Prop where
  hasBits : HasBits this.codec this.item
  flushes : ∀ bits, WritesBits this.codec this.item bits →
    this.writer.Flushes this.accepted bits
  before  : ∀ s ∈ this.before, s.Exact

namespace Kept

variable {this next : Sending Ctx B} {m : WriteMoment Ctx E}

theorem turn_kept (h : Kept this) (hm : this.Aligned m) (hs : this.writer.state ≠ .complete) :
    ¬(this.turn m).1.Panics ∧ Kept (this.after m) := by
  have hf {bits : List Bool} (hb : WritesBits this.codec this.item bits) :
      ¬(this.turn m).1.Panics ∧
        (this.turn m).2.Flushes (this.accepted ++ this.writer.accepts m.write) bits := by
    cases hs' : this.writer.state
    case complete  => exact absurd hs' hs
    case serialize => exact (h.flushes _ hb).serialize_flushes hs' hm.1.2
    case writing   => exact (h.flushes _ hb).writing_flushes hs' hm.1.1 (hm.2 hs')
  obtain ⟨_, hb⟩ := h.hasBits
  exact ⟨(hf hb).1,
    { hasBits     := h.hasBits
      flushes _ h := (hf h).2
      before      := h.before }⟩

theorem next_kept (h : Kept this) (hs : this.writer.state = .complete) {w : MinCodecWrite Ctx B U}
    {writer : AsyncWriter w} {item : U} (hb : HasBits w item)
    (hf : ∀ bits, WritesBits w item bits → writer.Flushes [] bits) :
    Kept (this.next writer item) where
  hasBits     := hb
  flushes     := hf
  before s hm := by
    cases List.mem_append.mp hm
    case inl hm => exact h.before s hm
    case inr hm =>
      cases List.mem_singleton.mp hm
      exact fun bits hb => (h.flushes bits hb).carries.isCut hs

theorem step_kept (h : Kept this)
    (hs : Step HasBits (Aligned : Sending Ctx B → WriteMoment Ctx E → Prop) this next) :
    Kept next := by
  cases hs
  case turn m hm hp         =>
    refine (h.turn_kept hm fun hs => hp ?_).2
    simp only [turn, AsyncWriter.turn, hs, Flow.Panics]
  case reset item writer hb hr =>
    have hs : this.writer.state = .complete := by
      cases hs : this.writer.state
      case complete => rfl
      all_goals simp [AsyncWriter.reset, hs] at hr
    simp only [AsyncWriter.reset, hs, Option.some.injEq] at hr
    subst hr
    refine h.next_kept hs hb fun bits hw => ?_
    obtain ⟨_, hb⟩ := h.hasBits
    have hf := h.flushes _ hb
    refine ⟨hf.length_eq, .serialize rfl rfl ?_ ⟨bits, rfl, hw⟩⟩
    cases hf.stage
    case complete hc _ => exact hc
    case serialize hs' _ _ _ | flush hs' _ _ _ | last hs' _ _ _ => simp [hs] at hs'
  case rebuild hb hd        =>
    exact h.next_kept (AsyncWriter.complete_of_isDone hd) hb fun _ => AsyncWriter.new_flushes

theorem steps_kept (h : Kept this)
    (hs : Steps HasBits (Aligned : Sending Ctx B → WriteMoment Ctx E → Prop) this next) :
    Kept next := by
  induction hs
  case refl         => exact h
  case tail hs hi   => exact hi.step_kept hs

end Kept

end Sending

section

open Sending

variable [BitSliceMut B] [LawfulBitSliceMut B]

-- If no buffer ends inside a byte before the item is done, what an incomplete byte would have to carry
-- over is nothing, and then every step is in order.
theorem asyncWriter_carries {w : MinCodecWrite Ctx B U} {item : U} (h : HasBits w item)
    {this : Sending Ctx B} (hs : Steps HasBits
      (Aligned : Sending Ctx B → WriteMoment Ctx E → Prop) (.new w item) this) :
    (∀ s ∈ this.before, s.Exact) ∧
    (∀ bits, WritesBits this.codec this.item bits → this.writer.Carries this.accepted bits) ∧
    ∀ m : WriteMoment Ctx E, this.Aligned m → this.writer.state ≠ .complete →
      ¬(this.turn m).1.Panics := by
  have hnew : Kept (.new w item) :=
    { hasBits   := h
      flushes _ := AsyncWriter.new_flushes
      before    := nofun }
  have hk := hnew.steps_kept hs
  exact ⟨hk.before, fun bits hb => (hk.flushes bits hb).carries, fun m hm hs =>
    (hk.turn_kept hm hs).1⟩

end

section

open Sending

def writeChunks : List (List Bool) → SliceMut →
    Polled (List (List Bool)) SliceMut (Except Empty Unit)
  | [], b      => ⟨.ready (.ok ()), [], b⟩
  | w :: ws, b =>
    (sufficient (SliceMut.drainInto w b)).andThen (· :: ws) id fun _ _ b =>
      match ws with
      | []     => ⟨.ready (.ok ()), [], b⟩
      | _ :: _ => ⟨.insufficient, ws, b⟩

def chunksWrite : MinCodecWrite Unit SliceMut (List (List Bool)) where
  Serialize       := List (List Bool)
  Error           := Empty
  serialize       := id
  pollSerialize _ := writeChunks

theorem chunksWrite_writesBits (ws : List (List Bool)) : WritesBits chunksWrite ws ws.flatten := by
  let R (s : List (List Bool)) (e : Emission Empty) : Prop :=
    (s = [] ∧ e = .done []) ∨ ∃ d ws w, s = d :: ws ∧ Drains SliceMut.drainInto d w ∧
      e = .done (w ++ ws.flatten)
  have hR (ws : List (List Bool)) : R ws (.done ws.flatten) := by
    cases ws
    case nil       => exact .inl ⟨rfl, rfl⟩
    case cons w ws => exact .inr ⟨w, ws, w, rfl, SliceMut.drainInto_drains w, rfl⟩
  refine ⟨R, ?_, hR ws⟩
  rintro c s e b (⟨rfl, rfl⟩ | ⟨d, ws, w, rfl, hd, rfl⟩)
  case inl => exact .ready
  case inr =>
    have hw := (hd.writes b).mono (fun _ _ => trivial) fun _ _ => id
    show Writes _ _ ((Emission.done w).seq (.done ws.flatten)) b (writeChunks (d :: ws) b)
    unfold writeChunks
    apply hw.andThen_id
    · rintro s _ ⟨w, hd, rfl⟩
      exact .inr ⟨s, ws, w, rfl, hd, rfl⟩
    · intro s b'
      cases ws
      case nil       => exact .ready
      case cons w ws => exact ⟨[], .refl b', trivial, _, rfl, hR _⟩

theorem chunksWrite_prompt : chunksWrite.Prompt := by
  intro c s b
  cases s
  case nil       => simp [chunksWrite, writeChunks]
  case cons w ws =>
    apply Polled.andThen_ne_pending (sufficient_ne_pending (SliceMut.drainInto w b))
    intro _ _ b
    cases ws <;> simp

def newChunks (ws : List (List Bool)) : Sending Unit SliceMut :=
  .new chunksWrite ws

def chunks : List (List Bool) :=
  [129, 24, 36, 66].map Bits.ofByte

def chunkAnswers : List (WriteMoment Unit Empty) :=
  [takes 0, takes 1, takes 0, takes 1]

def nextChunks : Sending Unit SliceMut :=
  ((newChunks (chunks.take 2)).turns chunkAnswers).again (chunks.drop 2)

def WholeBytes (this : Sending Unit SliceMut) (m : WriteMoment Unit Empty) : Prop :=
  TakesAll this m ∧
    (this.writer.state = .writing → this.writer.done = false → this.writer.cursor % 8 = 0)

instance (this : Sending Unit SliceMut) (m : WriteMoment Unit Empty) :
    Decidable (WholeBytes this m) :=
  inferInstanceAs (Decidable (_ ∧ (_ → _ → _)))

theorem Sending.Runs.aligned {this : Sending Unit SliceMut} {ms : List (WriteMoment Unit Empty)}
    (h : Runs WholeBytes this ms) (hq : this.codec.Quiet) :
    Steps HasBits (Aligned : _ → WriteMoment Unit Empty → Prop) this (this.turns ms) :=
  (h.steps (P := fun this => this.codec.Quiet) hq (fun hq _ _ => hq) fun hq h =>
    ⟨⟨h.1, AsyncWriter.quiet hq _ _⟩, h.2⟩).1

theorem asyncWriter_carries_chunks :
    (∀ s ∈ (nextChunks.turns chunkAnswers).before, s.Exact) ∧
    (nextChunks.turns chunkAnswers).before.map Sent.bytes = [[129, 24]] ∧
    Bits.IsCut (chunks.drop 2).flatten [36, 66] ∧
    (nextChunks.turns (chunkAnswers.take 3)).writer.Carries [36] (chunks.drop 2).flatten := by
  have ⟨hr, hd, hr', hr'', hb⟩ : Runs WholeBytes (newChunks (chunks.take 2)) chunkAnswers ∧
      ((newChunks (chunks.take 2)).turns chunkAnswers).writer.isDone ∧
      Runs WholeBytes nextChunks chunkAnswers ∧ Runs WholeBytes nextChunks (chunkAnswers.take 3) ∧
      (nextChunks.turns chunkAnswers).before.map Sent.bytes = [[129, 24]] := by
    decide +kernel
  have ⟨hs, ha, ha'⟩ : (nextChunks.turns chunkAnswers).writer.state = .complete ∧
      (nextChunks.turns chunkAnswers).accepted = [36, 66] ∧
      (nextChunks.turns (chunkAnswers.take 3)).accepted = [36] := by
    decide +kernel
  have hnext : Steps HasBits (Aligned : _ → WriteMoment Unit Empty → Prop)
      (newChunks (chunks.take 2)) nextChunks :=
    (hr.aligned chunksWrite_prompt.quiet).trans (steps_again ⟨_, chunksWrite_writesBits _⟩ hd)
  have ⟨he, hc, _⟩ := asyncWriter_carries ⟨_, chunksWrite_writesBits _⟩
    (hnext.trans (hr'.aligned chunksWrite_prompt.quiet))
  have ⟨_, hc', _⟩ := asyncWriter_carries ⟨_, chunksWrite_writesBits _⟩
    (hnext.trans (hr''.aligned chunksWrite_prompt.quiet))
  exact ⟨he, hb, ha ▸ (hc _ (chunksWrite_writesBits _)).isCut hs, ha' ▸ hc' _ (chunksWrite_writesBits _)⟩

def newSplit : Sending Unit SliceMut :=
  newChunks [[true], [false]]

def splitAnswers : List (WriteMoment Unit Empty) :=
  [takes 0, takes 0, takes 0, takes 1]

-- The bit of the first buffer is lost, which should be at the front of the byte 128.
theorem asyncWriter_drops :
    WritesBits chunksWrite [[true], [false]] [true, false] ∧
    Steps HasBits (InFull : Sending Unit SliceMut → WriteMoment Unit Empty → Prop) newSplit
      (newSplit.turns splitAnswers) ∧
    (newSplit.turns splitAnswers).writer.isDone ∧ (newSplit.turns splitAnswers).accepted = [0] ∧
    Bits.IsCut [true, false] [128] ∧ ¬Bits.IsCut [true, false] [0] := by
  have ⟨hr, hd, ha⟩ : Runs TakesAll newSplit splitAnswers ∧
      (newSplit.turns splitAnswers).writer.isDone ∧ (newSplit.turns splitAnswers).accepted = [0] := by
    decide +kernel
  refine ⟨chunksWrite_writesBits _, hr.inFull chunksWrite_prompt.quiet, hd, ha, ?cut, ?not_cut⟩
  case cut     => exact ⟨List.replicate 6 false, by decide, by decide⟩
  case not_cut =>
    intro h
    obtain ⟨pad, _, h⟩ := h
    have h₀ : (Bits.ofBytes [0]).head? = some false := by decide
    rw [h] at h₀
    cases h₀

end

end Mincodec
