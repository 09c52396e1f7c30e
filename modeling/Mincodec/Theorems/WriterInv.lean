import Mincodec.Run.Writer

-- The invariant of the runs of an `AsyncWriter`.
namespace Mincodec

open Stream BitSink

variable {Ctx B U E : Type}

namespace AsyncWriter

variable {w : MinCodecWrite Ctx B U} {this : AsyncWriter w}

theorem divide_aligned (hc : this.cursor % 8 = 0) :
    this.divide = .ok (0, { this with cursor := this.cursor / 8 }) := by
  simp only [divide, hc, if_true]

theorem divide_full (hc : this.cursor = 8 * asyncWriterBufSize) :
    this.divide = .ok (0, { this with cursor := asyncWriterBufSize }) := by
  have hm : this.cursor % 8 = 0 := hc ▸ Nat.mul_mod_right ..
  rw [divide_aligned hm, hc, Nat.mul_div_cancel_left _ (by decide)]

theorem divide_last (hd : this.done = true) {k : Nat}
    (hc : this.cursor = k ∨ this.cursor = 1 ∧ 0 < k ∧ k ≤ 8) :
    this.divide = .ok (0, { this with cursor := (k + 7) / 8 }) := by
  unfold divide
  simp only [hd, if_true]
  split
  case isTrue hm =>
    have hk : this.cursor / 8 = (k + 7) / 8 := by omega
    rw [hk]
  case isFalse hm =>
    have hk : this.cursor / 8 + 1 = (k + 7) / 8 := by omega
    rw [hk]

theorem complete_of_isDone (h : this.isDone) : this.state = .complete := by
  cases hs : this.state
  case complete => rfl
  all_goals simp [isDone, hs] at h

theorem offered_of_divide {l : UInt8} {cursor : Nat}
    (hd : this.divide = .ok (l, { this with cursor })) : this.offered = this.buffer.take cursor := by
  simp only [offered, hd]

theorem length_offered {l : UInt8} {cursor : Nat} (hd : this.divide = .ok (l, { this with cursor }))
    (hl : cursor ≤ this.buffer.length) : this.offered.length = cursor := by
  rw [offered_of_divide hd, List.length_take_of_le hl]

-- `poll` is ready with `Ok` only when the last bytes have been accepted.
theorem complete_of_wrote {re size : Nat} {l : UInt8}
    (h : (this.wrote (E := E) re l size).1 = .ret (.ready (.ok ()))) :
    (this.wrote (E := E) re l size).2.state = .complete := by
  unfold wrote at h ⊢
  by_cases hs : size ≤ this.cursor <;> by_cases hc : this.cursor - size = 0 <;>
    cases hd : this.done <;> simp_all

section

variable [BitSink B]

def Underway (this : AsyncWriter w) (e : Emission w.Error) (u : List Bool) : Prop :=
  ∃ f, e = f.prepend u ∧
    EncodesIn (fun _ _ b => Fresh b) Full w.pollSerialize this.serializer f

-- How the bytes that have been accepted and the bits in the buffer make up the emission `e`. When the
-- last bytes are offered again the cursor counts bytes, which does no harm if there is only one.
inductive Phase (this : AsyncWriter w) (accepted : List UInt8) (e : Emission w.Error) : Prop
  | serialize : this.state = .serialize → this.done = false → this.cursor = 0 →
    this.Underway e (Bits.ofBytes accepted) → Phase this accepted e
  | full : this.state = .writing → this.done = false → this.cursor = 8 * asyncWriterBufSize →
    this.Underway e (Bits.ofBytes accepted ++ Bits.ofBytes this.buffer) → Phase this accepted e
  | last {k : Nat} : this.state = .writing → this.done = true → k ≤ 8 * asyncWriterBufSize →
    (this.cursor = k ∨ this.cursor = 1 ∧ 0 < k ∧ k ≤ 8) →
    e.bits = Bits.ofBytes accepted ++ (Bits.ofBytes this.buffer).take k → Phase this accepted e
  | complete : this.state = .complete → this.cursor = 0 → Bits.IsCut e.bits accepted →
    Phase this accepted e

structure Tracks (this : AsyncWriter w) (accepted : List UInt8) (e : Emission w.Error) : Prop where
  length_eq : this.buffer.length = asyncWriterBufSize
  phase     : this.Phase accepted e

-- What has been accepted is the front of the cut of the emission.
theorem Tracks.prefix_cut {accepted : List UInt8} {e : Emission w.Error}
    (h : this.Tracks accepted e) : ∃ bytes, Bits.IsCut e.bits bytes ∧ accepted <+: bytes := by
  suffices h : Bits.IsCut e.bits accepted ∨ ∃ bs, e.bits = Bits.ofBytes accepted ++ bs by
    cases h
    case inl h => exact ⟨_, h, List.prefix_rfl⟩
    case inr h =>
      have ⟨bs, h⟩ := h
      have ⟨ys, hy⟩ := Bits.IsCut.exists bs
      exact ⟨accepted ++ ys, h ▸ hy.append _, List.prefix_append ..⟩
  cases h.phase
  case complete h => exact .inl h
  case last h     => exact .inr ⟨_, h⟩
  case serialize hu =>
    obtain ⟨f, he, _⟩ := hu
    exact .inr ⟨f.bits, congrArg Emission.bits he⟩
  case full hu =>
    obtain ⟨f, he, _⟩ := hu
    exact .inr ⟨_, (congrArg Emission.bits he).trans (List.append_assoc ..)⟩

theorem Tracks.isCut {accepted : List UInt8} {e : Emission w.Error} (h : this.Tracks accepted e)
    (hs : this.state = .complete) : Bits.IsCut e.bits accepted := by
  cases h.phase
  case complete h => exact h
  case serialize hs' _ _ _ | full hs' _ _ _ | last hs' _ _ _ _ => simp [hs] at hs'

theorem new_tracks {item : U} {e : Emission w.Error} (h : Outputs w item e) : (new w item).Tracks [] e where
  length_eq := List.length_replicate
  phase     := .serialize rfl rfl rfl ⟨e, by simp, h⟩

theorem fresh_of_image {b : B} (hl : this.buffer.length = asyncWriterBufSize)
    (hi : image b = Bits.ofBytes this.buffer) (hf : filled b = 0) : Fresh b :=
  ⟨hf, by rw [hi, Bits.length_ofBytes, hl]⟩

theorem Tracks.reset_tracks {accepted : List UInt8} {e e' : Emission w.Error}
    (h : this.Tracks accepted e) {item : U} {writer : AsyncWriter w}
    (hr : this.reset item = some writer) (ho : Outputs w item e') :
    this.state = .complete ∧ writer.Tracks [] e' := by
  unfold reset at hr
  split at hr
  case h_2    => cases hr
  case h_1 hs =>
    cases hr
    refine ⟨hs, h.length_eq, .serialize rfl rfl ?_ ⟨e', by simp, ho⟩⟩
    cases h.phase
    case complete hc _ => exact hc
    case serialize hs' _ _ _ | full hs' _ _ _ | last hs' _ _ _ _ => simp [hs] at hs'

end

section

variable [BitSliceMut B]

theorem turn_serialize (hs : this.state = .serialize) {b : B}
    (hb : BitSliceMut.advance this.cursor (BitSliceMut.new this.buffer) = some b)
    (m : WriteMoment Ctx E) : this.turn m.ctx m.write = this.serialized (this.poll m.ctx b) := by
  simp only [turn, hs, turnSerialize, hb]
  rfl

theorem turn_writing (hs : this.state = .writing) {cursor : Nat}
    (hd : this.divide = .ok (0, { this with cursor })) (hl : cursor ≤ this.buffer.length)
    (m : WriteMoment Ctx E) :
    this.turn m.ctx m.write = { this with cursor }.answered (this.cursor % 8) 0 m.write := by
  simp only [turn, hs, turnWriting, hd, hl, if_true]

theorem complete_of_ready {m : WriteMoment Ctx E}
    (h : (this.turn m.ctx m.write).1 = .ret (.ready (.ok ()))) :
    (this.turn m.ctx m.write).2.state = .complete := by
  unfold turn at h ⊢
  cases hs : this.state
  case complete  => simp [hs] at h
  case serialize =>
    simp only [hs, turnSerialize, serialized] at h
    split at h
    case h_1 => split at h <;> cases h
    case h_2 => cases h
  case writing   =>
    simp only [hs, turnWriting] at h ⊢
    match hd : this.divide with
    | .error msg    => simp [hd] at h
    | .ok (l, that) =>
      simp only [hd] at h ⊢
      by_cases hl : that.cursor ≤ that.buffer.length
      case neg => simp [hl] at h
      case pos =>
        simp only [hl, if_true, answered] at h ⊢
        match hw : m.write with
        | .pending | .ready (.error x) | .panicked msg => simp [hw] at h
        | .ready (.ok size) =>
          simp only [hw] at h ⊢
          exact complete_of_wrote h

end

variable [BitSliceMut B] [LawfulBitSliceMut B] {accepted : List UInt8} {e : Emission w.Error}

theorem poll_writes {P : Ctx → w.Serialize → B → Prop} {Stop : B → Prop} {f : Emission w.Error}
    (h : EncodesIn P Stop w.pollSerialize this.serializer f) (ctx : Ctx) {b : B}
    (hb : P ctx this.serializer b) :
    Writes Stop (EncodesIn P Stop w.pollSerialize) f b (this.poll ctx b) :=
  h.writes hb

theorem polled (hl : this.buffer.length = asyncWriterBufSize) {b b' : B} {u : List Bool}
    (hib : image b = Bits.ofBytes this.buffer) (hfb : filled b = 0) (hu : Produces b u b') :
    (BitSliceMut.bytes b').length = asyncWriterBufSize ∧ u.length ≤ 8 * asyncWriterBufSize ∧
      (Bits.ofBytes (BitSliceMut.bytes b')).take u.length = u ∧ BitBufMut.len b' = u.length := by
  refine ⟨(BitSliceMut.length_bytes hib hu).trans hl, ?_, ?_, ?_⟩
  · have := hu.fits
    rw [hib, Bits.length_ofBytes, hl] at this
    omega
  · have := take_overwrite (w := u) (Nat.zero_le (Bits.ofBytes this.buffer).length)
    rw [BitSliceMut.ofBytes_bytes hib hu, hfb]
    simpa using this
  · rw [LawfulBitBufMut.len_eq, hu.filled_eq, hfb, Nat.zero_add]

namespace Tracks

theorem exists_window (h : this.Tracks accepted e) (hs : this.state = .serialize) : ∃ b : B,
    BitSliceMut.advance this.cursor (BitSliceMut.new this.buffer) = some b ∧
      image b = Bits.ofBytes this.buffer ∧ filled b = 0 := by
  cases h.phase
  case serialize hc _ =>
    rw [hc]
    exact BitSliceMut.exists_window _ (Nat.zero_le _)
  case full hs' _ _ _ | last hs' _ _ _ _ | complete hs' _ _ => simp [hs] at hs'

theorem serialize_tracks (h : this.Tracks accepted e) (hs : this.state = .serialize)
    {m : WriteMoment Ctx E} (hq : this.Quiet m.ctx) (hp : ¬(this.turn m.ctx m.write).1.Panics) :
    (this.turn m.ctx m.write).2.Tracks (accepted ++ this.accepts m.write) e := by
  have ⟨b, hb, hib, hfb⟩ := h.exists_window hs
  have ha : this.accepts m.write = [] := by simp only [accepts, hs]
  rw [turn_serialize hs hb] at hp ⊢
  rw [ha, List.append_nil]
  cases h.phase
  case full hs' _ _ _ | last hs' _ _ _ _ | complete hs' _ _ => simp [hs] at hs'
  case serialize hd hc hu =>
    have ⟨f, he, hf⟩ := hu
    have ⟨u, hw, hx⟩ := poll_writes hf m.ctx (fresh_of_image h.length_eq hib hfb)
    have ⟨hlen, hul, hbuf, hcur⟩ := polled h.length_eq hib hfb hw
    have hcur : this.cursor + BitBufMut.len (this.poll m.ctx b).buf = u.length := by
      rw [hc, hcur, Nat.zero_add]
    match ho : (this.poll m.ctx b).outcome with
    | .panicked msg =>
      simp [serialized, ho, Flow.Panics] at hp
    | .pending =>
      simp only [ho] at hx
      have ⟨f', hf', hr⟩ := hx
      have hu : u = [] := by
        have := hq b hb ho
        rw [hw.filled_eq] at this
        exact List.eq_nil_of_length_eq_zero (by omega)
      rw [hu, Emission.prepend_nil] at hf'
      simp only [serialized, ho]
      exact ⟨hlen, .serialize hs hd hc ⟨f', hf' ▸ he, hr⟩⟩
    | .insufficient =>
      simp only [ho] at hx
      have ⟨hfull, f', hf', hr⟩ := hx
      have hul : u.length = 8 * asyncWriterBufSize := by
        have hroom := hw.room_eq
        rw [show room (this.poll m.ctx b).buf = 0 from hfull, room, hib, hfb, Bits.length_ofBytes,
          h.length_eq] at hroom
        omega
      rw [List.take_of_length_le (by rw [Bits.length_ofBytes, hlen, hul])] at hbuf
      simp only [serialized, ho, hcur]
      refine ⟨hlen, .full rfl hd hul ⟨f', ?_, hr⟩⟩
      rw [he, hf', Emission.prepend_prepend, hbuf]
    | .ready (.ok ()) | .ready (.error x) =>
      simp only [ho] at hx
      simp only [serialized, ho, hcur]
      refine ⟨hlen, .last rfl rfl hul (.inl rfl) ?_⟩
      rw [hbuf, he, hx]
      rfl

theorem full_tracks (h : this.Tracks accepted e) (hs : this.state = .writing) (hd : this.done = false)
    (hc : this.cursor = 8 * asyncWriterBufSize)
    (hu : this.Underway e (Bits.ofBytes accepted ++ Bits.ofBytes this.buffer))
    {m : WriteMoment Ctx E} (ha : this.Accepts m.write) :
    (this.turn m.ctx m.write).2.Tracks (accepted ++ this.accepts m.write) e := by
  have hdiv := divide_full hc
  have hl := h.length_eq
  have ho := offered_of_divide hdiv
  rw [List.take_of_length_le hl.le] at ho
  have hw := ha (by rw [ho, hl]; decide)
  have hacc : this.accepts m.write = this.buffer := by
    simp only [accepts, hs, hw, ho, List.take_length]
  rw [turn_writing hs hdiv hl.ge, hacc]
  simp only [answered, wrote, hw, ho, hl, hd, hc, le_refl, Nat.sub_self, if_true,
    Bool.false_eq_true, if_false]
  refine ⟨by rw [List.length_set, hl], .serialize rfl rfl (Nat.mul_mod_right ..) ?_⟩
  rw [Bits.ofBytes_append]
  exact hu

theorem last_tracks (h : this.Tracks accepted e) (hs : this.state = .writing) (hd : this.done = true)
    {k : Nat} (hk : k ≤ 8 * asyncWriterBufSize)
    (hc : this.cursor = k ∨ this.cursor = 1 ∧ 0 < k ∧ k ≤ 8)
    (he : e.bits = Bits.ofBytes accepted ++ (Bits.ofBytes this.buffer).take k)
    {m : WriteMoment Ctx E} (hv : this.Valid m.write) (ha : this.Accepts m.write) :
    (this.turn m.ctx m.write).2.Tracks (accepted ++ this.accepts m.write) e := by
  have hdiv := divide_last hd hc
  have hcl : (k + 7) / 8 ≤ this.buffer.length := by
    rw [h.length_eq]
    omega
  have hol := length_offered hdiv hcl
  unfold Valid at hv
  rw [turn_writing hs hdiv hcl]
  -- What is offered again is a single byte, or nothing.
  have again (hne : m.write ≠ .ready (.ok this.offered.length)) :
      (k + 7) / 8 = k ∨ (k + 7) / 8 = 1 ∧ 0 < k ∧ k ≤ 8 := by
    by_contra hk'
    exact hne (ha (by omega))
  match hw : m.write with
  | .panicked msg => simp only [hw] at hv
  | .pending | .ready (.error x) =>
    have hacc : this.accepts m.write = [] := by simp only [accepts, hs, hw]
    rw [hw] at hacc
    rw [hacc, List.append_nil]
    exact ⟨h.length_eq, .last hs hd hk (again (by simp [hw])) he⟩
  | .ready (.ok size) =>
    simp only [hw, hol] at hv
    have hacc : this.accepts m.write = (this.buffer.take ((k + 7) / 8)).take size := by
      simp only [accepts, hs, hw, offered_of_divide hdiv]
    rw [hw] at hacc
    simp only [answered, wrote, hv, if_true, hd, hacc, Nat.sub_eq_zero_iff_le]
    split
    case isTrue hle =>
      have hcut := (Bits.isCut_take this.buffer k).append accepted
      rw [← he] at hcut
      rw [List.take_take, Nat.min_eq_left hv, Nat.le_antisymm hv hle]
      exact ⟨h.length_eq, .complete rfl (Nat.sub_self _) hcut⟩
    case isFalse hlt =>
      have hk' := again (by rw [hw, hol]; simp; omega)
      obtain rfl : size = 0 := by omega
      rw [List.take_zero, List.append_nil]
      exact ⟨h.length_eq, .last hs rfl hk hk' he⟩

theorem writing_tracks (h : this.Tracks accepted e) (hs : this.state = .writing)
    {m : WriteMoment Ctx E} (hv : this.Valid m.write) (ha : this.Accepts m.write) :
    (this.turn m.ctx m.write).2.Tracks (accepted ++ this.accepts m.write) e := by
  cases h.phase
  case serialize hs' _ _ _ | complete hs' _ _ => simp [hs] at hs'
  case full _ hd hc hu       => exact h.full_tracks hs hd hc hu ha
  case last _ _ hd hk hc he  => exact h.last_tracks hs hd hk hc he hv ha

theorem turn_tracks (h : this.Tracks accepted e) {m : WriteMoment Ctx E} (hv : this.Valid m.write)
    (ha : this.Accepts m.write) (hq : this.Quiet m.ctx)
    (hp : ¬(this.turn m.ctx m.write).1.Panics) :
    (this.turn m.ctx m.write).2.Tracks (accepted ++ this.accepts m.write) e := by
  match hs : this.state with
  | .serialize => exact h.serialize_tracks hs hq hp
  | .writing   => exact h.writing_tracks hs hv ha
  | .complete  => simp [turn, hs, Flow.Panics] at hp

end Tracks

end AsyncWriter

namespace Sending

variable [BitSliceMut B] [LawfulBitSliceMut B]

-- Every item is tracked, whichever emission says what its serializer writes.
structure Inv (this : Sending Ctx B) : Prop where
  serializable : Serializable this.codec this.item
  tracks       : ∀ e, Outputs this.codec this.item e → this.writer.Tracks this.accepted e
  before       : ∀ s ∈ this.before, s.Whole

theorem new_inv {w : MinCodecWrite Ctx B U} {item : U} (h : Serializable w item) :
    Inv (new w item) where
  serializable := h
  tracks _ he  := AsyncWriter.new_tracks he
  before _     := nofun

namespace Inv

variable {this : Sending Ctx B}

theorem turn_inv (hi : Inv this) {m : WriteMoment Ctx E} (hm : this.Steady m)
    (hp : ¬(this.turn m).1.Panics) : Inv (this.after m) where
  serializable := hi.serializable
  tracks e he  := (hi.tracks e he).turn_tracks hm.1 hm.2.1 hm.2.2 hp
  before       := hi.before

theorem next_inv (hi : Inv this) (hs : this.writer.state = .complete) {w : MinCodecWrite Ctx B U}
    {writer : AsyncWriter w} {item : U} (h : Serializable w item)
    (hw : ∀ e, Outputs w item e → writer.Tracks [] e) :
    Inv (this.next writer item) where
  serializable := h
  tracks       := hw
  before s hm  := by
    cases List.mem_append.mp hm
    case inl hm => exact hi.before s hm
    case inr hm =>
      obtain rfl := List.mem_singleton.mp hm
      exact fun e he => (hi.tracks e he).isCut hs

variable {Allowed : {U : Type} → MinCodecWrite Ctx B U → U → Prop}
variable {Ok : Sending Ctx B → WriteMoment Ctx E → Prop} {next : Sending Ctx B}

theorem reset_inv (hi : Inv this) {item : this.U} {writer : AsyncWriter this.codec}
    (h : Serializable this.codec item) (hr : this.writer.reset item = some writer) :
    Inv (this.next writer item) := by
  have ⟨e, he⟩ := hi.serializable
  have ⟨e', he'⟩ := h
  exact hi.next_inv ((hi.tracks e he).reset_tracks hr he').1 h fun _ ho =>
    ((hi.tracks e he).reset_tracks hr ho).2

theorem step_inv (hi : Inv this) (hr : ∀ {U} {w : MinCodecWrite Ctx B U} {item}, Allowed w item →
    Serializable w item) (ho : ∀ {this m}, Ok this m → this.Steady m)
    (h : Step Allowed Ok this next) : Inv next := by
  cases h
  case turn m hm hp => exact hi.turn_inv (ho hm) hp
  case reset h hr' => exact hi.reset_inv (hr h) hr'
  case rebuild h hd =>
    exact hi.next_inv (AsyncWriter.complete_of_isDone hd) (hr h) fun _ => AsyncWriter.new_tracks

theorem steps_inv (hi : Inv this) (hr : ∀ {U} {w : MinCodecWrite Ctx B U} {item}, Allowed w item →
    Serializable w item) (ho : ∀ {this m}, Ok this m → this.Steady m)
    (h : Steps Allowed Ok this next) : Inv next := by
  induction h
  case refl       => exact hi
  case tail hs hi => exact hi.step_inv hr ho hs

end Inv

end Sending

end Mincodec
