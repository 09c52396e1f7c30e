import Mincodec.Stream.Parser
import Mincodec.Stream.Poll

namespace Stream

-- A buffer to write bits into: the bits of the whole buffer, and how many have been written.
class BitSink (B : Type) where
  image     : B → List Bool
  filled    : B → Nat
  filled_le : ∀ b, filled b ≤ (image b).length

open BitSink

def overwrite (bs : List Bool) (n : Nat) (w : List Bool) : List Bool :=
  bs.take n ++ w ++ bs.drop (n + w.length)

theorem take_overwrite {bs w : List Bool} {n : Nat} (h : n ≤ bs.length) :
    (overwrite bs n w).take (n + w.length) = bs.take n ++ w := by
  unfold overwrite
  rw [List.take_append_of_le_length (by simp; omega)]
  exact List.take_of_length_le (by simp only [List.length_append, List.length_take]; omega)

variable {B : Type} [BitSink B]

def room (b : B) : Nat :=
  (image b).length - filled b

def Full (b : B) : Prop :=
  room b = 0

def written (b b' : B) : List Bool :=
  ((image b').drop (filled b)).take (filled b' - filled b)

structure Produces (b : B) (w : List Bool) (b' : B) : Prop where
  fits      : filled b + w.length ≤ (image b).length
  filled_eq : filled b' = filled b + w.length
  image_eq  : image b' = overwrite (image b) (filled b) w

namespace Produces

variable {b b₁ b₂ : B} {u w : List Bool}

theorem length_image (h : Produces b w b₁) : (image b₁).length = (image b).length := by
  have := h.fits
  simp [h.image_eq, overwrite]
  omega

theorem take_image (h : Produces b w b₁) :
    (image b₁).take (filled b) = (image b).take (filled b) := by
  have hl : ((image b).take (filled b)).length = filled b := List.length_take_of_le (filled_le b)
  rw [h.image_eq, overwrite, List.append_assoc, List.take_append_of_le_length (by omega),
    List.take_of_length_le (by omega)]

theorem refl (b : B) : Produces b [] b where
  fits      := by simpa using filled_le b
  filled_eq := rfl
  image_eq  := by simp [overwrite]

theorem trans (h₁ : Produces b u b₁) (h₂ : Produces b₁ w b₂) : Produces b (u ++ w) b₂ where
  fits := by
    have := h₂.fits
    rw [h₁.length_image, h₁.filled_eq] at this
    simpa [Nat.add_assoc] using this
  filled_eq := by rw [h₂.filled_eq, h₁.filled_eq, List.length_append, Nat.add_assoc]
  image_eq := by
    have := h₁.fits
    rw [h₂.image_eq, h₁.image_eq, h₁.filled_eq]
    have hl : ((image b).take (filled b) ++ u).length = filled b + u.length := by simp; omega
    simp only [overwrite]
    rw [List.take_append_of_le_length (by omega), List.take_of_length_le (by omega),
      List.drop_append, List.drop_of_length_le (by omega), hl, List.nil_append, List.drop_drop]
    simp only [List.length_append, List.append_assoc]
    congr 4
    omega

theorem room_eq (h : Produces b w b₁) : room b = w.length + room b₁ := by
  have := h.fits
  simp only [room, h.length_image, h.filled_eq]
  omega

theorem written_eq (h : Produces b w b₁) : written b b₁ = w := by
  have hl : ((image b).take (filled b)).length = filled b := by
    have := h.fits
    simp only [List.length_take]
    omega
  unfold written
  rw [h.filled_eq, h.image_eq, overwrite, List.append_assoc, List.drop_append,
    List.drop_of_length_le (by omega), hl]
  simp

end Produces

-- The meaning of an encoder: the bits it writes, and how it ends after them.
@[ext]
structure Emission (ε : Type) where
  bits   : List Bool
  ending : Ending ε Unit

namespace Emission

variable {ε ε' : Type}

def done (w : List Bool) : Emission ε :=
  ⟨w, .finished (.ok ())⟩

def prepend (w : List Bool) (e : Emission ε) : Emission ε :=
  { e with bits := w ++ e.bits }

def mapErr (e : Emission ε) (g : ε → ε') : Emission ε' where
  bits   := e.bits
  ending := match e.ending with
    | .finished (.ok ())   => .finished (.ok ())
    | .finished (.error x) => .finished (.error (g x))
    | .panicked m          => .panicked m

def seq (e f : Emission ε) : Emission ε :=
  match e.ending with
  | .finished (.ok ()) => ⟨e.bits ++ f.bits, f.ending⟩
  | _                  => e

@[simp] theorem prepend_nil (e : Emission ε) : e.prepend [] = e := rfl

@[simp] theorem prepend_prepend (u w : List Bool) (e : Emission ε) :
    (e.prepend w).prepend u = e.prepend (u ++ w) := by
  simp [prepend]

@[simp] theorem prepend_done (u w : List Bool) :
    (done w : Emission ε).prepend u = done (u ++ w) := rfl

theorem prepend_mapErr (w : List Bool) (e : Emission ε) (g : ε → ε') :
    (e.prepend w).mapErr g = (e.mapErr g).prepend w := rfl

theorem prepend_seq (w : List Bool) (e f : Emission ε) :
    (e.prepend w).seq f = (e.seq f).prepend w := by
  unfold seq prepend
  split <;> simp_all

@[simp] theorem mapErr_done (w : List Bool) (g : ε → ε') : (done w).mapErr g = done w := rfl

@[simp] theorem done_seq (w : List Bool) (e : Emission ε) : (done w).seq e = e.prepend w := rfl

@[simp] theorem seq_done_nil (e : Emission ε) : e.seq (done []) = e := by
  obtain ⟨w, _ | _⟩ := e
  case finished r => cases r <;> simp [seq, done]
  case panicked m => rfl

theorem seq_assoc (e f h : Emission ε) : (e.seq f).seq h = e.seq (f.seq h) := by
  obtain ⟨w, d⟩ := e
  cases d
  case panicked m => rfl
  case finished r =>
    cases r
    case error x => rfl
    case ok u    => exact prepend_seq w f h

theorem seq_eq_done {e f : Emission ε} {w : List Bool} (h : e.seq f = done w) :
    ∃ u v, e = done u ∧ f = done v ∧ w = u ++ v := by
  obtain ⟨u, d⟩ := e
  match d with
  | .panicked m           => simp [seq, done] at h
  | .finished (.error x)  => simp [seq, done] at h
  | .finished (.ok ())    =>
    have hb := congrArg Emission.bits h
    have he := congrArg Emission.ending h
    exact ⟨u, f.bits, rfl, Emission.ext rfl he, hb.symm⟩

theorem prepend_eq_done {e : Emission ε} {u w : List Bool} (h : e.prepend u = done w) :
    ∃ v, e = done v ∧ w = u ++ v := by
  have hb := congrArg Emission.bits h
  have he := congrArg Emission.ending h
  exact ⟨e.bits, Emission.ext rfl he, hb.symm⟩

@[simp] theorem mapErr_id (e : Emission ε) : e.mapErr id = e := by
  unfold mapErr
  ext1 <;> simp only
  split <;> simp_all

end Emission

section

variable {C S S' ε ε' : Type}

-- A poll on `b` writes some bits `w`, the next bits of the emission `e`: unfinished polls leave a
-- state that is related to the emission that is left, finished polls end as `e` does. `Stop` holds
-- of a buffer on which the computation reports to be out of room.
structure Writes (Stop : B → Prop) (R : S → Emission ε → Prop) (e : Emission ε) (b : B)
    (x : Polled S B (Except ε Unit)) : Prop where
  exists_produces : ∃ w, Produces b w x.buf ∧
    match x.outcome with
    | .pending      => ∃ f, e = f.prepend w ∧ R x.state f
    | .insufficient => Stop x.buf ∧ ∃ f, e = f.prepend w ∧ R x.state f
    | .ready r      => e = ⟨w, .finished r⟩
    | .panicked m   => e = ⟨w, .panicked m⟩

variable {Stop : B → Prop} {R : S → Emission ε → Prop} {R' : S' → Emission ε' → Prop}
variable {e : Emission ε} {b : B} {x : Polled S B (Except ε Unit)}

namespace Writes

theorem ready {s : S} : Writes Stop R (.done []) b ⟨.ready (.ok ()), s, b⟩ :=
  ⟨[], .refl b, rfl⟩

theorem mono {R₁ : S → Emission ε → Prop} {Stop₁ : B → Prop} (h : Writes Stop R e b x)
    (hs : ∀ b, Stop b → Stop₁ b) (hr : ∀ s f, R s f → R₁ s f) : Writes Stop₁ R₁ e b x := by
  have ⟨w, hw, h⟩ := h
  refine ⟨w, hw, ?_⟩
  split at h
  case h_1 =>
    have ⟨f, hf, h⟩ := h
    exact ⟨f, hf, hr _ _ h⟩
  case h_2 =>
    have ⟨hst, f, hf, h⟩ := h
    exact ⟨hs _ hst, f, hf, hr _ _ h⟩
  all_goals exact h

theorem prepend {w : List Bool} {b₁ : B} (h : Writes Stop R e b₁ x) (hw : Produces b w b₁) :
    Writes Stop R (e.prepend w) b x := by
  have ⟨w', hw', h⟩ := h
  refine ⟨w ++ w', hw.trans hw', ?_⟩
  split at h
  case h_1 =>
    have ⟨f, hf, h⟩ := h
    exact ⟨f, by rw [hf, Emission.prepend_prepend], h⟩
  case h_2 =>
    have ⟨hs, f, hf, h⟩ := h
    exact ⟨hs, f, by rw [hf, Emission.prepend_prepend], h⟩
  all_goals rw [h]; rfl

theorem andThen {put : S → S'} {g : ε → ε'} {k : Unit → S → B → Polled S' B (Except ε' Unit)}
    {f : Emission ε'} (h : Writes Stop R e b x)
    (hput : ∀ s e₁, R s e₁ → R' (put s) ((e₁.mapErr g).seq f))
    (hk : ∀ s b', Writes Stop R' f b' (k () s b')) :
    Writes Stop R' ((e.mapErr g).seq f) b (x.andThen put g k) := by
  have ⟨w, hw, h⟩ := h
  match hx : x.outcome with
  | .pending =>
    rw [Polled.andThen_pending hx]
    simp only [hx] at h
    have ⟨e₁, he, h⟩ := h
    refine ⟨w, hw, _, ?_, hput _ _ h⟩
    rw [he, Emission.prepend_mapErr, Emission.prepend_seq]
  | .insufficient =>
    rw [Polled.andThen_insufficient hx]
    simp only [hx] at h
    have ⟨hs, e₁, he, h⟩ := h
    refine ⟨w, hw, hs, _, ?_, hput _ _ h⟩
    rw [he, Emission.prepend_mapErr, Emission.prepend_seq]
  | .panicked m =>
    rw [Polled.andThen_panicked hx]
    simp only [hx] at h
    exact ⟨w, hw, h ▸ rfl⟩
  | .ready (.error y) =>
    rw [Polled.andThen_error hx]
    simp only [hx] at h
    exact ⟨w, hw, h ▸ rfl⟩
  | .ready (.ok ()) =>
    rw [Polled.andThen_ok hx]
    simp only [hx] at h
    have he : (e.mapErr g).seq f = f.prepend w := h ▸ rfl
    exact he ▸ (hk _ _).prepend hw

theorem andThen_id {put : S → S'} {k : Unit → S → B → Polled S' B (Except ε Unit)}
    {R' : S' → Emission ε → Prop} {f : Emission ε} (h : Writes Stop R e b x)
    (hput : ∀ s e₁, R s e₁ → R' (put s) (e₁.seq f))
    (hk : ∀ s b', Writes Stop R' f b' (k () s b')) :
    Writes Stop R' (e.seq f) b (x.andThen put id k) := by
  rw [← Emission.mapErr_id e]
  exact h.andThen (by simpa [Emission.mapErr_id] using hput) hk

theorem finish {put : S → S'} {g : ε → ε'} {k : Unit → S → B → Polled S' B (Except ε' Unit)}
    (h : Writes Stop R e b x) (hput : ∀ s e₁, R s e₁ → R' (put s) (e₁.mapErr g))
    (hk : ∀ s b', Writes Stop R' (.done []) b' (k () s b')) :
    Writes Stop R' (e.mapErr g) b (x.andThen put g k) := by
  rw [← Emission.seq_done_nil (e.mapErr g)]
  exact h.andThen (by simpa using hput) hk

theorem finish_id {put : S → S'} {k : Unit → S → B → Polled S' B (Except ε Unit)}
    {R' : S' → Emission ε → Prop} (h : Writes Stop R e b x)
    (hput : ∀ s e₁, R s e₁ → R' (put s) e₁)
    (hk : ∀ s b', Writes Stop R' (.done []) b' (k () s b')) :
    Writes Stop R' e b (x.andThen put id k) := by
  rw [← Emission.mapErr_id e]
  exact h.finish (by simpa using hput) hk

end Writes

def IsEncoding (Stop : B → Prop) (poll : C → S → B → Polled S B (Except ε Unit))
    (R : S → Emission ε → Prop) : Prop :=
  ∀ c s e b, R s e → Writes Stop R e b (poll c s b)

-- The computation in state `s` writes the emission `e`, however it is polled.
def Encodes (Stop : B → Prop) (poll : C → S → B → Polled S B (Except ε Unit)) (s : S)
    (e : Emission ε) : Prop :=
  ∃ R, IsEncoding Stop poll R ∧ R s e

theorem Encodes.writes {poll : C → S → B → Polled S B (Except ε Unit)} {s : S}
    (h : Encodes Stop poll s e) (c : C) (b : B) :
    Writes Stop (Encodes Stop poll) e b (poll c s b) := by
  have ⟨R, hr, h⟩ := h
  exact (hr c s e b h).mono (fun _ => id) fun _ _ h => ⟨R, hr, h⟩

def EncodesIn (P : C → S → B → Prop) (Stop : B → Prop)
    (poll : C → S → B → Polled S B (Except ε Unit)) (s : S) (e : Emission ε) : Prop :=
  ∃ R, (∀ c s e b, P c s b → R s e → Writes Stop R e b (poll c s b)) ∧ R s e

theorem Encodes.encodesIn {poll : C → S → B → Polled S B (Except ε Unit)} {s : S}
    (h : Encodes Stop poll s e) (P : C → S → B → Prop) : EncodesIn P Stop poll s e := by
  have ⟨R, hr, h⟩ := h
  exact ⟨R, fun c s e b _ h => hr c s e b h, h⟩

namespace EncodesIn

variable {P P₁ : C → S → B → Prop} {poll : C → S → B → Polled S B (Except ε Unit)} {s : S}

theorem writes (h : EncodesIn P Stop poll s e) {c : C} {b : B} (hp : P c s b) :
    Writes Stop (EncodesIn P Stop poll) e b (poll c s b) := by
  have ⟨R, hr, h⟩ := h
  exact (hr c s e b hp h).mono (fun _ => id) fun _ _ h => ⟨R, hr, h⟩

theorem mono (h : EncodesIn P Stop poll s e) (hp : ∀ c s b, P₁ c s b → P c s b) :
    EncodesIn P₁ Stop poll s e := by
  have ⟨R, hr, h⟩ := h
  exact ⟨R, fun c s e b h => hr c s e b (hp c s b h), h⟩

theorem pollAgain (hp : ∀ c s b, (poll c s b).outcome ≠ .insufficient → P c s b)
    (h : EncodesIn P Stop poll s e) (cs : List C) (b : B)
    (hx : (pollAgain poll cs s b).outcome ≠ .insufficient) :
    Writes Stop (EncodesIn P Stop poll) e b (pollAgain poll cs s b) := by
  induction cs generalizing s e b
  case nil => exact ⟨[], .refl b, e, rfl, h⟩
  case cons c cs hi =>
    by_cases ho : (poll c s b).outcome = .pending
    case neg =>
      have hpoll : Stream.pollAgain poll (c :: cs) s b = poll c s b := by
        unfold Stream.pollAgain
        split
        case h_1 ho' => exact absurd ho' ho
        case h_2     => rfl
      rw [hpoll] at hx ⊢
      exact h.writes (hp c s b hx)
    case pos =>
      have ⟨w, hw, hf⟩ := h.writes (hp c s b (by simp [ho]))
      simp only [Stream.pollAgain, ho] at hx hf ⊢
      have ⟨f, he, h⟩ := hf
      exact he ▸ (hi h _ hx).prepend hw

end EncodesIn

-- Polls with one buffer each, all of them unfinished but the last one, which is ready. Returns the
-- bits written into all the buffers.
inductive Finishes (poll : C → S → B → Polled S B (Except ε Unit)) :
    S → List (C × B) → List Bool → Prop
  | last {c : C} {s : S} {b : B} : (poll c s b).outcome = .ready (.ok ()) →
      Finishes poll s [(c, b)] (written b (poll c s b).buf)
  | more {c : C} {s : S} {b : B} {run : List (C × B)} {w : List Bool} :
      (poll c s b).outcome.Unfinished → Finishes poll (poll c s b).state run w →
      Finishes poll s ((c, b) :: run) (written b (poll c s b).buf ++ w)

theorem Encodes.finishes {poll : C → S → B → Polled S B (Except ε Unit)} {s : S}
    {run : List (C × B)} {w : List Bool} (h : Encodes Stop poll s e)
    (hf : Finishes poll s run w) : e = .done w := by
  induction hf generalizing e
  case last c s b hr =>
    have ⟨w, hw, h⟩ := h.writes c b
    rw [hr] at h
    rw [hw.written_eq, h]
    rfl
  case more c s b run w hu hf hi =>
    have ⟨w, hw, h⟩ := h.writes c b
    rw [hw.written_eq]
    cases hu
    case inl hp =>
      rw [hp] at h
      have ⟨f, he, h⟩ := h
      rw [he, hi h, Emission.prepend_done]
    case inr hi' =>
      rw [hi'] at h
      have ⟨_, f, he, h⟩ := h
      rw [he, hi h, Emission.prepend_done]

theorem Encodes.pollAgain {poll : C → S → B → Polled S B (Except ε Unit)} {s : S}
    (h : Encodes Stop poll s e) (cs : List C) (b : B) :
    Writes Stop (Encodes Stop poll) e b (pollAgain poll cs s b) := by
  induction cs generalizing s e b
  case nil => exact ⟨[], .refl b, e, rfl, h⟩
  case cons c cs hi =>
    have hw := h.writes c b
    unfold Stream.pollAgain
    split
    case h_2    => exact hw
    case h_1 hx =>
      have ⟨w, hw, h⟩ := hw
      rw [hx] at h
      have ⟨f, he, h⟩ := h
      exact he ▸ (hi h _).prepend hw

theorem Writes.once {w : List Bool} (h : Writes Full R (.done w) b x) (hb : w.length < room b)
    (hp : x.outcome ≠ .pending) : x.outcome = .ready (.ok ()) ∧ written b x.buf = w := by
  have ⟨w', hw, h⟩ := h
  rw [hw.written_eq]
  match hx : x.outcome with
  | .pending => exact absurd hx hp
  | .insufficient =>
    rw [hx] at h
    have ⟨hs, f, he, _⟩ := h
    have hr := hw.room_eq
    have hl := congrArg (List.length ·.bits) he
    simp only [Emission.done, Emission.prepend, List.length_append] at hl
    rw [show room x.buf = 0 from hs] at hr
    omega
  | .ready r =>
    rw [hx] at h
    cases h
    exact ⟨rfl, rfl⟩
  | .panicked m =>
    rw [hx] at h
    cases h

-- A single poll that is never pending: all the bits `w` if they fit, else as many as fit.
structure WritesOnce (w : List Bool) (b : B) (x : Polled S B (Except ε Unit)) : Prop where
  fits  : w.length ≤ room b → x.outcome = .ready (.ok ()) ∧ Produces b w x.buf
  short : room b < w.length → x.outcome = .insufficient ∧ Produces b (w.take (room b)) x.buf

namespace WritesOnce

variable {u w : List Bool}

theorem ready {s : S} :
    WritesOnce [] b (⟨.ready (.ok ()), s, b⟩ : Polled S B (Except ε Unit)) where
  fits _  := ⟨rfl, .refl b⟩
  short h := by simp at h

theorem andThen {put : S → S'} {g : ε → ε'} {k : Unit → S → B → Polled S' B (Except ε' Unit)}
    (h : WritesOnce u b x)
    (hk : ∀ s b', WritesOnce w b' (k () s b')) :
    WritesOnce (u ++ w) b (x.andThen put g k) := by
  by_cases hu : u.length ≤ room b
  case neg =>
    have ⟨hx, hp⟩ := h.short (by omega)
    rw [Polled.andThen_insufficient hx]
    refine ⟨fun hl => ?_, fun _ => ⟨rfl, ?_⟩⟩
    · simp only [List.length_append] at hl; omega
    · rwa [List.take_append_of_le_length (by omega)]
  case pos =>
    have ⟨hx, hp⟩ := h.fits hu
    have hr := hp.room_eq
    have hk := hk x.state x.buf
    rw [Polled.andThen_ok hx]
    refine ⟨fun hl => ?_, fun hl => ?_⟩ <;> simp only [List.length_append] at hl
    · have ⟨ho, hp'⟩ := hk.fits (by omega)
      exact ⟨ho, hp.trans hp'⟩
    · have ⟨ho, hp'⟩ := hk.short (by omega)
      refine ⟨ho, ?_⟩
      rw [hr, List.take_length_add_append]
      exact hp.trans hp'

theorem finish {put : S → S'} {g : ε → ε'} {k : Unit → S → B → Polled S' B (Except ε' Unit)}
    (h : WritesOnce u b x) (hk : ∀ s b', WritesOnce [] b' (k () s b')) :
    WritesOnce u b (x.andThen put g k) := by
  rw [← List.append_nil u]
  exact h.andThen hk

theorem encodesIn {poll : C → S → B → Polled S B (Except ε Unit)} {s : S}
    {P : C → S → B → Prop} (h : ∀ c b, WritesOnce w b (poll c s b))
    (hp : ∀ c b, P c s b → w.length ≤ room b) : EncodesIn P Stop poll s (.done w) := by
  refine ⟨fun s' e => s' = s ∧ e = .done w, ?_, rfl, rfl⟩
  rintro c _ _ b hb ⟨rfl, rfl⟩
  have ⟨ho, hw⟩ := (h c b).fits (hp c b hb)
  refine ⟨w, hw, ?_⟩
  rw [ho]
  rfl

end WritesOnce

-- What is written over any buffers is what is written in a single poll into a large one.
theorem EncodesIn.eq_done {P : C → S → B → Prop} {poll : C → S → B → Polled S B (Except ε Unit)}
    {s : S} {w : List Bool} {c : C} (h : EncodesIn P Stop poll s e) (hp : P c s b)
    (hw : WritesOnce w b (poll c s b)) (hl : w.length ≤ room b) : e = .done w := by
  have ⟨u, hu, hx⟩ := h.writes hp
  have ⟨ho, hp⟩ := hw.fits hl
  rw [ho] at hx
  rw [hx, ← hu.written_eq, hp.written_eq]
  rfl

end
end Stream
