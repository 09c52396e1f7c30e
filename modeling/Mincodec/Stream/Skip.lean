import Mincodec.Stream.Sink

-- Computations that may leave out a part of what they have to write when they are interrupted.
namespace Stream

open BitSink

variable {B C S S' ε ε' : Type} [BitSink B]

-- A poll on `b` writes some bits `w`, the next bits of the emission `e`. If it is unfinished it
-- leaves out `f` and goes on after it, and `Keeps` says whether `f` is nothing at all.
structure Skips (Keeps : Prop) (R : S → Emission ε → Prop) (e : Emission ε) (b : B)
    (x : Polled S B (Except ε Unit)) : Prop where
  exists_produces : ∃ w, Produces b w x.buf ∧
    match x.outcome with
    | .pending | .insufficient =>
      ∃ f e' : Emission ε, e = (f.seq e').prepend w ∧ R x.state e' ∧ (Keeps ↔ f = .done [])
    | .ready (.ok ())          => e = .done w ∧ Keeps
    | _                        => True

variable {Stop : B → Prop} {Keeps Keeps' : Prop} {R : S → Emission ε → Prop}
variable {R' : S' → Emission ε' → Prop} {e : Emission ε} {f : Emission ε'} {b : B}
variable {x : Polled S B (Except ε Unit)}

namespace Skips

theorem ready {s : S} (h : Keeps) : Skips Keeps R (.done []) b ⟨.ready (.ok ()), s, b⟩ :=
  ⟨[], .refl b, rfl, h⟩

theorem prepend {w : List Bool} {b₁ : B} (h : Skips Keeps R e b₁ x) (hw : Produces b w b₁) :
    Skips Keeps R (e.prepend w) b x := by
  have ⟨u, hu, h⟩ := h
  refine ⟨w ++ u, hw.trans hu, ?_⟩
  split at h
  case h_1 | h_2 =>
    have ⟨f, e', he, hr, hk⟩ := h
    exact ⟨f, e', by rw [he, Emission.prepend_prepend], hr, hk⟩
  case h_3 => exact ⟨h.1 ▸ rfl, h.2⟩
  case h_4 => trivial

theorem of_writes {put : S → S'} {g : ε → ε'} {k : Unit → S → B → Polled S' B (Except ε' Unit)}
    (h : Writes Stop R e b x) (hu : x.outcome.Unfinished → Keeps')
    (hput : ∀ s e₁, R s e₁ → R' (put s) ((e₁.mapErr g).seq f))
    (hk : x.outcome = .ready (.ok ()) → Skips Keeps' R' f x.buf (k () x.state x.buf)) :
    Skips Keeps' R' ((e.mapErr g).seq f) b (x.andThen put g k) := by
  have ⟨w, hw, h⟩ := h
  match hx : x.outcome with
  | .pending =>
    rw [Polled.andThen_pending hx]
    simp only [hx] at h
    have ⟨e₁, he, h⟩ := h
    refine ⟨w, hw, .done [], _, ?_, hput _ _ h, iff_of_true (hu (hx ▸ .inl rfl)) rfl⟩
    rw [he, Emission.prepend_mapErr, Emission.prepend_seq]
    rfl
  | .insufficient =>
    rw [Polled.andThen_insufficient hx]
    simp only [hx] at h
    have ⟨_, e₁, he, h⟩ := h
    refine ⟨w, hw, .done [], _, ?_, hput _ _ h, iff_of_true (hu (hx ▸ .inr rfl)) rfl⟩
    rw [he, Emission.prepend_mapErr, Emission.prepend_seq]
    rfl
  | .panicked m       => exact Polled.andThen_panicked hx ▸ ⟨w, hw, trivial⟩
  | .ready (.error y) => exact Polled.andThen_error hx ▸ ⟨w, hw, trivial⟩
  | .ready (.ok ())   =>
    rw [Polled.andThen_ok hx]
    simp only [hx] at h
    have he : (e.mapErr g).seq f = f.prepend w := h ▸ rfl
    exact he ▸ (hk hx).prepend hw

theorem congr (h : Skips Keeps R e b x) (hk : Keeps ↔ Keeps') : Skips Keeps' R e b x :=
  propext hk ▸ h

theorem of_dropped {R' : S' → Emission ε → Prop} {f : Emission ε} {put : S → S'}
    {k : Unit → S → B → Polled S' B (Except ε Unit)} (h : Writes Stop R e b x)
    (hput : ∀ s, R' (put s) f)
    (hk : x.outcome = .ready (.ok ()) → Skips Keeps R' f x.buf (k () x.state x.buf)) :
    Skips ((x.outcome.Unfinished → e = .done (written b x.buf)) ∧
      (x.outcome = .ready (.ok ()) → Keeps)) R' (e.seq f) b (x.andThen put id k) := by
  have ⟨w, hw, h⟩ := h
  have left {e₁ : Emission ε} (he : e = e₁.prepend w) : e = .done w ↔ e₁ = .done [] := by
    constructor
    case mp =>
      intro hd
      obtain ⟨v, hv, hw⟩ := Emission.prepend_eq_done (he.symm.trans hd)
      rw [hv, List.self_eq_append_right.mp hw]
    case mpr =>
      intro hd
      rw [he, hd, Emission.prepend_done, List.append_nil]
  rw [hw.written_eq]
  match hx : x.outcome with
  | .pending =>
    rw [Polled.andThen_pending hx]
    simp only [hx] at h
    have ⟨e₁, he, _⟩ := h
    refine ⟨w, hw, e₁, f, by rw [he, Emission.prepend_seq], hput _, ?_⟩
    simpa using left he
  | .insufficient =>
    rw [Polled.andThen_insufficient hx]
    simp only [hx] at h
    have ⟨_, e₁, he, _⟩ := h
    refine ⟨w, hw, e₁, f, by rw [he, Emission.prepend_seq], hput _, ?_⟩
    simpa using left he
  | .panicked m       => exact Polled.andThen_panicked hx ▸ ⟨w, hw, trivial⟩
  | .ready (.error y) => exact Polled.andThen_error hx ▸ ⟨w, hw, trivial⟩
  | .ready (.ok ())   =>
    rw [Polled.andThen_ok hx]
    simp only [hx] at h
    have he : e.seq f = f.prepend w := h ▸ rfl
    exact he ▸ ((hk hx).prepend hw).congr (by simp)

theorem finish {put last : S → S'} {R' : S' → Emission ε → Prop} (h : Skips Keeps R e b x)
    (hput : ∀ s e₁, R s e₁ → R' (put s) e₁) :
    Skips Keeps R' e b (x.andThen put id fun _ s b => ⟨.ready (.ok ()), last s, b⟩) := by
  have ⟨w, hw, h⟩ := h
  match hx : x.outcome with
  | .pending =>
    rw [Polled.andThen_pending hx]
    simp only [hx] at h
    have ⟨f, e', he, hr, hk⟩ := h
    exact ⟨w, hw, f, e', he, hput _ _ hr, hk⟩
  | .insufficient =>
    rw [Polled.andThen_insufficient hx]
    simp only [hx] at h
    have ⟨f, e', he, hr, hk⟩ := h
    exact ⟨w, hw, f, e', he, hput _ _ hr, hk⟩
  | .panicked m       => exact Polled.andThen_panicked hx ▸ ⟨w, hw, trivial⟩
  | .ready (.error y) => exact Polled.andThen_error hx ▸ ⟨w, hw, trivial⟩
  | .ready (.ok ())   =>
    rw [Polled.andThen_ok hx]
    simp only [hx] at h
    exact ⟨w, hw, h⟩

end Skips

def Along (poll : C → S → B → Polled S B (Except ε Unit)) (P : S → C → B → Prop) :
    S → List (C × B) → Prop
  | _, []            => True
  | s, (c, b) :: run => P s c b ∧ Along poll P (poll c s b).state run

def IsSkipping (poll : C → S → B → Polled S B (Except ε Unit)) (P : S → C → B → Prop)
    (R : S → Emission ε → Prop) : Prop :=
  ∀ c s e b, R s e → Skips (P s c b) R e b (poll c s b)

namespace Finishes

variable {poll : C → S → B → Polled S B (Except ε Unit)} {P : S → C → B → Prop} {s : S}
variable {run : List (C × B)} {u : List Bool}

theorem length_le (hp : IsSkipping poll P R) (h : R s e) (hf : Finishes poll s run u)
    {w : List Bool} (he : e = .done w) : u.length ≤ w.length := by
  induction hf generalizing e w
  case last c s b hr =>
    have ⟨v, hv, h⟩ := hp c s e b h
    rw [hr] at h
    have hw : w = v := congrArg Emission.bits (he.symm.trans h.1)
    rw [hv.written_eq]
    exact Nat.le_of_eq (congrArg List.length hw.symm)
  case more c s b run u hu hf hi =>
    have ⟨v, hv, h⟩ := hp c s e b h
    have ⟨f, e', he', hr, _⟩ : ∃ f e' : Emission ε, e = (f.seq e').prepend v ∧
        R (poll c s b).state e' ∧ (P s c b ↔ f = .done []) := by
      rcases hu with hu | hu <;> rwa [hu] at h
    rw [hv.written_eq]
    obtain ⟨w, hw, rfl⟩ := Emission.prepend_eq_done (he'.symm.trans he)
    obtain ⟨w₁, w₂, _, he₂, rfl⟩ := Emission.seq_eq_done hw
    have := hi hr he₂
    simp only [List.length_append]
    omega

-- A run that becomes ready has written everything if and only if no poll of it left out a part.
theorem along_iff (hp : IsSkipping poll P R) (h : R s e) (hf : Finishes poll s run u) :
    Along poll P s run ↔ e = .done u := by
  induction hf generalizing e
  case last c s b hr =>
    have ⟨v, hv, h⟩ := hp c s e b h
    rw [hr] at h
    rw [hv.written_eq]
    exact iff_of_true ⟨h.2, trivial⟩ h.1
  case more c s b run u hu hf hi =>
    have ⟨v, hv, h⟩ := hp c s e b h
    have ⟨f, e', he, hr, hk⟩ : ∃ f e' : Emission ε, e = (f.seq e').prepend v ∧
        R (poll c s b).state e' ∧ (P s c b ↔ f = .done []) := by
      rcases hu with hu | hu <;> rwa [hu] at h
    rw [hv.written_eq, he]
    constructor
    case mp =>
      intro ⟨hp, ha⟩
      rw [hk.mp hp, (hi hr).mp ha]
      rfl
    case mpr =>
      intro hd
      obtain ⟨w, hw, hvw⟩ := Emission.prepend_eq_done hd
      obtain ⟨w₁, w₂, hf₁, he₂, rfl⟩ := Emission.seq_eq_done hw
      obtain rfl := List.append_cancel_left hvw
      -- What is left out is not made up for by the rest of the run.
      have hl := hf.length_le hp hr he₂
      obtain rfl : w₁ = [] := by
        rw [List.length_append] at hl
        exact List.eq_nil_of_length_eq_zero (by omega)
      exact ⟨hk.mpr hf₁, (hi hr).mpr he₂⟩

end Finishes
end Stream
