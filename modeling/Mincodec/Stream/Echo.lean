import Mincodec.Stream.Sink
import Mincodec.Stream.Source

-- What becomes of a value that is encoded and decoded again.
namespace Stream

open BitSink

section

variable {B S S' ε ε' : Type} [BitSink B]

def Emits (e : Emission ε) (b : B) (x : Polled S B (Except ε Unit)) : Prop :=
  e.bits.length ≤ room b → Produces b e.bits x.buf ∧ x.outcome = e.ending.outcome

variable {e : Emission ε} {b : B} {x : Polled S B (Except ε Unit)}

theorem WritesOnce.emits {w : List Bool} (h : WritesOnce w b x) : Emits (.done w) b x := by
  intro hb
  have ⟨ho, hp⟩ := h.fits hb
  exact ⟨hp, ho⟩

namespace Emits

theorem ready {s : S} : Emits (.done []) b (⟨.ready (.ok ()), s, b⟩ : Polled S B (Except ε Unit)) :=
  fun _ => ⟨.refl b, rfl⟩

theorem panicked {s : S} {m : String} :
    Emits ⟨[], .panicked m⟩ b (⟨.panicked m, s, b⟩ : Polled S B (Except ε Unit)) :=
  fun _ => ⟨.refl b, rfl⟩

variable {put : S → S'} {g : ε → ε'} {k : Unit → S → B → Polled S' B (Except ε' Unit)}

theorem andThen {f : Emission ε'} (h : Emits e b x) (hk : ∀ s b', Emits f b' (k () s b')) :
    Emits ((e.mapErr g).seq f) b (x.andThen put g k) := by
  obtain ⟨w, d⟩ := e
  intro hb
  cases d
  case panicked m =>
    obtain ⟨hp, hx⟩ := h hb
    rw [Polled.andThen_panicked hx]
    exact ⟨hp, rfl⟩
  case finished r =>
    cases r
    case error y =>
      obtain ⟨hp, hx⟩ := h hb
      rw [Polled.andThen_error hx]
      exact ⟨hp, rfl⟩
    case ok u    =>
      have hb : w.length + f.bits.length ≤ room b := by simpa [Emission.mapErr, Emission.seq] using hb
      obtain ⟨hp, hx⟩ := h (by simp only; omega)
      have hr := hp.room_eq
      rw [Polled.andThen_ok hx]
      obtain ⟨hp', hx'⟩ := hk x.state x.buf (by simp only at hr; omega)
      exact ⟨hp.trans hp', hx'⟩

theorem andThen_id {k : Unit → S → B → Polled S' B (Except ε Unit)} {f : Emission ε}
    (h : Emits e b x) (hk : ∀ s b', Emits f b' (k () s b')) :
    Emits (e.seq f) b (x.andThen put id k) := by
  rw [← Emission.mapErr_id e]
  exact h.andThen hk

theorem finish (h : Emits e b x) (hk : ∀ s b', Emits (.done []) b' (k () s b')) :
    Emits (e.mapErr g) b (x.andThen put g k) := by
  rw [← Emission.seq_done_nil (e.mapErr g)]
  exact h.andThen hk

theorem finish_id {k : Unit → S → B → Polled S' B (Except ε Unit)} (h : Emits e b x)
    (hk : ∀ s b', Emits (.done []) b' (k () s b')) : Emits e b (x.andThen put id k) := by
  rw [← Emission.mapErr_id e]
  exact h.finish hk

end Emits

end

section

variable {ε ε₁ δ δ₁ α β : Type}

def Kept (p : Parser ε α) (e : Emission δ) (v : α) : Prop :=
  ∃ w, e = .done w ∧ p.Halts w (.finished (.ok v))

def Lost (p : Parser ε α) (e : Emission δ) : Prop :=
  (∃ m, e.ending = .panicked m) ∨
    ∃ u t x, e = .done (u ++ t) ∧ p.Halts u (.finished (.error x))

-- The value is kept, or it is lost with a panic or an error.
def Settled (p : Parser ε α) (e : Emission δ) (v : α) : Prop :=
  Kept p e v ∨ Lost p e

variable {p : Parser ε α} {e : Emission δ} {v : α}

theorem Kept.not_lost (h : Kept p e v) : ¬Lost p e := by
  have ⟨w, he, hp⟩ := h
  intro hl
  cases hl
  case inl hm =>
    have ⟨m, hm⟩ := hm
    rw [he] at hm
    cases hm
  case inr hx =>
    have ⟨u, t, x, hx, hq⟩ := hx
    have hw : u ++ t = w := congrArg Emission.bits (hx.symm.trans he)
    cases (hq.unique hp hw).1

def Emission.Definite (e : Emission δ) : Prop :=
  (∃ m, e.ending = .panicked m) ∨ ∃ w, e = .done w

theorem Lost.definite (h : Lost p e) : e.Definite := by
  cases h
  case inl h => exact .inl h
  case inr h =>
    have ⟨_, _, _, he, _⟩ := h
    exact .inr ⟨_, he⟩

theorem Settled.definite (h : Settled p e v) : e.Definite := by
  cases h
  case inl h =>
    have ⟨w, he, _⟩ := h
    exact .inr ⟨w, he⟩
  case inr h => exact h.definite

theorem Emission.Definite.seq_panicked (h : e.Definite) (p : Parser ε α) (m : String) :
    Lost p (e.seq ⟨[], .panicked m⟩) := by
  cases h
  case inl h =>
    obtain ⟨m', hm⟩ := h
    have hs : e.seq ⟨[], .panicked m⟩ = e := by simp only [Emission.seq, hm]
    exact .inl ⟨m', by rw [hs, hm]⟩
  case inr h =>
    obtain ⟨w, hw⟩ := h
    exact .inl ⟨m, by rw [hw]; rfl⟩

theorem Settled.lost (h : Settled p e v) (hk : ¬Kept p e v) : Lost p e :=
  h.resolve_left hk

theorem Settled.of_cases {P : Prop} (hk : P → Kept p e v) (hl : ¬P → Lost p e) : Settled p e v := by
  by_cases h : P
  case pos => exact .inl (hk h)
  case neg => exact .inr (hl h)

theorem Kept.iff_of_cases {P : Prop} (hk : P → Kept p e v) (hl : ¬P → Lost p e) :
    Kept p e v ↔ P :=
  ⟨fun h => by_contra fun hn => h.not_lost (hl hn), hk⟩

theorem Kept.mapErr (h : Kept p e v) (g : ε → ε₁) : Kept (p.mapErr g) e v := by
  have ⟨w, he, hp⟩ := h
  exact ⟨w, he, hp.mapErr⟩

theorem Kept.mapEmission (h : Kept p e v) (g : δ → δ₁) : Kept p (e.mapErr g) v := by
  have ⟨w, he, hp⟩ := h
  exact ⟨w, by rw [he]; rfl, hp⟩

theorem Lost.mapErr (h : Lost p e) (g : ε → ε₁) : Lost (p.mapErr g) e := by
  cases h
  case inl h => exact .inl h
  case inr h =>
    have ⟨u, t, x, he, hp⟩ := h
    exact .inr ⟨u, t, g x, he, hp.mapErr_error⟩

theorem Lost.mapEmission (h : Lost p e) (g : δ → δ₁) : Lost p (e.mapErr g) := by
  cases h
  case inl h =>
    have ⟨m, hm⟩ := h
    exact .inl ⟨m, by rw [Emission.mapErr, hm]⟩
  case inr h =>
    have ⟨u, t, x, he, hp⟩ := h
    exact .inr ⟨u, t, x, by rw [he]; rfl, hp⟩

theorem Kept.map (h : Kept p e v) (f : α → β) : Kept (p.map f) e (f v) := by
  have ⟨w, he, hp⟩ := h
  exact ⟨w, he, hp.map⟩

theorem Lost.bind (h : Lost p e) (f : α → Parser ε β) : Lost (p.bind f) e := by
  cases h
  case inl h => exact .inl h
  case inr h =>
    have ⟨u, t, x, he, hp⟩ := h
    exact .inr ⟨u, t, x, he, hp.bind_error⟩

theorem Kept.of_after {u : List Bool} (h : Kept (p.after u) e v) : Kept p (e.prepend u) v := by
  have ⟨w, he, hp⟩ := h
  exact ⟨u ++ w, by rw [he]; rfl, Parser.Halts.after.mp hp⟩

theorem Lost.of_after {u : List Bool} (h : Lost (p.after u) e) : Lost p (e.prepend u) := by
  cases h
  case inl h => exact .inl h
  case inr h =>
    have ⟨w, t, x, he, hp⟩ := h
    refine .inr ⟨u ++ w, t, x, ?_, Parser.Halts.after.mp hp⟩
    rw [he, Emission.prepend_done, List.append_assoc]

section

variable {q : Parser ε β} {f : β → Parser ε α} {u : List Bool} {a : β}

theorem Kept.prepend (hq : q.Halts u (.finished (.ok a))) (h : Kept (f a) e v) :
    Kept (q.bind f) (e.prepend u) v :=
  Kept.of_after (hq.bind_after ▸ h)

theorem Lost.prepend (hq : q.Halts u (.finished (.ok a))) (h : Lost (f a) e) :
    Lost (q.bind f) (e.prepend u) :=
  Lost.of_after (hq.bind_after ▸ h)

end

section

variable {f : α → Parser ε β} {e' : Emission δ} {v' : β}

theorem Kept.seq (h : Kept p e v) (h' : Kept (f v) e' v') : Kept (p.bind f) (e.seq e') v' := by
  have ⟨w, he, hp⟩ := h
  rw [he, Emission.done_seq]
  exact h'.prepend hp

theorem Kept.seq_lost (h : Kept p e v) (h' : Lost (f v) e') : Lost (p.bind f) (e.seq e') := by
  have ⟨w, he, hp⟩ := h
  rw [he, Emission.done_seq]
  exact h'.prepend hp

theorem Lost.seq (h : Lost p e) (he' : e'.Definite) (f : α → Parser ε β) :
    Lost (p.bind f) (e.seq e') := by
  cases h
  case inl h =>
    obtain ⟨m, hm⟩ := h
    have hs : e.seq e' = e := by simp only [Emission.seq, hm]
    exact .inl ⟨m, by rw [hs, hm]⟩
  case inr h =>
    obtain ⟨u, t, x, he, hp⟩ := h
    rw [he, Emission.done_seq]
    cases he'
    case inl hm => exact .inl hm
    case inr hw =>
      obtain ⟨w, hw⟩ := hw
      refine .inr ⟨u, t ++ w, x, ?_, hp.bind_error⟩
      rw [hw, Emission.prepend_done, List.append_assoc]

end

end

end Stream
