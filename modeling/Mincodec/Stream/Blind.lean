import Mincodec.Stream.Sink
import Mincodec.Stream.Finished

-- Encoders that do not depend on what the buffers hold that they write to.
namespace Stream

open BitSink

variable {B C S S' ε ε' : Type} [BitSink B]

structure Level (b b' : B) : Prop where
  filled_eq : filled b' = filled b
  length_eq : (image b').length = (image b).length

namespace Level

variable {b b' b₁ b₁' : B} {w : List Bool}

theorem refl (b : B) : Level b b :=
  ⟨rfl, rfl⟩

theorem room_eq (h : Level b b') : room b' = room b := by
  unfold room
  rw [h.filled_eq, h.length_eq]

theorem produces (h : Level b b') (hp : Produces b w b₁) (hp' : Produces b' w b₁') :
    Level b₁ b₁' where
  filled_eq := by rw [hp.filled_eq, hp'.filled_eq, h.filled_eq]
  length_eq := by rw [hp.length_image, hp'.length_image, h.length_eq]

end Level

-- Two polls that report the same and write the same bits. They may be pending if `Wait` holds, and
-- `Stop` holds of a buffer on which they report to be out of room.
structure Twins (Wait : Prop) (Stop : B → Prop) (R : S → S → Prop) (b b' : B)
    (x x' : Polled S B (Except ε Unit)) : Prop where
  outcome_eq      : x'.outcome = x.outcome
  exists_produces : ∃ w, Produces b w x.buf ∧ Produces b' w x'.buf
  wait            : x.outcome = .pending → Wait
  stop            : x.outcome = .insufficient → Stop x.buf
  related         : R x.state x'.state

namespace Twins

variable {Wait : Prop} {Stop : B → Prop} {R : S → S → Prop} {R' : S' → S' → Prop} {b b' : B}
variable {x x' : Polled S B (Except ε Unit)}

theorem ready {s s' : S} {r : Except ε Unit} (h : R s s') :
    Twins Wait Stop R b b' ⟨.ready r, s, b⟩ ⟨.ready r, s', b'⟩ :=
  ⟨rfl, ⟨[], .refl b, .refl b'⟩, nofun, nofun, h⟩

theorem panicked {s s' : S} {m : String} (h : R s s') :
    Twins Wait Stop R b b' (⟨.panicked m, s, b⟩ : Polled S B (Except ε Unit)) ⟨.panicked m, s', b'⟩ :=
  ⟨rfl, ⟨[], .refl b, .refl b'⟩, nofun, nofun, h⟩

theorem level (h : Twins Wait Stop R b b' x x') (hb : Level b b') : Level x.buf x'.buf := by
  obtain ⟨w, hp, hp'⟩ := h.exists_produces
  exact hb.produces hp hp'

theorem mono {R₁ : S → S → Prop} {Wait₁ : Prop} {Stop₁ : B → Prop} (h : Twins Wait Stop R b b' x x')
    (hw : Wait → Wait₁) (hs : ∀ b, Stop b → Stop₁ b) (hr : ∀ s s', R s s' → R₁ s s') :
    Twins Wait₁ Stop₁ R₁ b b' x x' where
  outcome_eq      := h.outcome_eq
  exists_produces := h.exists_produces
  wait hi         := hw (h.wait hi)
  stop hi         := hs _ (h.stop hi)
  related         := hr _ _ h.related

theorem after {w : List Bool} {b₁ b₁' : B} (h : Twins Wait Stop R b₁ b₁' x x') (hp : Produces b w b₁)
    (hp' : Produces b' w b₁') : Twins Wait Stop R b b' x x' := by
  obtain ⟨u, hu, hu'⟩ := h.exists_produces
  exact { h with exists_produces := ⟨w ++ u, hp.trans hu, hp'.trans hu'⟩ }

theorem andThen {put put' : S → S'} {g : ε → ε'}
    {k k' : Unit → S → B → Polled S' B (Except ε' Unit)} (h : Twins Wait Stop R b b' x x')
    (hb : Level b b') (hput : ∀ s s', R s s' → R' (put s) (put' s'))
    (hk : ∀ s s' b b', R s s' → Level b b' → Twins Wait Stop R' b b' (k () s b) (k' () s' b')) :
    Twins Wait Stop R' b b' (x.andThen put g k) (x'.andThen put' g k') := by
  obtain ⟨w, hp, hp'⟩ := h.exists_produces
  have ho := h.outcome_eq
  have hr := hput _ _ h.related
  cases hx : x.outcome
  case pending =>
    rw [Polled.andThen_pending hx, Polled.andThen_pending (ho.trans hx)]
    exact ⟨rfl, ⟨w, hp, hp'⟩, fun _ => h.wait hx, nofun, hr⟩
  case insufficient =>
    rw [Polled.andThen_insufficient hx, Polled.andThen_insufficient (ho.trans hx)]
    exact ⟨rfl, ⟨w, hp, hp'⟩, nofun, fun _ => h.stop hx, hr⟩
  case panicked m =>
    rw [Polled.andThen_panicked hx, Polled.andThen_panicked (ho.trans hx)]
    exact ⟨rfl, ⟨w, hp, hp'⟩, nofun, nofun, hr⟩
  case ready r =>
    cases r
    case error y =>
      rw [Polled.andThen_error hx, Polled.andThen_error (ho.trans hx)]
      exact ⟨rfl, ⟨w, hp, hp'⟩, nofun, nofun, hr⟩
    case ok u =>
      rw [Polled.andThen_ok hx, Polled.andThen_ok (ho.trans hx)]
      exact (hk _ _ _ _ h.related (h.level hb)).after hp hp'

end Twins

def Alike (Wait : Prop) (Stop : B → Prop) (poll : C → S → B → Polled S B (Except ε Unit)) (s s' : S) : Prop :=
  ∃ R : S → S → Prop, R s s' ∧ ∀ c s s' b b', R s s' → Level b b' →
    Twins Wait Stop R b b' (poll c s b) (poll c s' b')

namespace Alike

variable {Wait : Prop} {Stop : B → Prop} {s s' t : S}
variable {poll : C → S → B → Polled S B (Except ε Unit)}

theorem twins (h : Alike Wait Stop poll s s') (c : C) {b b' : B} (hb : Level b b') :
    Twins Wait Stop (Alike Wait Stop poll) b b' (poll c s b) (poll c s' b') := by
  obtain ⟨R, hs, hr⟩ := h
  exact (hr c s s' b b' hs hb).mono id (fun _ => id) fun _ _ h => ⟨R, h, hr⟩

theorem mono {Wait₁ : Prop} {Stop₁ : B → Prop} (h : Alike Wait Stop poll s s')
    (hw : Wait → Wait₁) (hs : ∀ b, Stop b → Stop₁ b) : Alike Wait₁ Stop₁ poll s s' := by
  obtain ⟨R, h, hr⟩ := h
  exact ⟨R, h, fun c s s' b b' h hb => (hr c s s' b b' h hb).mono hw hs fun _ _ => id⟩

theorem reaches (h : Alike Wait Stop poll s s) (ht : Reaches poll s t) : Alike Wait Stop poll t t :=
  ht.preserves (P := fun t => Alike Wait Stop poll t t) h fun c _ b h _ => (h.twins c (.refl b)).related

theorem stops (h : Alike Wait Stop poll s s) (ht : Reaches poll s t) {c : C} {b : B}
    (ho : (poll c t b).outcome = .insufficient) : Stop (poll c t b).buf :=
  ((h.reaches ht).twins c (.refl b)).stop ho

end Alike

end Stream
