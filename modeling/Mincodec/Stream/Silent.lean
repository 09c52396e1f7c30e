import Mincodec.Stream.Finished
import Mincodec.Stream.Sink

-- Computations that write nothing more.
namespace Stream

open BitSink

variable {B C S α ε : Type} [BitSink B] {poll : C → S → B → Polled S B (Except ε α)} {s : S}

-- No poll of a run writes a bit, whatever the polls before it have reported.
def StaysSilent (poll : C → S → B → Polled S B (Except ε α)) : S → List (C × B) → Prop
  | _, []            => True
  | s, (c, b) :: run => Produces b [] (poll c s b).buf ∧ StaysSilent poll (poll c s b).state run

-- Each poll of a run writes the bits `w` where there is room for them.
def Rewrites (poll : C → S → B → Polled S B (Except ε α)) (w : List Bool) : S → List (C × B) → Prop
  | _, []            => True
  | s, (c, b) :: run =>
    (w.length ≤ room b → Produces b w (poll c s b).buf) ∧ Rewrites poll w (poll c s b).state run

-- No poll writes a bit, and the state that it leaves behind is such a state again.
def Silent (poll : C → S → B → Polled S B (Except ε α)) (s : S) : Prop :=
  ∃ R : S → Prop, R s ∧ ∀ c s b, R s → Produces b [] (poll c s b).buf ∧ R (poll c s b).state

theorem Silent.staysSilent (h : Silent poll s) (run : List (C × B)) : StaysSilent poll s run := by
  obtain ⟨R, hs, hr⟩ := h
  induction run generalizing s
  case nil              => trivial
  case cons step run hi => exact ⟨(hr _ _ _ hs).1, hi (hr _ _ _ hs).2⟩

theorem Silent.of_stuck (h : Stuck poll s) : Silent poll s := by
  refine ⟨fun t => t = s, rfl, ?_⟩
  rintro c t b rfl
  obtain ⟨m, hx⟩ := h c b
  rw [hx]
  exact ⟨.refl b, rfl⟩

theorem Silent.of_eq {x : Except ε α} (h : ∀ c b, poll c s b = ⟨.ready x, s, b⟩) : Silent poll s := by
  refine ⟨fun t => t = s, rfl, ?_⟩
  rintro c t b rfl
  rw [h]
  exact ⟨.refl b, rfl⟩

theorem Rewrites.of_state_eq {w : List Bool} (hs : ∀ c b, (poll c s b).state = s)
    (hw : ∀ c b, w.length ≤ room b → Produces b w (poll c s b).buf) (run : List (C × B)) :
    Rewrites poll w s run := by
  induction run
  case nil              => trivial
  case cons step run hi =>
    refine ⟨hw step.1 step.2, ?_⟩
    rw [hs]
    exact hi

theorem Rewrites.not_staysSilent {w : List Bool} {c : C} {b : B} {run : List (C × B)}
    (h : Rewrites poll w s ((c, b) :: run)) (hb : w.length ≤ room b) (hw : w ≠ []) :
    ¬StaysSilent poll s ((c, b) :: run) := by
  rintro ⟨hp, _⟩
  have := (h.1 hb).filled_eq.symm.trans hp.filled_eq
  rw [List.length_nil] at this
  exact hw (List.eq_nil_of_length_eq_zero (by omega))

end Stream
