import Mincodec.Stream.Source

-- Computations that do not panic before they are finished.
namespace Stream

variable {B C S S' α β ε ε' : Type}

-- A poll that does not panic: `R` holds of the state that an unfinished one leaves behind, `Post` of
-- what a successful one returns and leaves behind.
structure Calm (R : S → Prop) (Post : α → S → Prop) (x : Polled S B (Except ε α)) : Prop where
  ne_panicked : ∀ m, x.outcome ≠ .panicked m
  unfinished  : x.outcome.Unfinished → R x.state
  ready       : ∀ a, x.outcome = .ready (.ok a) → Post a x.state

variable {R : S → Prop} {R' : S' → Prop} {Post : α → S → Prop} {Post' : β → S' → Prop}
variable {x : Polled S B (Except ε α)}

namespace Calm

theorem done {a : α} {s : S} {b : B} (h : Post a s) :
    Calm R Post (⟨.ready (.ok a), s, b⟩ : Polled S B (Except ε α)) where
  ne_panicked _ := nofun
  unfinished h' := by simp at h'
  ready _ ha    := by cases ha; exact h

theorem mono {R₁ : S → Prop} {Post₁ : α → S → Prop} (h : Calm R Post x) (hr : ∀ s, R s → R₁ s)
    (hp : ∀ a s, Post a s → Post₁ a s) : Calm R₁ Post₁ x where
  ne_panicked   := h.ne_panicked
  unfinished hu := hr _ (h.unfinished hu)
  ready a ha    := hp _ _ (h.ready a ha)

theorem andThen {put : S → S'} {g : ε → ε'} {k : α → S → B → Polled S' B (Except ε' β)}
    (h : Calm R Post x) (hput : ∀ s, R s → R' (put s))
    (hk : ∀ a s b, Post a s → Calm R' Post' (k a s b)) : Calm R' Post' (x.andThen put g k) := by
  match hx : x.outcome with
  | .ready (.ok a)    => exact Polled.andThen_ok hx ▸ hk a x.state x.buf (h.ready a hx)
  | .panicked m       => exact absurd hx (h.ne_panicked m)
  | .ready (.error e) => exact Polled.andThen_error hx ▸ ⟨fun _ => nofun, by simp, fun _ => nofun⟩
  | .pending          =>
    exact Polled.andThen_pending hx ▸ ⟨fun _ => nofun, fun _ => hput _ (h.unfinished (hx ▸ .inl rfl)), fun _ => nofun⟩
  | .insufficient     =>
    exact Polled.andThen_insufficient hx ▸ ⟨fun _ => nofun, fun _ => hput _ (h.unfinished (hx ▸ .inr rfl)), fun _ => nofun⟩

end Calm

def IsCalm (poll : C → S → B → Polled S B (Except ε α)) (s : S) : Prop :=
  ∃ R, (∀ c s b, R s → Calm R (fun _ _ => True) (poll c s b)) ∧ R s

theorem IsCalm.poll {poll : C → S → B → Polled S B (Except ε α)} {s : S} (h : IsCalm poll s) (c : C)
    (b : B) : Calm (IsCalm poll) (fun _ _ => True) (poll c s b) := by
  have ⟨R, hr, h⟩ := h
  exact (hr c s b h).mono (fun _ h => ⟨R, hr, h⟩) fun _ _ => id

-- No poll of a run panics, up to and including the one that finishes.
def CalmRun (poll : C → S → B → Polled S B (Except ε α)) : S → List (C × B) → Prop
  | _, []            => True
  | s, (c, b) :: run =>
    (∀ m, (poll c s b).outcome ≠ .panicked m) ∧
      ((poll c s b).outcome.Unfinished → CalmRun poll (poll c s b).state run)

theorem CalmRun.cons_iff {poll : C → S → B → Polled S B (Except ε α)} {s : S} {c : C} {b : B}
    {run : List (C × B)} (hu : (poll c s b).outcome.Unfinished) :
    CalmRun poll s ((c, b) :: run) ↔ CalmRun poll (poll c s b).state run := by
  constructor
  case mp  => exact fun h => h.2 hu
  case mpr => exact fun h => ⟨fun m hm => by simp [hm] at hu, fun _ => h⟩

theorem IsCalm.run {poll : C → S → B → Polled S B (Except ε α)} {s : S} (h : IsCalm poll s)
    (run : List (C × B)) : CalmRun poll s run := by
  induction run generalizing s
  case nil            => trivial
  case cons step _ hi =>
    have hc := h.poll step.1 step.2
    exact ⟨hc.ne_panicked, fun hu => hi (hc.unfinished hu)⟩

theorem CalmRun.of_calm {poll : C → S → B → Polled S B (Except ε α)} {s : S} {c : C} {b : B}
    (h : Calm R (fun _ _ => True) (poll c s b)) (hr : ∀ s, R s → IsCalm poll s) (run : List (C × B)) : CalmRun poll s ((c, b) :: run) :=
  ⟨h.ne_panicked, fun hu => (hr _ (h.unfinished hu)).run run⟩

def EndsWith (poll : C → S → B → Polled S B (Except ε α)) (o : Outcome (Except ε α)) :
    S → List (C × B) → Prop
  | _, []            => False
  | s, (c, b) :: run =>
    (poll c s b).outcome = o ∨
      (poll c s b).outcome.Unfinished ∧ EndsWith poll o (poll c s b).state run

section
variable [BitSource B] {Wait : Prop} {Stop : B → Prop}

theorem Follows.calm {γ : Type} {R : S → Parser ε γ → Prop} {Post : α → S → γ → Prop}
    {p : Parser ε γ} {b : B} (h : Follows Wait Stop R Post p b x) (hp : p.IsSafe) :
    Calm (fun s => ∃ q, R s q ∧ q.IsSafe) (fun _ _ => True) x := by
  have ⟨w, _, h⟩ := h
  have safe : (p.after w).IsSafe := fun bs => hp (w ++ bs)
  match ho : x.outcome with
  | .panicked m       =>
    simp only [ho] at h
    exact absurd (h []) (hp _ m [])
  | .ready r          => exact ⟨by simp [ho], by simp [ho], fun _ _ => trivial⟩
  | .pending          =>
    simp only [ho] at h
    exact ⟨by simp [ho], fun _ => ⟨_, h.2, safe⟩, fun _ _ => trivial⟩
  | .insufficient     =>
    simp only [ho] at h
    exact ⟨by simp [ho], fun _ => ⟨_, h.2.2, safe⟩, fun _ _ => trivial⟩

theorem IsDecoding.isCalm {poll : C → S → B → Polled S B (Except ε α)}
    {R : S → Parser ε α → Prop} (hr : IsDecoding Wait Stop poll R) {s : S} {p : Parser ε α}
    (h : R s p) (hp : p.IsSafe) : IsCalm poll s :=
  ⟨fun s => ∃ q, R s q ∧ q.IsSafe, fun c s b ⟨q, hq, hs⟩ => (hr c s q b hq).calm hs, p, h, hp⟩

theorem Decodes.isCalm {poll : C → S → B → Polled S B (Except ε α)} {s : S} {p : Parser ε α}
    (h : Decodes Wait Stop poll s p) (hp : p.IsSafe) : IsCalm poll s := by
  have ⟨R, hr, h⟩ := h
  exact hr.isCalm h hp

end

end Stream
