import Mincodec.Stream.Poll

-- How a computation ends that is polled on one buffer after another.
namespace Stream

variable {B C S S' α β ε ε' : Type}

-- The polls of a run are unfinished, up to one that is ready with `a`. The rest of the run starts with
-- the buffer that this poll leaves behind.
inductive Ends (poll : C → S → B → Polled S B α) : S → List (C × B) → α → List (C × B) → Prop
  | ready {c : C} {s : S} {b : B} {run : List (C × B)} {a : α} :
    (poll c s b).outcome = .ready a → Ends poll s ((c, b) :: run) a ((c, (poll c s b).buf) :: run)
  | unfinished {c : C} {s : S} {b : B} {run rest : List (C × B)} {a : α} :
    (poll c s b).outcome.Unfinished → Ends poll (poll c s b).state run a rest →
    Ends poll s ((c, b) :: run) a rest

inductive Polled.Ends (poll : C → S → B → Polled S B α) (c : C) (run : List (C × B)) (x : Polled S B α)
    (a : α) : List (C × B) → Prop
  | ready : x.outcome = .ready a → x.Ends poll c run a ((c, x.buf) :: run)
  | unfinished {rest : List (C × B)} : x.outcome.Unfinished → Stream.Ends poll x.state run a rest →
    x.Ends poll c run a rest

section
variable {poll : C → S → B → Polled S B α} {c : C} {s : S} {b : B} {run rest : List (C × B)} {a : α}

theorem Ends.of_polled (h : (poll c s b).Ends poll c run a rest) :
    Ends poll s ((c, b) :: run) a rest := by
  cases h
  case ready h         => exact .ready h
  case unfinished hu h => exact .unfinished hu h

theorem Ends.eq_of_ready {a' : α} (hs : ∀ c b, (poll c s b).outcome = .ready a')
    (h : Ends poll s run a rest) : a' = a := by
  cases h
  case ready h        => exact Outcome.ready.inj ((hs _ _).symm.trans h)
  case unfinished h _ => simp [hs] at h

theorem Polled.Ends.eq_rest {x : Polled S B α} {a' : α} (hx : x.outcome = .ready a')
    (h : x.Ends poll c run a rest) : a' = a ∧ rest = (c, x.buf) :: run := by
  cases h
  case ready h        => exact ⟨Outcome.ready.inj (hx.symm.trans h), rfl⟩
  case unfinished h _ => simp [hx] at h

theorem Polled.not_ends_panicked {x : Polled S B α} {m : String} (hx : x.outcome = .panicked m) :
    ¬x.Ends poll c run a rest := by
  intro h
  cases h
  case ready h        => simp [hx] at h
  case unfinished h _ => simp [hx] at h

end

variable {poll : C → S → B → Polled S B (Except ε α)} {poll' : C → S' → B → Polled S' B (Except ε' β)}
variable {put : S → S'} {g : ε → ε'} {k : C → α → S → B → Polled S' B (Except ε' β)}

-- A computation that goes on with `k` once `poll` is ready ends with an error of `poll`, or in what
-- `k` does with the rest of the run.
theorem Ends.andThen (hp : ∀ c s b, poll' c (put s) b = (poll c s b).andThen put g (k c)) {s : S}
    {run rest : List (C × B)} {a : Except ε' β} (h : Ends poll' (put s) run a rest) :
    (∃ e, a = .error (g e) ∧ Ends poll s run (.error e) rest) ∨
    ∃ v c s' b run', Ends poll s run (.ok v) ((c, b) :: run') ∧
      (k c v s' b).Ends poll' c run' a rest := by
  generalize hs : put s = s' at h
  induction h generalizing s
  case ready c _ b run a ho =>
    subst hs
    rw [hp] at ho ⊢
    match hx : (poll c s b).outcome with
    | .ready (.ok v)    =>
      rw [Polled.andThen_ok hx] at ho ⊢
      exact .inr ⟨v, c, _, _, run, .ready hx, .ready ho⟩
    | .ready (.error e) =>
      rw [Polled.andThen_error hx] at ho ⊢
      obtain rfl := Outcome.ready.inj ho
      exact .inl ⟨e, rfl, .ready hx⟩
    | .pending          => simp [Polled.andThen_pending hx] at ho
    | .insufficient     => simp [Polled.andThen_insufficient hx] at ho
    | .panicked m       => simp [Polled.andThen_panicked hx] at ho
  case unfinished c _ b run rest a hu h hi =>
    subst hs
    rw [hp] at hu h
    have go (hx : (poll c s b).outcome.Unfinished)
        (ht : put (poll c s b).state = (poll' c (put s) b).state) :
        (∃ e, a = .error (g e) ∧ Ends poll s ((c, b) :: run) (.error e) rest) ∨
        ∃ v c' s' b' run', Ends poll s ((c, b) :: run) (.ok v) ((c', b') :: run') ∧
          (k c' v s' b').Ends poll' c' run' a rest := by
      cases hi ht
      case inl hi =>
        obtain ⟨e, he, hi⟩ := hi
        exact .inl ⟨e, he, .unfinished hx hi⟩
      case inr hi =>
        obtain ⟨v, c', s', b', run', hi, hk⟩ := hi
        exact .inr ⟨v, c', s', b', run', .unfinished hx hi, hk⟩
    match hx : (poll c s b).outcome with
    | .ready (.ok v)    =>
      rw [Polled.andThen_ok hx] at hu h
      exact .inr ⟨v, c, _, _, run, .ready hx, .unfinished hu h⟩
    | .ready (.error e) => simp [Polled.andThen_error hx] at hu
    | .panicked m       => simp [Polled.andThen_panicked hx] at hu
    | .pending          => exact go (hx ▸ .inl rfl) (by rw [hp, Polled.andThen_pending hx])
    | .insufficient     => exact go (hx ▸ .inr rfl) (by rw [hp, Polled.andThen_insufficient hx])

end Stream
