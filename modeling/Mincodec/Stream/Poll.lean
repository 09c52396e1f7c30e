namespace Stream

-- What one poll of a resumable computation reports. `panicked` is a panic that unwinds out of it.
inductive Outcome (α : Type)
  | pending
  | insufficient
  | ready (a : α)
  | panicked (msg : String)
  deriving DecidableEq

structure Polled (S B α : Type) where
  outcome : Outcome α
  state   : S
  buf     : B

namespace Outcome

variable {α : Type}

def Unfinished (o : Outcome α) : Prop :=
  o = .pending ∨ o = .insufficient

@[simp] theorem unfinished_pending : (pending : Outcome α).Unfinished := .inl rfl

@[simp] theorem unfinished_insufficient : (insufficient : Outcome α).Unfinished := .inr rfl

@[simp] theorem not_unfinished_ready (a : α) : ¬(ready a).Unfinished := by
  simp [Unfinished]

@[simp] theorem not_unfinished_panicked (m : String) : ¬(panicked m : Outcome α).Unfinished := by
  simp [Unfinished]

end Outcome

namespace Polled

variable {S S' B α β ε ε' : Type}

-- Go on with `k` once the poll is ready with a value. All other outcomes are handed on, with
-- errors mapped by `g` and the state put back into its owner by `put`.
def andThen (x : Polled S B (Except ε α)) (put : S → S') (g : ε → ε')
    (k : α → S → B → Polled S' B (Except ε' β)) : Polled S' B (Except ε' β) :=
  match x.outcome with
  | .pending          => ⟨.pending, put x.state, x.buf⟩
  | .insufficient     => ⟨.insufficient, put x.state, x.buf⟩
  | .panicked msg     => ⟨.panicked msg, put x.state, x.buf⟩
  | .ready (.error e) => ⟨.ready (.error (g e)), put x.state, x.buf⟩
  | .ready (.ok a)    => k a x.state x.buf

def lift (x : Polled S B (Except ε α)) (put : S → S') (g : ε → ε') :
    Polled S' B (Except ε' α) :=
  x.andThen put g fun a s b => ⟨.ready (.ok a), put s, b⟩

variable {x : Polled S B (Except ε α)} {put : S → S'} {g : ε → ε'}
variable {k : α → S → B → Polled S' B (Except ε' β)}

theorem andThen_pending (h : x.outcome = .pending) :
    x.andThen put g k = ⟨.pending, put x.state, x.buf⟩ := by
  simp [andThen, h]

theorem andThen_insufficient (h : x.outcome = .insufficient) :
    x.andThen put g k = ⟨.insufficient, put x.state, x.buf⟩ := by
  simp [andThen, h]

theorem andThen_panicked {m : String} (h : x.outcome = .panicked m) :
    x.andThen put g k = ⟨.panicked m, put x.state, x.buf⟩ := by
  simp [andThen, h]

theorem andThen_error {e : ε} (h : x.outcome = .ready (.error e)) :
    x.andThen put g k = ⟨.ready (.error (g e)), put x.state, x.buf⟩ := by
  simp [andThen, h]

theorem andThen_ok {a : α} (h : x.outcome = .ready (.ok a)) :
    x.andThen put g k = k a x.state x.buf := by
  simp [andThen, h]

theorem andThen_buf (hk : ∀ a s b, (k a s b).buf = b) : (x.andThen put g k).buf = x.buf := by
  unfold andThen
  split
  case h_5 => exact hk ..
  all_goals rfl

theorem andThen_ne_pending (h : x.outcome ≠ .pending) (hk : ∀ a s b, (k a s b).outcome ≠ .pending) :
    (x.andThen put g k).outcome ≠ .pending := by
  unfold andThen
  split
  case h_1 hx => exact absurd hx h
  case h_5    => exact hk _ _ _
  all_goals simp

theorem lift_ne_pending (h : x.outcome ≠ .pending) : (x.lift put g).outcome ≠ .pending :=
  andThen_ne_pending h (by simp)

theorem andThen_ready {c : β} (h : (x.andThen put g k).outcome = .ready (.ok c)) :
    ∃ a, x.outcome = .ready (.ok a) ∧ x.andThen put g k = k a x.state x.buf := by
  match hx : x.outcome with
  | .ready (.ok a)    => exact ⟨a, rfl, andThen_ok hx⟩
  | .ready (.error e) => simp [andThen_error hx] at h
  | .pending          => simp [andThen_pending hx] at h
  | .insufficient     => simp [andThen_insufficient hx] at h
  | .panicked m       => simp [andThen_panicked hx] at h

theorem andThen_congr {k' : α → S → B → Polled S' B (Except ε' β)}
    (h : ∀ a, x.outcome = .ready (.ok a) → k a x.state x.buf = k' a x.state x.buf) :
    x.andThen put g k = x.andThen put g k' := by
  unfold andThen
  split
  case h_5 a hx => exact h a hx
  all_goals rfl

theorem andThen_assoc {S'' γ ε'' : Type} {put' : S' → S''} {g' : ε' → ε''}
    {k' : β → S' → B → Polled S'' B (Except ε'' γ)} : (x.andThen put g k).andThen put' g' k' =
      x.andThen (put' ∘ put) (g' ∘ g) fun a s b => (k a s b).andThen put' g' k' := by
  obtain ⟨outcome | _ | r | m, s, b⟩ := x
  case ready => cases r <;> rfl
  all_goals rfl

theorem lift_id (x : Polled S B (Except ε α)) : x.lift id id = x := by
  obtain ⟨outcome | _ | r | m, s, b⟩ := x
  case ready => cases r <;> rfl
  all_goals rfl

end Polled

-- One poll after another on the same buffer for as long as the computation is pending.
def pollAgain {C S B α : Type} (poll : C → S → B → Polled S B α) : List C → S → B → Polled S B α
  | [], s, b => ⟨.pending, s, b⟩
  | c :: cs, s, b =>
    match (poll c s b).outcome with
    | .pending => pollAgain poll cs (poll c s b).state (poll c s b).buf
    | _        => poll c s b

end Stream
