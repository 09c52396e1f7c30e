import Mincodec.Stream.Source

-- What a computation does that is polled again after it has returned a value.
namespace Stream

open BitSource

variable {B C S S' α β ε ε' : Type}

inductive Reaches (poll : C → S → B → Polled S B α) (s : S) : S → Prop
  | refl : Reaches poll s s
  | poll {t : S} {c : C} {b : B} : Reaches poll s t → (poll c t b).outcome.Unfinished →
    Reaches poll s (poll c t b).state

def Returned (poll : C → S → B → Polled S B α) (s : S) (a : α) (s' : S) : Prop :=
  ∃ t c b, Reaches poll s t ∧ (poll c t b).outcome = .ready a ∧ (poll c t b).state = s'

theorem Reaches.preserves {poll : C → S → B → Polled S B α} {P : S → Prop} {s t : S}
    (h : Reaches poll s t) (hs : P s)
    (hp : ∀ c t b, P t → (poll c t b).outcome.Unfinished → P (poll c t b).state) : P t := by
  induction h
  case refl         => exact hs
  case poll h hu hi => exact hp _ _ _ hi hu

namespace Polled

def Leaves (P : α → S → Prop) (x : Polled S B (Except ε α)) : Prop :=
  ∀ a, x.outcome = .ready (.ok a) → P a x.state

variable {P : β → S' → Prop} {x : Polled S B (Except ε α)}

theorem Leaves.ready {a : β} {s : S'} {b : B} (h : P a s) :
    Leaves P (⟨.ready (.ok a), s, b⟩ : Polled S' B (Except ε β)) := by
  intro _ ho
  cases ho
  exact h

theorem Leaves.of_ready {v : Except ε β} {s : S'} {b : B} (h : ∀ a, P a s) :
    Leaves P (⟨.ready v, s, b⟩ : Polled S' B (Except ε β)) :=
  fun a _ => h a

theorem Leaves.panicked {m : String} {s : S'} {b : B} :
    Leaves P (⟨.panicked m, s, b⟩ : Polled S' B (Except ε β)) := by
  intro _ ho
  cases ho

theorem Leaves.andThen {put : S → S'} {g : ε → ε'} {k : α → S → B → Polled S' B (Except ε' β)}
    (hk : ∀ a s b, Leaves P (k a s b)) : Leaves P (x.andThen put g k) := by
  intro v ho
  obtain ⟨a, _, hx⟩ := andThen_ready ho
  rw [hx] at ho ⊢
  exact hk _ _ _ v ho

end Polled

section
variable {poll : C → S → B → Polled S B (Except ε α)} {s : S} {v : α}

theorem Returned.leaves {P : α → S → Prop} {s' : S} (h : Returned poll s (.ok v) s')
    (hp : ∀ c s b, (poll c s b).Leaves P) : P v s' := by
  obtain ⟨_, _, _, _, ho, rfl⟩ := h
  exact hp _ _ _ v ho

def Stuck (poll : C → S → B → Polled S B (Except ε α)) (s : S) : Prop :=
  ∀ c b, ∃ m, poll c s b = ⟨.panicked m, s, b⟩

variable [BitSource B]

structure Answers (v : α) (b : B) (x : Polled S B (Except ε α)) : Prop where
  outcome_eq : x.outcome = .ready (.ok v)
  consumes   : Consumes b [] x.buf

-- Every poll returns `v` without taking a bit, until it is stuck.
def Again (poll : C → S → B → Polled S B (Except ε α)) (v : α) (s : S) : Prop :=
  ∃ R : S → Prop, R s ∧ ∀ c s b, R s →
    Answers v b (poll c s b) ∧ (R (poll c s b).state ∨ Stuck poll (poll c s b).state)

def Rereads (poll : C → S → B → Polled S B (Except ε α)) (s : S) : Prop :=
  ∀ c b, unread b ≠ [] → taken b < taken (poll c s b).buf

-- No poll of a run takes a bit or returns another value than `v`, whatever the polls before it have
-- reported.
def StaysFinished (poll : C → S → B → Polled S B (Except ε α)) (v : α) : S → List (C × B) → Prop
  | _, []            => True
  | s, (c, b) :: run =>
    Consumes b [] (poll c s b).buf ∧ (∀ a, (poll c s b).outcome = .ready (.ok a) → a = v) ∧
      StaysFinished poll v (poll c s b).state run

theorem Stuck.staysFinished (h : Stuck poll s) (run : List (C × B)) : StaysFinished poll v s run := by
  induction run
  case nil              => trivial
  case cons step run hi =>
    obtain ⟨c, b⟩ := step
    obtain ⟨m, hx⟩ := h c b
    unfold StaysFinished
    rw [hx]
    exact ⟨.refl b, fun _ => nofun, hi⟩

theorem Again.of_eq (h : ∀ c b, poll c s b = ⟨.ready (.ok v), s, b⟩) : Again poll v s := by
  refine ⟨fun t => t = s, rfl, ?_⟩
  rintro c t b rfl
  rw [h]
  exact ⟨⟨rfl, .refl b⟩, .inl rfl⟩

theorem Again.answers (h : Again poll v s) (c : C) (b : B) : Answers v b (poll c s b) ∧
    (Again poll v (poll c s b).state ∨ Stuck poll (poll c s b).state) := by
  obtain ⟨R, hs, hr⟩ := h
  obtain ⟨ha, hn⟩ := hr c s b hs
  exact ⟨ha, hn.imp_left fun h => ⟨R, h, hr⟩⟩

theorem Again.staysFinished (h : Again poll v s) (run : List (C × B)) : StaysFinished poll v s run := by
  induction run generalizing s
  case nil              => trivial
  case cons step run hi =>
    obtain ⟨c, b⟩ := step
    obtain ⟨ha, hn⟩ := h.answers c b
    refine ⟨ha.consumes, fun a ho => ?_, ?_⟩
    · rw [ha.outcome_eq] at ho
      cases ho
      rfl
    · cases hn
      case inl h => exact hi h
      case inr h => exact h.staysFinished run

theorem Rereads.not_staysFinished (h : Rereads poll s) {b : B} (hb : unread b ≠ []) (c : C) :
    ¬StaysFinished poll v s [(c, b)] := by
  rintro ⟨hc, _⟩
  have := h c b hb
  rw [hc.taken_eq] at this
  exact absurd this (Nat.lt_irrefl _)

end

section
variable [BitSource B] {poll : C → S → B → Polled S B (Except ε α)} {s : S} {p : Parser ε α}
variable {Wait : Prop} {Stop : B → Prop}

theorem Decodes.reaches (h : Decodes Wait Stop poll s p) {t : S} (ht : Reaches poll s t) :
    ∃ u, Decodes Wait Stop poll t (p.after u) := by
  refine ht.preserves (P := fun t => ∃ u, Decodes Wait Stop poll t (p.after u)) ⟨[], h⟩ ?_
  rintro c t b ⟨u, h⟩ hu
  obtain ⟨w, _, hx⟩ := h.follows c b
  refine ⟨u ++ w, ?_⟩
  rw [← Parser.after_after]
  obtain ho | ho := hu
  all_goals rw [ho] at hx
  case inl => exact hx.2
  case inr => exact hx.2.2

theorem Decodes.returned (h : Decodes Wait Stop poll s p) {v : α} {s' : S}
    (hs : Returned poll s (.ok v) s') : ∃ w, p.Halts w (.finished (.ok v)) := by
  obtain ⟨t, c, b, ht, ho, _⟩ := hs
  obtain ⟨u, h⟩ := h.reaches ht
  obtain ⟨w, _, hx⟩ := h.follows c b
  rw [ho] at hx
  obtain ⟨_, rfl, hh⟩ := hx
  exact ⟨u ++ w, Parser.Halts.after.mp hh⟩

theorem Decodes.stops (h : Decodes Wait Stop poll s p) {t : S} (ht : Reaches poll s t) {c : C} {b : B}
    (ho : (poll c t b).outcome = .insufficient) : Stop (poll c t b).buf := by
  obtain ⟨u, h⟩ := h.reaches ht
  obtain ⟨w, _, hx⟩ := h.follows c b
  rw [ho] at hx
  exact hx.1

end

structure Wraps (poll : C → S → B → Polled S B (Except ε α))
    (poll' : C → S' → B → Polled S' B (Except ε' β)) (put : S → S') (f : α → Except ε' β) : Prop where
  exists_eq : ∃ g : ε → ε', ∀ c s b, poll' c (put s) b =
    (poll c s b).andThen put g fun a s b => ⟨.ready (f a), put s, b⟩

namespace Wraps

variable {poll : C → S → B → Polled S B (Except ε α)}
variable {poll' : C → S' → B → Polled S' B (Except ε' β)} {put : S → S'} {f : α → Except ε' β}
variable {s : S} {a : α} {v : β}

theorem state_eq (h : Wraps poll poll' put f) (c : C) (s : S) (b : B) :
    (poll' c (put s) b).state = put (poll c s b).state := by
  obtain ⟨g, h⟩ := h
  rw [h]
  unfold Polled.andThen
  split <;> rfl

theorem buf_eq (h : Wraps poll poll' put f) (c : C) (s : S) (b : B) :
    (poll' c (put s) b).buf = (poll c s b).buf := by
  obtain ⟨g, h⟩ := h
  rw [h]
  exact Polled.andThen_buf fun _ _ _ => rfl

theorem unfinished (h : Wraps poll poll' put f) {c : C} {b : B}
    (hu : (poll' c (put s) b).outcome.Unfinished) : (poll c s b).outcome.Unfinished := by
  obtain ⟨g, h⟩ := h
  rw [h] at hu
  cases hx : (poll c s b).outcome
  case pending      => exact .inl rfl
  case insufficient => exact .inr rfl
  case panicked m   => simp [Polled.andThen_panicked hx] at hu
  case ready r      =>
    cases r
    case error e => simp [Polled.andThen_error hx] at hu
    case ok a    => simp [Polled.andThen_ok hx] at hu

theorem reaches (h : Wraps poll poll' put f) {t' : S'} (ht : Reaches poll' (put s) t') :
    ∃ t, t' = put t ∧ Reaches poll s t := by
  induction ht
  case refl        => exact ⟨s, rfl, .refl⟩
  case poll hu hi =>
    obtain ⟨t, rfl, ht⟩ := hi
    exact ⟨_, h.state_eq _ t _, ht.poll (h.unfinished hu)⟩

theorem returned (h : Wraps poll poll' put f) {t' : S'} (ht : Returned poll' (put s) (.ok v) t') :
    ∃ a t, t' = put t ∧ Returned poll s (.ok a) t ∧ f a = .ok v := by
  obtain ⟨_, c, b, hr, ho, rfl⟩ := ht
  obtain ⟨t, rfl, ht⟩ := h.reaches hr
  rw [h.state_eq]
  obtain ⟨g, h⟩ := h
  rw [h] at ho
  obtain ⟨a, hx, hk⟩ := Polled.andThen_ready ho
  rw [hk] at ho
  exact ⟨a, _, rfl, ⟨t, c, b, ht, hx, rfl⟩, Outcome.ready.inj ho⟩

theorem poll_ok (h : Wraps poll poll' put f) {c : C} {t : S} {b b' : B}
    (hx : poll c s b = ⟨.ready (.ok a), t, b'⟩) : poll' c (put s) b = ⟨.ready (f a), put t, b'⟩ := by
  obtain ⟨g, h⟩ := h
  rw [h, hx, Polled.andThen_ok rfl]

theorem stuck (h : Wraps poll poll' put f) (hs : Stuck poll s) : Stuck poll' (put s) := by
  obtain ⟨g, h⟩ := h
  intro c b
  obtain ⟨m, hx⟩ := hs c b
  exact ⟨m, by rw [h, hx, Polled.andThen_panicked rfl]⟩

variable [BitSource B]

theorem again (h : Wraps poll poll' put f) (hs : Again poll a s) (hf : f a = .ok v) :
    Again poll' v (put s) := by
  refine ⟨fun s' => ∃ t, s' = put t ∧ Again poll a t, ⟨s, rfl, hs⟩, ?_⟩
  rintro c _ b ⟨t, rfl, ht⟩
  obtain ⟨ha, hn⟩ := ht.answers c b
  refine ⟨⟨?_, h.buf_eq c t b ▸ ha.consumes⟩, ?_⟩
  · obtain ⟨g, h⟩ := h
    rw [h, Polled.andThen_ok ha.outcome_eq, hf]
  · rw [h.state_eq]
    exact hn.imp (fun ht => ⟨_, rfl, ht⟩) h.stuck

theorem rereads_iff (h : Wraps poll poll' put f) : Rereads poll' (put s) ↔ Rereads poll s := by
  unfold Rereads
  simp only [h.buf_eq]

end Wraps

end Stream
