import Mincodec.Stream.Sink

-- Encoders that are out of room only so many times.
namespace Stream

open BitSink

variable {C S S' B ε ε' : Type} [BitSink B]

-- A poll writes some bits, in order. If it is out of room then there is less to do, and not less if
-- there was none from the start.
structure Closer (R : Nat → S → Prop) (n : Nat) (b : B) (x : Polled S B (Except ε Unit)) : Prop where
  exists_produces : ∃ w, Produces b w x.buf
  of_pending      : x.outcome = .pending → ∃ m, R m x.state
  of_insufficient : x.outcome = .insufficient → ∃ m, R m x.state ∧ m ≤ n ∧ (0 < room b → m < n)

namespace Closer

variable {R : Nat → S → Prop} {R' : Nat → S' → Prop} {n k : Nat} {b : B}
variable {x : Polled S B (Except ε Unit)}

theorem ready {r : Except ε Unit} {s : S} : Closer R n b ⟨.ready r, s, b⟩ :=
  ⟨⟨[], .refl b⟩, nofun, nofun⟩

theorem panicked {m : String} {s : S} :
    Closer R n b (⟨.panicked m, s, b⟩ : Polled S B (Except ε Unit)) :=
  ⟨⟨[], .refl b⟩, nofun, nofun⟩

theorem mono {R₁ : Nat → S → Prop} (h : Closer R n b x) (hr : ∀ m s, R m s → R₁ m s) (hn : n ≤ k) :
    Closer R₁ k b x where
  exists_produces    := h.exists_produces
  of_pending ho      := (h.of_pending ho).imp fun _ => hr _ _
  of_insufficient ho := by
    have ⟨m, hm, hle, hlt⟩ := h.of_insufficient ho
    exact ⟨m, hr _ _ hm, Nat.le_trans hle hn, fun hb => Nat.lt_of_lt_of_le (hlt hb) hn⟩

theorem andThen {put : S → S'} {g : ε → ε'} {f : Unit → S → B → Polled S' B (Except ε' Unit)}
    (h : Closer R n b x) (hput : ∀ m s, R m s → R' (m + k + 1) (put s))
    (hf : ∀ s b', Closer R' k b' (f () s b')) : Closer R' (n + k + 1) b (x.andThen put g f) := by
  match hx : x.outcome with
  | .pending          =>
    rw [Polled.andThen_pending hx]
    refine ⟨h.exists_produces, fun _ => ?_, nofun⟩
    have ⟨m, hm⟩ := h.of_pending hx
    exact ⟨_, hput _ _ hm⟩
  | .insufficient     =>
    rw [Polled.andThen_insufficient hx]
    refine ⟨h.exists_produces, nofun, fun _ => ?_⟩
    have ⟨m, hm, hle, hlt⟩ := h.of_insufficient hx
    exact ⟨_, hput _ _ hm, by omega, fun hb => by have := hlt hb; omega⟩
  | .panicked m       =>
    rw [Polled.andThen_panicked hx]
    exact ⟨h.exists_produces, nofun, nofun⟩
  | .ready (.error e) =>
    rw [Polled.andThen_error hx]
    exact ⟨h.exists_produces, nofun, nofun⟩
  | .ready (.ok ())   =>
    rw [Polled.andThen_ok hx]
    have ⟨u, hu⟩ := h.exists_produces
    have hf := hf x.state x.buf
    have ⟨w, hw⟩ := hf.exists_produces
    refine ⟨⟨u ++ w, hu.trans hw⟩, hf.of_pending, fun ho => ?_⟩
    have ⟨m, hm, hle, _⟩ := hf.of_insufficient ho
    exact ⟨m, hm, by omega, fun _ => by omega⟩

theorem finish {put : S → S'} {g : ε → ε'} {f : Unit → S → B → Polled S' B (Except ε' Unit)}
    (h : Closer R n b x) (hput : ∀ m s, R m s → R' m (put s))
    (hf : ∀ s b', ¬(f () s b').outcome.Unfinished ∧ (f () s b').buf = b') :
    Closer R' n b (x.andThen put g f) := by
  match hx : x.outcome with
  | .pending          =>
    rw [Polled.andThen_pending hx]
    refine ⟨h.exists_produces, fun _ => ?_, nofun⟩
    exact (h.of_pending hx).imp fun _ => hput _ _
  | .insufficient     =>
    rw [Polled.andThen_insufficient hx]
    refine ⟨h.exists_produces, nofun, fun _ => ?_⟩
    have ⟨m, hm, hle⟩ := h.of_insufficient hx
    exact ⟨m, hput _ _ hm, hle⟩
  | .panicked m       =>
    rw [Polled.andThen_panicked hx]
    exact ⟨h.exists_produces, nofun, nofun⟩
  | .ready (.error e) =>
    rw [Polled.andThen_error hx]
    exact ⟨h.exists_produces, nofun, nofun⟩
  | .ready (.ok ())   =>
    rw [Polled.andThen_ok hx]
    have ⟨ho, hb⟩ := hf x.state x.buf
    refine ⟨?_, fun hp => absurd (.inl hp) ho, fun hp => absurd (.inr hp) ho⟩
    rw [hb]
    exact h.exists_produces

theorem lift {put : S → S'} {g : ε → ε'} (h : Closer R n b x)
    (hput : ∀ m s, R m s → R' m (put s)) : Closer R' n b (x.lift put g) :=
  h.finish hput fun _ _ => ⟨Outcome.not_unfinished_ready _, rfl⟩

end Closer

theorem Writes.closer {R : S → Emission ε → Prop} {e : Emission ε} {b : B}
    {x : Polled S B (Except ε Unit)} (h : Writes Full R e b x) :
    Closer (fun n s => ∃ f : Emission ε, n = f.bits.length ∧ R s f) e.bits.length b x := by
  have ⟨w, hw, hx⟩ := h
  refine ⟨⟨w, hw⟩, fun ho => ?_, fun ho => ?_⟩
  case refine_1 =>
    simp only [ho] at hx
    have ⟨f, _, hf⟩ := hx
    exact ⟨_, f, rfl, hf⟩
  case refine_2 =>
    simp only [ho] at hx
    have ⟨hfull, f, he, hf⟩ := hx
    have hl : e.bits.length = w.length + f.bits.length := by
      rw [he, Emission.prepend, List.length_append]
    have hr := hw.room_eq
    rw [show room x.buf = 0 from hfull] at hr
    exact ⟨_, ⟨f, rfl, hf⟩, by omega, fun _ => by omega⟩

-- However it is polled, the encoder is out of room at most `n` times on buffers that have some, until it
-- is pending.
def Settles (poll : C → S → B → Polled S B (Except ε Unit)) (n : Nat) (s : S) : Prop :=
  ∃ R : Nat → S → Prop, R n s ∧ ∀ c n s b, R n s → Closer R n b (poll c s b)

section

variable {poll : C → S → B → Polled S B (Except ε Unit)} {n : Nat} {s : S}

theorem Settles.closer (h : Settles poll n s) (c : C) (b : B) :
    Closer (Settles poll) n b (poll c s b) :=
  have ⟨R, hs, hr⟩ := h
  (hr c n s b hs).mono (fun _ _ h => ⟨R, h, hr⟩) (Nat.le_refl n)

theorem Encodes.settles {e : Emission ε} (h : Encodes Full poll s e) :
    Settles poll e.bits.length s := by
  refine ⟨fun n s => ∃ e : Emission ε, n = e.bits.length ∧ Encodes Full poll s e, ⟨e, rfl, h⟩, ?_⟩
  rintro c n s b ⟨e, rfl, h⟩
  exact (h.writes c b).closer

end

end Stream
