import Mincodec.Stream.Poll

-- What a poll does to its buffer, and where it is pending.
namespace Stream

variable {S S' B α β ε ε' : Type} {T P : B → B → Prop} {b : B}

-- `T` relates the buffers before and after a computation, and `P` those of one that has become pending
-- on the way.
structure Traced (T P : B → B → Prop) : Prop where
  refl b          : T b b
  trans {a b c}   : T a b → T b c → T a c
  pending {a b c} : T a b → P b c → P a c

namespace Polled

def Traces (T P : B → B → Prop) (b : B) (x : Polled S B α) : Prop :=
  (x.outcome = .pending → P b x.buf) ∧ (x.outcome ≠ .pending → T b x.buf)

namespace Traces

theorem ready (ht : Traced T P) {a : α} {s : S} : (⟨.ready a, s, b⟩ : Polled S B α).Traces T P b :=
  ⟨nofun, fun _ => ht.refl b⟩

theorem panicked (ht : Traced T P) {m : String} {s : S} :
    (⟨.panicked m, s, b⟩ : Polled S B α).Traces T P b :=
  ⟨nofun, fun _ => ht.refl b⟩

theorem after (ht : Traced T P) {b₁ : B} {x : Polled S B α} (h : x.Traces T P b₁) (hb : T b b₁) :
    x.Traces T P b :=
  ⟨fun ho => ht.pending hb (h.1 ho), fun ho => ht.trans hb (h.2 ho)⟩

variable {x : Polled S B (Except ε α)}

theorem andThen (ht : Traced T P) {put : S → S'} {g : ε → ε'}
    {k : α → S → B → Polled S' B (Except ε' β)} (h : x.Traces T P b)
    (hk : ∀ a s b, (k a s b).Traces T P b) : (x.andThen put g k).Traces T P b := by
  match hx : x.outcome with
  | .pending          =>
    rw [andThen_pending hx]
    exact ⟨fun _ => h.1 hx, fun ho => absurd rfl ho⟩
  | .ready (.ok a)    =>
    rw [andThen_ok hx]
    exact (hk _ _ _).after ht (h.2 (by simp [hx]))
  | .ready (.error e) =>
    rw [andThen_error hx]
    exact ⟨nofun, fun _ => h.2 (by simp [hx])⟩
  | .insufficient     =>
    rw [andThen_insufficient hx]
    exact ⟨nofun, fun _ => h.2 (by simp [hx])⟩
  | .panicked m       =>
    rw [andThen_panicked hx]
    exact ⟨nofun, fun _ => h.2 (by simp [hx])⟩

theorem lift (ht : Traced T P) {put : S → S'} {g : ε → ε'} (h : x.Traces T P b) :
    (x.lift put g).Traces T P b :=
  h.andThen ht fun _ _ _ => ready ht

end Traces

end Polled

end Stream
