import Mathlib.Logic.Relation

-- A loop whose body either goes on with another state or leaves with a result.
namespace Stream

universe u v

def loop {σ : Type u} {ρ : Type v} (body : σ → σ ⊕ ρ) : Nat → σ → Option ρ
  | 0, _        => none
  | fuel + 1, s =>
    match body s with
    | .inl s => loop body fuel s
    | .inr r => some r

variable {σ : Type u} {ρ : Type v} {body : σ → σ ⊕ ρ} {s t : σ}

def Continues (body : σ → σ ⊕ ρ) (s t : σ) : Prop :=
  body s = .inl t

def Diverges (body : σ → σ ⊕ ρ) (s : σ) : Prop :=
  ∀ fuel, loop body fuel s = none

theorem Continues.diverges_iff (h : Continues body s t) : Diverges body s ↔ Diverges body t := by
  have hl (fuel : Nat) : loop body (fuel + 1) s = loop body fuel t := by
    simp only [loop, show body s = .inl t from h]
  constructor
  case mp  => exact fun hd fuel => hl fuel ▸ hd (fuel + 1)
  case mpr =>
    intro hd fuel
    cases fuel
    case zero      => rfl
    case succ fuel => exact (hl fuel).trans (hd fuel)

theorem diverges_iff_of_continues (h : Relation.ReflTransGen (Continues body) s t) :
    Diverges body s ↔ Diverges body t := by
  induction h
  case refl       => rfl
  case tail hc hi => exact hi.trans hc.diverges_iff

theorem not_diverges_of_leaves {r : ρ} (h : body s = .inr r) : ¬Diverges body s := by
  intro hd
  have := hd 1
  simp only [loop, h] at this
  cases this

theorem exists_leaves_of_loop {fuel : Nat} {r : ρ} (h : loop body fuel s = some r) :
    ∃ t, Relation.ReflTransGen (Continues body) s t ∧ body t = .inr r := by
  induction fuel generalizing s
  case zero         => cases h
  case succ fuel hi =>
    unfold loop at h
    split at h
    case h_1 t hb =>
      obtain ⟨u, htu, hu⟩ := hi h
      exact ⟨u, .head hb htu, hu⟩
    case h_2 hb   =>
      cases h
      exact ⟨s, .refl, hb⟩

theorem diverges_of_invariant {I : σ → Prop} (h : ∀ s, I s → ∃ t, Continues body s t ∧ I t)
    (hs : I s) : Diverges body s := by
  intro fuel
  induction fuel generalizing s
  case zero         => rfl
  case succ fuel hi =>
    have ⟨t, hc, ht⟩ := h s hs
    simp only [loop, show body s = .inl t from hc]
    exact hi ht

-- A loop that gets closer to its end in every iteration ends, unless it comes to a state of `P`. The
-- invariant says how far away the end is.
theorem diverges_iff_of_descent {I : Nat → σ → Prop} {P : σ → Prop}
    (h : ∀ k s, I k s → P s ∨ (∃ r, body s = .inr r) ∨
      ∃ t j, Continues body s t ∧ I j t ∧ j < k) {k : Nat} (hs : I k s) :
    Diverges body s ↔
      ∃ t, Relation.ReflTransGen (Continues body) s t ∧ P t ∧ Diverges body t := by
  constructor
  case mpr =>
    rintro ⟨t, hst, _, hd⟩
    exact (diverges_iff_of_continues hst).mpr hd
  case mp  =>
    intro hd
    induction k using Nat.strongRecOn generalizing s
    case ind k hi =>
      cases h k s hs
      case inl hp => exact ⟨s, .refl, hp, hd⟩
      case inr hn =>
        cases hn
        case inl hr =>
          have ⟨r, hr⟩ := hr
          exact absurd hd (not_diverges_of_leaves hr)
        case inr hn =>
          have ⟨t, j, hc, ht, hlt⟩ := hn
          have ⟨u, htu, hu⟩ := hi j hlt ht (hc.diverges_iff.mp hd)
          exact ⟨u, .head hc htu, hu⟩

end Stream
