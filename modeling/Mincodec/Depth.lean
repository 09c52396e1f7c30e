import Mathlib.Data.Fintype.Order
import Mathlib.Logic.Relation

-- Recursions that are followed up to a depth.
namespace Depth

theorem exists_common {ι : Type} [Finite ι] {P : Nat → ι → Prop}
    (hs : ∀ depth a, P depth a → P (depth + 1) a) (h : ∀ a, ∃ depth, P depth a) :
    ∃ depth, ∀ a, P depth a := by
  choose depth hd using h
  have ⟨d, hle⟩ := Finite.exists_le depth
  refine ⟨d, fun a => ?_⟩
  have mono (n : Nat) : P (depth a + n) a := by
    induction n
    case zero      => exact hd a
    case succ n hi => exact hs _ a hi
  have hm := mono (d - depth a)
  rwa [Nat.add_sub_cancel' (hle a)] at hm

variable {α : Type} {r : α → α → Prop} {P : Nat → α → Prop}

-- A recursion along `r`: what holds up to a depth is decided by what holds one level below.
structure Unfolds (r : α → α → Prop) (P : Nat → α → Prop) : Prop where
  zero (a : α) : ¬P 0 a
  succ (depth : Nat) (a : α) : P (depth + 1) a ↔ ∀ b, r b a → P depth b

namespace Unfolds

theorem mono (h : Unfolds r P) {depth : Nat} {a : α} (ha : P depth a) : P (depth + 1) a := by
  induction depth generalizing a
  case zero          => exact absurd ha (h.zero a)
  case succ depth hi =>
    rw [h.succ] at ha ⊢
    exact fun b hb => hi (ha b hb)

theorem acc (h : Unfolds r P) {depth : Nat} {a : α} (ha : P depth a) : Acc r a := by
  induction depth generalizing a
  case zero          => exact absurd ha (h.zero a)
  case succ depth hi => exact ⟨a, fun b hb => hi ((h.succ depth a).mp ha b hb)⟩

theorem exists_depth [Finite α] (h : Unfolds r P) {a : α} (ha : Acc r a) : ∃ depth, P depth a := by
  induction ha
  case intro a _ hi =>
    have ⟨depth, hd⟩ := exists_common (ι := { b // r b a }) (P := fun depth b => P depth b)
      (fun _ _ => h.mono) fun b => hi b b.property
    exact ⟨depth + 1, (h.succ depth a).mpr fun b hb => hd ⟨b, hb⟩⟩

theorem exists_depth_iff [Finite α] (h : Unfolds r P) :
    (∀ a, ∃ depth, P depth a) ↔ ∀ a, ¬Relation.TransGen r a a := by
  constructor
  case mp =>
    intro hp a ha
    have hw : WellFounded r := ⟨fun a => h.acc (hp a).choose_spec⟩
    exact hw.transGen.irrefl.irrefl a ha
  case mpr =>
    intro ha a
    have : Std.Irrefl (Relation.TransGen r) := ⟨ha⟩
    have hw := Finite.wellFounded_of_trans_of_irrefl (Relation.TransGen r)
    exact h.exists_depth (Subrelation.wf .single hw |>.apply a)

end Unfolds

end Depth
