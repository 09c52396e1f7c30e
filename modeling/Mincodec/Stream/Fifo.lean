import Mathlib.Data.List.GetD
import Mathlib.Logic.Relation

-- A queue of values that are put in at one end and taken out at the other one.
namespace Stream

universe u

structure Fifo (α : Type u) where
  sent     : List α
  received : List α

namespace Fifo

variable {α : Type u} {Foreseen : Nat → α → Prop} {q q' : Fifo α}

def Agrees (q : Fifo α) : Prop :=
  ∀ (i : Nat) (a b : α), q.sent[i]? = some a → q.received[i]? = some b → b = a

-- A value that is the only one which can come is foreseen: it may be taken out before it is put in.
inductive Step (Foreseen : Nat → α → Prop) (q : Fifo α) : Fifo α → Prop
  | send {a : α} : (∀ b, q.received[q.sent.length]? = some b → b = a) →
    Step Foreseen q { q with sent := q.sent ++ [a] }
  | receive {a : α} : q.sent[q.received.length]? = some a →
    Step Foreseen q { q with received := q.received ++ [a] }
  | foresee {a : α} : q.sent.length ≤ q.received.length → Foreseen q.received.length a →
    Step Foreseen q { q with received := q.received ++ [a] }

abbrev Steps (Foreseen : Nat → α → Prop) : Fifo α → Fifo α → Prop :=
  Relation.ReflTransGen (Step Foreseen)

theorem getElem?_append_singleton {as : List α} {a b : α} {i : Nat}
    (h : (as ++ [a])[i]? = some b) : as[i]? = some b ∨ i = as.length ∧ a = b := by
  cases Nat.lt_trichotomy i as.length
  case inl hi =>
    rw [List.getElem?_append_left hi] at h
    exact .inl h
  case inr hi =>
    cases hi
    case inl hi =>
      subst hi
      rw [List.getElem?_concat_length] at h
      exact .inr ⟨rfl, Option.some.inj h⟩
    case inr hi =>
      rw [List.getElem?_eq_none (by simp; omega)] at h
      cases h

theorem Step.agrees (h : Step Foreseen q q') (hq : q.Agrees) : q'.Agrees := by
  intro i a b ha hb
  cases h
  case send hr    =>
    cases getElem?_append_singleton ha
    case inl ha => exact hq i a b ha hb
    case inr ha =>
      obtain ⟨rfl, rfl⟩ := ha
      exact hr b hb
  case receive hs =>
    cases getElem?_append_singleton hb
    case inl hb => exact hq i a b ha hb
    case inr hb =>
      obtain ⟨rfl, rfl⟩ := hb
      exact Option.some.inj (hs.symm.trans ha)
  case foresee hl _ =>
    cases getElem?_append_singleton hb
    case inl hb => exact hq i a b ha hb
    case inr hb =>
      obtain ⟨rfl, rfl⟩ := hb
      rw [List.getElem?_eq_none hl] at ha
      cases ha

-- Nothing is lost, changed or reordered in a run.
theorem Steps.agrees (h : Steps Foreseen q q') (hq : q.Agrees) : q'.Agrees := by
  induction h
  case refl         => exact hq
  case tail hs hi   => exact hs.agrees hi

end Fifo

end Stream
