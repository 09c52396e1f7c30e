import Mincodec.Stream.Canonical
import Mathlib.Data.Fintype.BigOperators
import Mathlib.Data.Set.Finite.List
import Mathlib.InformationTheory.Coding.KraftMcMillan

-- Codes that leave no bits unused.
namespace Stream

open InformationTheory

variable {α : Type}

-- No codeword is the beginning of another one, and all that is long enough begins with a codeword.
structure IsComplete (enc : α → List Bool) (n : Nat) : Prop where
  eq_of_prefix {a b : α} : enc a <+: enc b → a = b
  exists_prefix {bs : List Bool} : n ≤ bs.length → ∃ a, enc a <+: bs

namespace IsComplete

variable {enc code : α → List Bool} {n : Nat}

theorem length_le (h : IsComplete enc n) (a : α) : (enc a).length ≤ n := by
  by_contra hn
  have hl := List.length_take_of_le (Nat.le_of_not_le hn)
  have ⟨b, hb⟩ := h.exists_prefix hl.ge
  cases h.eq_of_prefix (hb.trans (List.take_prefix ..))
  exact hn (hl ▸ hb.length_le)

theorem injective (h : IsComplete enc n) : Function.Injective enc :=
  fun _ _ ha => h.eq_of_prefix (ha ▸ List.prefix_rfl)

theorem finite (h : IsComplete enc n) : Finite α := by
  have hf : (Set.range enc).Finite := by
    apply (List.finite_length_le Bool n).subset
    rintro _ ⟨a, rfl⟩
    exact h.length_le a
  have := hf.to_subtype
  exact .of_injective (Set.rangeFactorization enc) fun _ _ ha => h.injective (congrArg Subtype.val ha)

theorem length_fill (h : IsComplete enc n) (a : α) (t : List.Vector Bool (n - (enc a).length)) :
    (enc a ++ t.toList).length = n := by
  rw [List.length_append, t.toList_length, Nat.add_sub_cancel' (h.length_le a)]

def fill (h : IsComplete enc n) (x : (a : α) × List.Vector Bool (n - (enc a).length)) :
    List.Vector Bool n :=
  ⟨enc x.1 ++ x.2.toList, h.length_fill x.1 x.2⟩

theorem fill_bijective (h : IsComplete enc n) : Function.Bijective h.fill := by
  constructor
  case left  =>
    rintro ⟨a, s⟩ ⟨b, t⟩ hf
    have hf : enc a ++ s.toList = enc b ++ t.toList := congrArg List.Vector.toList hf
    have hab : a = b := by
      cases List.prefix_or_prefix_of_prefix ⟨_, hf⟩ ⟨_, rfl⟩
      case inl hp => exact h.eq_of_prefix hp
      case inr hp => exact (h.eq_of_prefix hp).symm
    subst hab
    rw [List.Vector.eq _ _ (List.append_cancel_left hf)]
  case right =>
    rintro ⟨bs, hl⟩
    have ⟨a, t, ht⟩ := h.exists_prefix hl.ge
    have htl : t.length = n - (enc a).length := by
      rw [← hl, ← ht, List.length_append, Nat.add_sub_cancel_left]
    exact ⟨⟨a, t, htl⟩, Subtype.ext ht⟩

theorem sum_eq [Fintype α] (h : IsComplete enc n) : ∑ a, 2 ^ (n - (enc a).length) = 2 ^ n := by
  have hc := Fintype.card_of_bijective h.fill_bijective
  simpa only [Fintype.card_sigma, card_vector, Fintype.card_bool] using hc

-- Kraft's inequality, over strings of `n` bits.
theorem sum_le [Fintype α] (hu : UniquelyDecodable (Set.range code)) (hi : Function.Injective code)
    (hl : ∀ a, (code a).length ≤ n) : ∑ a, 2 ^ (n - (code a).length) ≤ 2 ^ n := by
  have hr : ((Finset.univ.map ⟨code, hi⟩ : Finset (List Bool)) : Set (List Bool)) =
      Set.range code := by
    simp
  have hk := kraft_mcmillan_inequality (hr.symm ▸ hu)
  rw [Finset.sum_map, Fintype.card_bool] at hk
  have ha (a : α) : (2 : ℝ) ^ (n - (code a).length) = 2 ^ n * (1 / 2) ^ (code a).length := by
    rw [one_div, inv_pow, pow_sub₀ _ two_ne_zero (hl a)]
  have hsum : ((∑ a, 2 ^ (n - (code a).length) : Nat) : ℝ) ≤ (2 ^ n : Nat) := by
    push_cast
    calc ∑ a, (2 : ℝ) ^ (n - (code a).length)
      _ = 2 ^ n * ∑ a, (1 / 2) ^ (code a).length := by
        rw [Finset.mul_sum]
        exact Finset.sum_congr rfl fun a _ => ha a
      _ ≤ 2 ^ n := mul_le_of_le_one_right (by positivity) hk
  exact_mod_cast hsum

theorem length_eq (h : IsComplete enc n) (hu : UniquelyDecodable (Set.range code))
    (hi : Function.Injective code) (hl : ∀ a, (code a).length ≤ (enc a).length) (a : α) :
    (code a).length = (enc a).length := by
  have := h.finite
  have := Fintype.ofFinite α
  have hle (a : α) : 2 ^ (n - (enc a).length) ≤ 2 ^ (n - (code a).length) :=
    Nat.pow_le_pow_right Nat.two_pos (Nat.sub_le_sub_left (hl a) n)
  have hsum : ∑ a, 2 ^ (n - (enc a).length) = ∑ a, 2 ^ (n - (code a).length) :=
    Nat.le_antisymm (Finset.sum_le_sum fun a _ => hle a)
      (h.sum_eq ▸ sum_le hu hi fun a => (hl a).trans (h.length_le a))
  have ha := (Finset.sum_eq_sum_iff_of_le fun a _ => hle a).mp hsum a (Finset.mem_univ a)
  have := Nat.pow_right_injective (le_refl 2) ha
  have := hl a
  have := h.length_le a
  omega

end IsComplete

namespace Parser

variable {ε ε' β : Type} {p : Parser ε α} {f : α → Parser ε β} {n m : Nat}

def IsTotal (p : Parser ε α) (n : Nat) : Prop :=
  ∀ bs, n ≤ bs.length → ∃ u rest a,
    bs = u ++ rest ∧ u.length ≤ n ∧ p.Halts u (.finished (.ok a))

theorem pure_isTotal (a : α) : (Parser.pure a : Parser ε α).IsTotal 0 :=
  fun bs _ => ⟨[], bs, a, rfl, le_refl 0, pure_halts a⟩

theorem bit_isTotal : (bit : Parser ε Bool).IsTotal 1 := by
  intro bs hn
  cases bs
  case nil       => cases hn
  case cons x bs => exact ⟨[x], bs, x, rfl, le_refl 1, bit_halts x⟩

theorem take_isTotal (n : Nat) : (take n : Parser ε (List Bool)).IsTotal n := by
  intro bs hn
  have hl := List.length_take_of_le hn
  have ht := take_halts (ε := ε) (bs.take n)
  rw [hl] at ht
  exact ⟨bs.take n, bs.drop n, bs.take n, (List.take_append_drop n bs).symm, hl.le, ht⟩

namespace IsTotal

theorem mono (h : p.IsTotal n) (hm : n ≤ m) : p.IsTotal m := by
  intro bs hl
  have ⟨u, rest, a, hb, hu, hp⟩ := h bs (hm.trans hl)
  exact ⟨u, rest, a, hb, hu.trans hm, hp⟩

theorem bind_of_halts (h : p.IsTotal n)
    (hf : ∀ u a, p.Halts u (.finished (.ok a)) → (f a).IsTotal m) : (p.bind f).IsTotal (n + m) := by
  intro bs hl
  have ⟨u, mid, a, hb, hu, hp⟩ := h bs (by omega)
  have hlen := congrArg List.length hb
  rw [List.length_append] at hlen
  have ⟨t, rest, b, hm, ht, hq⟩ := hf u a hp mid (by omega)
  refine ⟨u ++ t, rest, b, by rw [hb, hm, List.append_assoc], ?_, hp.bind hq⟩
  rw [List.length_append]
  omega

theorem bind (h : p.IsTotal n) (hf : ∀ a, (f a).IsTotal m) : (p.bind f).IsTotal (n + m) :=
  h.bind_of_halts fun _ a _ => hf a

theorem mapErr (h : p.IsTotal n) (g : ε → ε') : (p.mapErr g).IsTotal n := by
  intro bs hl
  have ⟨u, rest, a, hb, hu, hp⟩ := h bs hl
  exact ⟨u, rest, a, hb, hu, hp.mapErr⟩

theorem map (h : p.IsTotal n) (g : α → β) : (p.map g).IsTotal n :=
  h.bind fun a => pure_isTotal (g a)

theorem replicate (h : p.IsTotal n) (k : Nat) : (p.replicate k).IsTotal (k * n) := by
  induction k
  case zero      => exact (pure_isTotal _).mono (Nat.zero_le _)
  case succ k hi =>
    rw [replicate_succ, Nat.succ_mul, Nat.add_comm (k * n)]
    exact h.bind fun a => hi.map (List.Vector.cons a)

theorem isComplete (h : p.IsTotal n) {enc : α → List Bool} (hc : p.IsCanonical enc)
    (hh : ∀ a, p.Halts (enc a) (.finished (.ok a))) : IsComplete enc n where
  eq_of_prefix := by
    rintro a b ⟨t, ht⟩
    cases ((hh a).unique (hh b) ht).1
    rfl
  exists_prefix := by
    intro bs hl
    have ⟨u, rest, a, hb, _, hp⟩ := h bs hl
    exact ⟨a, rest, by rw [hb, hc.eq_of_halts hp]⟩

end IsTotal

end Parser

end Stream
