import Mathlib.Data.List.Basic
import Mathlib.Data.Vector.Defs

namespace Stream

inductive Ending (ε α : Type)
  | finished (r : Except ε α)
  | panicked (msg : String)

-- What a prefix of a bit stream decides: nothing yet, or an ending and the bits left over.
inductive Verdict (ε α : Type)
  | more
  | halt (e : Ending ε α) (rest : List Bool)

-- The meaning of a decoder: one pass over a contiguous bit stream.
def Parser (ε α : Type) :=
  List Bool → Verdict ε α

namespace Parser

variable {ε ε' α β : Type}

protected def pure (a : α) : Parser ε α :=
  fun bs => .halt (.finished (.ok a)) bs

def fail (e : ε) : Parser ε α :=
  fun bs => .halt (.finished (.error e)) bs

def abort (msg : String) : Parser ε α :=
  fun bs => .halt (.panicked msg) bs

protected def bind (p : Parser ε α) (f : α → Parser ε β) : Parser ε β := fun bs =>
  match p bs with
  | .more                              => .more
  | .halt (.finished (.ok a)) rest     => f a rest
  | .halt (.finished (.error e)) rest  => .halt (.finished (.error e)) rest
  | .halt (.panicked msg) rest         => .halt (.panicked msg) rest

def mapErr (p : Parser ε α) (g : ε → ε') : Parser ε' α := fun bs =>
  match p bs with
  | .more                              => .more
  | .halt (.finished (.ok a)) rest     => .halt (.finished (.ok a)) rest
  | .halt (.finished (.error e)) rest  => .halt (.finished (.error (g e))) rest
  | .halt (.panicked msg) rest         => .halt (.panicked msg) rest

def map (p : Parser ε α) (f : α → β) : Parser ε β :=
  p.bind fun a => .pure (f a)

def never : Parser ε α :=
  fun _ => .more

def lift : Except ε α → Parser ε α
  | .ok a    => .pure a
  | .error e => .fail e

def bit : Parser ε Bool
  | []      => .more
  | x :: bs => .halt (.finished (.ok x)) bs

def take (n : Nat) : Parser ε (List Bool) := fun bs =>
  if n ≤ bs.length then .halt (.finished (.ok (bs.take n))) (bs.drop n) else .more

def replicate (p : Parser ε α) : (n : Nat) → Parser ε (List.Vector α n)
  | 0     => .pure .nil
  | n + 1 => p.bind fun a => (p.replicate n).map (.cons a)

def after (p : Parser ε α) (w : List Bool) : Parser ε α :=
  fun bs => p (w ++ bs)

def Halts (p : Parser ε α) (w : List Bool) (e : Ending ε α) : Prop :=
  ∀ bs, p (w ++ bs) = .halt e bs

@[simp] theorem replicate_zero (p : Parser ε α) : p.replicate 0 = .pure .nil := rfl

theorem replicate_succ (p : Parser ε α) (n : Nat) :
    p.replicate (n + 1) = p.bind fun a => (p.replicate n).map (.cons a) := rfl

@[simp] theorem after_nil (p : Parser ε α) : p.after [] = p := rfl

@[simp] theorem after_after (p : Parser ε α) (u w : List Bool) :
    (p.after u).after w = p.after (u ++ w) := by
  funext bs
  simp [after]

@[simp] theorem mapErr_id (p : Parser ε α) : p.mapErr id = p := by
  funext bs
  unfold mapErr
  split <;> simp_all

@[simp] theorem pure_bind (a : α) (f : α → Parser ε β) : (Parser.pure a).bind f = f a := rfl

@[simp] theorem bind_pure (p : Parser ε α) : p.bind .pure = p := by
  funext bs
  unfold Parser.bind
  split <;> simp_all [Parser.pure]

@[simp] theorem mapErr_bit (g : ε → ε') : (bit : Parser ε Bool).mapErr g = bit := by
  funext bs
  cases bs <;> rfl

@[simp] theorem mapErr_take (n : Nat) (g : ε → ε') :
    (take n : Parser ε (List Bool)).mapErr g = take n := by
  funext bs
  by_cases h : n ≤ bs.length <;> simp [mapErr, take, h]

theorem take_bind_congr {n : Nat} {f g : List Bool → Parser ε β}
    (h : ∀ w, w.length = n → f w = g w) : (take n).bind f = (take n).bind g := by
  funext bs
  simp only [Parser.bind, take]
  by_cases hn : n ≤ bs.length
  case pos => simp only [if_pos hn, h (bs.take n) (List.length_take_of_le hn)]
  case neg => simp only [if_neg hn]

theorem map_eq_bind (p : Parser ε α) (f : α → β) : p.map f = p.bind fun a => .pure (f a) := rfl

theorem Halts.after {p : Parser ε α} {u w : List Bool} {e : Ending ε α} :
    (p.after u).Halts w e ↔ p.Halts (u ++ w) e := by
  simp [Halts, Parser.after]

theorem Halts.bind_after {p : Parser ε α} {f : α → Parser ε β} {w : List Bool} {a : α}
    (h : p.Halts w (.finished (.ok a))) : (p.bind f).after w = f a := by
  funext bs
  simp [Parser.after, Parser.bind, h bs]

theorem Halts.bind {p : Parser ε α} {f : α → Parser ε β} {u w : List Bool} {a : α} {e : Ending ε β}
    (h : p.Halts u (.finished (.ok a))) (hf : (f a).Halts w e) : (p.bind f).Halts (u ++ w) e :=
  Halts.after.mp (h.bind_after ▸ hf)

theorem Halts.bind_error {p : Parser ε α} {f : α → Parser ε β} {w : List Bool} {e : ε}
    (h : p.Halts w (.finished (.error e))) : (p.bind f).Halts w (.finished (.error e)) := by
  intro bs
  simp [Parser.bind, h bs]

theorem Halts.bind_panicked {p : Parser ε α} {f : α → Parser ε β} {w : List Bool} {m : String}
    (h : p.Halts w (.panicked m)) : (p.bind f).Halts w (.panicked m) := by
  intro bs
  simp [Parser.bind, h bs]

theorem Halts.mapErr {p : Parser ε α} {g : ε → ε'} {w : List Bool} {a : α}
    (h : p.Halts w (.finished (.ok a))) : (p.mapErr g).Halts w (.finished (.ok a)) := by
  intro bs
  simp [Parser.mapErr, h bs]

theorem Halts.mapErr_error {p : Parser ε α} {g : ε → ε'} {w : List Bool} {e : ε}
    (h : p.Halts w (.finished (.error e))) : (p.mapErr g).Halts w (.finished (.error (g e))) := by
  intro bs
  simp [Parser.mapErr, h bs]

theorem Halts.mapErr_panicked {p : Parser ε α} {g : ε → ε'} {w : List Bool} {m : String}
    (h : p.Halts w (.panicked m)) : (p.mapErr g).Halts w (.panicked m) := by
  intro bs
  simp [Parser.mapErr, h bs]

theorem Halts.map {p : Parser ε α} {f : α → β} {w : List Bool} {a : α}
    (h : p.Halts w (.finished (.ok a))) : (p.map f).Halts w (.finished (.ok (f a))) := by
  intro bs
  simp [Parser.map, Parser.bind, Parser.pure, h bs]

theorem bind_assoc {γ : Type} (p : Parser ε α) (f : α → Parser ε β) (g : β → Parser ε γ) :
    (p.bind f).bind g = p.bind fun a => (f a).bind g := by
  funext bs
  simp only [Parser.bind]
  cases p bs
  case more => rfl
  case halt e rest =>
    cases e
    case panicked m => rfl
    case finished r => cases r <;> rfl

theorem mapErr_bind (p : Parser ε α) (f : α → Parser ε β) (g : ε → ε') :
    (p.bind f).mapErr g = (p.mapErr g).bind fun a => (f a).mapErr g := by
  funext bs
  simp only [mapErr, Parser.bind]
  cases p bs
  case more => rfl
  case halt e rest =>
    cases e
    case panicked m => rfl
    case finished r => cases r <;> rfl

theorem mapErr_map (p : Parser ε α) (f : α → β) (g : ε → ε') :
    (p.map f).mapErr g = (p.mapErr g).map f :=
  mapErr_bind p _ g

theorem map_bind {γ : Type} (p : Parser ε α) (f : α → β) (g : β → Parser ε γ) :
    (p.map f).bind g = p.bind (g ∘ f) :=
  bind_assoc p _ g

theorem bind_map {γ : Type} (p : Parser ε α) (f : α → Parser ε β) (g : β → γ) :
    (p.bind f).map g = p.bind fun a => (f a).map g :=
  bind_assoc p f _

theorem map_map {γ : Type} (p : Parser ε α) (f : α → β) (g : β → γ) :
    (p.map f).map g = p.map (g ∘ f) :=
  bind_assoc p _ _

theorem replicate_halts {p : Parser ε α} {enc : α → List Bool}
    (h : ∀ a, p.Halts (enc a) (.finished (.ok a))) {n : Nat} (v : List.Vector α n) :
    (p.replicate n).Halts (v.toList.flatMap enc) (.finished (.ok v)) := by
  obtain ⟨as, rfl⟩ := v
  induction as
  case nil          => exact fun _ => rfl
  case cons a as hi => exact (h a).bind hi.map

theorem bind_more {p : Parser ε α} {f : α → Parser ε β} {w : List Bool}
    (h : p w = .more) : p.bind f w = .more := by
  simp [Parser.bind, h]

theorem mapErr_more {p : Parser ε α} {g : ε → ε'} {w : List Bool}
    (h : p w = .more) : p.mapErr g w = .more := by
  simp [Parser.mapErr, h]

theorem pure_halts (a : α) : (Parser.pure a : Parser ε α).Halts [] (.finished (.ok a)) :=
  fun _ => rfl

theorem lift_halts (r : Except ε α) : (lift r).Halts [] (.finished r) := by
  cases r <;> exact fun _ => rfl

theorem bit_halts (x : Bool) : (bit : Parser ε Bool).Halts [x] (.finished (.ok x)) :=
  fun _ => rfl

theorem take_halts (w : List Bool) :
    (take w.length : Parser ε (List Bool)).Halts w (.finished (.ok w)) := by
  intro bs
  simp [take]

-- A parser that has ended on `u` cannot end differently, or later, on more bits.
theorem Halts.unique {p : Parser ε α} {u w t : List Bool} {d e : Ending ε α}
    (hu : p.Halts u d) (hw : p.Halts w e) (h : u ++ t = w) : d = e ∧ t = [] := by
  have h₁ := hu t
  have h₂ := hw []
  rw [List.append_nil, ← h, h₁] at h₂
  injection h₂ with hd ht
  exact ⟨hd, ht⟩

theorem Halts.eq_of_append {p : Parser ε α} {u w t t' : List Bool} {d e : Ending ε α}
    (hu : p.Halts u d) (hw : p.Halts w e) (h : u ++ t = w ++ t') : d = e ∧ u = w ∧ t = t' := by
  have hv := hu t
  rw [h, hw t'] at hv
  injection hv with he ht
  subst ht
  exact ⟨he.symm, List.append_cancel_right h, rfl⟩

def IsLocal (p : Parser ε α) : Prop :=
  ∀ bs e rest, p bs = .halt e rest → ∃ w, bs = w ++ rest ∧ p.Halts w e

theorem never_isLocal : (never : Parser ε α).IsLocal := by
  intro bs e rest h
  cases h

theorem pure_isLocal (a : α) : (Parser.pure a : Parser ε α).IsLocal := by
  intro bs e rest h
  cases h
  exact ⟨[], rfl, pure_halts a⟩

theorem take_isLocal (n : Nat) : (take n : Parser ε (List Bool)).IsLocal := by
  intro bs e rest h
  unfold take at h
  split at h
  case isFalse => cases h
  case isTrue hn =>
    cases h
    refine ⟨bs.take n, (List.take_append_drop n bs).symm, ?_⟩
    have := take_halts (ε := ε) (bs.take n)
    rwa [List.length_take_of_le hn] at this

theorem IsLocal.bind {p : Parser ε α} {f : α → Parser ε β} (hp : p.IsLocal)
    (hf : ∀ a, (f a).IsLocal) : (p.bind f).IsLocal := by
  intro bs e rest h
  unfold Parser.bind at h
  split at h
  case h_1 => cases h
  case h_2 a r hx =>
    have ⟨u, hu, hp⟩ := hp _ _ _ hx
    have ⟨w, hw, hf⟩ := hf a _ _ _ h
    exact ⟨u ++ w, by rw [hu, hw, List.append_assoc], hp.bind hf⟩
  case h_3 x r hx =>
    cases h
    have ⟨u, hu, hp⟩ := hp _ _ _ hx
    exact ⟨u, hu, hp.bind_error⟩
  case h_4 m r hx =>
    cases h
    have ⟨u, hu, hp⟩ := hp _ _ _ hx
    exact ⟨u, hu, hp.bind_panicked⟩

def IsSafe (p : Parser ε α) : Prop :=
  ∀ bs m rest, p bs ≠ .halt (.panicked m) rest

theorem never_isSafe : (never : Parser ε α).IsSafe := by
  intro bs m rest h
  cases h

theorem pure_isSafe (a : α) : (Parser.pure a : Parser ε α).IsSafe := by
  intro bs m rest h
  cases h

theorem bit_isSafe : (bit : Parser ε Bool).IsSafe := by
  intro bs m rest h
  cases bs <;> cases h

theorem take_isSafe (n : Nat) : (take n : Parser ε (List Bool)).IsSafe := by
  intro bs m rest h
  unfold take at h
  split at h <;> cases h

theorem IsSafe.bind {p : Parser ε α} {f : α → Parser ε β} (hp : p.IsSafe)
    (hf : ∀ a, (f a).IsSafe) : (p.bind f).IsSafe := by
  intro bs m rest h
  unfold Parser.bind at h
  split at h
  case h_2 a r hx => exact hf a _ _ _ h
  case h_4 m r hx => exact hp _ _ _ hx
  all_goals cases h

theorem IsSafe.mapErr {p : Parser ε α} (hp : p.IsSafe) (g : ε → ε') : (p.mapErr g).IsSafe := by
  intro bs m rest h
  unfold Parser.mapErr at h
  split at h
  case h_4 m r hx => exact hp _ _ _ hx
  all_goals cases h

theorem lift_isSafe (x : Except ε α) : (lift x).IsSafe := by
  cases x <;> exact fun _ _ _ => nofun

end Parser
end Stream
