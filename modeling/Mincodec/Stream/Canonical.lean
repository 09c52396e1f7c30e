import Mincodec.Stream.Parser

-- Decoders that accept a value from no bits but its encoding.
namespace Stream.Parser

variable {ε ε' α β : Type}

def Accepts (p : Parser ε α) (bs : List Bool) (a : α) (rest : List Bool) : Prop :=
  p bs = .halt (.finished (.ok a)) rest

variable {p : Parser ε α} {f : α → Parser ε β} {bs rest : List Bool} {a : α}

theorem Halts.accepts (h : p.Halts bs (.finished (.ok a))) : p.Accepts bs a [] := by
  simpa [Accepts] using h []

@[simp] theorem accepts_pure {a' : α} :
    (Parser.pure a' : Parser ε α).Accepts bs a rest ↔ a' = a ∧ bs = rest := by
  simp [Accepts, Parser.pure]

@[simp] theorem not_accepts_fail {e : ε} : ¬(fail e : Parser ε α).Accepts bs a rest :=
  nofun

@[simp] theorem not_accepts_abort {m : String} : ¬(abort m : Parser ε α).Accepts bs a rest :=
  nofun

@[simp] theorem accepts_lift {x : Except ε α} :
    (lift x).Accepts bs a rest ↔ x = .ok a ∧ bs = rest := by
  cases x <;> simp [lift]

theorem accepts_lift_mapError {x : Except ε α} {g : ε → ε'} :
    (lift (x.mapError g)).Accepts bs a rest ↔ x = .ok a ∧ bs = rest := by
  cases x <;> simp [Except.mapError]

@[simp] theorem accepts_bind {b : β} :
    (p.bind f).Accepts bs b rest ↔ ∃ a mid, p.Accepts bs a mid ∧ (f a).Accepts mid b rest := by
  simp only [Accepts, Parser.bind]
  cases p bs
  case more => simp
  case halt e mid =>
    cases e
    case panicked m => simp
    case finished r => cases r <;> simp

@[simp] theorem accepts_mapErr {g : ε → ε'} : (p.mapErr g).Accepts bs a rest ↔ p.Accepts bs a rest := by
  simp only [Accepts, mapErr]
  cases p bs
  case more => simp
  case halt e mid =>
    cases e
    case panicked m => simp
    case finished r => cases r <;> simp

@[simp] theorem accepts_map {g : α → β} {b : β} :
    (p.map g).Accepts bs b rest ↔ ∃ a, p.Accepts bs a rest ∧ g a = b := by
  rw [map_eq_bind, accepts_bind]
  constructor
  case mp =>
    intro ⟨a, mid, h, hb⟩
    obtain ⟨rfl, rfl⟩ := accepts_pure.mp hb
    exact ⟨a, h, rfl⟩
  case mpr =>
    intro ⟨a, h, hb⟩
    exact ⟨a, rest, h, accepts_pure.mpr ⟨hb, rfl⟩⟩

@[simp] theorem accepts_bit {x : Bool} : (bit : Parser ε Bool).Accepts bs x rest ↔ bs = x :: rest := by
  cases bs <;> simp [Accepts, bit]

@[simp] theorem accepts_take {n : Nat} {w : List Bool} :
    (take n : Parser ε (List Bool)).Accepts bs w rest ↔ w.length = n ∧ bs = w ++ rest := by
  unfold Accepts take
  constructor
  case mp =>
    intro h
    split at h
    case isFalse => cases h
    case isTrue hn =>
      cases h
      exact ⟨List.length_take_of_le hn, (List.take_append_drop n bs).symm⟩
  case mpr =>
    rintro ⟨rfl, rfl⟩
    simp

theorem IsSafe.bind_of_accepts (hp : p.IsSafe)
    (hf : ∀ bs a rest, p.Accepts bs a rest → (f a).IsSafe) : (p.bind f).IsSafe := by
  intro bs m rest h
  unfold Parser.bind at h
  split at h
  case h_2 a r hx => exact hf _ a r hx _ _ _ h
  case h_4 m r hx => exact hp _ _ _ hx
  all_goals cases h

theorem fail_isSafe (e : ε) : (fail e : Parser ε α).IsSafe :=
  lift_isSafe (.error e)

theorem IsSafe.map (hp : p.IsSafe) (g : α → β) : (p.map g).IsSafe :=
  hp.bind fun a => pure_isSafe (g a)

theorem IsSafe.replicate (hp : p.IsSafe) (n : Nat) : (p.replicate n).IsSafe := by
  induction n
  case zero      => exact pure_isSafe _
  case succ n hi =>
    rw [replicate_succ]
    exact hp.bind fun a => hi.map _

theorem Halts.map_panicked {msg : String} (h : p.Halts bs (.panicked msg)) (g : α → β) :
    (p.map g).Halts bs (.panicked msg) :=
  h.bind_panicked

theorem abort_halts (msg : String) : (abort msg : Parser ε α).Halts [] (.panicked msg) :=
  fun _ => rfl

theorem Halts.replicate (h : p.Halts bs (.finished (.ok a))) (n : Nat) :
    (p.replicate n).Halts (List.replicate n bs).flatten (.finished (.ok (.replicate n a))) := by
  induction n
  case zero      => exact pure_halts _
  case succ n hi => exact h.bind hi.map

def IsCanonical (p : Parser ε α) (enc : α → List Bool) : Prop :=
  ∀ bs a rest, p.Accepts bs a rest → bs = enc a ++ rest

namespace IsCanonical

variable {enc : α → List Bool}

theorem eq_of_halts (h : p.IsCanonical enc) (hp : p.Halts bs (.finished (.ok a))) : bs = enc a := by
  simpa using h _ _ _ hp.accepts

theorem mapErr (h : p.IsCanonical enc) (g : ε → ε') : (p.mapErr g).IsCanonical enc :=
  fun bs a rest ha => h bs a rest (accepts_mapErr.mp ha)

theorem replicate (h : p.IsCanonical enc) (n : Nat) :
    (p.replicate n).IsCanonical fun items => items.toList.flatMap enc := by
  induction n
  case zero =>
    rintro bs ⟨_ | ⟨a, as⟩, hl⟩ rest ha
    case nil  => simpa using (accepts_pure.mp ha).2
    case cons => cases hl
  case succ n hi =>
    intro bs items rest ha
    rw [replicate_succ] at ha
    obtain ⟨a, mid, h₁, hm⟩ := accepts_bind.mp ha
    obtain ⟨as, h₂, rfl⟩ := accepts_map.mp hm
    rw [h _ _ _ h₁, hi _ _ _ h₂]
    simp only [List.Vector.toList_cons, List.flatMap_cons, List.append_assoc]

end IsCanonical
end Stream.Parser
