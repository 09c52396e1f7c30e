import Mincodec.Stream.Parser
import Mincodec.Stream.Poll

namespace Stream

-- A buffer to read bits from: the bits not yet read, and how many have been read.
class BitSource (B : Type) where
  unread : B → List Bool
  taken  : B → Nat

open BitSource

variable {B : Type} [BitSource B]

structure Consumes (b : B) (w : List Bool) (b' : B) : Prop where
  unread_eq : unread b = w ++ unread b'
  taken_eq  : taken b' = taken b + w.length

namespace Consumes

variable {b b₁ b₂ : B} {u w : List Bool}

theorem refl (b : B) : Consumes b [] b := ⟨rfl, rfl⟩

theorem trans (h₁ : Consumes b u b₁) (h₂ : Consumes b₁ w b₂) : Consumes b (u ++ w) b₂ where
  unread_eq := by rw [h₁.unread_eq, h₂.unread_eq, List.append_assoc]
  taken_eq  := by rw [h₂.taken_eq, h₁.taken_eq, List.length_append, Nat.add_assoc]

theorem eq_take (h : Consumes b w b₁) : w = (unread b).take (taken b₁ - taken b) := by
  rw [h.unread_eq, h.taken_eq, Nat.add_sub_cancel_left, List.take_left]

theorem unread_eq_drop (h : Consumes b w b₁) : unread b₁ = (unread b).drop w.length := by
  rw [h.unread_eq, List.drop_left]

theorem length_le (h : Consumes b w b₁) : w.length ≤ (unread b).length := by
  simp [h.unread_eq]

end Consumes

def Ending.outcome {ε α : Type} : Ending ε α → Outcome (Except ε α)
  | .finished r => .ready r
  | .panicked m => .panicked m

def Drained (b : B) : Prop :=
  unread b = []

section

variable {C S S' α β γ γ' ε ε' : Type}

-- A poll on `b` takes some bits `w` and then is where the parser `p` is after `w`:
-- unfinished polls leave a state that is related to what is left of `p`, finished polls end as
-- `p` does. `Wait` says whether a poll may be pending, `Stop` holds of a buffer on which the
-- computation reports to be starved, and `Post` relates what a finished poll returns, and leaves
-- behind, to the value of the parser.
structure Follows (Wait : Prop) (Stop : B → Prop) (R : S → Parser ε γ → Prop)
    (Post : α → S → γ → Prop) (p : Parser ε γ) (b : B) (x : Polled S B (Except ε α)) : Prop where
  exists_consumes : ∃ w, Consumes b w x.buf ∧
    match x.outcome with
    | .pending          => Wait ∧ R x.state (p.after w)
    | .insufficient     => Stop x.buf ∧ p (unread b) = .more ∧ R x.state (p.after w)
    | .ready (.ok a)    => ∃ v, Post a x.state v ∧ p.Halts w (.finished (.ok v))
    | .ready (.error e) => p.Halts w (.finished (.error e))
    | .panicked m       => p.Halts w (.panicked m)

abbrev Returns : α → S → α → Prop :=
  fun a _ v => a = v

variable {Wait : Prop} {Stop : B → Prop} {R : S → Parser ε γ → Prop} {R' : S' → Parser ε' β → Prop}
variable {Post : α → S → γ → Prop} {p : Parser ε γ} {b : B} {x : Polled S B (Except ε α)}

namespace Follows

theorem ready {a : α} {s : S} {v : γ} (h : Post a s v) :
    Follows Wait Stop R Post (.pure v) b ⟨.ready (.ok a), s, b⟩ :=
  ⟨[], .refl b, v, h, fun _ => rfl⟩

theorem fail {e : ε} {s : S} : Follows Wait Stop R Post (.fail e) b ⟨.ready (.error e), s, b⟩ :=
  ⟨[], .refl b, fun _ => rfl⟩

theorem abort {m : String} {s : S} : Follows Wait Stop R Post (.abort m) b ⟨.panicked m, s, b⟩ :=
  ⟨[], .refl b, fun _ => rfl⟩

theorem mono {Wait₁ : Prop} {R₁ : S → Parser ε γ → Prop} {Stop₁ : B → Prop}
    (h : Follows Wait Stop R Post p b x) (hw : Wait → Wait₁) (hs : ∀ b, Stop b → Stop₁ b)
    (hr : ∀ s q, R s q → R₁ s q) : Follows Wait₁ Stop₁ R₁ Post p b x := by
  have ⟨w, hc, h⟩ := h
  refine ⟨w, hc, ?_⟩
  split at h
  case h_1 => exact ⟨hw h.1, hr _ _ h.2⟩
  case h_2 => exact ⟨hs _ h.1, h.2.1, hr _ _ h.2.2⟩
  all_goals exact h

theorem after {w : List Bool} {b₁ : B} (hw : Consumes b w b₁)
    (h : Follows Wait Stop R Post (p.after w) b₁ x) : Follows Wait Stop R Post p b x := by
  have ⟨w', hw', h⟩ := h
  refine ⟨w ++ w', hw.trans hw', ?_⟩
  split at h
  case h_1 => simpa using h
  case h_2 =>
    refine ⟨h.1, ?_, by simpa using h.2.2⟩
    rw [hw.unread_eq]
    exact h.2.1
  case h_3 =>
    have ⟨v, hv, h⟩ := h
    exact ⟨v, hv, Parser.Halts.after.mp h⟩
  all_goals exact Parser.Halts.after.mp h

-- The rule for a poll that goes on with `k` where the parser goes on with `f`.
theorem andThen {put : S → S'} {g : ε → ε'} {k : α → S → B → Polled S' B (Except ε' γ')}
    {Post' : γ' → S' → β → Prop} {f : γ → Parser ε' β} (h : Follows Wait Stop R Post p b x)
    (hput : ∀ s q, R s q → R' (put s) ((q.mapErr g).bind f))
    (hk : ∀ a s b' v, Post a s v → Follows Wait Stop R' Post' (f v) b' (k a s b')) :
    Follows Wait Stop R' Post' ((p.mapErr g).bind f) b (x.andThen put g k) := by
  have ⟨w, hw, h⟩ := h
  match hx : x.outcome with
  | .pending =>
    rw [Polled.andThen_pending hx]
    simp only [hx] at h
    exact ⟨w, hw, h.1, hput _ _ h.2⟩
  | .insufficient =>
    rw [Polled.andThen_insufficient hx]
    simp only [hx] at h
    have ⟨hs, hm, hr⟩ := h
    exact ⟨w, hw, hs, Parser.bind_more (Parser.mapErr_more hm), hput _ _ hr⟩
  | .panicked m =>
    rw [Polled.andThen_panicked hx]
    simp only [hx] at h
    exact ⟨w, hw, h.mapErr_panicked.bind_panicked⟩
  | .ready (.error e) =>
    rw [Polled.andThen_error hx]
    simp only [hx] at h
    exact ⟨w, hw, h.mapErr_error.bind_error⟩
  | .ready (.ok a) =>
    rw [Polled.andThen_ok hx]
    simp only [hx] at h
    have ⟨v, hv, h⟩ := h
    have h := h.mapErr (g := g)
    exact .after hw (h.bind_after ▸ hk a x.state x.buf v hv)

theorem andThen_id {put : S → S'} {k : α → S → B → Polled S' B (Except ε γ')}
    {R' : S' → Parser ε β → Prop} {Post' : γ' → S' → β → Prop} {f : γ → Parser ε β}
    (h : Follows Wait Stop R Post p b x) (hput : ∀ s q, R s q → R' (put s) (q.bind f))
    (hk : ∀ a s b' v, Post a s v → Follows Wait Stop R' Post' (f v) b' (k a s b')) :
    Follows Wait Stop R' Post' (p.bind f) b (x.andThen put id k) := by
  rw [← Parser.mapErr_id p]
  exact h.andThen (by simpa using hput) hk

theorem finish {put : S → S'} {k : α → S → B → Polled S' B (Except ε γ')}
    {R' : S' → Parser ε γ → Prop} {Post' : γ' → S' → γ → Prop} (h : Follows Wait Stop R Post p b x)
    (hput : ∀ s q, R s q → R' (put s) q)
    (hk : ∀ a s b' v, Post a s v → Follows Wait Stop R' Post' (.pure v) b' (k a s b')) :
    Follows Wait Stop R' Post' p b (x.andThen put id k) := by
  rw [← Parser.bind_pure p]
  exact h.andThen_id (by simpa using hput) hk

theorem ne_pending (h : Follows False Stop R Post p b x) : x.outcome ≠ .pending := by
  intro hx
  have ⟨w, _, h⟩ := h
  rw [hx] at h
  exact h.1

theorem exists_halts (h : Follows False Stop R Post p b x) (ho : x.outcome ≠ .insufficient) :
    ∃ w e, Consumes b w x.buf ∧ p.Halts w e := by
  have ⟨w, hw, h⟩ := h
  cases hx : x.outcome <;> simp only [hx] at h
  case pending      => exact h.1.elim
  case insufficient => exact absurd hx ho
  case panicked m   => exact ⟨w, _, hw, h⟩
  case ready res    =>
    cases res
    case error e => exact ⟨w, _, hw, h⟩
    case ok a    =>
      have ⟨_, _, h⟩ := h
      exact ⟨w, _, hw, h⟩

theorem more_of_append (h : Follows False Stop R Post p b x) {t : List Bool}
    (hm : p (unread b ++ t) = .more) : x.outcome = .insufficient := by
  by_contra ho
  have ⟨w, e, hw, hh⟩ := h.exists_halts ho
  rw [hw.unread_eq, List.append_assoc, hh] at hm
  cases hm

theorem insufficient_iff (h : Follows False Stop R Post p b x) :
    x.outcome = .insufficient ↔ p (unread b) = .more := by
  constructor
  case mp =>
    intro ho
    have ⟨_, _, h⟩ := h
    rw [ho] at h
    exact h.2.1
  case mpr =>
    intro hm
    rw [← List.append_nil (unread b)] at hm
    exact h.more_of_append hm

theorem ends {x : Polled S B (Except ε γ)} {u : List Bool} {e : Ending ε γ}
    (h : Follows Wait Stop R Returns p b x) (hp : p.Halts u e) (hb : u <+: unread b)
    (hx : x.outcome ≠ .pending) : x.outcome = e.outcome ∧ Consumes b u x.buf := by
  have ⟨w, hw, h⟩ := h
  have ⟨rest, hb⟩ := hb
  have hv : p (unread b) = .halt e rest := hb ▸ hp rest
  -- The bits `w` that the poll has taken are those that the parser ends after.
  have halt {d : Ending ε γ} (hd : p.Halts w d) : d.outcome = e.outcome ∧ Consumes b u x.buf := by
    have hu := hw.unread_eq
    rw [hu, hd] at hv
    injection hv with he hr
    rw [← hr, hu] at hb
    exact ⟨congrArg _ he, List.append_cancel_right hb ▸ hw⟩
  match ho : x.outcome with
  | .pending          => exact absurd ho hx
  | .insufficient     => simp only [ho, hv, reduceCtorEq, false_and, and_false] at h
  | .ready (.error e) => exact halt (by simpa only [ho] using h)
  | .panicked m       => exact halt (by simpa only [ho] using h)
  | .ready (.ok a)    =>
    simp only [ho] at h
    obtain ⟨_, rfl, h⟩ := h
    exact halt h

theorem starved {u t : List Bool} {e : Ending ε γ} (h : Follows Wait Stop R Post p b x)
    (hp : p.Halts u e) (hb : unread b ++ t = u) (ht : t ≠ []) : x.outcome.Unfinished := by
  have ⟨w, hw, h⟩ := h
  have halt {d : Ending ε γ} (hd : p.Halts w d) : False := by
    rw [hw.unread_eq, List.append_assoc] at hb
    have ⟨_, hn⟩ := hd.unique hp hb
    exact ht (List.append_eq_nil_iff.mp hn).2
  match ho : x.outcome with
  | .pending          => exact .inl rfl
  | .insufficient     => exact .inr rfl
  | .ready (.error e) => exact (halt (by simpa only [ho] using h)).elim
  | .panicked m       => exact (halt (by simpa only [ho] using h)).elim
  | .ready (.ok a)    =>
    simp only [ho] at h
    have ⟨_, _, h⟩ := h
    exact (halt h).elim

end Follows

def IsDecoding (Wait : Prop) (Stop : B → Prop) (poll : C → S → B → Polled S B (Except ε α))
    (R : S → Parser ε α → Prop) : Prop :=
  ∀ c s p b, R s p → Follows Wait Stop R Returns p b (poll c s b)

-- The computation in state `s` decodes what the parser `p` does, however it is polled.
def Decodes (Wait : Prop) (Stop : B → Prop) (poll : C → S → B → Polled S B (Except ε α)) (s : S)
    (p : Parser ε α) : Prop :=
  ∃ R, IsDecoding Wait Stop poll R ∧ R s p

namespace Decodes

variable {poll : C → S → B → Polled S B (Except ε α)} {s : S} {p : Parser ε α}

theorem follows (h : Decodes Wait Stop poll s p) (c : C) (b : B) :
    Follows Wait Stop (Decodes Wait Stop poll) Returns p b (poll c s b) := by
  have ⟨R, hr, h⟩ := h
  exact (hr c s p b h).mono id (fun _ => id) fun _ _ h => ⟨R, hr, h⟩

theorem mono {Wait₁ : Prop} {Stop₁ : B → Prop} (h : Decodes Wait Stop poll s p) (hw : Wait → Wait₁)
    (hs : ∀ b, Stop b → Stop₁ b) : Decodes Wait₁ Stop₁ poll s p := by
  have ⟨R, hr, h⟩ := h
  exact ⟨R, fun c s p b h => (hr c s p b h).mono hw hs fun _ _ => id, h⟩

theorem pollAgain (h : Decodes Wait Stop poll s p) (cs : List C) (b : B) :
    Follows True Stop (Decodes Wait Stop poll) Returns p b (pollAgain poll cs s b) := by
  induction cs generalizing s p b
  case nil => exact ⟨[], .refl b, trivial, h⟩
  case cons c cs hi =>
    have hf := h.follows c b
    unfold Stream.pollAgain
    split
    case h_1 hx =>
      have ⟨w, hw, h⟩ := hf
      rw [hx] at h
      exact .after hw (hi h.2 _)
    case h_2 => exact hf.mono (fun _ => trivial) (fun _ => id) fun _ _ => id

theorem ends (h : Decodes False Stop poll s p) (c : C) {u : List Bool} {e : Ending ε α}
    (hp : p.Halts u e) (hb : u <+: unread b) :
    (poll c s b).outcome = e.outcome ∧ Consumes b u (poll c s b).buf :=
  (h.follows c b).ends hp hb (h.follows c b).ne_pending

end Decodes

def Parser.Agrees (p : Parser ε α) (u : List Bool) : Outcome (Except ε α) × Nat → Prop
  | (.pending, _)      => True
  | (.insufficient, n) => p u = .more ∧ n = u.length
  | (.ready r, n)      => n ≤ u.length ∧ p.Halts (u.take n) (.finished r)
  | (.panicked m, n)   => n ≤ u.length ∧ p.Halts (u.take n) (.panicked m)

theorem Parser.Agrees.unique {p : Parser ε α} {u : List Bool} {x y : Outcome (Except ε α) × Nat}
    (hx : p.Agrees u x) (hy : p.Agrees u y) (hpx : x.1 ≠ .pending) (hpy : y.1 ≠ .pending) :
    x = y := by
  -- An ending reached on a prefix of `u` is reached on `u`, which settles both runs.
  have halt : ∀ {n e}, p.Halts (u.take n) e → p u = .halt e (u.drop n) := by
    intro n e h
    simpa using h (u.drop n)
  have len : ∀ {n m : Nat}, n ≤ u.length → m ≤ u.length → u.drop n = u.drop m → n = m := by
    intro n m hn hm h
    have := congrArg List.length h
    simp only [List.length_drop] at this
    omega
  match x, y with
  | (.pending, _), _ | _, (.pending, _) => simp at hpx hpy
  | (.insufficient, n), (.insufficient, m) => rw [hx.2, hy.2]
  | (.insufficient, n), (.ready r, m) | (.insufficient, n), (.panicked r, m) =>
    exact nomatch hx.1.symm.trans (halt hy.2)
  | (.ready r, n), (.insufficient, m) | (.panicked r, n), (.insufficient, m) =>
    exact nomatch hy.1.symm.trans (halt hx.2)
  | (.ready r, n), (.ready r', m) | (.panicked r, n), (.panicked r', m) =>
    injection (halt hx.2).symm.trans (halt hy.2) with h₁ h₂
    cases h₁
    rw [len hx.1 hy.1 h₂]
  | (.ready r, n), (.panicked r', m) | (.panicked r, n), (.ready r', m) =>
    injection (halt hx.2).symm.trans (halt hy.2) with h₁ h₂
    cases h₁

theorem Follows.agrees {poll : C → S → B → Polled S B (Except ε α)} {p : Parser ε α} {Wait₁ : Prop}
    {x : Polled S B (Except ε α)}
    (h : Follows Wait₁ Drained (Decodes Wait Drained poll) Returns p b x) :
    p.Agrees (unread b) (x.outcome, taken x.buf - taken b) := by
  have ⟨w, hw, h⟩ := h
  have hn : taken x.buf - taken b = w.length := by simp [hw.taken_eq]
  have ht : (unread b).take w.length = w := by simp [hw.unread_eq]
  rw [hn]
  cases hx : x.outcome <;> simp only [hx] at h
  case pending      => trivial
  case insufficient => exact ⟨h.2.1, by simp [hw.unread_eq, show unread x.buf = [] from h.1]⟩
  case panicked m   => exact ⟨hw.length_le, ht.symm ▸ h⟩
  case ready r =>
    cases r
    case error e => exact ⟨hw.length_le, ht.symm ▸ h⟩
    case ok a =>
      have ⟨v, hv, h⟩ := h
      cases hv
      exact ⟨hw.length_le, ht.symm ▸ h⟩

-- A run over separate buffers, the next one presented when the poll before it was starved.
-- Returns the last outcome and the number of bits taken from all the buffers.
def pollChunks (poll : C → S → B → Polled S B (Except ε α)) (s : S) (chunk : List C × B) :
    List (List C × B) → Outcome (Except ε α) × Nat
  | [] =>
    let x := Stream.pollAgain poll chunk.1 s chunk.2
    (x.outcome, taken x.buf - taken chunk.2)
  | next :: rest =>
    let x := Stream.pollAgain poll chunk.1 s chunk.2
    match x.outcome with
    | .insufficient =>
      let run := pollChunks poll x.state next rest
      (run.1, taken x.buf - taken chunk.2 + run.2)
    | outcome => (outcome, taken x.buf - taken chunk.2)

def chunkBits (chunks : List (List C × B)) : List Bool :=
  chunks.flatMap fun chunk => unread chunk.2

theorem Parser.Agrees.append {p : Parser ε α} {u t : List Bool} {x : Outcome (Except ε α) × Nat}
    (h : p.Agrees u x) (hx : x.1 ≠ .insufficient) : p.Agrees (u ++ t) x := by
  match x with
  | (.pending, _)      => trivial
  | (.insufficient, _) => simp at hx
  | (.ready r, n) | (.panicked m, n) =>
    refine ⟨by simp only [List.length_append]; have := h.1; omega, ?_⟩
    rw [List.take_append_of_le_length h.1]
    exact h.2

theorem Parser.Agrees.after {p : Parser ε α} {u t : List Bool} {o : Outcome (Except ε α)} {n : Nat}
    (h : (p.after u).Agrees t (o, n)) : p.Agrees (u ++ t) (o, u.length + n) := by
  match o with
  | .pending      => trivial
  | .insufficient => exact ⟨h.1, by simp [h.2]⟩
  | .ready r | .panicked m =>
    refine ⟨by simpa using h.1, ?_⟩
    rw [List.take_length_add_append]
    exact Parser.Halts.after.mp h.2

-- However the bits are cut into buffers, and wherever polls are pending in between, a run that
-- does not end pending ends as the parser does on all the bits.
theorem Decodes.pollChunks_agrees {poll : C → S → B → Polled S B (Except ε α)} {s : S}
    {p : Parser ε α} (h : Decodes Wait Drained poll s p) (chunk : List C × B)
    (rest : List (List C × B)) :
    p.Agrees (chunkBits (chunk :: rest)) (pollChunks poll s chunk rest) := by
  induction rest generalizing s p chunk
  case nil =>
    have hf := (h.pollAgain chunk.1 chunk.2).agrees
    simpa [chunkBits, pollChunks] using hf
  case cons next rest hi =>
    have hf := h.pollAgain chunk.1 chunk.2
    have ha := hf.agrees
    have hb : chunkBits (chunk :: next :: rest) = unread chunk.2 ++ chunkBits (next :: rest) := by
      simp [chunkBits]
    unfold pollChunks
    rw [hb]
    cases hx : (Stream.pollAgain poll chunk.1 s chunk.2).outcome
    case insufficient =>
      have ⟨w, hw, h⟩ := hf
      rw [hx] at h
      have hd : unread chunk.2 = w := by
        simpa [show unread (Stream.pollAgain poll chunk.1 s chunk.2).buf = [] from h.1]
          using hw.unread_eq
      have := (hi h.2.2 next).after
      simpa [hx, hd, hw.taken_eq] using this
    all_goals
      have := ha.append (t := chunkBits (next :: rest)) (by simp [hx])
      simpa [hx] using this

theorem Parser.Halts.agrees {p : Parser ε α} {u bs : List Bool} {e : Ending ε α} (h : p.Halts u e)
    (hb : u <+: bs) : p.Agrees bs (e.outcome, u.length) := by
  have ht : bs.take u.length = u := (List.prefix_iff_eq_take.mp hb).symm
  cases e
  case finished r => exact ⟨hb.length_le, ht.symm ▸ h⟩
  case panicked m => exact ⟨hb.length_le, ht.symm ▸ h⟩

theorem Ending.outcome_ne_pending (e : Ending ε α) : e.outcome ≠ .pending := by
  cases e <;> nofun

namespace Decodes

variable {poll : C → S → B → Polled S B (Except ε α)} {s : S} {p : Parser ε α}

theorem pollAgain_ne_pending (h : Decodes False Stop poll s p) {cs : List C} (hc : cs ≠ []) (b : B) :
    (Stream.pollAgain poll cs s b).outcome ≠ .pending := by
  cases cs
  case nil       => exact absurd rfl hc
  case cons c cs =>
    have hp := (h.follows c b).ne_pending
    unfold Stream.pollAgain
    split
    case h_1 hx => exact absurd hx hp
    case h_2    => exact hp

theorem pollChunks_ne_pending (h : Decodes False Drained poll s p) {chunk : List C × B}
    {rest : List (List C × B)} (hc : ∀ c ∈ chunk :: rest, c.1 ≠ []) :
    (pollChunks poll s chunk rest).1 ≠ .pending := by
  induction rest generalizing s p chunk
  case nil               => exact h.pollAgain_ne_pending (hc chunk (.head _)) chunk.2
  case cons next rest hi =>
    have hp := h.pollAgain_ne_pending (hc chunk (.head _)) chunk.2
    have ⟨w, _, hf⟩ := h.pollAgain chunk.1 chunk.2
    cases hx : (Stream.pollAgain poll chunk.1 s chunk.2).outcome
    case insufficient =>
      rw [hx] at hf
      simpa only [pollChunks, hx] using hi hf.2.2 fun c hm => hc c (.tail _ hm)
    all_goals simpa only [pollChunks, hx] using hp

theorem pollChunks_ends (h : Decodes False Drained poll s p) {u : List Bool} {e : Ending ε α}
    (hp : p.Halts u e) {chunk : List C × B} {rest : List (List C × B)}
    (hc : ∀ c ∈ chunk :: rest, c.1 ≠ []) (hb : u <+: chunkBits (chunk :: rest)) :
    pollChunks poll s chunk rest = (e.outcome, u.length) :=
  (h.pollChunks_agrees chunk rest).unique (hp.agrees hb) (h.pollChunks_ne_pending hc)
    e.outcome_ne_pending

end Decodes
end
end Stream
