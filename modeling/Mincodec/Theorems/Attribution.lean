import Mincodec.Derive
import Mincodec.Allocated
import Mincodec.Tuple
import Mincodec.Result
import Mincodec.Slice
import Mincodec.Stream.Ends

-- Which component an error of a composite deserializer comes from.
namespace Mincodec

open Stream BitSource

variable {Ctx B T U : Type} {r : MinCodecRead Ctx B T} {r' : MinCodecRead Ctx B U}
variable {run rest : List (Ctx × B)}

def MinCodecRead.Ends (r : MinCodecRead Ctx B T) (run : List (Ctx × B)) (a : Except r.Error T)
    (rest : List (Ctx × B)) : Prop :=
  Stream.Ends r.pollDeserialize r.deserialize run a rest

section

variable {n : Nat} {T : Fin n → Type}

-- The first `k` components decode one after another, each on what the one before it leaves of the run.
inductive Passes (rs : (i : Fin n) → MinCodecRead Ctx B (T i)) (run : List (Ctx × B)) :
    Nat → List (Ctx × B) → Prop
  | nil : Passes rs run 0 run
  | cons {k : Nat} {h : k < n} {v : T ⟨k, h⟩} {run' rest : List (Ctx × B)} :
    Passes rs run k run' → (rs ⟨k, h⟩).Ends run' (.ok v) rest → Passes rs run (k + 1) rest

def FailsAt (rs : (i : Fin n) → MinCodecRead Ctx B (T i)) (run : List (Ctx × B))
    (e : FieldError fun i => (rs i).Error) (rest : List (Ctx × B)) : Prop :=
  ∃ run', Passes rs run e.field run' ∧ (rs e.field).Ends run' (.error e.error) rest

end

namespace OptionDeserialize

theorem ends_new {a : Except r.Error Unit} (h : Ends pollDeserialize (new r) run a rest) :
    (∃ e, a = .error e ∧ r.Ends run (.error e) rest) ∨ ∃ v, a = .ok () ∧ r.Ends run (.ok v) rest := by
  have hp (c : Ctx) (deser : r.Deserialize) (b : B) : pollDeserialize c (.deserialize deser) b =
      (r.pollDeserialize c deser b).andThen .deserialize id fun item _ b =>
        ⟨.ready (.ok ()), .done item, b⟩ := rfl
  cases Ends.andThen hp h
  case inl he => exact .inl he
  case inr hv =>
    obtain ⟨v, c, s, b, run', hv, hk⟩ := hv
    obtain ⟨rfl, rfl⟩ := hk.eq_rest rfl
    exact .inr ⟨v, rfl, hv⟩

end OptionDeserialize

namespace Slots

variable {n : Nat} {T : Fin n → Type} {rs : (i : Fin n) → MinCodecRead Ctx B (T i)}

def polls (rs : (i : Fin n) → MinCodecRead Ctx B (T i)) (limit : Nat) (ctx : Ctx)
    (s : Nat × Slots rs) (b : B) :
    Polled (Nat × Slots rs) B (Except (FieldError fun i => (rs i).Error) Unit) :=
  s.2.poll limit ctx s.1 b

theorem polls_update {limit idx : Nat} (h : idx < n) (slots : Slots rs) (ctx : Ctx)
    (slot : OptionDeserialize (rs ⟨idx, h⟩)) (b : B) :
    polls rs limit ctx (idx, Function.update slots ⟨idx, h⟩ slot) b =
      (OptionDeserialize.pollDeserialize ctx slot b).andThen
        (fun slot => (idx, Function.update slots ⟨idx, h⟩ slot)) (⟨⟨idx, h⟩, ·⟩) fun _ slot b =>
          if idx + 1 < limit then
            polls rs limit ctx (idx + 1, Function.update slots ⟨idx, h⟩ slot) b
          else
            ⟨.panicked addOverflow, (idx, Function.update slots ⟨idx, h⟩ slot), b⟩ := by
  simp only [polls]
  rw [poll, dif_pos h]
  simp only [Function.update_self, Function.update_idem]

theorem lt_of_ends {limit : Nat} {s : Nat × Slots rs} {e : FieldError fun i => (rs i).Error}
    (h : Ends (polls rs limit) s run (.error e) rest) : s.1 < n := by
  by_contra hi
  have ready (c : Ctx) (b : B) : (polls rs limit c s b).outcome = .ready (.ok ()) := by
    unfold polls
    rw [poll, dif_neg hi]
  cases h.eq_of_ready ready

theorem polls_ends {limit idx : Nat} {slots : Slots rs} {run' : List (Ctx × B)}
    {e : FieldError fun i => (rs i).Error} (hs : ∀ i, idx ≤ i.val → slots i = .new (rs i))
    (hp : Passes rs run idx run') (h : Ends (polls rs limit) (idx, slots) run' (.error e) rest) :
    FailsAt rs run e rest := by
  have hi := lt_of_ends h
  simp only at hi
  obtain ⟨k, hk⟩ : ∃ k, n ≤ idx + k := ⟨n, by omega⟩
  induction k generalizing idx slots run'
  case zero => omega
  case succ k ih =>
    have hu : (idx, slots) = (idx, Function.update slots ⟨idx, hi⟩ (.new (rs ⟨idx, hi⟩))) := by
      rw [← hs _ (le_refl _), Function.update_eq_self]
    rw [hu] at h
    cases Ends.andThen (polls_update hi slots) h
    case inl he =>
      obtain ⟨_, h', he⟩ := he
      cases h'
      cases OptionDeserialize.ends_new he
      case inl he =>
        obtain ⟨_, h', he⟩ := he
        cases h'
        exact ⟨run', hp, he⟩
      case inr hv => simp at hv
    case inr hv =>
      obtain ⟨_, c, slot, b, later, hv, hk⟩ := hv
      split at hk
      case isFalse => exact absurd hk (Polled.not_ends_panicked rfl)
      case isTrue  =>
        cases OptionDeserialize.ends_new hv
        case inl he => simp at he
        case inr hv =>
          obtain ⟨v, _, hv⟩ := hv
          have h' := Ends.of_polled hk
          refine ih (fun i hi' => ?_) (hp.cons hv) h' (lt_of_ends h') (by omega)
          rw [Function.update_of_ne (Fin.ne_of_val_ne (by simp only; omega)), hs i (by omega)]

end Slots

section

variable {n : Nat} {T : Fin n → Type} {rs : (i : Fin n) → MinCodecRead Ctx B (T i)}

theorem TupleDeserialize.ends_error {e : FieldError fun i => (rs i).Error}
    (h : (tupleRead rs).Ends run (.error e) rest) : FailsAt rs run e rest := by
  have hp (c : Ctx) (s : Nat × Slots rs) (b : B) : TupleDeserialize.pollDeserialize c ⟨s.1, s.2⟩ b =
      (Slots.polls rs 256 c s b).andThen (fun s => TupleDeserialize.mk s.1 s.2) id _ := rfl
  cases Ends.andThen hp (s := (0, Slots.new rs)) h
  case inl he =>
    obtain ⟨_, h', he⟩ := he
    cases h'
    exact Slots.polls_ends (fun _ _ => rfl) .nil he
  case inr hv =>
    obtain ⟨_, c, s, b, later, _, hk⟩ := hv
    split at hk
    case isFalse => exact absurd hk (Polled.not_ends_panicked rfl)
    case isTrue  =>
      split at hk
      case h_2 => exact absurd hk (Polled.not_ends_panicked rfl)
      case h_1 => cases (hk.eq_rest rfl).1

end

namespace ResultDeserialize

variable [BitBuf B]

def pollPredicate (_ : Ctx) (_ : Unit) (b : B) : Polled Unit B (Except Empty Bool) :=
  BitBuf.pollBool b

inductive Fails (r : MinCodecRead Ctx B T) (r' : MinCodecRead Ctx B U) (run rest : List (Ctx × B)) :
    ResultError r.Error r'.Error → Prop
  | ok {run' : List (Ctx × B)} {e : r.Error} : Ends pollPredicate () run (.ok true) run' →
    r.Ends run' (.error e) rest → Fails r r' run rest (.ok e)
  | err {run' : List (Ctx × B)} {e : r'.Error} : Ends pollPredicate () run (.ok false) run' →
    r'.Ends run' (.error e) rest → Fails r r' run rest (.err e)

variable {deserU : r'.Deserialize} {deserT : r.Deserialize} {e : ResultError r.Error r'.Error}

theorem ends_readingT (h : Ends (pollDeserialize (r := r)) ⟨deserU, deserT, .readingT⟩ run (.error e) rest) :
    ∃ e', e = .ok e' ∧ Ends r.pollDeserialize deserT run (.error e') rest := by
  have hp (c : Ctx) (deser : r.Deserialize) (b : B) :
      pollDeserialize c (⟨deserU, deser, .readingT⟩ : ResultDeserialize r r') b =
        (r.pollDeserialize c deser b).andThen (fun deser => ⟨deserU, deser, .readingT⟩) .ok
          fun item deser b => ⟨.ready (.ok (.ok item)), ⟨deserU, deser, .complete⟩, b⟩ := rfl
  cases Ends.andThen hp h
  case inl he =>
    obtain ⟨e', h', he⟩ := he
    cases h'
    exact ⟨e', rfl, he⟩
  case inr hv =>
    obtain ⟨_, _, _, _, _, _, hk⟩ := hv
    cases (hk.eq_rest rfl).1

theorem ends_readingU (h : Ends (pollDeserialize (r := r)) ⟨deserU, deserT, .readingU⟩ run (.error e) rest) :
    ∃ e', e = .err e' ∧ Ends r'.pollDeserialize deserU run (.error e') rest := by
  have hp (c : Ctx) (deser : r'.Deserialize) (b : B) :
      pollDeserialize c (⟨deser, deserT, .readingU⟩ : ResultDeserialize r r') b =
        (r'.pollDeserialize c deser b).andThen (fun deser => ⟨deser, deserT, .readingU⟩) .err
          fun item deser b => ⟨.ready (.ok (.error item)), ⟨deser, deserT, .complete⟩, b⟩ := rfl
  cases Ends.andThen hp h
  case inl he =>
    obtain ⟨e', h', he⟩ := he
    cases h'
    exact ⟨e', rfl, he⟩
  case inr hv =>
    obtain ⟨_, _, _, _, _, _, hk⟩ := hv
    cases (hk.eq_rest rfl).1

theorem ends_error (h : (resultRead r r').Ends run (.error e) rest) : Fails r r' run rest e := by
  let new : ResultDeserialize r r' := ⟨r'.deserialize, r.deserialize, .predicate⟩
  have hp (c : Ctx) (s : Unit) (b : B) : pollDeserialize c new b =
      (pollPredicate c s b).andThen (fun _ => new) Empty.elim fun isT _ b =>
        if isT then
          pollDeserialize c { new with state := .readingT } b
        else
          pollDeserialize c { new with state := .readingU } b := rfl
  cases Ends.andThen hp (s := ()) h
  case inl he =>
    obtain ⟨e, _⟩ := he
    exact e.elim
  case inr hv =>
    obtain ⟨isT, c, _, b, later, hv, hk⟩ := hv
    cases isT
    case true =>
      obtain ⟨e, rfl, he⟩ := ends_readingT (.of_polled hk)
      exact .ok hv he
    case false =>
      obtain ⟨e, rfl, he⟩ := ends_readingU (.of_polled hk)
      exact .err hv he

end ResultDeserialize

namespace VecDeserialize

variable [BitBuf B] {size : Nat}

def pollLen (_ : Ctx) (vlq : BitBuf.AsyncReadVlq B) (b : B) :
    Polled (BitBuf.AsyncReadVlq B) B (Except Empty UInt64) :=
  BitBuf.pollVlq vlq b

def Fails (r : MinCodecRead Ctx B T) (run : List (Ctx × B)) (e : r.Error) (rest : List (Ctx × B)) : Prop :=
  ∃ (len : UInt64) (run' : List (Ctx × B)) (k : Fin len.toNat),
    Ends pollLen BitBuf.asyncRead run (.ok len) run' ∧
    FailsAt (fun _ : Fin len.toNat => r) run' ⟨k, e⟩ rest

theorem pollDeserialize_reading (this : VecDeserialize r size) (hr : this.state = .reading) (ctx : Ctx)
    (b : B) : this.pollDeserialize ctx b = this.pollReading ctx hr b := by
  cases this
  cases hr
  rfl

theorem fresh_push {this : VecDeserialize r size} (hr : this.state = .reading) (item : T)
    (h : this.state = .vlq) : this.data ++ [item] = [] := by
  simp [hr] at h

theorem length_push {this : VecDeserialize r size} (h : this.data.length < this.len.toNat) (item : T) :
    (this.data ++ [item]).length ≤ this.len.toNat := by
  rw [List.length_append]
  exact h

def push (this : VecDeserialize r size) (hr : this.state = .reading)
    (h : this.data.length < this.len.toNat) (item : T) : VecDeserialize r size :=
  { this with
    data  := this.data ++ [item]
    deser := r.deserialize
    fits  := length_push h item
    fresh := fresh_push hr item }

theorem pollDeserialize_item {this : VecDeserialize r size} (hr : this.state = .reading)
    (h : this.data.length < this.len.toNat) (ctx : Ctx) (deser : r.Deserialize) (b : B) :
    pollDeserialize ctx { this with deser } b =
      (r.pollDeserialize ctx deser b).andThen (fun deser => { this with deser }) .item
        fun item _ b => pollDeserialize ctx (this.push hr h item) b := by
  rw [pollDeserialize_reading { this with deser } hr, pollReading, dif_neg h.ne]
  congr 1
  funext item _ b
  exact (pollDeserialize_reading (this.push hr h item) hr ctx b).symm

theorem lt_of_ends {this : VecDeserialize r size} {e : VecReadError r.Error}
    (hr : this.state = .reading) (h : Ends pollDeserialize this run (.error e) rest) :
    this.data.length < this.len.toNat := by
  by_contra hl
  have hd : this.data.length = this.len.toNat := by
    have := this.fits
    omega
  have ready (c : Ctx) (b : B) : (pollDeserialize c this b).outcome =
      .ready (.ok ⟨this.data, hd ▸ this.len.toNat_lt, hd ▸ this.holds⟩) := by
    rw [pollDeserialize_reading this hr, pollReading, dif_pos hd]
  cases h.eq_of_ready ready

theorem ends_reading {this : VecDeserialize r size} {run' : List (Ctx × B)} {e : r.Error}
    (hr : this.state = .reading) (hd : this.deser = r.deserialize)
    (hp : Passes (fun _ : Fin this.len.toNat => r) run this.data.length run')
    (h : Ends pollDeserialize this run' (.error (.item e)) rest) :
    ∃ k : Fin this.len.toNat, FailsAt (fun _ : Fin this.len.toNat => r) run ⟨k, e⟩ rest := by
  obtain ⟨k, hk⟩ : ∃ k, this.len.toNat ≤ this.data.length + k := ⟨this.len.toNat, by omega⟩
  induction k generalizing this run'
  all_goals have hl := lt_of_ends hr h
  case zero => omega
  case succ k hi =>
    have hu : this = { this with deser := r.deserialize } := by rw [← hd]
    rw [hu] at h
    cases Ends.andThen (pollDeserialize_item hr hl) h
    case inl he =>
      obtain ⟨_, h', he⟩ := he
      cases h'
      exact ⟨⟨this.data.length, hl⟩, run', hp, he⟩
    case inr hv =>
      obtain ⟨v, c, _, b, later, hv, hk'⟩ := hv
      have h' := Ends.of_polled hk'
      have hl' : (this.push hr hl v).data.length = this.data.length + 1 := List.length_append
      have hp' : Passes (fun _ : Fin this.len.toNat => r) run (this.push hr hl v).data.length
          ((c, b) :: later) := by
        rw [hl']
        exact hp.cons (h := hl) hv
      exact @hi (this.push hr hl v) _ hr rfl hp' h' (by rw [hl']; simp only [push]; omega)

def start (r : MinCodecRead Ctx B T) (size : Nat) (vlq : BitBuf.AsyncReadVlq B) :
    VecDeserialize r size :=
  { new r size with vlq }

def sized (r : MinCodecRead Ctx B T) (vlq : BitBuf.AsyncReadVlq B) {len : UInt64}
    (h : len.toNat * size ≤ isizeMax) : VecDeserialize r size where
  state := .reading
  vlq
  len
  deser := r.deserialize
  data  := []
  fits  := Nat.zero_le _
  holds := h
  fresh := fun _ => rfl

theorem pollDeserialize_start (vlq : BitBuf.AsyncReadVlq B) (ctx : Ctx) (b : B) :
    pollDeserialize ctx (start r size vlq) b =
      (pollLen ctx vlq b).andThen (start r size) Empty.elim fun len vlq b =>
        if h : len.toNat * size ≤ isizeMax then
          pollDeserialize ctx (sized r vlq h) b
        else
          ⟨.panicked capacityOverflow, start r size vlq, b⟩ := by
  unfold start new pollDeserialize
  apply Polled.andThen_congr
  intro len _
  by_cases hl : len.toNat * size ≤ isizeMax
  case pos => simp only [usizeTryFrom, UInt64.ofBitVec_toBitVec, hl, dite_true, sized]
  case neg => simp only [usizeTryFrom, UInt64.ofBitVec_toBitVec, hl, dite_false]

theorem ends_error {e : r.Error} (h : (vecRead r size).Ends run (.error (.item e)) rest) :
    Fails r run e rest := by
  cases Ends.andThen (s := BitBuf.asyncRead) (fun c vlq b => pollDeserialize_start vlq c b) h
  case inl he =>
    obtain ⟨e, _⟩ := he
    exact e.elim
  case inr hv =>
    obtain ⟨len, c, vlq, b, later, hv, hk⟩ := hv
    split at hk
    case isFalse => exact absurd hk (Polled.not_ends_panicked rfl)
    case isTrue hl =>
      obtain ⟨k, hf⟩ := ends_reading rfl rfl .nil (.of_polled hk)
      exact ⟨len, _, k, hv, hf⟩

end VecDeserialize

namespace DeriveDeserialize

variable [BitBuf B] {S : Shape} {rs : S.Reads Ctx B}

def pollDeterminant (_ : Ctx) (d : BitBuf.CappedFill B) (b : B) :
    Polled (BitBuf.CappedFill B) B (Except Empty (List UInt8)) :=
  BitBuf.pollCappedFill d b

-- The determinant is read, if there is one, and it is that of the variant `i`.
inductive Selects (S : Shape) (i : Fin S.variants) (run : List (Ctx × B)) : List (Ctx × B) → Prop
  | single : ¬1 < S.variants → Selects S i run run
  | determinant {d : BitBuf.CappedFill B} {bytes : List UInt8} {run' : List (Ctx × B)} :
    1 < S.variants → BitBuf.newCappedFill (List.replicate S.bytes 0) S.bits = some d →
    Ends pollDeterminant d run (.ok bytes) run' → Bits.ofLe (bytes.map Bits.reverseBits) = i.val →
    Selects S i run run'

theorem ends_variant {i : Fin S.variants} {e : DeriveError fun i j => (rs i j).Error}
    (h : Ends pollDeserialize (.variant i 0 (.new (rs i))) run (.error e) rest) :
    ∃ e', e = ⟨i, e'⟩ ∧ FailsAt (rs i) run e' rest := by
  have hv (c : Ctx) (s : Nat × Slots (rs i)) (b : B) : pollVariant c i s.1 s.2 b =
      (Slots.polls (rs i) (indexLimit (S.arity i)) c s b).andThen
        (fun s => (.variant i s.1 s.2 : DeriveDeserialize rs)) (⟨i, ·⟩) _ := rfl
  have hp (c : Ctx) (s : Nat × Slots (rs i)) (b : B) :
      pollDeserialize c (.variant i s.1 s.2 : DeriveDeserialize rs) b =
        (Slots.polls (rs i) (indexLimit (S.arity i)) c s b).andThen
          (fun s => .variant i s.1 s.2) (⟨i, ·⟩) _ := hv c s b
  cases Ends.andThen hp (s := (0, Slots.new (rs i))) h
  case inl he =>
    obtain ⟨e', h', he⟩ := he
    cases h'
    exact ⟨e', rfl, Slots.polls_ends (fun _ _ => rfl) .nil he⟩
  case inr hv =>
    obtain ⟨_, c, s, b, later, _, hk⟩ := hv
    split at hk
    case h_2 => exact absurd hk (Polled.not_ends_panicked rfl)
    case h_1 => cases (hk.eq_rest rfl).1

theorem ends_error {hv : 0 < S.variants} {e : DeriveError fun i j => (rs i j).Error}
    (h : (deriveRead rs hv).Ends run (.error e) rest) :
    ∃ run', Selects S e.variant run run' ∧ FailsAt (rs e.variant) run' e.error rest := by
  change Ends pollDeserialize (new rs hv) run (.error e) rest at h
  unfold new at h
  split at h
  case isFalse h₁ =>
    obtain ⟨e, rfl, he⟩ := ends_variant h
    exact ⟨run, .single h₁, he⟩
  case isTrue h₁ =>
    cases hd : BitBuf.newCappedFill (B := B) (List.replicate S.bytes 0) S.bits
    case none =>
      rw [hd] at h
      cases h
      case ready h        => simp [pollDeserialize] at h
      case unfinished h _ => simp [pollDeserialize] at h
    case some d =>
      rw [hd] at h
      have hp (c : Ctx) (d : BitBuf.CappedFill B) (b : B) :
          pollDeserialize c (.determinant (some d) : DeriveDeserialize rs) b =
            (pollDeterminant c d b).andThen (fun d => .determinant (some d)) Empty.elim
              fun bytes _ b => pollChosen c (Bits.ofLe (bytes.map Bits.reverseBits)) b := rfl
      cases Ends.andThen hp h
      case inl he =>
        obtain ⟨e, _⟩ := he
        exact e.elim
      case inr hv =>
        obtain ⟨bytes, c, _, b, later, hb, hk⟩ := hv
        unfold pollChosen at hk
        split at hk
        case isFalse => exact absurd hk (Polled.not_ends_panicked rfl)
        case isTrue hi =>
          obtain ⟨e, rfl, he⟩ := ends_variant (.of_polled hk)
          exact ⟨_, .determinant h₁ hd hb rfl, he⟩

end DeriveDeserialize

-- An error of a component: the components before it decode, the error names the component and holds
-- what its deserializer alone returns on what the one before it leaves of the run, and the rest of the
-- run is what that deserializer leaves.
theorem errors_attributed [BitBuf B] :
    (∀ {n : Nat} {T : Fin n → Type} (rs : (i : Fin n) → MinCodecRead Ctx B (T i))
      (run rest : List (Ctx × B)) (e : FieldError fun i => (rs i).Error),
      (tupleRead rs).Ends run (.error e) rest → FailsAt rs run e rest) ∧
    (∀ {T U : Type} (r : MinCodecRead Ctx B T) (r' : MinCodecRead Ctx B U)
      (run rest : List (Ctx × B)) (e : ResultError r.Error r'.Error),
      (resultRead r r').Ends run (.error e) rest → ResultDeserialize.Fails r r' run rest e) ∧
    (∀ {T : Type} (r : MinCodecRead Ctx B T) (size : Nat) (run rest : List (Ctx × B)) (e : r.Error),
      (vecRead r size).Ends run (.error (.item e)) rest → VecDeserialize.Fails r run e rest) ∧
    ∀ {S : Shape} (rs : S.Reads Ctx B) (h : 0 < S.variants) (run rest : List (Ctx × B))
      (e : DeriveError fun i j => (rs i j).Error),
      (deriveRead rs h).Ends run (.error e) rest →
      ∃ run', DeriveDeserialize.Selects S e.variant run run' ∧
        FailsAt (rs e.variant) run' e.error rest :=
  ⟨fun _ _ _ _ => TupleDeserialize.ends_error, fun _ _ _ _ _ => ResultDeserialize.ends_error,
    fun _ _ _ _ _ => VecDeserialize.ends_error, fun _ _ _ _ _ => DeriveDeserialize.ends_error⟩

section

instance {n : Nat} {T : Fin n → Type} {rs : (i : Fin n) → MinCodecRead Unit Slice (T i)}
    [∀ i, DecidableEq (rs i).Error] : DecidableEq (tupleRead rs).Error :=
  inferInstanceAs (DecidableEq (FieldError fun i => (rs i).Error))

instance {r : MinCodecRead Unit Slice T} {r' : MinCodecRead Unit Slice U}
    [DecidableEq r.Error] [DecidableEq r'.Error] : DecidableEq (resultRead r r').Error :=
  inferInstanceAs (DecidableEq (ResultError r.Error r'.Error))

instance {r : MinCodecRead Unit Slice T} {size : Nat} [DecidableEq r.Error] :
    DecidableEq (vecRead r size).Error :=
  inferInstanceAs (DecidableEq (VecReadError r.Error))

instance {S : Shape} {rs : S.Reads Unit Slice} {h : 0 < S.variants}
    [∀ i j, DecidableEq (rs i j).Error] : DecidableEq (deriveRead rs h).Error :=
  inferInstanceAs (DecidableEq (DeriveError fun i j => (rs i j).Error))

def failure (r : MinCodecRead Unit Slice T) (b b' : Slice) : Option (r.Error × Slice) :=
  let first := r.pollDeserialize () r.deserialize b
  let next  := r.pollDeserialize () first.state b'
  match first.outcome, next.outcome with
  | .insufficient, .ready (.error e) => some (e, next.buf)
  | _, _                             => none

theorem ends_of_failure {r : MinCodecRead Unit Slice T} {b b' o : Slice} {e : r.Error}
    (h : failure r b b' = some (e, o)) : r.Ends [((), b), ((), b')] (.error e) [((), o)] := by
  simp only [failure] at h
  split at h
  case h_1 hf hn =>
    cases h
    exact .unfinished (.inr hf) (.ready hn)
  case h_2 => cases h

def readChar : MinCodecRead Unit Slice Char :=
  charRead

instance : DecidableEq readChar.Error :=
  inferInstanceAs (DecidableEq (MapDeserializeError CharTryFromError Empty))

def twoChars (_ : Fin 2) : MinCodecRead Unit Slice Char :=
  readChar

instance (i : Fin 2) : DecidableEq (twoChars i).Error :=
  inferInstanceAs (DecidableEq readChar.Error)

def oneOrTwo : Shape where
  name     := "OneOrTwo"
  variants := 2
  arity i  := i.val + 1
  field _  := fun _ => Char

theorem oneOrTwo_variants : 0 < oneOrTwo.variants :=
  Nat.two_pos

def oneOrTwoReads : oneOrTwo.Reads Unit Slice :=
  fun _ _ => readChar

instance (i : Fin oneOrTwo.variants) (j : Fin (oneOrTwo.arity i)) :
    DecidableEq (oneOrTwoReads i j).Error :=
  inferInstanceAs (DecidableEq readChar.Error)

def badStart (start : List Bool) : Slice :=
  ⟨start ++ Bits.ofBytes [0, 0, 0, 97, 255, 255], 0⟩

def badEnd (pos : Nat) : Slice :=
  ⟨Bits.ofBytes [255, 255], pos⟩

def badRun (start : List Bool) : List (Unit × Slice) :=
  [((), badStart start), ((), badEnd 0)]

theorem errors_attributed_chars :
    FailsAt twoChars (badRun []) ⟨⟨1, Nat.one_lt_two⟩, .map ⟨⟩⟩ [((), badEnd 16)] ∧
    ResultDeserialize.Fails (tupleRead twoChars) readChar (badRun [true]) [((), badEnd 16)]
      (.ok ⟨⟨1, Nat.one_lt_two⟩, .map ⟨⟩⟩) ∧
    VecDeserialize.Fails readChar (badRun (Bits.ofBytes [2])) (.map ⟨⟩) [((), badEnd 16)] ∧
    ∃ run, DeriveDeserialize.Selects oneOrTwo ⟨1, Nat.one_lt_two⟩ (badRun [true]) run ∧
      FailsAt twoChars run ⟨⟨1, Nat.one_lt_two⟩, .map ⟨⟩⟩ [((), badEnd 16)] := by
  have tuple : failure (tupleRead twoChars) (badStart []) (badEnd 0) =
      some (⟨⟨1, Nat.one_lt_two⟩, .map ⟨⟩⟩, badEnd 16) := by
    decide +kernel
  have result : failure (resultRead (tupleRead twoChars) readChar) (badStart [true]) (badEnd 0) =
      some (.ok ⟨⟨1, Nat.one_lt_two⟩, .map ⟨⟩⟩, badEnd 16) := by
    decide +kernel
  have vec : failure (vecRead readChar 4) (badStart (Bits.ofBytes [2])) (badEnd 0) =
      some (.item (.map ⟨⟩), badEnd 16) := by
    decide +kernel
  have derive : failure (deriveRead oneOrTwoReads oneOrTwo_variants) (badStart [true]) (badEnd 0) =
      some (⟨⟨1, Nat.one_lt_two⟩, ⟨⟨1, Nat.one_lt_two⟩, .map ⟨⟩⟩⟩, badEnd 16) := by
    decide +kernel
  exact ⟨errors_attributed.1 _ _ _ _ (ends_of_failure tuple),
    errors_attributed.2.1 _ _ _ _ _ (ends_of_failure result),
    errors_attributed.2.2.1 _ _ _ _ _ (ends_of_failure vec),
    errors_attributed.2.2.2 _ _ _ _ _ (ends_of_failure derive)⟩

end

end Mincodec
