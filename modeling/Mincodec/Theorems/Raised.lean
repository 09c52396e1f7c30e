import Mincodec.Derive
import Mincodec.Allocated
import Mincodec.Option
import Mincodec.Result
import Mincodec.Tuple
import Mincodec.Slice
import Mincodec.Stream.Ends

-- Where the errors of composite serializers are raised.
namespace Mincodec

open Stream

variable {Ctx B T U : Type} {w : MinCodecWrite Ctx B T} {w' : MinCodecWrite Ctx B U}
variable {run rest : List (Ctx × B)}

def MinCodecWrite.Ends (w : MinCodecWrite Ctx B T) (item : T) (run : List (Ctx × B))
    (a : Except w.Error Unit) (rest : List (Ctx × B)) : Prop :=
  Stream.Ends w.pollSerialize (w.serialize item) run a rest

namespace Sers

variable {n : Nat} {T : Fin n → Type} {ws : (i : Fin n) → MinCodecWrite Ctx B (T i)}
variable {v : (i : Fin n) → T i}

inductive Passes (ws : (i : Fin n) → MinCodecWrite Ctx B (T i)) (v : (i : Fin n) → T i)
    (run : List (Ctx × B)) : Nat → List (Ctx × B) → Prop
  | nil : Passes ws v run 0 run
  | cons {k : Nat} {h : k < n} {run' rest : List (Ctx × B)} :
    Passes ws v run k run' → (ws ⟨k, h⟩).Ends (v ⟨k, h⟩) run' (.ok ()) rest →
    Passes ws v run (k + 1) rest

def FailsAt (ws : (i : Fin n) → MinCodecWrite Ctx B (T i)) (v : (i : Fin n) → T i)
    (run : List (Ctx × B)) (e : FieldError fun i => (ws i).Error) (rest : List (Ctx × B)) : Prop :=
  ∃ run', Passes ws v run e.field run' ∧ (ws e.field).Ends (v e.field) run' (.error e.error) rest

variable {S ε : Type} {poll : Ctx → S → B → Polled S B (Except ε Unit)} {put : Nat → Sers ws → S}
variable {wrap : (FieldError fun i => (ws i).Error) → ε} {more : Nat → Prop} [DecidablePred more]

-- A computation with an arm for each field: in the state `put k sers` it is at the field `k`.
structure Loops (ws : (i : Fin n) → MinCodecWrite Ctx B (T i))
    (poll : Ctx → S → B → Polled S B (Except ε Unit)) (put : Nat → Sers ws → S)
    (wrap : (FieldError fun i => (ws i).Error) → ε) (more : Nat → Prop) [DecidablePred more] : Prop where
  arm {k : Nat} (h : k < n) (sers : Sers ws) (c : Ctx) (ser : (ws ⟨k, h⟩).Serialize) (b : B) :
    poll c (put k (Function.update sers ⟨k, h⟩ ser)) b = ((ws ⟨k, h⟩).pollSerialize c ser b).andThen
      (fun ser => put k (Function.update sers ⟨k, h⟩ ser)) (fun e => wrap ⟨⟨k, h⟩, e⟩) fun _ ser b =>
        if more k then
          poll c (put (k + 1) (Function.update sers ⟨k, h⟩ ser)) b
        else
          ⟨.panicked addOverflow, put k (Function.update sers ⟨k, h⟩ ser), b⟩
  finish {k : Nat} (h : ¬k < n) (sers : Sers ws) (run rest : List (Ctx × B)) (e : ε) :
    ¬Ends poll (put k sers) run (.error e) rest

theorem Loops.ends_error (h : Loops ws poll put wrap more) {k : Nat} {sers : Sers ws}
    {run' : List (Ctx × B)} {e : ε} (hs : ∀ i, k ≤ i.val → sers i = (ws i).serialize (v i))
    (hp : Passes ws v run k run') (he : Ends poll (put k sers) run' (.error e) rest) :
    ∃ e', e = wrap e' ∧ FailsAt ws v run e' rest := by
  obtain ⟨j, hj⟩ : ∃ j, n ≤ k + j := ⟨n, Nat.le_add_left n k⟩
  induction j generalizing k sers run'
  all_goals have hk : k < n := by_contra fun hk => h.finish hk sers run' rest e he
  case zero => omega
  case succ j hi =>
    have hu : sers = Function.update sers ⟨k, hk⟩ ((ws ⟨k, hk⟩).serialize (v ⟨k, hk⟩)) := by
      rw [← hs _ (le_refl _), Function.update_eq_self]
    rw [hu] at he
    cases Ends.andThen (h.arm hk sers) he
    case inl he =>
      obtain ⟨e', h', hf⟩ := he
      cases h'
      exact ⟨_, rfl, run', hp, hf⟩
    case inr hv =>
      obtain ⟨_, c, ser, b, later, hv, hk'⟩ := hv
      split at hk'
      case isFalse => exact absurd hk' (Polled.not_ends_panicked rfl)
      case isTrue  =>
        refine hi (fun i hi' => ?_) (hp.cons hv) (.of_polled hk') (by omega)
        rw [Function.update_of_ne (Fin.ne_of_val_ne (by simp only; omega)), hs i (by omega)]

theorem poll_andThen {first limit k : Nat} (h : k < n) (sers : Sers ws) (ctx : Ctx)
    (ser : (ws ⟨k, h⟩).Serialize) (b : B) (put : Nat × Sers ws → S)
    (wrap : (FieldError fun i => (ws i).Error) → ε)
    (next : Unit → Nat × Sers ws → B → Polled S B (Except ε Unit)) :
    (Sers.poll first limit ctx k (Function.update sers ⟨k, h⟩ ser) b).andThen put wrap next =
      ((ws ⟨k, h⟩).pollSerialize ctx ser b).andThen
        (fun ser => put (first + k, Function.update sers ⟨k, h⟩ ser)) (fun e => wrap ⟨⟨k, h⟩, e⟩)
        fun _ ser b =>
          if first + k + 1 < limit then
            (Sers.poll first limit ctx (k + 1) (Function.update sers ⟨k, h⟩ ser) b).andThen put wrap next
          else
            ⟨.panicked addOverflow, put (first + k, Function.update sers ⟨k, h⟩ ser), b⟩ := by
  rw [poll, dif_pos h, Polled.andThen_assoc]
  simp only [Function.update_self, Function.update_idem]
  congr 1
  funext _ ser b
  split <;> rfl

end Sers

section

variable {n : Nat} {T : Fin n → Type} {ws : (i : Fin n) → MinCodecWrite Ctx B (T i)}

theorem TupleSerialize.loops :
    Sers.Loops ws TupleSerialize.pollSerialize TupleSerialize.mk id fun k => 0 + k + 1 < 256 where
  arm h sers c ser b := by
    unfold pollSerialize
    simp only
    rw [Sers.poll_andThen h, Nat.zero_add]
  finish {k} h sers run rest e he := by
    have hx (c : Ctx) (b : B) : pollSerialize c ⟨k, sers⟩ b = if k = n then
        ⟨.ready (.ok ()), ⟨n + 1, sers⟩, b⟩
      else
        ⟨.panicked "tuple serialize polled after completion", ⟨k, sers⟩, b⟩ := by
      unfold pollSerialize
      rw [Sers.poll_ready h, Polled.andThen_ok rfl, Nat.zero_add]
    by_cases hk : k = n
    case pos => cases he.eq_of_ready fun c b => by rw [hx, if_pos hk]
    case neg =>
      cases he
      case ready ho        => simp [hx, hk] at ho
      case unfinished hu _ => simp [hx, hk] at hu

theorem TupleSerialize.ends_error {v : (i : Fin n) → T i} {e : FieldError fun i => (ws i).Error}
    (h : (tupleWrite ws).Ends v run (.error e) rest) : Sers.FailsAt ws v run e rest := by
  obtain ⟨_, rfl, h⟩ := loops.ends_error (fun _ _ => rfl) .nil h
  exact h

end

namespace MapSerialize

variable {E : Type}

inductive Fails (w : MinCodecWrite Ctx B T) (map : U → Except E T) (item : U) (run : List (Ctx × B)) :
    List (Ctx × B) → MapSerializeError E w.Error → Prop
  | map {e : E} : map item = .error e → Fails w map item run run (.map e)
  | serialize {x : T} {e : w.Error} {rest : List (Ctx × B)} : map item = .ok x →
    w.Ends x run (.error e) rest → Fails w map item run rest (.serialize e)

theorem ends_error {map : U → Except E T} {item : U} {e : MapSerializeError E w.Error}
    (h : (mapWrite w map).Ends item run (.error e) rest) : Fails w map item run rest e := by
  change Ends pollSerialize (new w item map) run (.error e) rest at h
  unfold new at h
  cases hm : map item
  all_goals simp only [hm] at h
  case error e' =>
    cases h
    case unfinished hu _ => simp [pollSerialize] at hu
    case ready ho        =>
      cases ho
      exact .map hm
  case ok x     =>
    have hp (c : Ctx) (ser : w.Serialize) (b : B) : pollSerialize c (.serialize ser : MapSerialize w E) b =
        (w.pollSerialize c ser b).andThen .serialize .serialize fun _ _ b =>
          ⟨.ready (.ok ()), .complete, b⟩ := rfl
    cases Ends.andThen hp h
    case inl he =>
      obtain ⟨e', h', he⟩ := he
      cases h'
      exact .serialize hm he
    case inr hv =>
      obtain ⟨_, _, _, _, _, _, hk⟩ := hv
      cases (hk.eq_rest rfl).1

end MapSerialize

section

variable [BitBufMut B]

def pollPredicate (predicate : Bool) (_ : Ctx) (_ : Unit) (b : B) : Polled Unit B (Except Empty Unit) :=
  BitBufMut.pollWriteBool predicate b

namespace Optional.OptionSerialize

theorem ends_writing {ser : w.Serialize} {e : w.Error}
    (h : Ends pollSerialize (⟨some ser, .writing⟩ : OptionSerialize w) run (.error e) rest) :
    Ends w.pollSerialize ser run (.error e) rest := by
  have hp (c : Ctx) (ser : w.Serialize) (b : B) :
      pollSerialize c (⟨some ser, .writing⟩ : OptionSerialize w) b =
        (w.pollSerialize c ser b).andThen (fun ser => ⟨some ser, .writing⟩) id
          fun _ ser b => ⟨.ready (.ok ()), ⟨some ser, .complete⟩, b⟩ := rfl
  cases Ends.andThen hp h
  case inl he =>
    obtain ⟨_, h', he⟩ := he
    cases h'
    exact he
  case inr hv =>
    obtain ⟨_, _, _, _, _, _, hk⟩ := hv
    cases (hk.eq_rest rfl).1

theorem ends_error {item : Option T} {e : w.Error}
    (h : (optionWrite w).Ends item run (.error e) rest) : ∃ x run', item = some x ∧
      Ends (pollPredicate true) () run (.ok ()) run' ∧ w.Ends x run' (.error e) rest := by
  let new : OptionSerialize w := ⟨item.map w.serialize, .predicate⟩
  have hp (c : Ctx) (s : Unit) (b : B) : pollSerialize c new b =
      (pollPredicate new.ser.isSome c s b).andThen (fun _ => new) Empty.elim fun _ _ b =>
        if new.ser.isSome then
          pollSerialize c { new with state := .writing } b
        else
          ⟨.ready (.ok ()), { new with state := .complete }, b⟩ := rfl
  cases Ends.andThen hp (s := ()) h
  case inl he =>
    obtain ⟨e, _⟩ := he
    exact e.elim
  case inr hv =>
    obtain ⟨_, c, _, b, later, hv, hk⟩ := hv
    cases item
    case none   => cases (hk.eq_rest rfl).1
    case some x => exact ⟨x, _, rfl, hv, ends_writing (.of_polled hk)⟩

end Optional.OptionSerialize

namespace ResultSerialize

inductive Fails (w : MinCodecWrite Ctx B T) (w' : MinCodecWrite Ctx B U) (run rest : List (Ctx × B)) :
    Except U T → ResultError w.Error w'.Error → Prop
  | ok {run' : List (Ctx × B)} {item : T} {e : w.Error} : Ends (pollPredicate true) () run (.ok ()) run' →
    w.Ends item run' (.error e) rest → Fails w w' run rest (.ok item) (.ok e)
  | err {run' : List (Ctx × B)} {item : U} {e : w'.Error} :
    Ends (pollPredicate false) () run (.ok ()) run' → w'.Ends item run' (.error e) rest →
    Fails w w' run rest (.error item) (.err e)

variable {e : ResultError w.Error w'.Error}

theorem ends_writingT {ser : w.Serialize} {serU : Option w'.Serialize}
    (h : Ends pollSerialize (⟨some ser, serU, .writingT⟩ : ResultSerialize w w') run (.error e) rest) :
    ∃ e', e = .ok e' ∧ Ends w.pollSerialize ser run (.error e') rest := by
  have hp (c : Ctx) (ser : w.Serialize) (b : B) :
      pollSerialize c (⟨some ser, serU, .writingT⟩ : ResultSerialize w w') b =
        (w.pollSerialize c ser b).andThen (fun ser => ⟨some ser, serU, .writingT⟩) .ok
          fun _ ser b => ⟨.ready (.ok ()), ⟨some ser, serU, .complete⟩, b⟩ := rfl
  cases Ends.andThen hp h
  case inl he =>
    obtain ⟨e', h', he⟩ := he
    cases h'
    exact ⟨e', rfl, he⟩
  case inr hv =>
    obtain ⟨_, _, _, _, _, _, hk⟩ := hv
    cases (hk.eq_rest rfl).1

theorem ends_writingU {ser : w'.Serialize} {serT : Option w.Serialize}
    (h : Ends pollSerialize (⟨serT, some ser, .writingU⟩ : ResultSerialize w w') run (.error e) rest) :
    ∃ e', e = .err e' ∧ Ends w'.pollSerialize ser run (.error e') rest := by
  have hp (c : Ctx) (ser : w'.Serialize) (b : B) :
      pollSerialize c (⟨serT, some ser, .writingU⟩ : ResultSerialize w w') b =
        (w'.pollSerialize c ser b).andThen (fun ser => ⟨serT, some ser, .writingU⟩) .err
          fun _ ser b => ⟨.ready (.ok ()), ⟨serT, some ser, .complete⟩, b⟩ := rfl
  cases Ends.andThen hp h
  case inl he =>
    obtain ⟨e', h', he⟩ := he
    cases h'
    exact ⟨e', rfl, he⟩
  case inr hv =>
    obtain ⟨_, _, _, _, _, _, hk⟩ := hv
    cases (hk.eq_rest rfl).1

theorem ends_error {item : Except U T} (h : (resultWrite w w').Ends item run (.error e) rest) :
    Fails w w' run rest item e := by
  have hp (c : Ctx) (s : Unit) (b : B) : pollSerialize c (new w w' item) b =
      (pollPredicate (new w w' item).serT.isSome c s b).andThen (fun _ => new w w' item) Empty.elim
        fun _ _ b =>
          if (new w w' item).serT.isSome then
            pollSerialize c { new w w' item with state := .writingT } b
          else
            pollSerialize c { new w w' item with state := .writingU } b := by
    cases item <;> rfl
  cases Ends.andThen hp (s := ()) h
  case inl he =>
    obtain ⟨e, _⟩ := he
    exact e.elim
  case inr hv =>
    obtain ⟨_, c, _, b, later, hv, hk⟩ := hv
    cases item
    case ok item    =>
      obtain ⟨e, rfl, he⟩ := ends_writingT (.of_polled hk)
      exact .ok hv he
    case error item =>
      obtain ⟨e, rfl, he⟩ := ends_writingU (.of_polled hk)
      exact .err hv he

end ResultSerialize

namespace DeriveSerialize

variable {S : Shape} {ws : S.Writes Ctx B}

def pollDeterminant (_ : Ctx) (d : BitBufMut.CappedDrain B) (b : B) :
    Polled (BitBufMut.CappedDrain B) B (Except Empty Unit) :=
  BitBufMut.pollCappedDrain d b

inductive Announces (S : Shape) (i : Fin S.variants) (run : List (Ctx × B)) : List (Ctx × B) → Prop
  | single : ¬1 < S.variants → Announces S i run run
  | determinant {d : BitBufMut.CappedDrain B} {run' : List (Ctx × B)} : 1 < S.variants →
    BitBufMut.newCappedDrain ((Bits.toLe S.bytes i).map Bits.reverseBits) S.bits = some d →
    Ends pollDeterminant d run (.ok ()) run' → Announces S i run run'

theorem pollSerialize_fields (c : Ctx) (i : Fin S.variants) (k : Nat)
    (d : Option (BitBufMut.CappedDrain B)) (sers : Sers (ws i)) (b : B) :
    pollSerialize c (.variant i (S.firstArm + k) d sers) b =
      (Sers.poll S.firstArm (indexLimit (S.arity i)) c k sers b).andThen
        (fun s => .variant i s.1 d s.2) (⟨i, ·⟩) fun _ _ b => ⟨.ready (.ok ()), .complete, b⟩ := by
  have hn : ¬(1 < S.variants ∧ S.firstArm + k = 0) := by
    rintro ⟨hv, hk⟩
    simp [Shape.firstArm, hv] at hk
  simp only [pollSerialize, if_neg hn, pollFields, Nat.add_sub_cancel_left]

theorem pollSerialize_determinant (hv : 1 < S.variants) (i : Fin S.variants) (sers : Sers (ws i))
    (c : Ctx) (d : BitBufMut.CappedDrain B) (b : B) :
    pollSerialize c (.variant i 0 (some d) sers) b =
      (pollDeterminant c d b).andThen (fun d => .variant i 0 (some d) sers) Empty.elim fun _ d b =>
        pollSerialize c (.variant i (S.firstArm + 0) (some d) sers) b := by
  have hf : S.firstArm = 1 := if_pos hv
  simp [pollSerialize, hv, hf, pollDeterminant]

theorem loops (i : Fin S.variants) (d : Option (BitBufMut.CappedDrain B)) :
    Sers.Loops (ws i) (pollSerialize : Ctx → DeriveSerialize ws → B → _)
      (fun k sers => .variant i (S.firstArm + k) d sers) (⟨i, ·⟩)
      fun k => S.firstArm + k + 1 < indexLimit (S.arity i) where
  arm {k} h sers c ser b := by
    simp only [pollSerialize_fields]
    exact Sers.poll_andThen h ..
  finish {k} h sers run rest e he := by
    have ready (c : Ctx) (b : B) :
        (pollSerialize c (.variant i (S.firstArm + k) d sers) b).outcome = .ready (.ok ()) := by
      rw [pollSerialize_fields, Sers.poll_ready h, Polled.andThen_ok rfl]
    cases he.eq_of_ready ready

theorem ends_error {v : S.Value} {e : DeriveError fun i j => (ws i j).Error}
    (h : (deriveWrite ws).Ends v run (.error e) rest) : ∃ e' run', e = ⟨v.variant, e'⟩ ∧
      Announces S v.variant run run' ∧ Sers.FailsAt (ws v.variant) v.fields run' e' rest := by
  change Ends pollSerialize (new ws v) run (.error e) rest at h
  unfold new at h
  by_cases hv : 1 < S.variants
  case neg =>
    have hf : S.firstArm = 0 := if_neg hv
    rw [if_neg hv, show 0 = S.firstArm + 0 from hf.symm] at h
    obtain ⟨e', he, hfail⟩ := (loops v.variant none).ends_error (fun _ _ => rfl) .nil h
    exact ⟨e', run, he, .single hv, hfail⟩
  case pos =>
    rw [if_pos hv] at h
    cases hd : BitBufMut.newCappedDrain (B := B) ((Bits.toLe S.bytes v.variant).map Bits.reverseBits) S.bits
    case none =>
      rw [hd] at h
      cases h
      case ready h        => simp [pollSerialize, hv] at h
      case unfinished h _ => simp [pollSerialize, hv] at h
    case some d =>
      rw [hd] at h
      cases Ends.andThen (pollSerialize_determinant hv v.variant _) h
      case inl he =>
        obtain ⟨e, _⟩ := he
        exact e.elim
      case inr hv' =>
        obtain ⟨_, c, d', b, later, hb, hk⟩ := hv'
        obtain ⟨e', he, hfail⟩ :=
          (loops v.variant (some d')).ends_error (fun _ _ => rfl) .nil (.of_polled hk)
        exact ⟨e', _, he, .determinant hv hd hb, hfail⟩

end DeriveSerialize

end

-- An error of a component: the components before it are written, the error names the component and
-- holds what its serializer alone returns on what the one before it leaves of the run, and the rest of
-- the run is what that serializer leaves.
theorem serialize_errors_attributed [BitBufMut B] :
    (∀ {n : Nat} {T : Fin n → Type} (ws : (i : Fin n) → MinCodecWrite Ctx B (T i))
      (v : (i : Fin n) → T i) (run rest : List (Ctx × B)) (e : FieldError fun i => (ws i).Error),
      (tupleWrite ws).Ends v run (.error e) rest → Sers.FailsAt ws v run e rest) ∧
    (∀ {T : Type} (w : MinCodecWrite Ctx B T) (item : Option T) (run rest : List (Ctx × B)) (e : w.Error),
      (Optional.optionWrite w).Ends item run (.error e) rest → ∃ x run', item = some x ∧
        Ends (pollPredicate true) () run (.ok ()) run' ∧ w.Ends x run' (.error e) rest) ∧
    (∀ {T U : Type} (w : MinCodecWrite Ctx B T) (w' : MinCodecWrite Ctx B U) (item : Except U T)
      (run rest : List (Ctx × B)) (e : ResultError w.Error w'.Error),
      (resultWrite w w').Ends item run (.error e) rest → ResultSerialize.Fails w w' run rest item e) ∧
    (∀ {T U E : Type} (w : MinCodecWrite Ctx B T) (map : U → Except E T) (item : U)
      (run rest : List (Ctx × B)) (e : MapSerializeError E w.Error),
      (mapWrite w map).Ends item run (.error e) rest → MapSerialize.Fails w map item run rest e) ∧
    ∀ {S : Shape} (ws : S.Writes Ctx B) (v : S.Value) (run rest : List (Ctx × B))
      (e : DeriveError fun i j => (ws i j).Error),
      (deriveWrite ws).Ends v run (.error e) rest → ∃ e' run', e = ⟨v.variant, e'⟩ ∧
        DeriveSerialize.Announces S v.variant run run' ∧
        Sers.FailsAt (ws v.variant) v.fields run' e' rest :=
  ⟨fun _ _ _ _ _ => TupleSerialize.ends_error, fun _ _ _ _ _ => Optional.OptionSerialize.ends_error,
    fun _ _ _ _ _ _ => ResultSerialize.ends_error, fun _ _ _ _ _ _ => MapSerialize.ends_error,
    fun _ _ _ _ _ => DeriveSerialize.ends_error⟩

def falseWrite : MinCodecWrite Unit SliceMut Bool :=
  mapWrite boolWrite fun x => if x then .error () else .ok x

-- There is no room in the first buffer, and room for two bits in the second one.
def narrow : List (Unit × SliceMut) :=
  [((), ⟨[], 0, Nat.zero_le _⟩), ((), ⟨[false, false], 0, Nat.zero_le _⟩)]

theorem serialize_errors_attributed_option : ∃ x run', some true = some x ∧
    Ends (pollPredicate true) () narrow (.ok ()) run' ∧
    falseWrite.Ends x run' (.error (.map ())) [((), ⟨[true, false], 1, by decide⟩)] := by
  have h : (Optional.optionWrite falseWrite).Ends (some true) narrow (.error (.map ()))
      [((), ⟨[true, false], 1, by decide⟩)] := .unfinished (.inr rfl) (.ready rfl)
  exact serialize_errors_attributed.2.1 _ _ _ _ _ h

end Mincodec
