import Mincodec.Theorems.Derive
import Mincodec.Stream.Calm
import Mincodec.Slice

-- When derived deserializers panic.
namespace Mincodec

open Stream BitSource

variable {Ctx B : Type}

def runBits [BitSource B] (run : List (Ctx × B)) : List Bool :=
  run.flatMap fun step => unread step.2

-- The determinant with which `bits` starts, if all of it is there, names a variant.
def Shape.Names (S : Shape) (bits : List Bool) : Prop :=
  1 < S.variants → S.bits ≤ bits.length → Bits.ofLsb (bits.take S.bits) < S.variants

instance (S : Shape) (bits : List Bool) : Decidable (S.Names bits) :=
  inferInstanceAs (Decidable (_ → _ → _))

def MinCodecRead.IsCalm {T : Type} (r : MinCodecRead Ctx B T) : Prop :=
  Stream.IsCalm r.pollDeserialize r.deserialize

namespace OptionDeserialize

variable {T : Type} {r : MinCodecRead Ctx B T}

def Running (this : OptionDeserialize r) : Prop :=
  ∃ deser, this = .deserialize deser ∧ Stream.IsCalm r.pollDeserialize deser

theorem poll_calm {this : OptionDeserialize r} (h : this.Running) (ctx : Ctx) (b : B) :
    Calm Running (fun _ s => ∃ v, s = .done v) (pollDeserialize ctx this b) := by
  obtain ⟨deser, rfl, h⟩ := h
  unfold pollDeserialize
  apply (h.poll ctx b).andThen
  · exact fun deser h => ⟨deser, rfl, h⟩
  · exact fun v _ _ _ => .done ⟨v, rfl⟩

end OptionDeserialize

namespace Slots

variable {n : Nat} {T : Fin n → Type} {rs : (i : Fin n) → MinCodecRead Ctx B (T i)}

structure Sound (idx : Nat) (slots : Slots rs) : Prop where
  done    : ∀ i, i.val < idx → ∃ v, slots i = .done v
  running : ∀ i, i.val = idx → (slots i).Running
  fresh   : ∀ i, idx < i.val → slots i = .new (rs i)

theorem new_sound (hr : ∀ i, (rs i).IsCalm) : Sound 0 (new rs) where
  done _ hi   := (Nat.not_lt_zero _ hi).elim
  running i _ := ⟨_, rfl, hr i⟩
  fresh _ _   := rfl

namespace Sound

variable {idx : Nat} {slots : Slots rs} {h : idx < n}

theorem update (hs : Sound idx slots) {slot : OptionDeserialize (rs ⟨idx, h⟩)}
    (hr : slot.Running) : Sound idx (Function.update slots ⟨idx, h⟩ slot) where
  done i hi   := by
    rw [Function.update_of_ne (Fin.ne_of_val_ne hi.ne)]
    exact hs.done i hi
  running i hi := by
    obtain rfl : i = ⟨idx, h⟩ := Fin.ext hi
    rwa [Function.update_self]
  fresh i hi  := by
    rw [Function.update_of_ne (Fin.ne_of_val_ne hi.ne')]
    exact hs.fresh i hi

theorem next (hr : ∀ i, (rs i).IsCalm) (hs : Sound idx slots) (v : T ⟨idx, h⟩) :
    Sound (idx + 1) (Function.update slots ⟨idx, h⟩ (.done v)) where
  done i hi := by
    by_cases hk : i.val = idx
    case pos =>
      obtain rfl : i = ⟨idx, h⟩ := Fin.ext hk
      exact ⟨v, Function.update_self ..⟩
    case neg =>
      rw [Function.update_of_ne (Fin.ne_of_val_ne hk)]
      exact hs.done i (by omega)
  running i hi := by
    have hk : idx < i.val := by omega
    rw [Function.update_of_ne (Fin.ne_of_val_ne hk.ne'), hs.fresh i hk]
    exact ⟨_, rfl, hr i⟩
  fresh i hi := by
    have hk : idx < i.val := by omega
    rw [Function.update_of_ne (Fin.ne_of_val_ne hk.ne'), hs.fresh i hk]

end Sound

theorem poll_calm (hr : ∀ i, (rs i).IsCalm) {limit : Nat} (hl : n < limit) (ctx : Ctx) {idx : Nat}
    {slots : Slots rs} (hs : Sound idx slots) (b : B) :
    Calm (fun s => Sound s.1 s.2) (fun _ s => ∀ i, ∃ v, s.2 i = .done v) (slots.poll limit ctx idx b) := by
  obtain ⟨k, hk⟩ : ∃ k, n ≤ idx + k := ⟨n, by omega⟩
  induction k generalizing idx slots b
  case zero =>
    unfold poll
    rw [dif_neg (by omega)]
    exact .done fun i => hs.done i (by omega)
  case succ k hi =>
    unfold poll
    split
    case isFalse h => exact .done fun i => hs.done i (by omega)
    case isTrue h =>
      apply (OptionDeserialize.poll_calm (hs.running ⟨idx, h⟩ rfl) ctx b).andThen
      · exact fun _ => hs.update
      rintro ⟨⟩ _ b' ⟨v, rfl⟩
      rw [if_pos (by omega)]
      exact hi (hs.next hr v) b' (by omega)

end Slots

namespace DeriveDeserialize

variable {S : Shape} {rs : S.Reads Ctx B} [BitBuf B]

def Running (this : DeriveDeserialize rs) : Prop :=
  ∃ i idx slots, this = .variant i idx slots ∧ Slots.Sound idx slots

theorem pollVariant_calm (hc : S.Compiles) (hr : ∀ i j, (rs i j).IsCalm) (ctx : Ctx)
    {i : Fin S.variants} {idx : Nat} {slots : Slots (rs i)} (hs : Slots.Sound idx slots) (b : B) :
    Calm Running (fun _ _ => True) (pollVariant ctx i idx slots b) := by
  apply (Slots.poll_calm (hr i) (lt_indexLimit (hc.arity_lt i)) ctx hs b).andThen
  · exact fun s hs => ⟨i, s.1, s.2, rfl, hs⟩
  intro _ s b' hd
  choose v hv using hd
  rw [Slots.unwrap_eq_some hv]
  exact .done trivial

theorem Running.isCalm (hc : S.Compiles) (hr : ∀ i j, (rs i j).IsCalm)
    {this : DeriveDeserialize rs} (h : this.Running) : IsCalm pollDeserialize this := by
  refine ⟨Running, ?_, h⟩
  rintro ctx _ b ⟨i, idx, slots, rfl, hs⟩
  exact pollVariant_calm hc hr ctx hs b

variable [LawfulBitBuf B]

theorem determinant_calmRun_iff (hc : S.Compiles) (hr : ∀ i j, (rs i j).IsCalm)
    (hv : 1 < S.variants) {d : BitBuf.CappedFill B} {w : List Bool} (hw : w.length < S.bits)
    (hd : Decodes False Drained (fun (_ : Unit) => BitBuf.pollCappedFill) d
      ((fillParser (List.replicate S.bytes 0) S.bits).after w)) (run : List (Ctx × B)) :
    CalmRun pollDeserialize (.determinant (some d) : DeriveDeserialize rs) run ↔
      S.Names (w ++ runBits run) := by
  induction run generalizing d w
  case nil =>
    refine iff_of_true trivial fun _ hl => ?_
    simp only [runBits, List.flatMap_nil, List.append_nil] at hl
    omega
  case cons step run hi =>
    obtain ⟨ctx, b⟩ := step
    have ⟨u, hu, hf⟩ := hd.follows () b
    have hb : runBits ((ctx, b) :: run) = unread b ++ runBits run := rfl
    match hx : (BitBuf.pollCappedFill d b).outcome with
    | .pending          => simp only [hx, false_and] at hf
    | .ready (.error e) => exact e.elim
    | .panicked m       =>
      simp only [hx] at hf
      exact nomatch (fillParser_ending (Parser.Halts.after.mp hf)).2
    | .insufficient     =>
      simp only [hx] at hf
      have ⟨hs, hm, hd⟩ := hf
      have hub : unread b = u := by simpa [show unread _ = [] from hs] using hu.unread_eq
      have hl := length_lt_of_fillParser_more hm
      rw [Parser.after_after] at hd
      have hx : pollDeserialize ctx (.determinant (some d) : DeriveDeserialize rs) b =
          ⟨.insufficient, .determinant (some (BitBuf.pollCappedFill d b).state),
            (BitBuf.pollCappedFill d b).buf⟩ := by
        simp only [pollDeserialize, Polled.andThen_insufficient hx]
      rw [hb, hub, ← List.append_assoc, ← hi (hub ▸ hl) hd, CalmRun.cons_iff (hx ▸ .inr rfl), hx]
    | .ready (.ok bytes) =>
      simp only [hx] at hf
      obtain ⟨_, rfl, hh⟩ := hf
      have ⟨hl, hbytes⟩ := fillParser_ending (Parser.Halts.after.mp hh)
      simp only [Ending.finished.injEq, Except.ok.injEq] at hbytes
      have hx : pollDeserialize ctx (.determinant (some d) : DeriveDeserialize rs) b =
          pollChosen ctx (Bits.ofLsb (w ++ u)) (BitBuf.pollCappedFill d b).buf := by
        have hd := Bits.ofLe_reverseBits_toBytes (hl.trans_le S.bits_le)
        rw [hl] at hd
        simp only [pollDeserialize, Polled.andThen_ok hx, hbytes, hd]
      have ht : (w ++ runBits ((ctx, b) :: run)).take S.bits = w ++ u := by
        rw [hb, hu.unread_eq, List.append_assoc, ← List.append_assoc, ← hl, List.take_left]
      by_cases hn : Bits.ofLsb (w ++ u) < S.variants
      case pos =>
        refine iff_of_true (CalmRun.of_calm ?_ (fun _ => Running.isCalm hc hr) run) ?_
        · rw [hx]
          unfold pollChosen
          rw [dif_pos hn]
          exact pollVariant_calm hc hr ctx (Slots.new_sound (hr _)) _
        · intro _ _
          rwa [ht]
      case neg =>
        refine iff_of_false ?_ ?_
        · intro ⟨hp, _⟩
          apply hp "invalid determinant"
          rw [hx]
          unfold pollChosen
          rw [dif_neg hn]
        · intro h
          have := h hv (by rw [hb, hu.unread_eq, ← hl]; simp)
          rw [ht] at this
          exact hn this

end DeriveDeserialize

-- A run of the deserializer of a type with variants panics if and only if it is delivered a
-- determinant that names none of them.
theorem derive_calmRun_iff {S : Shape} {rs : S.Reads Ctx B} [BitBuf B] [LawfulBitBuf B]
    (hc : S.Compiles) (hr : ∀ i j, (rs i j).IsCalm) (run : List (Ctx × B)) :
    (∀ h, CalmRun (deriveRead rs h).pollDeserialize (deriveRead rs h).deserialize run ↔
      S.Names (runBits run)) ∧
    (S.variants = 0 →
      CalmRun (deriveEmptyRead S).pollDeserialize (deriveEmptyRead S).deserialize run) := by
  constructor
  case left =>
    intro h
    show CalmRun DeriveDeserialize.pollDeserialize (DeriveDeserialize.new rs h) run ↔ _
    unfold DeriveDeserialize.new
    split
    case isTrue hv =>
      have ⟨f, hf, hd⟩ : ∃ f, BitBuf.newCappedFill (List.replicate S.bytes 0) S.bits = some f ∧
          Decodes (B := B) False Drained (fun (_ : Unit) => BitBuf.pollCappedFill) f _ :=
        BitBuf.cappedFill_decodes (by rw [List.length_replicate]; exact S.bits_le)
      rw [hf]
      have hb : 0 < S.bits := Nat.clog_pos (by decide) hv
      exact DeriveDeserialize.determinant_calmRun_iff (w := []) hc hr hv hb hd run
    case isFalse hv =>
      have hs := DeriveDeserialize.Running.isCalm hc hr
        ⟨⟨0, h⟩, 0, _, rfl, Slots.new_sound (hr _)⟩
      exact iff_of_true (hs.run run) fun hv' => absurd hv' hv
  case right =>
    intro _
    apply IsCalm.run
    exact ⟨fun _ => True, fun _ _ _ _ => ⟨fun _ => nofun, fun _ => trivial, fun _ => nofun⟩, trivial⟩

def threeRead : MinCodecRead Unit Slice (Shape.flags 3 0).Value :=
  deriveRead (fun _ _ => boolRead) (by decide)

theorem derive_calmRun_iff_three :
    CalmRun threeRead.pollDeserialize threeRead.deserialize
      [((), ⟨[false], 0⟩), ((), ⟨[true, true], 0⟩)] := by
  have hc : (Shape.flags 3 0).Compiles := Shape.compiles_of_le (by decide) (by decide)
  have h := (@derive_calmRun_iff _ Slice _ (fun _ _ => boolRead) _ _ hc (fun _ j => j.elim0)
    [((), ⟨[false], 0⟩), ((), ⟨[true, true], 0⟩)]).1 (by decide)
  exact h.mpr (by decide)

-- The determinant 3 names none of three variants.
theorem derive_panics : ¬CalmRun threeRead.pollDeserialize threeRead.deserialize
    [((), ⟨[true, true], 0⟩)] :=
  fun h => h.1 "invalid determinant" rfl

end Mincodec
