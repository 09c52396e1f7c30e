import Mincodec.Theorems.Allocated
import Mincodec.Theorems.Panics

-- When the deserializers of lists panic.
namespace Mincodec

open Stream BitSource

variable {Ctx B T : Type} [BitBuf B]

theorem fillParser_isSafe (data : List UInt8) (n : Nat) : (fillParser data n).IsSafe :=
  (Parser.take_isSafe n).bind fun _ => Parser.pure_isSafe _

namespace VecDeserialize

variable {r : MinCodecRead Ctx B T} {size : Nat}

def Running (this : VecDeserialize r size) : Prop :=
  this.state = .reading ∧ Stream.IsCalm r.pollDeserialize this.deser

theorem pollReading_calm (hr : r.IsCalm) (ctx : Ctx) {this : VecDeserialize r size}
    (hs : this.state = .reading) (hd : Stream.IsCalm r.pollDeserialize this.deser) (b : B) :
    Calm Running (fun _ _ => True) (pollReading ctx this hs b) := by
  obtain ⟨k, hk⟩ : ∃ k, this.data.length + k = this.len.toNat :=
    ⟨this.len.toNat - this.data.length, by have := this.fits; omega⟩
  induction k generalizing this b
  case zero =>
    unfold pollReading
    rw [dif_pos (by omega)]
    exact .done trivial
  case succ k hi =>
    unfold pollReading
    rw [dif_neg (by omega)]
    apply (hd.poll ctx b).andThen
    · exact fun _ hd => ⟨hs, hd⟩
    intro item _ b' _
    apply hi
    case hd => exact hr
    case hk => simp only [List.length_append, List.length_singleton]; omega

theorem Running.isCalm (hr : r.IsCalm) {this : VecDeserialize r size} (h : this.Running) :
    Stream.IsCalm pollDeserialize this := by
  refine ⟨Running, ?_, h⟩
  intro ctx this b ⟨hs, hd⟩
  obtain ⟨_, vlq, len, deser, data, fits, holds, fresh⟩ := this
  obtain rfl := hs
  exact pollReading_calm hr ctx rfl hd b

def sizing (r : MinCodecRead Ctx B T) (size : Nat) (vlq : BitBuf.AsyncReadVlq B) :
    VecDeserialize r size :=
  { new r size with vlq }

variable {ctx : Ctx} {vlq : BitBuf.AsyncReadVlq B} {b : B} {len : UInt64}

theorem sizing_starved (h : (BitBuf.pollVlq vlq b).outcome = .insufficient) :
    pollDeserialize ctx (sizing r size vlq) b =
      ⟨.insufficient, sizing r size (BitBuf.pollVlq vlq b).state, (BitBuf.pollVlq vlq b).buf⟩ := by
  simp only [sizing, new, pollDeserialize, Polled.andThen_insufficient h]

theorem sizing_calm (hr : r.IsCalm) (h : (BitBuf.pollVlq vlq b).outcome = .ready (.ok len))
    (hl : len.toNat * size ≤ isizeMax) :
    Calm Running (fun _ _ => True) (pollDeserialize ctx (sizing r size vlq) b) := by
  simp only [sizing, new, pollDeserialize, Polled.andThen_ok h, usizeTryFrom,
    UInt64.ofBitVec_toBitVec, hl]
  apply pollReading_calm hr
  exact hr

theorem sizing_panics (h : (BitBuf.pollVlq vlq b).outcome = .ready (.ok len))
    (hl : ¬len.toNat * size ≤ isizeMax) :
    (pollDeserialize ctx (sizing r size vlq) b).outcome = .panicked capacityOverflow := by
  simp only [sizing, new, pollDeserialize, Polled.andThen_ok h, usizeTryFrom,
    UInt64.ofBitVec_toBitVec, hl]
  rfl

end VecDeserialize

namespace StringDeserialize

variable {vlq : BitBuf.AsyncReadVlq B} {b : B} {len : UInt64}

def sizing (vlq : BitBuf.AsyncReadVlq B) : StringDeserialize B :=
  { new with vlq }

theorem sizing_starved (h : (BitBuf.pollVlq vlq b).outcome = .insufficient) :
    (sizing vlq).pollDeserialize b =
      ⟨.insufficient, sizing (BitBuf.pollVlq vlq b).state, (BitBuf.pollVlq vlq b).buf⟩ := by
  simp only [sizing, new, pollDeserialize, Polled.andThen_insufficient h]

theorem sizing_panics (h : (BitBuf.pollVlq vlq b).outcome = .ready (.ok len))
    (hl : ¬len.toNat * 1 ≤ isizeMax) :
    ((sizing vlq).pollDeserialize b).outcome = .panicked capacityOverflow := by
  rw [Nat.mul_one] at hl
  simp only [sizing, new, pollDeserialize, Polled.andThen_ok h, usizeTryFrom,
    UInt64.ofBitVec_toBitVec, hl, if_false]

variable [LawfulBitBuf B]

theorem sizing_calm (h : (BitBuf.pollVlq vlq b).outcome = .ready (.ok len))
    (hl : len.toNat * 1 ≤ isizeMax) :
    Calm (fun s => ∃ q, Reads False s q ∧ q.IsSafe) (fun _ _ => True)
      ((sizing vlq).pollDeserialize b) := by
  rw [Nat.mul_one] at hl
  simp only [sizing, new, pollDeserialize, Polled.andThen_ok h, usizeTryFrom,
    UInt64.ofBitVec_toBitVec, hl, if_true]
  apply (pollReading_follows (BitBuf.fill_decodes _) _).calm
  exact ((fillParser_isSafe _ _).mapErr _).bind fun _ => Parser.lift_isSafe _

theorem isDecoding :
    IsDecoding (B := B) False Drained (fun (_ : Ctx) => pollDeserialize) (Reads False) :=
  fun _ _ _ b h => pollDeserialize_follows h b

end StringDeserialize

variable [LawfulBitBuf B]

-- The length with which `bits` starts, if all of it is there, is that of a list that can be allocated.
def Holdable (B : Type) [BitBuf B] [LawfulBitBuf B] (size : Nat) (bits : List Bool) : Prop :=
  ∀ w len, w <+: bits → (LawfulBitBuf.vlqParser B).Halts w (.finished (.ok len)) →
    len.toNat * size ≤ isizeMax

theorem vlq_calmRun_iff {S ε α : Type} {poll : Ctx → S → B → Polled S B (Except ε α)}
    {start : BitBuf.AsyncReadVlq B → S} {size : Nat} {R : S → Prop}
    (hstarved : ∀ ctx v b, (BitBuf.pollVlq v b).outcome = .insufficient → poll ctx (start v) b =
      ⟨.insufficient, start (BitBuf.pollVlq v b).state, (BitBuf.pollVlq v b).buf⟩)
    (hfit : ∀ ctx v b len, (BitBuf.pollVlq v b).outcome = .ready (.ok len) →
      len.toNat * size ≤ isizeMax → Calm R (fun _ _ => True) (poll ctx (start v) b))
    (hr : ∀ s, R s → IsCalm poll s)
    (hover : ∀ ctx v b len, (BitBuf.pollVlq v b).outcome = .ready (.ok len) →
      ¬len.toNat * size ≤ isizeMax →
        (poll ctx (start v) b).outcome = .panicked capacityOverflow)
    (hsafe : (LawfulBitBuf.vlqParser B).IsSafe) {v : BitBuf.AsyncReadVlq B} {w : List Bool}
    (hw : ∀ u len, u <+: w → ¬(LawfulBitBuf.vlqParser B).Halts u (.finished (.ok len)))
    (hd : Decodes False Drained (fun (_ : Unit) => BitBuf.pollVlq) v
      ((LawfulBitBuf.vlqParser B).after w)) (run : List (Ctx × B)) :
    CalmRun poll (start v) run ↔ Holdable B size (w ++ runBits run) := by
  induction run generalizing v w
  case nil =>
    refine iff_of_true trivial fun u len hu hh => ?_
    rw [runBits, List.flatMap_nil, List.append_nil] at hu
    exact absurd hh (hw u len hu)
  case cons step run hi =>
    obtain ⟨ctx, b⟩ := step
    obtain ⟨u, hu, hf⟩ := hd.follows () b
    have hb : runBits ((ctx, b) :: run) = unread b ++ runBits run := rfl
    cases hx : (BitBuf.pollVlq v b).outcome
    case pending      => simp only [hx, false_and] at hf
    case panicked m   =>
      simp only [hx] at hf
      exact absurd (Parser.Halts.after.mp hf []) (hsafe _ m [])
    case insufficient =>
      simp only [hx] at hf
      obtain ⟨hs, hm, hd⟩ := hf
      have hub : unread b = u := by simpa [show unread _ = [] from hs] using hu.unread_eq
      have hx := hstarved ctx v b hx
      rw [Parser.after_after] at hd
      rw [hb, hub, ← List.append_assoc, ← hi ?_ hd, CalmRun.cons_iff (hx ▸ .inr rfl), hx]
      -- The length is not complete with these bits either.
      rintro u' len ⟨t, ht⟩ hh
      have := hh t
      rw [ht] at this
      cases (hub ▸ hm : LawfulBitBuf.vlqParser B (w ++ u) = .more).symm.trans this
    case ready res    =>
      cases res
      case error e => exact e.elim
      case ok len  =>
        simp only [hx] at hf
        obtain ⟨_, rfl, hh⟩ := hf
        have hh := Parser.Halts.after.mp hh
        by_cases hl : len.toNat * size ≤ isizeMax
        case pos =>
          refine iff_of_true (CalmRun.of_calm (hfit ctx v b len hx hl) hr run) ?_
          rintro u' len' ⟨t, ht⟩ hh'
          have ht : u' ++ t = w ++ u ++ (unread (BitBuf.pollVlq v b).buf ++ runBits run) := by
            rw [ht, hb, hu.unread_eq]
            simp
          obtain ⟨he, _⟩ := hh'.eq_of_append hh ht
          cases he
          exact hl
        case neg =>
          refine iff_of_false ?_ fun h => hl (h (w ++ u) len ?_ hh)
          · exact fun h => h.1 capacityOverflow (hover ctx v b len hx hl)
          · rw [hb, hu.unread_eq, ← List.append_assoc, ← List.append_assoc]
            exact (List.prefix_append _ _).trans (List.prefix_append _ _)

-- No poll of a run panics, and a length that cannot be allocated is reported as `tooLong`.
def MinCodecRead.Robust (r : MinCodecRead Ctx B T) (tooLong : r.Error) (size : Nat)
    (run : List (Ctx × B)) : Prop :=
  CalmRun r.pollDeserialize r.deserialize run ∧
    (¬Holdable B size (runBits run) →
      EndsWith r.pollDeserialize (.ready (.error tooLong)) r.deserialize run)

theorem MinCodecRead.robust_iff {r : MinCodecRead Ctx B T} {tooLong : r.Error} {size : Nat}
    {run : List (Ctx × B)}
    (h : CalmRun r.pollDeserialize r.deserialize run ↔ Holdable B size (runBits run)) :
    r.Robust tooLong size run ↔ Holdable B size (runBits run) :=
  ⟨fun hr => h.mp hr.1, fun hh => ⟨h.mpr hh, absurd hh⟩⟩

-- A run of the deserializer of `String` or of `Vec` does what it should if and only if it is not
-- delivered a length of more than `isize::MAX` bytes.
theorem lists_robust_iff (hsafe : (LawfulBitBuf.vlqParser B).IsSafe)
    (hall : ∀ len, ∃ w, (LawfulBitBuf.vlqParser B).Halts w (.finished (.ok len)))
    (run : List (Ctx × B)) :
    (MinCodecRead.Robust stringRead .tooLong 1 run ↔ Holdable B 1 (runBits run)) ∧
    ∀ {T} {r : MinCodecRead Ctx B T} size, r.IsCalm →
      (MinCodecRead.Robust (vecRead r size) .tooLong size run ↔
        Holdable B size (runBits run)) := by
  -- No length is complete before the first bit.
  have hw : ∀ u len, u <+: [] → ¬(LawfulBitBuf.vlqParser B).Halts u (.finished (.ok len)) := by
    intro u len hu hh
    obtain rfl := List.prefix_nil.mp hu
    have ⟨w₀, h₀⟩ := hall 0
    have ⟨w₁, h₁⟩ := hall 1
    have ⟨he₀, _⟩ := hh.unique h₀ rfl
    have ⟨he₁, _⟩ := hh.unique h₁ rfl
    cases he₀.symm.trans he₁
  constructor
  case left =>
    apply MinCodecRead.robust_iff
    exact vlq_calmRun_iff (fun _ _ _ => StringDeserialize.sizing_starved)
      (fun _ _ _ _ => StringDeserialize.sizing_calm)
      (fun _ ⟨_, h, hq⟩ => StringDeserialize.isDecoding.isCalm h hq) (fun _ _ _ _ => StringDeserialize.sizing_panics)
      hsafe hw BitBuf.vlq_decodes run
  case right =>
    intro T r size hr
    apply MinCodecRead.robust_iff
    exact vlq_calmRun_iff (fun _ _ _ => VecDeserialize.sizing_starved)
      (fun _ _ _ _ => VecDeserialize.sizing_calm hr)
      (fun _ => VecDeserialize.Running.isCalm hr) (fun _ _ _ _ => VecDeserialize.sizing_panics) hsafe hw
      BitBuf.vlq_decodes run

section

def sizeRun (len : UInt64) : List (Unit × Slice) :=
  [((), ⟨Bits.ofBytes (Slice.vlq len) ++ [true], 0⟩)]

theorem holdable_sizeRun {len : UInt64} {size : Nat} (h : len.toNat * size ≤ isizeMax) :
    Holdable Slice size (runBits (sizeRun len)) := by
  rintro w len' ⟨t, ht⟩ hh
  have ht : w ++ t = Bits.ofBytes (Slice.vlq len) ++ [true] := by
    rw [ht]
    exact List.append_nil _
  have ⟨he, _⟩ := hh.eq_of_append (Slice.vlqParser_halts len) ht
  cases he
  exact h

theorem lists_robust_iff_two :
    (vecRead (boolRead : MinCodecRead Unit Slice _) 1).Robust .tooLong 1 (sizeRun 2) := by
  have hd : (boolRead : MinCodecRead Unit Slice _).Decodes False .bit := boolRead_decodes
  have hr : (boolRead : MinCodecRead Unit Slice _).IsCalm := Decodes.isCalm hd Parser.bit_isSafe
  have h := @lists_robust_iff Unit Slice _ _ Slice.vlqParser_isSafe
    (fun len => ⟨_, Slice.vlqParser_halts len⟩) (sizeRun 2)
  exact (h.2 1 hr).mpr (holdable_sizeRun (by decide))

theorem lists_panic :
    ¬MinCodecRead.Robust stringRead .tooLong 1 (sizeRun 0x8000000000000000) ∧
    ¬MinCodecRead.Robust (vecRead boolRead 1) .tooLong 1 (sizeRun 0x8000000000000000) :=
  ⟨fun h => h.1.1 capacityOverflow rfl, fun h => h.1.1 capacityOverflow rfl⟩

end

end Mincodec
