import Mincodec.Format
import Mincodec.Stream.Canonical
import Mincodec.Theorems.Capacity
import Mincodec.Theorems.Delivery

-- The types that an `AsyncReader` can be made to panic with.
namespace Mincodec

open Stream BitSource

variable {Ctx B B' T U : Type}

-- The condition under which some bits make the deserializer of a type panic.
inductive Exposed [BitBuf B] : {T : Type} → MinCodecRead Ctx B T → Prop → Prop
  | bool : Exposed boolRead False
  | number (n : Nat) : Exposed (numberRead n) False
  | char : Exposed charRead False
  | usize : Exposed usizeRead False
  | isize : Exposed isizeRead False
  | unit {T : Type} (unit : T) : Exposed (unitRead unit) False
  | empty (T : Type) : (T → False) → Exposed (emptyRead T) False
  | string : Exposed stringRead True
  | box {T : Type} {r : MinCodecRead Ctx B T} {c : Prop} : Exposed r c → Exposed (boxRead r) c
  | option {T : Type} {r : MinCodecRead Ctx B T} {c : Prop} : Exposed r c →
    Exposed (Optional.optionRead r) c
  | result {T U : Type} {r : MinCodecRead Ctx B T} {r' : MinCodecRead Ctx B U} {c c' : Prop} :
    Exposed r c → Exposed r' c' → Exposed (resultRead r r') (c ∨ c')
  | vec {T : Type} {r : MinCodecRead Ctx B T} {c : Prop} (size : Nat) : Exposed r c →
    Exposed (vecRead r size) (0 < size ∨ c)
  | array {T : Type} {r : MinCodecRead Ctx B T} {c : Prop} {n : Nat} : 0 < n → Exposed r c →
    Exposed (arrayRead r n) c
  | tuple1 {T : Fin 1 → Type} {r : MinCodecRead Ctx B (T 0)} {c : Prop} : Exposed r c →
    Exposed (tuple1Read r) c
  | tuple {n : Nat} {T : Fin n → Type} {rs : (i : Fin n) → MinCodecRead Ctx B (T i)}
    {cs : Fin n → Prop} : n ≤ 16 → (∀ i, Exposed (rs i) (cs i)) →
    Exposed (tupleRead rs) (∃ i, cs i ∧ ∀ j < i, Nonempty (T j))
  | derive {S : Shape} {rs : S.Reads Ctx B} {cs : (i : Fin S.variants) → Fin (S.arity i) → Prop}
    (h : 0 < S.variants) : S.Compiles → (∀ i j, Exposed (rs i j) (cs i j)) →
    Exposed (deriveRead rs h) ((∀ k, S.variants ≠ 2 ^ k) ∨
      ∃ i j, cs i j ∧ ∀ k < j, Nonempty (S.field i k))
  | deriveEmpty {S : Shape} : S.variants = 0 → Exposed (deriveEmptyRead S) False

def Harmless [BitBuf B] (r : MinCodecRead Ctx B U) : Prop :=
  ∃ c, Exposed r c ∧ ¬c

section

variable {n : Nat} {F ε : Fin n → Type} {ps : (i : Fin n) → Parser (ε i) (F i)}

theorem fieldsParserFrom_panics {i : Fin n} {u : List Bool} {msg : String}
    (hi : (ps i).Halts u (.panicked msg))
    (ha : ∀ j < i, ∃ u v, (ps j).Halts u (.finished (.ok v))) (k : Nat) (hk : k ≤ i.val)
    (vs : (j : Fin n) → j.val < k → F j) :
    ∃ u, (fieldsParserFrom ps k vs).Halts u (.panicked msg) := by
  fun_induction fieldsParserFrom ps k vs
  case case2 k vs hn    => exact absurd (hk.trans_lt i.isLt) hn
  case case1 k vs hn ih =>
    by_cases h : k = i.val
    case pos =>
      subst h
      exact ⟨u, hi.mapErr_panicked.bind_panicked⟩
    case neg =>
      have ⟨w, v, hv⟩ := ha ⟨k, hn⟩ (Fin.lt_def.mpr (by simp only; omega))
      have ⟨t, ht⟩ := ih v (by omega)
      exact ⟨w ++ t, hv.mapErr.bind ht⟩

theorem fieldsParserFrom_accepts_some (ha : ∀ i, ∃ u v, (ps i).Halts u (.finished (.ok v))) (k : Nat)
    (vs : (j : Fin n) → j.val < k → F j) :
    ∃ u v, (fieldsParserFrom ps k vs).Halts u (.finished (.ok v)) := by
  fun_induction fieldsParserFrom ps k vs
  case case2 k vs hn    => exact ⟨[], _, Parser.pure_halts _⟩
  case case1 k vs hn ih =>
    have ⟨w, v, hv⟩ := ha ⟨k, hn⟩
    have ⟨t, v', ht⟩ := ih v
    exact ⟨w ++ t, v', hv.mapErr.bind ht⟩

theorem fieldsParserFrom_isSafe (k : Nat) (vs : (j : Fin n) → j.val < k → F j)
    (h : ∀ i, k ≤ i.val → (ps i).IsSafe ∨ ∃ j < i, k ≤ j.val ∧ ¬Nonempty (F j)) :
    (fieldsParserFrom ps k vs).IsSafe := by
  fun_induction fieldsParserFrom ps k vs
  case case2 k vs hn    => exact Parser.pure_isSafe _
  case case1 k vs hn ih =>
    have hk : (ps ⟨k, hn⟩).IsSafe := by
      cases h ⟨k, hn⟩ (le_refl k)
      case inl h => exact h
      case inr h =>
        have ⟨j, hj, hle, _⟩ := h
        exact absurd (Fin.lt_def.mp hj) (Nat.not_lt.mpr hle)
    apply (hk.mapErr _).bind
    intro v
    refine ih v fun i hi => ?_
    cases h i (by omega)
    case inl h => exact .inl h
    case inr h =>
      have ⟨j, hj, hle, hne⟩ := h
      refine .inr ⟨j, hj, Nat.lt_of_le_of_ne hle ?_, hne⟩
      rintro rfl
      exact hne ⟨v⟩

end

section

variable {S : Shape} {ε : (i : Fin S.variants) → Fin (S.arity i) → Type}
  {ps : ∀ i j, Parser (ε i j) (S.field i j)} {h : 0 < S.variants}

namespace Shape

theorem parser_halts_variant {i : Fin S.variants} {u : List Bool}
    {t : Ending (DeriveError ε) S.Value} (hu : (variantParser ps i).Halts u t) :
    ∃ w, (S.parser ps h).Halts w t := by
  refine ⟨S.determinantBits i ++ u, Parser.Halts.after.mp ?_⟩
  rw [parser_after]
  exact hu

theorem parser_panics {i : Fin S.variants} {j : Fin (S.arity i)} {u : List Bool} {msg : String}
    (hu : (ps i j).Halts u (.panicked msg))
    (ha : ∀ k < j, ∃ u v, (ps i k).Halts u (.finished (.ok v))) :
    ∃ w, (S.parser ps h).Halts w (.panicked msg) := by
  have ⟨w, hw⟩ := fieldsParserFrom_panics hu ha 0 (Nat.zero_le _)
    fun _ hi => (Nat.not_lt_zero _ hi).elim
  exact parser_halts_variant (hw.mapErr_panicked.map_panicked _)

theorem parser_panics_invalid (hk : ∀ k, S.variants ≠ 2 ^ k) :
    ∃ w, (S.parser ps h).Halts w (.panicked "invalid determinant") := by
  have h₁ : 1 < S.variants := Nat.lt_of_le_of_ne h (hk 0).symm
  have hb : S.variants < 2 ^ S.bits :=
    Nat.lt_of_le_of_ne (Nat.le_pow_clog (by decide) _) (hk S.bits)
  have hw := Parser.take_halts (ε := DeriveError ε) (Bits.lsb S.bits S.variants)
  rw [Bits.length_lsb] at hw
  refine ⟨Bits.lsb S.bits S.variants ++ [], ?_⟩
  unfold parser
  rw [if_pos h₁]
  apply hw.bind
  unfold chosenParser
  rw [Bits.ofLsb_lsb hb, dif_neg (lt_irrefl _)]
  exact Parser.abort_halts _

theorem parser_accepts {i : Fin S.variants}
    (ha : ∀ j, ∃ u v, (ps i j).Halts u (.finished (.ok v))) :
    ∃ w v, (S.parser ps h).Halts w (.finished (.ok v)) := by
  have ⟨u, fields, hu⟩ := fieldsParserFrom_accepts_some ha 0
    fun _ hi => (Nat.not_lt_zero _ hi).elim
  have hv : (variantParser ps i).Halts u (.finished (.ok ⟨i, fields⟩)) := hu.mapErr.map
  have ⟨w, hw⟩ := parser_halts_variant (h := h) hv
  exact ⟨w, _, hw⟩

theorem parser_isSafe {k : Nat} (hk : S.variants = 2 ^ k)
    (hs : ∀ i j, (ps i j).IsSafe ∨ ∃ k < j, ¬Nonempty (S.field i k)) : (S.parser ps h).IsSafe := by
  have hv (i : Fin S.variants) : (variantParser ps i).IsSafe := by
    refine ((fieldsParserFrom_isSafe 0 _ fun j _ => ?_).mapErr _).map _
    exact (hs i j).imp id fun ⟨k, hk, hne⟩ => ⟨k, hk, Nat.zero_le _, hne⟩
  unfold parser
  split
  case isFalse => exact hv _
  case isTrue  =>
    apply (Parser.take_isSafe S.bits).bind_of_accepts
    intro bs w rest hw
    have hd := Bits.ofLsb_lt w
    rw [(Parser.accepts_take.mp hw).1, bits, hk, Nat.clog_pow 2 k (by decide), ← hk] at hd
    unfold chosenParser
    rw [dif_pos hd]
    exact hv _

end Shape

end

-- A parser that some bits make panic if and only if `c` holds, and that accepts some bits if there are
-- values.
structure Exposes [BitBuf B] [LawfulBitBuf B] (r : MinCodecRead Ctx B T) (c : Prop) (p : Parser r.Error T) :
    Prop where
  decodes : r.Decodes False p
  panics  : c → ∃ u msg, p.Halts u (.panicked msg)
  safe    : ¬c → p.IsSafe
  accepts : Nonempty T → ∃ u v, p.Halts u (.finished (.ok v))

namespace Exposes

section

variable [BitBuf B] [LawfulBitBuf B] {r : MinCodecRead Ctx B T} {p : Parser r.Error T} {c : Prop}

theorem of_safe (hr : r.Decodes False p) (hs : p.IsSafe) {u : List Bool} {v : T}
    (ha : p.Halts u (.finished (.ok v))) : Exposes r False p where
  decodes  := hr
  panics   := False.elim
  safe _   := hs
  accepts _ := ⟨u, v, ha⟩

theorem box (h : Exposes r c p) : Exposes (boxRead r) c p :=
  { h with decodes := boxRead_decodes h.decodes }

theorem map {E : Type} {f : T → Except E U} (h : Exposes r c p) (hf : ∀ x, ∃ u, f x = .ok u)
    (hu : U → Nonempty T) : Exposes (mapRead r f) c
      ((p.mapErr .deserialize).bind fun item => .lift ((f item).mapError .map)) where
  decodes   := mapRead_decodes h.decodes f
  panics hc := by
    have ⟨u, msg, hu⟩ := h.panics hc
    exact ⟨u, msg, hu.mapErr_panicked.bind_panicked⟩
  safe hc   := ((h.safe hc).mapErr _).bind fun x => Parser.lift_isSafe _
  accepts v := by
    have ⟨v⟩ := v
    have ⟨w, x, hw⟩ := h.accepts (hu v)
    have ⟨u, hx⟩ := hf x
    refine ⟨w ++ [], u, hw.mapErr.bind ?_⟩
    rw [hx]
    exact Parser.pure_halts u

theorem number_map {n : Nat} {E : Type} {f : BitVec (8 * n) → Except E U} {x : BitVec (8 * n)} {u : U}
    (hx : f x = .ok u) :
    ∃ p, Exposes (mapRead (numberRead n : MinCodecRead Ctx B _) f) False p := by
  refine ⟨_, of_safe (u := numberBits x ++ []) (v := u) (mapRead_decodes (numberRead_decodes n) f) ?_ ?_⟩
  case refine_1 =>
    apply (((fillParser_isSafe _ _).map _).mapErr _).bind
    exact fun x => Parser.lift_isSafe _
  case refine_2 =>
    apply (numberParser_halts x).mapErr.bind
    rw [hx]
    exact Parser.pure_halts u

theorem option (h : Exposes r c p) : Exposes (Optional.optionRead r) c (Optional.optionParser p) where
  decodes   := Optional.optionRead_decodes h.decodes
  accepts _ := ⟨_, none, (Parser.bit_halts false).bind (Parser.pure_halts none)⟩
  panics hc := by
    have ⟨u, msg, hu⟩ := h.panics hc
    exact ⟨_, msg, (Parser.bit_halts true).bind (hu.map_panicked some)⟩
  safe hc   := by
    apply Parser.bit_isSafe.bind
    intro isSome
    cases isSome
    case true  => exact (h.safe hc).map some
    case false => exact Parser.pure_isSafe none

theorem result {r' : MinCodecRead Ctx B U} {p' : Parser r'.Error U} {c' : Prop}
    (h : Exposes r c p) (h' : Exposes r' c' p') :
    Exposes (resultRead r r') (c ∨ c') (resultParser p p') where
  decodes    := resultRead_decodes h.decodes h'.decodes
  panics hc  := by
    cases hc
    case inl hc =>
      have ⟨u, msg, hu⟩ := h.panics hc
      exact ⟨_, msg, (Parser.bit_halts true).bind (hu.mapErr_panicked.map_panicked _)⟩
    case inr hc =>
      have ⟨u, msg, hu⟩ := h'.panics hc
      exact ⟨_, msg, (Parser.bit_halts false).bind (hu.mapErr_panicked.map_panicked _)⟩
  safe hc    := by
    have ⟨hc, hc'⟩ := not_or.mp hc
    apply Parser.bit_isSafe.bind
    intro isT
    cases isT
    case true  => exact ((h.safe hc).mapErr _).map _
    case false => exact ((h'.safe hc').mapErr _).map _
  accepts hn := by
    have ⟨v⟩ := hn
    cases v
    case ok v    =>
      have ⟨u, v, hu⟩ := h.accepts ⟨v⟩
      exact ⟨_, _, (Parser.bit_halts true).bind hu.mapErr.map⟩
    case error v =>
      have ⟨u, v, hu⟩ := h'.accepts ⟨v⟩
      exact ⟨_, _, (Parser.bit_halts false).bind hu.mapErr.map⟩

theorem array (h : Exposes r c p) {n : Nat} (hn : 0 < n) :
    Exposes (arrayRead r n) c (arrayParser p n) where
  decodes    := arrayRead_decodes h.decodes hn
  safe hc    := (h.safe hc).replicate n
  panics hc  := by
    have ⟨u, msg, hu⟩ := h.panics hc
    obtain ⟨k, rfl⟩ := Nat.exists_eq_add_of_lt hn
    exact ⟨u, msg, hu.bind_panicked⟩
  accepts hv := by
    have ⟨v⟩ := hv
    have ⟨u, v, hu⟩ := h.accepts ⟨v.get ⟨0, hn⟩⟩
    exact ⟨_, _, hu.replicate n⟩

theorem tuple {n : Nat} {F : Fin n → Type} {rs : (i : Fin n) → MinCodecRead Ctx B (F i)}
    {ps : (i : Fin n) → Parser (rs i).Error (F i)} {cs : Fin n → Prop}
    (h : ∀ i, Exposes (rs i) (cs i) (ps i)) (hn : n ≤ 16) :
    Exposes (tupleRead rs) (∃ i, cs i ∧ ∀ j < i, Nonempty (F j)) (fieldsParser ps) where
  decodes    := tupleRead_decodes (fun i => (h i).decodes) (by omega)
  panics hc  := by
    obtain ⟨i, hc, hj⟩ := hc
    obtain ⟨u, msg, hu⟩ := (h i).panics hc
    obtain ⟨w, hw⟩ := fieldsParserFrom_panics hu (fun j hlt => (h j).accepts (hj j hlt)) 0
      (Nat.zero_le _) fun _ hi => (Nat.not_lt_zero _ hi).elim
    exact ⟨w, msg, hw⟩
  safe hc    := by
    apply fieldsParserFrom_isSafe
    intro i _
    by_cases hi : cs i
    case neg => exact .inl ((h i).safe hi)
    case pos =>
      push Not at hc
      obtain ⟨j, hj, hne⟩ := hc i hi
      exact .inr ⟨j, hj, Nat.zero_le _, not_nonempty_iff.mpr hne⟩
  accepts hv := by
    obtain ⟨v⟩ := hv
    exact fieldsParserFrom_accepts_some (fun i => (h i).accepts ⟨v i⟩) 0 _

theorem derive {S : Shape} {rs : S.Reads Ctx B} {ps : ∀ i j, Parser (rs i j).Error (S.field i j)}
    {cs : (i : Fin S.variants) → Fin (S.arity i) → Prop} (h : ∀ i j, Exposes (rs i j) (cs i j) (ps i j))
    (h₀ : 0 < S.variants) (hc : S.Compiles) :
    Exposes (deriveRead rs h₀) ((∀ k, S.variants ≠ 2 ^ k) ∨
      ∃ i j, cs i j ∧ ∀ k < j, Nonempty (S.field i k)) (S.parser ps h₀) where
  decodes    := deriveRead_decodes hc (fun i j => (h i j).decodes) h₀
  panics hc  := by
    cases hc
    case inl hk => exact (Shape.parser_panics_invalid hk).imp fun _ hw => ⟨_, hw⟩
    case inr hk =>
      obtain ⟨i, j, hc, hn⟩ := hk
      obtain ⟨_, msg, hu⟩ := (h i j).panics hc
      obtain ⟨w, hw⟩ := Shape.parser_panics (h := h₀) hu fun k hlt => (h i k).accepts (hn k hlt)
      exact ⟨w, msg, hw⟩
  safe hc    := by
    obtain ⟨hk, hf⟩ := not_or.mp hc
    push Not at hk hf
    obtain ⟨k, hk⟩ := hk
    apply Shape.parser_isSafe hk
    intro i j
    by_cases hj : cs i j
    case neg => exact .inl ((h i j).safe hj)
    case pos =>
      obtain ⟨k, hk, hne⟩ := hf i j hj
      exact .inr ⟨k, hk, not_nonempty_iff.mpr hne⟩
  accepts hv := by
    obtain ⟨v⟩ := hv
    exact Shape.parser_accepts fun j => (h v.variant j).accepts ⟨v.fields j⟩

section

variable (hsafe : (LawfulBitBuf.vlqParser B).IsSafe)
  (hall : ∀ len, ∃ w, (LawfulBitBuf.vlqParser B).Halts w (.finished (.ok len)))

include hsafe hall

omit hsafe in
theorem string : Exposes (stringRead : MinCodecRead Ctx B _) True
    (stringParser (LawfulBitBuf.vlqParser B)) where
  decodes   := stringRead_decodes
  safe hc   := absurd trivial hc
  panics _  := by
    have ⟨w, hw⟩ := hall 0x8000000000000000
    exact ⟨_, capacityOverflow, hw.mapErr.bind (Parser.abort_halts _)⟩
  accepts _ := by
    have ⟨w, hw⟩ := hall 0
    exact ⟨_, _, hw.mapErr.bind (bytesParser_halts ⟨"", by decide⟩)⟩

theorem vec (h : Exposes r c p) (size : Nat) : Exposes (vecRead r size) (0 < size ∨ c)
    (vecParser (LawfulBitBuf.vlqParser B) p size) where
  decodes   := vecRead_decodes h.decodes size
  panics hc := by
    by_cases hs : 0 < size
    case pos =>
      have ⟨w, hw⟩ := hall 0xffffffffffffffff
      refine ⟨_, capacityOverflow, hw.mapErr.bind (w := []) ?_⟩
      unfold vecItemsParser
      rw [dif_neg]
      case hnc =>
        have : 0xffffffffffffffff * 1 ≤ 0xffffffffffffffff * size := Nat.mul_le_mul_left _ hs
        show ¬0xffffffffffffffff * size ≤ 2 ^ 63 - 1
        omega
      exact Parser.abort_halts _
    case neg =>
      have ⟨w, hw⟩ := hall 1
      have ⟨u, msg, hu⟩ := h.panics (hc.resolve_left hs)
      refine ⟨_, msg, hw.mapErr.bind (w := u) ?_⟩
      unfold vecItemsParser
      rw [dif_pos]
      case hc =>
        obtain rfl : size = 0 := by omega
        exact Nat.zero_le _
      exact (Parser.Halts.bind_panicked hu.mapErr_panicked).map_panicked _
  safe hc   := by
    have ⟨hs, hc⟩ := not_or.mp hc
    apply (hsafe.mapErr _).bind
    intro len
    unfold vecItemsParser
    rw [dif_pos]
    case hc =>
      obtain rfl : size = 0 := by omega
      exact Nat.zero_le _
    exact (((h.safe hc).mapErr _).replicate _).map _
  accepts _ := by
    have ⟨w, hw⟩ := hall 0
    refine ⟨_, ⟨[], Nat.zero_lt_succ _, ?_⟩, hw.mapErr.bind (w := []) ?_⟩
    case refine_1 => simp
    case refine_2 =>
      unfold vecItemsParser
      rw [dif_pos (by simp)]
      exact Parser.pure_halts _

end

end

end Exposes

section

variable [BitBuf B] [LawfulBitBuf B] {r : MinCodecRead Ctx B T} {c : Prop}

theorem Exposed.exists_exposes (h : Exposed r c) (hsafe : (LawfulBitBuf.vlqParser B).IsSafe)
    (hall : ∀ len, ∃ w, (LawfulBitBuf.vlqParser B).Halts w (.finished (.ok len))) :
    ∃ p, Exposes r c p := by
  induction h
  case bool                   =>
    exact ⟨_, .of_safe boolRead_decodes Parser.bit_isSafe (Parser.bit_halts true)⟩
  case number n               =>
    exact ⟨_, .of_safe (numberRead_decodes n) ((fillParser_isSafe _ _).map _) (numberParser_halts 0)⟩
  case char                   => exact Exposes.number_map (charTryFrom_charAs 'a')
  case usize                  => exact Exposes.number_map (usizeTryFrom_usizeAs 0)
  case isize                  => exact Exposes.number_map (x := 0) (u := 0) rfl
  case unit u                 =>
    exact ⟨_, .of_safe (unitRead_decodes u) (Parser.pure_isSafe u) (Parser.pure_halts u)⟩
  case empty T ht             =>
    exact ⟨_, emptyRead_decodes T, False.elim, fun _ => Parser.fail_isSafe _, fun ⟨v⟩ => (ht v).elim⟩
  case string                 => exact ⟨_, .string hall⟩
  case box hi                 => exact hi.imp fun _ h => h.box
  case option hi              => exact ⟨_, hi.choose_spec.option⟩
  case result hi hi'          => exact ⟨_, hi.choose_spec.result hi'.choose_spec⟩
  case vec size _ hi          => exact ⟨_, hi.choose_spec.vec hsafe hall size⟩
  case array hn _ hi          => exact ⟨_, hi.choose_spec.array hn⟩
  case tuple1 r c _ hi        =>
    exact ⟨_, hi.choose_spec.map (fun x => ⟨_, rfl⟩) fun v => ⟨v 0⟩⟩
  case tuple hn _ hi          => exact ⟨_, .tuple (fun i => (hi i).choose_spec) hn⟩
  case derive h₀ hc _ hi      => exact ⟨_, .derive (fun i j => (hi i j).choose_spec) h₀ hc⟩
  case deriveEmpty S hs       =>
    exact ⟨_, emptyRead_decodes _, False.elim, fun _ => Parser.fail_isSafe _,
      fun ⟨v⟩ => (Nat.not_lt_zero _ (v.variant.isLt.trans_eq hs)).elim⟩

end

namespace Reading

section

variable [BitSource B]

theorem Chain.halts_of_singleton {item : Item Ctx B} {start : List Bool}
    (h : Chain False Drained [item] start) : ∃ u rest, start = u ++ rest ∧
      ∀ p, Decodes False Drained item.codec.pollDeserialize item.codec.deserialize p →
        p.Halts u (.finished item.result) := by
  generalize hi : [item] = items at h
  cases h
  case nil => cases hi
  case snoc items last start u skip hc _ hu _ _ =>
    obtain ⟨rfl, rfl⟩ : items = [] ∧ last = item := by
      obtain ⟨hl, hr⟩ := List.append_inj' (show [] ++ [item] = items ++ [last] from hi) rfl
      exact ⟨hl.symm, (List.head_eq_of_cons_eq hr).symm⟩
    generalize hi : [] = items at hc
    cases hc
    case nil  => exact ⟨u, skip, rfl, hu⟩
    case snoc => simp at hi

def Doomed (u : List Bool) (this : Reading Ctx B) : Prop :=
  this.items = [] ∧ ∃ p msg, Decodes False Drained this.codec.pollDeserialize this.codec.deserialize p ∧
    p.Halts u (.panicked msg)

end

variable [BitSlice B] [LawfulBitSlice B] [BitSliceMut B'] [LawfulBitSliceMut B']
variable {this : Reading Ctx B} {u : List Bool} {stream : List UInt8}

section

variable (hi : Inv False Drained this) (hd : this.Doomed u) (hu : u <+: Bits.ofBytes stream)
  (hs : this.delivered <+: stream)

include hi hd hu hs

theorem Doomed.after_deserialize (h : this.reader.state = .deserialize) {m : ReadMoment Ctx E}
    (hv : this.Valid m) (hp : ¬(this.turn B' m).1.Panics) :
    (this.after B' m).reader.state = .reading ∧ (this.after B' m).delivered = this.delivered ∧
      (this.after B' m).Doomed u := by
  obtain ⟨hsame, hnext⟩ := hi.after_deserialize h hp
  cases hnext
  case inl hnext => exact ⟨hnext.1, hsame, hnext.2.trans hd.1, hd.2⟩
  case inr hnext =>
    obtain ⟨hitems, p, msg, hd, hh⟩ := hd
    have hi' := hi.turn_inv hv (hi.quiet m.ctx) hp
    have hlast : ∃ result, (this.after B' m).items = [⟨this.codec, result⟩] := by
      rw [after_items, hitems]
      cases returned_eq B' this m
      case inl hr =>
        have hone := hnext.2
        rw [after_items, hr, List.append_nil] at hone
        omega
      case inr hr => exact hr.imp fun _ hr => by rw [hr, List.nil_append]
    obtain ⟨result, hlast⟩ := hlast
    obtain ⟨start, w, hw, hc, _⟩ := hi'.underway
    rw [hlast] at hc
    obtain ⟨u', rest, hstart, hu'⟩ := hc.halts_of_singleton
    have hb := hi'.bits_eq
    obtain ⟨t, ht⟩ := hu
    obtain ⟨more, hmore⟩ := hs
    rw [hw, hstart, hsame] at hb
    have hbits : u ++ t = u' ++ (rest ++ w ++ (this.after B' m).reader.rest ++ Bits.ofBytes more) := by
      rw [ht, ← hmore, Bits.ofBytes_append, hb]
      simp
    obtain ⟨he, _⟩ := hh.eq_of_append (hu' p hd) hbits
    cases he

theorem Doomed.length_lt (h : this.reader.state = .reading) :
    this.delivered.length < stream.length := by
  obtain ⟨hitems, p, msg, hd, hh⟩ := hd
  obtain ⟨start, w, hw, hc, hund⟩ := hi.underway
  by_contra hge
  obtain rfl := hs.eq_of_length_le (Nat.le_of_not_lt hge)
  simp only [h] at hund
  have hmore := (hund p hd).2 h
  generalize hn : this.items = items at hc
  cases hc
  case snoc => simp [hitems] at hn
  case nil  =>
    obtain ⟨t, ht⟩ := hu
    rw [hi.bits_eq, hw, List.nil_append] at ht
    rw [← ht, hh t] at hmore
    cases hmore

end

section

variable {Allowed Allowed' : {U : Type} → MinCodecRead Ctx B U → Prop}
variable {first : Reading Ctx B} {r : MinCodecRead Ctx B U}

omit [LawfulBitSliceMut B'] in
theorem Steps.mono {Ok : Reading Ctx B → ReadMoment Ctx E → Prop}
    (ha : ∀ {U} {s : MinCodecRead Ctx B U}, Allowed s → Allowed' s)
    (h : Steps B' Allowed Ok first this) : Steps B' Allowed' Ok first this := by
  induction h
  case refl       => exact .refl
  case tail hs hi =>
    apply hi.tail
    cases hs
    case turn hm hp    => exact .turn hm hp
    case reset hr      => exact .reset hr
    case resetAs hs hr => exact .resetAs (ha hs) hr

omit [LawfulBitSliceMut B'] in
theorem Steps.allowed {Ok : Reading Ctx B → ReadMoment Ctx E → Prop} (hr : Allowed r)
    (h : Steps B' Allowed Ok (.new r) this) : Allowed this.codec := by
  induction h
  case refl       => exact hr
  case tail hs hi =>
    cases hs
    case turn | reset  => exact hi
    case resetAs hs hr => exact hs

theorem Doomed.exists_panic (ha : ∀ {U} {s : MinCodecRead Ctx B U}, Allowed s → Resumable False Drained s)
    (hr : Resumable False Drained r) (h : Steps B' Allowed
      (Valid : Reading Ctx B → ReadMoment Ctx E → Prop) (.new r) this) (hd : this.Doomed u)
    (hu : u <+: Bits.ofBytes stream) (hs : this.delivered <+: stream)
    (hst : this.reader.state = .deserialize) (ctx : Ctx) :
    ∃ (next : Reading Ctx B) (m : ReadMoment Ctx E), Steps B' Allowed
      (Valid : Reading Ctx B → ReadMoment Ctx E → Prop) (.new r) next ∧ next.Valid m ∧
        next.reader.state ≠ .complete ∧ (next.turn B' m).1.Panics := by
  obtain ⟨p, hp⟩ := hr
  have inv {next : Reading Ctx B} (h : Steps B' Allowed
      (Valid : Reading Ctx B → ReadMoment Ctx E → Prop) (.new r) next) : Inv False Drained next :=
    (new_inv hp).steps_inv ha (fun hi hv => ⟨hv, hi.quiet _⟩) h
  generalize hn : stream.length - this.delivered.length = n
  induction n using Nat.strong_induction_on generalizing this
  case h n ih =>
    let m : ReadMoment Ctx E := ⟨ctx, .pending⟩
    have hv : this.Valid m := trivial
    by_cases hpan : (this.turn B' m).1.Panics
    case pos => exact ⟨this, m, h, hv, by simp [hst], hpan⟩
    case neg =>
      -- The deserializer waits for the next byte.
      obtain ⟨hst', hsame, hd'⟩ := hd.after_deserialize (inv h) hu hs hst hv hpan
      have h' := h.tail (.turn hv hpan)
      have hs' : (this.after B' m).delivered <+: stream := hsame ▸ hs
      have hlt := hd'.length_lt (inv h') hu hs' hst'
      obtain ⟨q, hq⟩ := exists_underway ⟨p, hp⟩ (Steps.mono ha h') (by simp [hst'])
      obtain ⟨more, hmore⟩ := hs'
      cases more
      case nil       => simp [← hmore] at hlt
      case cons x more =>
        let m' : ReadMoment Ctx E := ⟨ctx, .ready (.ok [x])⟩
        have hv' : (this.after B' m).Valid m' := by
          refine ⟨Nat.one_pos, fun n hn => ?_⟩
          rw [hq.offered_eq hst'] at hn
          cases hn
          show 1 ≤ asyncReaderBufSize
          decide
        by_cases hpan' : ((this.after B' m).turn B' m').1.Panics
        case pos => exact ⟨_, m', h', hv', by simp [hst'], hpan'⟩
        case neg =>
          obtain ⟨_, hdel, hst'', hitems⟩ := (inv h').after_reading B' hst' hv' rfl
          refine ih _ ?_ (h'.tail (.turn hv' hpan')) ⟨hitems.trans hd'.1, hd'.2⟩ ?_ hst'' rfl
          case refine_1 =>
            rw [hdel, List.length_append, List.length_singleton, ← hn, hsame]
            rw [hsame] at hlt
            omega
          case refine_2 =>
            rw [hdel]
            exact ⟨more, by simpa using hmore⟩

end

end Reading

section

variable [BitSlice B] [LawfulBitSlice B] [BitSliceMut B'] [LawfulBitSliceMut B']
variable {r : MinCodecRead Ctx B U} {c : Prop}

-- The bytes that a reader is given can make it panic if and only if the type that it reads is exposed,
-- if the types that it goes on with are not.
theorem asyncReader_panics_iff (h : Exposed r c) (hsafe : (LawfulBitBuf.vlqParser B).IsSafe)
    (hall : ∀ len, ∃ w, (LawfulBitBuf.vlqParser B).Halts w (.finished (.ok len))) (ctx : Ctx) :
    (∃ (this : Reading Ctx B) (m : ReadMoment Ctx E), Reading.Steps B' Harmless
      (Reading.Valid : Reading Ctx B → ReadMoment Ctx E → Prop) (.new r) this ∧ this.Valid m ∧
        this.reader.state ≠ .complete ∧ (this.turn B' m).1.Panics) ↔ c := by
  obtain ⟨p, hp⟩ := h.exists_exposes hsafe hall
  have ha {S : Type} {s : MinCodecRead Ctx B S} (hs : Harmless s) :
      ∃ p, s.Decodes False p ∧ p.IsSafe := by
    obtain ⟨c, hs, hc⟩ := hs
    obtain ⟨p, hp⟩ := hs.exists_exposes hsafe hall
    exact ⟨p, hp.decodes, hp.safe hc⟩
  have hr {S : Type} {s : MinCodecRead Ctx B S} (hs : Harmless s) :
      Reading.Resumable False Drained s := (ha hs).imp fun _ h => h.1
  constructor
  case mp  =>
    intro ⟨this, m, hsteps, hv, hst, hpan⟩
    by_contra hc
    have hi : Reading.Inv False Drained this :=
      (Reading.new_inv hp.decodes).steps_inv hr (fun hi hv => ⟨hv, hi.quiet _⟩) hsteps
    have hcodec : Harmless this.codec := Reading.Steps.allowed ⟨c, h, hc⟩ hsteps
    match hf : (this.turn B' m).1 with
    | .ret (.panicked t)                      => exact hi.turn_ne_panicked hst hv t hf
    | .unwound t                              =>
      have ⟨_, u, _, _, _, hh⟩ := hi.halts_of_unwound hv hf
      have ⟨q, hq, hsafe⟩ := ha hcodec
      exact hsafe _ _ _ (hh q hq [])
    | .next | .ret .pending | .ret (.ready v) =>
      rw [hf] at hpan
      exact hpan
  case mpr =>
    intro hc
    obtain ⟨u, msg, hu⟩ := hp.panics hc
    obtain ⟨stream, pad, _, hs⟩ := Bits.IsCut.exists u
    have hd : (Reading.new r).Doomed u := ⟨rfl, p, msg, hp.decodes, hu⟩
    exact hd.exists_panic hr ⟨p, hp.decodes⟩ .refl ⟨pad, hs.symm⟩ List.nil_prefix rfl ctx

end

section

theorem asyncReader_panics_iff_string : (∃ (this : Reading Unit Slice) (m : ReadMoment Unit Empty),
    Reading.Steps SliceMut Harmless
      (Reading.Valid : Reading Unit Slice → ReadMoment Unit Empty → Prop) (.new stringRead) this ∧
      this.Valid m ∧ this.reader.state ≠ .complete ∧ (this.turn SliceMut m).1.Panics) ↔ True :=
  asyncReader_panics_iff .string Slice.vlqParser_isSafe
    (fun len => ⟨_, Slice.vlqParser_halts len⟩) ()

end

end Mincodec
