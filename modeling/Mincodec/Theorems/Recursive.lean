import Mincodec.Depth
import Mincodec.Meaning
import Mincodec.System
import Mincodec.Slice
import Mathlib.Data.Fin.VecNotation

-- Recursive types: when their deserializers can be made, and what they read back.
namespace Mincodec

open Stream BitSource BitSink

variable {Ctx B B' : Type} {n : Nat} {ρ : Fin n → Type}

section
variable {k : Nat} {α : Fin k → Type} {f : (i : Fin k) → Option (α i)}

theorem allSome_isSome : (allSome f).isSome ↔ ∀ i, (f i).isSome := by
  unfold allSome
  split
  case isTrue h  => simpa using h
  case isFalse h => simpa using h

theorem eq_some_of_allSome {g : (i : Fin k) → α i} (h : allSome f = some g) (i : Fin k) :
    f i = some (g i) := by
  unfold allSome at h
  split at h
  case isTrue hf  =>
    cases h
    exact (Option.some_get (hf i)).symm
  case isFalse hf => cases h

end

section
variable {α β γ : Type} {o : Option α}

theorem isSome_map_iff {f : α → β} : (o.map f).isSome ↔ o.isSome := by
  rw [Option.isSome_map]

theorem isSome_bind_iff {o' : Option β} {f : α → β → γ} :
    (o.bind fun a => o'.map (f a)).isSome ↔ o.isSome ∧ o'.isSome := by
  cases o <;> simp

theorem eq_map_of_eq_some {f : α → β} {b : β} (h : o.map f = some b) : ∃ a, o = some a ∧ b = f a := by
  have ⟨a, ha, hb⟩ := Option.map_eq_some_iff.mp h
  exact ⟨a, ha, hb.symm⟩

end

namespace Ty

section
variable [BitBuf B] {rs : (i : Fin n) → MinCodecRead Ctx B (ρ i)}
variable {desers : (i : Fin n) → Option (rs i).Deserialize}

theorem deserialize_isSome {t : Ty n} :
    (t.deserialize desers).isSome ↔ ∀ i, t.Contains true i → (desers i).isSome := by
  induction t
  case prim p             => exact iff_of_true rfl fun _ => False.elim
  case option t hi        => exact isSome_map_iff.trans hi
  case result t u hi hi'  =>
    have h : (∀ i, (t.Contains true i ∨ u.Contains true i) → (desers i).isSome) ↔ _ :=
      (forall_congr' fun i => or_imp).trans forall_and
    exact isSome_bind_iff.trans ((and_congr hi hi').trans h.symm)
  case vec t hi           => exact isSome_map_iff.trans hi
  case tuple1 t hi        => exact isSome_map_iff.trans (hi 0)
  case tuple k _ ts hi    =>
    have h : (∀ i, (∃ j, (ts j).Contains true i) → (desers i).isSome) ↔
        ∀ j i, (ts j).Contains true i → (desers i).isSome :=
      (forall_congr' fun i => forall_exists_index).trans forall_comm
    exact isSome_map_iff.trans (allSome_isSome.trans ((forall_congr' hi).trans h.symm))
  case box t hi           =>
    have h : (∀ i, ((true : Bool) ∧ t.Contains true i) → (desers i).isSome) ↔ _ :=
      forall_congr' fun i => imp_congr_left (and_iff_right rfl)
    exact hi.trans h.symm
  case derived j          =>
    have h : (∀ i, i = j → (desers i).isSome) ↔ (desers j).isSome := forall_eq
    exact h.symm

theorem eq_of_deserialize (h : ∀ i s, desers i = some s → s = (rs i).deserialize) {t : Ty n}
    {s : (t.read rs).Deserialize} (hs : t.deserialize desers = some s) :
    s = (t.read rs).deserialize := by
  induction t
  case prim p             => cases hs; rfl
  case option t hi        =>
    obtain ⟨deser, hd, he⟩ := eq_map_of_eq_some hs
    rw [he, hi hd]
    rfl
  case result t u hi hi'  =>
    obtain ⟨deserT, hd, hs⟩ := Option.bind_eq_some_iff.mp hs
    obtain ⟨deserU, hd', he⟩ := eq_map_of_eq_some hs
    rw [he, hi hd, hi' hd']
    rfl
  case vec t hi           =>
    obtain ⟨deser, hd, he⟩ := eq_map_of_eq_some hs
    rw [he, hi hd]
    rfl
  case tuple1 t hi        =>
    obtain ⟨deser, hd, he⟩ := eq_map_of_eq_some hs
    rw [he, hi 0 hd]
    rfl
  case tuple k _ ts hi    =>
    obtain ⟨g, hd, he⟩ := eq_map_of_eq_some hs
    have hg : g = fun i => ((ts i).read rs).deserialize :=
      funext fun i => hi i (eq_some_of_allSome hd i)
    rw [he, hg]
    rfl
  case box t hi           => exact hi hs
  case derived j          => exact h _ _ hs

end

end Ty

namespace Decls

variable {decls : Decls n}

section
variable [BitBuf B]

theorem deserialize_of_lt {i : Fin n} (h : 1 < (decls i).variants) (depth : Nat) :
    decls.deserialize (depth + 1) i =
      some (decls.read (depth + 1) i : MinCodecRead Ctx B _).deserialize := by
  show ite .. = some (ite ..)
  rw [if_pos h]
  exact congrArg some (if_pos h).symm

theorem deserialize_of_not_lt {i : Fin n} (h : ¬1 < (decls i).variants) (depth : Nat) :
    (decls.deserialize (depth + 1) i :
        Option (decls.read (depth + 1) i : MinCodecRead Ctx B _).Deserialize) =
      (allSome fun j =>
        ((decls i).field ⟨0, (decls i).pos⟩ j).deserialize (decls.deserialize depth)).map
          fun desers => .variant ⟨0, (decls i).pos⟩ 0 fun j => .deserialize (desers j) := by
  show ite .. = _
  exact if_neg h

theorem returnsWithin_of_not_lt {i : Fin n} (h : ¬1 < (decls i).variants) (depth : Nat) :
    decls.ReturnsWithin Ctx B (depth + 1) i ↔
      ∀ f j, ((decls i).field ⟨0, (decls i).pos⟩ f).Contains true j →
        decls.ReturnsWithin Ctx B depth j :=
  have hs := congrArg Option.isSome (@deserialize_of_not_lt Ctx B n decls _ i h depth)
  (Bool.eq_iff_iff.mp hs).trans (isSome_map_iff.trans (allSome_isSome.trans
    (forall_congr' fun _ => Ty.deserialize_isSome)))

theorem returnsWithin_unfolds : Depth.Unfolds decls.Makes (decls.ReturnsWithin Ctx B) where
  zero _       := nofun
  succ depth i := by
    by_cases h : 1 < (decls i).variants
    case pos =>
      have hs : decls.ReturnsWithin Ctx B (depth + 1) i :=
        congrArg Option.isSome (deserialize_of_lt h depth)
      exact iff_of_true hs fun j hj => absurd hj.1 h.ne'
    case neg =>
      have hp := (decls i).pos
      rw [returnsWithin_of_not_lt h]
      constructor
      case mp =>
        intro hs j hj
        have ⟨_, k, f, hf⟩ := hj
        obtain rfl : k = ⟨0, hp⟩ := Fin.ext (by have := k.isLt; simp only; omega)
        exact hs f j hf
      case mpr => exact fun hs f j hj => hs j ⟨by omega, _, f, hj⟩

theorem eq_of_deserialize {depth : Nat} {i : Fin n}
    {s : (decls.read depth i : MinCodecRead Ctx B _).Deserialize}
    (hs : decls.deserialize depth i = some s) : s = (decls.read depth i).deserialize := by
  induction depth generalizing i
  case zero          => cases hs
  case succ depth hi =>
    by_cases h : 1 < (decls i).variants
    case pos =>
      rw [deserialize_of_lt h] at hs
      exact (Option.some.inj hs).symm
    case neg =>
      rw [deserialize_of_not_lt h] at hs
      obtain ⟨g, hg, he⟩ := eq_map_of_eq_some hs
      have hn : g = fun j => (((decls i).field ⟨0, (decls i).pos⟩ j).read
          (decls.read depth)).deserialize :=
        funext fun j => Ty.eq_of_deserialize (fun i s h => hi h) (eq_some_of_allSome hg j)
      rw [he, hn]
      exact (if_neg h).symm

theorem terminates_iff :
    (∀ i, decls.Terminates Ctx B i) ↔ ∀ i, ¬Relation.TransGen decls.Makes i i :=
  returnsWithin_unfolds.exists_depth_iff

end

end Decls

namespace Prim

variable [BitBuf B] [LawfulBitBuf B] [BitBufMut B'] [LawfulBitBufMut B'] [LawfulVlq B B']

noncomputable def meaning : (p : Prim) →
    Meaning (p.read : MinCodecRead Ctx B _) (p.write : MinCodecWrite Ctx B' _)
  | .bool         => .ofReadsBack .bool
  | .number bytes => .ofReadsBack (.number bytes)
  | .char         => .ofReadsBack .char
  | .usize        => .ofReadsBack .usize
  | .isize        => .isize
  | .unit         => .ofReadsBack (.unit () fun _ => rfl)
  | .string       => .ofReadsBack .string

theorem keeps {p : Prim} (h : p ≠ .isize) (v : p.Carrier) :
    (p.meaning : Meaning (p.read : MinCodecRead Ctx B _) (p.write : MinCodecWrite Ctx B' _)).Keeps
      v := by
  cases p
  case isize => exact absurd rfl h
  all_goals exact Meaning.ofReadsBack_keeps _ v

theorem nonempty : (p : Prim) → Nonempty p.Carrier
  | .bool         => ⟨false⟩
  | .number bytes => ⟨(0 : BitVec (8 * bytes))⟩
  | .char         => ⟨'a'⟩
  | .usize        => ⟨(0 : UInt64)⟩
  | .isize        => ⟨(0 : Int64)⟩
  | .unit         => ⟨()⟩
  | .string       => ⟨(⟨"", by decide⟩ : Str)⟩

end Prim

namespace Ty

theorem nonempty_mono {σ : Fin n → Type} (h : ∀ i, Nonempty (ρ i) → Nonempty (σ i)) {t : Ty n}
    (ht : Nonempty (t.Carrier ρ)) : Nonempty (t.Carrier σ) := by
  induction t
  case prim p            => exact p.nonempty
  case option t hi       => exact ⟨(none : Option (t.Carrier σ))⟩
  case result t u hi hi' =>
    have ⟨(v : Except (u.Carrier ρ) (t.Carrier ρ))⟩ := ht
    cases v
    case ok item     => exact (hi ⟨item⟩).map (Except.ok : _ → Except (u.Carrier σ) (t.Carrier σ))
    case error error =>
      exact (hi' ⟨error⟩).map (Except.error : _ → Except (u.Carrier σ) (t.Carrier σ))
  case vec size _ t hi   => exact ⟨(⟨[], by simp, by simp⟩ : Vec (t.Carrier σ) size)⟩
  case tuple1 t hi       =>
    have ⟨(v : (i : Fin 1) → (t i).Carrier ρ)⟩ := ht
    exact Classical.nonempty_pi.mpr fun i => hi i ⟨v i⟩
  case tuple k _ ts hi   =>
    have ⟨(v : (i : Fin k) → (ts i).Carrier ρ)⟩ := ht
    exact Classical.nonempty_pi.mpr fun i => hi i ⟨v i⟩
  case box t hi          => exact hi ht
  case derived i         => exact h i ht

theorem nonempty (h : ∀ i, Nonempty (ρ i)) (t : Ty n) : Nonempty (t.Carrier ρ) := by
  induction t
  case prim p            => exact p.nonempty
  case option t hi       => exact ⟨(none : Option (t.Carrier ρ))⟩
  case result t u hi hi' => exact hi.map (Except.ok : _ → Except (u.Carrier ρ) (t.Carrier ρ))
  case vec size _ t hi   => exact ⟨(⟨[], by simp, by simp⟩ : Vec (t.Carrier ρ) size)⟩
  case tuple1 t hi       => exact Classical.nonempty_pi.mpr hi
  case tuple k _ ts hi   => exact Classical.nonempty_pi.mpr hi
  case box t hi          => exact hi
  case derived i         => exact h i

section
variable [BitBuf B] [LawfulBitBuf B] [BitBufMut B'] [LawfulBitBufMut B'] [LawfulVlq B B']
variable {rs : (i : Fin n) → MinCodecRead Ctx B (ρ i)} {ws : (i : Fin n) → MinCodecWrite Ctx B' (ρ i)}

noncomputable def meaning (ms : (i : Fin n) → Meaning (rs i) (ws i)) :
    (t : Ty n) → Meaning (t.read rs) (t.write ws)
  | .prim p       => p.meaning
  | .option t     => (t.meaning ms).option
  | .result t u   => (t.meaning ms).result (u.meaning ms)
  | .vec size _ t => (t.meaning ms).vec size
  | .tuple1 t     => ((t 0).meaning ms).tuple1
  | .tuple _ h ts => Meaning.tuple (fun i => (ts i).meaning ms) h.2
  | .box t        => (t.meaning ms).box
  | .derived i    => ms i

variable {ms : (i : Fin n) → Meaning (rs i) (ws i)}

theorem keeps (h : ∀ i v, (ms i).Keeps v) {t : Ty n} (ht : ¬t.ContainsIsize) (v : t.Carrier ρ) :
    (t.meaning ms).Keeps v := by
  induction t
  case prim p            => exact Prim.keeps ht v
  case option t hi       =>
    cases (v : Option (t.Carrier ρ))
    case none      => exact Meaning.option_keeps_none _
    case some item => exact (Meaning.option_keeps_some _).mpr (hi ht item)
  case result t u hi hi' =>
    have ⟨ht, hu⟩ := not_or.mp ht
    cases (v : Except (u.Carrier ρ) (t.Carrier ρ))
    case ok item     => exact (Meaning.result_keeps_ok _ _).mpr (hi ht item)
    case error error => exact (Meaning.result_keeps_error _ _).mpr (hi' hu error)
  case vec size _ t hi   => exact (Meaning.vec_keeps _).mpr fun x _ => hi ht x
  case tuple1 t hi       => exact (Meaning.tuple1_keeps _).mpr (hi 0 ht _)
  case tuple k _ ts hi   =>
    exact (Meaning.tuple_keeps _ _).mpr fun i => hi i (fun hn => ht ⟨i, hn⟩) _
  case box t hi          => exact (Meaning.box_keeps _).mpr (hi ht v)
  case derived i         => exact h i v

variable (ms) in
theorem exists_lost (h : ∀ i, Nonempty (ρ i)) {t : Ty n} (ht : t.ContainsIsize) :
    ∃ v, ¬(t.meaning ms).Keeps v := by
  induction t
  case prim p            =>
    subst ht
    exact ⟨(-1 : Int64), Meaning.isize_not_keeps nofun⟩
  case option t hi       =>
    have ⟨item, hl⟩ := hi ht
    exact ⟨(some item : Option (t.Carrier ρ)), fun hk => hl ((Meaning.option_keeps_some _).mp hk)⟩
  case result t u hi hi' =>
    cases ht
    case inl ht =>
      have ⟨item, hl⟩ := hi ht
      exact ⟨(.ok item : Except (u.Carrier ρ) (t.Carrier ρ)),
        fun hk => hl ((Meaning.result_keeps_ok _ _).mp hk)⟩
    case inr hu =>
      have ⟨error, hl⟩ := hi' hu
      exact ⟨(.error error : Except (u.Carrier ρ) (t.Carrier ρ)),
        fun hk => hl ((Meaning.result_keeps_error _ _).mp hk)⟩
  case vec size hs t hi  =>
    have ⟨item, hl⟩ := hi ht
    refine ⟨(⟨[item], by simp, by simpa using hs⟩ : Vec (t.Carrier ρ) size), fun hk => hl ?_⟩
    exact (Meaning.vec_keeps _).mp hk item (List.mem_singleton_self item)
  case tuple1 t hi       =>
    have ⟨item, hl⟩ := hi 0 ht
    exact ⟨(Meaning.single item : (i : Fin 1) → (t i).Carrier ρ),
      fun hk => hl ((Meaning.tuple1_keeps _).mp hk)⟩
  case tuple k _ ts hi   =>
    have ⟨i, ht⟩ := ht
    have ⟨item, hl⟩ := hi i ht
    have ⟨v⟩ := Classical.nonempty_pi.mpr fun i => nonempty h (ts i)
    refine ⟨(Function.update v i item : (i : Fin k) → (ts i).Carrier ρ), fun hk => hl ?_⟩
    have hk := (Meaning.tuple_keeps _ _).mp hk i
    rwa [Function.update_self] at hk
  case box t hi          =>
    have ⟨v, hl⟩ := hi ht
    exact ⟨v, fun hk => hl ((Meaning.box_keeps _).mp hk)⟩
  case derived i         => exact ht.elim

end

end Ty

theorem Decls.nonempty_mono {decls : Decls n} {depth : Nat} {i : Fin n}
    (h : Nonempty (decls.Carrier depth i)) : Nonempty (decls.Carrier (depth + 1) i) := by
  induction depth generalizing i
  case zero          =>
    have ⟨(v : Empty)⟩ := h
    exact v.elim
  case succ depth hi =>
    have ⟨(v : ((decls i).shape (decls.Carrier depth)).Value)⟩ := h
    have hf (f : Fin ((decls i).arity v.variant)) :
        Nonempty (((decls i).field v.variant f).Carrier (decls.Carrier (depth + 1))) :=
      Ty.nonempty_mono (fun _ => hi) ⟨v.fields f⟩
    have ⟨fields⟩ := Classical.nonempty_pi.mpr hf
    exact ⟨(⟨v.variant, fields⟩ : ((decls i).shape (decls.Carrier (depth + 1))).Value)⟩

namespace System

variable (S : System n)

theorem exists_inhabited : ∃ depth, ∀ i, Nonempty (S.decls.Carrier depth i) :=
  Depth.exists_common (fun _ _ => Decls.nonempty_mono) S.inhabited

def Decodable (Ctx B B' : Type) [BitBuf B] [BitBufMut B'] [BitSource B] [BitSink B'] : Prop :=
  ∀ i, S.decls.Terminates Ctx B i ∧ ∀ depth v, DecodesBack
    (S.decls.read depth i : MinCodecRead Ctx B _) (S.decls.write depth i : MinCodecWrite Ctx B' _) v

section
variable [BitBuf B] [LawfulBitBuf B] [BitBufMut B'] [LawfulBitBufMut B'] [LawfulVlq B B']

noncomputable def meaning : (depth : Nat) → (i : Fin n) →
    Meaning (S.decls.read depth i : MinCodecRead Ctx B _)
      (S.decls.write depth i : MinCodecWrite Ctx B' _)
  | 0, _         => .empty Empty.elim
  | depth + 1, i =>
    .derive (fun k f => ((S.decls i).field k f).meaning (meaning depth)) (S.compiles i _)
      (S.decls i).pos

abbrev Keeps (Ctx B B' : Type) [BitBuf B] [LawfulBitBuf B] [BitBufMut B'] [LawfulBitBufMut B']
    [LawfulVlq B B'] : Prop :=
  ∀ depth i v, (S.meaning depth i : Meaning (_ : MinCodecRead Ctx B _)
    (_ : MinCodecWrite Ctx B' _)).Keeps v

theorem keeps_of_fields (hi : ∀ i k f, ¬((S.decls i).field k f).ContainsIsize)
    (ha : ∀ i k, 1 < (S.decls i).variants → (S.decls i).arity k ∉ [255, 65535, 4294967295]) :
    S.Keeps Ctx B B' := by
  intro depth
  induction depth
  case zero          => exact fun i v => Empty.elim v
  case succ depth hd =>
    intro i v
    refine (Meaning.derive_keeps _ _ _).mpr ⟨fun f => Ty.keeps hd (hi i _ f) _, ?_⟩
    rw [firstArm_add_lt_iff ((S.compiles i _).arity_lt _)]
    exact not_and.mpr (ha i _)

variable {S}

omit [LawfulBitBuf B] [LawfulBitBufMut B'] [LawfulVlq B B'] in
theorem exists_fields {depth : Nat} (h : ∀ i, Nonempty (S.decls.Carrier depth i)) (i : Fin n)
    (k : Fin (S.decls i).variants) :
    Nonempty (∀ f, ((S.decls i).shape (S.decls.Carrier depth)).field k f) :=
  Classical.nonempty_pi.mpr fun f => Ty.nonempty h ((S.decls i).field k f)

theorem Keeps.not_containsIsize (h : S.Keeps Ctx B B') (i : Fin n) (k : Fin (S.decls i).variants)
    (f : Fin ((S.decls i).arity k)) : ¬((S.decls i).field k f).ContainsIsize := by
  intro ht
  have ⟨depth, hn⟩ := S.exists_inhabited
  have ⟨fields⟩ := exists_fields hn i k
  let ms (i : Fin n) : Meaning (S.decls.read depth i : MinCodecRead Ctx B _)
    (S.decls.write depth i : MinCodecWrite Ctx B' _) := S.meaning depth i
  have ⟨x, hx⟩ := Ty.exists_lost ms hn ht
  let v : ((S.decls i).shape (S.decls.Carrier depth)).Value := ⟨k, Function.update fields f x⟩
  have hk := ((Meaning.derive_keeps _ _ _).mp (h (depth + 1) i v)).1 f
  have hv : v.fields f = x := Function.update_self ..
  rw [hv] at hk
  exact hx hk

theorem Keeps.arity_not_mem (h : S.Keeps Ctx B B') (i : Fin n) (k : Fin (S.decls i).variants)
    (hi : 1 < (S.decls i).variants) : (S.decls i).arity k ∉ [255, 65535, 4294967295] := by
  have ⟨depth, hn⟩ := S.exists_inhabited
  have ⟨fields⟩ := exists_fields hn i k
  have hk := ((Meaning.derive_keeps _ _ _).mp
    (h (depth + 1) i (⟨k, fields⟩ : Shape.Value _))).2
  rw [firstArm_add_lt_iff ((S.compiles i _).arity_lt _)] at hk
  exact fun hm => hk ⟨hi, hm⟩

theorem keeps_iff : S.Keeps Ctx B B' ↔
    (∀ i k f, ¬((S.decls i).field k f).ContainsIsize) ∧
    ∀ i k, 1 < (S.decls i).variants → (S.decls i).arity k ∉ [255, 65535, 4294967295] :=
  ⟨fun h => ⟨h.not_containsIsize, h.arity_not_mem⟩, fun h => S.keeps_of_fields h.1 h.2⟩

end

end System

section
variable [BitSlice B] [LawfulBitSlice B] [BitSliceMut B'] [LawfulBitSliceMut B'] [LawfulVlq B B']

-- Recursive types can be decoded if and only if every cycle of types passes through an enum with a
-- determinant, no field is an `isize` and the indices of the fields do not overflow.
theorem recursive_decodable_iff (ctx : Ctx) (S : System n) : S.Decodable Ctx B B' ↔
    (∀ i, ¬Relation.TransGen S.decls.Makes i i) ∧
    (∀ i k f, ¬((S.decls i).field k f).ContainsIsize) ∧
    ∀ i k, 1 < (S.decls i).variants → (S.decls i).arity k ∉ [255, 65535, 4294967295] := by
  have ht : (∀ i, S.decls.Terminates Ctx B i) ↔ _ := Decls.terminates_iff
  have hk : S.Keeps Ctx B B' ↔ _ := System.keeps_iff
  rw [← ht, ← hk]
  constructor
  case mp =>
    exact fun h => ⟨fun i => (h i).1, fun depth i v =>
      ((S.meaning depth i).decodesBack_iff ctx).mp ((h i).2 depth v)⟩
  case mpr =>
    exact fun h i => ⟨h.1 i, fun depth v => ((S.meaning depth i).decodesBack_iff ctx).mpr
      (h.2 depth i v)⟩

end

def tree (i : Fin n) : Decl n where
  name      := "Tree"
  variants  := 2
  arity     := ![0, 2]
  field _ _ := .box (.derived i)
  pos       := Nat.two_pos

def treeSystem : System 1 where
  decls         := tree
  compiles _ _  := Shape.compiles_of_le (by decide : 2 ≤ 32768) (by decide : ∀ k, ![0, 2] k < 2 ^ 32)
  boxed _ h     := by
    obtain ⟨_, _, _, _, hb, _⟩ := Relation.TransGen.tail'_iff.mp h
    cases hb
  inhabited i   := ⟨1, ⟨(⟨(0 : Fin 2), fun f => f.elim0⟩ : ((tree i).shape _).Value)⟩⟩

-- The determinant of the enum delays the deserializers of the two boxes.
theorem recursive_decodable_iff_tree : treeSystem.Decodable Unit Slice SliceMut := by
  refine (recursive_decodable_iff () treeSystem).mpr ⟨?acyclic, ?isize, ?arity⟩
  case acyclic =>
    intro i h
    obtain ⟨_, _, hv, _⟩ := Relation.TransGen.tail'_iff.mp h
    cases hv
  case isize   => exact fun _ _ _ => id
  case arity   => exact fun _ => (by decide : ∀ k, 1 < 2 → ![0, 2] k ∉ [255, 65535, 4294967295])

def chain (i : Fin n) : Decl n where
  name      := "Chain"
  variants  := 1
  arity _   := 2
  field _   := ![.prim .bool, .option (.box (.derived i))]
  pos       := Nat.one_pos

theorem chain_boxed (i j : Fin n) : ∀ f : Fin 2, ¬((chain i).field (0 : Fin 1) f).Contains false j :=
  Fin.forall_fin_two.mpr ⟨id, fun h => Bool.noConfusion h.1⟩

theorem chain_inhabited (i : Fin n) (ρ : Fin n → Type) : Nonempty ((chain i).shape ρ).Value := by
  have hf : ∀ f : Fin 2, Nonempty (((chain i).field (0 : Fin 1) f).Carrier ρ) :=
    Fin.forall_fin_two.mpr ⟨⟨(true : Bool)⟩, ⟨(none : Option (ρ i))⟩⟩
  exact (Classical.nonempty_pi.mpr hf).map fun fields => ⟨(0 : Fin 1), fields⟩

def chainSystem : System 1 where
  decls         := chain
  compiles _ _  := Shape.compiles_of_le (by decide : 1 ≤ 32768) fun _ => (by decide : 2 < 2 ^ 32)
  boxed i h     := by
    obtain ⟨j, _, _, f, hf⟩ := Relation.TransGen.tail'_iff.mp h
    exact chain_boxed i j f hf
  inhabited i   := ⟨1, chain_inhabited i _⟩

-- The deserializer of a struct makes another one of the same struct, without end.
theorem chain_not_decodable : ¬chainSystem.Decodable Unit Slice SliceMut := by
  intro h
  have ht : ∀ i, chainSystem.decls.Terminates Unit Slice i := fun i => (h i).1
  exact Decls.terminates_iff.mp ht 0 (.single ⟨rfl, (0 : Fin 1), (1 : Fin 2), rfl, rfl⟩)

end Mincodec
