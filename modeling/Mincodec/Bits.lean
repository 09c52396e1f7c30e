import Mathlib.Data.List.Induction
import Mathlib.Data.Nat.Bitwise
import Mathlib.Tactic.IntervalCases

-- Byte strings read as bit strings, most significant bit of each byte first.
namespace Bits

def ofByte (x : UInt8) : List Bool :=
  (List.range 8).map fun i => x.toNat.testBit (7 - i)

def ofBytes (xs : List UInt8) : List Bool :=
  xs.flatMap ofByte

def toNat (bs : List Bool) : Nat :=
  bs.foldl (fun n b => 2 * n + b.toNat) 0

def toByte (bs : List Bool) : UInt8 :=
  UInt8.ofNat (toNat bs)

def toBytes : List Bool → List UInt8
  | b₀ :: b₁ :: b₂ :: b₃ :: b₄ :: b₅ :: b₆ :: b₇ :: bs =>
    toByte [b₀, b₁, b₂, b₃, b₄, b₅, b₆, b₇] :: toBytes bs
  | _ => []

@[simp] theorem length_ofByte (x : UInt8) : (ofByte x).length = 8 := by
  simp [ofByte]

@[simp] theorem ofBytes_nil : ofBytes [] = [] := rfl

@[simp] theorem ofBytes_cons (x : UInt8) (xs : List UInt8) :
    ofBytes (x :: xs) = ofByte x ++ ofBytes xs := by
  simp [ofBytes]

@[simp] theorem ofBytes_append (xs ys : List UInt8) :
    ofBytes (xs ++ ys) = ofBytes xs ++ ofBytes ys := by
  simp [ofBytes]

@[simp] theorem length_ofBytes (xs : List UInt8) : (ofBytes xs).length = 8 * xs.length := by
  induction xs
  case nil => rfl
  case cons x xs hi => simp [hi]; omega

theorem toByte_ofByte (x : UInt8) : toByte (ofByte x) = x := by
  have h : ∀ n < 256, toByte (ofByte (UInt8.ofNat n)) = UInt8.ofNat n := by decide +kernel
  simpa using h x.toNat x.toNat_lt

theorem ofByte_toByte (b₀ b₁ b₂ b₃ b₄ b₅ b₆ b₇ : Bool) :
    ofByte (toByte [b₀, b₁, b₂, b₃, b₄, b₅, b₆, b₇]) = [b₀, b₁, b₂, b₃, b₄, b₅, b₆, b₇] := by
  revert b₀ b₁ b₂ b₃ b₄ b₅ b₆ b₇
  decide +kernel

theorem ofByte_eq (x : UInt8) : ∃ b₀ b₁ b₂ b₃ b₄ b₅ b₆ b₇ : Bool,
    ofByte x = [b₀, b₁, b₂, b₃, b₄, b₅, b₆, b₇] :=
  ⟨_, _, _, _, _, _, _, _, rfl⟩

theorem toBytes_ofByte_append (x : UInt8) (bs : List Bool) :
    toBytes (ofByte x ++ bs) = x :: toBytes bs := by
  have ⟨_, _, _, _, _, _, _, _, h⟩ := ofByte_eq x
  rw [h]
  simp only [List.cons_append, List.nil_append, toBytes]
  rw [← h, toByte_ofByte]

theorem toBytes_ofBytes (xs : List UInt8) : toBytes (ofBytes xs) = xs := by
  induction xs
  case nil => rfl
  case cons x xs hi => rw [ofBytes_cons, toBytes_ofByte_append, hi]

theorem ofBytes_injective : Function.Injective ofBytes :=
  Function.LeftInverse.injective toBytes_ofBytes

theorem ofBytes_toBytes (bs : List Bool) (h : 8 ∣ bs.length) : ofBytes (toBytes bs) = bs := by
  fun_induction toBytes bs
  case case1 bs hi =>
    rw [ofBytes_cons, ofByte_toByte, hi]
    · rfl
    · simp only [List.length_cons] at h; omega
  case case2 bs hn =>
    match bs with
    | [] => rfl
    | [_] | [_, _] | [_, _, _] | [_, _, _, _] | [_, _, _, _, _] | [_, _, _, _, _, _]
    | [_, _, _, _, _, _, _] => simp at h
    | _ :: _ :: _ :: _ :: _ :: _ :: _ :: _ :: _ => exact absurd rfl (hn _ _ _ _ _ _ _ _ _)

theorem length_toBytes (bs : List Bool) : (toBytes bs).length = bs.length / 8 := by
  fun_induction toBytes bs
  case case1 bs hi => simp only [List.length_cons, hi]; omega
  case case2 bs hn =>
    match bs with
    | [] | [_] | [_, _] | [_, _, _] | [_, _, _, _] | [_, _, _, _, _] | [_, _, _, _, _, _]
    | [_, _, _, _, _, _, _] => simp
    | _ :: _ :: _ :: _ :: _ :: _ :: _ :: _ :: _ => exact absurd rfl (hn _ _ _ _ _ _ _ _ _)

theorem ofBytes_take (xs : List UInt8) (n : Nat) :
    ofBytes (xs.take n) = (ofBytes xs).take (8 * n) := by
  induction xs generalizing n
  case nil => simp
  case cons x xs hi =>
    cases n
    case zero => simp
    case succ n =>
      rw [List.take_succ_cons, ofBytes_cons, ofBytes_cons, hi, List.take_append]
      simp [List.take_of_length_le, Nat.mul_succ]

theorem prefix_of_ofBytes {xs ys : List UInt8} (h : ofBytes xs <+: ofBytes ys) : xs <+: ys := by
  have ht := List.prefix_iff_eq_take.mp h
  rw [length_ofBytes, ← ofBytes_take] at ht
  rw [ofBytes_injective ht]
  exact List.take_prefix ..

theorem ofBytes_drop (xs : List UInt8) (n : Nat) :
    ofBytes (xs.drop n) = (ofBytes xs).drop (8 * n) := by
  induction xs generalizing n
  case nil => simp
  case cons x xs hi =>
    cases n
    case zero => simp
    case succ n =>
      rw [List.drop_succ_cons, ofBytes_cons, hi, List.drop_append]
      simp [List.drop_of_length_le, Nat.mul_succ]

def toBe : Nat → Nat → List UInt8
  | 0, _     => []
  | n + 1, x => toBe n (x / 256) ++ [UInt8.ofNat x]

def ofBe (xs : List UInt8) : Nat :=
  xs.foldl (fun n x => 256 * n + x.toNat) 0

@[simp] theorem length_toBe (n x : Nat) : (toBe n x).length = n := by
  induction n generalizing x
  case zero => rfl
  case succ n hi => simp [toBe, hi]

theorem ofBe_toBe (n x : Nat) : ofBe (toBe n x) = x % 256 ^ n := by
  induction n generalizing x
  case zero => simp [toBe, ofBe, Nat.mod_one]
  case succ n hi =>
    have hi := hi (x / 256)
    unfold ofBe at hi ⊢
    simp only [toBe, List.foldl_append, List.foldl_cons, List.foldl_nil, hi]
    rw [Nat.pow_succ', Nat.mod_mul]
    simp [Nat.add_comm]

theorem ofBe_append (xs : List UInt8) (x : UInt8) : ofBe (xs ++ [x]) = 256 * ofBe xs + x.toNat := by
  simp [ofBe]

theorem toBe_ofBe (xs : List UInt8) : toBe xs.length (ofBe xs) = xs := by
  induction xs using List.reverseRecOn
  case nil => rfl
  case append_singleton xs x hi =>
    have hx := x.toNat_lt
    have hq : (256 * ofBe xs + x.toNat) / 256 = ofBe xs := by omega
    have hr : UInt8.ofNat (256 * ofBe xs + x.toNat) = x := by
      apply UInt8.toNat_inj.mp
      rw [UInt8.toNat_ofNat']
      omega
    rw [List.length_append, ofBe_append]
    show toBe xs.length ((256 * ofBe xs + x.toNat) / 256) ++ [_] = _
    rw [hq, hr, hi]

theorem ofBe_lt (xs : List UInt8) : ofBe xs < 256 ^ xs.length := by
  induction xs using List.reverseRecOn
  case nil => decide
  case append_singleton xs x hi =>
    have hx := x.toNat_lt
    rw [ofBe_append, List.length_append, List.length_singleton, Nat.pow_succ]
    omega

def reverseBits (x : UInt8) : UInt8 :=
  toByte (ofByte x).reverse

def toLe (n x : Nat) : List UInt8 :=
  (toBe n x).reverse

def ofLe (xs : List UInt8) : Nat :=
  ofBe xs.reverse

def lsb (n x : Nat) : List Bool :=
  (List.range n).map x.testBit

def ofLsb : List Bool → Nat
  | []      => 0
  | b :: bs => b.toNat + 2 * ofLsb bs

@[simp] theorem length_lsb (n x : Nat) : (lsb n x).length = n := by
  simp [lsb]

theorem toLe_succ (n x : Nat) : toLe (n + 1) x = UInt8.ofNat x :: toLe n (x / 256) := by
  simp [toLe, toBe]

theorem ofLe_cons (x : UInt8) (xs : List UInt8) : ofLe (x :: xs) = x.toNat + 256 * ofLe xs := by
  simp [ofLe, ofBe, Nat.add_comm]

theorem lsb_succ (n x : Nat) : lsb (n + 1) x = x.testBit 0 :: lsb n (x / 2) := by
  simp [lsb, List.range_succ_eq_map, Nat.testBit_succ, Function.comp_def]

theorem lsb_add (m n x : Nat) : lsb (m + n) x = lsb m x ++ lsb n (x / 2 ^ m) := by
  induction m generalizing x
  case zero => simp [lsb]
  case succ m hi =>
    rw [Nat.add_right_comm, lsb_succ, lsb_succ, hi, Nat.div_div_eq_div_mul, Nat.pow_succ']
    rfl

theorem take_lsb {m n : Nat} (h : n ≤ m) (x : Nat) : (lsb m x).take n = lsb n x := by
  obtain ⟨k, rfl⟩ := Nat.exists_eq_add_of_le h
  rw [lsb_add]
  simp

theorem ofLsb_lsb {n x : Nat} (h : x < 2 ^ n) : ofLsb (lsb n x) = x := by
  induction n generalizing x
  case zero => simp at h; simp [h, lsb, ofLsb]
  case succ n hi =>
    rw [lsb_succ, ofLsb, hi (by rw [Nat.pow_succ] at h; omega), Nat.testBit_zero]
    have := Nat.mod_two_eq_zero_or_one x
    rcases this with h | h <;> simp [h] <;> omega

theorem lsb_ofLsb (bs : List Bool) : lsb bs.length (ofLsb bs) = bs := by
  induction bs
  case nil => rfl
  case cons b bs hi =>
    have hq : (b.toNat + 2 * ofLsb bs) / 2 = ofLsb bs := by
      have := b.toNat_lt
      omega
    rw [List.length_cons, lsb_succ, ofLsb, hq, hi, Nat.testBit_zero]
    cases b <;> simp

theorem ofLsb_append (u w : List Bool) : ofLsb (u ++ w) = ofLsb u + 2 ^ u.length * ofLsb w := by
  induction u
  case nil => simp [ofLsb]
  case cons b u hi =>
    simp only [List.cons_append, ofLsb, hi, List.length_cons, Nat.pow_succ']
    rw [Nat.mul_add, Nat.mul_assoc, Nat.add_assoc]

theorem ofLsb_lt (bs : List Bool) : ofLsb bs < 2 ^ bs.length := by
  induction bs
  case nil          => exact Nat.one_pos
  case cons b bs hi =>
    have hb := b.toNat_lt
    rw [List.length_cons, Nat.pow_succ, ofLsb]
    omega

theorem ofLsb_replicate (n : Nat) : ofLsb (List.replicate n false) = 0 := by
  induction n
  case zero      => rfl
  case succ n hi => simp [List.replicate_succ, ofLsb, hi]

theorem ofBytes_replicate_zero (n : Nat) :
    ofBytes (List.replicate n 0) = List.replicate (8 * n) false := by
  induction n
  case zero      => rfl
  case succ n hi => rw [List.replicate_succ, ofBytes_cons, hi, Nat.mul_succ]; rfl

theorem ofByte_reverseBits (x : UInt8) : ofByte (reverseBits x) = (ofByte x).reverse := by
  have ⟨_, _, _, _, _, _, _, _, h⟩ := ofByte_eq x
  unfold reverseBits
  rw [h]
  simp only [List.reverse_cons, List.reverse_nil, List.nil_append, List.cons_append]
  exact ofByte_toByte ..

theorem reverse_ofByte (x : UInt8) : (ofByte x).reverse = lsb 8 x.toNat := by
  rfl

theorem ofBytes_reverseBits_toLe (n x : Nat) :
    ofBytes ((toLe n x).map reverseBits) = lsb (8 * n) x := by
  induction n generalizing x
  case zero => rfl
  case succ n hi =>
    rw [toLe_succ, List.map_cons, ofBytes_cons, hi, ofByte_reverseBits, reverse_ofByte,
      Nat.mul_succ, Nat.add_comm (8 * n), lsb_add]
    congr 1
    simp only [lsb, UInt8.toNat_ofNat']
    apply List.map_congr_left
    intro i hi
    rw [Nat.testBit_mod_two_pow]
    simp at hi
    simp [hi]

theorem ofLe_reverseBits (xs : List UInt8) : ofLe (xs.map reverseBits) = ofLsb (ofBytes xs) := by
  induction xs
  case nil => rfl
  case cons x xs hi =>
    have hx : (reverseBits x).toNat = ofLsb (ofByte x) := by
      rw [← ofLsb_lsb (reverseBits x).toNat_lt, ← reverse_ofByte, ofByte_reverseBits,
        List.reverse_reverse]
    rw [List.map_cons, ofLe_cons, hi, ofBytes_cons, ofLsb_append, hx, length_ofByte]
    rfl

theorem ofLe_reverseBits_toBytes {n : Nat} {w : List Bool} (h : w.length ≤ 8 * n) :
    ofLe ((toBytes (w ++ (ofBytes (List.replicate n 0)).drop w.length)).map reverseBits) =
      ofLsb w := by
  rw [ofLe_reverseBits, ofBytes_toBytes, ofBytes_replicate_zero, List.drop_replicate, ofLsb_append,
    ofLsb_replicate, Nat.mul_zero, Nat.add_zero]
  simp only [List.length_append, List.length_drop, length_ofBytes, List.length_replicate]
  omega

-- `xs` is the bit string `bs` cut into bytes, the last byte filled up with padding bits.
def IsCut (bs : List Bool) (xs : List UInt8) : Prop :=
  ∃ pad, pad.length < 8 ∧ ofBytes xs = bs ++ pad

theorem IsCut.length {bs : List Bool} {xs : List UInt8} (h : IsCut bs xs) :
    xs.length = (bs.length + 7) / 8 := by
  have ⟨pad, hp, h⟩ := h
  have := congrArg List.length h
  simp only [length_ofBytes, List.length_append] at this
  omega

theorem IsCut.exists (bs : List Bool) : ∃ xs, IsCut bs xs := by
  let pad := List.replicate ((bs.length + 7) / 8 * 8 - bs.length) false
  refine ⟨toBytes (bs ++ pad), pad, ?_, ofBytes_toBytes _ ?_⟩
  · simp only [pad, List.length_replicate]; omega
  · simp only [pad, List.length_append, List.length_replicate]; omega

theorem IsCut.append {bs : List Bool} {ys : List UInt8} (h : IsCut bs ys) (xs : List UInt8) :
    IsCut (ofBytes xs ++ bs) (xs ++ ys) := by
  have ⟨pad, hp, h⟩ := h
  exact ⟨pad, hp, by rw [ofBytes_append, h, List.append_assoc]⟩

theorem isCut_take (xs : List UInt8) (k : Nat) :
    IsCut ((ofBytes xs).take k) (xs.take ((k + 7) / 8)) := by
  refine ⟨((ofBytes xs).take (8 * ((k + 7) / 8))).drop k, ?_, ?_⟩
  · rw [List.length_drop, List.length_take, length_ofBytes]
    omega
  · have ht : ((ofBytes xs).take (8 * ((k + 7) / 8))).take k = (ofBytes xs).take k := by
      rw [List.take_take, Nat.min_eq_left (by omega)]
    rw [ofBytes_take, ← ht, List.take_append_drop]

end Bits
