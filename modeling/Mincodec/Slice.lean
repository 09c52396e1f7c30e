import Mincodec.BitSlice

-- Bit buffers over lists of bits, which have the properties that are assumed of `bitbuf`.
namespace Mincodec

open Stream BitSource BitSink

structure Slice where
  bits : List Bool
  pos  : Nat
  deriving DecidableEq

namespace Slice

def rest (b : Slice) : List Bool :=
  b.bits.drop b.pos

def skip (n : Nat) (b : Slice) : Slice :=
  { b with pos := b.pos + n }

-- A `Fill` or `CappedFill`: the first `cap` bits of the array `data` are to be read, the bits `got`
-- have been.
structure Fill where
  data : List UInt8
  cap  : Nat
  got  : List Bool

def Fill.fillFrom (f : Fill) (b : Slice) : Partial Unit Fill Slice :=
  let w := b.rest.take (f.cap - f.got.length)
  (if f.got.length + w.length = f.cap then some () else none, { f with got := f.got ++ w },
    b.skip w.length)

def Fill.inner (f : Fill) : List UInt8 :=
  Bits.toBytes (f.got ++ (Bits.ofBytes f.data).drop f.got.length)

def collect {α : Type} (p : Parser Empty α) (got : List Bool) (b : Slice) :
    Partial α (List Bool) Slice :=
  match p (got ++ b.rest) with
  | .halt (.finished (.ok a)) rest =>
    let n := b.rest.length - rest.length
    (some a, got ++ b.rest.take n, b.skip n)
  | _ => (none, got ++ b.rest, b.skip b.rest.length)

-- A number below 128 in one byte, any other number in nine.
def vlq (n : UInt64) : List UInt8 :=
  if n < 128 then Bits.toBe 1 n.toNat else 255 :: Bits.toBe 8 n.toNat

def vlqParser : Parser Empty UInt64 :=
  (Parser.take 8).bind fun w =>
    let x := Bits.ofBe (Bits.toBytes w)
    if x < 128 then
      .pure (.ofNat x)
    else
      (Parser.take 64).bind fun w =>
        let n := Bits.ofBe (Bits.toBytes w)
        if x = 255 ∧ 128 ≤ n then .pure (.ofNat n) else .never

instance : BitBuf Slice where
  readBool b        := (b.rest.head?, b.skip (b.rest.take 1).length)
  Fill              := Fill
  newFill data      := ⟨data, 8 * data.length, []⟩
  fillFrom          := Fill.fillFrom
  fillInner         := Fill.inner
  CappedFill        := Fill
  newCappedFill data n := if n ≤ 8 * data.length then some ⟨data, n, []⟩ else none
  cappedFillFrom    := Fill.fillFrom
  cappedFillInner   := Fill.inner
  AsyncReadVlq      := List Bool
  asyncRead         := []
  pollRead          := collect vlqParser

instance : BitSlice Slice where
  new xs      := ⟨Bits.ofBytes xs, 0⟩
  advance n b := if n ≤ b.rest.length then some (b.skip n) else none
  len         := pos

instance : BitSource Slice where
  unread := rest
  taken  := pos

theorem consumes_skip (b : Slice) (n : Nat) :
    Consumes b (b.rest.take n) (b.skip (b.rest.take n).length) := by
  refine ⟨?_, rfl⟩
  show b.rest = b.rest.take n ++ b.bits.drop (b.pos + (b.rest.take n).length)
  rw [← List.drop_drop]
  show b.rest = b.rest.take n ++ b.rest.drop (b.rest.take n).length
  rw [List.length_take]
  by_cases h : n ≤ b.rest.length
  case pos => rw [Nat.min_eq_left h, List.take_append_drop]
  case neg =>
    rw [Nat.min_eq_right (by omega), List.take_of_length_le (by omega),
      List.drop_of_length_le (Nat.le_refl _), List.append_nil]

def Fill.poll (f : Fill) (b : Slice) : Polled Fill Slice (Except Empty (List UInt8)) :=
  (sufficient (f.fillFrom b)).andThen id id fun _ f b => ⟨.ready (.ok f.inner), f, b⟩

theorem fill_decodes (data : List UInt8) (n : Nat) :
    Decodes False Drained (fun (_ : Unit) => Fill.poll) ⟨data, n, []⟩ (fillParser data n) := by
  refine ⟨fun f q => f.data = data ∧ f.cap = n ∧ f.got.length ≤ n ∧
    q = (fillParser data n).after f.got, ?_, rfl, rfl, n.zero_le, rfl⟩
  rintro _ f q b ⟨rfl, rfl, hg, rfl⟩
  let w := b.rest.take (f.cap - f.got.length)
  have hc : Consumes b w (b.skip w.length) := b.consumes_skip _
  have hw : w.length = min (f.cap - f.got.length) b.rest.length := List.length_take
  show Follows _ _ _ _ _ b (f.poll b)
  by_cases hf : f.got.length + w.length = f.cap
  case pos =>
    have hx : f.fillFrom b = (some (), { f with got := f.got ++ w }, b.skip w.length) := by
      simp only [Fill.fillFrom]
      rw [if_pos hf]
    unfold Fill.poll
    rw [hx]
    refine ⟨w, hc, _, rfl, Parser.Halts.after.mpr ?_⟩
    show (fillParser f.data f.cap).Halts (f.got ++ w) (.finished (.ok
      (Bits.toBytes (f.got ++ w ++ (Bits.ofBytes f.data).drop (f.got ++ w).length))))
    have h := fillParser_halts f.data (f.got ++ w)
    rw [List.length_append, hf] at h ⊢
    exact h
  case neg =>
    have hx : f.fillFrom b = (none, { f with got := f.got ++ w }, b.skip w.length) := by
      simp only [Fill.fillFrom]
      rw [if_neg hf]
    have hr : w = b.rest := List.take_of_length_le (by omega)
    have hl : (f.got ++ w).length < f.cap := by rw [List.length_append]; omega
    unfold Fill.poll
    rw [hx]
    have hu : unread b = w := hr.symm
    refine ⟨w, hc, ?_, ?_, rfl, rfl, hl.le, Parser.after_after ..⟩
    · have := hc.unread_eq
      rw [hu] at this
      exact List.self_eq_append_right.mp this
    · rw [hu]
      exact fillParser_more hl

theorem collect_decodes {α : Type} {p : Parser Empty α} (hl : p.IsLocal)
    (hp : p.IsSafe) :
    Decodes (B := Slice) False Drained (fun (_ : Unit) s b => sufficient (collect p s b)) [] p := by
  refine ⟨fun s q => q = p.after s ∧ (s ≠ [] → p s = .more), ?_, rfl, by simp⟩
  rintro _ s q b ⟨rfl, hs⟩
  have hc := b.consumes_skip
  match hx : p (s ++ b.rest) with
  | .halt (.panicked m) rest          => exact absurd hx (hp _ m rest)
  | .halt (.finished (.error e)) rest => exact e.elim
  | .more =>
    have hc := hc b.rest.length
    rw [List.take_length] at hc
    have hd : unread (b.skip b.rest.length) = [] := List.self_eq_append_right.mp hc.unread_eq
    simp only [collect, hx, sufficient_none]
    exact ⟨b.rest, hc, hd, hx, by simp, fun _ => hx⟩
  | .halt (.finished (.ok a)) rest    =>
    have ⟨w, hw, hh⟩ := hl _ _ _ hx
    -- `p` was not done with the bits `s`, so it ends within the bits of `b`.
    obtain ⟨t, rfl, ht⟩ : ∃ t, w = s ++ t ∧ b.rest = t ++ rest := by
      rcases List.append_eq_append_iff.mp hw with ⟨t, ht, hr⟩ | ⟨t, ht, hr⟩
      · exact ⟨t, ht, hr⟩
      · cases t
        case nil => exact ⟨[], by simpa using ht.symm, by simpa using hr.symm⟩
        case cons x t =>
          have := hs (by simp [ht])
          rw [ht, hh (x :: t)] at this
          cases this
    have hc := hc t.length
    have hn : b.rest.length - rest.length = t.length := by simp [ht]
    have htake : b.rest.take t.length = t := by simp [ht]
    rw [htake] at hc
    simp only [collect, hx, sufficient_some, hn, htake]
    exact ⟨t, hc, a, rfl, Parser.Halts.after.mpr hh⟩

theorem vlqParser_isLocal : vlqParser.IsLocal := by
  apply (Parser.take_isLocal 8).bind
  intro w
  by_cases hx : Bits.ofBe (Bits.toBytes w) < 128
  case pos =>
    simp only [if_pos hx]
    exact Parser.pure_isLocal _
  case neg =>
    simp only [if_neg hx]
    apply (Parser.take_isLocal 64).bind
    intro w'
    split
    case isTrue  => exact Parser.pure_isLocal _
    case isFalse => exact Parser.never_isLocal

theorem vlqParser_isSafe : vlqParser.IsSafe := by
  apply (Parser.take_isSafe 8).bind
  intro w
  by_cases hx : Bits.ofBe (Bits.toBytes w) < 128
  case pos =>
    simp only [if_pos hx]
    exact Parser.pure_isSafe _
  case neg =>
    simp only [if_neg hx]
    apply (Parser.take_isSafe 64).bind
    intro w'
    split
    case isTrue  => exact Parser.pure_isSafe _
    case isFalse => exact Parser.never_isSafe

theorem vlqParser_halts (n : UInt64) :
    vlqParser.Halts (Bits.ofBytes (vlq n)) (.finished (.ok n)) := by
  have hn := n.toNat_lt
  unfold vlq
  by_cases h : n < 128
  case pos =>
    have h' : n.toNat < 128 := h
    have ht := Parser.take_halts (ε := Empty) (Bits.ofBytes (Bits.toBe 1 n.toNat))
    rw [if_pos h, ← List.append_nil (Bits.ofBytes _)]
    rw [Bits.length_ofBytes, Bits.length_toBe] at ht
    apply ht.bind
    simp only [Bits.toBytes_ofBytes, Bits.ofBe_toBe, Nat.mod_eq_of_lt (by omega : n.toNat < 256 ^ 1),
      if_pos h', UInt64.ofNat_toNat]
    exact Parser.pure_halts n
  case neg =>
    have h' : ¬n.toNat < 128 := h
    have ht := Parser.take_halts (ε := Empty) (Bits.ofBytes (Bits.toBe 8 n.toNat))
    rw [if_neg h, Bits.ofBytes_cons]
    rw [Bits.length_ofBytes, Bits.length_toBe] at ht
    have hf : Bits.ofBe (Bits.toBytes (Bits.ofByte 255)) = 255 := by decide
    apply (Parser.take_halts (Bits.ofByte 255)).bind
    rw [hf]
    rw [← List.append_nil (Bits.ofBytes _)]
    apply ht.bind
    simp only [Bits.toBytes_ofBytes, Bits.ofBe_toBe, Nat.mod_eq_of_lt (by omega : n.toNat < 256 ^ 8)]
    rw [if_pos ⟨trivial, by omega⟩, UInt64.ofNat_toNat]
    exact Parser.pure_halts n

theorem vlqParser_isCanonical : vlqParser.IsCanonical fun n => Bits.ofBytes (vlq n) := by
  have bytes {w : List Bool} (k : Nat) (hw : w.length = 8 * k) :
      Bits.ofBytes (Bits.toBe k (Bits.ofBe (Bits.toBytes w))) = w ∧
        Bits.ofBe (Bits.toBytes w) < 256 ^ k := by
    have hl : (Bits.toBytes w).length = k := by rw [Bits.length_toBytes]; omega
    have hb := Bits.toBe_ofBe (Bits.toBytes w)
    have hlt := Bits.ofBe_lt (Bits.toBytes w)
    rw [hl] at hb hlt
    exact ⟨by rw [hb, Bits.ofBytes_toBytes _ (hw ▸ Nat.dvd_mul_right ..)], hlt⟩
  intro bs n rest ha
  obtain ⟨w, mid, hw, h⟩ := Parser.accepts_bind.mp ha
  obtain ⟨hl, rfl⟩ := Parser.accepts_take.mp hw
  obtain ⟨hb, _⟩ := bytes 1 hl
  by_cases hx : Bits.ofBe (Bits.toBytes w) < 128
  case pos =>
    simp only [if_pos hx, Parser.accepts_pure] at h
    obtain ⟨rfl, rfl⟩ := h
    have ht : (UInt64.ofNat (Bits.ofBe (Bits.toBytes w))).toNat = Bits.ofBe (Bits.toBytes w) :=
      UInt64.toNat_ofNat_of_lt' (show _ < 2 ^ 64 by omega)
    have hn : UInt64.ofNat (Bits.ofBe (Bits.toBytes w)) < 128 :=
      UInt64.lt_iff_toNat_lt.mpr (ht.trans_lt hx)
    simp only [vlq, if_pos hn, ht, hb]
  case neg =>
    simp only [if_neg hx] at h
    obtain ⟨w', mid', hw', hn⟩ := Parser.accepts_bind.mp h
    obtain ⟨hl', rfl⟩ := Parser.accepts_take.mp hw'
    obtain ⟨hb', hlt⟩ := bytes 8 hl'
    split at hn
    case isFalse => cases hn
    case isTrue hx' =>
      obtain ⟨rfl, rfl⟩ := Parser.accepts_pure.mp hn
      have ht : (UInt64.ofNat (Bits.ofBe (Bits.toBytes w'))).toNat = Bits.ofBe (Bits.toBytes w') :=
        UInt64.toNat_ofNat_of_lt' hlt
      have hn : ¬UInt64.ofNat (Bits.ofBe (Bits.toBytes w')) < 128 := by
        rw [UInt64.lt_iff_toNat_lt, ht]
        exact Nat.not_lt.mpr hx'.2
      have hf : Bits.ofBytes (Bits.toBe 1 255) = w := hx'.1 ▸ hb
      simp only [vlq, if_neg hn, ht, Bits.ofBytes_cons, hb', List.append_assoc]
      rw [← hf]
      rfl

instance : LawfulBitBuf Slice where
  toBitSource := inferInstance
  vlqParser   := vlqParser
  readBool_nil {b} h := by
    have hr : b.rest = [] := h
    have hc := b.consumes_skip 1
    rw [hr] at hc
    exact ⟨by simp [BitBuf.readBool, hr], by simpa [BitBuf.readBool, hr] using hc⟩
  readBool_cons {b x bs} h := by
    have hr : b.rest = x :: bs := h
    have hc := b.consumes_skip 1
    rw [hr] at hc
    exact ⟨by simp [BitBuf.readBool, hr], by simpa [BitBuf.readBool, hr] using hc⟩
  fill_decodes data := Slice.fill_decodes data _
  cappedFill_decodes data n h := ⟨⟨data, n, []⟩, if_pos h, Slice.fill_decodes data n⟩
  vlq_decodes := collect_decodes vlqParser_isLocal vlqParser_isSafe

instance : LawfulBitSlice Slice where
  toLawfulBitBuf     := inferInstance
  unread_new _       := rfl
  taken_new _        := rfl
  advance_some {b n} h := by
    have h : n ≤ b.rest.length := h
    have hc := b.consumes_skip n
    rw [List.length_take_of_le h] at hc
    exact ⟨_, if_pos h, hc⟩
  len_eq_taken _     := rfl

end Slice

structure SliceMut where
  bits : List Bool
  pos  : Nat
  le   : pos ≤ bits.length

namespace SliceMut

instance : BitSink SliceMut where
  image b     := b.bits
  filled      := pos
  filled_le b := b.le

theorem pos_le_length_overwrite (w : List Bool) (b : SliceMut) :
    b.pos + (w.take (room b)).length ≤ (overwrite b.bits b.pos (w.take (room b))).length := by
  have := b.le
  simp only [overwrite, room, image, filled, List.length_append, List.length_take,
    List.length_drop]
  omega

def write (w : List Bool) (b : SliceMut) : SliceMut where
  bits := overwrite b.bits b.pos (w.take (room b))
  pos  := b.pos + (w.take (room b)).length
  le   := pos_le_length_overwrite w b

def drainInto (w : List Bool) (b : SliceMut) : Partial Unit (List Bool) SliceMut :=
  (if w.length ≤ room b then some () else none, w.drop (room b), b.write w)

instance : BitBufMut SliceMut where
  writeBool x b         := (if room b = 0 then none else some (), b.write [x])
  Drain                 := List Bool
  newDrain              := Bits.ofBytes
  drainInto             := drainInto
  CappedDrain           := List Bool
  newCappedDrain data n := if n ≤ 8 * data.length then some ((Bits.ofBytes data).take n) else none
  cappedDrainInto       := drainInto
  len                   := pos
  vlq                   := Slice.vlq

instance : BitSliceMut SliceMut where
  new xs               := ⟨Bits.ofBytes xs, 0, Nat.zero_le _⟩
  advance n b          := if h : b.pos + n ≤ b.bits.length then some ⟨b.bits, b.pos + n, h⟩ else none
  writeAlignedAll xs b :=
    if b.pos % 8 = 0 ∧ 8 * xs.length ≤ room b then some (b.write (Bits.ofBytes xs)) else none
  bytes b              := Bits.toBytes b.bits

theorem write_produces (w : List Bool) (b : SliceMut) :
    Produces b (w.take (room b)) (b.write w) := by
  refine ⟨?_, rfl, rfl⟩
  have : filled b ≤ (image b).length := b.le
  simp only [room, List.length_take]
  omega

theorem drainInto_drains (w : List Bool) : Drains drainInto w w :=
  ⟨(· = ·), rfl, fun w _ b h => h ▸ ⟨rfl, write_produces w b, rfl⟩⟩

instance : LawfulBitBufMut SliceMut where
  toBitSink := inferInstance
  writeBool_full {b} x h := by
    have hp := write_produces [x] b
    have h : room b = 0 := h
    rw [h] at hp
    exact ⟨if_pos h, hp⟩
  writeBool_room {b} x h := by
    have hp := write_produces [x] b
    have h : 0 < room b := h
    rw [List.take_of_length_le h] at hp
    exact ⟨if_neg h.ne', hp⟩
  drain_drains data         := drainInto_drains _
  cappedDrain_drains data n h := ⟨_, if_pos h, drainInto_drains _⟩
  len_eq b                  := rfl

instance : LawfulBitSliceMut SliceMut where
  toLawfulBitBufMut       := inferInstance
  image_new _             := rfl
  filled_new _            := rfl
  advance_some {b n} h    := by
    have h : b.pos + n ≤ b.bits.length := by
      have : n ≤ b.bits.length - b.pos := h
      have := b.le
      omega
    exact ⟨_, dif_pos h, rfl, rfl⟩
  writeAlignedAll_some {b xs} ha h := by
    have hp := write_produces (Bits.ofBytes xs) b
    rw [List.take_of_length_le (by rwa [Bits.length_ofBytes])] at hp
    exact ⟨_, if_pos ⟨ha, h⟩, hp⟩
  bytes_eq _              := rfl

theorem writeAlignedAll_produces {b b' : SliceMut} {xs : List UInt8}
    (h : BitSliceMut.writeAlignedAll xs b = some b') : ∃ w, Produces b w b' := by
  simp only [BitSliceMut.writeAlignedAll] at h
  split at h
  case isTrue  =>
    cases h
    exact ⟨_, write_produces _ b⟩
  case isFalse => cases h

instance : KeepsWritten SliceMut where
  length_image h :=
    have ⟨_, hp⟩ := writeAlignedAll_produces h
    hp.length_image
  take_image h   := by
    have ⟨_, hp⟩ := writeAlignedAll_produces h
    exact hp.take_image

instance : LawfulVlq Slice SliceMut where
  vlq_halts := Slice.vlqParser_halts

instance : CanonicalVlq Slice SliceMut where
  vlq_isCanonical := Slice.vlqParser_isCanonical

end SliceMut

end Mincodec
