import Mincodec.Bits
import Mincodec.Stream.Canonical
import Mincodec.Stream.Source
import Mincodec.Stream.Sink

-- The crates `bitbuf` and `bitbuf-vlq` are not part of the repository. What the codecs call of
-- them is a parameter, and what is assumed of it is named in the `Lawful` classes.
namespace Mincodec

open Stream BitSource BitSink

-- The result of a partial operation: `none` is `Err(Insufficient)`.
abbrev Partial (α S B : Type) :=
  Option α × S × B

-- The `sufficient!` macro: `Insufficient` is reported to the caller.
def sufficient {α S B ε : Type} : Partial α S B → Polled S B (Except ε α)
  | (some a, s, b) => ⟨.ready (.ok a), s, b⟩
  | (none, s, b)   => ⟨.insufficient, s, b⟩

@[simp] theorem sufficient_some {α S B ε : Type} (a : α) (s : S) (b : B) :
    (sufficient (some a, s, b) : Polled S B (Except ε α)) = ⟨.ready (.ok a), s, b⟩ := rfl

@[simp] theorem sufficient_none {α S B ε : Type} (s : S) (b : B) :
    (sufficient (none, s, b) : Polled S B (Except ε α)) = ⟨.insufficient, s, b⟩ := rfl

theorem sufficient_ne_pending {α S B ε : Type} (x : Partial α S B) :
    (sufficient x : Polled S B (Except ε α)).outcome ≠ .pending := by
  obtain ⟨_ | a, s, b⟩ := x <;> simp

class BitBuf (B : Type) where
  readBool        : B → Option Bool × B
  Fill            : Type
  newFill         : List UInt8 → Fill
  fillFrom        : Fill → B → Partial Unit Fill B
  fillInner       : Fill → List UInt8
  CappedFill      : Type
  newCappedFill   : List UInt8 → Nat → Option CappedFill
  cappedFillFrom  : CappedFill → B → Partial Unit CappedFill B
  cappedFillInner : CappedFill → List UInt8
  AsyncReadVlq    : Type
  asyncRead       : AsyncReadVlq
  pollRead        : AsyncReadVlq → B → Partial UInt64 AsyncReadVlq B

namespace BitBuf

variable {B : Type} [BitBuf B]

def pollBool (b : B) : Polled Unit B (Except Empty Bool) :=
  sufficient ((readBool b).1, (), (readBool b).2)

def pollFill (f : Fill B) (b : B) : Polled (Fill B) B (Except Empty (List UInt8)) :=
  (sufficient (fillFrom f b)).andThen id id fun _ f b => ⟨.ready (.ok (fillInner f)), f, b⟩

def pollCappedFill (f : CappedFill B) (b : B) : Polled (CappedFill B) B (Except Empty (List UInt8)) :=
  (sufficient (cappedFillFrom f b)).andThen id id fun _ f b =>
    ⟨.ready (.ok (cappedFillInner f)), f, b⟩

def pollVlq (v : AsyncReadVlq B) (b : B) : Polled (AsyncReadVlq B) B (Except Empty UInt64) :=
  sufficient (pollRead v b)

end BitBuf

def fillParser (data : List UInt8) (n : Nat) : Parser Empty (List UInt8) :=
  (Parser.take n).map fun w => Bits.toBytes (w ++ (Bits.ofBytes data).drop n)

theorem fillParser_halts (data : List UInt8) (w : List Bool) :
    (fillParser data w.length).Halts w
      (.finished (.ok (Bits.toBytes (w ++ (Bits.ofBytes data).drop w.length)))) :=
  (Parser.take_halts w).map

theorem fillParser_more {data : List UInt8} {n : Nat} {bs : List Bool} (h : bs.length < n) :
    fillParser data n bs = .more :=
  Parser.bind_more (if_neg (by omega))

theorem length_lt_of_fillParser_more {data : List UInt8} {n : Nat} {bs : List Bool}
    (h : fillParser data n bs = .more) : bs.length < n := by
  by_contra hn
  simp [fillParser, Parser.map, Parser.bind, Parser.take, Nat.not_lt.mp hn, Parser.pure] at h

theorem fillParser_ending {data : List UInt8} {n : Nat} {w : List Bool}
    {e : Ending Empty (List UInt8)} (h : (fillParser data n).Halts w e) :
    w.length = n ∧ e = .finished (.ok (Bits.toBytes (w ++ (Bits.ofBytes data).drop n))) := by
  have hn : n ≤ w.length := by
    by_contra hn
    have := h []
    rw [List.append_nil, fillParser_more (Nat.not_le.mp hn)] at this
    cases this
  have hw := fillParser_halts data (w.take n)
  rw [List.length_take_of_le hn] at hw
  have ⟨he, hd⟩ := hw.unique h (List.take_append_drop n w)
  have hl := congrArg List.length hd
  rw [List.length_drop, List.length_nil] at hl
  have hn : w.length = n := by omega
  rw [← he, List.take_of_length_le hn.le]
  exact ⟨hn, rfl⟩

-- Reads are in order, each takes all bits it can use before it reports `Insufficient`, and what it
-- has taken is kept for the next read.
class LawfulBitBuf (B : Type) [BitBuf B] extends BitSource B where
  vlqParser : Parser Empty UInt64
  readBool_nil {b : B} : unread b = [] →
    (BitBuf.readBool b).1 = none ∧ Consumes b [] (BitBuf.readBool b).2
  readBool_cons {b : B} {x : Bool} {bs : List Bool} : unread b = x :: bs →
    (BitBuf.readBool b).1 = some x ∧ Consumes b [x] (BitBuf.readBool b).2
  fill_decodes (data : List UInt8) :
    Decodes (B := B) False Drained (fun (_ : Unit) => BitBuf.pollFill) (BitBuf.newFill data)
      (fillParser data (8 * data.length))
  cappedFill_decodes (data : List UInt8) (n : Nat) : n ≤ 8 * data.length →
    ∃ f, BitBuf.newCappedFill data n = some f ∧
      Decodes (B := B) False Drained (fun (_ : Unit) => BitBuf.pollCappedFill) f (fillParser data n)
  vlq_decodes : Decodes (B := B) False Drained (fun (_ : Unit) => BitBuf.pollVlq) BitBuf.asyncRead vlqParser

namespace BitBuf

variable {B : Type} {Wait : Prop} [BitBuf B] [LawfulBitBuf B]

theorem fill_decodes (data : List UInt8) :
    Decodes (B := B) Wait Drained (fun (_ : Unit) => pollFill) (newFill data)
      (fillParser data (8 * data.length)) :=
  (LawfulBitBuf.fill_decodes data).mono False.elim fun _ => id

theorem cappedFill_decodes {data : List UInt8} {n : Nat} (h : n ≤ 8 * data.length) :
    ∃ f, newCappedFill data n = some f ∧
      Decodes (B := B) Wait Drained (fun (_ : Unit) => pollCappedFill) f (fillParser data n) := by
  have ⟨f, hn, hf⟩ := LawfulBitBuf.cappedFill_decodes (B := B) data n h
  exact ⟨f, hn, hf.mono False.elim fun _ => id⟩

theorem vlq_decodes :
    Decodes (B := B) Wait Drained (fun (_ : Unit) => pollVlq) asyncRead
      (LawfulBitBuf.vlqParser B) :=
  LawfulBitBuf.vlq_decodes.mono False.elim fun _ => id

end BitBuf

theorem BitBuf.pollBool_follows {B : Type} {Wait : Prop} [BitBuf B] [LawfulBitBuf B] (b : B) :
    Follows Wait Drained (fun _ q => q = Parser.bit) Returns Parser.bit b (pollBool b) := by
  unfold pollBool
  cases hu : unread b
  case nil =>
    obtain ⟨hr, hc⟩ := LawfulBitBuf.readBool_nil hu
    rw [hr]
    have hd : unread (readBool b).2 = [] := by simpa [hu] using hc.unread_eq.symm
    exact ⟨[], hc, hd, by simp [hu, Parser.bit], rfl⟩
  case cons x bs =>
    obtain ⟨hr, hc⟩ := LawfulBitBuf.readBool_cons hu
    rw [hr]
    exact ⟨[x], hc, x, rfl, Parser.bit_halts x⟩

theorem BitBuf.pollBool_andThen {B S' β γ ε : Type} {Wait : Prop} [BitBuf B] [LawfulBitBuf B]
    {R : S' → Parser ε β → Prop} {Post : γ → S' → β → Prop} {f : Bool → Parser ε β}
    {put : Unit → S'} {g : Empty → ε} {k : Bool → Unit → B → Polled S' B (Except ε γ)}
    (hput : ∀ s, R (put s) (Parser.bit.bind f))
    (hk : ∀ x s b', Follows Wait Drained R Post (f x) b' (k x s b')) (b : B) :
    Follows Wait Drained R Post (Parser.bit.bind f) b ((pollBool b).andThen put g k) := by
  rw [← Parser.mapErr_bit g]
  apply (pollBool_follows b).andThen
  · rintro s _ rfl
    simpa using hput s
  · rintro x s b' _ rfl
    exact hk x s b'

class BitBufMut (B : Type) where
  writeBool       : Bool → B → Option Unit × B
  Drain           : Type
  newDrain        : List UInt8 → Drain
  drainInto       : Drain → B → Partial Unit Drain B
  CappedDrain     : Type
  newCappedDrain  : List UInt8 → Nat → Option CappedDrain
  cappedDrainInto : CappedDrain → B → Partial Unit CappedDrain B
  len             : B → Nat
  -- The bytes of `Vlq::from`.
  vlq             : UInt64 → List UInt8

namespace BitBufMut

variable {B : Type} [BitBufMut B]

def pollWriteBool (x : Bool) (b : B) : Polled Unit B (Except Empty Unit) :=
  sufficient ((writeBool x b).1, (), (writeBool x b).2)

def pollDrain (d : Drain B) (b : B) : Polled (Drain B) B (Except Empty Unit) :=
  sufficient (drainInto d b)

def pollCappedDrain (d : CappedDrain B) (b : B) : Polled (CappedDrain B) B (Except Empty Unit) :=
  sufficient (cappedDrainInto d b)

end BitBufMut

def Drains {B D : Type} [BitSink B] (drain : D → B → Partial Unit D B) (d : D) (w : List Bool) :
    Prop :=
  ∃ R : D → List Bool → Prop, R d w ∧ ∀ d w b, R d w →
    ((drain d b).1 = if w.length ≤ room b then some () else none) ∧
    Produces b (w.take (room b)) (drain d b).2.2 ∧ R (drain d b).2.1 (w.drop (room b))

namespace Drains

variable {B D : Type} [BitSink B] {drain : D → B → Partial Unit D B} {d : D} {w : List Bool}

theorem step (h : Drains drain d w) (b : B) :
    ((drain d b).1 = if w.length ≤ room b then some () else none) ∧
    Produces b (w.take (room b)) (drain d b).2.2 ∧
    Drains drain (drain d b).2.1 (w.drop (room b)) := by
  have ⟨R, hd, hr⟩ := h
  have ⟨h₁, h₂, h₃⟩ := hr d w b hd
  exact ⟨h₁, h₂, R, h₃, hr⟩

theorem writesOnce (h : Drains drain d w) (b : B) :
    WritesOnce w b (sufficient (drain d b) : Polled D B (Except Empty Unit)) := by
  have ⟨ho, hp, _⟩ := h.step b
  match hx : drain d b with
  | (some (), d', b') =>
    simp only [hx] at ho hp
    have hl : w.length ≤ room b := by
      by_contra hc
      simp [hc] at ho
    rw [List.take_of_length_le hl] at hp
    exact ⟨fun _ => ⟨rfl, hp⟩, fun hs => by omega⟩
  | (none, d', b') =>
    simp only [hx] at ho hp
    have hl : room b < w.length := by
      by_contra hc
      simp [Nat.not_lt.mp hc] at ho
    exact ⟨fun hf => by omega, fun _ => ⟨rfl, hp⟩⟩

theorem writes (h : Drains drain d w) (b : B) :
    Writes Full (fun d e => ∃ w, Drains drain d w ∧ e = .done w) (.done w) b
      (sufficient (drain d b) : Polled D B (Except Empty Unit)) := by
  have ⟨ho, hp, hd⟩ := h.step b
  refine ⟨w.take (room b), ?_⟩
  match hx : drain d b with
  | (some (), d', b') =>
    simp only [hx] at ho hp
    have hl : w.length ≤ room b := by
      by_contra hc
      simp [hc] at ho
    rw [List.take_of_length_le hl] at hp ⊢
    exact ⟨hp, rfl⟩
  | (none, d', b') =>
    simp only [hx] at ho hp hd
    have hl : room b < w.length := by
      by_contra hc
      simp [Nat.not_lt.mp hc] at ho
    have hr := hp.room_eq
    rw [List.length_take] at hr
    exact ⟨hp, show room b' = 0 by omega, .done (w.drop (room b)), by simp, _, hd, rfl⟩

end Drains

class LawfulBitBufMut (B : Type) [BitBufMut B] extends BitSink B where
  writeBool_full {b : B} (x : Bool) : room b = 0 →
    (BitBufMut.writeBool x b).1 = none ∧ Produces b [] (BitBufMut.writeBool x b).2
  writeBool_room {b : B} (x : Bool) : 0 < room b →
    (BitBufMut.writeBool x b).1 = some () ∧ Produces b [x] (BitBufMut.writeBool x b).2
  drain_drains (data : List UInt8) :
    Drains BitBufMut.drainInto (BitBufMut.newDrain (B := B) data) (Bits.ofBytes data)
  cappedDrain_drains (data : List UInt8) (n : Nat) : n ≤ 8 * data.length →
    ∃ d, BitBufMut.newCappedDrain (B := B) data n = some d ∧
      Drains BitBufMut.cappedDrainInto d ((Bits.ofBytes data).take n)
  len_eq (b : B) : BitBufMut.len b = filled b

namespace BitBufMut

variable {B : Type} [BitBufMut B] [LawfulBitBufMut B]

theorem pollWriteBool_writesOnce (x : Bool) (b : B) : WritesOnce [x] b (pollWriteBool x b) := by
  unfold pollWriteBool
  by_cases hb : room b = 0
  case pos =>
    have ⟨hw, hp⟩ := LawfulBitBufMut.writeBool_full x hb
    rw [hw]
    exact ⟨fun h => by simp [hb] at h, fun _ => ⟨rfl, by simpa [hb] using hp⟩⟩
  case neg =>
    have ⟨hw, hp⟩ := LawfulBitBufMut.writeBool_room x (Nat.pos_of_ne_zero hb)
    rw [hw]
    exact ⟨fun _ => ⟨rfl, hp⟩, fun h => by simp at h; omega⟩

theorem pollWriteBool_writes (x : Bool) (b : B) :
    Writes Full (fun _ e => e = .done [x]) (.done [x]) b (pollWriteBool x b) := by
  unfold pollWriteBool
  by_cases hb : room b = 0
  case pos =>
    have ⟨hw, hp⟩ := LawfulBitBufMut.writeBool_full x hb
    have hr := hp.room_eq
    rw [hw]
    exact ⟨[], hp, show room (writeBool x b).2 = 0 by simp_all, _, rfl, rfl⟩
  case neg =>
    have ⟨hw, hp⟩ := LawfulBitBufMut.writeBool_room x (Nat.pos_of_ne_zero hb)
    rw [hw]
    exact ⟨[x], hp, rfl⟩

theorem pollWriteBool_andThen {S' ε : Type} {R : S' → Emission ε → Prop} {f : Emission ε}
    {put : Unit → S'} {g : Empty → ε} {k : Unit → Unit → B → Polled S' B (Except ε Unit)} {x : Bool}
    (hput : ∀ s, R (put s) (f.prepend [x])) (hk : ∀ s b', Writes Full R f b' (k () s b')) (b : B) :
    Writes Full R (f.prepend [x]) b ((pollWriteBool x b).andThen put g k) := by
  apply (pollWriteBool_writes x b).andThen
  · rintro s _ rfl
    exact hput s
  · exact hk

end BitBufMut

class LawfulVlq (B B' : Type) [BitBuf B] [LawfulBitBuf B] [BitBufMut B'] : Prop where
  vlq_halts (n : UInt64) :
    (LawfulBitBuf.vlqParser B).Halts (Bits.ofBytes (BitBufMut.vlq B' n)) (.finished (.ok n))

class CanonicalVlq (B B' : Type) [BitBuf B] [LawfulBitBuf B] [BitBufMut B'] : Prop where
  vlq_isCanonical :
    (LawfulBitBuf.vlqParser B).IsCanonical fun n => Bits.ofBytes (BitBufMut.vlq B' n)

end Mincodec
