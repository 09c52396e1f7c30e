import Mincodec.Items

-- The codecs that `array_impl!` generates, for arrays of `n` items.
namespace Mincodec

open Stream BitSource BitSink

variable {Ctx B T : Type} {Wait : Prop} {n : Nat} {r : MinCodecRead Ctx B T} {w : MinCodecWrite Ctx B T}

-- An `ArrayVec` holds as many items as the array at most.
structure ArrayDeserialize (r : MinCodecRead Ctx B T) (n : Nat) where
  data  : List T
  deser : r.Deserialize
  fits  : data.length ≤ n

structure ArraySerialize (w : MinCodecWrite Ctx B T) where
  data : List T
  ser  : Option w.Serialize

namespace ArrayDeserialize

def pollItem (ctx : Ctx) (this : ArrayDeserialize r n) (h : this.data.length < n) (b : B) :
    Polled (ArrayDeserialize r n) B (Except r.Error (List.Vector T n)) :=
  (r.pollDeserialize ctx this.deser b).andThen (fun deser => { this with deser }) id
    fun item deser b =>
      if h' : this.data.length + 1 < n then
        have hl : (this.data ++ [item]).length = this.data.length + 1 := List.length_append
        pollItem ctx ⟨this.data ++ [item], r.deserialize, hl.trans_le h⟩ (hl.trans_lt h') b
      else
        have hl : (this.data ++ [item]).length = this.data.length + 1 := List.length_append
        ⟨.ready (.ok ⟨this.data ++ [item], hl.trans (Nat.le_antisymm h (Nat.le_of_not_lt h'))⟩),
          ⟨[], deser, n.zero_le⟩, b⟩
termination_by n - this.data.length
decreasing_by omega

def pollDeserialize (ctx : Ctx) (this : ArrayDeserialize r n) (b : B) :
    Polled (ArrayDeserialize r n) B (Except r.Error (List.Vector T n)) :=
  if h : this.data.length < n then
    this.pollItem ctx h b
  else
    ⟨.panicked "array deserialize polled after completion", this, b⟩

end ArrayDeserialize

def arrayRead (r : MinCodecRead Ctx B T) (n : Nat) : MinCodecRead Ctx B (List.Vector T n) where
  Deserialize     := ArrayDeserialize r n
  Error           := r.Error
  deserialize     := ⟨[], r.deserialize, n.zero_le⟩
  pollDeserialize := ArrayDeserialize.pollDeserialize

def ArraySerialize.pollSerialize (ctx : Ctx) (this : ArraySerialize w) (b : B) :
    Polled (ArraySerialize w) B (Except w.Error Unit) :=
  (pollItems w ctx this.data this.ser b).lift (fun s => ⟨s.1, s.2⟩) id

def arrayWrite (w : MinCodecWrite Ctx B T) (n : Nat) : MinCodecWrite Ctx B (List.Vector T n) where
  Serialize       := ArraySerialize w
  Error           := w.Error
  serialize items := ⟨items.toList, none⟩
  pollSerialize   := ArraySerialize.pollSerialize

def arrayParser {ε : Type} (p : Parser ε T) (n : Nat) : Parser ε (List.Vector T n) :=
  p.replicate n

def arrayBits (enc : T → List Bool) (items : List.Vector T n) : List Bool :=
  items.toList.flatMap enc

def glue {k : Nat} (data : List T) (hk : data.length + k = n) (items : List.Vector T k) :
    List.Vector T n :=
  ⟨data ++ items.toList, by rw [List.length_append, items.toList_length, hk]⟩

theorem glue_cons {k : Nat} (data : List T) (hk : data.length + (k + 1) = n) (item : T) :
    glue data hk ∘ .cons item = glue (k := k) (data ++ [item]) (by simp; omega) := by
  funext items
  apply Subtype.ext
  simp [glue]

namespace ArrayDeserialize

variable [BitSource B] {p q : Parser r.Error T}

def rest (p q : Parser r.Error T) (data : List T) (k : Nat) (hk : data.length + (k + 1) = n) :
    Parser r.Error (List.Vector T n) :=
  q.bind fun item => (p.replicate k).map (glue data hk ∘ .cons item)

def Reads (Wait : Prop) (p : Parser r.Error T) (this : ArrayDeserialize r n)
    (q : Parser r.Error (List.Vector T n)) : Prop :=
  ∃ q' k, ∃ hk, Decodes Wait Drained r.pollDeserialize this.deser q' ∧ q = rest p q' this.data k hk

theorem pollItem_follows (hp : r.Decodes Wait p) (ctx : Ctx) (this : ArrayDeserialize r n)
    (h : this.data.length < n) (b : B) {q : Parser r.Error (List.Vector T n)}
    (hq : Reads Wait p this q) : Follows Wait Drained (Reads Wait p) Returns q b (pollItem ctx this h b) := by
  obtain ⟨q, k, hk, hd, rfl⟩ := hq
  induction k generalizing this q b
  all_goals
    unfold pollItem rest
    apply (hd.follows ctx b).andThen_id
    · exact fun deser q h => ⟨q, _, hk, h, rfl⟩
    rintro item deser b' _ rfl
  case zero =>
    rw [dif_neg (by omega)]
    exact .ready rfl
  case succ k hi =>
    rw [dif_pos (by omega), glue_cons, Parser.replicate_succ, Parser.bind_map]
    simp only [Parser.map_map]
    exact hi ⟨_, r.deserialize, _⟩ _ _ _ _ hp

end ArrayDeserialize

theorem arrayRead_decodes [BitSource B] {p : Parser r.Error T} (hp : r.Decodes Wait p) (hn : 0 < n) :
    (arrayRead r n).Decodes Wait (arrayParser p n) := by
  obtain ⟨n, rfl⟩ := Nat.exists_eq_succ_of_ne_zero hn.ne'
  refine ⟨ArrayDeserialize.Reads Wait p, ?_, p, n, n.succ.zero_add, hp, ?_⟩
  case refine_2 =>
    unfold arrayParser ArrayDeserialize.rest
    rw [Parser.replicate_succ]
    congr 1
  rintro c s q b hq
  have ⟨q', k, hk, _⟩ := hq
  show Follows _ _ _ _ _ b (ArrayDeserialize.pollDeserialize c s b)
  unfold ArrayDeserialize.pollDeserialize
  rw [dif_pos (by omega)]
  exact ArrayDeserialize.pollItem_follows hp c s _ b hq

theorem arrayWrite_encodesOnce [BitSink B] {enc : T → List Bool} (h : w.EncodesOnce enc) (n : Nat) :
    (arrayWrite w n).EncodesOnce (arrayBits enc) := by
  intro items c b
  show WritesOnce (items.toList.flatMap enc) b
    (ArraySerialize.pollSerialize c ⟨items.toList, none⟩ b)
  unfold ArraySerialize.pollSerialize
  exact (pollItems_writesOnce h c _ _ b).finish fun _ _ => .ready

theorem arrayParser_halts {ε : Type} {p : Parser ε T} {enc : T → List Bool}
    (h : ∀ v, p.Halts (enc v) (.finished (.ok v))) (v : List.Vector T n) :
    (arrayParser p n).Halts (arrayBits enc v) (.finished (.ok v)) :=
  Parser.replicate_halts h v

end Mincodec
