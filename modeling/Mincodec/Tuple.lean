import Mincodec.Primitive
import Mincodec.Theorems.Fields

-- The codecs of tuples: `(T,)` is a mapped `T`, `tuple_impls!` generates the codecs of all others.
namespace Mincodec

open Stream BitSource BitSink

variable {Ctx B : Type} {Wait : Prop}

section
variable {T : Fin 1 → Type}

def tuple1Read (r : MinCodecRead Ctx B (T 0)) : MinCodecRead Ctx B ((i : Fin 1) → T i) :=
  mapRead r fun item => (.ok (Fin.cases item fun i => i.elim0) : Except Empty _)

def tuple1Write (w : MinCodecWrite Ctx B (T 0)) : MinCodecWrite Ctx B ((i : Fin 1) → T i) :=
  mapWrite w fun item => (.ok (item 0) : Except Empty _)

end

variable {n : Nat} {T : Fin n → Type}
variable {rs : (i : Fin n) → MinCodecRead Ctx B (T i)}
variable {ws : (i : Fin n) → MinCodecWrite Ctx B (T i)}

structure TupleDeserialize (rs : (i : Fin n) → MinCodecRead Ctx B (T i)) where
  index : Nat
  data  : Slots rs

structure TupleSerialize (ws : (i : Fin n) → MinCodecWrite Ctx B (T i)) where
  index : Nat
  sers  : Sers ws

def TupleDeserialize.pollDeserialize (ctx : Ctx) (this : TupleDeserialize rs) (b : B) :
    Polled (TupleDeserialize rs) B (Except (FieldError fun i => (rs i).Error) ((i : Fin n) → T i)) :=
  (this.data.poll 256 ctx this.index b).andThen (fun s => ⟨s.1, s.2⟩) id fun _ s b =>
    if s.1 = n then
      match s.2.unwrap with
      | some v => ⟨.ready (.ok v), ⟨n + 1, s.2.take⟩, b⟩
      | none   => ⟨.panicked unwrapNone, ⟨n + 1, s.2.take⟩, b⟩
    else
      ⟨.panicked "tuple serialize polled after completion", ⟨s.1, s.2⟩, b⟩

def TupleSerialize.pollSerialize (ctx : Ctx) (this : TupleSerialize ws) (b : B) :
    Polled (TupleSerialize ws) B (Except (FieldError fun i => (ws i).Error) Unit) :=
  (this.sers.poll 0 256 ctx this.index b).andThen (fun s => ⟨s.1, s.2⟩) id fun _ s b =>
    if s.1 = n then
      ⟨.ready (.ok ()), ⟨n + 1, s.2⟩, b⟩
    else
      ⟨.panicked "tuple serialize polled after completion", ⟨s.1, s.2⟩, b⟩

def tupleRead (rs : (i : Fin n) → MinCodecRead Ctx B (T i)) :
    MinCodecRead Ctx B ((i : Fin n) → T i) where
  Deserialize     := TupleDeserialize rs
  Error           := FieldError fun i => (rs i).Error
  deserialize     := ⟨0, .new rs⟩
  pollDeserialize := TupleDeserialize.pollDeserialize

def tupleWrite (ws : (i : Fin n) → MinCodecWrite Ctx B (T i)) :
    MinCodecWrite Ctx B ((i : Fin n) → T i) where
  Serialize       := TupleSerialize ws
  Error           := FieldError fun i => (ws i).Error
  serialize items := ⟨0, fun i => (ws i).serialize (items i)⟩
  pollSerialize   := TupleSerialize.pollSerialize

theorem tupleRead_decodes [BitSource B] {ps : (i : Fin n) → Parser (rs i).Error (T i)}
    (hr : ∀ i, (rs i).Decodes Wait (ps i)) (hl : n < 256) :
    (tupleRead rs).Decodes Wait (fieldsParser ps) := by
  refine ⟨fun (s : TupleDeserialize rs) q => Slots.Reads Wait ps (s.index, s.data) q, ?_,
    Slots.new_reads hr⟩
  intro c s q b h
  show Follows _ _ _ _ _ b (TupleDeserialize.pollDeserialize c s b)
  unfold TupleDeserialize.pollDeserialize
  apply (Slots.poll_follows hr hl c h b).finish
  · exact fun _ _ h => h
  rintro _ s b' v ⟨hs, hv⟩
  rw [if_pos hs, Slots.unwrap_eq_some hv]
  exact .ready rfl

theorem TupleSerialize.poll_finish {ctx : Ctx} {k : Nat} {sers : Sers ws} {b : B} (h : k ≤ n) :
    ((sers.poll 0 256 ctx k b).andThen (fun s => TupleSerialize.mk s.1 s.2) id fun _ s b =>
      if s.1 = n then
        ⟨.ready (.ok ()), ⟨n + 1, s.2⟩, b⟩
      else
        ⟨.panicked "tuple serialize polled after completion", ⟨s.1, s.2⟩, b⟩) =
    (sers.poll 0 256 ctx k b).andThen (fun s => TupleSerialize.mk s.1 s.2) id fun _ s b =>
      ⟨.ready (.ok ()), ⟨n + 1, s.2⟩, b⟩ := by
  apply Polled.andThen_congr
  intro _ hx
  have := Sers.poll_index h hx
  rw [if_pos (by omega)]

theorem tupleWrite_encodes [BitSink B] {encs : (i : Fin n) → T i → Emission (ws i).Error}
    (hw : ∀ i, (ws i).Encodes (encs i)) (hl : n < 256) :
    (tupleWrite ws).Encodes (fieldsEmission encs) := by
  intro v
  refine ⟨fun (s : TupleSerialize ws) e => Sers.WritesOf Full encs v 0 (s.index, s.sers) e, ?_,
    Sers.writesOf_of_fresh (fun i => hw i (v i)) n.zero_le fun _ _ => rfl⟩
  intro c s e b h
  have hk : s.index ≤ n := by simpa using Sers.WritesOf.index_le h
  show Writes _ _ _ b (TupleSerialize.pollSerialize c s b)
  unfold TupleSerialize.pollSerialize
  rw [TupleSerialize.poll_finish hk]
  rw [← Nat.zero_add s.index] at h
  apply (Sers.poll_writes (fun i => hw i (v i)) (by omega) c h b).finish_id
  · exact fun _ _ h => h
  · exact fun _ _ => .ready

theorem tupleWrite_encodesOnce [BitSink B] {encs : (i : Fin n) → T i → List Bool}
    (hw : ∀ i, (ws i).EncodesOnce (encs i)) (hl : n < 256) :
    (tupleWrite ws).EncodesOnce (fieldsBits encs) := by
  intro v c b
  show WritesOnce _ b (TupleSerialize.pollSerialize c ⟨0, fun i => (ws i).serialize (v i)⟩ b)
  unfold TupleSerialize.pollSerialize
  rw [TupleSerialize.poll_finish n.zero_le]
  exact (Sers.poll_writesOnce hw (by omega) c (fun _ _ => rfl) b).finish fun _ _ => .ready

end Mincodec
