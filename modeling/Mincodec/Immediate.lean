import Mincodec.Codec

-- The adapters that read a value from a fixed buffer and write one into it.
namespace Mincodec

open Stream BitSource BitSink

variable {Ctx B T : Type} {r : MinCodecRead Ctx B T} {w : MinCodecWrite Ctx B T}

inductive ReadImmediateError (ε : Type)
  | insufficient
  | deserialize (e : ε)

structure ReadImmediate (r : MinCodecRead Ctx B T) where
  deser : r.Deserialize
  buf   : B
  done  : Bool

def ReadImmediate.poll (ctx : Ctx) (this : ReadImmediate r) :
    Poll (Except (ReadImmediateError r.Error) T) × ReadImmediate r :=
  if this.done then
    (.panicked "ReadImmediate polled after completion", this)
  else
    let x := r.pollDeserialize ctx this.deser this.buf
    match x.outcome with
    | .pending      => (.pending, ⟨x.state, x.buf, false⟩)
    | .insufficient => (.ready (.error .insufficient), ⟨x.state, x.buf, true⟩)
    | .ready item   => (.ready (item.mapError .deserialize), ⟨x.state, x.buf, true⟩)
    | .panicked msg => (.panicked msg, ⟨x.state, x.buf, false⟩)

def MinCodecRead.readImmediate (r : MinCodecRead Ctx B T) (buf : B) : ReadImmediate r :=
  ⟨r.deserialize, buf, false⟩

inductive WriteImmediateError (ε : Type)
  | insufficient
  | serialize (e : ε)

structure WriteImmediate (w : MinCodecWrite Ctx B T) where
  ser  : w.Serialize
  buf  : B
  done : Bool

def WriteImmediate.poll [BitBufMut B] (ctx : Ctx) (this : WriteImmediate w) :
    Poll (Except (WriteImmediateError w.Error) Nat) × WriteImmediate w :=
  if this.done then
    (.panicked "WriteImmediate polled after completion", this)
  else
    let x := w.pollSerialize ctx this.ser this.buf
    match x.outcome with
    | .pending      => (.pending, ⟨x.state, x.buf, false⟩)
    | .insufficient => (.ready (.error .insufficient), ⟨x.state, x.buf, true⟩)
    | .ready item   =>
      (.ready ((item.mapError .serialize).map fun _ => BitBufMut.len x.buf),
        ⟨x.state, x.buf, true⟩)
    | .panicked msg => (.panicked msg, ⟨x.state, x.buf, false⟩)

def MinCodecWrite.writeImmediate (w : MinCodecWrite Ctx B T) (item : T) (buf : B) :
    WriteImmediate w :=
  ⟨w.serialize item, buf, false⟩

theorem writeImmediate_ready [BitBufMut B] [LawfulBitBufMut B] {enc : T → List Bool}
    (h : w.EncodesOnce enc) (ctx : Ctx) (v : T) {b : B} (hb : (enc v).length ≤ room b) :
    ∃ fut, (w.writeImmediate v b).poll ctx = (.ready (.ok (filled fut.buf)), fut) ∧
      Produces b (enc v) fut.buf := by
  let x := w.pollSerialize ctx (w.serialize v) b
  have ⟨(ho : x.outcome = _), hp⟩ := (h v ctx b).fits hb
  refine ⟨⟨x.state, x.buf, true⟩, ?_, hp⟩
  show (match x.outcome with
    | .pending      => _
    | .insufficient => _
    | .ready item   => _
    | .panicked msg => _) = _
  rw [ho, ← LawfulBitBufMut.len_eq]
  rfl

theorem writeImmediate_insufficient [BitBufMut B] [LawfulBitBufMut B] {enc : T → List Bool}
    (h : w.EncodesOnce enc) (ctx : Ctx) (v : T) {b : B} (hb : room b < (enc v).length) :
    ∃ fut, (w.writeImmediate v b).poll ctx = (.ready (.error .insufficient), fut) ∧
      Produces b ((enc v).take (room b)) fut.buf := by
  let x := w.pollSerialize ctx (w.serialize v) b
  have ⟨(ho : x.outcome = _), hp⟩ := (h v ctx b).short hb
  exact ⟨⟨x.state, x.buf, true⟩, by simp [WriteImmediate.poll, MinCodecWrite.writeImmediate, x, ho], hp⟩

theorem readImmediate_ready [BitSource B] {p : Parser r.Error T} (h : r.Decodes False p)
    (ctx : Ctx) {v : T} {u : List Bool} (hv : p.Halts u (.finished (.ok v))) {b : B}
    (hb : u <+: unread b) :
    ∃ fut, (r.readImmediate b).poll ctx = (.ready (.ok v), fut) ∧ Consumes b u fut.buf := by
  let x := r.pollDeserialize ctx r.deserialize b
  have ⟨(ho : x.outcome = _), hc⟩ := h.ends ctx hv hb
  exact ⟨⟨x.state, x.buf, true⟩, by simp [ReadImmediate.poll, MinCodecRead.readImmediate, x, ho]; rfl, hc⟩

theorem readImmediate_insufficient [BitSource B] {p : Parser r.Error T} (h : r.Decodes False p)
    (ctx : Ctx) {e : Ending r.Error T} {u : List Bool} (hv : p.Halts u e) {b : B}
    (hb : unread b <+: u) (hn : unread b ≠ u) :
    ∃ fut, (r.readImmediate b).poll ctx = (.ready (.error .insufficient), fut) := by
  let x := r.pollDeserialize ctx r.deserialize b
  have hf := h.follows ctx b
  have ⟨t, ht⟩ := hb
  have hu := hf.starved hv ht fun h => hn (by rw [← ht, h, List.append_nil])
  have ho : x.outcome = .insufficient := hu.resolve_left hf.ne_pending
  exact ⟨⟨x.state, x.buf, true⟩, by simp [ReadImmediate.poll, MinCodecRead.readImmediate, x, ho]⟩

end Mincodec
