import Mincodec.Format
import Mincodec.Slice

-- Codecs of any type of the format are resumed without a trace of where they were interrupted.
namespace Mincodec

open Stream BitSource BitSink

variable {Ctx B B' T : Type} [BitBuf B] [LawfulBitBuf B] [BitBufMut B'] [LawfulBitBufMut B']

def Scope.readable : Scope Ctx B B' where
  leaf r _ := ∃ p, r.Decodes True p
  map _ _  := True
  isize    := True
  lists    := True
  arity _  := True

def Scope.resumable : Scope Ctx B B' where
  leaf _ w := ∃ enc, w.Encodes enc
  map _ _  := True
  isize    := True
  lists    := False
  arity k  := k < 255

variable {r : MinCodecRead Ctx B T} {w : MinCodecWrite Ctx B' T}

omit [LawfulBitBufMut B'] in
-- A run over any buffers ends as the run over one buffer with the same bits does, and takes as many
-- of them. Both are polled again while they are pending.
theorem pollChunks_eq_pollAgain (h : Format (.readable : Scope Ctx B B') r w)
    {chunk : List Ctx × B} {rest : List (List Ctx × B)} {cs : List Ctx} {b : B}
    (hb : unread b = chunkBits (chunk :: rest))
    (hc : (pollChunks r.pollDeserialize r.deserialize chunk rest).1 ≠ .pending)
    (ha : (pollAgain r.pollDeserialize cs r.deserialize b).outcome ≠ .pending) :
    pollChunks r.pollDeserialize r.deserialize chunk rest =
      ((pollAgain r.pollDeserialize cs r.deserialize b).outcome,
        taken (pollAgain r.pollDeserialize cs r.deserialize b).buf - taken b) := by
  have ⟨p, hp⟩ : ∃ p, r.Decodes True p := h.decodes id
  have hchunks := hp.pollChunks_agrees chunk rest
  have honce := (hp.pollAgain cs b).agrees
  rw [hb] at honce
  exact hchunks.unique honce hc ha

section

def sampleRead : MinCodecRead Unit Slice (Option Bool) :=
  Optional.optionRead boolRead

def sampleWrite : MinCodecWrite Unit SliceMut (Option Bool) :=
  Optional.optionWrite boolWrite

def sampleChunks : List (List Unit × Slice) :=
  [([()], ⟨[], 0⟩), ([()], ⟨[false, true], 0⟩)]

theorem pollChunks_eq_pollAgain_sample :
    pollChunks sampleRead.pollDeserialize sampleRead.deserialize ([()], ⟨[true], 0⟩) sampleChunks =
      ((pollAgain sampleRead.pollDeserialize [()] sampleRead.deserialize
        ⟨[true, false, true], 0⟩).outcome, 2) := by
  have hc : (pollChunks sampleRead.pollDeserialize sampleRead.deserialize ([()], ⟨[true], 0⟩)
    sampleChunks).1 = .ready (.ok (some false)) := rfl
  have ha : (pollAgain sampleRead.pollDeserialize [()] sampleRead.deserialize
    ⟨[true, false, true], 0⟩).outcome = .ready (.ok (some false)) := rfl
  apply @pollChunks_eq_pollAgain _ _ SliceMut _ _ _ _ sampleRead sampleWrite (.option .bool) _ _ [()]
    ⟨[true, false, true], 0⟩ rfl
  · rw [hc]; nofun
  · rw [ha]; nofun

end

omit [LawfulBitBuf B] in
-- What a run over any buffers has written when it is ready is what the run into one large buffer
-- writes.
theorem written_eq_once (h : Format (.resumable : Scope Ctx B B') r w) {v : T}
    {run : List (Ctx × B')} {bits : List Bool}
    (hf : Finishes w.pollSerialize (w.serialize v) run bits) {cs : List Ctx} {b : B'}
    (hb : bits.length < room b)
    (hp : (pollAgain w.pollSerialize cs (w.serialize v) b).outcome ≠ .pending) :
    (pollAgain w.pollSerialize cs (w.serialize v) b).outcome = .ready (.ok ()) ∧
      written b (pollAgain w.pollSerialize cs (w.serialize v) b).buf = bits := by
  have ⟨enc, hw⟩ := h.encodes id (fun _ => id) id
  have he := (hw v).finishes hf
  have hv := (hw v).pollAgain cs b
  rw [he] at hv
  exact hv.once hb hp

theorem written_eq_once_sample :
    written ⟨List.replicate 4 true, 1, by decide⟩ (pollAgain sampleWrite.pollSerialize [()]
      (sampleWrite.serialize (some false)) ⟨List.replicate 4 true, 1, by decide⟩).buf =
        [true, false] := by
  let b₁ : SliceMut := ⟨[false], 0, by decide⟩
  let b₂ : SliceMut := ⟨[false, true], 0, by decide⟩
  have hf : Finishes sampleWrite.pollSerialize (sampleWrite.serialize (some false))
      [((), b₁), ((), b₂)] ([true] ++ [false]) :=
    .more (.inr rfl) (.last rfl)
  have ha : (pollAgain sampleWrite.pollSerialize [()] (sampleWrite.serialize (some false))
    ⟨List.replicate 4 true, 1, by decide⟩).outcome = .ready (.ok ()) := rfl
  apply (@written_eq_once _ Slice _ _ _ _ _ sampleRead sampleWrite (.option .bool) (some false) _ _
    hf [()] ⟨List.replicate 4 true, 1, by decide⟩ (by decide) _).2
  rw [ha]
  nofun

end Mincodec
