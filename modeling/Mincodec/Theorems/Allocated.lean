import Mincodec.Allocated

namespace Mincodec

open Stream BitSource BitSink

variable {Ctx B T : Type} {Wait : Prop} {r : MinCodecRead Ctx B T} {w : MinCodecWrite Ctx B T}

theorem boxRead_decodes [BitSource B] {p : Parser r.Error T} (h : r.Decodes Wait p) :
    (boxRead r).Decodes Wait p := by
  refine ⟨Stream.Decodes Wait Drained r.pollDeserialize, ?_, h⟩
  intro c s q b h
  show Follows _ _ _ _ _ b ((r.pollDeserialize c s b).lift id id)
  apply (h.follows c b).finish
  · exact fun _ _ h => h
  · rintro item s b _ rfl
    exact .ready rfl

theorem boxWrite_encodes [BitSink B] {enc : T → Emission w.Error} (h : w.Encodes enc) :
    (boxWrite w).Encodes enc := by
  intro v
  refine ⟨Stream.Encodes Full w.pollSerialize, ?_, h v⟩
  intro c s e b h
  show Writes _ _ _ b ((w.pollSerialize c s b).lift id id)
  apply (h.writes c b).finish_id
  · exact fun _ _ h => h
  · exact fun _ _ => .ready

theorem boxWrite_encodesOnce [BitSink B] {enc : T → List Bool} (h : w.EncodesOnce enc) :
    (boxWrite w).EncodesOnce enc := by
  intro v c b
  show WritesOnce _ b ((w.pollSerialize c (w.serialize v) b).lift id id)
  exact (h v c b).finish fun _ _ => .ready

def stringBits (B : Type) [BitBufMut B] (s : Str) : List Bool :=
  Bits.ofBytes (BitBufMut.vlq B (.ofNat s.bytes.length) ++ s.bytes)

def bytesParser (len : Nat) : Parser StringReadError Str :=
  ((fillParser (List.replicate len 0) (8 * len)).mapErr Empty.elim).bind fun bytes =>
    .lift ((Str.fromUtf8 bytes).mapError .utf8)

def stringParser (vlq : Parser Empty UInt64) : Parser StringReadError Str :=
  (vlq.mapErr Empty.elim).bind fun len =>
    if len.toNat ≤ isizeMax then bytesParser len.toNat else .abort capacityOverflow

namespace StringDeserialize

variable [BitBuf B] [LawfulBitBuf B]

def Reads (Wait : Prop) (this : StringDeserialize B) (q : Parser StringReadError Str) : Prop :=
  match this.state with
  | .vlq      => ∃ q', Decodes Wait Drained (fun (_ : Unit) => BitBuf.pollVlq) this.vlq q' ∧
      q = (q'.mapErr Empty.elim).bind fun len =>
        if len.toNat ≤ isizeMax then bytesParser len.toNat else .abort capacityOverflow
  | .reading  => ∃ q', Decodes Wait Drained (fun (_ : Unit) => BitBuf.pollFill) this.data q' ∧
      q = (q'.mapErr Empty.elim).bind fun bytes => .lift ((Str.fromUtf8 bytes).mapError .utf8)
  | .complete => False

theorem pollReading_follows {vlq : BitBuf.AsyncReadVlq B} {data : BitBuf.Fill B}
    {q : Parser Empty (List UInt8)}
    (h : Decodes Wait Drained (fun (_ : Unit) => BitBuf.pollFill) data q) (b : B) :
    Follows Wait Drained (Reads Wait) Returns
      ((q.mapErr Empty.elim).bind fun bytes => .lift ((Str.fromUtf8 bytes).mapError .utf8)) b
      (pollReading ⟨.reading, vlq, data⟩ b) := by
  apply (h.follows () b).andThen
  · exact fun data q h => ⟨q, h, rfl⟩
  · rintro bytes data b _ rfl
    cases Str.fromUtf8 bytes
    case error e => exact .fail
    case ok s    => exact .ready rfl

theorem pollDeserialize_follows {this : StringDeserialize B} {q : Parser StringReadError Str}
    (h : this.Reads Wait q) (b : B) : Follows Wait Drained (Reads Wait) Returns q b (this.pollDeserialize b) := by
  obtain ⟨_ | _ | _, vlq, data⟩ := this
  case complete => exact h.elim
  case reading =>
    obtain ⟨q, h, rfl⟩ := h
    exact pollReading_follows h b
  case vlq =>
    obtain ⟨q, h, rfl⟩ := h
    unfold pollDeserialize
    apply (h.follows () b).andThen
    · exact fun vlq q h => ⟨q, h, rfl⟩
    rintro len vlq b _ rfl
    simp only [usizeTryFrom]
    by_cases hl : len.toNat ≤ isizeMax
    case neg =>
      rw [if_neg hl, if_neg hl]
      exact .abort
    case pos =>
      rw [if_pos hl, if_pos hl]
      apply pollReading_follows
      have h : Decodes (B := B) Wait Drained _ _ _ := BitBuf.fill_decodes (List.replicate len.toNat 0)
      rwa [List.length_replicate] at h

end StringDeserialize

theorem stringRead_decodes [BitBuf B] [LawfulBitBuf B] :
    (stringRead : MinCodecRead Ctx B Str).Decodes Wait (stringParser (LawfulBitBuf.vlqParser B)) :=
  ⟨StringDeserialize.Reads Wait, fun _ _ _ b h => StringDeserialize.pollDeserialize_follows h b,
    _, BitBuf.vlq_decodes, rfl⟩

theorem stringWrite_encodes [BitBufMut B] [LawfulBitBufMut B] :
    (stringWrite : MinCodecWrite Ctx B Str).Encodes fun s => .done (stringBits B s) := by
  intro v
  refine ⟨fun (s : BytesSerialize B) e => ∃ w, Drains BitBufMut.drainInto s.drain w ∧ e = .done w,
    ?_, _, LawfulBitBufMut.drain_drains _, rfl⟩
  rintro c s e b ⟨w, h, rfl⟩
  show Writes _ _ _ b (BytesSerialize.pollSerialize s b)
  unfold BytesSerialize.pollSerialize
  apply (h.writes b).finish_id
  · rintro d _ ⟨w, h, rfl⟩
    exact ⟨w, h, rfl⟩
  · exact fun _ _ => .ready

theorem stringWrite_encodesOnce [BitBufMut B] [LawfulBitBufMut B] :
    (stringWrite : MinCodecWrite Ctx B Str).EncodesOnce (stringBits B) := by
  intro s c b
  show WritesOnce _ b (BytesSerialize.pollSerialize ⟨BitBufMut.newDrain _⟩ b)
  unfold BytesSerialize.pollSerialize
  exact ((LawfulBitBufMut.drain_drains _).writesOnce b).finish fun _ _ => .ready

theorem bytesParser_halts (s : Str) :
    (bytesParser s.bytes.length).Halts (Bits.ofBytes s.bytes) (.finished (.ok s)) := by
  have h := fillParser_halts (List.replicate s.bytes.length 0) (Bits.ofBytes s.bytes)
  rw [List.drop_of_length_le (by simp), List.append_nil, Bits.toBytes_ofBytes,
    Bits.length_ofBytes] at h
  have hs := Parser.pure_halts (ε := StringReadError) s
  unfold bytesParser
  rw [← List.append_nil (Bits.ofBytes s.bytes)]
  exact h.mapErr.bind (by rwa [Str.fromUtf8_bytes])

theorem stringParser_halts {B B' : Type} [BitBuf B] [LawfulBitBuf B] [BitBufMut B']
    [LawfulVlq B B'] (s : Str) :
    (stringParser (LawfulBitBuf.vlqParser B)).Halts (stringBits B' s) (.finished (.ok s)) := by
  have hs : s.bytes.length ≤ isizeMax := s.property
  have hl : (UInt64.ofNat s.bytes.length).toNat = s.bytes.length := by
    unfold isizeMax at hs
    exact UInt64.toNat_ofNat_of_lt' (show _ < 2 ^ 64 by omega)
  unfold stringBits
  rw [Bits.ofBytes_append]
  apply (@LawfulVlq.vlq_halts B B' _ _ _ _ _).mapErr.bind
  rw [hl, if_pos hs]
  exact bytesParser_halts s

section
variable {ε : Type} {size : Nat}

def vecBits (B : Type) [BitBufMut B] (enc : T → List Bool) (items : Vec T size) : List Bool :=
  Bits.ofBytes (BitBufMut.vlq B (.ofNat items.val.length)) ++ items.val.flatMap enc

def Vec.ofVector {len : UInt64} (h : len.toNat * size ≤ isizeMax)
    (items : List.Vector T len.toNat) : Vec T size :=
  ⟨items.val, by rw [items.property]; exact ⟨len.toNat_lt, h⟩⟩

def vecItemsParser (p : Parser ε T) (size : Nat) (len : UInt64) :
    Parser (VecReadError ε) (Vec T size) :=
  if h : len.toNat * size ≤ isizeMax then
    ((p.mapErr .item).replicate len.toNat).map (Vec.ofVector h)
  else
    .abort capacityOverflow

def vecParser (vlq : Parser Empty UInt64) (p : Parser ε T) (size : Nat) :
    Parser (VecReadError ε) (Vec T size) :=
  (vlq.mapErr Empty.elim).bind (vecItemsParser p size)

end

namespace VecDeserialize

variable [BitBuf B] [LawfulBitBuf B] {size : Nat} {p : Parser r.Error T}

def Rest (Wait : Prop) (p : Parser r.Error T) (this : VecDeserialize r size)
    (q : Parser (VecReadError r.Error) (Vec T size)) : (k : Nat) →
      this.data.length + k = this.len.toNat → Prop
  | 0, hk     => q = .pure (.ofVector this.holds (glue this.data hk .nil))
  | k + 1, hk => ∃ q', Decodes Wait Drained r.pollDeserialize this.deser q' ∧
      q = (q'.mapErr .item).bind fun item => ((p.mapErr .item).replicate k).map
        (Vec.ofVector this.holds ∘ glue this.data hk ∘ .cons item)

def Reads (Wait : Prop) (p : Parser r.Error T) (this : VecDeserialize r size)
    (q : Parser (VecReadError r.Error) (Vec T size)) : Prop :=
  match this.state with
  | .vlq      => this.deser = r.deserialize ∧
      ∃ q', Decodes Wait Drained (fun (_ : Unit) => BitBuf.pollVlq) this.vlq q' ∧
        q = (q'.mapErr Empty.elim).bind (vecItemsParser p size)
  | .reading  => ∃ k hk, Rest Wait p this q k hk
  | .complete => False

theorem rest_new (hp : r.Decodes Wait p) (this : VecDeserialize r size)
    (hr : this.deser = r.deserialize) {k : Nat} (hk : this.data.length + k = this.len.toNat)
    {items : List.Vector T k → Vec T size}
    (hi : items = Vec.ofVector this.holds ∘ glue this.data hk) :
    Rest Wait p this (((p.mapErr .item).replicate k).map items) k hk := by
  subst hi
  cases k
  case zero   => rfl
  case succ k =>
    refine ⟨p, hr ▸ hp, ?_⟩
    rw [Parser.replicate_succ, Parser.bind_map]
    simp only [Parser.map_map]
    rfl

theorem pollReading_follows (hp : r.Decodes Wait p) (ctx : Ctx) (this : VecDeserialize r size)
    (hr : this.state = .reading) (b : B) {q : Parser (VecReadError r.Error) (Vec T size)} {k : Nat}
    {hk : this.data.length + k = this.len.toNat} (hq : Rest Wait p this q k hk) :
    Follows Wait Drained (Reads Wait p) Returns q b (pollReading ctx this hr b) := by
  induction k generalizing this q b
  case zero =>
    obtain rfl := hq
    unfold pollReading
    rw [dif_pos (by omega)]
    apply Follows.ready
    apply Subtype.ext
    simp [Vec.ofVector, glue]
  case succ k hi =>
    obtain ⟨q, hd, rfl⟩ := hq
    unfold pollReading
    rw [dif_neg (by omega)]
    apply (hd.follows ctx b).andThen
    · intro deser q h
      unfold Reads
      simp only [hr]
      exact ⟨k + 1, hk, q, h, rfl⟩
    rintro item deser b' _ rfl
    apply hi
    case hk => simp; omega
    case hq =>
      rw [glue_cons]
      exact rest_new hp _ rfl _ rfl

theorem pollDeserialize_follows (hp : r.Decodes Wait p) (ctx : Ctx) {this : VecDeserialize r size}
    {q : Parser (VecReadError r.Error) (Vec T size)} (h : this.Reads Wait p q) (b : B) :
    Follows Wait Drained (Reads Wait p) Returns q b (this.pollDeserialize ctx b) := by
  obtain ⟨_ | _ | _, vlq, len, deser, data, fits, holds, fresh⟩ := this
  case complete => exact h.elim
  case reading =>
    have ⟨k, hk, h⟩ := h
    exact pollReading_follows hp ctx _ rfl b h
  case vlq =>
    obtain ⟨rfl, q, h, rfl⟩ := h
    obtain rfl := fresh rfl
    unfold pollDeserialize
    apply (h.follows () b).andThen
    · exact fun vlq q h => ⟨rfl, q, h, rfl⟩
    rintro len vlq b _ rfl
    simp only [usizeTryFrom, vecItemsParser]
    by_cases hl : len.toNat * size ≤ isizeMax
    case neg =>
      rw [dif_neg hl]
      simp only [UInt64.ofBitVec_toBitVec, hl]
      exact .abort
    case pos =>
      rw [dif_pos hl]
      simp only [UInt64.ofBitVec_toBitVec, hl]
      apply pollReading_follows hp ctx
      case hk => exact Nat.zero_add _
      exact rest_new hp _ rfl _ rfl

end VecDeserialize

theorem vecRead_decodes [BitBuf B] [LawfulBitBuf B] {p : Parser r.Error T} (hp : r.Decodes Wait p)
    (size : Nat) : (vecRead r size).Decodes Wait (vecParser (LawfulBitBuf.vlqParser B) p size) :=
  ⟨VecDeserialize.Reads Wait p, fun c _ _ b h => VecDeserialize.pollDeserialize_follows hp c h b,
    rfl, _, BitBuf.vlq_decodes, rfl⟩

theorem vecWrite_encodesOnce [BitBufMut B] [LawfulBitBufMut B] {enc : T → List Bool}
    (h : w.EncodesOnce enc) (size : Nat) : (vecWrite w size).EncodesOnce (vecBits B enc) := by
  intro items c b
  show WritesOnce _ b (VecSerialize.pollSerialize c ⟨none, .vlq, BitBufMut.newDrain _, items.val⟩ b)
  unfold VecSerialize.pollSerialize VecSerialize.pollWriting vecBits
  apply ((LawfulBitBufMut.drain_drains _).writesOnce b).andThen
  intro _ b'
  exact (pollItems_writesOnce h c _ _ b').finish fun _ _ => .ready

theorem vecParser_halts {B B' ε : Type} [BitBuf B] [LawfulBitBuf B] [BitBufMut B']
    [LawfulVlq B B'] {p : Parser ε T} {enc : T → List Bool} {size : Nat}
    (h : ∀ v, p.Halts (enc v) (.finished (.ok v))) (v : Vec T size) :
    (vecParser (LawfulBitBuf.vlqParser B) p size).Halts (vecBits B' enc v)
      (.finished (.ok v)) := by
  obtain ⟨items, hl, hs⟩ := v
  have ht : (UInt64.ofNat items.length).toNat = items.length :=
    UInt64.toNat_ofNat_of_lt' hl
  apply (@LawfulVlq.vlq_halts B B' _ _ _ _ _).mapErr.bind
  unfold vecItemsParser
  rw [dif_pos (by rwa [ht])]
  exact (Parser.replicate_halts (fun v => (h v).mapErr) ⟨items, ht.symm⟩).map

end Mincodec
