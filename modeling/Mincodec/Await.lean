import Mincodec.Run.Reader
import Mincodec.Run.Writer

-- Codecs that wait for a future before they touch the buffer.
namespace Mincodec

open Stream BitSource BitSink

variable {Ctx B T S ε α : Type} {Wait : Prop} {Stop : B → Prop}

structure Awaits (S : Type) where
  polls : Nat
  inner : S

def Awaits.poll (poll : S → B → Polled S B (Except ε α)) (this : Awaits S) (b : B) :
    Polled (Awaits S) B (Except ε α) :=
  match this.polls with
  | n + 1 => ⟨.pending, { this with polls := n }, b⟩
  | 0     => (poll this.inner b).lift (⟨0, ·⟩) id

def awaitRead (n : Nat) (r : MinCodecRead Ctx B T) : MinCodecRead Ctx B T where
  Deserialize         := Awaits r.Deserialize
  Error               := r.Error
  deserialize         := ⟨n, r.deserialize⟩
  pollDeserialize ctx := Awaits.poll (r.pollDeserialize ctx)

def awaitWrite (n : Nat) (w : MinCodecWrite Ctx B T) : MinCodecWrite Ctx B T where
  Serialize         := Awaits w.Serialize
  Error             := w.Error
  serialize item    := ⟨n, w.serialize item⟩
  pollSerialize ctx := Awaits.poll (w.pollSerialize ctx)

theorem Awaits.insufficient_iff {poll : S → B → Polled S B (Except ε α)} {s : S} {b : B} :
    (Awaits.poll poll ⟨0, s⟩ b).outcome = .insufficient ↔ (poll s b).outcome = .insufficient := by
  show ((poll s b).lift _ _).outcome = _ ↔ _
  match hx : (poll s b).outcome with
  | .pending | .insufficient                 => simp [Polled.lift, Polled.andThen, hx]
  | .ready (.ok a) | .ready (.error e)       => simp [Polled.lift, Polled.andThen, hx]
  | .panicked m                              => simp [Polled.lift, Polled.andThen, hx]

theorem Awaits.buf_of_pending {poll : S → B → Polled S B (Except ε α)} {this : Awaits S} {b : B}
    (h : ∀ s b, (poll s b).outcome = .pending → (poll s b).buf = b)
    (hp : (this.poll poll b).outcome = .pending) : (this.poll poll b).buf = b := by
  obtain ⟨_ | n, s⟩ := this
  case succ => rfl
  case zero =>
    show ((poll s b).lift _ _).buf = b
    replace hp : ((poll s b).lift (Awaits.mk 0) id).outcome = .pending := hp
    match hx : (poll s b).outcome with
    | .pending =>
      rw [Polled.lift, Polled.andThen_pending hx]
      exact h s b hx
    | .insufficient | .ready (.ok a) | .ready (.error e) | .panicked m =>
      simp [Polled.lift, Polled.andThen, hx] at hp

theorem awaitRead_decodes [BitSource B] {r : MinCodecRead Ctx B T} {p : Parser r.Error T}
    (h : Decodes True Stop r.pollDeserialize r.deserialize p) (n : Nat) :
    Decodes True Stop (awaitRead n r).pollDeserialize (awaitRead n r).deserialize p := by
  refine ⟨fun s q => Decodes True Stop r.pollDeserialize s.inner q, ?_, h⟩
  rintro c ⟨_ | n, s⟩ q b h
  case succ =>
    refine ⟨[], .refl b, trivial, ?_⟩
    rw [Parser.after_nil]
    exact h
  case zero =>
    show Follows _ _ _ _ q b ((r.pollDeserialize c s b).lift (Awaits.mk 0) id)
    apply (h.follows c b).finish
    · exact fun _ _ => id
    · rintro a s b' _ rfl
      exact .ready rfl

theorem awaitWrite_encodesIn [BitSink B] {w : MinCodecWrite Ctx B T}
    {P : Ctx → w.Serialize → B → Prop} {item : T} {e : Emission w.Error}
    (h : EncodesIn P Stop w.pollSerialize (w.serialize item) e) (n : Nat) :
    EncodesIn (fun c (s : Awaits w.Serialize) b => s.polls = 0 → P c s.inner b) Stop
      (awaitWrite n w).pollSerialize ((awaitWrite n w).serialize item) e := by
  refine ⟨fun s e => EncodesIn P Stop w.pollSerialize s.inner e, ?_, h⟩
  rintro c ⟨_ | n, s⟩ e b hp h
  case succ => exact ⟨[], .refl b, e, rfl, h⟩
  case zero =>
    show Writes _ _ e b ((w.pollSerialize c s b).lift (Awaits.mk 0) id)
    apply (h.writes (hp rfl)).finish_id
    · exact fun _ _ => id
    · exact fun _ _ => .ready

theorem awaitRead_quiet {r : MinCodecRead Ctx B T} (h : r.Quiet) (n : Nat) : (awaitRead n r).Quiet :=
  fun c _ _ => Awaits.buf_of_pending (h c)

theorem awaitWrite_quiet {w : MinCodecWrite Ctx B T} (h : w.Quiet) (n : Nat) :
    (awaitWrite n w).Quiet :=
  fun c _ _ => Awaits.buf_of_pending (h c)

theorem awaitWrite_resumes [BitSink B] {w : MinCodecWrite Ctx B T} {item : T} {e : Emission w.Error}
    (h : Resumes w item e) (n : Nat) : Resumes (awaitWrite n w) item e := by
  refine (awaitWrite_encodesIn h n).mono ?_
  rintro c ⟨m, s⟩ b hb rfl
  exact hb.imp_right fun ho => mt Awaits.insufficient_iff.mpr ho

end Mincodec
