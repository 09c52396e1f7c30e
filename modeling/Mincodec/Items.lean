import Mincodec.Codec

namespace Mincodec

open Stream BitSource BitSink

variable {Ctx B T : Type} {w : MinCodecWrite Ctx B T}

-- The loop that the serializers of `Vec` and of arrays have in common: `data` are the items that
-- are still to come, `ser` is the serializer of the item that was taken last.
def pollItems (w : MinCodecWrite Ctx B T) (ctx : Ctx) :
    List T → Option w.Serialize → B →
      Polled (List T × Option w.Serialize) B (Except w.Error Unit)
  | [], ser, b         => ⟨.ready (.ok ()), ([], ser), b⟩
  | item :: data, _, b =>
    (w.pollSerialize ctx (w.serialize item) b).andThen (fun ser => (data, some ser)) id
      fun _ ser b => pollItems w ctx data (some ser) b

def listEmission {ε : Type} (enc : T → Emission ε) (items : List T) : Emission ε :=
  items.foldr (fun item e => (enc item).seq e) (.done [])

theorem pollItems_writesOnce [BitSink B] {enc : T → List Bool} (h : w.EncodesOnce enc) (ctx : Ctx)
    (items : List T) (ser : Option w.Serialize) (b : B) :
    WritesOnce (items.flatMap enc) b (pollItems w ctx items ser b) := by
  induction items generalizing ser b
  case nil => exact .ready
  case cons item items hi =>
    rw [List.flatMap_cons]
    exact (h item ctx b).andThen fun ser b => hi (some ser) b

end Mincodec
