import Snuffin.ChildServer
import Snuffin.Decoding
/-!
# Messages as they arrive

`resolveRequest` with the decoders of marshalling.c on the bytes that
`readData` hands out. The decoders refuse what does not begin as they want it
to, whatever their arrays hold.
-/
open Snuffin.Db (CString)
open Snuffin.Marshalling (Locals Decoder Addressed)

namespace Snuffin.ChildServer

/-! ## The decoders of the server -/

/-- A message of `readData`, with what the arrays on the stack hold when it is
decoded. -/
structure Arrival where
  text : CString
  locals : Locals

/-- The decoders on a message with its NUL. After an access that it must not
make a decoder may give anything, which is what `wild` gives. -/
def wireCodec (wild : Codec Arrival) : Codec Arrival where
  unmarshString d :=
    match Marshalling.unmarshString (d.text.val ++ [0]) d.locals with
    | some o => o.map Subtype.val
    | none => wild.unmarshString d
  unmarshBoolean d :=
    match Marshalling.unmarshBoolean (d.text.val ++ [0]) with
    | some o => o.map fun value => value ≠ 0
    | none => wild.unmarshBoolean d
  unmarshPoint d :=
    match Marshalling.unmarshPoint (d.text.val ++ [0]) d.locals with
    | some o => o.map fun p => ⟨p.x.toInt, p.y.toInt⟩
    | none => wild.unmarshPoint d

/-- Decoders that give nothing. -/
def inert : Codec Arrival := ⟨fun _ => none, fun _ => none, fun _ => none⟩

/-- A message that finds the stack clean. -/
def arrive (m : Bytes) (h : (0 : UInt8) ∉ m) : Arrival := ⟨⟨m, h⟩, Marshalling.cleared⟩

/-- What `readData` returns with a message. -/
def received (d : Arrival) : Bool := 1 < d.text.val.length

/-- The decoder that `resolveRequest` calls. -/
def Expecting.decoder : Expecting → Decoder
  | .user | .password | .newPassword => .string
  | .readyToPlay => .boolean
  | .movement => .point

/-! ## What the decoders refuse -/

variable {wild : Codec Arrival} {d : Arrival}

theorem refuses_string (h : ¬Addressed d.text.val .string) : (wireCodec wild).unmarshString d = none := by
  have hr := Marshalling.refuses (l := d.locals) (by simp) h
  obtain ⟨o, ho, hn⟩ := Option.map_eq_some_iff.1 hr
  cases o with
  | none => simp only [wireCodec, ho, Option.map_none]
  | some x => cases hn

theorem refuses_point (h : ¬Addressed d.text.val .point) : (wireCodec wild).unmarshPoint d = none := by
  have hr := Marshalling.refuses (l := d.locals) (by simp) h
  obtain ⟨o, ho, hn⟩ := Option.map_eq_some_iff.1 hr
  cases o with
  | none => simp only [wireCodec, ho, Option.map_none]
  | some x => cases hn

theorem refuses_boolean (h : ¬Addressed d.text.val .boolean) : (wireCodec wild).unmarshBoolean d = none := by
  simp only [wireCodec, Marshalling.refuses_boolean h, Option.map_none]

end Snuffin.ChildServer
