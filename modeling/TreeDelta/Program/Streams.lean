import TreeDelta.Text.Encoding
/-!
# Output streams

Before a program runs, its output streams are made to show signs they cannot encode as
escapes, where they would refuse them otherwise. Streams that someone else has put in place,
or whose encoding is set from outside, stay as they are.
-/

namespace TreeDelta

/-- An output stream: its encoding, and the name of what it does with signs outside it. -/
structure Stream where
  encoding : Text.Encoding
  treatment : Text

inductive Refusal where
  /-- A sign is outside the encoding. -/
  | unencodable
  /-- A sign is outside the encoding, and nobody knows what to do with it. -/
  | unknownTreatment
deriving DecidableEq, Repr

namespace Stream

def refuses (s : Stream) : Bool :=
  s.treatment = "strict" || s.treatment.startsWith "surrogate"

/-- The stream has to be replaced. `chosen` says that the encoding is set from outside, and
`foreign` that the stream is not the program's own. -/
def needsEscapes (s : Stream) (chosen foreign : Bool) : Bool :=
  !chosen && !foreign && s.refuses

/-- The stream that a program writes to (`_setup_std_stream_encoding`). -/
def prepared (s : Stream) (chosen foreign : Bool) : Stream :=
  if s.needsEscapes chosen foreign then { s with treatment := "backslashreplace" } else s

def bytes (s : Stream) (text : Text) : Except Refusal (List UInt8) :=
  let treatment := Text.Treatment.ofName? s.treatment
  match s.encoding.encode (treatment.getD .refuse) text, treatment with
  | some bytes, _ => .ok bytes
  | none, some _ => .error .unencodable
  | none, none => .error .unknownTreatment

end Stream

end TreeDelta
