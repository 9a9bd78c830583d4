import TreeDelta.Digest.MD5
import TreeDelta.Text.Base64
/-!
# Style of reports

The marks that lines of a report start with, plain or in colour, and whether long base64 text
is cut short.
-/

namespace TreeDelta.Report

/-- The texts that make a terminal change its colours. -/
structure Palette where
  red : Text
  green : Text
  blue : Text
  bright : Text
  reset : Text

/-- The escape sequence of a display attribute. -/
def escape (code : Nat) : Text := "\x1b[" ++ toString code ++ "m"

def Palette.standard : Palette := ⟨escape 31, escape 32, escape 34, escape 1, escape 0⟩

/-- The texts that mark parts of a report (`col_const`). -/
structure Marks where
  keep : Text
  remove : Text
  add : Text
  info : Text
  reset : Text

namespace Marks

def plain : Marks := ⟨"   ", "-  ", "+  ", "## ", ""⟩

/-- Red for what goes, green for what comes, bright blue for the rest. -/
def colored (palette : Palette) : Marks :=
  ⟨plain.keep, palette.red ++ plain.remove, palette.green ++ plain.add,
    palette.blue ++ palette.bright ++ plain.info, palette.reset⟩

end Marks

structure Style where
  marks : Marks
  /-- Long base64 text is cut short. -/
  snip : Bool

def Style.of (palette : Palette) (color snip : Bool) : Style :=
  ⟨if color then .colored palette else .plain, snip⟩

/-- Text of at least this many characters may be cut short. -/
def snipLength : Nat := 65

/-- Long base64 text as its start and its digest (`_trim_base64`); any other text as it is. -/
def snipped (text : Text) : Text :=
  match MD5.hexOf? text with
  | some digest =>
    if snipLength ≤ text.length && Text.isBase64 text then
      text.take 8 ++ "...<snip base64, md5=" ++ digest.take 16 ++ "...>"
    else text
  | none => text

end TreeDelta.Report
