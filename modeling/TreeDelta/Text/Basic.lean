/-!
# Texts

A text is a list of signs. A sign is a character, or half of a pair of sixteen bit units that
stands without its other half: such halves come in through escapes and have to come out again
as they were. Texts are ordered by the codes of their signs.
-/

namespace TreeDelta

/-- One place of a text. -/
inductive Sign where
  | char (c : Char)
  /-- Half of a pair: one of the codes that no character has. -/
  | half (h : Fin 0x800)
deriving DecidableEq, Repr, Inhabited

abbrev Text := List Sign

namespace Sign

/-- The first code that no character has. -/
def firstHalf : Nat := 0xd800

def code : Sign → Nat
  | char c => c.toNat
  | half h => firstHalf + h.val

def ofCode (n : Nat) : Sign :=
  if h : firstHalf ≤ n ∧ n - firstHalf < 0x800 then half ⟨n - firstHalf, h.2⟩
  else char (Char.ofNat n)

instance : Coe Char Sign := ⟨char⟩

instance : Ord Sign := ⟨fun a b => compare a.code b.code⟩

theorem ofCode_half (h : Fin 0x800) : ofCode (half h).code = half h := by
  have := h.isLt
  simp [ofCode, code]

end Sign

namespace Text

def ofChars (cs : List Char) : Text := cs.map .char

def ofString (s : String) : Text := ofChars s.toList

instance : Coe String Text := ⟨ofString⟩

def char? : Sign → Option Char
  | .char c => some c
  | .half _ => none

/-- The string that a text is, if it has no halves. -/
def string? (text : Text) : Option String := (text.mapM char?).map String.ofList

/-- The first text comes before the second, or is the same. -/
def le (a b : Text) : Bool := (compare a b).isLE

def joined (parts : List Text) : Text := parts.flatten

def intercalate (separator : Text) (parts : List Text) : Text :=
  (parts.intersperse separator).flatten

/-- What follows a beginning of a text; none if the text does not begin so. -/
def after? : Text → Text → Option Text
  | [], text => some text
  | _ :: _, [] => none
  | s :: start, t :: text => if s = t then after? start text else none

def startsWith (text start : Text) : Bool := (after? start text).isSome

def holds (text part : Text) : Bool :=
  startsWith text part ||
    match text with
    | [] => false
    | _ :: rest => holds rest part

def repeated (n : Nat) (s : Sign) : Text := List.replicate n s

/-- The pieces of a text between separators; there is one more than there are separators. -/
def splitOn (separator : Sign) : Text → List Text
  | [] => [[]]
  | s :: rest =>
    match splitOn separator rest with
    | [] => [[s]]
    | piece :: more => if s = separator then [] :: piece :: more else (s :: piece) :: more

end Text

end TreeDelta
