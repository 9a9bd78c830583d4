import TreeDelta.Text.Basic
/-!
# Blanks

The signs that count as white space: tabs and line ends, the separators of the control
characters, and the spaces of all scripts.
-/

namespace TreeDelta.Text

def isBlank (s : Sign) : Bool :=
  let n := s.code
  (9 ≤ n && n ≤ 13) || (0x1c ≤ n && n ≤ 0x20) || n = 0x85 || n = 0xa0 || n = 0x1680 ||
    (0x2000 ≤ n && n ≤ 0x200a) || n = 0x2028 || n = 0x2029 || n = 0x202f || n = 0x205f ||
    n = 0x3000

def trimmed (text : Text) : Text :=
  ((text.dropWhile isBlank).reverse.dropWhile isBlank).reverse

end TreeDelta.Text
