import TreeDelta.Text.Basic
/-!
# Lines

A line ends at any of the line and paragraph separators, or where the text ends; a carriage
return and the newline after it are one end. `linesKept` leaves each line its end and
`linesCut` takes it away. `linesKept_flatten` says that keeping the ends loses nothing.
-/

namespace TreeDelta.Text

def isLineEnd (s : Sign) : Bool :=
  let n := s.code
  (10 ≤ n && n ≤ 13) || (0x1c ≤ n && n ≤ 0x1e) || n = 0x85 || n = 0x2028 || n = 0x2029

def consFirst (s : Sign) : List Text → List Text
  | [] => [[s]]
  | line :: rest => (s :: line) :: rest

/-- The lines of a text, each with its end. -/
def linesKept : Text → List Text
  | [] => []
  | .char '\r' :: .char '\n' :: rest => [.char '\r', .char '\n'] :: linesKept rest
  | s :: rest => if isLineEnd s then [s] :: linesKept rest else consFirst s (linesKept rest)

/-- The lines of a text without their ends. -/
def linesCut (text : Text) : List Text :=
  (linesKept text).map fun line => line.filter (!isLineEnd ·)

theorem flatten_consFirst (s : Sign) (lines : List Text) :
    (consFirst s lines).flatten = s :: lines.flatten := by
  cases lines <;> simp [consFirst]

theorem linesKept_flatten (text : Text) : (linesKept text).flatten = text := by
  fun_induction linesKept text with
  | case1 => rfl
  | case2 rest ih => simp [ih]
  | case3 s rest _ h ih => simp [ih]
  | case4 s rest _ h ih => simp [flatten_consFirst, ih]

end TreeDelta.Text
