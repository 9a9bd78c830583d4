import TreeDelta.Text.Basic
/-!
# Base64 text

`isBase64` accepts a text made of groups of four alphabet characters, the last of which may
end in one or two padding marks. Line feeds between the characters do not count.
-/

namespace TreeDelta.Text

def isBase64Sign : Sign → Bool
  | .char c =>
    ('A' ≤ c && c ≤ 'Z') || ('a' ≤ c && c ≤ 'z') || ('0' ≤ c && c ≤ '9') || c = '+' || c = '/'
  | .half _ => false

/-- Groups of four, and perhaps one padded group at the end. -/
def isBase64Groups : Text → Bool
  | [] => true
  | [a, b, .char '=', .char '='] => isBase64Sign a && isBase64Sign b
  | [a, b, c, .char '='] => isBase64Sign a && isBase64Sign b && isBase64Sign c
  | a :: b :: c :: d :: rest =>
    isBase64Sign a && isBase64Sign b && isBase64Sign c && isBase64Sign d && isBase64Groups rest
  | _ => false

/-- The text is base64 once its line feeds are removed. -/
def isBase64 (text : Text) : Bool := isBase64Groups (text.filter (· ≠ .char '\n'))

end TreeDelta.Text
