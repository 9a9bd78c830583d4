import TreeDelta.Json.Token
import TreeDelta.Fault
/-!
# Reading JSON

`Json.parse` reads the document of a whole text, or says what the first flaw in it is. The
readers below take tokens from the front of a list; `fuel` bounds their nesting, and
`Json.parse` gives as much as any list can use.
-/

namespace TreeDelta.Json

/-- What a text can have in place of a document. -/
inductive Flaw where
  | malformed
  /-- A whole number has too many digits. -/
  | longNumber
deriving DecidableEq, Repr

mutual
def readValue : Nat → List Token → Except Flaw (Json × List Token)
  | 0, _ => .error .malformed
  | _ + 1, [] => .error .malformed
  | fuel + 1, token :: rest =>
    match token with
    | .null => .ok (null, rest)
    | .bool b => .ok (bool b, rest)
    | .int i => .ok (int i, rest)
    | .float x => .ok (float x, rest)
    | .nan => .ok (nan, rest)
    | .str s => .ok (str s, rest)
    | .openArr =>
      match rest with
      | .closeArr :: after => .ok (arr [], after)
      | _ => do
        let (items, after) ← readItems fuel rest
        .ok (arr items, after)
    | .openObj =>
      match rest with
      | .closeObj :: after => .ok (obj [], after)
      | _ => do
        let (members, after) ← readMembers fuel rest
        .ok (obj (ofMembers members), after)
    | .long => .error .longNumber
    | _ => .error .malformed

def readItems : Nat → List Token → Except Flaw (List Json × List Token)
  | 0, _ => .error .malformed
  | fuel + 1, tokens => do
    match ← readValue fuel tokens with
    | (item, .comma :: rest) =>
      let (items, after) ← readItems fuel rest
      .ok (item :: items, after)
    | (item, .closeArr :: after) => .ok ([item], after)
    | _ => .error .malformed

def readMembers : Nat → List Token → Except Flaw (List (Text × Json) × List Token)
  | 0, _ => .error .malformed
  | fuel + 1, .str name :: .colon :: tokens => do
    match ← readValue fuel tokens with
    | (value, .comma :: rest) =>
      let (members, after) ← readMembers fuel rest
      .ok ((name, value) :: members, after)
    | (value, .closeObj :: after) => .ok ([(name, value)], after)
    | _ => .error .malformed
  | _ + 1, _ => .error .malformed
end

def ofTokens (tokens : List Token) : Except Flaw Json :=
  match readValue (2 * tokens.length + 1) tokens with
  | .ok (j, []) => .ok j
  | .ok _ => .error .malformed
  | .error flaw => .error flaw

def parse (text : Text) : Except Flaw Json := ofTokens (lex text)

end TreeDelta.Json

namespace TreeDelta

/-- Reads a value from JSON text (`read_json`). -/
def readJson (run : Nat) (text : Text) : Except Fault Value :=
  match Json.parse text with
  | .ok j => .ok (.ofJson run [] j)
  | .error .malformed => .error .malformedJson
  | .error .longNumber => .error .longNumber

/-- What reading gives where there is no document to read: an empty object or null, by name. -/
def readNothing (run : Nat) (choice : Value) : Except Fault Value :=
  if choice = .str "empty" then .ok (.map ⟨run, []⟩ [])
  else if choice = .str "none" then .ok .null
  else .error (.badNullChoice choice)

end TreeDelta
