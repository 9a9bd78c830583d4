import TreeDelta.Fault
import TreeDelta.Log
/-!
# Parsing commands

A raw mapping with exactly one operation key is that operation, whatever else it holds; one
with none descends into its keys. Parsed commands stand for themselves, and raw ones below
them are parsed. `Command.parse` is the whole rule, and `Command.parsed` is what comes of it as
data; `Command.notices` lists what is ignored on the way, as far as parsing comes.
-/

namespace TreeDelta

def Operation.namedIn {α : Type} (fields : List (Key × α)) : List Operation :=
  Operation.all.filter fun o => Fields.has o.key fields

namespace Command

mutual
/-- The command that a value stands for (`parse_commands`). -/
def parse (trail : Trail) : Value → Except Fault Command
  | .op kind argument => .ok (ofOp kind argument)
  | .descend (.map _ children) => (parseChildren trail children).map descend
  | .descend children => .error (.unsupported children.type)
  | .map _ fields =>
    match Operation.namedIn fields with
    | [] => (parseChildren trail fields).map descend
    | [o] => .ok (op o ((Fields.get? o.key fields).getD .absent))
    | several => .error (.command (.ambiguous trail several))
  | v => .error (.command (.notMapping trail v.type))

def parseChildren (trail : Trail) :
    List (Key × Value) → Except Fault (List (Key × Command))
  | [] => .ok []
  | (k, v) :: rest => do
    let c ← parse (trail ++ [k.plain]) v
    let cs ← parseChildren trail rest
    .ok ((k, c) :: cs)
end

mutual
/-- The parsed command as data. A descent in which no child became another object stays the value it
is; the mappings of new descents are told from others by `run` and their place. -/
def parsed (run : Nat) (place : List Key) (trail : Trail) : Value → Except Fault Value
  | .op kind argument => .ok (.op kind argument)
  | .descend (.map id children) => do
    let parts ← parsedAll run place trail children
    .ok (.descend (.map (if parts = children then id else ⟨run, place⟩) parts))
  | .descend children => .error (.unsupported children.type)
  | .map _ fields =>
    match Operation.namedIn fields with
    | [] => do .ok (.descend (.map ⟨run, place⟩ (← parsedAll run place trail fields)))
    | [o] => .ok (.op (.str o.name) ((Fields.get? o.key fields).getD .absent))
    | several => .error (.command (.ambiguous trail several))
  | v => .error (.command (.notMapping trail v.type))

def parsedAll (run : Nat) (place : List Key) (trail : Trail) :
    List (Key × Value) → Except Fault (List (Key × Value))
  | [] => .ok []
  | (k, v) :: rest => do
    let w ← parsed run (k :: place) (trail ++ [k.plain]) v
    let ws ← parsedAll run place trail rest
    .ok ((k, w) :: ws)
end

def ignoredNotice (trail : Trail) (o : Operation) (fields : List (Key × Value)) : LogEntry :=
  let others := (Fields.keys fields).filter fun k => !k.same o.key
  let names := (others.map Key.plain).mergeSort Text.le
  ⟨.warning, "Ignoring keys " ++ Show.bracketed "[" "]" (names.map Text.quoted) ++ " next to " ++
    o.name ++ " at " ++ trail.text ++ "."⟩

mutual
/-- What parsing reports, up to its first fault. -/
def notices (trail : Trail) : Value → List LogEntry
  | .descend (.map _ children) => childNotices trail children
  | .map _ fields =>
    match Operation.namedIn fields with
    | [] => childNotices trail fields
    | [o] => if fields.length > 1 then [ignoredNotice trail o fields] else []
    | _ => []
  | _ => []

def childNotices (trail : Trail) : List (Key × Value) → List LogEntry
  | [] => []
  | (k, v) :: rest =>
    notices (trail ++ [k.plain]) v ++
      match parse (trail ++ [k.plain]) v with
      | .ok _ => childNotices trail rest
      | .error _ => []
end

/-- The raw command that applies `command` at the end of a path. -/
def nest (path : List Key) (command : Value) : Value :=
  path.foldr (fun k inner => .descend (.map default [(k, inner)])) command

/-- The raw command that applies `command` at the end of the path that a value names
(`build_path_command`). -/
def nestAt (path command : Value) : Except Fault Value :=
  match Value.toKeys? path.asPath with
  | some keys => .ok (nest keys command)
  | none => .error .unhashable

end Command

end TreeDelta
