import TreeDelta.Command.Parse
import TreeDelta.Update.Operation
/-!
# Applying commands

`Command.apply` applies a command tree at a site. A descent goes through its keys with a `Draft`
of the mapping, in which each child finds what its key holds by then. A mapping is copied only
if something below it changes, so all that a command does not touch is shared with the source.
A place that holds nothing or null is descended into as an empty mapping; at the root null is
not.

`Value.update` parses and applies a raw command. `run` is the identity of this update: the
containers it makes are told from all others by it.
-/

namespace TreeDelta

def unknownOperation (kind : Value) : Fault :=
  if kind.toKey?.isSome then .unknownName else .unhashable

/-- Descends into a value (`_descend`): `through` goes through the keys of the mapping. -/
def descendInto (fresh : Ident) (trail : Trail) (source : Value)
    (through : Draft → Except Fault Draft) : Except Fault Outcome :=
  match source.fields? with
  | some fields => do .ok ((← through (.start fields)).commit fresh source)
  | none => .error (.command (.noDescent trail source.type))

mutual
/-- Applies a command at a site (`_apply_child`). `place` are the keys that lead there, the last
one first, and `trail` are their texts. -/
def Command.apply (call : Functions) (run : Nat) (place : List Key) (trail : Trail) (site : Site) :
    Command → Except Fault Outcome
  | .op kind argument => kind.apply call ⟨run, place⟩ site argument
  | .unknown kind _ => .error (unknownOperation kind)
  | .descend children =>
    let source := if site.current.isAbsent then .map ⟨run, place⟩ [] else site.current
    descendInto ⟨run, place⟩ trail source fun draft =>
      Command.applyAll call run place trail draft children

/-- Applies the children of a command to the keys of a mapping, one after the other. -/
def Command.applyAll (call : Functions) (run : Nat) (place : List Key) (trail : Trail)
    (draft : Draft) : List (Key × Command) → Except Fault Draft
  | [] => .ok draft
  | (k, c) :: rest => do
    let outcome ← c.apply call run (k :: place) (trail ++ [k.plain]) (draft.site k)
    Command.applyAll call run place trail (draft.take k outcome) rest
end

/-- The key under which messages speak of the root. -/
def rootKey : Key := .str "root"

/-- Applies a parsed command to a whole value. -/
def Command.applyRoot (call : Functions) (run : Nat) (source : Value) :
    Command → Except Fault Outcome
  | .descend children =>
    descendInto ⟨run, []⟩ [] source fun draft =>
      Command.applyAll call run [] [] draft children
  | leaf => leaf.apply call run [] [] ⟨rootKey, some source⟩

/-- Updates a value by a raw command (`with_diff`). -/
def Value.update (call : Functions) (run : Nat) (source commands : Value) :
    Except Fault Outcome := do
  (← Command.parse [] commands).applyRoot call run source

def updateLog (commands : Value) : List LogEntry :=
  Command.notices [] commands ++
    match Command.parse [] commands with
    | .ok (.op kind _) => [⟨.debug, "Applying " ++ kind.name ++ " to root value."⟩]
    | .ok (.unknown kind _) => [⟨.debug, "Applying " ++ kind.plain ++ " to root value."⟩]
    | _ => []

/-- Updates a value by one operation at the end of a path. -/
def Value.updateAt (call : Functions) (run : Nat) (source : Value) (path : List Key)
    (kind : Operation) (argument : Value) : Except Fault Outcome :=
  Value.update call run source (Command.nest path (.op (.str kind.name) argument))

/-- Updates a value by one operation at the end of the path that a value names. -/
def Value.shortcut (call : Functions) (run : Nat) (source path : Value) (kind : Operation)
    (argument : Value) : Except Fault Outcome := do
  Value.update call run source (← Command.nestAt path (.op (.str kind.name) argument))

end TreeDelta
