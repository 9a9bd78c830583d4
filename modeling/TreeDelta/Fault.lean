import TreeDelta.Command.Basic
import TreeDelta.Trail
/-!
# Faults

Why an operation fails, as data. `Fault.message` gives the wording; the causes come first and
carry what the wording needs.
-/

namespace TreeDelta

/-- Which part of an operation must be a mapping. -/
inductive Role where
  | argument | target
deriving DecidableEq, Repr

def Role.text : Role → Text
  | argument => "argument"
  | target => "target"

/-- What can be wrong with a command, or with a value that it meets. -/
inductive CommandFault where
  /-- A command is no mapping. -/
  | notMapping (trail : Trail) (found : TypeName)
  /-- A mapping holds several operations. -/
  | ambiguous (trail : Trail) (kinds : List Operation)
  /-- The operation needs a sequence; `none` stands for nothing there. -/
  | notSequence (kind : Operation) (key : Key) (found : Option TypeName)
  /-- The operation needs a mapping. -/
  | needsMapping (kind : Operation) (role : Role) (key : Key) (found : TypeName)
  /-- The operation needs a function. -/
  | notCallable (key : Key) (found : TypeName)
  /-- A value on the way has no keys. -/
  | noDescent (trail : Trail) (found : TypeName)
deriving DecidableEq

namespace CommandFault

def message : CommandFault → Text
  | notMapping trail found =>
    "Command at " ++ trail.text ++ " must be a mapping, not " ++ found.text ++ "."
  | ambiguous trail kinds =>
    "Ambiguous command at " ++ trail.text ++ ", found operations " ++
      Text.intercalate ", " (kinds.map Operation.name) ++ "."
  | notSequence kind key found =>
    kind.name ++ " expects a sequence at " ++ key.text ++ ", not " ++
      (found.map TypeName.text).getD "nothing" ++ "."
  | needsMapping kind role key found =>
    kind.name ++ " expects a mapping as " ++ role.text ++ " at " ++ key.text ++ ", not " ++
      found.text ++ "."
  | notCallable key found =>
    Operation.invoke.name ++ " expects a callable at " ++ key.text ++ ", not " ++ found.text ++ "."
  | noDescent trail found =>
    "Cannot descend into " ++ found.text ++ " at " ++ trail.text ++ "."

end CommandFault

/-- What can be wrong with a delta, or with its document. -/
inductive DeltaFault where
  | emptyTree (trail : Trail)
  | notDelta (trail : Trail) (found : Value)
  | addWithOld (trail : Trail)
  | addWithoutNew (trail : Trail)
  | removeWithNew (trail : Trail)
  | removeWithoutOld (trail : Trail)
  | changeIncomplete (trail : Trail)
  | unknownKind (trail : Trail) (kind : Value)
  /-- A change of this kind cannot be printed. -/
  | unprintableKind (kind : Value)
  | invalidOp (op : Value)
  | notDocument (found : TypeName)
  | entryWithoutKey (entry : Value)
  | duplicateKey (key : Key)
  | patchWithoutList (key : Key)
  | emptyPatch (key : Key)
deriving DecidableEq

namespace DeltaFault

def message : DeltaFault → Text
  | emptyTree trail => "Empty diff tree at " ++ trail.text ++ ", expected None."
  | notDelta trail found =>
    "Diff entry " ++ found.shown ++ " at " ++ trail.text ++ " is not a diff type."
  | addWithOld trail => "Add at " ++ trail.text ++ " should not have an old value."
  | addWithoutNew trail => "Add at " ++ trail.text ++ " needs a new value."
  | removeWithNew trail => "Remove at " ++ trail.text ++ " should not have a new value."
  | removeWithoutOld trail => "Remove at " ++ trail.text ++ " needs an old value."
  | changeIncomplete trail => "Change at " ++ trail.text ++ " needs both old and new values."
  | unknownKind trail kind =>
    "Unknown change type " ++ kind.shown ++ " at " ++ trail.text ++ "."
  | unprintableKind kind => "Unknown change type " ++ kind.plain
  | invalidOp op => "Invalid diff entry op " ++ op.shown ++ "."
  | notDocument found => "Json diff must be a list or a mapping, not " ++ found.text ++ "."
  | entryWithoutKey entry => "Json diff entry " ++ entry.shown ++ " has no key."
  | duplicateKey key => "Multiple json diff entries for key " ++ key.text ++ "."
  | patchWithoutList key => "Patch entry for key " ++ key.text ++ " needs a diff list."
  | emptyPatch key => "Empty patch entry for key " ++ key.text ++ "."

end DeltaFault

inductive Fault where
  | command (problem : CommandFault)
  | delta (problem : DeltaFault)
  /-- A change of kind `later` cannot follow one of kind `earlier`. -/
  | mergeOrder (earlier later : Value)
  /-- A function of the caller refused its argument. -/
  | factory (message : Text)
  /-- A function of the caller cannot take an argument of this type. -/
  | badArgument (found : TypeName)
  /-- A container or a change stands where a key is needed. -/
  | unhashable
  /-- Keys that have to be sorted do not compare. -/
  | unorderable
  /-- The value has no JSON form. -/
  | notSerializable (found : TypeName)
  /-- Text, or a number, is needed and this is something else. -/
  | wrongType (found : TypeName)
  /-- A name is looked up that is not there. -/
  | unknownName
  /-- A sequence has no item of the number. -/
  | outOfRange
  /-- A mapping has grown or shrunk while its entries were gone through. -/
  | changedMeanwhile
  /-- The value lacks an operation that its type must have. -/
  | unsupported (found : TypeName)
  | notText
  /-- What to return for no document is none of the known choices. -/
  | badNullChoice (choice : Value)
  /-- A program of this name has no settings; these have. -/
  | unknownEntry (name : Text) (known : List Text)
  /-- A settings document is not of a form or version that is known. -/
  | badSettings
  | malformedJson
  /-- A whole number in JSON text, or one to be written there, has too many digits. -/
  | longNumber
  /-- A text holds a sign that has no place in the encoding asked for. -/
  | unencodable
  /-- A number is too large for what it counts. -/
  | overflow
deriving DecidableEq

/-- The item that an element of a sequence names by its number, with the number as a key.
`items` are the items, or what is known of them. -/
def itemNamed {α : Type} (v : Value) (items : List α) (element : Value) :
    Except Fault (Key × α) :=
  match v.sequence?, element.index? with
  | some _, some (k, i) =>
    match itemAt? items i with
    | some a => .ok (k, a)
    | none => .error .outOfRange
  | _, _ => .error (.wrongType element.type)

namespace Fault

/-- The wording of a fault; empty where only its kind is told. -/
def message : Fault → Text
  | command problem => problem.message
  | delta problem => problem.message
  | mergeOrder earlier later =>
    "Unexpected change type " ++ later.plain ++ " after " ++ earlier.plain ++
      " when merging diff nodes."
  | factory text => text
  | notText => "expected string argument"
  | badNullChoice choice =>
    "Not valid value for \x60on_null\x60: " ++ choice.shown ++
      ". Valid values are \"empty\" or \"none\""
  | unknownEntry name known =>
    "Config for entrypoint name " ++ Text.quoted name ++
      " is not defined! Accepted values are " ++
      Show.bracketed "[" "]" (known.map Text.quoted) ++ "."
  | _ => ""

end Fault

end TreeDelta
