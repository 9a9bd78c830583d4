import TreeDelta.Command.Basic
import TreeDelta.Delta.Basic
import TreeDelta.Fault
/-!
# Applying one operation

An operation acts on a `Site`, one key of a mapping with what it holds there, and has an
`Outcome`: the value that belongs there and what changed. Where nothing changes the outcome's
value is the very value that was there.

Functions are called through `Functions`, which maps a function and an argument to its result.
A container that an operation makes gets the identity `fresh`.
-/

namespace TreeDelta

/-- What the functions among the values compute: the function, the identity for a container it
makes, and the argument. -/
abbrev Functions := Ident → Ident → Value → Except Fault Value

/-- One key of a mapping, with what the mapping holds there. -/
structure Site where
  key : Key
  slot : Option Value

namespace Site

def current (site : Site) : Value := site.slot.getD .absent

/-- What writing there amounts to. -/
def writeKind (site : Site) : ChangeKind := if site.slot.isSome then .change else .add

end Site

/-- The value that an operation leaves, and what changed. -/
structure Outcome where
  value : Value
  delta : Delta

namespace Outcome

def unchanged (v : Value) : Outcome := ⟨v, .nothing⟩

def replaced (site : Site) (kind : ChangeKind) (v : Value) : Outcome :=
  ⟨v, .node (.of kind site.current v)⟩

end Outcome

/-- A sequence of the same kind with other items. -/
def Value.withItems (fresh : Ident) (v : Value) (items : List Value) : Value :=
  match v with
  | .list _ _ => .list fresh items
  | _ => .tuple items

/-- The entries of a value that an operation needs to be a mapping. -/
def mappingOf (kind : Operation) (role : Role) (key : Key) (v : Value) :
    Except Fault (List (Key × Value)) :=
  match v.fields? with
  | some fields => .ok fields
  | none => .error (.command (.needsMapping kind role key v.type))

/-- Puts a value in place of one that is not the same (`apply_set`). -/
def Site.set (site : Site) (v : Value) : Outcome :=
  if v.same site.current then .unchanged site.current else .replaced site site.writeKind v

/-- A mapping on the way from its old entries to its new ones: its entries by now, and what has
changed among them so far. -/
structure Draft where
  fields : List (Key × Value)
  changes : List (Key × Delta)

namespace Draft

def start (fields : List (Key × Value)) : Draft := ⟨fields, []⟩

/-- A key of the mapping, with what it holds by now. -/
def site (draft : Draft) (k : Key) : Site := ⟨k, Fields.get? k draft.fields⟩

/-- Takes over the outcome at a key, if something changes there. -/
def take (draft : Draft) (k : Key) (o : Outcome) : Draft :=
  if o.delta.isNothing then draft
  else ⟨Fields.put k o.value draft.fields, Fields.put k o.delta draft.changes⟩

def setAll (draft : Draft) : List (Key × Value) → Draft
  | [] => draft
  | (k, v) :: rest => (draft.take k ((draft.site k).set v)).setAll rest

/-- The mapping in the end: a new one, or the old one if nothing has changed. -/
def commit (draft : Draft) (fresh : Ident) (source : Value) : Outcome :=
  if draft.changes.isEmpty then .unchanged source else ⟨.map fresh draft.fields, .tree draft.changes⟩

end Draft

namespace Site

def sequenceAt (site : Site) (kind : Operation) : Except Fault (List Value) :=
  match site.current.sequence? with
  | some items => .ok items
  | none => .error <| .command <| .notSequence kind site.key <|
      if site.current = .absent then none else some site.current.type

/-- Adds a value at the end of the sequence (`apply_push`). -/
def push (site : Site) (fresh : Ident) (v : Value) : Except Fault Outcome := do
  let items ← site.sequenceAt .push
  .ok (.replaced site .change (site.current.withItems fresh (items ++ [v])))

/-- Adds a value at the front of the sequence (`apply_unshift`). -/
def unshift (site : Site) (fresh : Ident) (v : Value) : Except Fault Outcome := do
  let items ← site.sequenceAt .unshift
  .ok (.replaced site .change (site.current.withItems fresh (v :: items)))

/-- The entries at the site that an operation extends; `none` if nothing or null is there. -/
def targetOf (site : Site) (kind : Operation) : Except Fault (Option (List (Key × Value))) :=
  if site.current.isAbsent then .ok none
  else (mappingOf kind .target site.key site.current).map some

/-- Extends what is at the site, or puts a copy of `extensions` where nothing is. -/
def extend (site : Site) (fresh : Ident) (target : Option (List (Key × Value)))
    (extensions : List (Key × Value)) : Outcome :=
  match target with
  | none => .replaced site site.writeKind (.map fresh extensions)
  | some fields => ((Draft.start fields).setAll extensions).commit fresh site.current

/-- Writes every entry of the argument into the mapping (`apply_merge`). -/
def merge (site : Site) (fresh : Ident) (v : Value) : Except Fault Outcome := do
  let extensions ← mappingOf .merge .argument site.key v
  let target ← site.targetOf .merge
  .ok (site.extend fresh target extensions)

/-- Writes the entries of the argument whose keys the mapping lacks (`apply_defaults`). -/
def defaults (site : Site) (fresh : Ident) (v : Value) : Except Fault Outcome := do
  let extensions ← mappingOf .defaults .argument site.key v
  let target ← site.targetOf .defaults
  let missing := extensions.filter fun (k, _) => !Fields.has k (target.getD [])
  .ok (site.extend fresh target missing)

/-- Sets what a function makes of the value (`apply_invoke`). -/
def invoke (site : Site) (call : Functions) (fresh : Ident) (v : Value) : Except Fault Outcome :=
  match v with
  | .fn id => do .ok (site.set (← call id fresh site.current))
  | _ => .error (.command (.notCallable site.key v.type))

end Site

def Operation.apply (call : Functions) (fresh : Ident) (site : Site) (kind : Operation)
    (v : Value) : Except Fault Outcome :=
  match kind with
  | .set => .ok (site.set v)
  | .push => site.push fresh v
  | .unshift => site.unshift fresh v
  | .merge => site.merge fresh v
  | .defaults => site.defaults fresh v
  | .invoke => site.invoke call fresh v

end TreeDelta
