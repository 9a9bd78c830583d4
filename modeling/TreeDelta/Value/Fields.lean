import TreeDelta.Value.Basic
/-!
# Entries by key

A mapping is the list of its entries in insertion order. Keys are told apart by `Key.canon`:
a whole number, the double of the same value and the truth value of 0 or 1 are one key, and a
parsed command is one key with the tuple of its fields. An entry keeps the spelling its key had
first, and its place when it is written again.

`get?_put_self`, `get?_put_other`, `get?_erase_self` and `get?_erase_other` say what writing
and erasing do to look-up.
-/

namespace TreeDelta

mutual
/-- The spelling of a key by which keys are told apart. -/
def Key.canon : Key → Key
  | .bool b => .int (if b then 1 else 0)
  | .float x => match x.toInt? with
    | some i => .int i
    | none => .float x
  | .tuple items => .tuple (Key.canonList items)
  | .op kind argument => .tuple [kind.canon, argument.canon]
  | .descend children => .tuple [children.canon]
  | k => k

def Key.canonList : List Key → List Key
  | [] => []
  | k :: ks => k.canon :: Key.canonList ks
end

/-- The keys are one key of a mapping. -/
def Key.same (k l : Key) : Bool := k.canon = l.canon

@[simp] theorem Key.same_self (k : Key) : k.same k = true := by simp [Key.same]

theorem Key.same_iff {k l : Key} : k.same l = true ↔ k.canon = l.canon := by simp [Key.same]

/-- Keys that are one key tell the same other keys apart. -/
theorem Key.same_right {k l m : Key} (h : l.same m = true) : k.same l = k.same m := by
  simp [Key.same, Key.same_iff.1 h]

namespace Fields

variable {α : Type} {β : Type}

def get? (k : Key) : List (Key × α) → Option α
  | [] => none
  | (l, a) :: rest => if k.same l then some a else get? k rest

def has (k : Key) (fields : List (Key × α)) : Bool := (get? k fields).isSome

/-- Writes an entry: in its place if the key is there, otherwise at the end. -/
def put (k : Key) (a : α) : List (Key × α) → List (Key × α)
  | [] => [(k, a)]
  | (l, b) :: rest => if k.same l then (l, a) :: rest else (l, b) :: put k a rest

def erase (k : Key) (fields : List (Key × α)) : List (Key × α) :=
  fields.filter fun (l, _) => !k.same l

def putAll (fields changes : List (Key × α)) : List (Key × α) :=
  changes.foldl (fun acc (k, a) => put k a acc) fields

/-- The mapping of a list of entries: a repeated key keeps its first place and last value. -/
def ofList (entries : List (Key × α)) : List (Key × α) := putAll [] entries

def keys (fields : List (Key × α)) : List Key := fields.map (·.1)

/-- No key stands twice. -/
def Distinct (fields : List (Key × α)) : Prop := (keys fields |>.map Key.canon).Nodup

instance (fields : List (Key × α)) : Decidable (Distinct fields) :=
  inferInstanceAs (Decidable (List.Nodup _))

/-- The same keys with other entries. -/
def mapValues (f : α → β) (fields : List (Key × α)) : List (Key × β) :=
  fields.map fun (k, a) => (k, f a)

@[simp] theorem get?_nil (k : Key) : get? k ([] : List (Key × α)) = none := rfl

theorem get?_cons (k l : Key) (a : α) (rest : List (Key × α)) :
    get? k ((l, a) :: rest) = if k.same l then some a else get? k rest := rfl

theorem get?_congr {k l : Key} (h : k.same l = true) (fields : List (Key × α)) :
    get? k fields = get? l fields := by
  induction fields with
  | nil => rfl
  | cons entry rest ih =>
    obtain ⟨m, a⟩ := entry
    have : k.same m = l.same m := by simp [Key.same, Key.same_iff.1 h]
    simp [get?_cons, this, ih]

theorem get?_put_self (k : Key) (a : α) (fields : List (Key × α)) :
    get? k (put k a fields) = some a := by
  induction fields with
  | nil => simp [put, get?_cons]
  | cons entry rest ih =>
    obtain ⟨l, b⟩ := entry
    by_cases h : k.same l = true <;> simp [put, get?_cons, h, ih]

theorem get?_put_other {k l : Key} (h : k.same l = false) (a : α) (fields : List (Key × α)) :
    get? k (put l a fields) = get? k fields := by
  induction fields with
  | nil => simp [put, get?_cons, h]
  | cons entry rest ih =>
    obtain ⟨m, b⟩ := entry
    by_cases hm : l.same m = true
    · have hk : k.same m = false := by rw [← Key.same_right hm]; exact h
      simp [put, get?_cons, hm, hk]
    · simp [put, get?_cons, hm, ih]

theorem get?_erase_self (k : Key) (fields : List (Key × α)) :
    get? k (erase k fields) = none := by
  induction fields with
  | nil => rfl
  | cons entry rest ih =>
    obtain ⟨l, b⟩ := entry
    by_cases h : k.same l = true
    · simpa [erase, h] using ih
    · have : erase k ((l, b) :: rest) = (l, b) :: erase k rest := by simp [erase, h]
      simp [this, get?_cons, h, ih]

theorem get?_erase_other {k l : Key} (h : k.same l = false) (fields : List (Key × α)) :
    get? k (erase l fields) = get? k fields := by
  induction fields with
  | nil => rfl
  | cons entry rest ih =>
    obtain ⟨m, b⟩ := entry
    by_cases hm : l.same m = true
    · have hk : k.same m = false := by rw [← Key.same_right hm]; exact h
      have : erase l ((m, b) :: rest) = erase l rest := by simp [erase, hm]
      simp [this, get?_cons, hk, ih]
    · have : erase l ((m, b) :: rest) = (m, b) :: erase l rest := by simp [erase, hm]
      simp [this, get?_cons, ih]

end Fields

end TreeDelta
