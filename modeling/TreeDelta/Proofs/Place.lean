import TreeDelta.Delta.Basic
import TreeDelta.Proofs.Fields
/-!
# Places

A `Slot` is what a place holds: a value, or nothing at all. `Slot.at_` follows a path of keys down
from a place; below anything but a mapping there is nothing. `Value.lookup?` starts from a value
and tells a place that holds nothing from one that holds `absent`, which `Value.at_` does not.
-/

namespace TreeDelta

/-- What a place holds, if anything. -/
abbrev Slot := Option Value

namespace Slot

def child (slot : Slot) (k : Key) : Slot := slot.bind fun v => v.fields?.bind (Fields.get? k)

def at_ (slot : Slot) (path : List Key) : Slot := path.foldl child slot

@[simp] theorem child_none (k : Key) : child none k = none := rfl

@[simp] theorem child_map (id : Ident) (fields : List (Key × Value)) (k : Key) :
    child (some (.map id fields)) k = Fields.get? k fields := rfl

theorem child_of_fields {v : Value} {fields : List (Key × Value)} (h : v.fields? = some fields)
    (k : Key) : child (some v) k = Fields.get? k fields := by
  simp [child, h]

@[simp] theorem at_nil (slot : Slot) : at_ slot [] = slot := rfl

@[simp] theorem at_cons (slot : Slot) (k : Key) (path : List Key) :
    at_ slot (k :: path) = at_ (child slot k) path := rfl

@[simp] theorem at_none (path : List Key) : at_ none path = none := by
  induction path with
  | nil => rfl
  | cons k path ih => simpa using ih

theorem at_append (slot : Slot) (p q : List Key) : at_ slot (p ++ q) = at_ (at_ slot p) q :=
  List.foldl_append

theorem child_congr {k l : Key} (h : k.same l = true) (slot : Slot) : child slot k = child slot l := by
  cases slot with
  | none => rfl
  | some v => simp [child, funext fun fields => Fields.get?_congr h fields]

/-- Where something stands below a place, the place holds a mapping. -/
theorem exists_map_of_child {slot : Slot} {k : Key} {v : Value} (h : slot.child k = some v) :
    ∃ id fields, slot = some (.map id fields) := by
  obtain ⟨u, rfl, hu⟩ := Option.bind_eq_some_iff.1 h
  obtain ⟨fields, hf, -⟩ := Option.bind_eq_some_iff.1 hu
  cases u with
  | map id entries => exact ⟨id, entries, rfl⟩
  | _ => cases hf

theorem exists_map_of_at {slot : Slot} {k : Key} {path : List Key} {v : Value}
    (h : slot.at_ (k :: path) = some v) : ∃ id fields, slot = some (.map id fields) := by
  rw [Slot.at_cons] at h
  cases hc : slot.child k with
  | none => rw [hc, Slot.at_none] at h; cases h
  | some u => exact exists_map_of_child hc

theorem getD_child (slot : Slot) (k : Key) : (child slot k).getD .absent = (slot.getD .absent).child k := by
  cases slot with
  | none => rfl
  | some v => cases h : v.fields? <;> simp [child, Value.child, h]

theorem getD_at (slot : Slot) (path : List Key) :
    (at_ slot path).getD .absent = (slot.getD .absent).at_ path := by
  induction path generalizing slot with
  | nil => rfl
  | cons k path ih => rw [at_cons, ih, getD_child]; rfl

end Slot

/-- What stands at a path in a value. -/
def Value.lookup? (v : Value) (path : List Key) : Slot := Slot.at_ (some v) path

@[simp] theorem Value.lookup?_nil (v : Value) : v.lookup? [] = some v := rfl

theorem Value.getD_lookup? (v : Value) (path : List Key) :
    (v.lookup? path).getD .absent = v.at_ path := Slot.getD_at _ _

@[simp] theorem Value.at_nil (v : Value) : v.at_ [] = v := rfl

@[simp] theorem Value.at_cons (v : Value) (k : Key) (path : List Key) :
    v.at_ (k :: path) = (v.child k).at_ path := rfl

theorem Value.child_congr {k l : Key} (h : k.same l = true) (v : Value) : v.child k = v.child l := by
  simp [Value.child, Fields.get?_congr h]

namespace Delta

@[simp] theorem child_nothing (k : Key) : nothing.child k = nothing := rfl

@[simp] theorem child_node (c : Change) (k : Key) : (node c).child k = nothing := rfl

@[simp] theorem child_tree (entries : List (Key × Delta)) (k : Key) :
    (tree entries).child k = (Fields.get? k entries).getD nothing := rfl

theorem child_congr {k l : Key} (h : k.same l = true) (d : Delta) : d.child k = d.child l := by
  simp [child, Fields.get?_congr h]

@[simp] theorem at_nil (d : Delta) : d.at_ [] = d := rfl

@[simp] theorem at_cons (d : Delta) (k : Key) (path : List Key) :
    d.at_ (k :: path) = (d.child k).at_ path := rfl

@[simp] theorem at_nothing (path : List Key) : nothing.at_ path = nothing := by
  induction path with
  | nil => rfl
  | cons k path ih => simpa using ih

/-- There is a change somewhere in a tree, if there is one below each key that tells something. -/
theorem exists_node_of_tree {entries : List (Key × Delta)} (nonempty : entries ≠ [])
    (distinct : Fields.Distinct entries) (told : ∀ k, Fields.get? k entries ≠ some .nothing)
    (below : ∀ k, (Fields.get? k entries).getD .nothing ≠ .nothing →
      ∃ p c, ((Fields.get? k entries).getD .nothing).at_ p = .node c) :
    ∃ p c, (tree entries).at_ p = .node c := by
  obtain ⟨⟨k, d⟩, rest, rfl⟩ := List.exists_cons_of_ne_nil nonempty
  have hd : Fields.get? k ((k, d) :: rest) = some d := Fields.get?_of_mem distinct (by simp)
  obtain ⟨p, c, hp⟩ := below k (by rw [hd]; rintro rfl; exact told k hd)
  exact ⟨k :: p, c, hp⟩

/-- A path on which no change lies, neither further up nor further down. -/
def Apart (d : Delta) (p : List Key) : Prop :=
  ∀ q c, d.at_ q = .node c → ¬ p <+: q ∧ ¬ q <+: p

theorem Apart.below {d : Delta} {k : Key} {p : List Key} (h : d.Apart (k :: p)) :
    (d.child k).Apart p := by
  intro q c hq
  obtain ⟨h1, h2⟩ := h (k :: q) c hq
  exact ⟨fun hp => h1 (by simpa using hp), fun hp => h2 (by simpa using hp)⟩

end Delta

end TreeDelta
