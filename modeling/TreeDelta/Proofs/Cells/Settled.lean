import TreeDelta.Proofs.Cells.Steps
import TreeDelta.Proofs.Fields
/-!
# What a value is brought up to date to

`Cells.settled` depends on nothing but what was written into the containers and changes that its outcome
has (`Tidy.settled_eq`), and leaves a value alone into which nothing was written (`Untouched.settled`).
Both are inductions on the depth, with one step for every constructor: a value is brought up to date by
bringing its parts up to date (`settled_succ`).
-/

namespace TreeDelta

namespace Value

/-! ## The parts of a value -/

/-- What stands in a value, one level down. -/
def parts : Value → List Value
  | list _ items | tuple items => items
  | map _ fields => fields.map (·.2)
  | node _ label old new => [label, old, new]
  | op kind argument => [kind, argument]
  | descend children => [children]
  | _ => []

/-- The same value with other parts. -/
def mapParts (f : Value → Value) : Value → Value
  | list id items => list id (items.map f)
  | tuple items => tuple (items.map f)
  | map id fields => map id (Fields.mapValues f fields)
  | node id label old new => node id (f label) (f old) (f new)
  | op kind argument => op (f kind) (f argument)
  | descend children => descend (f children)
  | v => v

@[simp] theorem ident?_mapParts (f : Value → Value) (v : Value) : (v.mapParts f).ident? = v.ident? := by
  cases v <;> rfl

theorem parts_mapParts (f : Value → Value) (v : Value) : (v.mapParts f).parts = v.parts.map f := by
  cases v <;> simp [mapParts, parts, Fields.mapValues, Function.comp_def]

theorem mapParts_congr {f g : Value → Value} {v : Value} (h : ∀ u ∈ v.parts, f u = g u) :
    v.mapParts f = v.mapParts g := by
  cases v with
  | map id fields =>
    have each : ∀ e ∈ fields, (e.1, f e.2) = (e.1, g e.2) := fun e he =>
      congrArg (Prod.mk e.1) (h e.2 (List.mem_map_of_mem he))
    exact congrArg (map id) (List.map_congr_left each)
  | _ => simp_all [mapParts, parts]

theorem mapParts_self {f : Value → Value} {v : Value} (h : ∀ u ∈ v.parts, f u = u) : v.mapParts f = v := by
  have same : v.mapParts id = v := by cases v <;> simp [mapParts, Fields.mapValues]
  rw [mapParts_congr (g := id) h, same]

theorem mem_identsOf {items : List Value} {i : Ident} :
    i ∈ identsOf items ↔ ∃ v ∈ items, i ∈ v.idents := by
  induction items with
  | nil => simp [identsOf]
  | cons v rest ih => rw [identsOf, List.mem_append, ih]; simp

theorem mem_identsIn {fields : List (Key × Value)} {i : Ident} :
    i ∈ identsIn fields ↔ ∃ k v, (k, v) ∈ fields ∧ i ∈ v.idents := by
  induction fields with
  | nil => simp [identsIn]
  | cons entry rest ih =>
    obtain ⟨l, a⟩ := entry
    rw [identsIn, List.mem_append, ih]
    constructor
    · rintro (here | ⟨k, v, hm, there⟩)
      · exact ⟨l, a, List.mem_cons_self, here⟩
      · exact ⟨k, v, List.mem_cons_of_mem _ hm, there⟩
    · rintro ⟨k, v, hm, hi⟩
      rcases List.mem_cons.1 hm with e | hm
      · cases e; exact .inl hi
      · exact .inr ⟨k, v, hm, hi⟩

theorem mem_idents {v : Value} {i : Ident} :
    i ∈ v.idents ↔ v.ident? = some i ∨ ∃ u ∈ v.parts, i ∈ u.idents := by
  cases v with
  | map id fields =>
    rw [idents, List.mem_cons, mem_identsIn, parts, ident?, Option.some_inj, eq_comm]
    refine or_congr_right ⟨?_, ?_⟩
    · rintro ⟨k, u, hm, hi⟩
      exact ⟨u, List.mem_map_of_mem hm, hi⟩
    · rintro ⟨u, hu, hi⟩
      obtain ⟨e, he, rfl⟩ := List.mem_map.1 hu
      exact ⟨e.1, e.2, he, hi⟩
  | _ => simp [idents, ident?, parts, mem_identsOf, eq_comm]

end Value

namespace Cells

open Value

variable {run : Nat} {cells after : Cells} {v w : Value} {n : Nat}

/-! ## A value into which nothing was written -/

/-- Nothing has been written into a container or change in the value. -/
def Untouched (cells : Cells) (v : Value) : Prop := ∀ i ∈ v.idents, cells.cells.lookup i = none

theorem untouched_null : cells.Untouched .null := nofun

theorem Untouched.of_mem {u : Value} (h : cells.Untouched v) (hu : u ∈ v.parts) : cells.Untouched u :=
  fun i hi => h i (mem_idents.2 (.inr ⟨u, hu, hi⟩))

theorem Untouched.current (h : cells.Untouched v) : cells.current v = v := by
  unfold Cells.current
  cases hv : v.ident? with
  | none => rfl
  | some i => rw [Option.bind_some, h i (mem_idents.2 (.inl hv))]; rfl

theorem settled_succ (cells : Cells) (n : Nat) (v : Value) :
    cells.settled (n + 1) v = (cells.current v).mapParts (cells.settled n) := by
  rw [settled]
  cases cells.current v <;> rfl

theorem Untouched.settled (h : cells.Untouched v) (n : Nat) : cells.settled n v = v := by
  induction n generalizing v with
  | zero => rfl
  | succ n ih => rw [settled_succ, h.current, mapParts_self fun u hu => ih (h.of_mem hu)]

/-! ## A value into which something was written -/

theorem lookup_write (cells : Cells) (i j : Ident) (v : Value) :
    (cells.write i v).cells.lookup j = if j = i then some v else cells.cells.lookup j := by
  rw [write, List.lookup_cons]
  by_cases h : j = i
  · rw [if_pos h, beq_iff_eq.2 h]
  · rw [if_neg h, beq_false_of_ne h]

theorem lookup_write_ne (cells : Cells) (i : Ident) (v : Value) (j : Ident) (h : j ≠ i) :
    (cells.write i v).cells.lookup j = cells.cells.lookup j := by rw [lookup_write, if_neg h]

theorem current_write {i : Ident} (h : v.ident? = some i) (cells : Cells) (w : Value) :
    (cells.write i w).current v = w := by
  rw [Cells.current, h, Option.bind_some, lookup_write, if_pos rfl]; rfl

/-- What is kept for a container or change is that container or change, and is of none that is still to
come in the run. -/
structure Tidy (run : Nat) (cells : Cells) : Prop where
  own : ∀ i u, cells.cells.lookup i = some u → u.ident? = some i
  past : ∀ n, cells.next ≤ n → cells.cells.lookup ⟨run, [.int n]⟩ = none

theorem Tidy.ident?_current (tidy : Tidy run cells) (v : Value) : (cells.current v).ident? = v.ident? := by
  unfold Cells.current
  cases hv : v.ident? with
  | none => exact hv
  | some i =>
    rw [Option.bind_some]
    cases hi : cells.cells.lookup i with
    | none => exact hv
    | some u => exact tidy.own i u hi

theorem Tidy.ident?_settled (tidy : Tidy run cells) (n : Nat) (v : Value) :
    (cells.settled n v).ident? = v.ident? := by
  cases n with
  | zero => rfl
  | succ n => rw [settled_succ, ident?_mapParts, tidy.ident?_current]

theorem mapParts_eq_null {f : Value → Value} : v.mapParts f = .null ↔ v = .null := by
  cases v <;> simp [mapParts]

/-- Nothing but null is brought up to date to null. -/
theorem Tidy.settled_eq_null (tidy : Tidy run cells) : cells.settled n v = .null ↔ v = .null := by
  refine ⟨fun h => ?_, fun h => by rw [h]; exact untouched_null.settled n⟩
  cases n with
  | zero => exact h
  | succ n =>
    have none : v.ident? = none := by rw [← tidy.ident?_settled (n + 1), h]; rfl
    rw [settled_succ, mapParts_eq_null] at h
    rwa [Cells.current, none] at h

/-- A value is brought up to date alike wherever the same was written into what it then has. -/
theorem Tidy.settled_eq (tidy : Tidy run cells)
    (same : ∀ i ∈ (cells.settled n v).idents, after.cells.lookup i = cells.cells.lookup i) :
    after.settled n v = cells.settled n v := by
  induction n generalizing v with
  | zero => rfl
  | succ n ih =>
    have now : after.current v = cells.current v := by
      unfold Cells.current
      cases hv : v.ident? with
      | none => rfl
      | some i =>
        have here := same i (mem_idents.2 (.inl ((tidy.ident?_settled (n + 1) v).trans hv)))
        rw [Option.bind_some, Option.bind_some, here]
    rw [settled_succ, settled_succ, now]
    refine mapParts_congr fun u hu => ih fun i hi => same i (mem_idents.2 (.inr ⟨_, ?_, hi⟩))
    rw [settled_succ, parts_mapParts]
    exact List.mem_map_of_mem hu

end Cells

end TreeDelta
