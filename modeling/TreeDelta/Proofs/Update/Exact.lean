import TreeDelta.Proofs.Update.Record
/-!
# The delta of an update is exact

`Value.update_exact` reads the record of an update path by path. At a change stand the very
values of both sides; above one stands a mapping that the update has made; and a path that is
neither above nor below a change holds the very value it held before.
-/

namespace TreeDelta

namespace Delta

variable {run : Nat} {before after : Slot} {d : Delta}

/-! ## Records, path by path -/

theorem Records.node_at (h : Records run before after d) {p : List Key} {c : Change}
    (hc : d.at_ p = .node c) :
    c.old = (before.at_ p).getD .absent ∧ after.at_ p = some c.new ∧
      (c.kind? = some .add ↔ before.at_ p = none) := by
  induction h generalizing p with
  | unchanged slot => simp at hc
  | added v | changed u v =>
    cases p with
    | nil => cases hc; simp [Change.of, Change.kind?, ChangeKind.ofValue?_name]
    | cons k p => simp at hc
  | tree _ _ _ _ _ _ ih =>
    cases p with
    | nil => cases hc
    | cons k p => exact ih k hc

/-- Something is told somewhere, unless nothing is. -/
theorem Records.exists_node (h : Records run before after d) (hd : d ≠ .nothing) :
    ∃ p c, d.at_ p = .node c := by
  induction h with
  | unchanged slot => exact absurd rfl hd
  | added v | changed u v => exact ⟨[], _, rfl⟩
  | tree _ _ nonempty distinct told _ ih => exact exists_node_of_tree nonempty distinct told ih

theorem Records.tree_at (h : Records run before after d) {p : List Key} {k : Key} {q : List Key}
    {c : Change} (hc : d.at_ (p ++ k :: q) = .node c) :
    ∃ id fields, after.at_ p = some (.map id fields) ∧ id.source = run := by
  induction h generalizing p with
  | unchanged slot => simp at hc
  | added v | changed u v =>
    cases p <;> simp at hc
  | tree own _ _ _ _ _ ih =>
    cases p with
    | nil => exact ⟨_, _, rfl, own⟩
    | cons l p => exact ih l hc

theorem Records.apart_at (h : Records run before after d) {p : List Key} (hp : d.Apart p) :
    after.at_ p = before.at_ p := by
  induction h generalizing p with
  | unchanged slot => rfl
  | added v | changed u v => exact absurd (List.nil_prefix) (hp [] _ rfl).2
  | tree own open_ nonempty distinct told below ih =>
    cases p with
    | nil =>
      -- the root of a tree lies above each of its changes
      have hrec : Records run _ _ _ := .tree own open_ nonempty distinct told below
      obtain ⟨q, c, hq⟩ := hrec.exists_node (by simp)
      exact absurd (List.nil_prefix) (hp q c hq).1
    | cons k p => exact ih k hp.below

/-- The delta describes exactly what has changed from one value to another, where the containers
made in between are none of the first value's. -/
structure Exact (before after : Value) (d : Delta) : Prop where
  node : ∀ p c, d.at_ p = .node c → c.old = (before.lookup? p).getD .absent ∧
    after.lookup? p = some c.new ∧ (c.kind? = some .add ↔ before.lookup? p = none)
  above : ∀ p k q c, d.at_ (p ++ k :: q) = .node c →
    ∃ id fields, after.lookup? p = some (.map id fields) ∧ id ∉ before.idents
  apart : ∀ p, d.Apart p → after.lookup? p = before.lookup? p

end Delta

/-- The delta of an update is exact. -/
theorem Value.update_exact {call : Functions} {run : Nat} {source commands : Value} {o : Outcome}
    (hc : commands.keyed = true) (hr : ∀ id ∈ source.idents, id.source ≠ run)
    (h : Value.update call run source commands = .ok o) :
    o.delta.Exact source o.value := by
  obtain ⟨c, hp, ha⟩ := update_ok h
  have hrec := Command.applyRoot_records (Command.keyed_of_parse hc hp) ha
  refine ⟨fun p c => hrec.node_at, fun p k q c hq => ?_, fun p => hrec.apart_at⟩
  obtain ⟨id, fields, hf, hid⟩ := hrec.tree_at hq
  exact ⟨id, fields, hf, fun hm => hr id hm hid⟩

/-- A descent through null, a push, and a key set to what it holds. -/
theorem Value.update_exact_through_null :
    let source : Value := .map ⟨0, []⟩
      [(.str "a", .null), (.str "b", .list ⟨0, [.str "b"]⟩ [.int 1]), (.str "c", .int 2)]
    let commands : Value := .map ⟨1, []⟩
      [(.str "a", .map ⟨1, [.int 0]⟩ [(.str "x", .op (.str "$set") (.int 3))]),
        (.str "b", .op (.str "$push") (.int 4)), (.str "c", .op (.str "$set") (.int 2))]
    ∃ o, Value.update (fun _ _ v => .ok v) 2 source commands = .ok o ∧
      commands.keyed = true ∧ (∀ id ∈ source.idents, id.source ≠ 2) ∧ o.delta.Exact source o.value := by
  intro source commands
  have hk : commands.keyed = true := by decide
  have hr : ∀ id ∈ source.idents, id.source ≠ 2 := by decide
  obtain ⟨o, ho⟩ : ∃ o, Value.update (fun _ _ v => .ok v) 2 source commands = .ok o := ⟨_, rfl⟩
  exact ⟨o, ho, hk, hr, Value.update_exact hk hr ho⟩

end TreeDelta
