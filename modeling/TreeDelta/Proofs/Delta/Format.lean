import TreeDelta.Delta.Valid
import TreeDelta.Proofs.Delta.Chain
import TreeDelta.Proofs.Delta.Document
/-!
# Well formed deltas and the format of documents

`Document.Conforms` is the format of delta documents, said of the document alone: which fields an entry
has, by its `op`, and what stands under them. `Delta.isValid` looks at the delta and never at its
document. `Delta.isValid_iff_conforms` says that the two judge alike.

Both go down the tree, so the proof compares them entry by entry: a change by the two values it has or
lacks (`isItem_node`), a tree by the list under `diff` (`isItem_tree`). A change whose label is `patch` is
an entry without a list, which neither of the two accepts.
-/

namespace TreeDelta

/-! ## The format -/

namespace Document

/-- The key of an entry: text or a whole number. -/
inductive IsKey : Value → Prop where
  | str (s : Text) : IsKey (.str s)
  | int (i : Int) : IsKey (.int i)

/-- The fields tell a change of the kind: a new value unless something is removed, and an old value
unless something is added. -/
structure Tells (kind : ChangeKind) (fields : List (Key × Value)) : Prop where
  op : Fields.get? op fields = some (.str kind.name)
  old : Fields.has old fields = true ↔ kind ≠ .add
  new : Fields.has new fields = true ↔ kind ≠ .remove

/-- An entry of a list: a change with its key, or a list of entries that is not empty, with its key and
no other field. -/
inductive IsItem : Value → Prop where
  | change {id : Ident} {fields : List (Key × Value)} {kind : ChangeKind} {k : Value}
      (keyed : Fields.get? key fields = some k) (spelled : IsKey k) (tells : Tells kind fields) :
      IsItem (.map id fields)
  | patch {id below : Ident} {fields : List (Key × Value)} {k : Value} {items : List Value}
      (keyed : Fields.get? key fields = some k) (spelled : IsKey k)
      (named : Fields.get? op fields = some patch)
      (lists : Fields.get? diff fields = some (.list below items))
      (only : ∀ l v, (l, v) ∈ fields → l = op ∨ l = key ∨ l = diff)
      (nonempty : items ≠ []) (each : ∀ v ∈ items, IsItem v) : IsItem (.map id fields)

/-- The document of a delta that is not nothing: a change without a key, or a list of entries that is
not empty. -/
inductive Conforms : Value → Prop where
  | change {id : Ident} {fields : List (Key × Value)} {kind : ChangeKind}
      (alone : Fields.has key fields = false) (tells : Tells kind fields) : Conforms (.map id fields)
  | entries {id : Ident} {items : List Value} (nonempty : items ≠ []) (each : ∀ v ∈ items, IsItem v) :
      Conforms (.list id items)

theorem conforms_list {id : Ident} {items : List Value} :
    Conforms (.list id items) ↔ items ≠ [] ∧ ∀ v ∈ items, IsItem v := by
  constructor
  · rintro ⟨⟩
    exact ⟨by assumption, by assumption⟩
  · exact fun ⟨nonempty, each⟩ => .entries nonempty each

end Document

/-! ## The deltas in question -/

/-- A change of whatever label, or a tree of such deltas, which may be empty, under texts and whole
numbers. -/
inductive Delta.Genuine : Delta → Prop where
  | node (c : Change) : Genuine (.node c)
  | tree {entries : List (Key × Delta)} (keys : ∀ k d, (k, d) ∈ entries → Document.IsKey k.toValue)
      (below : ∀ k d, (k, d) ∈ entries → Genuine d) : Genuine (.tree entries)

theorem Delta.Genuine.stray_none {d : Delta} (h : d.Genuine) : d.stray? = none := by
  induction h with
  | node c => rfl
  | tree _ _ ih => exact stray?_tree.2 ih

/-! ## What makes a delta well formed -/

theorem Change.fault?_eq_none {c : Change} {trail : Trail} :
    c.fault? trail = none ↔ ∃ kind : ChangeKind, c.label = .str kind.name ∧
      (c.old ≠ .absent ↔ kind ≠ .add) ∧ (c.new ≠ .absent ↔ kind ≠ .remove) := by
  cases hk : c.kind? with
  | none =>
    refine iff_of_false (by simp [fault?, hk]) ?_
    rintro ⟨kind, hl, -⟩
    rw [kind?, hl, ChangeKind.ofValue?_name] at hk
    cases hk
  | some kind =>
    have unique : ∀ other : ChangeKind, c.label = .str other.name → other = kind := by
      intro other hl
      rw [kind?, hl, ChangeKind.ofValue?_name] at hk
      exact Option.some.inj hk
    have judged : c.fault? trail = none ↔
        (c.old ≠ .absent ↔ kind ≠ .add) ∧ (c.new ≠ .absent ↔ kind ≠ .remove) := by
      cases kind <;> by_cases ho : c.old = .absent <;> by_cases hn : c.new = .absent <;>
        simp [fault?, hk, ho, hn]
    rw [judged]
    constructor
    · exact fun h => ⟨kind, label_of_kind hk, h⟩
    · rintro ⟨other, hl, h⟩
      rwa [unique other hl] at h

namespace Delta

theorem faultIn?_eq_none {entries : List (Key × Delta)} {trail : Trail} :
    faultIn? trail entries = none ↔
      ∀ k d, (k, d) ∈ entries → d.fault? (trail ++ [k.plain]) = none := by
  induction entries with
  | nil => simp [faultIn?]
  | cons entry rest ih =>
    obtain ⟨k, d⟩ := entry
    rw [Fields.forall_cons, ← ih, faultIn?]
    cases d.fault? (trail ++ [k.plain]) <;> simp

theorem fault?_tree {entries : List (Key × Delta)} {trail : Trail} :
    (tree entries).fault? trail = none ↔
      entries ≠ [] ∧ ∀ k d, (k, d) ∈ entries → d.fault? (trail ++ [k.plain]) = none := by
  cases entries with
  | nil => simp [fault?]
  | cons entry rest => rw [fault?, faultIn?_eq_none]; simp

/-! ## Entry by entry -/

open Document

/-- The entry of a change tells what the change is. -/
theorem tells_entryOf {under : List (Key × Value)} (hunder : under = [] ∨ ∃ w, under = [(key, w)])
    {c : Change} {kind : ChangeKind} :
    Tells kind ((op, c.label) :: under ++ Document.optional old c.old ++ Document.optional new c.new) ↔
      c.label = .str kind.name ∧ (c.old ≠ .absent ↔ kind ≠ .add) ∧
        (c.new ≠ .absent ↔ kind ≠ .remove) := by
  obtain ⟨-, hop, -, hold, hnew⟩ := get?_entry hunder c.label c.old c.new
  have has_iff : ∀ v : Value, (if v = .absent then none else some v).isSome = true ↔ v ≠ .absent := by
    intro v
    by_cases hv : v = .absent <;> simp [hv]
  constructor
  · intro h
    have ho := h.op
    have hu := h.old
    have hn := h.new
    rw [hop, Option.some.injEq] at ho
    rw [Fields.has, hold, has_iff] at hu
    rw [Fields.has, hnew, has_iff] at hn
    exact ⟨ho, hu, hn⟩
  · rintro ⟨hl, hu, hn⟩
    refine ⟨by rw [hop, hl], ?_, ?_⟩
    · rw [Fields.has, hold, has_iff, hu]
    · rw [Fields.has, hnew, has_iff, hn]

/-- No change has an entry that holds a list of entries. -/
theorem get?_diff_entry {under : List (Key × Value)} (hunder : under = [] ∨ ∃ w, under = [(key, w)])
    (label u v : Value) :
    Fields.get? diff ((op, label) :: under ++ Document.optional old u ++ Document.optional new v) =
      none := by
  have apart : ∀ l ∈ [op, key, old, new], diff.same l = false := by decide
  refine Fields.get?_none_of_forall fun l w hm => apart l ?_
  simp only [List.mem_append, List.mem_cons, Prod.mk.injEq] at hm
  rcases hm with ((⟨rfl, -⟩ | hm) | hm) | hm
  · simp
  · rcases hunder with rfl | ⟨w', rfl⟩
    · cases hm
    · cases List.mem_singleton.1 hm
      simp
  · rw [(mem_optional hm).1]
    simp
  · rw [(mem_optional hm).1]
    simp

/-- A change that stands alone is well formed if its document conforms. -/
theorem conforms_node {c : Change} {run : Nat} {place : List Key} {trail : Trail} :
    (node c).fault? trail = none ↔ Conforms ((node c).toDocument run place) := by
  have shape : ([] : List (Key × Value)) = [] ∨ ∃ w, ([] : List (Key × Value)) = [(key, w)] := Or.inl rfl
  have alone : Fields.has key ((op, c.label) :: [] ++ Document.optional old c.old ++
      Document.optional new c.new) = false := by
    rw [Fields.has, (get?_entry shape c.label c.old c.new).2.2.1]
    rfl
  rw [fault?, Change.fault?_eq_none, toDocument, entryOf]
  constructor
  · rintro ⟨kind, h⟩
    exact .change alone ((tells_entryOf shape).2 h)
  · intro h
    cases h with
    | change _ tells => exact ⟨_, (tells_entryOf shape).1 tells⟩

/-- A change is well formed if its entry under a key is one. -/
theorem isItem_node {c : Change} {run : Nat} {place : List Key} {k : Key} {trail : Trail}
    (hk : IsKey k.toValue) : (node c).fault? trail = none ↔ IsItem (toEntry run place k (.node c)) := by
  have shape : [(key, k.toValue)] = [] ∨ ∃ w, [(key, k.toValue)] = [(key, w)] := Or.inr ⟨_, rfl⟩
  obtain ⟨-, -, keyed, -, -⟩ := get?_entry shape c.label c.old c.new
  rw [fault?, Change.fault?_eq_none, toEntry, entryOf]
  constructor
  · rintro ⟨kind, h⟩
    exact .change keyed hk ((tells_entryOf shape).2 h)
  · intro h
    cases h with
    | change _ _ tells => exact ⟨_, (tells_entryOf shape).1 tells⟩
    | patch _ _ _ lists =>
      -- not even if the label of the change is that of a list
      rw [get?_diff_entry shape] at lists
      cases lists

/-- No kind of change has the name that marks a list. -/
theorem patch_ne_name (kind : ChangeKind) : patch ≠ .str kind.name := by cases kind <;> decide

/-- The entry of a tree is one if the tree's document conforms. -/
theorem isItem_tree {entries : List (Key × Delta)} {run : Nat} {place : List Key} {k : Key}
    (hk : IsKey k.toValue) :
    Conforms ((tree entries).toDocument run (.int 0 :: place)) ↔
      IsItem (toEntry run place k (.tree entries)) := by
  obtain ⟨items, -, hdoc, -⟩ := toDocument_tree run (.int 0 :: place) entries
  rw [toEntry, hdoc, conforms_list]
  · constructor
    · rintro ⟨nonempty, each⟩
      refine .patch rfl hk rfl rfl ?_ nonempty each
      simp only [Fields.forall_cons]
      simp
    · intro h
      cases h with
      | change _ _ tells =>
        exact absurd (Option.some.inj tells.op) (patch_ne_name _)
      | patch _ _ _ lists _ nonempty each =>
        cases lists
        exact ⟨nonempty, each⟩
  · simp

/-- A delta is well formed if its document conforms: the two look at the same entries, in whatever
order the document has them. -/
theorem conforms_iff {d : Delta} (h : d.Genuine) : ∀ (run : Nat) (place : List Key) (trail : Trail),
    d.fault? trail = none ↔ Conforms (d.toDocument run place) := by
  induction h with
  | node c => exact fun run place trail => conforms_node
  | @tree entries keys below ih =>
    intro run place trail
    have entry : ∀ k d, (k, d) ∈ entries → ∀ run place,
        (d.fault? (trail ++ [k.plain]) = none ↔ IsItem (toEntry run place k d)) := by
      intro k d hm run place
      cases below k d hm with
      | node c => exact isItem_node (keys k _ hm)
      | tree => rw [ih k _ hm run (.int 0 :: place), isItem_tree (keys k _ hm)]
    obtain ⟨items, ds, hdoc, hperm, hitems⟩ := toDocument_tree run place entries
    have hnil : items = [] ↔ entries = [] := by
      rw [← List.length_eq_zero_iff, hitems.length_eq, hperm.length_eq, List.length_eq_zero_iff]
    rw [fault?_tree, hdoc, conforms_list, ne_eq, ne_eq, hnil]
    refine and_congr_right fun _ => ⟨fun hall v hv => ?_, fun hall k d hm => ?_⟩
    · obtain ⟨⟨k, d⟩, hm, run', place', rfl⟩ := exists_of_forall₂ hitems hv
      exact (entry k d (hperm.mem_iff.1 hm) run' place').1 (hall k d (hperm.mem_iff.1 hm))
    · obtain ⟨v, hv, run', place', e⟩ := exists_of_forall₂ hitems.flip (hperm.mem_iff.2 hm)
      exact (entry k d hm run' place').2 (e ▸ hall v hv)

/-- A delta of changes and trees under texts and whole numbers has a document, and is well formed if and
only if the document has the format. -/
theorem isValid_iff_conforms {d : Delta} (h : d.Genuine) (run : Nat) :
    ∃ v, d.asDocument run = .ok v ∧ (d.isValid = true ↔ Conforms v) := by
  obtain ⟨nodes, hnodes, -⟩ := changes_listed h.stray_none
  refine ⟨d.toDocument run [], by rw [asDocument, hnodes]; rfl, ?_⟩
  rw [isValid, Option.isNone_iff_eq_none]
  exact conforms_iff h run [] []

/-- A tree of two levels has a document of the format. One that holds a change labelled `patch` beside an
empty tree has a document as well, but not one of the format. -/
theorem isValid_iff_conforms_of_patch :
    let removed : Delta := .node (.of .remove (.bool true) .absent)
    let d : Delta :=
      .tree [(.str "b", .tree [(.int 3, .node (.of .add .absent .null))]), (.str "a", removed)]
    let e : Delta := .tree [(.str "b", .node ⟨.str "patch", .absent, .list ⟨0, []⟩ []⟩), (.int 3, .tree [])]
    d.Genuine ∧ (∃ v, d.asDocument 1 = .ok v ∧ Conforms v) ∧
      e.Genuine ∧ ∃ v, e.asDocument 1 = .ok v ∧ ¬ Conforms v := by
  intro removed d e
  have hd : d.Genuine := by
    refine .tree ?_ ?_ <;> simp only [Fields.forall_cons]
    · exact ⟨.str _, .str _, by simp⟩
    · refine ⟨.tree ?_ ?_, .node _, by simp⟩ <;> simp only [Fields.forall_cons]
      · exact ⟨.int 3, by simp⟩
      · exact ⟨.node _, by simp⟩
  have he : e.Genuine := by
    refine .tree ?_ ?_ <;> simp only [Fields.forall_cons]
    · exact ⟨.str _, .int 3, by simp⟩
    · exact ⟨.node _, .tree (by simp) (by simp), by simp⟩
  have valid : d.isValid = true := by decide
  have invalid : ¬ e.isValid = true := by decide
  obtain ⟨v, hv, conforms⟩ := isValid_iff_conforms hd 1
  obtain ⟨w, hw, refused⟩ := isValid_iff_conforms he 1
  exact ⟨hd, ⟨v, hv, conforms.1 valid⟩, he, w, hw, mt refused.2 invalid⟩

end Delta

end TreeDelta
