import TreeDelta.Proofs.Delta.Chain
import TreeDelta.Proofs.Delta.Listing
import TreeDelta.Proofs.Update.Normal
/-!
# A merge tells nothing in vain

If neither of two deltas tells anything in vain (`Delta.Neat`), then their merge does not either,
whatever values it is given for the ends (`Delta.merge_neat`). Purging looks at the top of a delta
only, so at two trees it is the loop that has to keep every entry in form: it takes an entry out
once nothing is left of it (`tight_writeEntry`), and the purge of the whole then has an empty tree
to take away at most.
-/

namespace TreeDelta

/-- What a change that is not void looks like. -/
theorem Change.isVoid_eq_false {c : Change} : c.isVoid = false ↔
    (c.kind? = some .change → c.old.same c.new = false) ∧
      (c.kind? = some .remove → c.old ≠ .absent) := by
  unfold isVoid
  split
  · rename_i hk; simp [hk]
  · rename_i hk; simp [hk]
  · rename_i hchange hremove
    exact iff_of_true rfl ⟨fun h => absurd h hchange, fun h => absurd h hremove⟩

namespace Delta

variable {d stored later m : Delta} {old new : Value}

theorem Neat.child (h : d.Neat) (k : Key) : (d.child k).Neat := by
  rcases h with rfl | h
  · exact Or.inl rfl
  · cases h with
    | node => exact Or.inl rfl
    | @tree entries _ below =>
      rw [child_tree]
      cases hk : Fields.get? k entries with
      | none => exact Or.inl rfl
      | some e =>
        obtain ⟨l, hm, -⟩ := Fields.exists_mem_of_get? hk
        exact Or.inr (below l e hm)

theorem Neat.at_ (h : d.Neat) (p : List Key) : (d.at_ p).Neat := by
  induction p generalizing d with
  | nil => exact h
  | cons k p ih => exact ih (h.child k)

theorem not_neat_empty : ¬ (tree []).Neat := by
  rintro (h | h)
  · cases h
  · cases h with
    | tree nonempty => exact nonempty rfl

theorem Neat.isVoid {c : Change} (h : (node c).Neat) : c.isVoid = false := by
  rcases h with h | h
  · cases h
  · cases h with
    | node kept => exact Change.isVoid_of_kept kept

/-! ## What merging makes -/

theorem neat_purge_node (c : Change) : (purge (.node c)).Neat := by
  by_cases hv : c.isVoid
  · rw [purge, if_pos hv]
    exact Or.inl rfl
  · have kept : purge (.node c) = .node c := by rw [purge, if_neg hv]
    rw [kept]
    exact Or.inr (.node kept)

theorem neat_purge_tree {entries : List (Key × Delta)} (h : ∀ k d, (k, d) ∈ entries → d.Tight) :
    (purge (.tree entries)).Neat := by
  cases entries with
  | nil => exact Or.inl rfl
  | cons e rest => exact Or.inr (.tree (by simp) h)

theorem neat_of_changes {x y : Change} (h : x.merge y = .ok m) : m.Neat := by
  unfold Change.merge at h
  split at h
  · split at h
    · cases h; exact Or.inl rfl
    · cases h; exact neat_purge_node _
    · cases h; exact neat_purge_node _
    · cases h
  · split at h <;> cases h

/-- A merged entry that is in form keeps the tree it is written to in form. -/
theorem tight_writeEntry {entries : List (Key × Delta)} (h : ∀ k d, (k, d) ∈ entries → d.Tight)
    (k : Key) (hm : m.Neat) : ∀ l d, (l, d) ∈ writeEntry entries k m → d.Tight := by
  rcases hm with rfl | hm
  · intro l d hd
    exact h l d (List.mem_filter.1 hd).1
  · have hput : ∀ l d, (l, d) ∈ Fields.put k m entries → True ∧ d.Tight :=
      Fields.forall_put (fun l d hd => ⟨trivial, h l d hd⟩) trivial hm
    cases hm <;> exact fun l d hd => (hput l d hd).2

theorem mergeEntries_tight {rest : List (Key × Delta)}
    (each : ∀ k d, (k, d) ∈ rest → ∀ {stored : Delta} {old new : Value} {m : Delta}, stored.Neat →
      stored.merge old new d = .ok m → m.Neat) :
    ∀ {earlier entries : List (Key × Delta)}, (∀ k d, (k, d) ∈ earlier → d.Tight) →
      mergeEntries earlier old new rest = .ok entries → ∀ k d, (k, d) ∈ entries → d.Tight := by
  induction rest with
  | nil => intro earlier entries he h; cases h; exact he
  | cons entry rest ih =>
    obtain ⟨l, e⟩ := entry
    obtain ⟨hfirst, hrest⟩ := Fields.forall_cons.1 each
    intro earlier entries he h
    rw [mergeEntries] at h
    have hstored : ((Fields.get? l earlier).getD .nothing).Neat := by
      cases hl : Fields.get? l earlier with
      | none => exact Or.inl rfl
      | some s =>
        obtain ⟨l', hm, -⟩ := Fields.exists_mem_of_get? hl
        exact Or.inr (he l' s hm)
    cases hm : ((Fields.get? l earlier).getD .nothing).merge (old.child l) (new.child l) e with
    | error f => rw [hm] at h; cases h
    | ok m =>
      rw [hm] at h
      exact ih hrest (tight_writeEntry he l (hfirst hstored hm)) h

theorem neat_of_merge :
    ∀ {stored : Delta} {old new : Value} {m : Delta}, later.Neat → stored.Neat →
      stored.merge old new later = .ok m → m.Neat := by
  induction later using Delta.induction with
  | nothing =>
    intro stored old new m _ hs h
    rw [merge_nothing] at h
    cases h
    exact hs
  | node y =>
    intro stored old new m hl hs h
    rcases hs with rfl | hs
    · rw [nothing_merge] at h; cases h; exact hl
    · cases hs with
      | @node x _ =>
        rw [merge] at h
        cases hm : x.merge y with
        | ok d => rw [hm] at h; cases h; exact neat_of_changes hm
        | error f => rw [hm] at h; cases h
      | tree => rw [tree_merge_node] at h; cases h; exact neat_purge_node _
  | tree later ih =>
    intro stored old new m hl hs h
    rcases hs with rfl | hs
    · rw [nothing_merge] at h; cases h; exact hl
    · cases hs with
      | node => rw [node_merge_tree] at h; cases h; exact neat_purge_node _
      | @tree earlier _ he =>
        rw [tree_merge_tree] at h
        cases hm : mergeEntries earlier old new later with
        | error e => rw [hm] at h; cases h
        | ok entries =>
          rw [hm] at h
          cases h
          have below : ∀ k d, (k, d) ∈ later → d.Tight := by
            rcases hl with hl | hl
            · cases hl
            · cases hl with | tree _ below => exact below
          refine neat_purge_tree (mergeEntries_tight (fun k d hd => ?_) he hm)
          exact fun hs h => ih k d hd (Or.inr (below k d hd)) hs h
  | other v items =>
    rintro stored old new m (hl | hl) <;> cases hl

/-- The merge of two deltas that tell nothing in vain tells nothing in vain, whatever values it is
given: there is no empty tree in it at any depth, no change between values that are the same, and no
removal of what was absent. -/
theorem merge_neat (hs : stored.Neat) (hl : later.Neat) (h : stored.merge old new later = .ok m) :
    m.Neat ∧ ∀ p, m.at_ p ≠ .tree [] ∧ ∀ c, m.at_ p = .node c →
      (c.kind? = some .change → c.old.same c.new = false) ∧
        (c.kind? = some .remove → c.old ≠ .absent) := by
  have hm : m.Neat := neat_of_merge hl hs h
  refine ⟨hm, fun p => ⟨fun hp => ?_, fun c hc => ?_⟩⟩
  · have hat := hm.at_ p
    rw [hp] at hat
    exact not_neat_empty hat
  · have hat := hm.at_ p
    rw [hc] at hat
    exact Change.isVoid_eq_false.1 hat.isVoid

/-- Of two keys one is changed back, though by the values given it never held anything, and with it
the tree that it stood in goes. -/
theorem merge_neat_of_changed_back :
    let swap (a b : Value) : Delta := .node (.of .change a b)
    let stored : Delta := .tree [(.str "t", .tree [(.str "a", swap .null (.str "x"))]),
      (.str "u", swap .null (.str "x"))]
    let later : Delta := .tree [(.str "t", .tree [(.str "a", swap (.str "x") .null)]),
      (.str "u", .tree [(.str "b", swap (.str "x") .null)])]
    let m : Delta := .tree [(.str "u", swap .null (.bool true))]
    let new : Value := .map ⟨0, []⟩ [(.str "u", .bool true)]
    stored.Neat ∧ later.Neat ∧ stored.merge .absent new later = .ok m ∧ m.Neat ∧
      ∀ p, m.at_ p ≠ .tree [] := by
  intro swap stored later m new
  have tight : ∀ a b : Value, a.same b = false → (swap a b).Tight := fun a b h => by
    refine .node ?_
    rw [purge, isVoid_change, h]
    rfl
  have one : ∀ (k : Key) (d : Delta), d.Tight → (Delta.tree [(k, d)]).Tight := fun k d h =>
    .tree (by simp) (Fields.forall_cons.2 ⟨h, by simp⟩)
  have hs : stored.Neat := by
    refine Or.inr (.tree (by simp) (Fields.forall_cons.2 ⟨one _ _ (tight _ _ rfl), ?_⟩))
    exact Fields.forall_cons.2 ⟨tight _ _ rfl, by simp⟩
  have hl : later.Neat := by
    refine Or.inr (.tree (by simp) (Fields.forall_cons.2 ⟨one _ _ (tight _ _ rfl), ?_⟩))
    exact Fields.forall_cons.2 ⟨one _ _ (tight _ _ rfl), by simp⟩
  have h : stored.merge .absent new later = .ok m := rfl
  obtain ⟨hm, each⟩ := merge_neat hs hl h
  exact ⟨hs, hl, h, hm, fun p => (each p).1⟩

end Delta

end TreeDelta
