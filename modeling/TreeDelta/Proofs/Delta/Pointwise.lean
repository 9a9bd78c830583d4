import TreeDelta.Proofs.Delta.Conflict
/-!
# Two trees merge key by key

The loop of `Delta.mergeEntries` writes into the tree that it reads from, but it comes to each key once,
and what it writes at one key is not read at another. So the merge of two trees holds under each key the
merge of what the trees hold there (`Delta.merge_pointwise`), and the order of keys on either side shows
in nothing but the order of the result. That last part is an induction over the later delta, where a
tree needs one more fact: which keys stay, since a key may hold nothing without being absent.
-/

namespace TreeDelta

namespace Delta

variable {earlier later entries : List (Key × Delta)} {old new : Value}

/-! ## What the loop leaves at a key -/

/-- A key that the later tree lacks keeps its entry. -/
theorem get?_of_mergeEntries (h : mergeEntries earlier old new later = .ok entries) {k : Key}
    (hk : Fields.get? k later = none) : Fields.get? k entries = Fields.get? k earlier := by
  induction later generalizing earlier with
  | nil => cases h; rfl
  | cons entry rest ih =>
    obtain ⟨l, d⟩ := entry
    rw [Fields.get?_cons] at hk
    split at hk
    · cases hk
    · rename_i hkl
      rw [mergeEntries] at h
      split at h
      · rw [ih h hk, get?_writeEntry_other (Bool.eq_false_iff.2 hkl)]
      · cases h

/-- A key of the later tree is left with something or taken out. -/
theorem told_of_mergeEntries (distinct : Fields.Distinct later)
    (h : mergeEntries earlier old new later = .ok entries) {k : Key}
    (hk : (Fields.get? k later).isSome = true) : Fields.get? k entries ≠ some .nothing := by
  induction later generalizing earlier with
  | nil => cases hk
  | cons entry rest ih =>
    obtain ⟨l, d⟩ := entry
    rw [mergeEntries] at h
    split at h
    · rw [Fields.get?_cons] at hk
      split at hk
      · rename_i hkl
        -- the rest of the later tree does not come to this key again
        rw [get?_of_mergeEntries h (Fields.get?_rest_of_same distinct hkl)]
        exact get?_writeEntry_ne_nothing hkl _
      · exact ih (Fields.distinct_cons.1 distinct).2 h hk
    · cases h

/-- The keys of the merged tree: those that merge to something, and of those that the later tree lacks the
ones that were there. -/
theorem isSome_of_mergeEntries (distinct : Fields.Distinct later)
    (h : mergeEntries earlier old new later = .ok entries) (k : Key) :
    (Fields.get? k entries).isSome = true ↔
      if (Fields.get? k later).isSome then (Fields.get? k entries).getD .nothing ≠ .nothing
      else (Fields.get? k earlier).isSome = true := by
  split
  · rename_i hk
    have told := told_of_mergeEntries distinct h hk
    cases hd : Fields.get? k entries with
    | none => simp
    | some d =>
      rw [hd] at told
      simpa using told
  · rename_i hk
    rw [get?_of_mergeEntries h (by simpa using hk)]

/-- The loop comes to its end if every key can be merged. -/
theorem exists_mergeEntries (distinct : Fields.Distinct later)
    (each : ∀ k, ∃ m, ((Fields.get? k earlier).getD .nothing).merge (old.child k) (new.child k)
      ((Fields.get? k later).getD .nothing) = .ok m) :
    ∃ entries, mergeEntries earlier old new later = .ok entries := by
  cases h : mergeEntries earlier old new later with
  | ok entries => exact ⟨entries, rfl⟩
  | error fault =>
    obtain ⟨k, reached, hk⟩ := mergeEntries_error distinct h
    obtain ⟨m, hm⟩ := each k
    rw [hk] at hm
    cases hm

theorem entries_purge_tree (entries : List (Key × Delta)) : (purge (.tree entries)).entries = entries := by
  cases entries <;> rfl

theorem child_purge_tree (entries : List (Key × Delta)) (k : Key) :
    (purge (.tree entries)).child k = (tree entries).child k := by
  cases entries <;> rfl

theorem exists_mergeEntries_of_merge {m : Delta}
    (h : (tree earlier).merge old new (.tree later) = .ok m) :
    ∃ entries, mergeEntries earlier old new later = .ok entries ∧ m = purge (.tree entries) := by
  rw [tree_merge_tree] at h
  split at h
  · rename_i entries hm
    cases h
    exact ⟨entries, hm, rfl⟩
  · cases h

/-! ## Order of keys -/

theorem rearranged_of_perm {ds es : List (Key × Delta)} (distinct : Fields.Distinct ds)
    (h : es.Perm ds) : (tree ds).Rearranged (tree es) := by
  have same := Fields.get?_perm distinct h
  exact .tree (fun k => by rw [same k]) fun k => by rw [same k]; exact .refl _

theorem Rearranged.of_tree {ds : List (Key × Delta)} {e : Delta} (h : (Delta.tree ds).Rearranged e) :
    ∃ es, e = .tree es ∧ (∀ k, (Fields.get? k ds).isSome = (Fields.get? k es).isSome) ∧
      ∀ k, ((Delta.tree ds).child k).Rearranged ((Delta.tree es).child k) := by
  cases h with
  | refl => exact ⟨ds, rfl, fun _ => rfl, fun _ => .refl _⟩
  | tree keys below => exact ⟨_, rfl, keys, below⟩

theorem isEmpty_of_isSome {ds es : List (Key × Delta)}
    (keys : ∀ k, (Fields.get? k ds).isSome = (Fields.get? k es).isSome) : ds.isEmpty = es.isEmpty := by
  have empty : ∀ {fs gs : List (Key × Delta)},
      (∀ k, (Fields.get? k fs).isSome = (Fields.get? k gs).isSome) → fs = [] → gs = [] := by
    rintro _ gs keys rfl
    exact Fields.eq_nil_of_get? fun k => by simpa using (keys k).symm
  rw [Bool.eq_iff_iff, List.isEmpty_iff, List.isEmpty_iff]
  exact ⟨empty keys, empty fun k => (keys k).symm⟩

/-- What is left of two trees that are the same but for the order of keys. -/
theorem rearranged_purge {ds es : List (Key × Delta)}
    (keys : ∀ k, (Fields.get? k ds).isSome = (Fields.get? k es).isSome)
    (below : ∀ k, Rearranged ((Fields.get? k ds).getD .nothing) ((Fields.get? k es).getD .nothing)) :
    (purge (.tree ds)).Rearranged (purge (.tree es)) := by
  have same := isEmpty_of_isSome keys
  cases ds <;> cases es
  · exact .refl _
  · cases same
  · cases same
  · exact .tree keys below

variable {earlier' later' : List (Key × Delta)}

/-- Two trees in place of two others merge to the same but for the order of keys, if what they hold does
under every key. -/
theorem rearranged_of_mergeEntries (distinct : Fields.Distinct later) (distinct' : Fields.Distinct later')
    (earlier_keys : ∀ k, (Fields.get? k earlier).isSome = (Fields.get? k earlier').isSome)
    (later_keys : ∀ k, (Fields.get? k later).isSome = (Fields.get? k later').isSome)
    (each : ∀ k m, ((tree earlier).child k).merge (old.child k) (new.child k) ((tree later).child k) =
      .ok m → ∃ m', ((tree earlier').child k).merge (old.child k) (new.child k)
        ((tree later').child k) = .ok m' ∧ m.Rearranged m')
    (h : mergeEntries earlier old new later = .ok entries) :
    ∃ entries', mergeEntries earlier' old new later' = .ok entries' ∧
      (purge (.tree entries)).Rearranged (purge (.tree entries')) := by
  have pointwise := merge_of_mergeEntries distinct h
  obtain ⟨entries', h'⟩ : ∃ entries', mergeEntries earlier' old new later' = .ok entries' :=
    exists_mergeEntries distinct' fun k => (each k _ (pointwise k)).imp fun _ hm => hm.1
  have below : ∀ k, Rearranged ((Fields.get? k entries).getD .nothing)
      ((Fields.get? k entries').getD .nothing) := by
    intro k
    obtain ⟨m', hm', hr⟩ := each k _ (pointwise k)
    cases (merge_of_mergeEntries distinct' h' k).symm.trans hm'
    exact hr
  refine ⟨entries', h', rearranged_purge (fun k => ?_) below⟩
  rw [Bool.eq_iff_iff, isSome_of_mergeEntries distinct h, isSome_of_mergeEntries distinct' h',
    earlier_keys k, later_keys k, ne_eq, (below k).nothing_iff]

/-- What a tree holds under a key is one of its entries, or nothing. -/
theorem child_tree_cases (entries : List (Key × Delta)) (k : Key) :
    (tree entries).child k = .nothing ∨ ∃ l, (l, (tree entries).child k) ∈ entries := by
  rw [child_tree]
  cases h : Fields.get? k entries with
  | none => exact Or.inl rfl
  | some d =>
    obtain ⟨l, hm, -⟩ := Fields.exists_mem_of_get? h
    exact Or.inr ⟨l, hm⟩

/-- Deltas that are the same but for the order of keys merge to such deltas. -/
theorem merge_rearranged {later : Delta} :
    ∀ {stored stored' later' m : Delta} {old new : Value}, stored.Rearranged stored' →
      later.Rearranged later' → later.Keyed → later'.Keyed → stored.merge old new later = .ok m →
        ∃ m', stored'.merge old new later' = .ok m' ∧ m.Rearranged m' := by
  induction later using Delta.induction with
  | nothing =>
    intro stored stored' later' m old new hs hl _ _ h
    cases hl
    rw [merge_nothing] at h
    cases h
    exact ⟨stored', merge_nothing _ _ _, hs⟩
  | node y =>
    intro stored stored' later' m old new hs hl _ _ h
    cases hl
    cases hs with
    | refl => exact ⟨m, h, .refl _⟩
    | tree => exact ⟨m, by rw [tree_merge_node] at h ⊢; exact h, .refl _⟩
  | tree later ih =>
    intro stored stored' later' m old new hs hl hk hk' h
    obtain ⟨later', rfl, later_keys, below⟩ := hl.of_tree
    cases stored with
    | nothing =>
      cases hs
      rw [nothing_merge] at h
      cases h
      exact ⟨_, nothing_merge _ _ _, hl⟩
    | node x =>
      cases hs
      exact ⟨m, by rw [node_merge_tree] at h ⊢; exact h, .refl _⟩
    | tree earlier =>
      obtain ⟨earlier', rfl, earlier_keys, stored_below⟩ := hs.of_tree
      obtain ⟨entries, hm, rfl⟩ := exists_mergeEntries_of_merge h
      have each : ∀ k m, ((tree earlier).child k).merge (old.child k) (new.child k)
          ((tree later).child k) = .ok m →
            ∃ m', ((tree earlier').child k).merge (old.child k) (new.child k)
              ((tree later').child k) = .ok m' ∧ m.Rearranged m' := by
        intro k m hm
        obtain hn | ⟨l, hmem⟩ := child_tree_cases later k
        · rw [hn, merge_nothing] at hm
          rw [(below k).nothing_iff.1 hn, merge_nothing]
          cases hm
          exact ⟨_, rfl, stored_below k⟩
        · exact ih l _ hmem (stored_below k) (below k) (hk.child k) (hk'.child k) hm
      obtain ⟨entries', hm', hr⟩ := rearranged_of_mergeEntries (hk [] _ rfl) (hk' [] _ rfl) earlier_keys
        later_keys each hm
      exact ⟨_, by rw [tree_merge_tree, hm'], hr⟩
    | other v items =>
      cases hs
      rw [merge] at h ⊢
      rw [← isEmpty_of_isSome later_keys]
      exact ⟨m, h, .refl _⟩
  | other v items =>
    intro stored stored' later' m old new hs hl _ _ h
    cases hl
    cases hs with
    | refl => exact ⟨m, h, .refl _⟩
    | tree => simp [merge] at h

/-! ## Key by key -/

/-- What is left of a tree: nothing, or a tree that has entries. -/
theorem purge_tree_cases (entries : List (Key × Delta)) :
    purge (.tree entries) = .nothing ∨ ∃ e es, purge (.tree entries) = .tree (e :: es) := by
  cases entries with
  | nil => exact Or.inl rfl
  | cons e es => exact Or.inr ⟨e, es, rfl⟩

/-- A merge of two trees that comes to its end is nothing or a tree, and holds under every key the merge
of what the two hold there, between the values below that key. So a key that the later tree lacks keeps
its entry, and with the keys of either tree in another order, at any depth, the merge is the same but for
the order of keys. -/
theorem merge_pointwise {m : Delta} (distinct : (tree later).Keyed)
    (h : (tree earlier).merge old new (.tree later) = .ok m) :
    (m = .nothing ∨ ∃ e es, m = .tree (e :: es)) ∧
      (∀ k, ((tree earlier).child k).merge (old.child k) (new.child k) ((tree later).child k) =
        .ok (m.child k)) ∧
      (∀ k, Fields.get? k later = none → Fields.get? k m.entries = Fields.get? k earlier) ∧
      ∀ stored' later', (tree earlier).Rearranged stored' → (tree later).Rearranged later' →
        later'.Keyed → ∃ m', stored'.merge old new later' = .ok m' ∧ m.Rearranged m' := by
  obtain ⟨entries, hm, rfl⟩ := exists_mergeEntries_of_merge h
  refine ⟨purge_tree_cases entries, fun k => ?_, fun k hk => ?_, fun stored' later' hs hl hk' =>
    merge_rearranged hs hl distinct hk' h⟩
  · rw [child_purge_tree, child_tree, child_tree, child_tree]
    exact merge_of_mergeEntries (distinct [] _ rfl) hm k
  · rw [entries_purge_tree]
    exact get?_of_mergeEntries hm hk

/-- One key is taken out on the way, one is emptied two levels down, one is the earlier tree's alone and
one the later's; then both trees come in another order. -/
theorem merge_pointwise_of_cancelled :
    let added (n : Int) : Delta := .node (.of .add .absent (.int n))
    let removed (n : Int) : Delta := .node (.of .remove (.int n) .absent)
    let earlier : List (Key × Delta) :=
      [(.str "a", added 1), (.str "b", .tree [(.str "x", added 2)]), (.str "c", removed 3)]
    let later : List (Key × Delta) :=
      [(.str "b", .tree [(.str "x", removed 2)]), (.str "d", added 4), (.str "a", removed 1)]
    let old : Value := .map ⟨0, []⟩ [(.str "c", .int 3), (.str "b", .map ⟨0, [.str "b"]⟩ [])]
    let new : Value := .map ⟨2, []⟩ [(.str "b", .map ⟨2, [.str "b"]⟩ []), (.str "d", .int 4)]
    (tree later).Keyed ∧
      (tree earlier).merge old new (.tree later) =
        .ok (.tree [(.str "c", removed 3), (.str "d", added 4)]) ∧
      ∃ m', (tree earlier.reverse).merge old new (.tree later.reverse) = .ok m' ∧
        (tree [(.str "c", removed 3), (.str "d", added 4)]).Rearranged m' := by
  intro added removed earlier later old new
  have hb : (tree [(.str "x", removed 2)]).Keyed :=
    throughout_tree (by decide) (Fields.forall_cons.2 ⟨throughout_node _ _, by simp⟩)
  have below : ∀ k d, (k, d) ∈ later → d.Keyed :=
    Fields.forall_cons.2 ⟨hb, Fields.forall_cons.2 ⟨throughout_node _ _,
      Fields.forall_cons.2 ⟨throughout_node _ _, by simp⟩⟩⟩
  have hk : (tree later).Keyed := throughout_tree (by decide) below
  have hk' : (tree later.reverse).Keyed :=
    throughout_tree (by decide) fun k d h => below k d (List.mem_reverse.1 h)
  have h : (tree earlier).merge old new (.tree later) =
      .ok (.tree [(.str "c", removed 3), (.str "d", added 4)]) := by rfl
  obtain ⟨-, -, -, rearranged⟩ := merge_pointwise hk h
  exact ⟨hk, h, rearranged _ _ (rearranged_of_perm (by decide) (List.reverse_perm _))
    (rearranged_of_perm (by decide) (List.reverse_perm _)) hk'⟩

end Delta

end TreeDelta
