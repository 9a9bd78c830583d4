import TreeDelta.Proofs.Delta.Chain
import TreeDelta.Proofs.Delta.Refused
import TreeDelta.Proofs.Update.Shuffle
/-!
# When a merge fails

Two deltas conflict where both hold a change at one path and the later change cannot follow the
earlier. `Delta.merge_fails_iff` says that this is all a merge can fail for, so neither the values
before and after nor the order of keys has a say in it. A change that swallows a tree cuts the
search off: below it the other delta holds nothing. For two trees the loop is taken key by key
(`mergeEntries_error`), since no entry that it writes is met again.
-/

namespace TreeDelta

/-- The pairs of kinds in which one change can follow another at one place. -/
def ChangeKind.sequels : List (ChangeKind × ChangeKind) :=
  [(.add, .change), (.add, .remove), (.change, .change), (.change, .remove), (.remove, .add)]

theorem ChangeKind.after_eq_none {k l : ChangeKind} : k.after l = none ↔ (k, l) ∉ sequels := by
  cases k <;> cases l <;> decide

namespace Change

variable {x y : Change}

/-- The change can follow an earlier one, going by their labels. -/
def Follows (y x : Change) : Prop :=
  ∃ k l, (k, l) ∈ ChangeKind.sequels ∧ x.label = .str k.name ∧ y.label = .str l.name

theorem kind?_of_label {c : Change} {kind : ChangeKind} (h : c.label = .str kind.name) :
    c.kind? = some kind := by
  rw [kind?, h, ChangeKind.ofValue?_name]

/-- Of two changes of known kinds the second follows the first exactly if their kinds allow it. -/
theorem follows_iff {k l : ChangeKind} (hx : x.kind? = some k) (hy : y.kind? = some l) :
    y.Follows x ↔ (k, l) ∈ ChangeKind.sequels := by
  constructor
  · rintro ⟨k', l', h, hk, hl⟩
    rw [kind?_of_label hk] at hx
    rw [kind?_of_label hl] at hy
    cases hx
    cases hy
    exact h
  · exact fun h => ⟨k, l, h, label_of_kind hx, label_of_kind hy⟩

theorem follows_of_merge {d : Delta} (h : x.merge y = .ok d) : y.Follows x := by
  unfold merge at h
  split at h
  · rename_i k l hx hy
    rw [follows_iff hx hy]
    by_contra hn
    rw [ChangeKind.after_eq_none.2 hn] at h
    cases h
  · split at h <;> cases h

/-- Of two changes with texts for labels the merge fails only for their order. -/
theorem merge_error {fault : Fault} (hx : ∃ s, x.label = .str s) (hy : ∃ s, y.label = .str s)
    (h : x.merge y = .error fault) : (∃ a b, fault = .mergeOrder a b) ∧ ¬ y.Follows x := by
  obtain ⟨s, hs⟩ := hx
  obtain ⟨t, ht⟩ := hy
  unfold merge at h
  split at h
  · rename_i k l hk hl
    rw [follows_iff hk hl]
    split at h
    · cases h
    · cases h
    · cases h
    · rename_i hafter
      cases h
      exact ⟨⟨_, _, rfl⟩, ChangeKind.after_eq_none.1 hafter⟩
  · rename_i hunknown
    simp only [hs, ht, Value.toKey?, Option.isSome_some, Bool.and_self, if_true] at h
    cases h
    refine ⟨⟨_, _, rfl⟩, ?_⟩
    rintro ⟨k, l, -, hk, hl⟩
    exact hunknown k l (kind?_of_label hk) (kind?_of_label hl)

end Change

namespace Delta

variable {stored later d e : Delta} {old new : Value}

/-- All labels in the delta are texts, and nothing stands in it but changes and trees. -/
structure Labelled (d : Delta) : Prop where
  text : ∀ p c, d.at_ p = .node c → ∃ s, c.label = .str s
  pure : ∀ p v items, d.at_ p ≠ .other v items

/-- At some path both deltas hold a change, and the later one cannot follow the earlier. -/
def Conflicts (stored later : Delta) : Prop :=
  ∃ p x y, stored.at_ p = .node x ∧ later.at_ p = .node y ∧ ¬ y.Follows x

theorem Labelled.child (h : d.Labelled) (k : Key) : (d.child k).Labelled :=
  ⟨fun p => h.text (k :: p), fun p => h.pure (k :: p)⟩

theorem Conflicts.of_child {k : Key} (h : (d.child k).Conflicts (e.child k)) : d.Conflicts e := by
  obtain ⟨p, x, y, hx, hy, hn⟩ := h
  exact ⟨k :: p, x, y, hx, hy, hn⟩

/-- Below a change, or nothing, there is nothing to conflict with. -/
theorem Conflicts.cases (h : d.Conflicts e) :
    (∃ x y, d = .node x ∧ e = .node y ∧ ¬ y.Follows x) ∨
      ∃ k, (d.child k).Conflicts (e.child k) := by
  obtain ⟨_ | ⟨k, p⟩, x, y, hx, hy, hn⟩ := h
  · exact Or.inl ⟨x, y, hx, hy, hn⟩
  · exact Or.inr ⟨k, p, x, y, hx, hy, hn⟩

theorem not_conflicts_nothing (d : Delta) : ¬ d.Conflicts .nothing := by
  rintro ⟨p, x, y, -, hy, -⟩
  rw [at_nothing] at hy
  cases hy

theorem nothing_not_conflicts (d : Delta) : ¬ nothing.Conflicts d := by
  rintro ⟨p, x, y, hx, -, -⟩
  rw [at_nothing] at hx
  cases hx

/-! ## Failure needs a conflict -/

/-- A loop over a later tree that fails has come to a key whose merge fails. -/
theorem mergeEntries_error {earlier rest : List (Key × Delta)}
    {fault : MergeFault (List (Key × Delta))} (distinct : Fields.Distinct rest)
    (h : mergeEntries earlier old new rest = .error fault) :
    ∃ k reached, ((Fields.get? k earlier).getD .nothing).merge (old.child k) (new.child k)
      ((Fields.get? k rest).getD .nothing) = .error ⟨fault.fault, reached⟩ := by
  induction rest generalizing earlier with
  | nil => cases h
  | cons entry rest ih =>
    obtain ⟨l, d⟩ := entry
    rw [mergeEntries] at h
    cases hm : ((Fields.get? l earlier).getD .nothing).merge (old.child l) (new.child l) d with
    | error e =>
      rw [hm] at h
      cases h
      refine ⟨l, e.reached, ?_⟩
      rw [Fields.get?_cons, if_pos (Key.same_self l), Option.getD_some, hm]
    | ok m =>
      rw [hm] at h
      obtain ⟨k, reached, hk⟩ := ih (Fields.distinct_cons.1 distinct).2 h
      rw [merge_writeEntry distinct hm] at hk
      exact ⟨k, reached, hk⟩

theorem merge_error :
    ∀ {stored : Delta} {old new : Value} {fault : MergeFault Delta}, stored.Labelled →
      later.Labelled → later.Keyed → stored.merge old new later = .error fault →
        (∃ a b, fault.fault = .mergeOrder a b) ∧ stored.Conflicts later := by
  induction later using Delta.induction with
  | nothing =>
    intro stored old new fault _ _ _ h
    rw [merge_nothing] at h
    cases h
  | node y =>
    intro stored old new fault hs hl _ h
    cases stored with
    | nothing => rw [nothing_merge] at h; cases h
    | node x =>
      rw [merge] at h
      cases hm : x.merge y with
      | ok d => rw [hm] at h; cases h
      | error f =>
        rw [hm] at h
        cases h
        obtain ⟨hf, hn⟩ := Change.merge_error (hs.text [] x rfl) (hl.text [] y rfl) hm
        exact ⟨hf, [], x, y, rfl, rfl, hn⟩
    | tree earlier => rw [tree_merge_node] at h; cases h
    | other v items => exact absurd rfl (hs.pure [] v items)
  | tree later ih =>
    intro stored old new fault hs hl hk h
    cases stored with
    | nothing => rw [nothing_merge] at h; cases h
    | node x => rw [node_merge_tree] at h; cases h
    | tree earlier =>
      rw [tree_merge_tree] at h
      cases hm : mergeEntries earlier old new later with
      | ok entries => rw [hm] at h; cases h
      | error e =>
        rw [hm] at h
        cases h
        obtain ⟨k, reached, hkey⟩ := mergeEntries_error (hk [] _ rfl) hm
        cases hd : Fields.get? k later with
        | none => rw [hd, Option.getD_none, merge_nothing] at hkey; cases hkey
        | some d =>
          obtain ⟨l, hmem, -⟩ := Fields.exists_mem_of_get? hd
          have hchild : (tree later).child k = d := by rw [child_tree, hd, Option.getD_some]
          rw [hd, Option.getD_some] at hkey
          obtain ⟨hf, hc⟩ := ih l d hmem (hs.child k) (hchild ▸ hl.child k) (hchild ▸ hk.child k) hkey
          exact ⟨hf, .of_child (k := k) (by rw [hchild]; exact hc)⟩
    | other v items => exact absurd rfl (hs.pure [] v items)
  | other v items =>
    intro stored old new fault _ hl _ _
    exact absurd rfl (hl.pure [] v items)

/-! ## A conflict is met -/

theorem not_conflicts_of_merge :
    ∀ {stored : Delta} {old new : Value} {m : Delta}, later.Keyed →
      stored.merge old new later = .ok m → ¬ stored.Conflicts later := by
  induction later using Delta.induction with
  | nothing =>
    intro stored _ _ _ _ _
    exact not_conflicts_nothing stored
  | node y =>
    intro stored old new m _ h hc
    obtain ⟨x, y', rfl, e, hn⟩ | ⟨k, hc⟩ := hc.cases
    · cases e
      rw [merge] at h
      cases hm : x.merge y with
      | ok d => exact hn (Change.follows_of_merge hm)
      | error f => rw [hm] at h; cases h
    · exact not_conflicts_nothing _ hc
  | tree later ih =>
    intro stored old new m hk h hc
    obtain ⟨x, y, -, e, -⟩ | ⟨k, hc⟩ := hc.cases
    · cases e
    cases stored with
    | nothing => exact nothing_not_conflicts _ hc
    | node x => exact nothing_not_conflicts _ hc
    | other v items => exact nothing_not_conflicts _ hc
    | tree earlier =>
      rw [tree_merge_tree] at h
      cases hm : mergeEntries earlier old new later with
      | error e => rw [hm] at h; cases h
      | ok entries =>
        have hkey := merge_of_mergeEntries (hk [] _ rfl) hm k
        cases hd : Fields.get? k later with
        | none =>
          rw [child_tree _ k, child_tree _ k, hd] at hc
          exact not_conflicts_nothing _ hc
        | some d =>
          obtain ⟨l, hmem, -⟩ := Fields.exists_mem_of_get? hd
          have hchild : (tree later).child k = d := by rw [child_tree, hd, Option.getD_some]
          rw [hd, Option.getD_some] at hkey
          rw [hchild] at hc
          exact ih l d hmem (hchild ▸ hk.child k) hkey hc
  | other v items =>
    intro stored old new m _ _ hc
    obtain ⟨x, y, -, e, -⟩ | ⟨k, hc⟩ := hc.cases
    · cases e
    · exact not_conflicts_nothing _ hc

/-! ## Order of keys -/

theorem Rearranged.child (h : Rearranged d e) (k : Key) : Rearranged (d.child k) (e.child k) := by
  cases h with
  | refl => exact .refl _
  | tree keys below => exact below k

theorem Rearranged.at_ (h : Rearranged d e) (p : List Key) : Rearranged (d.at_ p) (e.at_ p) := by
  induction p generalizing d e with
  | nil => exact h
  | cons k p ih => exact ih (h.child k)

theorem Rearranged.symm (h : Rearranged d e) : Rearranged e d := by
  induction h with
  | refl d => exact .refl d
  | tree keys _ ih => exact .tree (fun k => (keys k).symm) ih

/-- What is no tree stands where it stood. -/
theorem Rearranged.at_leaf (h : Rearranged d e) {p : List Key} {leaf : Delta} (hd : d.at_ p = leaf)
    (hleaf : ∀ entries, leaf ≠ .tree entries) : e.at_ p = leaf := by
  have hp := h.at_ p
  rw [hd] at hp
  generalize e.at_ p = found at hp
  cases hp with
  | refl => rfl
  | tree => exact absurd rfl (hleaf _)

theorem Rearranged.at_node (h : Rearranged d e) {p : List Key} {c : Change}
    (hd : d.at_ p = .node c) : e.at_ p = .node c := h.at_leaf hd (by simp)

theorem Rearranged.labelled (h : Rearranged d e) (hd : d.Labelled) : e.Labelled where
  text p c hc := hd.text p c (h.symm.at_node hc)
  pure p v items ho := hd.pure p v items (h.symm.at_leaf ho (by simp))

theorem Conflicts.rearranged {stored' later' : Delta} (h : stored.Conflicts later)
    (hs : stored.Rearranged stored') (hl : later.Rearranged later') : stored'.Conflicts later' := by
  obtain ⟨p, x, y, hx, hy, hn⟩ := h
  exact ⟨p, x, y, hs.at_node hx, hl.at_node hy, hn⟩

/-! ## Both together -/

/-- A merge of deltas whose labels are texts fails exactly if they conflict, and then for the order of
changes; otherwise it returns a delta. Whether it fails depends neither on the values before and after
nor on the order of keys. -/
theorem merge_fails_iff (hs : stored.Labelled) (hl : later.Labelled) (distinct : later.Keyed) :
    ((∃ a b reached, stored.merge old new later = .error ⟨.mergeOrder a b, reached⟩) ↔
        stored.Conflicts later) ∧
      (¬ stored.Conflicts later → ∃ m, stored.merge old new later = .ok m) ∧
      ∀ {stored' later' : Delta} {old' new' : Value}, stored.Rearranged stored' →
        later.Rearranged later' → later'.Keyed →
          ((∃ m, stored.merge old new later = .ok m) ↔ ∃ m, stored'.merge old' new' later' = .ok m) := by
  have returns : ∀ {stored later : Delta} {old new : Value}, stored.Labelled → later.Labelled →
      later.Keyed → ((∃ m, stored.merge old new later = .ok m) ↔ ¬ stored.Conflicts later) := by
    intro stored later old new hs hl distinct
    constructor
    · rintro ⟨m, hm⟩
      exact not_conflicts_of_merge distinct hm
    · intro hn
      cases hm : stored.merge old new later with
      | ok m => exact ⟨m, rfl⟩
      | error fault => exact absurd (merge_error hs hl distinct hm).2 hn
  refine ⟨⟨?_, fun hc => ?_⟩, (returns hs hl distinct).2, ?_⟩
  · rintro ⟨a, b, reached, hm⟩
    exact (merge_error hs hl distinct hm).2
  · cases hm : stored.merge old new later with
    | ok m => exact absurd hc (not_conflicts_of_merge distinct hm)
    | error fault =>
      obtain ⟨⟨a, b, hf⟩, -⟩ := merge_error hs hl distinct hm
      exact ⟨a, b, fault.reached, by rw [← hf]⟩
  · intro stored' later' old' new' rs rl distinct'
    rw [returns hs hl distinct, returns (rs.labelled hs) (rl.labelled hl) distinct']
    exact not_congr ⟨fun h => h.rearranged rs rl, fun h => h.rearranged rs.symm rl.symm⟩

theorem labelled_of (kind : ChangeKind) (old new : Value) : (node (.of kind old new)).Labelled := by
  constructor
  · rintro (_ | ⟨k, p⟩) c h
    · cases h; exact ⟨kind.name, rfl⟩
    · simp at h
  · rintro (_ | ⟨k, p⟩) v items h
    · cases h
    · simp at h

/-- A change, or other data, in a tree stands in one of its entries. -/
theorem exists_entry_of_at {entries : List (Key × Delta)} {p : List Key} {leaf : Delta}
    (h : (tree entries).at_ p = leaf) (htree : ∀ es, leaf ≠ .tree es) (hnothing : leaf ≠ .nothing) :
    ∃ k d q, (k, d) ∈ entries ∧ d.at_ q = leaf := by
  cases p with
  | nil => exact absurd h.symm (htree entries)
  | cons k q =>
    rw [at_cons, child_tree] at h
    cases hk : Fields.get? k entries with
    | none =>
      rw [hk, Option.getD_none, at_nothing] at h
      exact absurd h.symm hnothing
    | some d =>
      rw [hk] at h
      obtain ⟨l, hm, -⟩ := Fields.exists_mem_of_get? hk
      exact ⟨l, d, q, hm, h⟩

theorem labelled_tree {entries : List (Key × Delta)} (h : ∀ k d, (k, d) ∈ entries → d.Labelled) :
    (tree entries).Labelled := by
  constructor
  · intro p c hc
    obtain ⟨k, d, q, hm, hq⟩ := exists_entry_of_at hc (by simp) (by simp)
    exact (h k d hm).text q c hq
  · intro p v items ho
    obtain ⟨k, d, q, hm, hq⟩ := exists_entry_of_at ho (by simp) (by simp)
    exact (h k d hm).pure q v items hq

/-- Beside a tree that a change swallows, two levels down, an addition meets an addition; the values
that are given fit neither delta. -/
theorem merge_fails_iff_beside_swallowed :
    let add : Delta := .node (.of .add .absent (.int 1))
    let stored : Delta := .tree [(.str "s", add), (.str "t", .tree [(.str "b", add)])]
    let later : Delta := .tree [(.str "s", .tree [(.str "b", add)]), (.str "t", .tree [(.str "b", add)])]
    stored.Labelled ∧ later.Labelled ∧ later.Keyed ∧
      ∃ a b reached, stored.merge .null (.int 7) later = .error ⟨.mergeOrder a b, reached⟩ := by
  intro add stored later
  have hadd : add.Labelled := labelled_of _ _ _
  have hb : (Delta.tree [(.str "b", add)]).Labelled :=
    labelled_tree (Fields.forall_cons.2 ⟨hadd, by simp⟩)
  have hs : stored.Labelled :=
    labelled_tree (Fields.forall_cons.2 ⟨hadd, Fields.forall_cons.2 ⟨hb, by simp⟩⟩)
  have hl : later.Labelled :=
    labelled_tree (Fields.forall_cons.2 ⟨hb, Fields.forall_cons.2 ⟨hb, by simp⟩⟩)
  have kb : (Delta.tree [(.str "b", add)]).Keyed :=
    throughout_tree (by decide) (Fields.forall_cons.2 ⟨throughout_node _ _, by simp⟩)
  have kl : later.Keyed :=
    throughout_tree (by decide) (Fields.forall_cons.2 ⟨kb, Fields.forall_cons.2 ⟨kb, by simp⟩⟩)
  have hc : stored.Conflicts later := by
    refine ⟨[.str "t", .str "b"], .of .add .absent (.int 1), .of .add .absent (.int 1), rfl, rfl, ?_⟩
    rw [Change.follows_iff (Change.kind?_of ..) (Change.kind?_of ..)]
    decide
  exact ⟨hs, hl, kl, (merge_fails_iff hs hl kl).1.2 hc⟩

end Delta

end TreeDelta
