import TreeDelta.Delta.Merge
import TreeDelta.Proofs.Delta.Leads
/-!
# Merging deltas composes them

If one delta leads from `u` to `v` and another from `v` to `w`, their merge never fails, and it
leads from `u` to `w` unless they clash (`Leads.merge_leads`). There are two ways to clash: a removal
whose place is filled again key by key, and a place filled and emptied again key by key that
ends as an empty mapping. The induction is on the earlier delta; at two trees it goes key by key,
by what `Delta.mergeEntries_at` says of the loop over the later one.
-/

namespace TreeDelta

namespace Delta

@[simp] theorem merge_nothing (d : Delta) (old new : Value) : d.merge old new .nothing = .ok d := by
  rw [merge]

@[simp] theorem nothing_merge (d : Delta) (old new : Value) : nothing.merge old new d = .ok d := by
  cases d <;> rw [merge]

theorem node_merge_tree (x : Change) (later : List (Key × Delta)) (old new : Value) :
    (node x).merge old new (.tree later) = .ok (purge (.node (x.extendTo new))) := by
  rw [merge]

theorem tree_merge_node (earlier : List (Key × Delta)) (y : Change) (old new : Value) :
    (tree earlier).merge old new (.node y) = .ok (purge (.node (y.extendFrom old))) := by
  simp [merge]

theorem tree_merge_tree (earlier later : List (Key × Delta)) (old new : Value) :
    (tree earlier).merge old new (.tree later) =
      match mergeEntries earlier old new later with
      | .ok entries => .ok (purge (.tree entries))
      | .error e => .error ⟨e.fault, .tree e.reached⟩ := by
  cases h : mergeEntries earlier old new later <;> simp only [merge, h]

/-! ## Two trees -/

theorem get?_writeEntry (stored : List (Key × Delta)) (k l : Key) (d : Delta) :
    (Fields.get? l (writeEntry stored k d)).getD .nothing =
      if l.same k then d else (Fields.get? l stored).getD .nothing := by
  cases d <;> simp only [writeEntry, Fields.get?_erase, Fields.get?_put] <;> split <;> rfl

theorem distinct_writeEntry {stored : List (Key × Delta)} (hd : Fields.Distinct stored) (k : Key)
    (d : Delta) : Fields.Distinct (writeEntry stored k d) := by
  cases d <;> first | exact Fields.distinct_erase hd | exact Fields.distinct_put hd

theorem get?_writeEntry_other {stored : List (Key × Delta)} {k l : Key} (h : k.same l = false)
    (d : Delta) : Fields.get? k (writeEntry stored l d) = Fields.get? k stored := by
  cases d <;> simp [writeEntry, Fields.get?_erase, Fields.get?_put, h]

theorem get?_writeEntry_ne_nothing {stored : List (Key × Delta)} {k l : Key} (h : k.same l = true)
    (d : Delta) : Fields.get? k (writeEntry stored l d) ≠ some .nothing := by
  cases d <;> simp [writeEntry, Fields.get?_erase, Fields.get?_put, h]

theorem told_writeEntry {stored : List (Key × Delta)} (ht : ∀ l, Fields.get? l stored ≠ some .nothing)
    (k : Key) (d : Delta) (l : Key) : Fields.get? l (writeEntry stored k d) ≠ some .nothing := by
  by_cases hl : l.same k = true
  · exact get?_writeEntry_ne_nothing hl d
  · rw [get?_writeEntry_other (Bool.eq_false_iff.2 hl)]
    exact ht l

/-- After the first entry of a later tree, what is left of the two trees merges under every key as the
whole did: the first key is settled, and the others are as they were. -/
theorem merge_writeEntry {u w : Value} {earlier rest : List (Key × Delta)} {l : Key} {d m : Delta}
    (hl : Fields.Distinct ((l, d) :: rest))
    (hm : ((Fields.get? l earlier).getD .nothing).merge (u.child l) (w.child l) d = .ok m) (k : Key) :
    ((Fields.get? k (writeEntry earlier l m)).getD .nothing).merge (u.child k) (w.child k)
        ((Fields.get? k rest).getD .nothing) =
      ((Fields.get? k earlier).getD .nothing).merge (u.child k) (w.child k)
        ((Fields.get? k ((l, d) :: rest)).getD .nothing) := by
  rw [get?_writeEntry, Fields.get?_cons]
  by_cases hk : k.same l = true
  · rw [if_pos hk, if_pos hk, Fields.get?_rest_of_same hl hk, Option.getD_none, merge_nothing, Option.getD_some,
      Fields.get?_congr hk, Value.child_congr hk, Value.child_congr hk, hm]
  · rw [if_neg hk, if_neg hk]

/-- What the loop over a later tree does, key by key: each key comes to the merge of what the two
trees tell of it. -/
theorem mergeEntries_at {u w : Value} {earlier later : List (Key × Delta)}
    (hl : Fields.Distinct later) (he : Fields.Distinct earlier)
    (ht : ∀ k, Fields.get? k earlier ≠ some .nothing)
    (each : ∀ k, ∃ m, ((Fields.get? k earlier).getD .nothing).merge (u.child k) (w.child k)
      ((Fields.get? k later).getD .nothing) = .ok m) :
    ∃ entries, mergeEntries earlier u w later = .ok entries ∧ Fields.Distinct entries ∧
      (∀ k, Fields.get? k entries ≠ some .nothing) ∧
      ∀ k, ((Fields.get? k earlier).getD .nothing).merge (u.child k) (w.child k)
        ((Fields.get? k later).getD .nothing) = .ok ((Fields.get? k entries).getD .nothing) := by
  induction later generalizing earlier with
  | nil => exact ⟨earlier, by rw [mergeEntries], he, ht, fun k => by simp⟩
  | cons entry rest ih =>
    obtain ⟨l, d⟩ := entry
    obtain ⟨m, hm⟩ := each l
    rw [Fields.get?_cons, if_pos (Key.same_self l), Option.getD_some] at hm
    have step := merge_writeEntry hl hm
    obtain ⟨entries, hm', hd', ht', hat⟩ := ih (Fields.distinct_cons.1 hl).2
      (distinct_writeEntry he l m) (told_writeEntry ht l m) fun k => by rw [step k]; exact each k
    refine ⟨entries, ?_, hd', ht', fun k => by rw [← step k]; exact hat k⟩
    rw [mergeEntries, hm]
    exact hm'

/-- If the loop over a later tree comes to its end, each key has come to the merge of what the two
trees tell of it. -/
theorem merge_of_mergeEntries {u w : Value} {earlier later entries : List (Key × Delta)}
    (hl : Fields.Distinct later) (h : mergeEntries earlier u w later = .ok entries) (k : Key) :
    ((Fields.get? k earlier).getD .nothing).merge (u.child k) (w.child k)
      ((Fields.get? k later).getD .nothing) = .ok ((Fields.get? k entries).getD .nothing) := by
  induction later generalizing earlier with
  | nil => cases h; exact merge_nothing _ _ _
  | cons entry rest ih =>
    obtain ⟨l, d⟩ := entry
    rw [mergeEntries] at h
    cases hm : ((Fields.get? l earlier).getD .nothing).merge (u.child l) (w.child l) d with
    | error e => rw [hm] at h; cases h
    | ok m =>
      rw [hm] at h
      rw [← merge_writeEntry hl hm k]
      exact ih (Fields.distinct_cons.1 hl).2 h

/-! ## Single changes -/

@[simp] theorem isVoid_add (old new : Value) : (Change.of .add old new).isVoid = false := by
  simp [Change.isVoid]

@[simp] theorem isVoid_change (old new : Value) :
    (Change.of .change old new).isVoid = old.same new := by
  simp [Change.isVoid]

@[simp] theorem isVoid_remove (old new : Value) :
    (Change.of .remove old new).isVoid = decide (old = .absent) := by
  rw [Change.isVoid, Change.kind?_of, Change.old_of]

theorem purge_add (old new : Value) :
    purge (.node (.of .add old new)) = .node (.of .add old new) := by
  rw [purge, isVoid_add]; rfl

theorem purge_remove {old : Value} (h : old ≠ .absent) (new : Value) :
    purge (.node (.of .remove old new)) = .node (.of .remove old new) := by
  rw [purge, isVoid_remove, decide_eq_false h]; rfl

theorem merge_of (k l : ChangeKind) (a b c d : Value) :
    (Change.of k a b).merge (.of l c d) =
      match k.after l with
      | some .undone => .ok .nothing
      | some (.one .remove) => .ok (purge (.node (.of .remove a .absent)))
      | some (.one kind) => .ok (purge (.node (.of kind a d)))
      | none => .error (.mergeOrder (.str k.name) (.str l.name)) := by
  simp only [Change.merge, Change.kind?_of, Change.old_of, Change.new_of]
  rfl

variable {r s : Reading} {u v w : Value}

theorem Leads.purge_change (hj : r.Joins s) {old new : Value} (there : u ≠ .absent)
    (here : w ≠ .absent) (before : r.before u old) (after : r.after new w) :
    Leads r u w (purge (.node (.of .change old new))) := by
  rw [purge, isVoid_change]
  split
  · rename_i hs; exact .still (hj.undone before hs after)
  · exact .change there here before after

/-- Two changes in a row make one change, or none. -/
theorem Leads.merge_changes (hj : r.Joins s) {x y : Change} (h : Leads r u v (.node x))
    (h' : Leads s v w (.node y)) : ∃ m, x.merge y = .ok m ∧ Leads r u w m := by
  cases h with
  | add here after =>
    cases h' with
    | add => exact absurd rfl here
    | @change _ _ _ new _ here' _ after' =>
      refine ⟨_, merge_of .add .change _ _ _ _, ?_⟩
      rw [purge_add]
      exact .add here' (hj.after_later after')
    | remove => exact ⟨_, merge_of .add .remove _ _ _ _, .still (hj.before.refl _)⟩
  | change there here before after =>
    cases h' with
    | add => exact absurd rfl here
    | change _ here' _ after' =>
      refine ⟨_, merge_of .change .change _ _ _ _, ?_⟩
      exact .purge_change hj there here' before (hj.after_later after')
    | remove allowed _ _ =>
      refine ⟨_, merge_of .change .remove _ _ _ _, ?_⟩
      rw [purge_remove (mt (hj.before.absent before).2 there)]
      exact .remove (hj.removals allowed) there before
  | remove allowed there before =>
    cases h' with
    | add here after =>
      refine ⟨_, merge_of .remove .add _ _ _ _, ?_⟩
      exact .purge_change hj there here before (hj.after_later after)
    | change there' => exact absurd rfl there'
    | remove _ there' => exact absurd rfl there'

/-! ## Changes and trees -/

/-- Two deltas in a row, the first from `u`, the second to `w`, whose merge does not lead there. -/
inductive Clash : Value → Value → Delta → Delta → Prop where
  /-- What was removed is filled again key by key: the merge is a removal with a new value. -/
  | revived {u w old : Value} {later : List (Key × Delta)} :
      Clash u w (.node (.of .remove old .absent)) (.tree later)
  /-- A mapping is made key by key where there was none, and emptied again: the merge is nothing,
  but the empty mapping stays. -/
  | emptied {u w : Value} {earlier later : List (Key × Delta)} (none : u.fields? = none)
      (empty : w.fields? = some []) : Clash u w (.tree earlier) (.tree later)
  | deeper {u w : Value} {earlier later : List (Key × Delta)} (k : Key)
      (clash : Clash (u.child k) (w.child k) ((Fields.get? k earlier).getD .nothing)
        ((Fields.get? k later).getD .nothing)) : Clash u w (.tree earlier) (.tree later)

theorem Leads.present_of_tree {later : List (Key × Delta)} (h : Leads s v w (.tree later)) :
    w ≠ .absent := by
  cases h with
  | tree _ _ _ _ mapping => rintro rfl; cases mapping

/-- Only a removal clashes with the tree that follows it. -/
theorem not_clash_of_kind {x : Change} {later : List (Key × Delta)} (h : x.kind? ≠ some .remove) :
    ¬ Clash u w (.node x) (.tree later) := by
  intro hc
  cases hc
  exact h (Change.kind?_of ..)

/-- A removal leads to nothing, and only where there may be removals. -/
theorem Leads.of_remove {x : Change} (h : Leads r u w (.node x)) (hx : x.kind? = some .remove) :
    r.removals ∧ w = .absent := by
  cases h with
  | add | change => rw [Change.kind?_of] at hx; cases hx
  | remove allowed => exact ⟨allowed, rfl⟩

/-- A change swallows the tree that follows it; a removal clashes with it. -/
theorem Leads.merge_change_tree (hj : r.Joins s) {x : Change} {later : List (Key × Delta)}
    (h : Leads r u v (.node x)) (h' : Leads s v w (.tree later)) :
    Leads r u w (purge (.node (x.extendTo w))) ↔ ¬ Clash u w (.node x) (.tree later) := by
  have hw := h'.present_of_tree
  cases h with
  | @add v new here after =>
    have e : (Change.of .add .absent new).extendTo w = .of .add .absent w := rfl
    rw [e, purge_add]
    exact iff_of_true (.add hw (hj.after_refl w)) (not_clash_of_kind (by simp))
  | @change _ _ old new there here before after =>
    have e : (Change.of .change old new).extendTo w = .of .change old w := rfl
    rw [e]
    exact iff_of_true (.purge_change hj there hw before (hj.after_refl w)) (not_clash_of_kind (by simp))
  | @remove _ old allowed there before =>
    have e : (Change.of .remove old .absent).extendTo w = .of .remove old w := rfl
    rw [e, purge_remove (mt (hj.before.absent before).2 there)]
    exact iff_of_false (fun hm => hw (hm.of_remove (Change.kind?_of ..)).2) (not_not_intro .revived)

/-- A change swallows the tree that it follows. -/
theorem Leads.merge_tree_change (hj : r.Joins s) {y : Change} {earlier : List (Key × Delta)}
    (h : Leads r u v (.tree earlier)) (h' : Leads s v w (.node y)) :
    Leads r u w (purge (.node (y.extendFrom u))) := by
  have hv := h.present_of_tree
  cases h' with
  | add => exact absurd rfl hv
  | @change _ _ old new _ here _ after =>
    by_cases hu : u = .absent
    · have e : (Change.of .change old new).extendFrom u = .of .add .absent new := by
        simp [Change.extendFrom, Change.of, Change.kind?, hu, ChangeKind.ofValue?_name]
      rw [e, purge_add, hu]
      exact .add here (hj.after_later after)
    · have e : (Change.of .change old new).extendFrom u = .of .change u new := by
        simp [Change.extendFrom, Change.of, hu]
      rw [e]
      exact .purge_change hj hu here (hj.before.refl u) (hj.after_later after)
  | @remove _ old allowed _ _ =>
    have e : (Change.of .remove old .absent).extendFrom u = .of .remove u .absent := by
      have : (Change.of .remove old .absent).kind? ≠ some .change := by simp
      simp only [Change.extendFrom, this, false_and, if_false]
      rfl
    rw [e]
    by_cases hu : u = .absent
    · rw [hu, purge, isVoid_remove]
      exact .still (hj.before.refl _)
    · rw [purge_remove hu]
      exact .remove (hj.removals allowed) hu (hj.before.refl u)

/-! ## Two trees in a row -/

/-- What a tree came to and went away from key by key is an empty mapping or none. -/
theorem still_of_children (hj : r.Joins s) (hu : u.Sound) (hw : w.Sound)
    (mapping : w.fields?.isSome = true) (empty : ¬ (u.fields? = none ∧ w.fields? = some []))
    (h : ∀ k, r.before (u.child k) (w.child k)) : r.before u w := by
  cases hf : u.fields? with
  | some fields => exact hj.ext hu hw (by rw [hf]; rfl) mapping h
  | none =>
    obtain ⟨gs, hg⟩ := Option.isSome_iff_exists.1 mapping
    refine absurd ⟨hf, ?_⟩ empty
    rw [hg, Option.some.injEq]
    refine Fields.eq_nil_of_get? fun k => ?_
    cases hk : Fields.get? k gs with
    | none => rfl
    | some a =>
      have hc : w.child k = a := by simp [Value.child, hg, hk]
      have ha := (hj.before.absent (h k)).1 (Value.child_eq_absent hf k)
      rw [hc] at ha
      exact absurd (ha ▸ hk) (hw.present hg k)

theorem Leads.merge_trees (hj : r.Joins s) (hu : u.Sound) (hw : w.Sound)
    {earlier later : List (Key × Delta)} (h : Leads r u v (.tree earlier))
    (h' : Leads s v w (.tree later))
    (each : ∀ k, ∃ m, ((Fields.get? k earlier).getD .nothing).merge (u.child k) (w.child k)
      ((Fields.get? k later).getD .nothing) = .ok m ∧
        (Leads r (u.child k) (w.child k) m ↔ ¬ Clash (u.child k) (w.child k)
          ((Fields.get? k earlier).getD .nothing) ((Fields.get? k later).getD .nothing))) :
    ∃ m, (Delta.tree earlier).merge u w (.tree later) = .ok m ∧
      (Leads r u w m ↔ ¬ Clash u w (.tree earlier) (.tree later)) := by
  cases h with | tree _ distinct told open_ _ _ =>
  cases h' with | tree _ distinct' _ _ mapping _ =>
  obtain ⟨entries, hm, hd, ht, hat⟩ := mergeEntries_at distinct' distinct told fun k =>
    (each k).imp fun m hm => hm.1
  have hleads : ∀ k, Leads r (u.child k) (w.child k) ((Fields.get? k entries).getD .nothing) ↔
      ¬ Clash (u.child k) (w.child k) ((Fields.get? k earlier).getD .nothing)
        ((Fields.get? k later).getD .nothing) := by
    intro k
    obtain ⟨m, hm, hk⟩ := each k
    rw [hat k] at hm; cases hm; exact hk
  refine ⟨purge (.tree entries), by rw [tree_merge_tree, hm], ?_⟩
  constructor
  · intro h hc
    cases hc with
    | deeper k clash =>
      refine (hleads k).1 ?_ clash
      cases entries with
      | nil =>
        cases h with
        | still equal => exact .still (hj.before.child hu hw equal k)
      | cons e es =>
        cases h with
        | tree _ _ _ _ _ below => exact below k
    | emptied none empty =>
      cases entries with
      | nil =>
        cases h with
        | still equal =>
          have := hj.before.mapping equal
          rw [none, empty] at this; cases this
      | cons e es =>
        cases h with
        | tree _ _ _ _ _ below =>
          -- below every key there is nothing on either side
          have hn := below e.1
          rw [Value.child_eq_absent none, show w.child e.1 = .absent by simp [Value.child, empty]] at hn
          have he : Fields.get? e.1 (e :: es) = some e.2 := by rw [Fields.get?_cons]; simp
          have := hn.of_absent
          rw [he] at this
          exact ht e.1 (he.trans (congrArg some this))
  · intro hc
    have below := fun k => (hleads k).2 fun clash => hc (.deeper k clash)
    cases entries with
    | nil =>
      refine .still (still_of_children hj hu hw mapping (fun h => hc (.emptied h.1 h.2)) fun k => ?_)
      exact leads_nothing.1 (below k)
    | cons e es => exact .tree (by simp) hd ht open_ mapping below

/-! ## Any two deltas -/

theorem Leads.merge_still (hj : r.Joins s) (hv : v.Sound) (hw : w.Sound) {d : Delta}
    (h : Leads r u v d) (h' : Leads s v w .nothing) :
    ∃ m, d.merge u w .nothing = .ok m ∧ (Leads r u w m ↔ ¬ Clash u w d .nothing) := by
  refine ⟨d, merge_nothing _ _ _, iff_of_true ?_ (by rintro ⟨⟩)⟩
  exact h.before_still hj hv hw (leads_nothing.1 h')

theorem Leads.merge_change (hj : r.Joins s) (hv : v.Sound) (hw : w.Sound) {x : Change} {e : Delta}
    (h : Leads r u v (.node x)) (h' : Leads s v w e) :
    ∃ m, (Delta.node x).merge u w e = .ok m ∧ (Leads r u w m ↔ ¬ Clash u w (.node x) e) := by
  cases e with
  | nothing => exact h.merge_still hj hv hw h'
  | node y =>
    obtain ⟨m, hm, hl⟩ := h.merge_changes hj h'
    exact ⟨m, by rw [merge, hm], iff_of_true hl (by rintro ⟨⟩)⟩
  | tree later => exact ⟨_, node_merge_tree _ _ _ _, h.merge_change_tree hj h'⟩
  | other _ _ => cases h'

/-- The merge of two deltas in a row never fails, and leads from the first value to the last
exactly if they do not clash. -/
theorem Leads.merge_leads (hj : r.Joins s) {d : Delta} (h : Leads r u v d) :
    ∀ {w : Value} {e : Delta}, u.Sound → v.Sound → w.Sound → Leads s v w e →
      ∃ m, d.merge u w e = .ok m ∧ (Leads r u w m ↔ ¬ Clash u w d e) := by
  induction h with
  | still equal =>
    intro w e hu hv hw h'
    exact ⟨e, nothing_merge _ _ _, iff_of_true (h'.after_still hj hu hv equal) (by rintro ⟨⟩)⟩
  | add here after =>
    intro w e _ hv hw h'
    exact Leads.merge_change hj hv hw (.add here after) h'
  | change there here before after =>
    intro w e _ hv hw h'
    exact Leads.merge_change hj hv hw (.change there here before after) h'
  | remove allowed there before =>
    intro w e _ hv hw h'
    exact Leads.merge_change hj hv hw (.remove allowed there before) h'
  | @tree u v earlier nonempty distinct told open_ mapping below ih =>
    intro w e hu hv hw h'
    have h : Leads r u v (.tree earlier) := .tree nonempty distinct told open_ mapping below
    cases e with
    | nothing => exact h.merge_still hj hv hw h'
    | node y =>
      exact ⟨_, tree_merge_node _ _ _ _, iff_of_true (h.merge_tree_change hj h') (by rintro ⟨⟩)⟩
    | tree later =>
      refine h.merge_trees hj hu hw h' fun k => ?_
      cases h' with
      | tree _ _ _ _ _ below' =>
        exact ih k (hu.child k) (hv.child k) (hw.child k) (below' k)
    | other _ _ => cases h'

end Delta

end TreeDelta
