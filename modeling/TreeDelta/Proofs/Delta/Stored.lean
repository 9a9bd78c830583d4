import TreeDelta.Proofs.Delta.Net
import TreeDelta.Proofs.Update.Json
/-!
# Deltas and values that have been stored

What is read back is a copy: its containers are other objects, so that nothing counts as the same
that was. By `Reading.kept` a delta without removals tells values that are equal to the real ones.
This passes to copies of the values at its ends (`Leads.from_copy`, `Leads.to_copy`) and of the delta
(`Leads.copied`), and from two deltas in a row to their merge (`Leads.merge_kept`).
-/

namespace TreeDelta

/-- Values at the ends of changes are equal, and nothing is removed. -/
def Reading.kept : Reading := { Reading.equality with removals := False }

theorem Reading.kept_joins : Reading.kept.Joins .kept :=
  { Reading.equality_joins with removals := id }

/-- Only a name is the same key as a name. -/
theorem Key.eq_str {k : Key} {s : Text} (h : k.canon = .str s) : k = .str s := by
  cases k with
  | str t => exact h
  | float x =>
    rw [canon] at h
    split at h <;> cases h
  | _ => simp [canon] at h

namespace Value

/-- A copy of data of JSON is such data. -/
theorem IsJson.copy {v w : Value} (h : v.IsJson) (hc : v.Copy w) : w.IsJson := by
  induction hc with
  | null | bool | int | float | str => exact h
  | list length below ih =>
    cases h with
    | list hb =>
      refine .list fun w hw => ?_
      obtain ⟨n, hn, rfl⟩ := List.getElem_of_mem hw
      have hv := List.getElem?_eq_getElem (length ▸ hn)
      exact ih n _ _ hv (List.getElem?_eq_getElem hn) (hb _ (List.getElem_mem _))
  | @map i j as bs left right keys below ih =>
    obtain ⟨-, ha⟩ := isJson_map.1 h
    refine isJson_map.2 ⟨right, fun k w hm => ?_⟩
    have hk := Fields.get?_of_mem right hm
    obtain ⟨v, hv⟩ := Option.isSome_iff_exists.1 ((keys k).trans (by rw [hk]; rfl))
    obtain ⟨l, hl, hs⟩ := Fields.exists_mem_of_get? hv
    obtain ⟨⟨s, rfl, hu⟩, hj⟩ := ha l v hl
    exact ⟨⟨s, Key.eq_str (Key.same_iff.1 hs), hu⟩, ih k v w hv hk hj⟩

theorem IsStored.copy {v w : Value} (h : v.IsStored) (hc : v.CopySlot w) : w.IsStored := by
  rcases hc with ⟨-, rfl⟩ | hc
  · exact Or.inl rfl
  · rcases h with rfl | h
    · cases hc
    · exact Or.inr (h.copy hc)

theorem Copy.equalItem {v w : Value} (h : v.Copy w) : v.equalItem w = true :=
  equalItem_iff.2 (Or.inr h.equal)

theorem CopySlot.equalItem {v w : Value} (h : v.CopySlot w) : v.equalItem w = true :=
  equalItem_iff.2 (Or.inr h.equal)

theorem CopySlot.symm {v w : Value} (h : v.CopySlot w) : w.CopySlot v :=
  h.imp And.symm Copy.symm

end Value

namespace Delta

variable {u u' v v' w : Value} {d e : Delta}

theorem Leads.kept_of_exact (h : Leads .exact u v d) : Leads .kept u v d := by
  have hb : ∀ {u v : Value}, u = v → u.equalItem v = true := by
    rintro u _ rfl
    exact Value.equalItem_self u
  induction h with
  | still equal => exact .still (hb equal)
  | add here after => exact .add here (hb after)
  | change there here before after => exact .change there here (hb before) (hb after)
  | remove allowed => exact allowed.elim
  | tree nonempty distinct told open_ mapping _ ih =>
    exact .tree nonempty distinct told open_ mapping ih

/-! ## Copies -/

theorem Copy.isJson (hd : d.IsJson) (h : d.Copy e) : e.IsJson := by
  induction h with
  | nothing => exact hd
  | node kind old new =>
    cases hd with
    | node hold hnew => exact .node (hold.copy old) (hnew.copy new)
  | @tree ds es distinct keys below ih =>
    cases hd with
    | tree hkeys hbelow =>
      have hmem : ∀ k e, (k, e) ∈ es → ∃ d, (k, d) ∈ ds := by
        intro k e hm
        have hk : k ∈ Fields.keys ds := keys.mem_iff.1 (List.mem_map_of_mem (f := (·.1)) hm)
        obtain ⟨⟨l, d⟩, hl, rfl⟩ := List.mem_map.1 hk
        exact ⟨d, hl⟩
      refine .tree (fun k e hm => ?_) fun k e hm => ?_
      · obtain ⟨d, hd⟩ := hmem k e hm
        exact hkeys k d hd
      · obtain ⟨d, hd⟩ := hmem k e hm
        exact ih k d e hd hm (hbelow k d hd)

theorem Copy.node_of {c : Change} (h : Copy (.node c) e) :
    ∃ old new, e = .node ⟨c.label, old, new⟩ ∧ c.old.CopySlot old ∧ c.new.CopySlot new := by
  cases h with
  | node kind old new => exact ⟨_, _, rfl, old, new⟩

theorem Copy.tree_of {ds : List (Key × Delta)} (h : Copy (.tree ds) e) :
    ∃ es, e = .tree es ∧ (es = [] ↔ ds = []) ∧ Fields.Distinct es ∧
      ∀ k, Option.Rel Copy (Fields.get? k ds) (Fields.get? k es) := by
  have hdistinct : ∀ es, e = .tree es → Fields.Distinct es := by
    rintro es rfl
    exact h.distinct
  cases h with
  | @tree _ es distinct keys below =>
    have hes := hdistinct es rfl
    refine ⟨es, rfl, ?_, hes, fun k => ?_⟩
    · have hlength : es.length = ds.length := by simpa [Fields.keys] using keys.length_eq
      rw [← List.length_eq_zero_iff, hlength, List.length_eq_zero_iff]
    have hsame : (Fields.get? k ds).isSome = (Fields.get? k es).isSome := by
      rw [Bool.eq_iff_iff, Fields.isSome_iff_mem, Fields.isSome_iff_mem]
      exact ((keys.map Key.canon).mem_iff).symm
    cases hd : Fields.get? k ds with
    | none =>
      have he : Fields.get? k es = none := by simpa [hd] using hsame.symm
      rw [he]
      exact .none
    | some d =>
      obtain ⟨l, hl, hs⟩ := Fields.exists_mem_of_get? hd
      -- the copy has the key in the same spelling
      have hk : l ∈ Fields.keys es := keys.mem_iff.2 (List.mem_map_of_mem (f := (·.1)) hl)
      obtain ⟨⟨l, e⟩, hm, rfl⟩ := List.mem_map.1 hk
      rw [Fields.get?_congr hs, Fields.get?_of_mem hes hm]
      exact .some (below l d e hl hm)

/-- A copy of a delta leads from and to the same values. -/
theorem Leads.copied (h : Leads .kept u v d) (hc : d.Copy e) : Leads .kept u v e := by
  induction h generalizing e with
  | still equal =>
    cases hc
    exact .still equal
  | @add v new here after =>
    obtain ⟨old', new', rfl, hold, hnew⟩ := hc.node_of
    have hold : old' = .absent := by
      rcases hold with ⟨-, h⟩ | h
      · exact h
      · cases h
    rw [hold]
    exact .add here (Value.equalItem_trans hnew.symm.equalItem after)
  | @change u v old new there here before after =>
    obtain ⟨old', new', rfl, hold, hnew⟩ := hc.node_of
    exact .change there here (Value.equalItem_trans before hold.equalItem)
      (Value.equalItem_trans hnew.symm.equalItem after)
  | remove allowed => exact allowed.elim
  | @tree u v entries nonempty distinct told open_ mapping _ ih =>
    obtain ⟨es, rfl, hnil, hdistinct, hrel⟩ := hc.tree_of
    refine .tree (mt hnil.1 nonempty) hdistinct (fun k hk => ?_) open_ mapping fun k => ?_
    · have hr := hrel k
      rw [hk] at hr
      cases hd : Fields.get? k entries with
      | none => rw [hd] at hr; cases hr
      | some d =>
        rw [hd] at hr
        cases hr with
        | some hr =>
          cases hr
          exact told k hd
    · refine ih k ?_
      have hr := hrel k
      generalize Fields.get? k entries = d at hr
      generalize Fields.get? k es = e at hr
      cases hr with
      | none => exact .nothing
      | some hr => exact hr

/-- It leads on from a copy of the first value. -/
theorem Leads.from_copy (h : Leads .kept u v d) (hu : u.IsJson) (hc : u.Copy u') : Leads .kept u' v d :=
  h.after_still Reading.kept_joins (Or.inl (hu.copy hc).full) (Or.inl hu.full) hc.symm.equalItem

/-- It leads to a copy of the last value. -/
theorem Leads.to_copy (h : Leads .kept u v d) (hv : v.IsJson) (hc : v.Copy v') : Leads .kept u v' d :=
  h.before_still Reading.kept_joins (Or.inl hv.full) (Or.inl (hv.copy hc).full) hc.equalItem

/-! ## Merges -/

theorem isJson_get? {entries : List (Key × Delta)} (h : (tree entries).IsJson) (k : Key) :
    ((Fields.get? k entries).getD .nothing).IsJson := by
  cases h with
  | tree keys below =>
    cases hk : Fields.get? k entries with
    | none => exact .nothing
    | some d =>
      obtain ⟨l, hm, -⟩ := Fields.exists_mem_of_get? hk
      exact below l d hm

theorem isJson_purge (h : d.IsJson) : d.purge.IsJson := by
  cases h with
  | nothing => exact .nothing
  | node old new =>
    rw [Delta.purge]
    split
    · exact .nothing
    · exact .node old new
  | @tree entries keys below =>
    cases entries with
    | nil => exact .nothing
    | cons => exact .tree keys below

theorem isJson_writeEntry {entries : List (Key × Delta)} (h : (tree entries).IsJson) {k : Key}
    (hk : k.IsStored) (hd : d.IsJson) : (tree (writeEntry entries k d)).IsJson := by
  cases h with
  | tree keys below =>
    have hall := fun k d hm => And.intro (keys k d hm) (below k d hm)
    have hput := Fields.forall_put hall hk hd
    cases d with
    | nothing =>
      refine .tree (fun l e hm => ?_) fun l e hm => ?_
      · exact keys l e (List.mem_filter.1 hm).1
      · exact below l e (List.mem_filter.1 hm).1
    | _ => exact .tree (fun l e hm => (hput l e hm).1) fun l e hm => (hput l e hm).2

theorem isJson_changes {x y : Change} (hx : (node x).IsJson) (hy : (node y).IsJson) {m : Delta}
    (h : x.merge y = .ok m) : m.IsJson := by
  cases hx with | node xold xnew =>
  cases hy with | node yold ynew =>
  unfold Change.merge at h
  split at h
  · split at h
    · cases h; exact .nothing
    · cases h; exact isJson_purge (.node xold (Or.inl rfl))
    · cases h; exact isJson_purge (.node xold ynew)
    · cases h
  · split at h <;> cases h

theorem isJson_entries {later : List (Key × Delta)} {u w : Value} (hu : u.IsStored)
    (hw : w.IsStored) (hl : (tree later).IsJson)
    (each : ∀ k e, (k, e) ∈ later → ∀ {d : Delta} {u w : Value} {m : Delta}, d.IsJson → u.IsStored →
      w.IsStored → d.merge u w e = .ok m → m.IsJson) {stored entries : List (Key × Delta)}
    (hs : (tree stored).IsJson) (h : mergeEntries stored u w later = .ok entries) :
    (tree entries).IsJson := by
  induction later generalizing stored with
  | nil =>
    rw [mergeEntries] at h
    cases h
    exact hs
  | cons entry rest ih =>
    obtain ⟨k, e⟩ := entry
    cases hl with | tree keys below =>
    obtain ⟨hk, hkeys⟩ := Fields.forall_cons.1 keys
    obtain ⟨-, hbelow⟩ := Fields.forall_cons.1 below
    obtain ⟨hfirst, heach⟩ := Fields.forall_cons.1 each
    rw [mergeEntries] at h
    split at h
    · rename_i m hm
      have hj : m.IsJson := hfirst (isJson_get? hs k) (hu.child k) (hw.child k) hm
      exact ih (.tree hkeys hbelow) heach (isJson_writeEntry hs hk hj) h
    · cases h

/-- The merge of deltas of JSON data tells nothing but such data. -/
theorem isJson_merge (he : e.IsJson) : ∀ {d : Delta} {u w : Value} {m : Delta}, d.IsJson →
    u.IsStored → w.IsStored → d.merge u w e = .ok m → m.IsJson := by
  induction he with
  | nothing =>
    intro d u w m hd _ _ h
    rw [merge_nothing] at h
    cases h
    exact hd
  | @node y old new =>
    intro d u w m hd hu _ h
    cases hd with
    | nothing =>
      rw [nothing_merge] at h
      cases h
      exact .node old new
    | @node x xold xnew =>
      rw [Delta.merge] at h
      split at h
      · cases h; exact isJson_changes (.node xold xnew) (.node old new) ‹_›
      · cases h
    | tree =>
      rw [tree_merge_node] at h
      cases h
      exact isJson_purge (.node hu new)
  | @tree later keys below ih =>
    intro d u w m hd hu hw h
    have hl : (tree later).IsJson := .tree keys below
    cases hd with
    | nothing =>
      rw [nothing_merge] at h
      cases h
      exact hl
    | @node x xold xnew =>
      rw [node_merge_tree] at h
      cases h
      exact isJson_purge (.node xold hw)
    | tree hkeys hbelow =>
      rw [tree_merge_tree] at h
      split at h
      · rename_i entries hm
        cases h
        exact isJson_purge (isJson_entries hu hw hl (fun k e hk => ih k e hk) (.tree hkeys hbelow) hm)
      · cases h

/-- Two deltas in a row that have been stored merge into one that leads from the first value to the
last and can be stored again. -/
theorem Leads.merge_kept (hu : u.IsJson) (hv : v.IsJson) (hw : w.IsJson) (hd : d.IsJson)
    (he : e.IsJson) (h : Leads .kept u v d) (h' : Leads .kept v w e) :
    ∃ m, d.merge u w e = .ok m ∧ m.IsJson ∧ Leads .kept u w m := by
  obtain ⟨m, hm, hl⟩ := h.merge_leads Reading.kept_joins (Or.inl hu.full) (Or.inl hv.full)
    (Or.inl hw.full) h'
  exact ⟨m, hm, isJson_merge he hd (Or.inr hu) (Or.inr hw) hm, hl.2 (h.not_clash id id h')⟩

end Delta

end TreeDelta
