import TreeDelta.Proofs.Delta.Readings
import TreeDelta.Proofs.Delta.Merge
/-!
# Merging deltas that are read by equality

A delta may come from anywhere; all it tells is that the values at its ends are equal to its own.
`Delta.merge_composes` says exactly when the merge of two such deltas is again one.
-/

namespace TreeDelta

namespace Delta

/-- The merge of two deltas in a row never fails, and is a well formed delta, or none, that leads
from the first value to the last, exactly if the two do not clash. -/
theorem merge_composes {u v w : Value} {d e : Delta} (hu : u.Sound) (hv : v.Sound) (hw : w.Sound)
    (hd : Leads .equality u v d) (he : Leads .equality v w e) :
    ∃ m, d.merge u w e = .ok m ∧
      (((m = .nothing ∨ m.isValid = true) ∧ Leads .equality u w m) ↔ ¬ Clash u w d e) := by
  obtain ⟨m, hm, hl⟩ := hd.merge_leads Reading.equality_joins hu hv hw he
  refine ⟨m, hm, ?_⟩
  rw [← hl, and_iff_right_iff_imp]
  exact fun h => h.valid Value.likeness_equalItem Value.likeness_equalItem.absent

/-- A removal and an addition in the same place make a change. -/
theorem merge_composes_of_replaced :
    let u : Value := .map ⟨0, []⟩ [(.str "a", .int 1)]
    let v : Value := .map ⟨1, []⟩ []
    let w : Value := .map ⟨2, []⟩ [(.str "a", .int 2)]
    let d : Delta := .tree [(.str "a", .node (.of .remove (.int 1) .absent))]
    let e : Delta := .tree [(.str "a", .node (.of .add .absent (.int 2)))]
    u.Sound ∧ v.Sound ∧ w.Sound ∧ Leads .equality u v d ∧ Leads .equality v w e ∧
      ∃ m, d.merge u w e = .ok m ∧
        (((m = .nothing ∨ m.isValid = true) ∧ Leads .equality u w m) ↔ ¬ Clash u w d e) := by
  intro u v w d e
  have hu : u.Sound := Or.inl ⟨by decide, by decide⟩
  have hv : v.Sound := Or.inl ⟨by decide, by decide⟩
  have hw : w.Sound := Or.inl ⟨by decide, by decide⟩
  have hd : Leads .equality u v d := by
    refine .single (by simp) (Or.inr rfl) rfl ?_ fun l hl => ?_
    · exact .remove trivial (by decide) (Value.equalItem_self (.int 1))
    · simp [u, v, Value.child_map, Fields.get?_cons, hl, Reading.equality]
  have he : Leads .equality v w e := by
    refine .single (by simp) (Or.inr rfl) rfl ?_ fun l hl => ?_
    · exact .add (by decide) (Value.equalItem_self (.int 2))
    · simp [v, w, Value.child_map, Fields.get?_cons, hl, Reading.equality]
  exact ⟨hu, hv, hw, hd, he, merge_composes hu hv hw hd he⟩

/-- A removal whose place is filled again key by key is merged into a removal with a new value, and
a mapping made where null was and emptied again into nothing at all. -/
theorem merge_of_clash :
    (∃ u v w d e m, u.Sound ∧ v.Sound ∧ w.Sound ∧ Leads .equality u v d ∧ Leads .equality v w e ∧
      d.merge u w e = .ok m ∧ m ≠ .nothing ∧ m.isValid = false) ∧
    ∃ u v w d e, u.Sound ∧ v.Sound ∧ w.Sound ∧ Leads .equality u v d ∧ Leads .equality v w e ∧
      d.merge u w e = .ok .nothing ∧ ¬ Leads .equality u w .nothing := by
  constructor
  · let x : Value := .map ⟨2, [.str "a"]⟩ [(.str "x", .int 2)]
    refine ⟨.map ⟨0, []⟩ [(.str "a", .int 1)], .map ⟨1, []⟩ [], .map ⟨2, []⟩ [(.str "a", x)],
      .tree [(.str "a", .node (.of .remove (.int 1) .absent))],
      .tree [(.str "a", .tree [(.str "x", .node (.of .add .absent (.int 2)))])],
      .tree [(.str "a", .node (.of .remove (.int 1) x))],
      Or.inl ⟨by decide, by decide⟩, Or.inl ⟨by decide, by decide⟩,
      Or.inl ⟨by decide, by decide⟩, ?_, ?_, rfl, by simp, by decide⟩
    · refine .single (by simp) (Or.inr rfl) rfl ?_ fun l hl => ?_
      · exact .remove trivial (by decide) (Value.equalItem_self (.int 1))
      · simp [Value.child_map, Fields.get?_cons, hl, Reading.equality]
    · refine .single (by simp) (Or.inr rfl) rfl ?_ fun l hl => ?_
      · refine .single (by simp) (Or.inl rfl) rfl ?_ fun m hm => ?_
        · exact .add (by decide) (Value.equalItem_self (.int 2))
        · have e : (Value.map ⟨2, []⟩ [(.str "a", x)]).child (.str "a") = x := rfl
          rw [e]
          simp [x, Value.child, Value.fields?, Fields.get?_cons, hm, Reading.equality]
      · simp [Value.child_map, Fields.get?_cons, hl, Reading.equality]
  · refine ⟨.null, .map ⟨1, []⟩ [(.str "b", .int 1)], .map ⟨2, []⟩ [],
      .tree [(.str "b", .node (.of .add .absent (.int 1)))],
      .tree [(.str "b", .node (.of .remove (.int 1) .absent))],
      Or.inl ⟨by decide, by decide⟩, Or.inl ⟨by decide, by decide⟩,
      Or.inl ⟨by decide, by decide⟩, ?_, ?_, rfl, ?_⟩
    · refine .single (by simp) (Or.inl rfl) rfl ?_ fun l hl => ?_
      · exact .add (by decide) (Value.equalItem_self (.int 1))
      · simp [Value.child, Value.fields?, Fields.get?_cons, hl, Reading.equality]
    · refine .single (by simp) (Or.inr rfl) rfl ?_ fun l hl => ?_
      · exact .remove trivial (by decide) (Value.equalItem_self (.int 1))
      · simp [Value.child_map, Fields.get?_cons, hl, Reading.equality]
    · rw [leads_nothing]
      show ¬ Value.equalItem .null (.map ⟨2, []⟩ []) = true
      simp [Value.equalItem, Value.equal, Value.numeric?, Value.number?]

end Delta

end TreeDelta
