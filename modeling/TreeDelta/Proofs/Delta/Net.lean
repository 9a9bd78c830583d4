import TreeDelta.Proofs.Delta.Readings
import TreeDelta.Proofs.Delta.Merge
import TreeDelta.Proofs.Update.Record
/-!
# Net deltas

Deltas without removals never clash, so a net delta merged with the exact delta of one more update
is a net delta again (`Leads.merge_exact`). The delta of an update is exact (`Records.leads`).
-/

namespace TreeDelta

namespace Delta

/-! ## No removals, no clash -/

variable {r s : Reading} {u v w : Value} {d e : Delta}

/-- Without removals what leads to nothing tells nothing. -/
theorem Leads.of_to_absent (hr : ¬ r.removals) (h : Leads r u .absent d) : d = .nothing := by
  cases h with
  | still => rfl
  | add here => exact absurd rfl here
  | change _ here => exact absurd rfl here
  | remove allowed => exact absurd allowed hr
  | tree _ _ _ _ mapping => cases mapping

theorem Leads.not_clash (hr : ¬ r.removals) (hs : ¬ s.removals) (h : Leads r u v d)
    (h' : Leads s v w e) : ¬ Clash u w d e := by
  intro hc
  induction hc generalizing v with
  | revived => exact hr (h.of_remove (Change.kind?_of ..)).1
  | @emptied u w earlier later none empty =>
    cases h' with
    | tree nonempty distinct told _ _ below =>
      obtain ⟨⟨k, d⟩, rest, rfl⟩ := List.exists_cons_of_ne_nil nonempty
      have hk : Fields.get? k ((k, d) :: rest) = some d := by rw [Fields.get?_cons]; simp
      have hb := below k
      rw [hk, show w.child k = .absent by simp [Value.child, empty]] at hb
      exact told k (hk.trans (congrArg some (hb.of_to_absent hs)))
  | deeper k _ ih =>
    cases h with
    | tree _ _ _ _ _ below =>
      cases h' with
      | tree _ _ _ _ _ below' => exact ih (below k) (below' k)

/-- A net delta merged with the exact delta of one more update is a net delta. -/
theorem Leads.merge_exact (hu : u.Sound) (hv : v.Sound) (hw : w.Sound) (h : Leads .net u v d)
    (h' : Leads .exact v w e) : ∃ m, d.merge u w e = .ok m ∧ Leads .net u w m := by
  obtain ⟨m, hm, hl⟩ := h.merge_leads Reading.net_joins_exact hu hv hw h'
  exact ⟨m, hm, hl.2 (h.not_clash id id h')⟩

/-! ## The delta of an update -/

/-- What an update records leads exactly from its source to its result. -/
theorem Records.leads {run : Nat} {before after : Slot} (h : Records run before after d)
    (hb : ∀ v, before = some v → v.whole = true) (ha : ∀ v, after = some v → v.whole = true) :
    Leads .exact (before.getD .absent) (after.getD .absent) d := by
  induction h with
  | unchanged slot => exact .still rfl
  | added v => exact .add (Value.ne_absent_of_whole (ha v rfl)) rfl
  | changed u v =>
    exact .change (Value.ne_absent_of_whole (hb u rfl)) (Value.ne_absent_of_whole (ha v rfl)) rfl rfl
  | @tree before id fields entries own open_ nonempty distinct told below ih =>
    refine .tree nonempty distinct told ?_ rfl fun k => ?_
    · cases before with
      | none => exact Or.inl rfl
      | some v => exact open_ v rfl
    · have hk := ih k ?_ ?_
      · rwa [Slot.getD_child] at hk
      · intro v hv
        obtain ⟨u, rfl, hu⟩ := Option.bind_eq_some_iff.1 hv
        obtain ⟨fields, hf, hk⟩ := Option.bind_eq_some_iff.1 hu
        cases u with
        | map _ _ => cases hf; exact Value.whole_of_get? (hb _ rfl) hk
        | _ => cases hf
      · exact fun v hv => Value.whole_of_get? (ha _ rfl) hv

end Delta

end TreeDelta
