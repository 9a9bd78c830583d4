import TreeDelta.Proofs.Equality
import TreeDelta.Proofs.Delta.Leads
/-!
# Readings of deltas

Three readings, and the laws by which deltas read so can be merged. By `Reading.equality` a delta
tells values that are equal to the real ones; it may come from anywhere. By `Reading.exact` it
tells both values exactly, as the delta of one update does. By `Reading.net` it tells the last
value exactly and of the first one values alike, as the net delta of several updates does, for
which a mapping replaced by one with the same entries counts as unchanged.
-/

namespace TreeDelta

/-- Values that count as unchanged: the same, or mappings with the same keys and such values. -/
inductive Value.Alike : Value → Value → Prop where
  | same {u v : Value} (h : u.same v = true) : Alike u v
  | map {i j : Ident} {fs gs : List (Key × Value)}
      (keys : ∀ k, (Fields.get? k fs).isSome = (Fields.get? k gs).isSome)
      (below : ∀ k a b, Fields.get? k fs = some a → Fields.get? k gs = some b → Alike a b) :
      Alike (.map i fs) (.map j gs)

/-- Values at the ends of changes are equal, and removals may occur. -/
def Reading.equality : Reading where
  before u old := u.equalItem old = true
  after new v := new.equalItem v = true
  removals := True

/-- Both values are told exactly. -/
def Reading.exact : Reading := ⟨Eq, Eq, False⟩

/-- The last value is told exactly, and the first up to what counts as unchanged. -/
def Reading.net : Reading := ⟨Value.Alike, Eq, False⟩

/-! ## Equality -/

namespace Value

theorem child_map (id : Ident) (fields : List (Key × Value)) (k : Key) :
    (map id fields).child k = (Fields.get? k fields).getD .absent := rfl

/-- Below a key of a mapping without absent entries something is there exactly if the key is. -/
theorem Sound.isSome_iff {id : Ident} {fields : List (Key × Value)} (h : (map id fields).Sound)
    (k : Key) : (Fields.get? k fields).isSome = true ↔ (map id fields).child k ≠ absent := by
  rw [child_map]
  have hp := h.present rfl k
  cases hk : Fields.get? k fields with
  | none => simp
  | some a => rw [hk] at hp; simpa using hp

theorem likeness_equalItem : Likeness fun u v => u.equalItem v = true where
  refl := equalItem_self
  absent h := by
    rcases equalItem_iff.1 h with rfl | h
    · rfl
    · exact (type_of_equal h).2.1
  open_ h := by
    rcases equalItem_iff.1 h with rfl | h
    · rfl
    · exact (type_of_equal h).1
  mapping h := by
    rcases equalItem_iff.1 h with rfl | h
    · rfl
    · exact (type_of_equal h).2.2
  child {u v} hu hv h k := by
    rcases equalItem_iff.1 h with rfl | h
    · exact equalItem_self _
    have hm := (type_of_equal h).2.2
    cases hu' : u.fields? with
    | none =>
      rw [hu'] at hm
      have hv' : v.fields? = none := by simpa using hm.symm
      rw [child_eq_absent hu', child_eq_absent hv']; exact equalItem_self _
    | some as =>
      obtain ⟨bs, hv'⟩ := Option.isSome_iff_exists.1 (hm.symm.trans (by rw [hu']; rfl))
      cases u <;> cases hu'
      cases v <;> cases hv'
      obtain ⟨hk, hab⟩ := (equal_map (hu.distinct rfl) (hv.distinct rfl)).1 h
      rw [child_map, child_map]
      cases ha : Fields.get? k as with
      | none =>
        have hb : Fields.get? k bs = none := by simpa [ha] using (hk k).symm
        rw [hb]; exact equalItem_self _
      | some a =>
        obtain ⟨b, hb⟩ := Option.isSome_iff_exists.1 ((hk k).symm.trans (by rw [ha]; rfl))
        rw [hb]; exact hab k a b ha hb

theorem equalItem_ext {u v : Value} (hu : u.Sound) (hv : v.Sound) (hmu : u.fields?.isSome = true)
    (hmv : v.fields?.isSome = true) (h : ∀ k, (u.child k).equalItem (v.child k) = true) :
    u.equalItem v = true := by
  obtain ⟨as, ha⟩ := Option.isSome_iff_exists.1 hmu
  obtain ⟨bs, hb⟩ := Option.isSome_iff_exists.1 hmv
  cases u <;> cases ha
  cases v <;> cases hb
  refine equalItem_iff.2 (Or.inr ((equal_map (hu.distinct rfl) (hv.distinct rfl)).2 ⟨fun k => ?_, ?_⟩))
  · rw [Bool.eq_iff_iff, hu.isSome_iff, hv.isSome_iff]
    exact not_congr (likeness_equalItem.absent (h k))
  · intro k a b hka hkb
    have := h k
    rwa [child_map, child_map, hka, hkb] at this

end Value

theorem Reading.equality_joins : Reading.equality.Joins .equality where
  before := Value.likeness_equalItem
  later := Value.likeness_equalItem
  ext := Value.equalItem_ext
  trans := Value.equalItem_trans
  undone before same after :=
    Value.equalItem_trans (Value.equalItem_trans before (Value.equalItem_of_same same)) after
  after_refl := Value.equalItem_self
  after_absent := Value.likeness_equalItem.absent
  after_trans := Value.equalItem_trans
  after_later := id
  removals := id

/-! ## What counts as unchanged -/

namespace Value

theorem likeness_eq : Likeness (Eq : Value → Value → Prop) where
  refl _ := rfl
  absent h := by rw [h]
  open_ h := by rw [h]
  mapping h := by rw [h]
  child _ _ h k := by rw [h]

theorem Alike.refl (v : Value) : v.Alike v := .same (same_self v)

theorem eq_of_same_mapping {u v : Value} (h : u.same v = true) (hu : u.fields?.isSome = true) : u = v :=
  (same_container (by cases u <;> first | rfl | cases hu)).1 h

theorem likeness_alike : Likeness Alike where
  refl := Alike.refl
  absent h := by
    cases h with
    | same h => exact likeness_equalItem.absent (equalItem_of_same h)
    | map => simp
  open_ h := by
    cases h with
    | same h => exact likeness_equalItem.open_ (equalItem_of_same h)
    | map => rfl
  mapping h := by
    cases h with
    | same h => exact likeness_equalItem.mapping (equalItem_of_same h)
    | map => rfl
  child {u v} _ _ h k := by
    cases h with
    | same h =>
      cases hu : u.fields? with
      | none =>
        have hm := likeness_equalItem.mapping (equalItem_of_same h)
        rw [hu] at hm
        have hv : v.fields? = none := by simpa using hm.symm
        rw [child_eq_absent hu, child_eq_absent hv]; exact .refl _
      | some fields =>
        rw [eq_of_same_mapping h (by rw [hu]; rfl)]; exact .refl _
    | @map i j fs gs keys below =>
      rw [child_map, child_map]
      cases hf : Fields.get? k fs with
      | none =>
        have hg : Fields.get? k gs = none := by simpa [hf] using (keys k).symm
        rw [hg]; exact .refl _
      | some a =>
        obtain ⟨b, hg⟩ := Option.isSome_iff_exists.1 ((keys k).symm.trans (by rw [hf]; rfl))
        rw [hg]; exact below k a b hf hg

theorem alike_ext {u v : Value} (hu : u.Sound) (hv : v.Sound) (hmu : u.fields?.isSome = true)
    (hmv : v.fields?.isSome = true) (h : ∀ k, (u.child k).Alike (v.child k)) : u.Alike v := by
  obtain ⟨fs, hf⟩ := Option.isSome_iff_exists.1 hmu
  obtain ⟨gs, hg⟩ := Option.isSome_iff_exists.1 hmv
  cases u <;> cases hf
  cases v <;> cases hg
  refine .map (fun k => ?_) fun k a b hka hkb => ?_
  · rw [Bool.eq_iff_iff, hu.isSome_iff, hv.isSome_iff]
    exact not_congr (likeness_alike.absent (h k))
  · have := h k
    rwa [child_map, child_map, hka, hkb] at this

theorem Alike.trans_same {u v w : Value} (h : u.Alike v) (h' : v.same w = true) : u.Alike w := by
  cases h with
  | same h => exact .same (same_trans h h')
  | map keys below => exact (same_container rfl).1 h' ▸ .map keys below

end Value

theorem Reading.net_joins_exact : Reading.net.Joins .exact where
  before := Value.likeness_alike
  later := Value.likeness_eq
  ext := Value.alike_ext
  trans h h' := h' ▸ h
  undone before same after := by
    have after : _ = _ := after
    exact after ▸ Value.Alike.trans_same before same
  after_refl _ := rfl
  after_absent h := by rw [show _ = _ from h]
  after_trans h h' := h.trans h'
  after_later := id
  removals := id

end TreeDelta
