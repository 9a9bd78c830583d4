import TreeDelta.Delta.Listing
import TreeDelta.Proofs.Fields
import TreeDelta.Proofs.Sorting.Permutation
/-!
# Entries sorted by key

Sorting by key loses no entry (`perm_sortedFields`). Keys that are texts always compare: their entries
go by these texts (`sortFields?_of_texts`), and where each key is there once they come in increasing order
(`increasing_sortedFields`).
-/

namespace TreeDelta

theorem perm_sortBy {α : Type} {key : α → Key} {items sorted : List α}
    (h : sortBy? key items = some sorted) : sorted.Perm items := by
  unfold sortBy? at h
  split at h
  · exact Sorting.perm_adaptiveSort h
  · split at h
    · cases h; exact List.mergeSort_perm _ _
    · cases h

theorem perm_sortedFields {α : Type} (fields : List (Key × α)) : (sortedFields fields).Perm fields := by
  unfold sortedFields
  cases h : sortFields? fields with
  | none => exact List.Perm.refl _
  | some sorted => exact perm_sortBy h

/-! ## The order of texts -/

/-- No half of a pair has the code of a character. -/
theorem Sign.code_inj {s t : Sign} (h : s.code = t.code) : s = t := by
  cases s with
  | char c =>
    cases t with
    | char d => rw [Char.toNat_inj.1 h]
    | half d =>
      have := c.valid
      have := d.isLt
      simp only [code, firstHalf, Char.toNat, UInt32.isValidChar, Nat.isValidChar] at *
      omega
  | half c =>
    cases t with
    | char d =>
      have := d.valid
      have := c.isLt
      simp only [code, firstHalf, Char.toNat, UInt32.isValidChar, Nat.isValidChar] at *
      omega
    | half d => rw [Fin.ext (Nat.add_left_cancel h)]

instance : Std.TransOrd Sign := inferInstanceAs (Std.TransCmp (compareOn Sign.code))

instance : Std.LawfulEqOrd Sign where
  eq_of_compare h := Sign.code_inj (Std.LawfulEqOrd.eq_of_compare h)

theorem Text.lt_of_le {s t : Text} (h : Text.le s t = true) (hne : s ≠ t) : compare s t = .lt := by
  unfold Text.le at h
  cases hc : compare s t with
  | lt => rfl
  | eq => exact absurd (Std.LawfulEqOrd.eq_of_compare hc) hne
  | gt => rw [hc] at h; cases h

/-- Of two texts the one comes before the other, or the other before the one. -/
theorem Text.le_total (s t : Text) : (Text.le s t || Text.le t s) = true := by
  rw [Text.le, Text.le, Std.OrientedOrd.eq_swap (a := t)]
  cases compare s t <;> rfl

/-! ## Keys that are texts -/

/-- A key that is a text. -/
def Key.IsText (k : Key) : Prop := ∃ s, k = .str s

theorem anyNaN_of_texts {keys : List Key} (h : ∀ k ∈ keys, k.IsText) : Key.anyNaN keys = false := by
  induction keys with
  | nil => rfl
  | cons k keys ih =>
    obtain ⟨s, rfl⟩ := h k (by simp)
    have hrest := ih fun l hl => h l (by simp [hl])
    simp [Key.anyNaN, Key.hasNaN, hrest]

theorem Key.compare?_str (s t : Text) : Key.compare? (.str s) (.str t) = some (compare s t) := rfl

/-- Entries whose keys are texts go by these texts. -/
theorem sortFields?_of_texts {α : Type} {fields : List (Key × α)}
    (h : ∀ k a, (k, a) ∈ fields → k.IsText) :
    sortFields? fields = some (fields.mergeSort fun a b => Text.le a.1.plain b.1.plain) := by
  have keys : ∀ k ∈ fields.map (·.1), k.IsText := by
    intro k hk
    obtain ⟨⟨l, a⟩, hm, rfl⟩ := List.mem_map.1 hk
    exact h l a hm
  have comparable : Key.Comparable (fields.map (·.1)) := by
    refine List.pairwise_iff_forall_sublist.2 fun {k l} hkl => ?_
    obtain ⟨s, rfl⟩ := keys k (hkl.subset (by simp))
    obtain ⟨t, rfl⟩ := keys l (hkl.subset (by simp))
    rw [Key.compare?_str]
    rfl
  have order : ∀ a ∈ fields, ∀ b ∈ fields, a.1.le b.1 = Text.le a.1.plain b.1.plain := by
    rintro ⟨k, a⟩ ha ⟨l, b⟩ hb
    obtain ⟨s, rfl⟩ := h k a ha
    obtain ⟨t, rfl⟩ := h l b hb
    rw [Key.le, Key.compare?_str, Key.plain, Key.plain, Text.le]
    cases compare s t <;> rfl
  have sorted := List.map_mergeSort (r := fun a b => a.1.le b.1)
    (s := fun a b => Text.le a.1.plain b.1.plain) (f := id) (l := fields) order
  rw [List.map_id, List.map_id] at sorted
  rw [sortFields?, sortBy?, anyNaN_of_texts keys, if_neg (by simp), if_pos comparable, sorted]

/-- Entries whose keys are texts, each once, come in increasing order when they are sorted. -/
theorem increasing_sortedFields {α : Type} {fields : List (Key × α)} (distinct : Fields.Distinct fields)
    (texts : ∀ k a, (k, a) ∈ fields → k.IsText) :
    (sortedFields fields).Pairwise fun x y => Key.lt? x.1 y.1 = some true := by
  have perm := perm_sortedFields fields
  have apart : (sortedFields fields).Pairwise fun x y => x.1.canon ≠ y.1.canon := by
    have nodup := Fields.distinct_perm perm distinct
    rw [Fields.Distinct, Fields.keys, List.map_map] at nodup
    exact List.pairwise_map.1 nodup
  have order : (sortedFields fields).Pairwise fun x y => Text.le x.1.plain y.1.plain = true := by
    rw [sortedFields, sortFields?_of_texts texts]
    exact List.pairwise_mergeSort (fun _ _ _ => Std.TransCmp.isLE_trans) (fun _ _ => Text.le_total _ _) _
  refine (apart.and order).imp_of_mem ?_
  rintro ⟨k, a⟩ ⟨l, b⟩ ha hb ⟨hne, hle⟩
  obtain ⟨s, rfl⟩ := texts k a (perm.mem_iff.1 ha)
  obtain ⟨t, rfl⟩ := texts l b (perm.mem_iff.1 hb)
  have hst : s ≠ t := by
    rintro rfl
    exact hne rfl
  change (Key.compare? (.str s) (.str t)).map _ = _
  rw [Key.compare?_str, Text.lt_of_le (s := s) (t := t) hle hst]
  rfl

end TreeDelta
