import TreeDelta.Report.Value
/-!
# Printing part by part

Mappings and sequences are printed alike: one line with the whole layout where a sequence fits
(`OnOneLine`), and else the parts one after the other, each as an item with its label (`partsOf`). So
`contents` is what a container comes to behind a lead, under a label (`item_of_container`) and without
one (`value_cases`), and a property of what is printed needs one induction over the parts
(`Everywhere`).
-/

namespace TreeDelta.Report

variable {snip : Bool} {lead label : Text} {v w : Value}

/-! ## Parts -/

/-- The label of an item. -/
def numberLabel (i : Nat) : Text := Text.ofString "item[" ++ Text.ofString (toString i) ++ Text.ofString "]"

/-- The parts of a container with their labels, as they are printed. -/
def partsOf (v : Value) : List (Text × Value) :=
  match v.fields?, v.sequence? with
  | some fields, _ =>
    (fields.mergeSort fun a b => Text.le a.1.plain b.1.plain).map fun (k, w) => (k.plain, w)
  | none, some items => items.zipIdx.map fun (w, i) => (numberLabel i, w)
  | none, none => []

/-- The value is a mapping or a sequence. -/
def IsContainer (v : Value) : Prop := v.fields?.isSome = true ∨ v.sequence?.isSome = true

instance (v : Value) : Decidable (IsContainer v) := inferInstanceAs (Decidable (_ ∨ _))

/-- A sequence whose layout is printed on the line behind the lead. -/
def OnOneLine (lead : Text) (v : Value) : Prop :=
  v.sequence?.isSome = true ∧ inOneLine lead v.laidOut = true

instance (lead : Text) (v : Value) : Decidable (OnOneLine lead v) :=
  inferInstanceAs (Decidable (_ ∧ _))

/-- Parts printed one after the other. -/
def printed (snip : Bool) (lead : Text) (parts : List (Text × Value)) : Text :=
  Text.joined (parts.map fun part => item snip lead part.1 part.2)

/-- What a container comes to behind a lead. -/
def contents (snip : Bool) (lead : Text) (v : Value) : Text :=
  if OnOneLine lead v then lead ++ v.laidOut ++ "\n" else printed snip lead (partsOf v)

theorem sequence?_of_fields {fields : List (Key × Value)} (h : v.fields? = some fields) :
    v.sequence? = none := by
  cases v with
  | map => rfl
  | _ => cases h

theorem fields?_of_sequence {items : List Value} (h : v.sequence? = some items) : v.fields? = none := by
  cases v with
  | map => cases h
  | _ => rfl

theorem partsOf_of_scalar (h : ¬ IsContainer v) : partsOf v = [] := by
  rw [IsContainer, not_or, Option.not_isSome_iff_eq_none, Option.not_isSome_iff_eq_none] at h
  rw [partsOf, h.1, h.2]

/-- A sequence without parts has one of two layouts. -/
theorem laidOut_of_no_parts (hs : v.sequence?.isSome = true) (h : partsOf v = []) :
    v.laidOut = "[]" ∨ v.laidOut = "()" := by
  obtain ⟨items, hs⟩ := Option.isSome_iff_exists.1 hs
  obtain rfl : items = [] := by simpa [partsOf, fields?_of_sequence hs, hs] using h
  cases v with
  | list => cases hs; exact .inl rfl
  | tuple => cases hs; exact .inr rfl
  | _ => cases hs

theorem mem_partsOf : (label, w) ∈ partsOf v ↔
    (∃ fields k, v.fields? = some fields ∧ (k, w) ∈ fields ∧ label = k.plain) ∨
      ∃ items i, v.sequence? = some items ∧ items[i]? = some w ∧ label = numberLabel i := by
  unfold partsOf
  cases hf : v.fields? with
  | some fields =>
    simp [sequence?_of_fields hf, eq_comm]
  | none =>
    cases hs : v.sequence? with
    | some items =>
      simp only [List.mem_map, Prod.exists, Prod.mk.injEq, List.mem_zipIdx_iff_getElem?,
        reduceCtorEq, false_and, exists_false, false_or, Option.some.injEq]
      constructor
      · rintro ⟨u, i, hi, rfl, rfl⟩; exact ⟨items, i, rfl, hi, rfl⟩
      · rintro ⟨items, i, rfl, hi, rfl⟩; exact ⟨w, i, hi, rfl, rfl⟩
    | none => simp

theorem isDigit_of_mem_toString {n : Nat} {c : Char} (h : c ∈ (toString n).toList) :
    c.isDigit = true := by
  rw [show (toString n).toList = Nat.toDigits 10 n by simp [toString, Nat.repr]] at h
  exact Nat.isDigit_of_mem_toDigits (by omega) (by omega) h

/-- The label of an item is made of digits and of the signs of `item[]`. -/
theorem not_mem_numberLabel {c : Char} (digit : c.isDigit = false) (sign : c ∉ "item[]".toList)
    (i : Nat) : Sign.char c ∉ numberLabel i := by
  have number : c ∉ (toString i).toList := by
    intro h
    rw [isDigit_of_mem_toString h] at digit
    cases digit
  simp only [numberLabel, Text.ofString, Text.ofChars, List.mem_append, List.mem_map, Sign.char.injEq,
    exists_eq_right]
  simp_all

theorem not_mem_label {c : Char} (digit : c.isDigit = false) (sign : c ∉ "item[]".toList)
    (h : (∃ k : Key, .char c ∉ k.plain ∧ label = k.plain) ∨ ∃ i, label = numberLabel i) :
    Sign.char c ∉ label := by
  rcases h with ⟨k, hk, rfl⟩ | ⟨i, rfl⟩
  · exact hk
  · exact not_mem_numberLabel digit sign i

/-! ## What is printed -/

theorem mapping_eq_printed {fields : List (Key × Value)} (h : v.fields? = some fields) :
    mapping snip lead fields = printed snip lead (partsOf v) := by
  have labelled : ∀ fields : List (Key × Value), entries snip lead fields =
      fields.map fun entry => (entry.1.plain, item snip lead entry.1.plain entry.2) := by
    intro fields
    induction fields with
    | nil => rfl
    | cons entry rest ih => rw [entries, ih]; rfl
  have sorted := List.map_mergeSort (r := fun a b => Text.le a.1.plain b.1.plain)
    (s := fun a b => Text.le a.1 b.1) (l := fields)
    (f := fun entry => (entry.1.plain, item snip lead entry.1.plain entry.2)) fun _ _ _ _ => rfl
  rw [mapping, byLabel, labelled, ← sorted, printed, partsOf, h, List.map_map, List.map_map]
  rfl

theorem numbered_eq_printed (items : List Value) (i : Nat) : numbered snip lead i items =
    printed snip lead ((items.zipIdx i).map fun (w, j) => (numberLabel j, w)) := by
  induction items generalizing i with
  | nil => rw [numbered]; rfl
  | cons w rest ih => rw [numbered, ih]; rfl

theorem list_eq_contents {items : List Value} (h : v.sequence? = some items) :
    list snip lead v items = contents snip lead v := by
  rw [list, sequence, contents, numbered_eq_printed, partsOf, fields?_of_sequence h, h]
  simp [OnOneLine, h]

theorem mapping_eq_contents {fields : List (Key × Value)} (h : v.fields? = some fields) :
    mapping snip lead fields = contents snip lead v := by
  rw [contents, if_neg (by simp [OnOneLine, sequence?_of_fields h]), mapping_eq_printed h]

theorem item_of_container (h : IsContainer v) :
    item snip lead label v = labelLine lead label ++ contents snip (lead ++ indentation) v := by
  cases v with
  | map id fields => rw [item, ← mapping_eq_contents rfl, mapping]
  | list | tuple => rw [item, ← list_eq_contents rfl, list]
  | op kind argument =>
    have first : Text.ofString "item[0]" = numberLabel 0 := by decide
    have second : Text.ofString "item[1]" = numberLabel (0 + 1) := by decide
    rw [item, ← list_eq_contents rfl, list, numbered, numbered, numbered, first, second]
    simp [numberLabel, Text.ofString, Text.ofChars]
  | descend children =>
    have first : Text.ofString "item[0]" = numberLabel 0 := by decide
    rw [item, ← list_eq_contents rfl, list, numbered, numbered, first]
    simp [numberLabel, Text.ofString, Text.ofChars]
  | _ => simp [IsContainer, Value.fields?, Value.sequence?, Value.tuple?] at h

theorem item_of_scalar (h : ¬ IsContainer v) :
    item snip lead label v = labelled lead label (scalar snip v) := by
  cases v with
  | map | list | tuple | op | descend =>
    simp [IsContainer, Value.fields?, Value.sequence?, Value.tuple?] at h
  | _ => rw [item] <;> simp

/-- Containers that hold something are printed as under a label; an empty mapping has a form of its own,
and everything else is a text. -/
theorem value_cases (v : Value) :
    (partsOf v ≠ [] ∧ ∀ snip lead, value snip lead v = contents snip lead v) ∨
      (v.fields? = some [] ∧ ∀ snip lead, value snip lead v = lead ++ "\x7b\x7d\n") ∨
      (v.fields? = none ∧ partsOf v = [] ∧
        ∀ snip lead, value snip lead v = lines lead (scalar snip v)) := by
  cases hf : v.fields? with
  | some fields =>
    cases fields with
    | nil => exact .inr (.inl ⟨rfl, fun snip lead => by rw [value, hf]⟩)
    | cons entry rest =>
      refine .inl ⟨?_, fun snip lead => ?_⟩
      · obtain ⟨k, w⟩ := entry
        exact List.ne_nil_of_mem (mem_partsOf.2 (.inl ⟨_, k, hf, by simp, rfl⟩) : (k.plain, w) ∈ _)
      · rw [value, hf, ← mapping_eq_contents hf]
  | none =>
    cases hs : v.sequence? with
    | none =>
      exact .inr (.inr ⟨rfl, by rw [partsOf, hf, hs], fun snip lead => by rw [value, hf, hs]⟩)
    | some items =>
      cases items with
      | nil =>
        exact .inr (.inr ⟨rfl, by rw [partsOf, hf, hs]; rfl, fun snip lead => by rw [value, hf, hs]⟩)
      | cons w rest =>
        refine .inl ⟨by rw [partsOf, hf, hs]; simp, fun snip lead => ?_⟩
        rw [value, hf, hs, ← list_eq_contents hs]

/-! ## All that is printed of a value -/

/-- Every value that is printed as a part of the value, itself among them, is `V`, and every key on the
way is `K`. -/
inductive Everywhere (K : Key → Prop) (V : Value → Prop) : Value → Prop where
  | of {v : Value} (here : V v)
      (keys : ∀ fields k w, v.fields? = some fields → (k, w) ∈ fields → K k)
      (entries : ∀ fields k w, v.fields? = some fields → (k, w) ∈ fields → Everywhere K V w)
      (items : ∀ items w, v.sequence? = some items → w ∈ items → Everywhere K V w) : Everywhere K V v

variable {K : Key → Prop} {V : Value → Prop}

theorem Everywhere.here (h : Everywhere K V v) : V v := by
  cases h with | of here => exact here

/-- Induction over the parts that are printed, with what is known of them and of their labels. -/
@[elab_as_elim]
theorem Everywhere.induction {motive : Value → Prop} (h : Everywhere K V v)
    (step : ∀ v, V v → (∀ label w, (label, w) ∈ partsOf v →
      ((∃ k, K k ∧ label = k.plain) ∨ ∃ i, label = numberLabel i) ∧ V w ∧ motive w) → motive v) : motive v := by
  induction h with
  | of here keys inFields inItems fieldsIH itemsIH =>
    refine step _ here fun label w hm => ?_
    obtain ⟨fields, k, hf, hk, rfl⟩ | ⟨ws, i, hs, hi, rfl⟩ := mem_partsOf.1 hm
    · exact ⟨.inl ⟨k, keys _ k w hf hk, rfl⟩, (inFields _ k w hf hk).here, fieldsIH _ k w hf hk⟩
    · have hw := List.mem_of_getElem? hi
      exact ⟨.inr ⟨i, rfl⟩, (inItems _ w hs hw).here, itemsIH _ w hs hw⟩

theorem everywhere_of_scalar (h : ¬ IsContainer v) (here : V v) : Everywhere K V v := by
  rw [IsContainer, not_or, Option.not_isSome_iff_eq_none, Option.not_isSome_iff_eq_none] at h
  refine .of here ?_ ?_ ?_ <;> simp [h.1, h.2]

end TreeDelta.Report
