import TreeDelta.Value.Fields
import Mathlib.Data.List.Perm.Subperm
/-!
# Look-up in entries

What `Fields.get?` finds after `put` and `erase`, for any two keys, and how it follows membership
when no key stands twice. Keys that are one key may be spelled differently, so membership is
always up to `Key.same`.
-/

namespace TreeDelta

theorem Key.same_comm (k l : Key) : k.same l = l.same k := by
  simp [Key.same, eq_comm]

theorem Key.same_trans {k l m : Key} (h : k.same l = true) (h' : l.same m = true) :
    k.same m = true := by
  rw [Key.same_right h'] at h; exact h

/-- What stands in the first of two lists in step has its partner in the second. -/
theorem exists_of_forall₂ {α β : Type} {R : α → β → Prop} {as : List α} {bs : List β}
    (h : List.Forall₂ R as bs) {a : α} (ha : a ∈ as) : ∃ b ∈ bs, R a b := by
  induction h with
  | nil => cases ha
  | @cons a' b as bs hab _ ih =>
    rcases List.mem_cons.1 ha with rfl | ha
    · exact ⟨b, by simp, hab⟩
    · obtain ⟨b, hb, hab⟩ := ih ha
      exact ⟨b, by simp [hb], hab⟩

namespace Fields

variable {α : Type} {β : Type}

/-! ## Writing and erasing, for any two keys -/

theorem get?_put (k l : Key) (a : α) (fields : List (Key × α)) :
    get? k (put l a fields) = if k.same l then some a else get? k fields := by
  by_cases h : k.same l = true
  · rw [get?_congr h, get?_put_self, if_pos h]
  · rw [get?_put_other (by simpa using h), if_neg h]

theorem get?_erase (k l : Key) (fields : List (Key × α)) :
    get? k (erase l fields) = if k.same l then none else get? k fields := by
  by_cases h : k.same l = true
  · rw [get?_congr h, get?_erase_self, if_pos h]
  · rw [get?_erase_other (by simpa using h), if_neg h]

/-! ## Membership -/

theorem forall_cons {P : Key → α → Prop} {l : Key} {a : α} {rest : List (Key × α)} :
    (∀ k b, (k, b) ∈ (l, a) :: rest → P k b) ↔ P l a ∧ ∀ k b, (k, b) ∈ rest → P k b := by
  constructor
  · exact fun h => ⟨h l a (by simp), fun k b hb => h k b (by simp [hb])⟩
  · rintro ⟨ha, hr⟩ k b hb
    rcases List.mem_cons.1 hb with e | hb
    · cases e; exact ha
    · exact hr k b hb

theorem exists_mem_of_get? {k : Key} {a : α} {fields : List (Key × α)}
    (h : get? k fields = some a) : ∃ l, (l, a) ∈ fields ∧ k.same l = true := by
  induction fields with
  | nil => cases h
  | cons entry rest ih =>
    obtain ⟨l, b⟩ := entry
    rw [get?_cons] at h
    split at h
    · rename_i hl; cases h; exact ⟨l, by simp, hl⟩
    · obtain ⟨m, hm, hs⟩ := ih h; exact ⟨m, by simp [hm], hs⟩

theorem get?_ne_none_of_mem {l : Key} {a : α} {fields : List (Key × α)} (h : (l, a) ∈ fields) :
    get? l fields ≠ none := by
  induction fields with
  | nil => cases h
  | cons entry rest ih =>
    obtain ⟨m, b⟩ := entry
    rw [get?_cons]
    split
    · simp
    · rename_i hm
      rcases List.mem_cons.1 h with e | h
      · cases e; simp at hm
      · exact ih h

theorem eq_nil_of_get? {fields : List (Key × α)} (h : ∀ k, get? k fields = none) : fields = [] := by
  cases fields with
  | nil => rfl
  | cons entry rest => exact absurd (h entry.1) (get?_ne_none_of_mem (a := entry.2) (by simp))

theorem get?_none_of_forall {k : Key} {fields : List (Key × α)}
    (h : ∀ l a, (l, a) ∈ fields → k.same l = false) : get? k fields = none := by
  cases e : get? k fields with
  | none => rfl
  | some a =>
    obtain ⟨l, hl, hs⟩ := exists_mem_of_get? e
    simp [h l a hl] at hs

/-- Writing what is there changes nothing. -/
theorem put_of_get? {k : Key} {a : α} {fields : List (Key × α)} (h : get? k fields = some a) :
    put k a fields = fields := by
  induction fields with
  | nil => cases h
  | cons entry rest ih =>
    obtain ⟨m, b⟩ := entry
    rw [get?_cons] at h
    rw [put]
    split at h
    · rename_i hs
      cases h
      rw [if_pos hs]
    · rename_i hs
      rw [if_neg hs, ih h]

theorem put_put (k : Key) (a b : α) (fields : List (Key × α)) :
    put k a (put k b fields) = put k a fields := by
  induction fields with
  | nil => simp [put]
  | cons entry rest ih =>
    simp only [put]
    split
    · rename_i hs
      rw [put, if_pos hs]
    · rename_i hs
      rw [put, if_neg hs, ih]

/-- A key that is not there is written at the end. -/
theorem put_of_get?_none {k : Key} {fields : List (Key × α)} (h : get? k fields = none) (a : α) :
    put k a fields = fields ++ [(k, a)] := by
  induction fields with
  | nil => rfl
  | cons entry rest ih =>
    obtain ⟨m, b⟩ := entry
    rw [get?_cons] at h
    split at h
    · cases h
    · rename_i hs
      rw [put, if_neg hs, ih h, List.cons_append]

/-- Erasing what is not there changes nothing. -/
theorem erase_of_get? {k : Key} {fields : List (Key × α)} (h : get? k fields = none) :
    erase k fields = fields := by
  refine List.filter_eq_self.2 fun entry hm => ?_
  obtain ⟨m, b⟩ := entry
  have hne : get? m fields ≠ none := get?_ne_none_of_mem hm
  cases hs : k.same m with
  | false => simp [hs]
  | true => rw [← get?_congr hs] at hne; exact absurd h hne

theorem erase_put (k : Key) (a : α) (fields : List (Key × α)) :
    erase k (put k a fields) = erase k fields := by
  induction fields with
  | nil => simp [put, erase]
  | cons entry rest ih =>
    simp only [put]
    split
    · rename_i hs
      simp [erase, hs]
    · rename_i hs
      have skip : ∀ more, erase k (entry :: more) = entry :: erase k more := fun more => by simp [erase, hs]
      rw [skip, skip, ih]

theorem get?_append {l : Key} {a : α} {done : List (Key × α)} (h : get? l done = some a)
    (more : List (Key × α)) : get? l (done ++ more) = some a := by
  induction done with
  | nil => cases h
  | cons entry rest ih =>
    obtain ⟨m, b⟩ := entry
    rw [get?_cons] at h
    rw [List.cons_append, get?_cons]
    split at h
    · rename_i hs
      rw [if_pos hs, h]
    · rename_i hs
      rw [if_neg hs, ih h]

/-! ## No key twice -/

theorem distinct_cons {k : Key} {a : α} {rest : List (Key × α)} :
    Distinct ((k, a) :: rest) ↔ (∀ l b, (l, b) ∈ rest → k.same l = false) ∧ Distinct rest := by
  have e : (keys ((k, a) :: rest)).map Key.canon = k.canon :: (keys rest).map Key.canon := rfl
  rw [Distinct, e, List.nodup_cons, ← Distinct]
  refine and_congr_left fun _ => ?_
  simp only [keys, List.map_map, List.mem_map, Prod.exists, Function.comp, not_exists, not_and,
    Key.same, decide_eq_false_iff_not]
  exact forall_congr' fun l => forall_congr' fun b => forall_congr' fun _ => by rw [eq_comm]

/-- The key of the first entry stands in no other one. -/
theorem get?_rest_of_same {k l : Key} {a : α} {rest : List (Key × α)} (hd : Distinct ((l, a) :: rest))
    (h : k.same l = true) : get? k rest = none := by
  rw [get?_congr h]
  exact get?_none_of_forall (distinct_cons.1 hd).1

theorem apart_of_distinct {k l : Key} {a : α} {rest : List (Key × α)} (hd : Distinct ((k, a) :: rest))
    (hl : l ∈ keys rest) : k.same l = false := by
  obtain ⟨e, he, rfl⟩ := List.mem_map.1 hl
  exact (distinct_cons.1 hd).1 e.1 e.2 he

theorem distinct_single (k : Key) (a : α) : Distinct [(k, a)] :=
  distinct_cons.2 ⟨by simp, List.nodup_nil⟩

theorem distinct_append {k : Key} {a : α} {done rest : List (Key × α)}
    (hd : Distinct (done ++ (k, a) :: rest)) :
    Distinct done ∧ ∀ l b, (l, b) ∈ done → k.same l = false := by
  induction done with
  | nil => exact ⟨List.nodup_nil, by simp⟩
  | cons entry more ih =>
    obtain ⟨m, b⟩ := entry
    obtain ⟨hm, hd⟩ := distinct_cons.1 hd
    obtain ⟨ih1, ih2⟩ := ih hd
    refine ⟨distinct_cons.2 ⟨fun l c hl => hm l c (by simp [hl]), ih1⟩, forall_cons.2 ⟨?_, ih2⟩⟩
    rw [Key.same_comm]
    exact hm k a (by simp)

theorem get?_of_mem {l : Key} {a : α} {fields : List (Key × α)} (hd : Distinct fields)
    (h : (l, a) ∈ fields) : get? l fields = some a := by
  induction fields with
  | nil => cases h
  | cons entry rest ih =>
    obtain ⟨m, b⟩ := entry
    obtain ⟨hm, hd⟩ := distinct_cons.1 hd
    rw [get?_cons]
    rcases List.mem_cons.1 h with e | h
    · cases e; simp
    · rw [Key.same_comm, hm l a h]; simpa using ih hd h

theorem mem_put {k : Key} {a : α} {fields : List (Key × α)} {l : Key} {b : α}
    (h : (l, b) ∈ put k a fields) : (k.same l = true ∧ b = a) ∨ (l, b) ∈ fields := by
  induction fields with
  | nil => simp only [put, List.mem_singleton, Prod.mk.injEq] at h; simp [h.1, h.2]
  | cons entry rest ih =>
    obtain ⟨m, c⟩ := entry
    rw [put] at h
    split at h
    · rename_i hm
      rcases List.mem_cons.1 h with e | h
      · cases e; exact Or.inl ⟨hm, rfl⟩
      · exact Or.inr (by simp [h])
    · rcases List.mem_cons.1 h with e | h
      · exact Or.inr (by simp [e])
      · rcases ih h with hl | hl
        · exact Or.inl hl
        · exact Or.inr (by simp [hl])

/-- Writing an entry keeps what is known of all keys and of all values: a key that is there keeps its
spelling. -/
theorem forall_put {P : Key → Prop} {Q : α → Prop} {k : Key} {a : α} {fields : List (Key × α)}
    (h : ∀ l b, (l, b) ∈ fields → P l ∧ Q b) (hk : P k) (ha : Q a) :
    ∀ l b, (l, b) ∈ put k a fields → P l ∧ Q b := by
  induction fields with
  | nil => exact forall_cons.2 ⟨⟨hk, ha⟩, h⟩
  | cons entry rest ih =>
    obtain ⟨m, c⟩ := entry
    obtain ⟨hm, hr⟩ := forall_cons.1 h
    rw [put]
    split
    · exact forall_cons.2 ⟨⟨hm.1, ha⟩, hr⟩
    · exact forall_cons.2 ⟨hm, ih hr⟩

theorem distinct_put {k : Key} {a : α} {fields : List (Key × α)} (hd : Distinct fields) :
    Distinct (put k a fields) := by
  induction fields with
  | nil => simp [put, Distinct, keys]
  | cons entry rest ih =>
    obtain ⟨m, c⟩ := entry
    obtain ⟨hm, hr⟩ := distinct_cons.1 hd
    rw [put]
    split
    · exact distinct_cons.2 ⟨hm, hr⟩
    · rename_i hk
      refine distinct_cons.2 ⟨fun l b hl => ?_, ih hr⟩
      rcases mem_put hl with ⟨hs, _⟩ | hl
      · rw [← Key.same_right hs, Key.same_comm]; simpa using hk
      · exact hm l b hl

theorem distinct_filter {p : Key × α → Bool} {fields : List (Key × α)} (hd : Distinct fields) :
    Distinct (fields.filter p) := by
  have hs : ((fields.filter p).map (·.1)).map Key.canon |>.Sublist ((fields.map (·.1)).map Key.canon) :=
    (List.filter_sublist.map _).map _
  exact List.Nodup.sublist hs hd

theorem distinct_erase {k : Key} {fields : List (Key × α)} (hd : Distinct fields) :
    Distinct (erase k fields) := distinct_filter hd

theorem subperm_of_keys {fs : List (Key × α)} {gs : List (Key × β)} (hd : Distinct fs)
    (h : ∀ k, (get? k fs).isSome = true → (get? k gs).isSome = true) :
    List.Subperm ((keys fs).map Key.canon) ((keys gs).map Key.canon) := by
  refine List.Nodup.subperm hd fun c hc => ?_
  simp only [keys, List.map_map, List.mem_map, Prod.exists, Function.comp] at hc ⊢
  obtain ⟨l, a, hl, rfl⟩ := hc
  have hsome := h l (by simpa [Option.isSome_iff_ne_none] using get?_ne_none_of_mem hl)
  obtain ⟨b, hb⟩ := Option.isSome_iff_exists.1 hsome
  obtain ⟨m, hm, hs⟩ := exists_mem_of_get? hb
  exact ⟨m, b, hm, (Key.same_iff.1 hs).symm⟩

/-- A mapping whose keys another one has too has no more entries. -/
theorem length_le_of_keys {fs : List (Key × α)} {gs : List (Key × β)} (hd : Distinct fs)
    (h : ∀ k, (get? k fs).isSome = true → (get? k gs).isSome = true) : fs.length ≤ gs.length := by
  simpa [keys] using (subperm_of_keys hd h).length_le

theorem isSome_iff_mem {k : Key} {fs : List (Key × α)} :
    (get? k fs).isSome = true ↔ k.canon ∈ (keys fs).map Key.canon := by
  simp only [keys, List.map_map, List.mem_map, Prod.exists, Function.comp]
  constructor
  · intro h
    obtain ⟨a, ha⟩ := Option.isSome_iff_exists.1 h
    obtain ⟨l, hl, hs⟩ := exists_mem_of_get? ha
    exact ⟨l, a, hl, (Key.same_iff.1 hs).symm⟩
  · rintro ⟨l, a, hl, hs⟩
    rw [get?_congr (Key.same_iff.2 hs.symm)]
    simpa [Option.isSome_iff_ne_none] using get?_ne_none_of_mem hl

/-- Where all keys of a mapping are among those of one that is no longer, they are the same. -/
theorem isSome_of_length {fs : List (Key × α)} {gs : List (Key × β)} (hd : Distinct fs)
    (hl : gs.length ≤ fs.length)
    (h : ∀ k, (get? k fs).isSome = true → (get? k gs).isSome = true) (k : Key)
    (hk : (get? k gs).isSome = true) : (get? k fs).isSome = true := by
  have hp := (subperm_of_keys hd h).perm_of_length_le (by simpa [keys] using hl)
  exact isSome_iff_mem.2 (hp.mem_iff.2 (isSome_iff_mem.1 hk))

/-! ## Entries in another order, and other entries under the same keys -/

theorem distinct_perm {fs gs : List (Key × α)} (hp : gs.Perm fs) (hd : Distinct fs) : Distinct gs :=
  ((hp.map _).map _).nodup_iff.2 hd

/-- Look-up does not depend on the order of entries. -/
theorem get?_perm {fs gs : List (Key × α)} (hd : Distinct fs) (hp : gs.Perm fs) (k : Key) :
    get? k gs = get? k fs := by
  have hdg := distinct_perm hp hd
  cases h : get? k gs with
  | some a =>
    obtain ⟨l, hm, hs⟩ := exists_mem_of_get? h
    rw [get?_congr hs, get?_of_mem hd (hp.mem_iff.1 hm)]
  | none =>
    cases h' : get? k fs with
    | none => rfl
    | some a =>
      obtain ⟨l, hm, hs⟩ := exists_mem_of_get? h'
      rw [get?_congr hs, get?_of_mem hdg (hp.mem_iff.2 hm)] at h
      cases h

/-- Entries that are related place by place are related under every key. -/
theorem get?_rel {R : α → β → Prop} {fs : List (Key × α)} {gs : List (Key × β)}
    (h : List.Forall₂ (fun f g => f.1 = g.1 ∧ R f.2 g.2) fs gs) (k : Key) :
    Option.Rel R (get? k fs) (get? k gs) := by
  induction h with
  | nil => exact .none
  | @cons f g fs gs hfg _ ih =>
    obtain ⟨l, a⟩ := f
    obtain ⟨m, b⟩ := g
    obtain ⟨rfl, hab⟩ : l = m ∧ R a b := hfg
    rw [get?_cons, get?_cons]
    split
    · exact .some hab
    · exact ih

theorem keys_rel {R : α → β → Prop} {fs : List (Key × α)} {gs : List (Key × β)}
    (h : List.Forall₂ (fun f g => f.1 = g.1 ∧ R f.2 g.2) fs gs) : keys fs = keys gs := by
  induction h with
  | nil => rfl
  | cons hfg _ ih => simp only [keys, List.map_cons, hfg.1] at ih ⊢; rw [ih]

/-! ## The same keys with other entries -/

variable {f g : α → β}

theorem keys_mapValues (f : α → β) (fields : List (Key × α)) : keys (mapValues f fields) = keys fields := by
  simp [keys, mapValues]

theorem distinct_mapValues {fields : List (Key × α)} : Distinct (mapValues f fields) ↔ Distinct fields := by
  rw [Distinct, Distinct, keys_mapValues]

theorem mem_mapValues {l : Key} {b : β} {fields : List (Key × α)} :
    (l, b) ∈ mapValues f fields ↔ ∃ a, (l, a) ∈ fields ∧ f a = b := by
  simp [mapValues]

theorem get?_mapValues (f : α → β) (k : Key) (fields : List (Key × α)) :
    get? k (mapValues f fields) = (get? k fields).map f := by
  induction fields with
  | nil => rfl
  | cons entry rest ih =>
    obtain ⟨l, a⟩ := entry
    simp only [mapValues, List.map_cons, get?_cons] at ih ⊢
    split
    · rfl
    · exact ih

theorem mapValues_put (f : α → β) (k : Key) (a : α) (fields : List (Key × α)) :
    mapValues f (put k a fields) = put k (f a) (mapValues f fields) := by
  induction fields with
  | nil => rfl
  | cons entry rest ih =>
    simp only [mapValues, put, List.map_cons] at ih ⊢
    split
    · rfl
    · rw [List.map_cons, ih]

theorem mapValues_erase (f : α → β) (k : Key) (fields : List (Key × α)) :
    mapValues f (erase k fields) = erase k (mapValues f fields) := by
  simp only [mapValues, erase, List.filter_map]
  rfl

/-- What an entry was does not matter once it is written. -/
theorem put_mapValues_congr {k : Key} {fields : List (Key × α)} (distinct : Distinct fields)
    (h : ∀ l a, (l, a) ∈ fields → k.same l = false → f a = g a) (b : β) :
    put k b (mapValues f fields) = put k b (mapValues g fields) := by
  induction fields with
  | nil => rfl
  | cons entry rest ih =>
    obtain ⟨l, a⟩ := entry
    obtain ⟨here, there⟩ := forall_cons.1 h
    simp only [mapValues, List.map_cons, put] at ih ⊢
    split
    · rename_i hs
      refine congrArg _ (List.map_congr_left fun e he => congrArg _ (there e.1 e.2 he ?_))
      rw [← (distinct_cons.1 distinct).1 e.1 e.2 he]
      simp only [Key.same, Key.same_iff.1 hs]
    · rename_i hs
      rw [here (by simpa using hs), ih (distinct_cons.1 distinct).2 there]

theorem erase_mapValues_congr {k : Key} {fields : List (Key × α)}
    (h : ∀ l a, (l, a) ∈ fields → k.same l = false → f a = g a) :
    erase k (mapValues f fields) = erase k (mapValues g fields) := by
  rw [← mapValues_erase, ← mapValues_erase]
  refine List.map_congr_left fun e he => congrArg _ (h e.1 e.2 (List.mem_of_mem_filter he) ?_)
  simpa using List.of_mem_filter he

end Fields

end TreeDelta
