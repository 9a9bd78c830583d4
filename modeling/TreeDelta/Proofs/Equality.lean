import TreeDelta.Value.Equality
import TreeDelta.Proofs.Fields
/-!
# Laws of equality

`Value.equal` and `Value.same` are transitive, and what is the same is equal. `Value.equalItem` is
equality as elements of a mapping are compared; on mappings it is equality key by key.
-/

namespace TreeDelta.Value

/-! ## What a value can be equal to -/

theorem equal_of_tuple {a : Value} {as : List Value} (h : a.tuple? = some as) (b : Value) :
    equal a b = true ↔ ∃ bs, b.tuple? = some bs ∧ equalItems as bs = true := by
  cases a with
  | tuple items =>
    cases h
    rw [equal]
    cases b.tuple? <;> simp
  | op kind argument =>
    cases h
    rw [equal]
    cases hb : b.tuple? with
    | none => simp
    | some bs => rcases bs with _ | ⟨c, _ | ⟨d, _ | _⟩⟩ <;> simp [equalItems]
  | descend children =>
    cases h
    rw [equal]
    cases hb : b.tuple? with
    | none => simp
    | some bs => rcases bs with _ | ⟨c, _ | _⟩ <;> simp [equalItems]
  | _ => cases h

theorem equal_of_numeric {a : Value} {x : Exact} (h : a.numeric? = some x) (b : Value) :
    equal a b = true ↔ b.numeric? = some x := by
  cases a with
  | bool | int | float =>
    simp only [numeric?, number?, Option.some.injEq] at h
    subst h
    cases b <;> simp [equal, numeric?, number?, eq_comm]
  | _ => cases h

theorem equal_of_list {i : Ident} {as : List Value} {b : Value} :
    equal (list i as) b = true ↔ ∃ j bs, b = list j bs ∧ equalItems as bs = true := by
  cases b <;> simp [equal, numeric?, number?]

theorem equal_of_set {i : Ident} {as : List Key} {b : Value} :
    equal (set i as) b = true ↔
      ∃ j bs, b = set j bs ∧ as.length = bs.length ∧ as.all (fun k => bs.any k.same) = true := by
  cases b <;> simp [equal, numeric?, number?]

theorem equal_of_map {i : Ident} {as : List (Key × Value)} {b : Value} :
    equal (map i as) b = true ↔
      ∃ j bs, b = map j bs ∧ as.length = bs.length ∧ equalFields as bs = true := by
  cases b <;> simp [equal, numeric?, number?]

theorem equal_of_node {i : Ident} {k o n b : Value} :
    equal (node i k o n) b = true ↔
      ∃ j l p m, b = node j l p m ∧ equal k l = true ∧ equal o p = true ∧ equal n m = true := by
  cases b <;> simp [equal, numeric?, number?, and_assoc]

/-- A value without parts that is no number is equal to itself only. -/
theorem eq_of_equal {a b : Value} (key : a.toKey?.isSome = true) (number : a.numeric? = none)
    (tuple : a.tuple? = none) (h : equal a b = true) : a = b := by
  cases a with
  | absent | null | nan | str | fn => cases b <;> simp [equal, numeric?, number?] at h <;> simp [h]
  | bool | int | float => cases number
  | tuple | op | descend => cases tuple
  | list | set | map | node => cases key

/-! ## Equal items and entries -/

theorem equalItem_iff {a b : Value} : equalItem a b = true ↔ a = b ∨ equal a b = true := by
  rw [equalItem]; simp

@[simp] theorem equalItem_self (a : Value) : equalItem a a = true := equalItem_iff.2 (Or.inl rfl)

theorem equalItems_self (items : List Value) : equalItems items items = true := by
  induction items with
  | nil => simp [equalItems]
  | cons v rest ih => simp [equalItems, ih]

theorem equalFields_iff {as bs : List (Key × Value)} :
    equalFields as bs = true ↔
      ∀ k a, (k, a) ∈ as → ∃ b, Fields.get? k bs = some b ∧ equalItem a b = true := by
  induction as with
  | nil => simp [equalFields]
  | cons entry rest ih =>
    rw [equalFields, Bool.and_eq_true, ih, Fields.forall_cons]
    refine and_congr_left fun _ => ?_
    cases Fields.get? entry.1 bs <;> simp

theorem equalItem_trans_of {a : Value} (h : ∀ b c, equal a b = true → equal b c = true → equal a c = true)
    {b c : Value} (hab : equalItem a b = true) (hbc : equalItem b c = true) : equalItem a c = true := by
  rcases equalItem_iff.1 hab with rfl | hab
  · exact hbc
  · rcases equalItem_iff.1 hbc with rfl | hbc
    · exact equalItem_iff.2 (Or.inr hab)
    · exact equalItem_iff.2 (Or.inr (h b c hab hbc))

mutual
theorem equal_trans (a b c : Value) (h : equal a b = true) (h' : equal b c = true) :
    equal a c = true := by
  cases a with
  | tuple as =>
    obtain ⟨bs, hb, h⟩ := (equal_of_tuple rfl b).1 h
    obtain ⟨cs, hc, h'⟩ := (equal_of_tuple hb c).1 h'
    exact (equal_of_tuple rfl c).2 ⟨cs, hc, equalItems_trans as bs cs h h'⟩
  | op kind argument =>
    obtain ⟨bs, hb, h⟩ := (equal_of_tuple rfl b).1 h
    obtain ⟨cs, hc, h'⟩ := (equal_of_tuple hb c).1 h'
    refine (equal_of_tuple rfl c).2 ⟨cs, hc, ?_⟩
    match bs, cs with
    | [b₁, b₂], [c₁, c₂] =>
      simp only [equalItems, Bool.and_eq_true, Bool.and_true] at h h' ⊢
      exact ⟨equalItem_trans_of (equal_trans kind) h.1 h'.1,
        equalItem_trans_of (equal_trans argument) h.2 h'.2⟩
    | [_, _], [] | [_, _], [_] | [_, _], _ :: _ :: _ :: _ => simp [equalItems] at h'
    | [], _ | [_], _ | _ :: _ :: _ :: _, _ => simp [equalItems] at h
  | descend children =>
    obtain ⟨bs, hb, h⟩ := (equal_of_tuple rfl b).1 h
    obtain ⟨cs, hc, h'⟩ := (equal_of_tuple hb c).1 h'
    refine (equal_of_tuple rfl c).2 ⟨cs, hc, ?_⟩
    match bs, cs with
    | [b₁], [c₁] =>
      simp only [equalItems, Bool.and_true] at h h' ⊢
      exact equalItem_trans_of (equal_trans children) h h'
    | [_], [] | [_], _ :: _ :: _ => simp [equalItems] at h'
    | [], _ | _ :: _ :: _, _ => simp [equalItems] at h
  | bool | int | float =>
    have hb := (equal_of_numeric rfl b).1 h
    exact (equal_of_numeric rfl c).2 ((equal_of_numeric hb c).1 h')
  | list i as =>
    obtain ⟨j, bs, rfl, hab⟩ := equal_of_list.1 h
    obtain ⟨l, cs, rfl, hbc⟩ := equal_of_list.1 h'
    exact equal_of_list.2 ⟨l, cs, rfl, equalItems_trans as bs cs hab hbc⟩
  | set i as =>
    obtain ⟨j, bs, rfl, hl, hab⟩ := equal_of_set.1 h
    obtain ⟨l, cs, rfl, hl', hbc⟩ := equal_of_set.1 h'
    simp only [List.all_eq_true, List.any_eq_true] at hab hbc
    refine equal_of_set.2 ⟨l, cs, rfl, hl.trans hl', List.all_eq_true.2 fun k hk => ?_⟩
    obtain ⟨k', hk', hs⟩ := hab k hk
    obtain ⟨k'', hk'', hs'⟩ := hbc k' hk'
    exact List.any_eq_true.2 ⟨k'', hk'', Key.same_trans hs hs'⟩
  | map i as =>
    obtain ⟨j, bs, rfl, hl, hab⟩ := equal_of_map.1 h
    obtain ⟨l, cs, rfl, hl', hbc⟩ := equal_of_map.1 h'
    exact equal_of_map.2 ⟨l, cs, rfl, hl.trans hl', equalFields_trans as bs cs hab hbc⟩
  | node i k o n =>
    obtain ⟨j, k', o', n', rfl, hk, ho, hn⟩ := equal_of_node.1 h
    obtain ⟨l, k'', o'', n'', rfl, hk', ho', hn'⟩ := equal_of_node.1 h'
    exact equal_of_node.2 ⟨l, k'', o'', n'', rfl, equal_trans k k' k'' hk hk',
      equal_trans o o' o'' ho ho', equal_trans n n' n'' hn hn'⟩
  | absent | null | nan | str | fn =>
    cases eq_of_equal rfl rfl rfl h
    exact h'

theorem equalItems_trans (as bs cs : List Value) (h : equalItems as bs = true)
    (h' : equalItems bs cs = true) : equalItems as cs = true := by
  match as, bs, cs with
  | [], [], cs => exact h'
  | [], _ :: _, _ | _ :: _, [], _ => simp [equalItems] at h
  | _ :: _, _ :: _, [] => simp [equalItems] at h'
  | a :: as, b :: bs, c :: cs =>
    simp only [equalItems, Bool.and_eq_true] at h h' ⊢
    exact ⟨equalItem_trans_of (equal_trans a) h.1 h'.1, equalItems_trans as bs cs h.2 h'.2⟩

theorem equalFields_trans (as bs cs : List (Key × Value)) (h : equalFields as bs = true)
    (h' : equalFields bs cs = true) : equalFields as cs = true := by
  match as with
  | [] => rw [equalFields]
  | (k, a) :: as =>
    have hk := equalFields_iff.1 h
    obtain ⟨b, hb, hab⟩ := hk k a (by simp)
    obtain ⟨l, hl, hs⟩ := Fields.exists_mem_of_get? hb
    obtain ⟨c, hc, hbc⟩ := equalFields_iff.1 h' l b hl
    rw [equalFields, Fields.get?_congr hs, hc, Bool.and_eq_true]
    refine ⟨equalItem_trans_of (equal_trans a) hab hbc, equalFields_trans as bs cs ?_ h'⟩
    rw [equalFields, Bool.and_eq_true] at h
    exact h.2
end

theorem equalItem_trans {a b c : Value} (h : equalItem a b = true) (h' : equalItem b c = true) :
    equalItem a c = true := equalItem_trans_of (equal_trans a) h h'

/-! ## What equal values have in common -/

theorem type_of_equal {a b : Value} (h : equal a b = true) :
    a.isAbsent = b.isAbsent ∧ (a = absent ↔ b = absent) ∧
      (a.fields?.isSome = b.fields?.isSome) := by
  cases a with
  | tuple | op | descend =>
    obtain ⟨bs, hb, -⟩ := (equal_of_tuple rfl b).1 h
    cases b with
    | tuple | op | descend => exact ⟨rfl, by simp, rfl⟩
    | _ => cases hb
  | bool | int | float =>
    have hb := (equal_of_numeric rfl b).1 h
    cases b with
    | bool | int | float => exact ⟨rfl, by simp, rfl⟩
    | _ => cases hb
  | list => obtain ⟨j, bs, rfl, -⟩ := equal_of_list.1 h; exact ⟨rfl, by simp, rfl⟩
  | set => obtain ⟨j, bs, rfl, -⟩ := equal_of_set.1 h; exact ⟨rfl, by simp, rfl⟩
  | map => obtain ⟨j, bs, rfl, -⟩ := equal_of_map.1 h; exact ⟨rfl, by simp, rfl⟩
  | node => obtain ⟨j, k, o, n, rfl, -⟩ := equal_of_node.1 h; exact ⟨rfl, by simp, rfl⟩
  | absent | null | nan | str | fn =>
    cases eq_of_equal rfl rfl rfl h
    exact ⟨rfl, Iff.rfl, rfl⟩

/-- Mappings that hold each key once are equal if they are key by key. -/
theorem equal_map {i j : Ident} {as bs : List (Key × Value)} (ha : Fields.Distinct as)
    (hb : Fields.Distinct bs) :
    equal (map i as) (map j bs) = true ↔
      (∀ k, (Fields.get? k as).isSome = (Fields.get? k bs).isSome) ∧
      ∀ k a b, Fields.get? k as = some a → Fields.get? k bs = some b → equalItem a b = true := by
  rw [equal, Bool.and_eq_true, decide_eq_true_eq, equalFields_iff]
  constructor
  · rintro ⟨hl, h⟩
    have honto : ∀ k, (Fields.get? k as).isSome = true → (Fields.get? k bs).isSome = true := by
      intro k hk
      obtain ⟨a, hka⟩ := Option.isSome_iff_exists.1 hk
      obtain ⟨l, hm, hs⟩ := Fields.exists_mem_of_get? hka
      obtain ⟨b, hkb, -⟩ := h l a hm
      rw [Fields.get?_congr hs, hkb]; rfl
    refine ⟨fun k => ?_, fun k a b hka hkb => ?_⟩
    · rw [Bool.eq_iff_iff]
      exact ⟨honto k, Fields.isSome_of_length ha (Nat.le_of_eq hl.symm) honto k⟩
    · obtain ⟨l, hm, hs⟩ := Fields.exists_mem_of_get? hka
      obtain ⟨b', hb', he⟩ := h l a hm
      rw [Fields.get?_congr hs, hb'] at hkb
      cases hkb; exact he
  · rintro ⟨hk, h⟩
    refine ⟨?_, fun k a hm => ?_⟩
    · exact Nat.le_antisymm (Fields.length_le_of_keys ha fun k hka => hk k ▸ hka)
        (Fields.length_le_of_keys hb fun k hkb => (hk k).symm ▸ hkb)
    · have hka := Fields.get?_of_mem ha hm
      obtain ⟨b, hkb⟩ := Option.isSome_iff_exists.1 (by rw [← hk k, hka]; rfl)
      exact ⟨b, hkb, h k a b hka hkb⟩

/-! ## Sameness -/

/-- A number and a value of its type that is none are not equal. -/
theorem equal_of_number_of_type {a b : Value} (hn : a.number?.isSome ≠ b.number?.isSome)
    (ht : a.type = b.type) : equal a b = false := by
  cases a <;> cases b <;>
    first | (cases ht; done) | exact absurd rfl hn | simp [equal, numeric?, number?]

theorem same_iff {a b : Value} : a.same b = true ↔
    a = b ∨ (a.isContainer = false ∧ b.isContainer = false ∧
      ((∃ x, a.number? = some x ∧ b.number? = some x) ∨
        (a.number? = none ∧ b.number? = none ∧ a.type = b.type ∧ equal a b = true))) := by
  rw [same, Bool.or_eq_true, decide_eq_true_eq, Bool.and_eq_true, Bool.and_eq_true, Bool.not_eq_true',
    Bool.not_eq_true', and_assoc]
  refine or_congr_right (and_congr_right fun _ => and_congr_right fun _ => ?_)
  have mixed := @equal_of_number_of_type a b
  cases ha : a.number? with
  | some x =>
    cases hb : b.number? with
    | some y =>
      simp only [decide_eq_true_eq, Option.some.injEq, exists_eq_left', reduceCtorEq, false_and, or_false]
      exact eq_comm
    | none => simpa using fun ht => mixed (by simp [ha, hb]) ht
  | none =>
    cases hb : b.number? with
    | some y => simpa using fun ht => mixed (by simp [ha, hb]) ht
    | none => simp

theorem same_trans {a b c : Value} (h : a.same b = true) (h' : b.same c = true) : a.same c = true := by
  rcases same_iff.1 h with rfl | ⟨ha, hb, h⟩
  · exact h'
  rcases same_iff.1 h' with rfl | ⟨-, hc, h'⟩
  · exact same_iff.2 (Or.inr ⟨ha, hb, h⟩)
  refine same_iff.2 (Or.inr ⟨ha, hc, ?_⟩)
  rcases h with ⟨x, hx, hy⟩ | ⟨hx, hy, ht, he⟩
  · rcases h' with ⟨y, hy', hz⟩ | ⟨hy', -⟩
    · rw [hy] at hy'; cases hy'; exact Or.inl ⟨x, hx, hz⟩
    · rw [hy] at hy'; cases hy'
  · rcases h' with ⟨y, hy', -⟩ | ⟨-, hz, ht', he'⟩
    · rw [hy] at hy'; cases hy'
    · exact Or.inr ⟨hx, hz, ht.trans ht', equal_trans a b c he he'⟩

theorem numeric_of_number {a : Value} {x : Exact} (h : a.number? = some x) : a.numeric? = some x := by
  cases a <;> first | exact h | cases h

/-- What counts as unchanged is equal. -/
theorem equalItem_of_same {a b : Value} (h : a.same b = true) : equalItem a b = true := by
  rcases same_iff.1 h with rfl | ⟨-, -, ⟨x, ha, hb⟩ | ⟨-, -, -, he⟩⟩
  · exact equalItem_self a
  · exact equalItem_iff.2 (Or.inr
      ((equal_of_numeric (numeric_of_number ha) b).2 (numeric_of_number hb)))
  · exact equalItem_iff.2 (Or.inr he)

/-- Nothing that is there is the same as something absent. -/
theorem eq_absent_of_same {v : Value} (h : v.same absent = true) : v = absent := by
  rcases equalItem_iff.1 (equalItem_of_same h) with rfl | he
  · rfl
  · exact (type_of_equal he).2.1.2 rfl

end TreeDelta.Value
