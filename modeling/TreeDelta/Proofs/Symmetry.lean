import TreeDelta.Proofs.Equality
import TreeDelta.Proofs.Shape
/-!
# Equality is symmetric

`Value.equal` goes through the elements of its first argument, so it is symmetric only between
values whose sets and mappings hold each key once, which `Value.regular` says. For a set the two
directions are joined by counting: as many keys, all of which the other set has, are its keys.
-/

namespace TreeDelta

namespace Value

mutual
/-- Every set and every mapping in the value holds each key once. -/
def regular : Value → Bool
  | list _ items | tuple items => regularItems items
  | set _ items => decide (items.map Key.canon).Nodup
  | map _ fields => decide (Fields.Distinct fields) && regularFields fields
  | node _ label old new => label.regular && old.regular && new.regular
  | op kind argument => kind.regular && argument.regular
  | descend children => children.regular
  | _ => true

def regularItems : List Value → Bool
  | [] => true
  | v :: rest => v.regular && regularItems rest

def regularFields : List (Key × Value) → Bool
  | [] => true
  | (_, v) :: rest => v.regular && regularFields rest
end

theorem regularFields_iff {fields : List (Key × Value)} :
    regularFields fields = true ↔ ∀ k v, (k, v) ∈ fields → v.regular = true := by
  induction fields with
  | nil => simp [regularFields]
  | cons entry rest ih => rw [regularFields, Bool.and_eq_true, ih, Fields.forall_cons]

theorem regular_map {id : Ident} {fields : List (Key × Value)} :
    (map id fields).regular = true ↔
      Fields.Distinct fields ∧ ∀ k v, (k, v) ∈ fields → v.regular = true := by
  simp [regular, regularFields_iff]

theorem regular_of_get? {id : Ident} {fields : List (Key × Value)} {k : Key} {v : Value}
    (h : (map id fields).regular = true) (hk : Fields.get? k fields = some v) :
    v.regular = true := by
  obtain ⟨l, hl, -⟩ := Fields.exists_mem_of_get? hk
  exact (regular_map.1 h).2 l v hl

theorem regular_of_tuple {v : Value} {items : List Value} (h : v.regular = true)
    (ht : v.tuple? = some items) : regularItems items = true := by
  cases v with
  | tuple => cases ht; simpa [regular] using h
  | op | descend => cases ht; simpa [regular, regularItems] using h
  | _ => cases ht

/-! ## Symmetry -/

/-- Sets of as many keys, each of the first being one of the second, have the same keys. -/
theorem any_same_symm {as bs : List Key} (ha : (as.map Key.canon).Nodup)
    (hl : as.length = bs.length) (h : as.all (fun k => bs.any k.same) = true) :
    bs.all (fun k => as.any k.same) = true := by
  have hsub : ∀ c ∈ as.map Key.canon, c ∈ bs.map Key.canon := by
    intro c hc
    obtain ⟨k, hk, rfl⟩ := List.mem_map.1 hc
    obtain ⟨l, hm, hs⟩ := List.any_eq_true.1 (List.all_eq_true.1 h k hk)
    exact List.mem_map.2 ⟨l, hm, (Key.same_iff.1 hs).symm⟩
  have hp : (as.map Key.canon).Perm (bs.map Key.canon) :=
    (List.Nodup.subperm ha hsub).perm_of_length_le (by simp [hl])
  refine List.all_eq_true.2 fun l hm => ?_
  obtain ⟨k, hk, e⟩ := List.mem_map.1 (hp.mem_iff.2 (List.mem_map_of_mem (f := Key.canon) hm))
  exact List.any_eq_true.2 ⟨k, hk, Key.same_iff.2 e.symm⟩

theorem equalItem_symm_of {a b : Value} (h : equal a b = true → equal b a = true)
    (hab : equalItem a b = true) : equalItem b a = true := by
  rcases equalItem_iff.1 hab with rfl | hab
  · exact equalItem_self a
  · exact equalItem_iff.2 (Or.inr (h hab))

mutual
theorem equal_symm (a b : Value) (ha : a.regular = true) (hb : b.regular = true)
    (h : equal a b = true) : equal b a = true := by
  cases a with
  | tuple as =>
    obtain ⟨bs, ht, h⟩ := (equal_of_tuple rfl b).1 h
    exact (equal_of_tuple ht _).2
      ⟨as, rfl, equalItems_symm as bs (regular_of_tuple ha rfl) (regular_of_tuple hb ht) h⟩
  | op kind argument =>
    obtain ⟨bs, ht, h⟩ := (equal_of_tuple rfl b).1 h
    refine (equal_of_tuple ht _).2 ⟨_, rfl, ?_⟩
    have hbs := regular_of_tuple hb ht
    simp only [regular, Bool.and_eq_true] at ha
    match bs with
    | [c, d] =>
      simp only [equalItems, regularItems, Bool.and_eq_true, Bool.and_true] at h hbs ⊢
      exact ⟨equalItem_symm_of (equal_symm kind c ha.1 hbs.1) h.1,
        equalItem_symm_of (equal_symm argument d ha.2 hbs.2) h.2⟩
    | [] | [_] | _ :: _ :: _ :: _ => simp [equalItems] at h
  | descend children =>
    obtain ⟨bs, ht, h⟩ := (equal_of_tuple rfl b).1 h
    refine (equal_of_tuple ht _).2 ⟨_, rfl, ?_⟩
    have hbs := regular_of_tuple hb ht
    simp only [regular] at ha
    match bs with
    | [c] =>
      simp only [equalItems, regularItems, Bool.and_true] at h hbs ⊢
      exact equalItem_symm_of (equal_symm children c ha hbs) h
    | [] | _ :: _ :: _ => simp [equalItems] at h
  | bool | int | float =>
    have hx := (equal_of_numeric rfl b).1 h
    exact (equal_of_numeric hx _).2 rfl
  | list i as =>
    obtain ⟨j, bs, rfl, hab⟩ := equal_of_list.1 h
    simp only [regular] at ha hb
    exact equal_of_list.2 ⟨i, as, rfl, equalItems_symm as bs ha hb hab⟩
  | set i as =>
    obtain ⟨j, bs, rfl, hl, hab⟩ := equal_of_set.1 h
    simp only [regular, decide_eq_true_eq] at ha
    exact equal_of_set.2 ⟨i, as, rfl, hl.symm, any_same_symm ha hl hab⟩
  | map i as =>
    obtain ⟨j, bs, rfl, -, -⟩ := equal_of_map.1 h
    obtain ⟨hda, hra⟩ := regular_map.1 ha
    obtain ⟨hdb, hrb⟩ := regular_map.1 hb
    obtain ⟨hk, hab⟩ := (equal_map hda hdb).1 h
    refine (equal_map hdb hda).2 ⟨fun k => (hk k).symm, fun k b a hkb hka => ?_⟩
    obtain ⟨l, hl, -⟩ := Fields.exists_mem_of_get? hka
    exact equalItem_symm_of (equalFields_symm as l a hl b (hra l a hl) (regular_of_get? hb hkb))
      (hab k a b hka hkb)
  | node i k o n =>
    obtain ⟨j, l, p, m, rfl, hk, ho, hn⟩ := equal_of_node.1 h
    simp only [regular, Bool.and_eq_true] at ha hb
    exact equal_of_node.2 ⟨i, k, o, n, rfl, equal_symm k l ha.1.1 hb.1.1 hk,
      equal_symm o p ha.1.2 hb.1.2 ho, equal_symm n m ha.2 hb.2 hn⟩
  | absent | null | nan | str | fn =>
    cases eq_of_equal rfl rfl rfl h
    exact h

theorem equalItems_symm (as bs : List Value) (ha : regularItems as = true)
    (hb : regularItems bs = true) (h : equalItems as bs = true) : equalItems bs as = true := by
  match as, bs with
  | [], [] => exact h
  | [], _ :: _ | _ :: _, [] => simp [equalItems] at h
  | a :: as, b :: bs =>
    simp only [equalItems, regularItems, Bool.and_eq_true] at h ha hb ⊢
    exact ⟨equalItem_symm_of (equal_symm a b ha.1 hb.1) h.1, equalItems_symm as bs ha.2 hb.2 h.2⟩

theorem equalFields_symm (as : List (Key × Value)) (k : Key) (a : Value) (hm : (k, a) ∈ as)
    (b : Value) (ha : a.regular = true) (hb : b.regular = true) (h : equal a b = true) :
    equal b a = true := by
  match as with
  | (l, c) :: rest =>
    by_cases e : (k, a) = (l, c)
    · cases e; exact equal_symm a b ha hb h
    · exact equalFields_symm rest k a (by simpa [e] using hm) b ha hb h
end

/-- Counting as unchanged goes both ways. -/
theorem same_symm {a b : Value} (ha : a.regular = true) (hb : b.regular = true)
    (h : a.same b = true) : b.same a = true := by
  rcases same_iff.1 h with rfl | ⟨hca, hcb, h⟩
  · exact same_self a
  · refine same_iff.2 (Or.inr ⟨hcb, hca, ?_⟩)
    rcases h with ⟨x, hx, hy⟩ | ⟨hx, hy, ht, he⟩
    · exact Or.inl ⟨x, hy, hx⟩
    · exact Or.inr ⟨hy, hx, ht.symm, equal_symm a b ha hb he⟩

end Value

end TreeDelta
