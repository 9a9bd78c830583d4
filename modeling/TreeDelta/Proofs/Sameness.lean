import TreeDelta.Proofs.Number.Exact
import TreeDelta.Proofs.Symmetry
/-!
# Sameness is an equivalence that refines equality

`Value.same` is reflexive, symmetric and transitive on regular values, whatever mixture of objects, numbers
and scalars is compared, and two objects that are the same are equal. Only one object need not equal itself:
NaN, and a change node that holds it. On numbers, sameness is equality of exact amounts.
-/

namespace TreeDelta

namespace Value

/-- The value says which object it is, so that two objects are never one such value. The others are their
content, which any number of objects can have. -/
def hasIdentity : Value → Bool
  | nan _ | list .. | set .. | map .. | fn _ | node .. => true
  | _ => false

/-- Two different objects can be these values. -/
def MayDiffer (a b : Value) : Prop := a = b → a.hasIdentity = false

/-- Two objects of one content are equal. -/
theorem equal_self {a : Value} (h : a.hasIdentity = false) : equal a a = true := by
  cases a with
  | tuple items => exact (equal_of_tuple rfl _).2 ⟨items, rfl, equalItems_self items⟩
  | op kind argument => exact (equal_of_tuple rfl _).2 ⟨_, rfl, equalItems_self _⟩
  | descend children => exact (equal_of_tuple rfl _).2 ⟨_, rfl, equalItems_self _⟩
  | bool | int | float => exact (equal_of_numeric rfl _).2 rfl
  | absent | null | str => simp [equal]
  | _ => cases h

/-- Objects that are the same are equal unless they are one. -/
theorem equal_of_same {a b : Value} (h : a.same b = true) (hd : a.MayDiffer b) : equal a b = true := by
  rcases equalItem_iff.1 (equalItem_of_same h) with rfl | he
  · exact equal_self (hd rfl)
  · exact he

theorem exists_number_of_amount {a : Value} {x : Amount} (h : a.amount? = some x) :
    ∃ n, a.number? = some n ∧ n.amount = x := by
  rw [← amount_of_number] at h
  exact Option.map_eq_some_iff.1 h

/-- A number is the same as the numbers of its amount, and as nothing else. -/
theorem same_of_amount {a : Value} {x : Amount} (h : a.amount? = some x) (b : Value) :
    a.same b = true ↔ b.amount? = some x := by
  obtain ⟨n, hn, hx⟩ := exists_number_of_amount h
  constructor
  · intro hs
    rcases same_iff.1 hs with rfl | ⟨-, -, ⟨m, ha, hb⟩ | ⟨ha, -⟩⟩
    · exact h
    · rw [ha] at hn
      cases hn
      rw [← amount_of_number, hb, Option.map_some, hx]
    · rw [ha] at hn
      cases hn
  · intro hb
    obtain ⟨m, hm, hy⟩ := exists_number_of_amount hb
    obtain rfl : n = m := Exact.amount_injective (hx.trans hy.symm)
    -- Numbers are no containers, so the comparison gets to their units.
    have hc : ∀ {v : Value}, v.number? = some n → v.isContainer = false := by
      intro v hv
      cases v <;> first | rfl | cases hv
    exact same_iff.2 (Or.inr ⟨hc hn, hc hm, Or.inl ⟨n, hn, hm⟩⟩)

/-- NaN is the same as itself only, not even as another NaN. -/
theorem same_nan (i : Ident) (b : Value) : (nan i).same b = true ↔ b = nan i := by
  constructor
  · intro h
    rcases same_iff.1 h with rfl | ⟨-, -, ⟨n, hn, -⟩ | ⟨-, -, -, he⟩⟩
    · rfl
    · cases hn
    · exact (eq_of_equal rfl rfl rfl he).symm
  · rintro rfl
    exact same_self _

/-- Sameness is an equivalence relation on regular values. Two objects that are the same are equal; numbers
are the same if their exact amounts are, and NaN is the same as itself only. -/
theorem same_equivalence_refines_equal :
    Equivalence (fun a b : {v : Value // v.regular = true} => a.1.same b.1 = true) ∧
    (∀ a b : Value, a.same b = true → a.MayDiffer b → equal a b = true) ∧
    (∀ (a b : Value) (x : Amount), a.amount? = some x → (a.same b = true ↔ b.amount? = some x)) ∧
    (∀ (i : Ident) (b : Value), (nan i).same b = true ↔ b = nan i) := by
  refine ⟨⟨fun a => same_self a.1, fun {a b} h => same_symm a.2 b.2 h, fun h h' => same_trans h h'⟩,
    fun a b => equal_of_same, fun a b x h => same_of_amount h b, same_nan⟩

/-- A pair of one and NaN is the same as the pair of true and that NaN, though NaN does not equal itself;
the double one is the whole number one. -/
theorem same_equivalence_refines_equal_of_one :
    (tuple [bool true, nan default]).same (tuple [int 1, nan default]) = true ∧
    equal (tuple [int 1, nan default]) (tuple [bool true, nan default]) = true ∧
    equal (nan default) (nan default) = false ∧
    (float (.finite false ⟨1023 * fractionCount, by decide⟩)).amount? = (int 1).amount? ∧
    (nan default).same (nan ⟨1, []⟩) = false := by
  obtain ⟨hequiv, hequal, hamount, hnan⟩ := same_equivalence_refines_equal
  have h : (tuple [int 1, nan default]).same (tuple [bool true, nan default]) = true := by
    simp [same, isContainer, number?, type, equal, equalItems, equalItem, numeric?, tuple?]
  have hone : (int 1).same (float (.finite false ⟨1023 * fractionCount, by decide⟩)) = true := by
    decide +kernel
  refine ⟨hequiv.symm (x := ⟨_, by decide⟩) (y := ⟨_, by decide⟩) h, hequal _ _ h (by simp [MayDiffer]),
    by simp [equal, numeric?, number?], (hamount (int 1) _ _ rfl).1 hone, ?_⟩
  rw [Bool.eq_false_iff, ne_eq, hnan]
  decide

end Value

end TreeDelta
