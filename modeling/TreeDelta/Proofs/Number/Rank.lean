import TreeDelta.Number.Decimal
import Mathlib.Tactic.Positivity
import Mathlib.Tactic.Ring
/-!
# Rounding to the nearest double

`rankBelow` inverts `unitsOfRank`, which grows with the rank; so rounding gives a double's own rank
back (`nearestRank_units`). Rounding looks at a quotient only (`nearestRank_scale`), which is zero
below half a unit (`nearestRank_tiny`) and infinite far enough up (`rankLimit_le_nearestRank`).
-/

namespace TreeDelta

theorem fractionCount_eq : fractionCount = 2 ^ 52 := rfl

theorem fractionCount_pos : 0 < fractionCount := by rw [fractionCount_eq]; positivity

theorem unitsOfRank_small {rank : Nat} (h : rank < 2 * fractionCount) : unitsOfRank rank = rank :=
  if_pos h

theorem unitsOfRank_large {rank : Nat} (h : 2 * fractionCount ≤ rank) :
    unitsOfRank rank =
      (fractionCount + rank % fractionCount) * 2 ^ (rank / fractionCount - 1) :=
  if_neg (by omega)

/-- The units of a rank have as many binary digits as the step and the fraction make. -/
theorem log2_unitsOfRank {rank : Nat} (h : 2 * fractionCount ≤ rank) :
    (unitsOfRank rank).log2 = 52 + (rank / fractionCount - 1) := by
  have hf : rank % fractionCount < fractionCount := Nat.mod_lt _ fractionCount_pos
  have hp : 0 < 2 ^ (rank / fractionCount - 1) := by positivity
  rw [unitsOfRank_large h]
  have hne : (fractionCount + rank % fractionCount) * 2 ^ (rank / fractionCount - 1) ≠ 0 := by
    have := fractionCount_pos
    positivity
  rw [Nat.log2_eq_iff hne]
  constructor
  · rw [pow_add, ← fractionCount_eq]
    exact Nat.mul_le_mul_right _ (by omega)
  · have e : 2 ^ (52 + (rank / fractionCount - 1) + 1) =
        2 * fractionCount * 2 ^ (rank / fractionCount - 1) := by
      rw [fractionCount_eq]; ring
    rw [e]
    exact Nat.mul_lt_mul_of_pos_right (by omega) hp

theorem two_le_div {rank : Nat} (h : 2 * fractionCount ≤ rank) : 2 ≤ rank / fractionCount := by
  rw [Nat.le_div_iff_mul_le fractionCount_pos]
  exact h

/-- A double's rank is the greatest one not above its units. -/
theorem rankBelow_unitsOfRank (rank : Nat) : rankBelow (unitsOfRank rank) = rank := by
  by_cases h : rank < 2 * fractionCount
  · rw [unitsOfRank_small h]
    exact if_pos h
  · have h : 2 * fractionCount ≤ rank := by omega
    have hq := two_le_div h
    have hlog := log2_unitsOfRank h
    have hunits := unitsOfRank_large h
    have hp : 2 ≤ 2 ^ (rank / fractionCount - 1) := by
      calc 2 = 2 ^ 1 := rfl
        _ ≤ 2 ^ (rank / fractionCount - 1) := Nat.pow_le_pow_right (by omega) (by omega)
    have hlarge : ¬ unitsOfRank rank < 2 * fractionCount := by
      have : fractionCount * 2 ≤
          (fractionCount + rank % fractionCount) * 2 ^ (rank / fractionCount - 1) :=
        Nat.mul_le_mul (by omega) hp
      rw [hunits]; omega
    have hshift : 52 + (rank / fractionCount - 1) - 52 = rank / fractionCount - 1 := by omega
    have hdiv : unitsOfRank rank / 2 ^ (rank / fractionCount - 1) =
        fractionCount + rank % fractionCount := by
      rw [hunits]
      exact Nat.mul_div_cancel _ (by omega)
    rw [rankBelow, if_neg hlarge, hlog, hshift, Nat.pow_eq, hdiv]
    have hone : (rank / fractionCount - 1) * fractionCount + fractionCount =
        rank / fractionCount * fractionCount := by
      obtain ⟨q, hq'⟩ : ∃ q, rank / fractionCount = q + 1 := ⟨rank / fractionCount - 1, by omega⟩
      rw [hq']
      simp [Nat.succ_mul]
    have hmod := Nat.div_add_mod' rank fractionCount
    omega

theorem unitsOfRank_lt_succ (rank : Nat) : unitsOfRank rank < unitsOfRank (rank + 1) := by
  have hpos := fractionCount_pos
  by_cases h : rank + 1 < 2 * fractionCount
  · rw [unitsOfRank_small h, unitsOfRank_small (by omega)]
    omega
  by_cases hr : rank < 2 * fractionCount
  · -- the last rank before the step doubles for the first time
    have e : rank + 1 = 2 * fractionCount := by omega
    rw [unitsOfRank_small hr, e, unitsOfRank_large le_rfl, Nat.mul_mod_left, Nat.mul_div_cancel _ hpos]
    omega
  · have hr : 2 * fractionCount ≤ rank := by omega
    have hq := two_le_div hr
    have hf : rank % fractionCount < fractionCount := Nat.mod_lt _ hpos
    have hmod := Nat.div_add_mod' rank fractionCount
    have hp : 0 < 2 ^ (rank / fractionCount - 1) := by positivity
    rw [unitsOfRank_large hr, unitsOfRank_large (by omega)]
    by_cases hlast : rank % fractionCount + 1 < fractionCount
    · have e : rank + 1 = rank % fractionCount + 1 + fractionCount * (rank / fractionCount) := by
        rw [Nat.mul_comm fractionCount]; omega
      have hmod' : (rank + 1) % fractionCount = rank % fractionCount + 1 := by
        rw [e, Nat.add_mul_mod_self_left, Nat.mod_eq_of_lt hlast]
      have hdiv' : (rank + 1) / fractionCount = rank / fractionCount := by
        rw [e, Nat.add_mul_div_left _ _ hpos, Nat.div_eq_of_lt hlast, Nat.zero_add]
      rw [hmod', hdiv']
      exact Nat.mul_lt_mul_of_pos_right (by omega) hp
    · -- the step doubles here
      have hfull : rank % fractionCount = fractionCount - 1 := by omega
      have e : rank + 1 = fractionCount * (rank / fractionCount + 1) := by
        rw [Nat.mul_comm, Nat.succ_mul]; omega
      have hmod' : (rank + 1) % fractionCount = 0 := by rw [e, Nat.mul_mod_right]
      have hdiv' : (rank + 1) / fractionCount = rank / fractionCount + 1 := by
        rw [e, Nat.mul_div_cancel_left _ hpos]
      have hpow : 2 ^ (rank / fractionCount) = 2 * 2 ^ (rank / fractionCount - 1) := by
        rw [← pow_succ']; congr 1; omega
      rw [hmod', hdiv', hfull, Nat.add_sub_cancel, Nat.add_zero, hpow, ← Nat.mul_assoc]
      exact Nat.mul_lt_mul_of_pos_right (by omega) hp

/-! ## Rounding -/

theorem compare_mul_right {a b k : Nat} (hk : 0 < k) : compare (a * k) (b * k) = compare a b := by
  rcases Nat.lt_trichotomy a b with h | rfl | h
  · rw [Nat.compare_eq_lt.2 h, Nat.compare_eq_lt.2 (Nat.mul_lt_mul_of_pos_right h hk)]
  · rw [Nat.compare_eq_eq.2 rfl, Nat.compare_eq_eq.2 rfl]
  · rw [Nat.compare_eq_gt.2 h, Nat.compare_eq_gt.2 (Nat.mul_lt_mul_of_pos_right h hk)]

/-- Rounding looks at the quotient only. -/
theorem nearestRank_scale {k : Nat} (hk : 0 < k) (num den : Nat) :
    nearestRank (num * k) (den * k) = nearestRank num den := by
  have hdiv : num * k / (den * k) = num / den := Nat.mul_div_mul_right _ _ hk
  have hcomp : ∀ s, compare (2 * (num * k)) (s * (den * k)) = compare (2 * num) (s * den) := by
    intro s
    rw [← Nat.mul_assoc, ← Nat.mul_assoc]
    exact compare_mul_right hk
  unfold nearestRank
  simp only [hdiv, hcomp]

/-- A double is its own rounding. -/
theorem nearestRank_units (rank : Nat) : nearestRank (unitsOfRank rank) 1 = rank := by
  have hlt : compare (2 * unitsOfRank rank)
      ((unitsOfRank rank + unitsOfRank (rank + 1)) * 1) = .lt := by
    have := unitsOfRank_lt_succ rank
    rw [Nat.compare_eq_lt]
    omega
  unfold nearestRank
  rw [Nat.div_one, rankBelow_unitsOfRank]
  simp only [hlt]

theorem rankBelow_le_nearestRank (num den : Nat) : rankBelow (num / den) ≤ nearestRank num den := by
  unfold nearestRank
  simp only
  split
  · exact le_rfl
  · omega
  · split <;> omega

/-- Below half a unit everything is rounded to zero. -/
theorem nearestRank_tiny {num den : Nat} (h : 2 * num < den) : nearestRank num den = 0 := by
  have hdiv : num / den = 0 := Nat.div_eq_of_lt (by omega)
  have hlow : rankBelow 0 = 0 := rfl
  have hlt : compare (2 * num) ((unitsOfRank 0 + unitsOfRank (0 + 1)) * den) = .lt := by
    have : unitsOfRank 0 + unitsOfRank (0 + 1) = 1 := rfl
    rw [this, Nat.compare_eq_lt, Nat.one_mul]
    exact h
  unfold nearestRank
  rw [hdiv, hlow]
  simp only [hlt]

/-- From `2 ^ 1024` on, which is `2 ^ 2098` units, no rank is finite. -/
theorem rankLimit_le_rankBelow {units n : Nat} (hn : 2098 ≤ n) (h : 2 ^ n ≤ units) :
    rankLimit ≤ rankBelow units := by
  have hne : units ≠ 0 := (Nat.lt_of_lt_of_le (by positivity) h).ne'
  have hlog : n ≤ units.log2 := (Nat.le_log2 hne).2 h
  have hbig : ¬ units < 2 * fractionCount := by
    have : 2 * fractionCount ≤ 2 ^ n := by
      rw [fractionCount_eq, ← pow_succ']
      exact Nat.pow_le_pow_right (by omega) (by omega)
    omega
  have htop : fractionCount ≤ units / 2 ^ (units.log2 - 52) := by
    have e : 52 + (units.log2 - 52) = units.log2 := by omega
    rw [Nat.le_div_iff_mul_le (by positivity), fractionCount_eq, ← pow_add, e]
    exact Nat.log2_self_le hne
  have hsteps : 2046 * fractionCount ≤ (units.log2 - 52) * fractionCount :=
    Nat.mul_le_mul_right _ (by omega)
  rw [rankBelow, if_neg hbig, Nat.pow_eq, rankLimit]
  omega

theorem rankLimit_le_nearestRank {num den n : Nat} (hd : 0 < den) (hn : 2098 ≤ n)
    (h : 2 ^ n * den ≤ num) : rankLimit ≤ nearestRank num den := by
  have hdiv : 2 ^ n ≤ num / den := (Nat.le_div_iff_mul_le hd).2 h
  exact (rankLimit_le_rankBelow hn hdiv).trans (rankBelow_le_nearestRank num den)

end TreeDelta
