import TreeDelta.Proofs.Number.Rank
/-!
# Decimals read back

`Decimal.rank` is the rank nearest to a decimal. `Double.ofDecimal` rounds to it: its two short cuts
for exponents far out change nothing (`ofDecimal_eq`). The rank does not depend on how many zeros
the digits end in, and the decimal that is written for a double has the double's rank
(`shortest_rank`).
-/

namespace TreeDelta

namespace Decimal

/-- The rank nearest to the decimal. -/
def rank (d : Decimal) : Nat :=
  nearestRank (d.digits * 10 ^ d.exponent.toNat * unitsOfOne) (10 ^ (-d.exponent).toNat)

theorem rank_zero (e : Int) : rank ⟨0, e⟩ = 0 := by
  have hp : 0 < 10 ^ (-e).toNat := by positivity
  simp only [rank, Nat.zero_mul]
  exact nearestRank_tiny (by omega)

theorem unitsOfOne_eq {n : Nat} (hn : n = 1074) : unitsOfOne = 2 ^ n := by
  delta unitsOfOne
  rw [← hn, Nat.pow_eq]

theorem two_pow_le_ten_pow (n : Nat) : 2 ^ (33 * n) ≤ 10 ^ (10 * n) := by
  rw [pow_mul, pow_mul]
  exact Nat.pow_le_pow_left (by decide) n

/-- Beyond `10 ^ 310` nothing is finite. -/
theorem rankLimit_le_rank {digits : Nat} {e : Int} (hd : digits ≠ 0) (he : 310 < e) :
    rankLimit ≤ rank ⟨digits, e⟩ := by
  obtain ⟨n, hn⟩ : ∃ n : Nat, n = 1074 := ⟨_, rfl⟩
  obtain ⟨m, hm⟩ : ∃ m : Nat, m = 31 := ⟨_, rfl⟩
  have hpow : 2 ^ (33 * m + 3) ≤ 10 ^ e.toNat := by
    calc 2 ^ (33 * m + 3) = 2 ^ (33 * m) * 2 ^ 3 := pow_add _ _ _
      _ ≤ 10 ^ (10 * m) * 10 ^ 1 := Nat.mul_le_mul (two_pow_le_ten_pow m) (by decide)
      _ = 10 ^ (10 * m + 1) := (pow_add _ _ _).symm
      _ ≤ 10 ^ e.toNat := Nat.pow_le_pow_right (by decide) (by omega)
  have hneg : (-e).toNat = 0 := by omega
  have hlarge : 2098 ≤ 33 * m + 3 + n := by omega
  simp only [rank, hneg, pow_zero]
  refine rankLimit_le_nearestRank Nat.one_pos hlarge ?_
  rw [Nat.mul_one, pow_add 2 (33 * m + 3), ← unitsOfOne_eq hn]
  refine Nat.mul_le_mul_right _ (hpow.trans ?_)
  exact Nat.le_mul_of_pos_left _ (Nat.pos_of_ne_zero hd)

/-- Decimals below half a unit are rounded to zero. -/
theorem rank_of_tiny {digits : Nat} {e : Int}
    (he : e < -(400 + digits.log2 : Int)) : rank ⟨digits, e⟩ = 0 := by
  obtain ⟨n, hn⟩ : ∃ n : Nat, n = 1074 := ⟨_, rfl⟩
  have hzero : e.toNat = 0 := by omega
  have hlog : digits < 2 ^ (digits.log2 + 1) := Nat.lt_log2_self
  simp only [rank, hzero, pow_zero, Nat.mul_one, unitsOfOne_eq hn]
  refine nearestRank_tiny ?_
  calc 2 * (digits * 2 ^ n) < 2 * (2 ^ (digits.log2 + 1) * 2 ^ n) := by
        have hpos : 0 < 2 ^ n := by positivity
        have := Nat.mul_lt_mul_of_pos_right hlog hpos
        omega
    _ = 2 ^ (digits.log2 + 1) * 2 ^ (1 + n) := by rw [pow_add 2 1]; ring
    _ ≤ 10 ^ (digits.log2 + 1) * 10 ^ (10 * 40) := by
        refine Nat.mul_le_mul (Nat.pow_le_pow_left (by decide) _) ?_
        exact (Nat.pow_le_pow_right (by decide) (by omega)).trans (two_pow_le_ten_pow 40)
    _ = 10 ^ (digits.log2 + 1 + 10 * 40) := (pow_add _ _ _).symm
    _ ≤ 10 ^ (-e).toNat := Nat.pow_le_pow_right (by decide) (by omega)

/-- One more zero at the end of the digits changes nothing. -/
theorem rank_ten_mul (digits : Nat) (e : Int) :
    rank ⟨10 * digits, e - 1⟩ = rank ⟨digits, e⟩ := by
  unfold rank
  generalize unitsOfOne = one
  by_cases he : 0 < e
  · have h1 : e.toNat = (e - 1).toNat + 1 := by omega
    have h2 : (-(e - 1)).toNat = (-e).toNat := by omega
    have hnum : 10 * digits * 10 ^ (e - 1).toNat * one = digits * 10 ^ ((e - 1).toNat + 1) * one := by
      ring
    simp only [h1, h2, hnum]
  · have h1 : (e - 1).toNat = e.toNat := by omega
    have h2 : (-(e - 1)).toNat = (-e).toNat + 1 := by omega
    have hnum : 10 * digits * 10 ^ e.toNat * one = digits * 10 ^ e.toNat * one * 10 := by ring
    simp only [h1, h2, hnum, pow_succ]
    exact nearestRank_scale (by decide) _ _

theorem rank_mul_pow (digits n : Nat) (e : Int) :
    rank ⟨digits * 10 ^ n, e - n⟩ = rank ⟨digits, e⟩ := by
  induction n with
  | zero => simp
  | succ n ih =>
    have hdigits : digits * 10 ^ (n + 1) = 10 * (digits * 10 ^ n) := by ring
    have hexp : e - ((n + 1 : Nat) : Int) = e - n - 1 := by omega
    rw [hdigits, hexp, rank_ten_mul, ih]

theorem rank_trim (fuel : Nat) (d : Decimal) : (d.trim fuel).rank = d.rank := by
  induction fuel generalizing d with
  | zero => rfl
  | succ fuel ih =>
    rw [trim]
    split
    · rename_i hd
      rw [ih, ← rank_ten_mul]
      congr 1
      have hdigits : 10 * (d.digits / 10) = d.digits := by omega
      have hexp : d.exponent + 1 - 1 = d.exponent := by omega
      simp only [hdigits, hexp]
    · rfl

end Decimal

namespace Double

theorem ofRank_of_ge {rank : Nat} (negative : Bool) (h : rankLimit ≤ rank) :
    ofRank negative rank = infinite negative := dif_neg (by omega)

/-- A decimal is read as the double of its rank. -/
theorem ofDecimal_eq (negative : Bool) (digits : Nat) (e : Int) :
    ofDecimal negative digits e = ofRank negative (Decimal.rank ⟨digits, e⟩) := by
  unfold ofDecimal
  by_cases hd : digits = 0
  · rw [if_pos hd, hd, Decimal.rank_zero]
  rw [if_neg hd]
  by_cases hlarge : 310 < e
  · rw [if_pos hlarge, ofRank_of_ge _ (Decimal.rankLimit_le_rank hd hlarge)]
  rw [if_neg hlarge]
  by_cases hsmall : e < -(400 + digits.log2 : Int)
  · rw [if_pos hsmall, Decimal.rank_of_tiny hsmall]
  rw [if_neg hsmall]
  by_cases hnonneg : 0 ≤ e
  · have hneg : (-e).toNat = 0 := by omega
    rw [if_pos hnonneg, ofRatio, Decimal.rank]
    simp only [Nat.pow_eq, hneg, pow_zero]
  · have hzero : e.toNat = 0 := by omega
    rw [if_neg hnonneg, ofRatio, Decimal.rank]
    simp only [Nat.pow_eq, hzero, pow_zero, Nat.mul_one]

theorem ofRank_inj {m n : Nat} (hn : n < rankLimit) (h : ofRank false m = ofRank false n) :
    m = n := by
  unfold ofRank at h
  rw [dif_pos hn] at h
  split at h
  · simpa using h
  · cases h

theorem rank_of_readsBack {rank : Nat} {d : Decimal} (hr : rank < rankLimit)
    (h : readsBack rank d = true) : d.rank = rank := by
  rw [readsBack, beq_iff_eq, ofDecimal_eq] at h
  exact ofRank_inj hr h

/-- All digits of a double make its rank. -/
theorem rank_allDigits (rank : Nat) : (allDigits (unitsOfRank rank)).rank = rank := by
  obtain ⟨n, hn⟩ : ∃ n : Nat, n = 1074 := ⟨_, rfl⟩
  have hd : allDigits (unitsOfRank rank) = ⟨unitsOfRank rank * 5 ^ n, -n⟩ := by
    have he : (-1074 : Int) = -n := by omega
    delta allDigits
    rw [he, ← hn, Nat.pow_eq]
  have hzero : (-(n : Int)).toNat = 0 := by omega
  have hden : (-(-(n : Int))).toNat = n := by omega
  have hten : (5 : Nat) ^ n * 2 ^ n = 10 ^ n := by
    rw [← mul_pow]
    rfl
  have hnum : unitsOfRank rank * 5 ^ n * 10 ^ 0 * 2 ^ n = unitsOfRank rank * 10 ^ n := by
    rw [pow_zero, Nat.mul_one, Nat.mul_assoc, hten]
  rw [hd, Decimal.rank, Decimal.unitsOfOne_eq hn]
  simp only [hzero, hden, hnum]
  have hscale := nearestRank_scale (k := 10 ^ n) (by positivity) (unitsOfRank rank) 1
  rw [Nat.one_mul] at hscale
  rw [hscale, nearestRank_units]

theorem rank_of_candidates {rank : Nat} (hr : rank < rankLimit) (candidates : List Decimal) :
    ((candidates.find? (readsBack rank)).getD (allDigits (unitsOfRank rank))).rank = rank := by
  cases hf : candidates.find? (readsBack rank) with
  | none => exact rank_allDigits rank
  | some d => exact rank_of_readsBack hr (List.find?_some hf)

/-- What is written for a double has its rank. -/
theorem shortest_rank {rank : Nat} (hr : rank < rankLimit) : (shortest rank).rank = rank := by
  rw [shortest, Decimal.rank_trim]
  exact rank_of_candidates hr _

theorem shortest_digits_ne_zero {rank : Nat} (hr : rank < rankLimit) (hne : rank ≠ 0) :
    (shortest rank).digits ≠ 0 := by
  have zero : ∀ d : Decimal, d.digits = 0 → d.rank = 0 := by
    rintro ⟨digits, e⟩ rfl
    exact Decimal.rank_zero e
  intro h
  exact hne ((shortest_rank hr).symm.trans (zero _ h))

end Double

end TreeDelta
