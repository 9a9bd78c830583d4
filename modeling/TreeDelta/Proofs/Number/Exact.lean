import Mathlib.Algebra.Order.Field.Rat
import Mathlib.Order.WithBot
import Mathlib.Tactic.FieldSimp
import TreeDelta.Value.Equality
import TreeDelta.Proofs.Number.Decimal
/-!
# Exact numbers

An `Amount` is a rational number or one of two infinities. `Double.amount` is the number that a double is
by its fields: sign, fraction and exponent. Numbers are compared by units (`Exact`), and units are equal
exactly if the amounts are (`Exact.amount_injective`), for whole numbers as for doubles
(`Value.amount_of_number`). So no comparison rounds.
-/

namespace TreeDelta

/-- A rational number, or one of two infinities. -/
abbrev Amount := WithBot (WithTop ℚ)

/-- The exponent of the step below which there is no double: there are `2 ^ 1074` units in one. -/
theorem exists_unitExponent : ∃ n : ℤ, n = 1074 ∧ (unitsOfOne : ℚ) = 2 ^ n := by
  obtain ⟨n, hn⟩ : ∃ n : Nat, n = 1074 := ⟨_, rfl⟩
  refine ⟨n, by rw [hn]; rfl, ?_⟩
  rw [Decimal.unitsOfOne_eq hn]
  push_cast
  rw [zpow_natCast]

/-- The magnitude of a rank by its fields: the fraction stands behind a leading one and is scaled by the
exponent, but where the exponent is zero there is no leading one. -/
def magnitudeOfRank (rank : Nat) : ℚ :=
  if rank / fractionCount = 0 then (rank % fractionCount : Nat) * 2 ^ (-1074 : ℤ)
  else (fractionCount + rank % fractionCount : Nat) * 2 ^ ((rank / fractionCount : Nat) - 1075 : ℤ)

def Double.amount : Double → Amount
  | .finite false rank => ((magnitudeOfRank rank : WithTop ℚ) : Amount)
  | .finite true rank => ((-magnitudeOfRank rank : ℚ) : WithTop ℚ)
  | .infinite false => ((⊤ : WithTop ℚ) : Amount)
  | .infinite true => ⊥

/-- The amount of a number other than NaN; truth values are no numbers. -/
def Value.amount? : Value → Option Amount
  | .int i => some (((i : ℚ) : WithTop ℚ) : Amount)
  | .float x => some x.amount
  | _ => none

def Exact.amount : Exact → Amount
  | .finite units => (((units : ℚ) / unitsOfOne : ℚ) : WithTop ℚ)
  | .infinite false => ((⊤ : WithTop ℚ) : Amount)
  | .infinite true => ⊥

theorem unitsOfOne_ne_zero : (unitsOfOne : ℚ) ≠ 0 := by
  obtain ⟨n, -, h⟩ := exists_unitExponent
  rw [h]
  exact zpow_ne_zero n two_ne_zero

theorem Exact.amount_injective : Function.Injective Exact.amount := by
  intro x y h
  cases x with
  | finite m =>
    cases y with
    | finite n =>
      have h : (m : ℚ) / unitsOfOne = n / unitsOfOne := by
        simpa only [amount, WithBot.coe_inj, WithTop.coe_inj] using h
      rw [div_left_inj' unitsOfOne_ne_zero, Int.cast_inj] at h
      rw [h]
    | infinite negative =>
      cases negative with
      | false => exact absurd (WithBot.coe_inj.1 h) WithTop.coe_ne_top
      | true => exact absurd h WithBot.coe_ne_bot
  | infinite negative =>
    cases negative with
    | false =>
      cases y with
      | finite n => exact absurd (WithBot.coe_inj.1 h) WithTop.top_ne_coe
      | infinite negative =>
        cases negative with
        | false => rfl
        | true => exact absurd h WithBot.coe_ne_bot
    | true =>
      cases y with
      | finite n => exact absurd h WithBot.bot_ne_coe
      | infinite negative =>
        cases negative with
        | false => exact absurd h WithBot.bot_ne_coe
        | true => rfl

/-- The units of a rank make its magnitude. -/
theorem unitsOfRank_eq (rank : Nat) : (unitsOfRank rank : ℚ) / unitsOfOne = magnitudeOfRank rank := by
  obtain ⟨n, hn, hone⟩ := exists_unitExponent
  have hneg : (-1074 : ℤ) = -n := by omega
  have hmod := Nat.div_add_mod' rank fractionCount
  rw [hone, magnitudeOfRank, hneg]
  by_cases hsmall : rank / fractionCount = 0
  · have hr : unitsOfRank rank = rank % fractionCount := by
      rw [hsmall] at hmod
      have := Nat.mod_lt rank fractionCount_pos
      rw [unitsOfRank_small (by omega)]
      omega
    rw [if_pos hsmall, hr, zpow_neg, div_eq_mul_inv]
  · rw [if_neg hsmall]
    obtain ⟨e, he⟩ := Nat.exists_eq_add_one_of_ne_zero hsmall
    have hr : unitsOfRank rank = (fractionCount + rank % fractionCount) * 2 ^ e := by
      cases e with
      | zero =>
        have := Nat.mod_lt rank fractionCount_pos
        rw [he, Nat.zero_add, Nat.one_mul] at hmod
        rw [unitsOfRank_small (by omega)]
        omega
      | succ e =>
        have hq : 2 ≤ rank / fractionCount := by rw [he]; omega
        have hlarge : 2 * fractionCount ≤ rank := (Nat.le_div_iff_mul_le fractionCount_pos).1 hq
        rw [unitsOfRank_large hlarge, he, Nat.add_sub_cancel]
    have hexp : ((e + 1 : Nat) - 1075 : ℤ) = e - n := by push_cast; omega
    rw [hr, he, hexp, zpow_sub₀ (by norm_num), zpow_natCast]
    push_cast
    ring

theorem Exact.amount_ofInt (i : Int) : (Exact.ofInt i).amount = ((i : ℚ) : WithTop ℚ) := by
  rw [ofInt, amount]
  push_cast
  rw [mul_div_cancel_right₀ _ unitsOfOne_ne_zero]

theorem Exact.amount_finite {units : Int} {q : ℚ} (h : (units : ℚ) / unitsOfOne = q) :
    (Exact.finite units).amount = ((q : WithTop ℚ) : Amount) := by
  rw [amount, h]

theorem Exact.amount_ofDouble (x : Double) : (Exact.ofDouble x).amount = x.amount := by
  cases x with
  | finite negative rank =>
    have hunits : ((unitsOfRank rank : Int) : ℚ) / unitsOfOne = magnitudeOfRank rank := by
      rw [Int.cast_natCast, unitsOfRank_eq]
    have hneg : ((-(unitsOfRank rank : Int) : Int) : ℚ) / unitsOfOne = -magnitudeOfRank rank := by
      rw [Int.cast_neg, neg_div, hunits]
    cases negative with
    | false => exact amount_finite hunits
    | true => exact amount_finite hneg
  | infinite negative => cases negative <;> rfl

/-- Numbers are compared by the amounts that they are. -/
theorem Value.amount_of_number (v : Value) : v.number?.map Exact.amount = v.amount? := by
  cases v with
  | int i => exact congrArg some (Exact.amount_ofInt i)
  | float x => exact congrArg some (Exact.amount_ofDouble x)
  | _ => rfl

end TreeDelta
