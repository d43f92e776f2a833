import Kiichain.OracleTally
import Kiichain.WeightedQuantile

/-!
# The law of the weighted median

The median loop stops at the quantile of the integer half of the power. It is a
median in the exact sense unless, for some submitted rate, the votes at or below
it fall short of the exact half by half a unit.
-/

namespace Kiichain.Oracle
open GoExec FixedPoint WeightedQuantile

namespace Ballot

def powerAtMost (b : Ballot) (rate : LegacyDec) : ℤ :=
  atMost VoteForTally.exchangeRate VoteForTally.power b rate

def powerAtLeast (b : Ballot) (rate : LegacyDec) : ℤ :=
  atLeast VoteForTally.exchangeRate VoteForTally.power b rate

/-- The call returns the rate of a vote with power, both sides of which hold
half of the power, and returns it for every order of the votes of equal rates. -/
def MedianLaw (b : Ballot) : Prop :=
  ∃ rate, b.weightedMedianWithAssertion = .ok rate ∧
    (∃ vote ∈ b, vote.exchangeRate = rate ∧ 0 < vote.power) ∧
    power b ≤ 2 * powerAtMost b rate ∧ power b ≤ 2 * powerAtLeast b rate ∧
    ∀ b' : Ballot, b'.Perm b → IsSorted b' → b'.weightedMedianWithAssertion = .ok rate

theorem medianFrom_eq_reach (half : ℤ) (b : Ballot) : ∀ pivot,
    medianFrom half pivot b =
      (reach VoteForTally.exchangeRate VoteForTally.power half pivot b).getD 0 := by
  induction b with
  | nil => exact fun pivot => rfl
  | cons v b ih =>
      intro pivot
      rw [medianFrom, reach, ih]
      split_ifs <;> rfl

section

variable {b : Ballot} (hpower : ∀ v ∈ b, 0 ≤ v.power) (hpos : 0 < power b)
include hpower hpos

/-- The median is the quantile of the integer half. -/
theorem isQuantile_median (hsorted : IsSorted b) :
    IsQuantile VoteForTally.exchangeRate VoteForTally.power (power b / 2) b b.median := by
  have hne : b ≠ [] := by
    rintro rfl
    exact lt_irrefl _ hpos
  have hhalf : (power b).tdiv 2 = power b / 2 := Int.tdiv_eq_ediv_of_nonneg hpos.le
  have hreach : ∃ rate, reach VoteForTally.exchangeRate VoteForTally.power (power b / 2) 0 b =
      some rate := exists_reach hne 0 (show _ ≤ 0 + power b by omega)
  obtain ⟨rate, hrate⟩ := hreach
  have hmedian : b.median = rate := by
    rw [median, hhalf, medianFrom_eq_reach, hrate, Option.getD_some]
  have hquantile := isQuantile_of_reach hsorted hpower 0 hrate
  rwa [sub_zero, ← hmedian] at hquantile

/-- Reordering the votes of equal rates does not move the median. -/
theorem median_eq_of_perm (hsorted : IsSorted b) {b' : Ballot} (hperm : b'.Perm b)
    (hsorted' : IsSorted b') : b'.median = b.median := by
  have hpower' : ∀ v ∈ b', 0 ≤ v.power := fun v hv => hpower v (hperm.mem_iff.mp hv)
  have htotal : power b' = power b := (hperm.map _).sum_eq
  have hquantile := (isQuantile_median hpower' (htotal ▸ hpos) hsorted').perm hperm
  rw [htotal] at hquantile
  exact hquantile.unique hpower (isQuantile_median hpower hpos hsorted)

end

/-- While the total fits a signed 64-bit integer no accumulation wraps around. -/
theorem foldl_int64_power {b : Ballot} (hpower : ∀ v ∈ b, 0 ≤ v.power) :
    ∀ pivot, 0 ≤ pivot → pivot + power b < 2 ^ 63 →
      b.foldl (fun pivot v => GoTime.int64 (pivot + v.power)) pivot = pivot + power b := by
  induction b with
  | nil => simp [power]
  | cons v b ih =>
      intro pivot hpivot hfits
      have hv := hpower v List.mem_cons_self
      have hb : ∀ w ∈ b, 0 ≤ w.power := fun w hw => hpower w (List.mem_cons_of_mem v hw)
      have hrest := power_nonneg hb
      have hcons : power (v :: b) = v.power + power b := by simp [power]
      rw [hcons] at hfits ⊢
      rw [List.foldl_cons, GoTime.int64_of_bounds (by omega) (by omega),
        ih hb _ (by omega) (by omega), add_assoc]

end Ballot

/-! ## Three equal validators -/

namespace ThreeEqual

def vote (voter : ValAddress) (rate power : ℤ) : VoteForTally :=
  ⟨"ubtc", Decimal.ofInt rate, voter, power⟩

/-- The exact half is one and a half units, the integer half one. -/
def ballot : Ballot := [vote "v1" 1 1, vote "v2" 2 1, vote "v3" 3 1]

/-- A fourth validator makes the total even. -/
def even : Ballot := ballot ++ [vote "v4" 4 1]

end ThreeEqual

end Kiichain.Oracle
