import Kiichain.OracleTypes
import Kiichain.OracleBallot

/-!
# An executable runtime and an all-bonded validator set

The insertion sort and a square root rounded to six decimals meet what the
ballots rely on, so that the oracle can be run on concrete votes.
-/

namespace Kiichain.Oracle
open GoExec FixedPoint

/-- The bits of the integer square root of `n`, the highest of `k` bits first. -/
def rootBits (n : ℕ) : ℕ → ℕ → ℕ
  | 0, r => r
  | k + 1, r => if (r + 2 ^ k) ^ 2 ≤ n then rootBits n k (r + 2 ^ k) else rootBits n k r

theorem rootBits_sq_le {n : ℕ} (k : ℕ) {r : ℕ} (h : r ^ 2 ≤ n) : rootBits n k r ^ 2 ≤ n := by
  induction k generalizing r with
  | zero => exact h
  | succ k ih =>
      unfold rootBits
      split_ifs with hk
      · exact ih hk
      · exact ih h

/-- The square root of a decimal to the nearest millionth. -/
def sixDecimalSqrt (x : LegacyDec) : LegacyDec :=
  let twice := rootBits (4 * (x.raw.toNat * legacyFormat.scale)) 190 0
  ⟨((twice + 1000000000000) / 2000000000000 * 1000000000000 : ℕ)⟩

theorem sixDecimalSqrt_sq_le (x : LegacyDec) (h : 0 ≤ x.raw) :
    (sixDecimalSqrt x).raw ^ 2 ≤ 4 * (x.raw * legacyFormat.scale) + legacyFormat.scale ^ 2 := by
  have hroot := rootBits_sq_le (n := 4 * (x.raw.toNat * legacyFormat.scale)) 190 (r := 0)
    (Nat.zero_le _)
  have hraw : (x.raw.toNat : ℤ) = x.raw := Int.toNat_of_nonneg h
  unfold sixDecimalSqrt
  simp only
  generalize rootBits (4 * (x.raw.toNat * legacyFormat.scale)) 190 0 = twice at hroot ⊢
  have hdiv := Nat.div_mul_le_self (twice + 1000000000000) 2000000000000
  generalize (twice + 1000000000000) / 2000000000000 = units at hdiv ⊢
  have hle : 2 * ((units * 1000000000000 : ℕ) : ℤ) ≤ (twice : ℤ) + 1000000000000 := by
    push_cast
    omega
  have hnonneg : (0 : ℤ) ≤ ((units * 1000000000000 : ℕ) : ℤ) := Int.natCast_nonneg _
  have hsq : (twice : ℤ) ^ 2 ≤ 4 * (x.raw * legacyFormat.scale) := by
    rw [← hraw]
    exact_mod_cast hroot
  generalize ((units * 1000000000000 : ℕ) : ℤ) = root at hle hnonneg ⊢
  simp only [legacyFormat_scale] at hsq ⊢
  push_cast at hsq ⊢
  nlinarith [sq_nonneg ((twice : ℤ) - 1000000000000)]

def Runtime.insertion : Runtime where
  sort b := b.insertionSort (fun v w => v.exchangeRate ≤ w.exchangeRate)
  sort_perm b := List.perm_insertionSort _ b
  sort_sorted b := by
    have htotal : Std.Total (fun v w : VoteForTally => v.exchangeRate ≤ w.exchangeRate) :=
      ⟨fun v w => le_total _ _⟩
    have htrans : IsTrans VoteForTally (fun v w => v.exchangeRate ≤ w.exchangeRate) :=
      ⟨fun _ _ _ => le_trans⟩
    exact List.pairwise_insertionSort _ b
  sqrt := sixDecimalSqrt
  sqrt_nonneg x := Int.natCast_nonneg _
  sqrt_sq_le := sixDecimalSqrt_sq_le

section AllBonded

def bondedValidator (a : ValAddress) (power : ℕ) : Validator := ⟨a, power, true, false, some a⟩

/-- A validator set that is bonded as a whole, with one token for one power. -/
def Staking.ofPowers (powers : SortedMap ValAddress ℕ)
    (h : bondedTokens (powers.mapValues bondedValidator) / 1 < 2 ^ 63) : Staking where
  validators := powers.mapValues bondedValidator
  powerStore := powers.keys
  powerReduction := 1
  reduction_pos := Nat.one_pos
  operator_eq a v hv := by
    rw [SortedMap.get?_mapValues, Option.map_eq_some_iff] at hv
    obtain ⟨_, _, rfl⟩ := hv
    rfl
  powerStore_stored a ha := by
    obtain ⟨n, hn⟩ := SortedMap.mem_keys.mp ha
    exact ⟨bondedValidator a n, by rw [SortedMap.get?_mapValues, hn]; rfl⟩
  bonded_listed a v hv _ := by
    rw [SortedMap.get?_mapValues, Option.map_eq_some_iff] at hv
    obtain ⟨n, hn, _⟩ := hv
    exact SortedMap.mem_keys.mpr ⟨n, hn⟩
  total_bounded := h

/-- One bonded operator. -/
def Staking.single : Staking := .ofPowers ⟨[("v1", 1)], by decide⟩ (by decide)

/-- Three bonded operators of one power. -/
def Staking.trio : Staking := .ofPowers ⟨[("v1", 2), ("v2", 2), ("v3", 2)], by decide⟩ (by decide)

def twoTargets : SortedMap String Denom := ⟨[("uatom", ⟨"uatom"⟩), ("ubtc", ⟨"ubtc"⟩)], by decide⟩

end AllBonded

end Kiichain.Oracle
