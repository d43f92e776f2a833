import Kiichain.OracleTypes

/-!
# Ballots and tallies

A ballot is the list of votes on one denomination. The tally takes the weighted
median of a sorted ballot and counts a win for every vote inside the band around
it. Go's sort and its floating-point square root enter as parameters.
-/

namespace Kiichain.Oracle
open GoExec FixedPoint

structure Claim where
  power : ℤ
  weight : ℤ
  winCount : ℤ
  didVote : Bool
  recipient : ValAddress
deriving DecidableEq

abbrev ClaimMap := SortedMap ValAddress Claim

/-- The weight of a new claim starts at its power. -/
def newClaim (power _weight winCount : ℤ) (didVote : Bool) (recipient : ValAddress) : Claim :=
  ⟨power, power, winCount, didVote, recipient⟩

/-- What a Go map gives for an absent operator. -/
def zeroClaim : Claim := ⟨0, 0, 0, false, ""⟩

structure VoteForTally where
  denom : String
  exchangeRate : LegacyDec
  voter : ValAddress
  power : ℤ
deriving DecidableEq

abbrev Ballot := List VoteForTally

/-- Standard library functions the ballots use: `sort.Sort` on exchange rates,
and the square root taken in binary64 and printed with six decimals. -/
structure Runtime where
  sort : Ballot → Ballot
  sort_perm : ∀ b, (sort b).Perm b
  sort_sorted : ∀ b, (sort b).Pairwise (fun v w => v.exchangeRate ≤ w.exchangeRate)
  sqrt : LegacyDec → LegacyDec
  sqrt_nonneg : ∀ x, 0 ≤ (sqrt x).raw
  sqrt_sq_le : ∀ x : LegacyDec, 0 ≤ x.raw →
    (sqrt x).raw ^ 2 ≤ 4 * (x.raw * legacyFormat.scale) + legacyFormat.scale ^ 2

namespace Ballot

def power (b : Ballot) : ℤ := (b.map (·.power)).sum

def IsSorted (b : Ballot) : Prop := b.Pairwise (fun v w => v.exchangeRate ≤ w.exchangeRate)

instance (b : Ballot) : Decidable (IsSorted b) := inferInstanceAs (Decidable (List.Pairwise _ _))

/-- The positive rates by voter. -/
def toMap (b : Ballot) : SortedMap ValAddress LegacyDec :=
  b.foldl (fun m v => if 0 < v.exchangeRate then m.insert v.voter v.exchangeRate else m) ∅

/-- The first rate at which the accumulated power reaches `half`. -/
def medianFrom (half : ℤ) : ℤ → Ballot → LegacyDec
  | _, [] => 0
  | pivot, v :: b =>
    if half ≤ pivot + v.power then v.exchangeRate else medianFrom half (pivot + v.power) b

def weightedMedianWithAssertion (b : Ballot) : Exec LegacyDec := do
  ensure (IsSorted b) (.panic "ballot must be sorted")
  pure (medianFrom ((power b).tdiv 2) 0 b)

/-- The vote at the cross rate base / rate. A voter without a positive base or
rate, or whose quotient panics, abstains. -/
def toCrossVote (bases : SortedMap ValAddress LegacyDec) (v : VoteForTally) : VoteForTally :=
  match bases.get? v.voter with
  | some base =>
    if 0 < v.exchangeRate then
      match base.quo v.exchangeRate with
      | .ok cross => { v with exchangeRate := cross }
      | .error _ => { v with exchangeRate := 0, power := 0 }
    else { v with exchangeRate := 0, power := 0 }
  | none => { v with exchangeRate := 0, power := 0 }

def toCrossRate (b : Ballot) (bases : SortedMap ValAddress LegacyDec) : Ballot :=
  b.map (toCrossVote bases)

def toCrossRateWithSort (rt : Runtime) (b : Ballot) (bases : SortedMap ValAddress LegacyDec) :
    Ballot :=
  rt.sort (toCrossRate b bases)

def sumOfSquares (median : LegacyDec) (b : Ballot) : Exec LegacyDec :=
  b.foldlM (fun sum v => do
    let deviation ← v.exchangeRate.sub median
    let square ← deviation.mul deviation
    sum.add square) 0

def deviationOf (rt : Runtime) (b : Ballot) (median : LegacyDec) : Exec LegacyDec := do
  let sum ← sumOfSquares median b
  let variance ← sum.quoInt b.length
  pure (rt.sqrt variance)

/-- A panic on the way is recovered to zero. -/
def standardDeviation (rt : Runtime) (b : Ballot) (median : LegacyDec) : Exec LegacyDec :=
  if b = [] then pure 0 else recovered (deviationOf rt b median) 0

end Ballot

section Tally

variable (rt : Runtime) (rewardBand : LegacyDec)

/-- The upper limit is computed only where the lower one is met. -/
def inBand (weightedMedian rewardSpread rate : LegacyDec) : Exec Bool := do
  let lower ← weightedMedian.sub rewardSpread
  if lower ≤ rate then do
    let upper ← weightedMedian.add rewardSpread
    pure (rate ≤ upper)
  else pure false

def rewardClaim (claim : Claim) (power : ℤ) (wins : Bool) : Claim :=
  if wins then
    { claim with weight := claim.weight + power, winCount := claim.winCount + 1, didVote := true }
  else { claim with didVote := true }

def tallyVote (weightedMedian rewardSpread : LegacyDec) (claims : ClaimMap) (vote : VoteForTally) :
    Exec ClaimMap := do
  let wins ← inBand weightedMedian rewardSpread vote.exchangeRate
  pure (claims.insert vote.voter
    (rewardClaim ((claims.get? vote.voter).getD zeroClaim) vote.power wins))

def rewardSpread (ex : Ballot) (weightedMedian : LegacyDec) : Exec LegacyDec := do
  let deviation ← ex.standardDeviation rt weightedMedian
  let halfBand ← rewardBand.quoInt 2
  let spread ← weightedMedian.mul halfBand
  pure (if spread < deviation then deviation else spread)

def tally (ex : Ballot) (claims : ClaimMap) : Exec (LegacyDec × ClaimMap) := do
  let weightedMedian ← ex.weightedMedianWithAssertion
  let spread ← rewardSpread rt rewardBand ex weightedMedian
  let claims ← ex.foldlM (tallyVote weightedMedian spread) claims
  pure (weightedMedian, claims)

end Tally

end Kiichain.Oracle
