import Kiichain.Coins
import Kiichain.GoTime

/-!
# Oracle data

The stored objects of the price oracle, its parameters, and the part of the
staking module's state that the oracle reads. An operator is named by the text
of its address.
-/

namespace Kiichain.Oracle
open GoExec FixedPoint

abbrev ValAddress := String

abbrev AccAddress := String

structure Denom where
  name : String
deriving DecidableEq

structure Params where
  votePeriod : ℕ
  voteThreshold : LegacyDec
  rewardBand : LegacyDec
  whitelist : List Denom
  slashFraction : LegacyDec
  slashWindow : ℕ
  minValidPerWindow : LegacyDec
  lookbackDuration : ℕ
deriving DecidableEq

structure OracleExchangeRate where
  exchangeRate : LegacyDec
  lastUpdate : ℤ
  lastUpdateTimestamp : ℤ
deriving DecidableEq

@[ext]
structure VotePenaltyCounter where
  missCount : ℕ
  abstainCount : ℕ
  successCount : ℕ
deriving DecidableEq

structure ExchangeRateTuple where
  denom : String
  exchangeRate : LegacyDec
deriving DecidableEq

structure AggregateExchangeRateVote where
  exchangeRateTuples : List ExchangeRateTuple
  voter : ValAddress
deriving DecidableEq

structure PriceSnapshotItem where
  denom : String
  oracleExchangeRate : OracleExchangeRate
deriving DecidableEq

structure PriceSnapshot where
  snapshotTimestamp : ℤ
  priceSnapshotItems : List PriceSnapshotItem
deriving DecidableEq

/-- The module's store, the bank metadata it registers, and the exchange rate
update events it emitted. -/
structure State where
  params : Params
  exchangeRate : SortedMap String OracleExchangeRate
  feederDelegation : SortedMap ValAddress AccAddress
  votePenaltyCounter : SortedMap ValAddress VotePenaltyCounter
  aggregateExchangeRateVote : SortedMap ValAddress AggregateExchangeRateVote
  voteTarget : SortedMap String Denom
  priceSnapshot : SortedMap ℤ PriceSnapshot
  denomMetaData : SortedMap String Metadata
  events : List (String × LegacyDec)
deriving DecidableEq

structure Block where
  height : ℕ
  time : ℤ

def blocksPerMinute : ℕ := 17

def blocksPerHour : ℕ := blocksPerMinute * 60

def blocksPerDay : ℕ := blocksPerHour * 24

/-- The period of zero blocks divides by zero. -/
def isPeriodLastBlock (blk : Block) (blocksPerPeriod : ℕ) : Exec Bool := do
  ensure (blocksPerPeriod ≠ 0) (.panic "integer divide by zero")
  pure ((blk.height + 1) % blocksPerPeriod = 0)

def defaultParams : Params where
  votePeriod := 2
  voteThreshold := ⟨667000000000000000⟩
  rewardBand := ⟨20000000000000000⟩
  whitelist := [⟨"ubtc"⟩, ⟨"ueth"⟩, ⟨"usol"⟩, ⟨"uxrp"⟩, ⟨"ubnb"⟩, ⟨"uusdt"⟩, ⟨"uusdc"⟩, ⟨"utrx"⟩]
  slashFraction := 0
  slashWindow := blocksPerDay * 2
  minValidPerWindow := ⟨50000000000000000⟩
  lookbackDuration := 3600

def defaultGenesis (denomMetaData : SortedMap String Metadata) : State :=
  ⟨defaultParams, ∅, ∅, ∅, ∅, ∅, ∅, denomMetaData, []⟩

namespace Params

def unitInterval (x : LegacyDec) : Prop := ¬ 1 < x ∧ ¬ x < 0

instance (x : LegacyDec) : Decidable (unitInterval x) := inferInstanceAs (Decidable (_ ∧ _))

def validate (p : Params) : Exec Unit := do
  ensure (p.votePeriod ≠ 0) (.error "oracle parameter VotePeriod must be > 0, is %d")
  ensure (¬ p.voteThreshold ≤ ⟨330000000000000000⟩)
    (.error "oracle parameter VoteThreshold must be greater than 33 percent")
  ensure (unitInterval p.rewardBand) (.error "oracle parameter RewardBand must be between [0, 1]")
  ensure (unitInterval p.slashFraction)
    (.error "oracle parameter SlashFraction must be between [0, 1]")
  ensure (p.votePeriod ≤ p.slashWindow)
    (.error "oracle parameter SlashWindow must be greater than or equal with VotePeriod")
  ensure (p.slashWindow % p.votePeriod = 0)
    (.error "oracle parameter SlashWindow must be divisible by VotePeriod")
  ensure (unitInterval p.minValidPerWindow)
    (.error "oracle parameter MinValidPerWindow must be between [0, 1]")
  ensure (∀ denom ∈ p.whitelist, denom.name ≠ "")
    (.error "oracle parameter Whitelist Denom must have name")

/-- What the validation promises. -/
structure Valid (p : Params) : Prop where
  votePeriod_ne_zero : p.votePeriod ≠ 0
  voteThreshold_gt : 330000000000000000 < p.voteThreshold.raw
  rewardBand_nonneg : 0 ≤ p.rewardBand.raw
  rewardBand_le_one : p.rewardBand.raw ≤ 1000000000000000000
  slashWindow_ne_zero : p.slashWindow ≠ 0
  whitelist_named : ∀ denom ∈ p.whitelist, denom.name ≠ ""

theorem valid_of_validate {p : Params} {u : Unit} (h : p.validate = .ok u) : p.Valid := by
  simp only [validate, bind_eq_ok, ensure_eq_ok, exists_const] at h
  obtain ⟨hperiod, hthreshold, ⟨hband1, hband0⟩, _, hle, _, _, hnamed⟩ := h
  exact ⟨hperiod, lt_of_not_ge hthreshold, le_of_not_gt hband0, le_of_not_gt hband1, by omega,
    hnamed⟩

theorem valid_defaultParams : defaultParams.Valid := by
  apply valid_of_validate (u := ())
  decide

end Params

section Staking

structure Validator where
  operator : ValAddress
  tokens : ℕ
  bonded : Bool
  jailed : Bool
  consAddr : Option String
deriving DecidableEq

namespace Validator

def consensusPower (v : Validator) (powerReduction : ℕ) : ℤ :=
  if v.bonded then ((v.tokens / powerReduction : ℕ) : ℤ) else 0

end Validator

def bondedTokens (validators : SortedMap ValAddress Validator) : ℕ :=
  (validators.entries.map (fun e => if e.2.bonded then e.2.tokens else 0)).sum

/-- The staking module after its own end blocker: the power index lists stored
validators, among them every bonded one, and the bonded power fits an int64. -/
structure Staking where
  validators : SortedMap ValAddress Validator
  powerStore : List ValAddress
  powerReduction : ℕ
  reduction_pos : 0 < powerReduction
  operator_eq : ∀ a v, validators.get? a = some v → v.operator = a
  powerStore_stored : ∀ a ∈ powerStore, ∃ v, validators.get? a = some v
  bonded_listed : ∀ a v, validators.get? a = some v → v.bonded = true → a ∈ powerStore
  total_bounded : bondedTokens validators / powerReduction < 2 ^ 63

namespace Staking

variable (st : Staking)

def totalBondedTokens : ℕ := bondedTokens st.validators

def totalBondedPower : ℤ := ((st.totalBondedTokens / st.powerReduction : ℕ) : ℤ)

def Bonded (a : ValAddress) : Prop := ∃ v, st.validators.get? a = some v ∧ v.bonded = true

/-- The voting power of an operator, zero unless it is bonded. -/
def power (a : ValAddress) : ℤ :=
  match st.validators.get? a with
  | some v => v.consensusPower st.powerReduction
  | none => 0

instance (a : ValAddress) : Decidable (st.Bonded a) :=
  decidable_of_iff ((st.validators.get? a).any (·.bonded) = true) <| by
    unfold Bonded
    cases st.validators.get? a <;> simp

variable {st}

theorem power_nonneg (a : ValAddress) : 0 ≤ st.power a := by
  unfold power
  split
  · unfold Validator.consensusPower
    split_ifs
    · positivity
    · exact le_rfl
  · exact le_rfl

end Staking

end Staking

end Kiichain.Oracle
