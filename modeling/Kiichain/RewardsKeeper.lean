import Kiichain.Coins
import Kiichain.GoTime
import Kiichain.Ledger
import Kiichain.Runs

/-!
# The rewards module

A release schedule pays its total amount out of the reward pool, block by block,
in proportion to the elapsed part of the remaining period. Messages fund the
pool, replace the schedule and change the denomination.
-/

namespace Kiichain.Rewards
open GoExec FixedPoint

def moduleName : String := "rewards"

structure Params where
  tokenDenom : String
deriving DecidableEq

structure ReleaseSchedule where
  totalAmount : Coin
  releasedAmount : Coin
  endTime : ℤ
  lastReleaseTime : ℤ
  active : Bool
deriving DecidableEq

structure State where
  params : Params
  rewardPool : DecCoins
  releaseSchedule : ReleaseSchedule
  bank : Ledger Account String

/-- What a handler reads beside the state: the block header's time and the two
readings `validateSchedule` takes of the local clock. -/
structure Context where
  blockTime : ℤ
  currentTime : ℤ
  endTimeNow : ℤ

structure Keeper where
  authority : String
  feeCollectorName : String
  accAddressFromBech32 : String → Option Account

structure MsgFundPool where
  sender : String
  amount : Coin

structure MsgChangeSchedule where
  authority : String
  schedule : ReleaseSchedule

structure MsgUpdateParams where
  authority : String
  params : Params

def defaultParams : Params := ⟨"akii"⟩

def initialReleaseSchedule : ReleaseSchedule := ⟨⟨"", 0⟩, ⟨"", 0⟩, 0, 0, false⟩

def defaultGenesis (bank : Ledger Account String) : State :=
  ⟨defaultParams, ∅, initialReleaseSchedule, bank⟩

namespace Params

def validateBasic (p : Params) : Exec Unit :=
  ensure (p.tokenDenom ≠ "") (.error "invalid denom, empty: %s")

end Params

/-- The part of the remaining amount to release at `blockTime`, at least one
unit and at most everything. -/
def calculateReward (blockTime : ℤ) (schedule : ReleaseSchedule) : Exec Coin := do
  let remaining ← schedule.totalAmount.sub schedule.releasedAmount
  if remaining.isZero then pure remaining
  else do
    ensure (schedule.endTime ≠ schedule.lastReleaseTime)
      (.error "end time is equal to last release and would do a division by 0. EndTime: %s")
    let timeElapsed := GoTime.wholeSeconds (GoTime.sub blockTime schedule.lastReleaseTime)
    let totalDuration := GoTime.wholeSeconds (GoTime.sub schedule.endTime schedule.lastReleaseTime)
    let releaseProportion ← (Decimal.ofInt timeElapsed : LegacyDec).quo (.ofInt totalDuration)
    let share ← (Decimal.ofInt remaining.amount.val : LegacyDec).mul releaseProportion
    let amountToRelease ← share.truncateInt 256
    Coin.newCoin schedule.totalAmount.denom (min (max amountToRelease 1) remaining.amount)

section Messages

variable (k : Keeper) (ctx : Context) (s : State)

def validateAuthority (authority : String) : Exec Unit := do
  ensure ((k.accAddressFromBech32 authority).isSome) (.error "invalid authority address: %s")
  ensure (k.authority = authority) (.error "invalid authority; expected %s, got %s")

def validateAmount (amount : Coin) : Exec Unit :=
  match amount.validate with
  | .ok () => pure ()
  | .error _ => fail "%s: invalid coins"

def validateEndTime (endTime : ℤ) : Exec Unit :=
  ensure (¬ endTime < ctx.endTimeNow) (.error "end time %s is not in the future")

def fundsAvailable (amount : Coin) : Exec Unit := do
  let poolAmount := DecCoins.amountOf s.rewardPool amount.denom
  ensure (¬ poolAmount < Decimal.ofInt amount.amount.val)
    (.error "reward pool (%s) has less funds than requested (%s)")

def validateReleasedAmount (schedule : ReleaseSchedule) : Exec Unit := do
  ensure (schedule.releasedAmount.denom = schedule.totalAmount.denom)
    (.error "released amount denom %s doesn't match total amount denom %s")
  if schedule.releasedAmount.isZero then pure ()
  else do
    wrapped "invalid released amount: " (validateAmount schedule.releasedAmount)
    ensure (schedule.releasedAmount.amount ≤ schedule.totalAmount.amount)
      (.error "released amount %s cannot exceed total amount %s")

def validateLastReleaseTime (schedule : ReleaseSchedule) : Exec Unit :=
  if schedule.lastReleaseTime = 0 then pure ()
  else do
    ensure (schedule.lastReleaseTime ≤ ctx.currentTime)
      (.error "last release time %s cannot be in the future")
    ensure (schedule.lastReleaseTime ≤ schedule.endTime)
      (.error "last release time %s cannot be after end time %s")

def validateActive (schedule : ReleaseSchedule) : Exec Unit :=
  if schedule.active then do
    ensure (¬ schedule.totalAmount.isZero) (.error "active schedule cannot have zero total amount")
    ensure (schedule.endTime ≠ 0) (.error "active schedule must have an end time")
  else pure ()

def validateSchedule (schedule : ReleaseSchedule) : Exec Unit := do
  wrapped "invalid total amount: " (validateAmount schedule.totalAmount)
  ensure (s.params.tokenDenom = schedule.totalAmount.denom)
    (.error "denom %s does not match expected denom: %s")
  validateReleasedAmount schedule
  ensure (schedule.endTime ≠ 0) (.error "end time cannot be zero")
  validateEndTime ctx schedule.endTime
  validateLastReleaseTime ctx schedule
  validateActive schedule

def updateParams (msg : MsgUpdateParams) : Exec State := do
  validateAuthority k msg.authority
  msg.params.validateBasic
  pure { s with params := msg.params }

/-- The bank refuses to send an amount that is not positive. -/
def fundCommunityPool (amount : Coin) (sender : Account) : Exec State := do
  ensure (validDenom amount.denom ∧ 0 < amount.amount.val) (.error "invalid coins")
  let bank ← s.bank.send sender (.module moduleName) amount.denom amount.amount.val.toNat
  let pool ← DecCoins.add s.rewardPool amount
  pure { s with bank := bank, rewardPool := pool }

def fundPool (msg : MsgFundPool) : Exec State := do
  let depositor ← require (k.accAddressFromBech32 msg.sender)
    (.error "invalid depositor address: %s")
  validateAmount msg.amount
  ensure (s.params.tokenDenom = msg.amount.denom)
    (.error "denom %s does not match expected denom: %s")
  fundCommunityPool s msg.amount depositor

def changeSchedule (msg : MsgChangeSchedule) : Exec State := do
  validateAuthority k msg.authority
  wrapped "invalid schedule: " (validateSchedule ctx s msg.schedule)
  wrapped "insufficient funds: " (fundsAvailable s msg.schedule.totalAmount)
  pure { s with releaseSchedule := msg.schedule }

end Messages

/-- `SendCoinsFromModuleToModule` of one coin, then the deduction from the pool. -/
def release (k : Keeper) (s : State) (amount : Coin) : Exec State := do
  ensure (validDenom amount.denom ∧ 0 < amount.amount.val) (.error "invalid coins")
  let bank ← s.bank.transfer (.module moduleName) (.module k.feeCollectorName) amount.denom
    amount.amount.val.toNat
  let pool ← DecCoins.sub s.rewardPool amount
  pure { s with bank := bank, rewardPool := pool }

def beginBlocker (k : Keeper) (blockTime : ℤ) (s : State) : Exec State :=
  let schedule := s.releaseSchedule
  if !schedule.active || schedule.totalAmount.isZero then pure s
  else if schedule.lastReleaseTime = 0 then
    pure { s with releaseSchedule := { schedule with lastReleaseTime := blockTime } }
  else do
    let amountToDistribute ← calculateReward blockTime schedule
    if amountToDistribute.isZero then
      pure { s with releaseSchedule := { schedule with active := false } }
    else do
      let t ← release k s amountToDistribute
      let released ← schedule.releasedAmount.add amountToDistribute
      pure { t with releaseSchedule :=
        { schedule with lastReleaseTime := blockTime, releasedAmount := released } }

inductive Event
  | fundPool (msg : MsgFundPool)
  | changeSchedule (ctx : Context) (msg : MsgChangeSchedule)
  | updateParams (msg : MsgUpdateParams)
  | beginBlock (blockTime : ℤ)

/-- Every account but the module's own can sign a message: users by their keys,
the governance account by proposals. -/
def canSign (k : Keeper) (sender : String) : Bool :=
  k.accAddressFromBech32 sender ≠ some (.module moduleName)

def step (k : Keeper) (s : State) : Event → Exec State
  | .fundPool msg => pure (if canSign k msg.sender then rolledBack s (fundPool k s msg) else s)
  | .changeSchedule ctx msg => pure (rolledBack s (changeSchedule k ctx s msg))
  | .updateParams msg => pure (rolledBack s (updateParams k s msg))
  | .beginBlock blockTime => beginBlocker k blockTime s

end Kiichain.Rewards
