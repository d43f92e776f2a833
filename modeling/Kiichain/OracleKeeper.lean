import Kiichain.OracleBallot
import Kiichain.GoStrings

/-!
# The oracle keeper and its block handlers

Where the source ranges over a Go map, an `IterationOrder` gives the order in
which that loop meets the keys. Walks of the store go by key.
-/

namespace Kiichain.Oracle
open GoExec FixedPoint

/-- The loops of the end blocker that range over a Go map. -/
inductive RangeLoop
  | organizeBallot
  | pickReference
  | collectDenoms
  | collectBelowThreshold
  | missCount
deriving DecidableEq

structure IterationOrder where
  keys : RangeLoop → List String → List String
  perm : ∀ loop ks, (keys loop ks).Perm ks

namespace IterationOrder

def ascending : IterationOrder := ⟨fun _ ks => ks, fun _ ks => List.Perm.refl ks⟩

end IterationOrder

def sortStrings (l : List String) : List String := l.insertionSort (· ≤ ·)

section Counters

variable (s : State) (operator : ValAddress)

def getVotePenaltyCounterOrDefault : VotePenaltyCounter :=
  (s.votePenaltyCounter.get? operator).getD ⟨0, 0, 0⟩

def setVotePenaltyCounter (counter : VotePenaltyCounter) : State :=
  { s with votePenaltyCounter := s.votePenaltyCounter.insert operator counter }

/-- The counters are unsigned 64-bit numbers. -/
def increment64 (n : ℕ) : ℕ := (n + 1) % 2 ^ 64

def incrementMissCount : State :=
  let counter := getVotePenaltyCounterOrDefault s operator
  setVotePenaltyCounter s operator { counter with missCount := increment64 counter.missCount }

def incrementAbstainCount : State :=
  let counter := getVotePenaltyCounterOrDefault s operator
  setVotePenaltyCounter s operator { counter with abstainCount := increment64 counter.abstainCount }

def incrementSuccessCount : State :=
  let counter := getVotePenaltyCounterOrDefault s operator
  setVotePenaltyCounter s operator { counter with successCount := increment64 counter.successCount }

end Counters

section Votes

variable (rt : Runtime) (o : IterationOrder) (st : Staking) (s : State)

abbrev VoteMap := SortedMap String Ballot

/-- The claims of the bonded validators of the power index. -/
def validatorClaimMap : Exec ClaimMap :=
  st.powerStore.foldlM (fun claims valAddr => do
    let validator ← require (st.validators.get? valAddr) (.error "validator does not exist")
    pure (if validator.bonded then
      claims.insert validator.operator
        (newClaim (validator.consensusPower st.powerReduction) 0 0 false validator.operator)
    else claims)) ∅

def voteForTally (power : ℤ) (voterAddr : ValAddress) (tuple : ExchangeRateTuple) : VoteForTally :=
  ⟨tuple.denom, tuple.exchangeRate, voterAddr, if 0 < tuple.exchangeRate then power else 0⟩

def appendVote (votes : VoteMap) (vote : VoteForTally) : VoteMap :=
  votes.insert vote.denom ((votes.get? vote.denom).getD [] ++ [vote])

def aggregateHandler (claims : ClaimMap) (votes : VoteMap) (voterAddr : ValAddress)
    (aggregateVote : AggregateExchangeRateVote) : VoteMap :=
  match claims.get? aggregateVote.voter with
  | some claim =>
    (aggregateVote.exchangeRateTuples.map (voteForTally claim.power voterAddr)).foldl appendVote votes
  | none => votes

def sortBallot (votes : VoteMap) (denom : String) : VoteMap :=
  votes.insert denom (rt.sort ((votes.get? denom).getD []))

def organizeBallotByDenom (claims : ClaimMap) : VoteMap :=
  let votes := s.aggregateExchangeRateVote.entries.foldl
    (fun votes e => aggregateHandler claims votes e.1 e.2) ∅
  (o.keys .organizeBallot votes.keys).foldl (sortBallot rt) votes

end Votes

section ReferenceDenom

def thresholdVotes (st : Staking) (params : Params) : Exec ℤ := do
  let scaled ← params.voteThreshold.mulInt st.totalBondedPower
  let rounded ← scaled.roundInt 256
  pure rounded.val

def ballotIsPassing (ballot : Ballot) (threshold : ℤ) : Bool :=
  ballot.power ≠ 0 && decide (threshold ≤ ballot.power)

/-- The variables of the selection loop: the maps shrink while it ranges. -/
structure Pick where
  referenceDenom : String
  highestBallotPower : ℤ
  belowThresholdVoteMap : VoteMap
  voteTargets : SortedMap String Denom
  voteMap : VoteMap

def pickBest (p : Pick) (denom : String) (power : ℤ) : Pick :=
  if power > p.highestBallotPower ∨ p.highestBallotPower = 0 then
    { p with referenceDenom := denom, highestBallotPower := power }
  else if power = p.highestBallotPower ∧ denom < p.referenceDenom then
    { p with referenceDenom := denom }
  else p

def pickStep (threshold : ℤ) (p : Pick) (denom : String) : Pick :=
  match p.voteMap.get? denom with
  | none => p
  | some ballot =>
    match p.voteTargets.get? denom with
    | none => { p with voteMap := p.voteMap.erase denom }
    | some _ =>
      if ballotIsPassing ballot threshold then pickBest p denom ballot.power
      else
        { p with
          belowThresholdVoteMap := p.belowThresholdVoteMap.insert denom ballot
          voteTargets := p.voteTargets.erase denom
          voteMap := p.voteMap.erase denom }

def pickReferenceDenom (o : IterationOrder) (st : Staking) (params : Params)
    (voteTargets : SortedMap String Denom) (voteMap : VoteMap) : Exec Pick := do
  let threshold ← thresholdVotes st params
  pure ((o.keys .pickReference voteMap.keys).foldl (pickStep threshold)
    ⟨"", 0, ∅, voteTargets, voteMap⟩)

end ReferenceDenom

section EndBlocker

variable (rt : Runtime) (o : IterationOrder) (blk : Block) (st : Staking)

def setBaseExchangeRateWithDefault (s : State) (denom : String) (exchangeRate : LegacyDec) : State :=
  let rate : OracleExchangeRate := ⟨exchangeRate, blk.height, GoTime.unixMilli blk.time⟩
  { s with exchangeRate := s.exchangeRate.insert denom rate }

def setBaseExchangeRateWithEvent (s : State) (denom : String) (exchangeRate : LegacyDec) : State :=
  let t := setBaseExchangeRateWithDefault blk s denom exchangeRate
  { t with events := t.events ++ [(denom, exchangeRate)] }

/-- The reference denomination with its rates by voter and its median. -/
structure Reference where
  denom : String
  rates : SortedMap ValAddress LegacyDec
  median : LegacyDec

def votingTally (ref : Reference) (voteMap : VoteMap) (denom : String) : Ballot :=
  let ballot := (voteMap.get? denom).getD []
  if denom ≠ ref.denom then ballot.toCrossRateWithSort rt ref.rates else ballot

def baseRate (ref : Reference) (denom : String) (rate : LegacyDec) : Exec LegacyDec :=
  if denom ≠ ref.denom then ref.median.quo rate else pure rate

/-- One passing denomination: tally its ballot, write its rate unless it is zero. -/
def tallyDenom (rewardBand : LegacyDec) (ref : Reference) (voteMap : VoteMap)
    (acc : ClaimMap × State) (denom : String) : Exec (ClaimMap × State) := do
  let (rate, claims) ← tally rt rewardBand (votingTally rt ref voteMap denom) acc.1
  if rate.raw = 0 then pure (claims, acc.2)
  else do
    let rate ← baseRate ref denom rate
    pure (claims, setBaseExchangeRateWithEvent blk acc.2 denom rate)

def tallyPassing (rewardBand : LegacyDec) (p : Pick) (claims : ClaimMap) (s : State) :
    Exec (ClaimMap × State) :=
  if p.referenceDenom ≠ "" then do
    let ballot := (p.voteMap.get? p.referenceDenom).getD []
    let median ← ballot.weightedMedianWithAssertion
    let ref : Reference := ⟨p.referenceDenom, ballot.toMap, median⟩
    (sortStrings (o.keys .collectDenoms p.voteMap.keys)).foldlM
      (tallyDenom rt blk rewardBand ref p.voteMap) (claims, s)
  else pure (claims, s)

def tallyBelowThreshold (rewardBand : LegacyDec) (below : VoteMap) (claims : ClaimMap) :
    Exec ClaimMap :=
  (sortStrings (o.keys .collectBelowThreshold below.keys)).foldlM (fun claims denom => do
    let (_, claims) ← tally rt rewardBand ((below.get? denom).getD []) claims
    pure claims) claims

/-- The outcome of a period for one validator. -/
inductive Outcome
  | success
  | abstain
  | miss
deriving DecidableEq

def outcome (targets : ℕ) (claim : Claim) : Outcome :=
  if claim.winCount = targets then .success else if claim.didVote then .miss else .abstain

def countOutcome (s : State) (operator : ValAddress) : Outcome → State
  | .success => incrementSuccessCount s operator
  | .abstain => incrementAbstainCount s operator
  | .miss => incrementMissCount s operator

def countVote (targets : ℕ) (claims : ClaimMap) (s : State) (operator : ValAddress) : State :=
  match claims.get? operator with
  | some claim => countOutcome s claim.recipient (outcome targets claim)
  | none => s

def countVotes (targets : ℕ) (claims : ClaimMap) (s : State) : State :=
  (o.keys .missCount claims.keys).foldl (countVote targets claims) s

def bankMetadata (base : String) : Metadata :=
  let display := String.ofList base.toList.tail
  let nameSymbol := display.toUpper
  ⟨display, [⟨"u" ++ display, 0, ["micro" ++ display]⟩, ⟨"m" ++ display, 3, ["mili" ++ display]⟩,
    ⟨display, 6, []⟩], base, display, nameSymbol, nameSymbol⟩

def setVoteTarget (s : State) (item : Denom) : Exec State := do
  let t := { s with voteTarget := s.voteTarget.insert item.name item }
  if (t.denomMetaData.get? item.name).isSome then pure t
  else do
    ensure (item.name ≠ "") (.panic "slice bounds out of range [1:0]")
    pure { t with denomMetaData := t.denomMetaData.insert item.name (bankMetadata item.name) }

def updateRequired (whitelist : List Denom) (voteTargets : SortedMap String Denom) : Bool :=
  voteTargets.size ≠ whitelist.length ||
    whitelist.any (fun item => (voteTargets.get? item.name).isNone)

def applyWhitelist (whitelist : List Denom) (voteTargets : SortedMap String Denom) (s : State) :
    Exec State :=
  if updateRequired whitelist voteTargets then
    whitelist.foldlM setVoteTarget { s with voteTarget := ∅ }
  else pure s

def expired (s : State) (snapshot : PriceSnapshot) : Bool :=
  GoTime.int64 (snapshot.snapshotTimestamp + GoTime.int64 s.params.lookbackDuration) <
    GoTime.unix blk.time

/-- The walk stops at the first snapshot that is recent enough. -/
def addPriceSnapshot (s : State) (snapshot : PriceSnapshot) : State :=
  let stored := s.priceSnapshot.insert snapshot.snapshotTimestamp snapshot
  let timestampsToDelete := (stored.entries.takeWhile (fun e => expired blk s e.2)).map
    (fun e => e.2.snapshotTimestamp)
  { s with priceSnapshot := timestampsToDelete.foldl (fun m t => m.erase t) stored }

def takePriceSnapshot (s : State) : State :=
  let items := s.exchangeRate.entries.map (fun e => (⟨e.1, e.2⟩ : PriceSnapshotItem))
  if items = [] then s else addPriceSnapshot blk s ⟨GoTime.unix blk.time, items⟩

def clearVotes (s : State) : State := { s with aggregateExchangeRateVote := ∅ }

/-- The work of the last block of a vote period. -/
def tallyPeriod (s : State) : Exec State := do
  let claims ← validatorClaimMap st
  let p ← pickReferenceDenom o st s.params s.voteTarget (organizeBallotByDenom rt o s claims)
  let (claims, t) ← tallyPassing rt o blk s.params.rewardBand p claims s
  let claims ← tallyBelowThreshold rt o s.params.rewardBand p.belowThresholdVoteMap claims
  let t := clearVotes (countVotes o p.voteTargets.size claims t)
  let t ← applyWhitelist s.params.whitelist p.voteTargets t
  pure (takePriceSnapshot blk t)

def endBlocker (s : State) : Exec State := do
  let last ← isPeriodLastBlock blk s.params.votePeriod
  if last then tallyPeriod rt o blk st s else pure s

end EndBlocker

end Kiichain.Oracle
