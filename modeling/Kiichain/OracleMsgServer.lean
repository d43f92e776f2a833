import Kiichain.OracleVotes

/-!
# The messages of the oracle

The address codec and the parser of decimal coins enter as parameters; the
parser returns only valid denominations with amounts that are not negative. A
vote that the handler stores is accepted in the sense of the tally.
-/

namespace Kiichain.Oracle
open GoExec FixedPoint

/-- What the messages use of the SDK: addresses by their text, and `ParseDecCoin`. -/
structure Codec where
  valAddressFromBech32 : String → Exec ValAddress
  accAddressFromBech32 : String → Exec AccAddress
  accAddress : ValAddress → AccAddress
  valAddress : AccAddress → ValAddress
  parseDecCoin : String → Exec (String × LegacyDec)
  parse_valid : ∀ text denom amount, parseDecCoin text = .ok (denom, amount) →
    validDenom denom = true ∧ 0 ≤ amount.raw

structure MsgAggregateExchangeRateVote where
  exchangeRates : String
  feeder : String
  validator : String

structure MsgDelegateFeedConsent where
  validatorOwner : String
  delegate : String

structure MsgUpdateParams where
  authority : String
  params : Params

inductive Msg
  | aggregateExchangeRateVote (msg : MsgAggregateExchangeRateVote)
  | delegateFeedConsent (msg : MsgDelegateFeedConsent)
  | updateParams (msg : MsgUpdateParams)

/-- A returned error under another text. -/
def reworded {α : Type} (text : String) (x : Exec α) : Exec α :=
  match x with
  | .error (.error _) => .error (.error text)
  | y => y

@[simp] theorem reworded_eq_ok {α : Type} {text : String} {x : Exec α} {a : α} :
    reworded text x = .ok a ↔ x = .ok a := by
  cases x with
  | ok b => rfl
  | error e => cases e <;> simp [reworded]

section Votes

variable (codec : Codec)

def bitLen (n : ℕ) : ℕ := if n = 0 then 0 else n.log2 + 1

/-- One tuple of the text; a denomination may come once. -/
def parseTuple (tuples : List ExchangeRateTuple) (tupleStr : String) :
    Exec (List ExchangeRateTuple) := do
  let (denom, amount) ← codec.parseDecCoin tupleStr
  ensure (∀ tuple ∈ tuples, tuple.denom ≠ denom) (.error ("duplicate denom " ++ denom))
  pure (tuples ++ [⟨denom, amount⟩])

def parseExchangeRateTuples (exchangeRateStr : String) : Exec (List ExchangeRateTuple) :=
  let trimmed := GoStrings.trimSpace exchangeRateStr
  if trimmed = "" then pure []
  else (GoStrings.splitString ',' trimmed).foldlM (parseTuple codec) []

namespace MsgAggregateExchangeRateVote

def validateBasic (msg : MsgAggregateExchangeRateVote) : Exec Unit := do
  let _ ← reworded "Invalid feeder address (%s): invalid address"
    (codec.accAddressFromBech32 msg.feeder)
  let _ ← reworded "Invalid operator address (%s): invalid address"
    (codec.valAddressFromBech32 msg.validator)
  ensure (msg.exchangeRates.utf8ByteSize ≠ 0)
    (.error "must provide at least one oracle exchange rate: unknown request")
  ensure (msg.exchangeRates.utf8ByteSize ≤ 4096)
    (.error "exchange rates string can not exceed 4096 characters: invalid request")
  let exchangeRates ← reworded "failed to parse exchange rates string cause: %s: invalid coins"
    (parseExchangeRateTuples codec msg.exchangeRates)
  ensure (∀ rate ∈ exchangeRates, bitLen rate.exchangeRate.raw.natAbs ≤ rateBits)
    (.error "overflow exchange rate: invalid exchange rate")

end MsgAggregateExchangeRateVote

def getFeederDelegationOrDefault (s : State) (valAddr : ValAddress) : Exec AccAddress :=
  match s.feederDelegation.get? valAddr with
  | none => pure (codec.accAddress valAddr)
  | some accAddressString => codec.accAddressFromBech32 accAddressString

def validateFeeder (st : Staking) (s : State) (feederAddr : AccAddress) (valAddr : ValAddress) :
    Exec Unit := do
  if feederAddr ≠ codec.accAddress valAddr then
    let delegator ← getFeederDelegationOrDefault codec s valAddr
    ensure (delegator = feederAddr) (.error (feederAddr ++ ": unauthorized voter"))
  let validator ← require (st.validators.get? valAddr)
    (.error ("validator " ++ valAddr ++ " not found: validator does not exist"))
  ensure (validator.bonded = true)
    (.error ("validator " ++ valAddr ++ " is not active set: validator does not exist"))

def newAggregateExchangeRateVote (tuples : List ExchangeRateTuple) (voter : ValAddress) :
    Exec AggregateExchangeRateVote := do
  ensure (∀ tuple ∈ tuples, 0 < tuple.exchangeRate)
    (.error "exchange rate for denom %s must be greater than zero, got %s")
  pure ⟨tuples, voter⟩

def unknownDenom (s : State) (tuples : List ExchangeRateTuple) : Option ExchangeRateTuple :=
  tuples.find? (fun tuple => (s.voteTarget.get? tuple.denom).isNone)

def aggregateExchangeRateVote (st : Staking) (s : State) (msg : MsgAggregateExchangeRateVote) :
    Exec State := do
  let valAddress ← codec.valAddressFromBech32 msg.validator
  let feederAddress ← codec.accAddressFromBech32 msg.feeder
  validateFeeder codec st s feederAddress valAddress
  let exchangeRates ← reworded "%s: invalid coins" (parseExchangeRateTuples codec msg.exchangeRates)
  match unknownDenom s exchangeRates with
  | some tuple => fail (tuple.denom ++ ": unknown denom")
  | none => do
    let vote ← reworded "%s: aggregate vote has invalid exchange rate"
      (newAggregateExchangeRateVote exchangeRates valAddress)
    pure { s with
      aggregateExchangeRateVote := s.aggregateExchangeRateVote.insert valAddress vote }

end Votes

section Consent

variable (codec : Codec)

namespace MsgDelegateFeedConsent

def validateBasic (msg : MsgDelegateFeedConsent) : Exec Unit := do
  let _ ← reworded "Invalid validator owner address (%s): invalid address"
    (codec.accAddressFromBech32 msg.validatorOwner)
  let _ ← reworded "Invalid delegate address (%s): invalid address"
    (codec.accAddressFromBech32 msg.delegate)
  pure ()

end MsgDelegateFeedConsent

def delegateFeedConsent (st : Staking) (s : State) (msg : MsgDelegateFeedConsent) : Exec State := do
  let validatorOwnerAddress ← codec.accAddressFromBech32 msg.validatorOwner
  let validatorAddress := codec.valAddress validatorOwnerAddress
  let delegatorAddress ← codec.accAddressFromBech32 msg.delegate
  ensure (st.validators.get? validatorAddress).isSome
    (.error (validatorAddress ++ ": validator does not exist"))
  pure { s with feederDelegation := s.feederDelegation.insert validatorAddress delegatorAddress }

end Consent

def updateParams (authority : String) (s : State) (msg : MsgUpdateParams) : Exec State := do
  ensure (authority = msg.authority) (.error "invalid authority %s, expected %s: unauthorized")
  reworded "%s: invalid request" msg.params.validate
  pure { s with params := msg.params }

/-- A message with the stateless checks that come before its handler. -/
def deliver (codec : Codec) (authority : String) (st : Staking) (s : State) : Msg → Exec State
  | .aggregateExchangeRateVote msg => do
    msg.validateBasic codec
    aggregateExchangeRateVote codec st s msg
  | .delegateFeedConsent msg => do
    msg.validateBasic codec
    delegateFeedConsent codec st s msg
  | .updateParams msg => updateParams authority s msg

section Accepted

variable {codec : Codec} {st : Staking} {s t : State}

theorem bitLen_le_iff {n k : ℕ} : bitLen n ≤ k ↔ n < 2 ^ k := by
  unfold bitLen
  split_ifs with h
  · simp [h]
  · rw [Nat.succ_le_iff, Nat.log2_lt h]

theorem ne_empty_of_validDenom {denom : String} (h : validDenom denom = true) : denom ≠ "" := by
  rintro rfl
  cases h

/-- The parsed tuples are distinct and named. -/
theorem parseExchangeRateTuples_spec {text : String} {tuples : List ExchangeRateTuple}
    (h : parseExchangeRateTuples codec text = .ok tuples) :
    tuples.Pairwise (fun x y => x.denom ≠ y.denom) ∧ ∀ tuple ∈ tuples, tuple.denom ≠ "" := by
  unfold parseExchangeRateTuples at h
  dsimp only at h
  split_ifs at h
  · cases h
    simp
  · apply foldlM_invariant (I := fun l : List ExchangeRateTuple =>
      l.Pairwise (fun x y => x.denom ≠ y.denom) ∧ ∀ tuple ∈ l, tuple.denom ≠ "") _ (by simp) h
    rintro l text _ l' ⟨hdistinct, hnamed⟩ hturn
    simp only [parseTuple, bind_eq_ok, ensure_eq_ok, exists_const, pure_eq_ok, Except.ok.injEq] at hturn
    obtain ⟨⟨denom, amount⟩, hparse, hfresh, rfl⟩ := hturn
    obtain ⟨hvalid, _⟩ := codec.parse_valid text denom amount hparse
    constructor
    · rw [List.pairwise_append]
      refine ⟨hdistinct, List.pairwise_singleton _ _, ?_⟩
      intro x hx y hy
      rw [List.mem_singleton.mp hy]
      exact hfresh x hx
    · intro x hx
      obtain hx | hx := List.mem_append.mp hx
      · exact hnamed x hx
      · rw [List.mem_singleton.mp hx]
        exact ne_empty_of_validDenom hvalid

/-- What a delivered vote stores: one accepted vote of a bonded operator. -/
theorem deliver_vote_eq {authority : String} {msg : MsgAggregateExchangeRateVote}
    (h : deliver codec authority st s (.aggregateExchangeRateVote msg) = .ok t) :
    ∃ a vote, codec.valAddressFromBech32 msg.validator = .ok a ∧ Accepted a vote ∧ t = { s with
      aggregateExchangeRateVote := s.aggregateExchangeRateVote.insert a vote } := by
  simp only [deliver, bind_eq_ok] at h
  obtain ⟨_, hbasic, h⟩ := h
  simp only [MsgAggregateExchangeRateVote.validateBasic, bind_eq_ok, reworded_eq_ok, ensure_eq_ok,
    exists_const] at hbasic
  obtain ⟨_, _, _, _, _, _, tuples, hparse, hbits⟩ := hbasic
  simp only [aggregateExchangeRateVote, bind_eq_ok, reworded_eq_ok] at h
  obtain ⟨a, haddress, _, _, _, _, tuples', hparse', h⟩ := h
  rw [hparse] at hparse'
  cases hparse'
  split at h
  · cases h
  · simp only [newAggregateExchangeRateVote, bind_eq_ok, reworded_eq_ok, ensure_eq_ok, exists_const,
      pure_eq_ok, Except.ok.injEq] at h
    obtain ⟨_, ⟨hpos, rfl⟩, rfl⟩ := h
    obtain ⟨hdistinct, hnamed⟩ := parseExchangeRateTuples_spec hparse
    exact ⟨a, _, haddress, ⟨rfl, hdistinct, hnamed, fun x hx => Decimal.lt_iff.mp (hpos x hx),
      fun x hx => bitLen_le_iff.mp (hbits x hx)⟩, rfl⟩

/-- The stored votes stay accepted, the parameters valid, and nothing else that
the blocks read changes. -/
structure Delivered (s t : State) : Prop where
  votePenaltyCounter : t.votePenaltyCounter = s.votePenaltyCounter
  exchangeRate : t.exchangeRate = s.exchangeRate
  voteTarget : t.voteTarget = s.voteTarget
  priceSnapshot : t.priceSnapshot = s.priceSnapshot
  accepted : AcceptedVotes s → AcceptedVotes t
  valid : s.params.Valid → t.params.Valid

theorem delivered_self (s : State) : Delivered s s := ⟨rfl, rfl, rfl, rfl, id, id⟩

theorem delivered_of_deliver {authority : String} {msg : Msg}
    (h : deliver codec authority st s msg = .ok t) : Delivered s t := by
  cases msg with
  | aggregateExchangeRateVote msg =>
      obtain ⟨a, vote, _, haccepted, rfl⟩ := deliver_vote_eq h
      refine ⟨rfl, rfl, rfl, rfl, fun hs b w hb => ?_, id⟩
      simp only [SortedMap.get?_insert] at hb
      split_ifs at hb with hab
      · cases hb
        exact hab ▸ haccepted
      · exact hs b w hb
  | delegateFeedConsent msg =>
      simp only [deliver, delegateFeedConsent, bind_eq_ok, ensure_eq_ok, exists_const, pure_eq_ok,
        Except.ok.injEq] at h
      obtain ⟨_, _, _, _, _, _, _, rfl⟩ := h
      exact ⟨rfl, rfl, rfl, rfl, id, id⟩
  | updateParams msg =>
      simp only [deliver, updateParams, bind_eq_ok, ensure_eq_ok, reworded_eq_ok, exists_const,
        pure_eq_ok, Except.ok.injEq] at h
      obtain ⟨_, _, hvalid, rfl⟩ := h
      exact ⟨rfl, rfl, rfl, rfl, id, fun _ => Params.valid_of_validate hvalid⟩

end Accepted

end Kiichain.Oracle
