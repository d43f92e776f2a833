import Kiichain.OracleChain

/-!
# The votes in the store

A stored vote is valid for the targets of its time: the targets change only at
period ends, which clear the votes. It was last written by a message of the
validator's own account or of its feeder, while the validator was bonded.
-/

namespace Kiichain.Oracle
open GoExec FixedPoint

/-- What the tally reads of a stored vote can be relied on. -/
structure StoredVote (s : State) (a : ValAddress) (vote : AggregateExchangeRateVote) : Prop where
  voter_eq : vote.voter = a
  distinct : vote.exchangeRateTuples.Pairwise (fun x y => x.denom ≠ y.denom)
  rate_pos : ∀ tuple ∈ vote.exchangeRateTuples, 0 < tuple.exchangeRate
  target : ∀ tuple ∈ vote.exchangeRateTuples, (s.voteTarget.get? tuple.denom).isSome = true

/-- A stored vote is as good in another state with the same targets. -/
theorem StoredVote.of_targets {s t : State} {a : ValAddress} {vote : AggregateExchangeRateVote}
    (h : StoredVote s a vote) (htargets : t.voteTarget = s.voteTarget) : StoredVote t a vote :=
  ⟨h.voter_eq, h.distinct, h.rate_pos, htargets ▸ h.target⟩

def StoredVotes (s : State) : Prop :=
  ∀ a vote, s.aggregateExchangeRateVote.get? a = some vote → StoredVote s a vote

/-- `feeder` may vote for the bonded validator `a`: as its own account, or as the
feeder that it delegates to. -/
structure MayVote (codec : Codec) (st : Staking) (s : State) (feeder : AccAddress)
    (a : ValAddress) : Prop where
  bonded : ∃ validator, st.validators.get? a = some validator ∧ validator.bonded = true
  entitled : feeder = codec.accAddress a ∨
    ∃ text, s.feederDelegation.get? a = some text ∧ codec.accAddressFromBech32 text = .ok feeder

/-- The event is a vote of an entitled account that stores `vote` for `a`. -/
def Casts (env : Env) (a : ValAddress) (vote : AggregateExchangeRateVote) (c : Chain)
    (e : Event) : Prop :=
  ∃ msg feeder, e = .message (.aggregateExchangeRateVote msg) ∧
    env.codec.valAddressFromBech32 msg.validator = .ok a ∧
    env.codec.accAddressFromBech32 msg.feeder = .ok feeder ∧
    MayVote env.codec c.staking c.oracle feeder a ∧
    deliver env.codec env.authority c.staking c.oracle (.aggregateExchangeRateVote msg) = .ok
      { c.oracle with
        aggregateExchangeRateVote := c.oracle.aggregateExchangeRateVote.insert a vote }

section Messages

variable {codec : Codec} {st : Staking} {s t : State}

theorem mayVote_of_validateFeeder {feeder : AccAddress} {a : ValAddress} {u : Unit}
    (h : validateFeeder codec st s feeder a = .ok u) : MayVote codec st s feeder a := by
  unfold validateFeeder at h
  split_ifs at h with hown
  · simp only [bind_eq_ok, require_eq_ok, ensure_eq_ok, exists_const] at h
    obtain ⟨text, hdelegator, hfeeder, validator, hvalidator, hbonded⟩ := h
    refine ⟨⟨validator, hvalidator, hbonded⟩, ?_⟩
    unfold getFeederDelegationOrDefault at hdelegator
    cases hdelegation : s.feederDelegation.get? a with
    | none =>
        simp only [hdelegation, pure_eq_ok, Except.ok.injEq] at hdelegator
        exact Or.inl (hfeeder.symm.trans hdelegator.symm)
    | some account =>
        simp only [hdelegation, hfeeder] at hdelegator
        exact Or.inr ⟨account, rfl, hdelegator⟩
  · simp only [bind_eq_ok, require_eq_ok, ensure_eq_ok] at h
    obtain ⟨validator, hvalidator, hbonded⟩ := h
    exact ⟨⟨validator, hvalidator, hbonded⟩, Or.inl (not_not.mp hown)⟩

theorem target_of_unknownDenom {tuples : List ExchangeRateTuple}
    (h : unknownDenom s tuples = none) :
    ∀ tuple ∈ tuples, (s.voteTarget.get? tuple.denom).isSome = true := by
  intro tuple htuple
  have hnone := List.find?_eq_none.mp h tuple htuple
  simpa [Option.isSome_iff_ne_none] using hnone

/-- The vote that a message stores, and who sent it. -/
theorem storedVote_of_message {msg : MsgAggregateExchangeRateVote}
    (h : aggregateExchangeRateVote codec st s msg = .ok t) :
    ∃ a feeder vote, codec.valAddressFromBech32 msg.validator = .ok a ∧
      codec.accAddressFromBech32 msg.feeder = .ok feeder ∧ MayVote codec st s feeder a ∧
      StoredVote s a vote ∧
      t = { s with aggregateExchangeRateVote := s.aggregateExchangeRateVote.insert a vote } := by
  simp only [aggregateExchangeRateVote, bind_eq_ok, reworded_eq_ok] at h
  obtain ⟨a, ha, feeder, hfeeder, _, hmay, tuples, hparse, h⟩ := h
  cases hunknown : unknownDenom s tuples with
  | some tuple =>
      rw [hunknown] at h
      cases h
  | none =>
      rw [hunknown] at h
      simp only [newAggregateExchangeRateVote, bind_eq_ok, reworded_eq_ok, ensure_eq_ok,
        exists_const, pure_eq_ok, Except.ok.injEq] at h
      obtain ⟨_, ⟨hpos, rfl⟩, rfl⟩ := h
      refine ⟨a, feeder, _, ha, hfeeder, mayVote_of_validateFeeder hmay, ?_, rfl⟩
      exact ⟨rfl, (parseExchangeRateTuples_spec hparse).1, hpos, target_of_unknownDenom hunknown⟩

/-- Consent and parameters touch neither the votes nor the targets. -/
theorem deliver_cases {authority : String} {msg : Msg}
    (h : deliver codec authority st s msg = .ok t) :
    t.aggregateExchangeRateVote = s.aggregateExchangeRateVote ∧ t.voteTarget = s.voteTarget ∨
      ∃ m, msg = .aggregateExchangeRateVote m ∧ aggregateExchangeRateVote codec st s m = .ok t := by
  cases msg with
  | aggregateExchangeRateVote m =>
      obtain ⟨_, _, h⟩ := bind_eq_ok.mp h
      exact Or.inr ⟨m, rfl, h⟩
  | delegateFeedConsent m =>
      simp only [deliver, delegateFeedConsent, bind_eq_ok, ensure_eq_ok, exists_const, pure_eq_ok,
        Except.ok.injEq] at h
      obtain ⟨_, _, _, _, _, _, _, rfl⟩ := h
      exact Or.inl ⟨rfl, rfl⟩
  | updateParams m =>
      simp only [deliver, updateParams, bind_eq_ok, pure_eq_ok, Except.ok.injEq] at h
      obtain ⟨_, _, _, _, rfl⟩ := h
      exact Or.inl ⟨rfl, rfl⟩

end Messages

section Steps

variable {env : Env} {c c' : Chain}

/-- What a step makes of the votes and the targets: nothing, a vote more, or no
votes at all. -/
theorem votes_cases {e : Event} (h : step env c e = .ok c') :
    (c'.oracle.aggregateExchangeRateVote = c.oracle.aggregateExchangeRateVote ∧
      c'.oracle.voteTarget = c.oracle.voteTarget) ∨
    (∃ a vote, Casts env a vote c e ∧ StoredVote c.oracle a vote ∧
      c'.oracle.aggregateExchangeRateVote = c.oracle.aggregateExchangeRateVote.insert a vote ∧
      c'.oracle.voteTarget = c.oracle.voteTarget) ∨
    c'.oracle.aggregateExchangeRateVote = ∅ := by
  cases e with
  | stake st =>
      cases h
      exact Or.inl ⟨rfl, rfl⟩
  | message msg =>
      cases h
      obtain ⟨_, heq⟩ | heq := rolledBack_cases c.oracle
        (deliver env.codec env.authority c.staking c.oracle msg)
      · left
        simp only [heq, and_self]
      · obtain hframe | ⟨m, rfl, hm⟩ := deliver_cases heq
        · exact Or.inl hframe
        · obtain ⟨a, feeder, vote, ha, hfeeder, hmay, hstored, hset⟩ := storedVote_of_message hm
          refine Or.inr (Or.inl ⟨a, vote, ⟨m, feeder, rfl, ha, hfeeder, hmay, ?_⟩, hstored, ?_⟩)
          · rw [← hset]
            exact heq
          · simp only [hset, and_self]
  | beginBlock time =>
      simp only [step, bind_eq_ok, pure_eq_ok, Except.ok.injEq] at h
      obtain ⟨_, _, ⟨st, s⟩, hbegin, rfl⟩ := h
      obtain ⟨rates, counters, rfl, _⟩ := beginBlocker_frame hbegin
      exact Or.inl ⟨rfl, rfl⟩
  | endBlock o =>
      simp only [step, bind_eq_ok, pure_eq_ok, Except.ok.injEq] at h
      obtain ⟨_, _, s, hend, rfl⟩ := h
      have hperiod := (endBlocker_eq_ok.mp hend).2
      split_ifs at hperiod
      · exact Or.inr (Or.inr (tallyPeriod_frame hperiod).2.1)
      · rw [hperiod]
        exact Or.inl ⟨rfl, rfl⟩

theorem storedVotes_of_targets {s t : State} (hs : StoredVotes s)
    (hvotes : t.aggregateExchangeRateVote = s.aggregateExchangeRateVote)
    (htargets : t.voteTarget = s.voteTarget) : StoredVotes t := by
  intro a vote hvote
  rw [hvotes] at hvote
  exact (hs a vote hvote).of_targets htargets

theorem storedVotes_step (c : Chain) (e : Event) (c' : Chain) (hs : StoredVotes c.oracle)
    (h : step env c e = .ok c') : StoredVotes c'.oracle := by
  obtain ⟨hvotes, htargets⟩ | ⟨a, vote, _, hstored, hvotes, htargets⟩ | hcleared := votes_cases h
  · exact storedVotes_of_targets hs hvotes htargets
  · intro b w hw
    rw [hvotes, SortedMap.get?_insert] at hw
    split_ifs at hw with hab
    · obtain rfl := Option.some.inj hw
      exact hab ▸ hstored.of_targets htargets
    · exact (hs b w hw).of_targets htargets
  · intro a vote hvote
    rw [hcleared] at hvote
    cases hvote

/-- A vote that a step brings into the store was cast by it. -/
theorem casts_of_stored {e : Event} {a : ValAddress} {vote : AggregateExchangeRateVote}
    (h : step env c e = .ok c') (hbefore : c.oracle.aggregateExchangeRateVote.get? a ≠ some vote)
    (hafter : c'.oracle.aggregateExchangeRateVote.get? a = some vote) : Casts env a vote c e := by
  obtain ⟨hvotes, _⟩ | ⟨b, w, hcasts, _, hvotes, _⟩ | hcleared := votes_cases h
  · rw [hvotes] at hafter
    exact absurd hafter hbefore
  · rw [hvotes, SortedMap.get?_insert] at hafter
    split_ifs at hafter with hab
    · obtain rfl := Option.some.inj hafter
      exact hab ▸ hcasts
    · exact absurd hafter hbefore
  · rw [hcleared] at hafter
    cases hafter

end Steps

/-- At some step of the run `vote` was cast for `a`, and it was stored from then on. -/
def CastDuring (env : Env) (start : Chain) (es : List Event) (a : ValAddress)
    (vote : AggregateExchangeRateVote) : Prop :=
  ∃ before e after c u, es = before ++ e :: after ∧ Runs.run (step env) start before = .ok c ∧
    Casts env a vote c e ∧ step env c e = .ok u ∧
    u.oracle.aggregateExchangeRateVote.get? a = some vote ∧
    Runs.Along (step env)
      (fun d _ => d.oracle.aggregateExchangeRateVote.get? a = some vote) u after

/-- In every state reached from the default genesis a stored vote has its key as
voter, distinct denominations, positive rates and current vote targets only, and
was cast by an account entitled to it for a validator bonded at the time. -/
theorem stored_votes_valid (env : Env) (height : ℕ) (st : Staking)
    (denomMetaData : SortedMap String Metadata) (es : List Event) {c : Chain}
    (h : Runs.run (step env) (genesis height st denomMetaData) es = .ok c) (a : ValAddress)
    (vote : AggregateExchangeRateVote)
    (hvote : c.oracle.aggregateExchangeRateVote.get? a = some vote) :
    StoredVote c.oracle a vote ∧ CastDuring env (genesis height st denomMetaData) es a vote := by
  have hnone : ∀ v, (genesis height st denomMetaData).oracle.aggregateExchangeRateVote.get? a ≠
      some v := fun v hv => by cases hv
  have hstored : StoredVotes c.oracle :=
    Runs.run_invariant (I := fun c => StoredVotes c.oracle) storedVotes_step
      (fun b v hv => by cases hv) h
  refine ⟨hstored a vote hvote, ?_⟩
  obtain ⟨before, e, after, d, u, hes, hrun, hbefore, hstep, hafter, _, hlasts⟩ :=
    Runs.exists_last_established
      (F := fun c => c.oracle.aggregateExchangeRateVote.get? a = some vote) h (hnone vote) hvote
  exact ⟨before, e, after, d, u, hes, hrun, casts_of_stored hstep hbefore hafter, hstep, hafter,
    hlasts⟩

namespace SecondBlock

/-- Addresses are their own text, and one decimal coin parses. -/
def codec : Codec where
  valAddressFromBech32 := .ok
  accAddressFromBech32 := .ok
  accAddress a := a
  valAddress a := a
  parseDecCoin text :=
    if text = "2ubtc" then .ok ("ubtc", .ofInt 2)
    else fail "invalid decimal coin expression: %s"
  parse_valid text denom amount h := by
    split_ifs at h <;> cases h
    exact ⟨by decide, by decide⟩

def env : Env := { BoundaryBlock.env with codec := codec }

/-- The targets are set at the end of the first block, the vote comes in the second. -/
def blocks : List Event :=
  [.beginBlock 0, .endBlock .ascending, .beginBlock 0,
    .message (.aggregateExchangeRateVote ⟨"2ubtc", "v1", "v1"⟩)]

def start : Chain := genesis 0 .single ∅

def reached : Exec Chain := Runs.run (step env) start blocks

def vote : AggregateExchangeRateVote := ⟨[⟨"ubtc", .ofInt 2⟩], "v1"⟩

set_option maxRecDepth 20000 in
theorem reached_vote : reached.toOption.map
    (fun c => c.oracle.aggregateExchangeRateVote.get? "v1") = some (some vote) := by decide

theorem vote_valid : ∃ c, reached = .ok c ∧ StoredVote c.oracle "v1" vote ∧
    CastDuring env start blocks "v1" vote := by
  obtain ⟨c, hc, hvote⟩ := exists_of_toOption_map reached_vote
  exact ⟨c, hc, stored_votes_valid env 0 .single ∅ blocks hc "v1" vote hvote⟩

end SecondBlock

end Kiichain.Oracle
