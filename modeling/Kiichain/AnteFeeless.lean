import Kiichain.OracleChain

/-!
# Feeless oracle votes

A transaction that is one vote passes the fee decorator free of charge while its
validator has no stored vote. The vote is stored by the message handler, which
runs after the decorators and can still fail. Beside the chain a node counts,
for each validator, the transactions accepted as feeless since votes were last
cleared.
-/

namespace Kiichain.Ante
open GoExec Oracle

/-- A vote, or a message of another module with what it does to the validator set
and the oracle messages it runs. -/
inductive TxMsg
  | aggregateExchangeRateVote (msg : MsgAggregateExchangeRateVote)
  | other (staking : Staking → Staking) (inner : List Msg)

/-- A transaction, with the verdicts of the other decorators and of the fee
decorator, and whether its messages run to their end within the gas limit. -/
structure Tx where
  msgs : List TxMsg
  passes : Bool
  paysFees : Bool
  completes : Bool

structure Node where
  chain : Chain
  granted : ValAddress → ℕ

inductive Event
  | tx (tx : Tx)
  | chain (e : Oracle.Event)

section Decorator

variable (codec : Codec) (st : Staking) (s : State)

def msgAggregateExchangeRateVoteIsFeeless (msg : MsgAggregateExchangeRateVote) : Exec Bool := do
  let feederAddr ← codec.accAddressFromBech32 msg.feeder
  let valAddr ← codec.valAddressFromBech32 msg.validator
  validateFeeder codec st s feederAddr valAddr
  pure (s.aggregateExchangeRateVote.get? valAddr).isNone

/-- Only a transaction of exactly one message can be feeless. -/
def isTxFeeless (tx : Tx) : Exec Bool :=
  match tx.msgs with
  | [.aggregateExchangeRateVote msg] => msgAggregateExchangeRateVoteIsFeeless codec st s msg
  | _ => pure false

def TxMsg.validateBasic : TxMsg → Exec Unit
  | .aggregateExchangeRateVote msg => msg.validateBasic codec
  | .other _ _ => pure ()

/-- The stateless checks and the decorators; the value says whether the
transaction was accepted as feeless. -/
def anteHandle (tx : Tx) : Exec Bool := do
  tx.msgs.forM (TxMsg.validateBasic codec)
  ensure (tx.passes = true) (.error "rejected by another decorator")
  let isFeeless ← isTxFeeless codec st s tx
  if isFeeless then pure true
  else do
    ensure (tx.paysFees = true) (.error "insufficient fee")
    pure false

end Decorator

section Step

variable (env : Env)

def runMsg (r : Staking × State) : TxMsg → Exec (Staking × State)
  | .aggregateExchangeRateVote msg => do
    let s ← deliver env.codec env.authority r.1 r.2 (.aggregateExchangeRateVote msg)
    pure (r.1, s)
  | .other staking inner => do
    let s ← inner.foldlM (deliver env.codec env.authority (staking r.1)) r.2
    pure (staking r.1, s)

/-- The messages of a transaction run one after the other, all or none. -/
def runMsgs (r : Staking × State) (tx : Tx) : Exec (Staking × State) := do
  let r' ← tx.msgs.foldlM (runMsg env) r
  ensure (tx.completes = true) (.error "out of gas")
  pure r'

/-- The validator whose vote is the one message of a transaction. -/
def Tx.validator? (tx : Tx) : Option ValAddress :=
  match tx.msgs with
  | [.aggregateExchangeRateVote msg] => (env.codec.valAddressFromBech32 msg.validator).toOption
  | _ => none

def deliverTx (n : Node) (tx : Tx) : Node :=
  match anteHandle env.codec n.chain.staking n.chain.oracle tx with
  | .error _ => n
  | .ok feeless =>
    let r := rolledBack (n.chain.staking, n.chain.oracle)
      (runMsgs env (n.chain.staking, n.chain.oracle) tx)
    { chain := { n.chain with staking := r.1, oracle := r.2 }
      granted := fun a =>
        n.granted a + if feeless = true ∧ tx.validator? env = some a then 1 else 0 }

/-- The last block of a vote period clears the votes. -/
def cleared (c : Chain) : Oracle.Event → Bool
  | .endBlock _ => decide c.endsPeriod
  | _ => false

def step (n : Node) : Event → Exec Node
  | .tx tx => pure (deliverTx env n tx)
  | .chain e => do
    let c ← Oracle.step env n.chain e
    pure ⟨c, if cleared n.chain e then 0 else n.granted⟩

end Step

/-- A node from which the transactions of a vote period are counted. -/
def Node.start (c : Chain) : Node := ⟨c, 0⟩

section Limit

variable (env : Env)

/-- The transaction holds a vote of the validator. -/
def Tx.VotesFor (tx : Tx) (a : ValAddress) : Prop :=
  ∃ msg, TxMsg.aggregateExchangeRateVote msg ∈ tx.msgs ∧
    env.codec.valAddressFromBech32 msg.validator = .ok a

/-- At most one feeless transaction of each validator, and after it a transaction
with a vote of the validator is accepted only if it pays fees. -/
def Limited (n : Node) : Prop :=
  ∀ a, n.granted a ≤ 1 ∧ (n.granted a = 1 → ∀ tx : Tx, tx.VotesFor env a →
    ∀ feeless, anteHandle env.codec n.chain.staking n.chain.oracle tx = .ok feeless →
      feeless = false ∧ tx.paysFees = true)

/-- The first vote of a validator, alone in its transaction and by its feeder. -/
structure FirstVote (n : Node) (tx : Tx) (msg : MsgAggregateExchangeRateVote) (a : ValAddress)
    (feederAddr : AccAddress) : Prop where
  alone : tx.msgs = [.aggregateExchangeRateVote msg]
  passes : tx.passes = true
  validateBasic : msg.validateBasic env.codec = .ok ()
  validator : env.codec.valAddressFromBech32 msg.validator = .ok a
  feeder : env.codec.accAddressFromBech32 msg.feeder = .ok feederAddr
  allowed : validateFeeder env.codec n.chain.staking n.chain.oracle feederAddr a = .ok ()
  unvoted : n.chain.oracle.aggregateExchangeRateVote.get? a = none

/-- The messages run to their end and every rate is positive and of a vote target. -/
def Storable (n : Node) (tx : Tx) (msg : MsgAggregateExchangeRateVote) : Prop :=
  tx.completes = true ∧ ∀ tuples, parseExchangeRateTuples env.codec msg.exchangeRates = .ok tuples →
    unknownDenom n.chain.oracle tuples = none ∧ ∀ tuple ∈ tuples, 0 < tuple.exchangeRate

/-- A first vote that passes the decorators can be stored. -/
def Kept (n : Node) : Event → Prop
  | .tx tx => ∀ msg a feederAddr, FirstVote env n tx msg a feederAddr → Storable env n tx msg
  | .chain _ => True

end Limit

section Decisions

variable {env : Env} {n : Node} {tx : Tx} {msg : MsgAggregateExchangeRateVote} {a : ValAddress}

/-- What a transaction accepted as feeless is. -/
theorem firstVote_of_feeless
    (h : anteHandle env.codec n.chain.staking n.chain.oracle tx = .ok true) :
    ∃ msg a feederAddr, FirstVote env n tx msg a feederAddr := by
  simp only [anteHandle, bind_eq_ok, ensure_eq_ok] at h
  obtain ⟨_, hbasic, _, hpasses, feeless, hfeeless, h⟩ := h
  cases feeless with
  | false =>
      simp only [Bool.false_eq_true, if_false, bind_eq_ok, ensure_eq_ok, pure_eq_ok] at h
      obtain ⟨_, _, h⟩ := h
      cases h
  | true =>
      unfold isTxFeeless at hfeeless
      split at hfeeless
      · rename_i msg halone
        simp only [msgAggregateExchangeRateVoteIsFeeless, bind_eq_ok, pure_eq_ok,
          Except.ok.injEq] at hfeeless
        obtain ⟨feederAddr, hfeeder, a, hvalidator, _, hallowed, hunvoted⟩ := hfeeless
        rw [halone] at hbasic
        simp only [List.forM_eq_forM, List.forM_cons, List.forM_nil, bind_eq_ok,
          TxMsg.validateBasic] at hbasic
        obtain ⟨_, hbasic, _⟩ := hbasic
        exact ⟨msg, a, feederAddr, halone, hpasses, hbasic, hvalidator, hfeeder, hallowed,
          Option.isNone_iff_eq_none.mp hunvoted⟩
      · cases hfeeless

theorem FirstVote.feeless {feederAddr : AccAddress} (h : FirstVote env n tx msg a feederAddr) :
    anteHandle env.codec n.chain.staking n.chain.oracle tx = .ok true := by
  have hbasic : tx.msgs.forM (TxMsg.validateBasic env.codec) = .ok () := by
    rw [h.alone]
    simp [TxMsg.validateBasic, h.validateBasic]
  have hfeeless : isTxFeeless env.codec n.chain.staking n.chain.oracle tx = .ok true := by
    simp [isTxFeeless, h.alone, msgAggregateExchangeRateVoteIsFeeless, h.feeder, h.validator,
      h.allowed, h.unvoted]
  simp [anteHandle, hbasic, hfeeless, ensure_of h.passes]

theorem FirstVote.validator?_eq {feederAddr : AccAddress}
    (h : FirstVote env n tx msg a feederAddr) : tx.validator? env = some a := by
  simp [Tx.validator?, h.alone, h.validator, Except.toOption]

theorem FirstVote.parses {feederAddr : AccAddress} (h : FirstVote env n tx msg a feederAddr) :
    ∃ tuples, parseExchangeRateTuples env.codec msg.exchangeRates = .ok tuples := by
  have hbasic := h.validateBasic
  simp only [MsgAggregateExchangeRateVote.validateBasic, bind_eq_ok, reworded_eq_ok] at hbasic
  obtain ⟨_, _, _, _, _, _, _, _, tuples, hparse, _⟩ := hbasic
  exact ⟨tuples, hparse⟩

theorem returns_newAggregateExchangeRateVote (tuples : List ExchangeRateTuple) (voter : ValAddress) :
    Returns (reworded "%s: aggregate vote has invalid exchange rate"
      (newAggregateExchangeRateVote tuples voter)) ↔ ∀ tuple ∈ tuples, 0 < tuple.exchangeRate := by
  simp only [Returns, reworded_eq_ok, newAggregateExchangeRateVote, bind_eq_ok, ensure_eq_ok,
    exists_const, pure_eq_ok, Except.ok.injEq]
  constructor
  · rintro ⟨_, hpos, _⟩
    exact hpos
  · intro hpos
    exact ⟨⟨tuples, voter⟩, hpos, rfl⟩

/-- Where its stateless checks and its feeder pass, a vote fails only on its rates. -/
theorem FirstVote.deliver_iff {feederAddr : AccAddress} (h : FirstVote env n tx msg a feederAddr)
    {tuples : List ExchangeRateTuple}
    (hparse : parseExchangeRateTuples env.codec msg.exchangeRates = .ok tuples) :
    Returns (deliver env.codec env.authority n.chain.staking n.chain.oracle
        (.aggregateExchangeRateVote msg)) ↔
      unknownDenom n.chain.oracle tuples = none ∧ ∀ tuple ∈ tuples, 0 < tuple.exchangeRate := by
  simp only [deliver, h.validateBasic, ok_bind, aggregateExchangeRateVote, h.validator, h.feeder,
    h.allowed, hparse, reworded]
  cases unknownDenom n.chain.oracle tuples with
  | some tuple => simp [fail]
  | none =>
      simp only [true_and]
      rw [returns_bind_pure]
      exact returns_newAggregateExchangeRateVote tuples a

/-- A first vote is stored exactly when it can be. -/
theorem FirstVote.runMsgs_iff {feederAddr : AccAddress}
    (h : FirstVote env n tx msg a feederAddr) :
    Returns (runMsgs env (n.chain.staking, n.chain.oracle) tx) ↔ Storable env n tx msg := by
  obtain ⟨tuples, hparse⟩ := h.parses
  have hdeliver := h.deliver_iff hparse
  have hall : Storable env n tx msg ↔ tx.completes = true ∧
      unknownDenom n.chain.oracle tuples = none ∧ ∀ tuple ∈ tuples, 0 < tuple.exchangeRate := by
    apply and_congr_right
    intro _
    constructor
    · intro hrates
      exact hrates tuples hparse
    · intro hrates tuples' hparse'
      cases hparse.symm.trans hparse'
      exact hrates
  rw [hall, ← hdeliver]
  simp only [runMsgs, h.alone, List.foldlM_cons, List.foldlM_nil, runMsg, returns_bind, bind_eq_ok,
    ensure_eq_ok, pure_eq_ok]
  constructor
  · rintro ⟨r, ⟨_, ⟨s, hs, _⟩, _⟩, _, hcompletes, _⟩
    exact ⟨hcompletes, s, hs⟩
  · rintro ⟨hcompletes, s, hs⟩
    exact ⟨_, ⟨_, ⟨s, hs, rfl⟩, rfl⟩, (), hcompletes, returns_ok _⟩

end Decisions

section Invariant

variable {env : Env} {n n' : Node}

def Voted (s : State) (a : ValAddress) : Prop := s.aggregateExchangeRateVote.get? a ≠ none

/-- Every feeless transaction of the period left the vote of its validator. -/
def Counted (n : Node) : Prop :=
  ∀ a, n.granted a ≤ 1 ∧ (n.granted a = 1 → Voted n.chain.oracle a)

/-- A message never removes a vote. -/
theorem voted_deliver {st : Staking} {s t : State} {msg : Msg} {a : ValAddress}
    (hs : Voted s a) (h : deliver env.codec env.authority st s msg = .ok t) : Voted t a := by
  cases msg with
  | aggregateExchangeRateVote msg =>
      obtain ⟨b, vote, _, _, rfl⟩ := deliver_vote_eq h
      unfold Voted
      rw [SortedMap.get?_insert]
      split_ifs
      · exact Option.some_ne_none vote
      · exact hs
  | delegateFeedConsent msg =>
      simp only [deliver, delegateFeedConsent, bind_eq_ok, pure_eq_ok, Except.ok.injEq] at h
      obtain ⟨_, _, _, _, _, _, _, _, rfl⟩ := h
      exact hs
  | updateParams msg =>
      simp only [deliver, updateParams, bind_eq_ok, pure_eq_ok, Except.ok.injEq] at h
      obtain ⟨_, _, _, _, rfl⟩ := h
      exact hs

theorem voted_runMsgs {r r' : Staking × State} {tx : Tx} {a : ValAddress} (hr : Voted r.2 a)
    (h : runMsgs env r tx = .ok r') : Voted r'.2 a := by
  simp only [runMsgs, bind_eq_ok, pure_eq_ok, Except.ok.injEq] at h
  obtain ⟨_, hrun, _, _, rfl⟩ := h
  refine foldlM_invariant (I := fun r => Voted r.2 a) ?_ hr hrun
  intro r msg _ r' hr hmsg
  cases msg with
  | aggregateExchangeRateVote msg =>
      simp only [runMsg, bind_eq_ok, pure_eq_ok, Except.ok.injEq] at hmsg
      obtain ⟨s, hs, rfl⟩ := hmsg
      exact voted_deliver hr hs
  | other staking inner =>
      simp only [runMsg, bind_eq_ok, pure_eq_ok, Except.ok.injEq] at hmsg
      obtain ⟨s, hs, rfl⟩ := hmsg
      exact foldlM_invariant (I := fun s => Voted s a)
        (fun s msg _ t hs ht => voted_deliver hs ht) hr hs

/-- Outside the clear at a period's end the chain keeps every vote. -/
theorem voted_step {c c' : Chain} {e : Oracle.Event} {a : ValAddress} (hc : Voted c.oracle a)
    (hkeep : cleared c e = false) (h : Oracle.step env c e = .ok c') : Voted c'.oracle a := by
  cases e with
  | stake st =>
      cases h
      exact hc
  | message msg =>
      cases h
      obtain ⟨_, heq⟩ | heq := rolledBack_cases c.oracle
        (deliver env.codec env.authority c.staking c.oracle msg)
      · rw [heq]
        exact hc
      · exact voted_deliver hc heq
  | beginBlock time =>
      simp only [Oracle.step, bind_eq_ok, pure_eq_ok, Except.ok.injEq] at h
      obtain ⟨_, _, ⟨st, s⟩, hbegin, rfl⟩ := h
      obtain ⟨rates, counters, rfl, _⟩ := beginBlocker_frame hbegin
      exact hc
  | endBlock o =>
      simp only [Oracle.step, bind_eq_ok, pure_eq_ok, Except.ok.injEq] at h
      obtain ⟨_, _, s, hend, rfl⟩ := h
      have hperiod : if c.endsPeriod then
          tallyPeriod env.runtime o c.block c.staking c.oracle = .ok s else s = c.oracle :=
        (endBlocker_eq_ok.mp hend).2
      rw [if_neg (of_decide_eq_false hkeep)] at hperiod
      rw [hperiod]
      exact hc

theorem FirstVote.stored {tx : Tx} {msg : MsgAggregateExchangeRateVote} {a : ValAddress}
    {feederAddr : AccAddress} (h : FirstVote env n tx msg a feederAddr) {r : Staking × State}
    (hrun : runMsgs env (n.chain.staking, n.chain.oracle) tx = .ok r) : Voted r.2 a := by
  simp only [runMsgs, h.alone, List.foldlM_cons, List.foldlM_nil, runMsg, bind_eq_ok, pure_eq_ok,
    Except.ok.injEq] at hrun
  obtain ⟨_, ⟨_, ⟨s, hs, rfl⟩, rfl⟩, _, _, rfl⟩ := hrun
  obtain ⟨b, vote, hb, _, rfl⟩ := deliver_vote_eq hs
  cases h.validator.symm.trans hb
  simp [Voted]

theorem counted_tx (hn : Counted n) {tx : Tx} (hkept : Kept env n (.tx tx)) :
    Counted (deliverTx env n tx) := by
  unfold deliverTx
  cases hante : anteHandle env.codec n.chain.staking n.chain.oracle tx with
  | error f => exact hn
  | ok feeless =>
      intro a
      obtain ⟨hle, hvoted⟩ := hn a
      have hmono : Voted n.chain.oracle a → Voted (rolledBack (n.chain.staking, n.chain.oracle)
          (runMsgs env (n.chain.staking, n.chain.oracle) tx)).2 a := by
        intro ha
        obtain ⟨_, heq⟩ | heq := rolledBack_cases (n.chain.staking, n.chain.oracle)
          (runMsgs env (n.chain.staking, n.chain.oracle) tx)
        · rw [heq]
          exact ha
        · exact voted_runMsgs ha heq
      by_cases hcount : feeless = true ∧ tx.validator? env = some a
      · obtain ⟨rfl, hvalidator⟩ := hcount
        obtain ⟨msg, b, feederAddr, hfirst⟩ := firstVote_of_feeless hante
        cases hvalidator.symm.trans hfirst.validator?_eq
        have hzero : n.granted a = 0 := by
          by_contra hne
          exact hvoted (by omega) hfirst.unvoted
        obtain ⟨r, hr⟩ := hfirst.runMsgs_iff.mpr (hkept msg a feederAddr hfirst)
        simp only [hvalidator, and_self, if_true, hzero, hr, rolledBack]
        exact ⟨by omega, fun _ => hfirst.stored hr⟩
      · simp only [if_neg hcount, add_zero]
        exact ⟨hle, fun hone => hmono (hvoted hone)⟩

theorem counted_step (n : Node) (e : Event) (n' : Node) (hn : Counted n) (hkept : Kept env n e)
    (h : step env n e = .ok n') : Counted n' := by
  cases e with
  | tx tx =>
      cases h
      exact counted_tx hn hkept
  | chain e =>
      simp only [step, bind_eq_ok, pure_eq_ok, Except.ok.injEq] at h
      obtain ⟨c, hc, rfl⟩ := h
      intro a
      by_cases hclear : cleared n.chain e = true
      · simp [hclear]
      · simp only [if_neg hclear]
        exact ⟨(hn a).1, fun hone => voted_step ((hn a).2 hone) (Bool.eq_false_iff.mpr hclear) hc⟩

/-- With the vote stored no further transaction of the validator is feeless. -/
theorem limited_of_counted (hn : Counted n) : Limited env n := by
  intro a
  obtain ⟨hle, hvoted⟩ := hn a
  refine ⟨hle, ?_⟩
  intro hone tx hvote feeless hante
  cases feeless with
  | true =>
      obtain ⟨msg, b, feederAddr, hfirst⟩ := firstVote_of_feeless hante
      obtain ⟨msg', hmem, hvalidator⟩ := hvote
      rw [hfirst.alone, List.mem_singleton] at hmem
      cases hmem
      cases hvalidator.symm.trans hfirst.validator
      exact absurd hfirst.unvoted (hvoted hone)
  | false =>
      simp only [anteHandle, bind_eq_ok, ensure_eq_ok] at hante
      obtain ⟨_, _, _, _, b, _, hante⟩ := hante
      split_ifs at hante
      · cases hante
      · simp only [bind_eq_ok, ensure_eq_ok] at hante
        obtain ⟨_, hpays, _⟩ := hante
        exact ⟨rfl, hpays⟩

/-- A first vote that fails leaves the chain as it was. -/
theorem FirstVote.deliverTx_eq {tx : Tx} {msg : MsgAggregateExchangeRateVote} {a : ValAddress}
    {feederAddr : AccAddress} (h : FirstVote env n tx msg a feederAddr)
    (hfails : ¬ Storable env n tx msg) :
    deliverTx env n tx = ⟨n.chain, fun b => n.granted b + if a = b then 1 else 0⟩ := by
  obtain ⟨_, heq⟩ | heq := rolledBack_cases (n.chain.staking, n.chain.oracle)
    (runMsgs env (n.chain.staking, n.chain.oracle) tx)
  · simp [deliverTx, h.feeless, h.validator?_eq, heq]
  · exact absurd (h.runMsgs_iff.mp ⟨_, heq⟩) hfails

/-- A first vote that fails is feeless as often as it is sent. -/
theorem FirstVote.repeated {tx : Tx} {msg : MsgAggregateExchangeRateVote} {a : ValAddress}
    {feederAddr : AccAddress} (h : FirstVote env n tx msg a feederAddr)
    (hfails : ¬ Storable env n tx msg) (k : ℕ) :
    ∃ n', Runs.run (step env) n (List.replicate k (.tx tx)) = .ok n' ∧
      n'.granted a = n.granted a + k := by
  induction k generalizing n with
  | zero => exact ⟨n, rfl, rfl⟩
  | succ k ih =>
      have hfirst : FirstVote env (deliverTx env n tx) tx msg a feederAddr := by
        rw [h.deliverTx_eq hfails]
        exact ⟨h.alone, h.passes, h.validateBasic, h.validator, h.feeder, h.allowed, h.unvoted⟩
      have hagain : ¬ Storable env (deliverTx env n tx) tx msg := by
        rw [h.deliverTx_eq hfails]
        exact hfails
      obtain ⟨n', hrun, hgranted⟩ := ih hfirst hagain
      refine ⟨n', ?_, ?_⟩
      · rw [List.replicate_succ, Runs.run_cons_eq_ok]
        exact ⟨_, rfl, hrun⟩
      · rw [hgranted, h.deliverTx_eq hfails]
        simp only [if_true]
        omega

/-- Where every first vote that passes the decorators can be stored, each validator
has at most one feeless transaction in a vote period, and its further votes pay
fees. A first vote that cannot be stored is feeless any number of times. -/
theorem limited_of_kept (c : Chain) (es : List Event) (n : Node)
    (h : Runs.run (step env) (.start c) es = .ok n) :
    (Runs.Along (step env) (Kept env) (.start c) es → Limited env n) ∧
      ∀ tx, ¬ Kept env n (.tx tx) → ∀ k, ∃ n' a,
        Runs.run (step env) n (List.replicate k (.tx tx)) = .ok n' ∧ k ≤ n'.granted a := by
  constructor
  · intro hkept
    have hstart : Counted (Node.start c) :=
      fun a => ⟨Nat.zero_le 1, fun hone => absurd hone Nat.zero_ne_one⟩
    exact limited_of_counted (Runs.run_invariant_along counted_step hstart hkept h)
  · intro tx hnot k
    simp only [Kept, not_forall] at hnot
    obtain ⟨msg, a, feederAddr, hfirst, hfails⟩ := hnot
    obtain ⟨n', hrun, hgranted⟩ := hfirst.repeated hfails k
    exact ⟨n', a, hrun, by omega⟩

end Invariant

namespace UnknownDenom
open BoundaryBlock (staking)

/-- A denomination is one unit of itself. -/
def codec : Codec where
  valAddressFromBech32 := .ok
  accAddressFromBech32 := .ok
  accAddress a := a
  valAddress a := a
  parseDecCoin text := do
    ensure (validDenom text = true) (.error "invalid decimal coin expression: %s")
    pure (text, 1)
  parse_valid text denom amount h := by
    simp only [bind_eq_ok, ensure_eq_ok, exists_const, pure_eq_ok, Except.ok.injEq,
      Prod.mk.injEq] at h
    obtain ⟨hvalid, rfl, rfl⟩ := h
    exact ⟨hvalid, by decide⟩

def env : Env := ⟨codec, "gov", fun st _ _ _ _ => st, .insertion⟩

def vote (exchangeRates : String) : Tx :=
  ⟨[.aggregateExchangeRateVote ⟨exchangeRates, "v1", "v1"⟩], true, false, true⟩

def twice : Exec Node :=
  Runs.run (step env) (.start (genesis 0 staking ∅)) [.tx (vote "foo"), .tx (vote "foo")]

set_option maxRecDepth 20000 in
theorem twice_granted : twice.toOption.map (fun n => n.granted "v1") = some 2 := by decide

/-- Two votes on an unknown denomination are both feeless. -/
theorem granted_twice : ∃ n, twice = .ok n ∧ ¬ Limited env n := by
  obtain ⟨n, hn, hgranted⟩ := exists_of_toOption_map twice_granted
  refine ⟨n, hn, fun h => ?_⟩
  have hle := (h "v1").1
  omega

/-- A block that registers the vote targets. -/
def block : List Event := [.chain (.beginBlock 0), .chain (.endBlock .ascending)]

def voted (exchangeRates : String) : Exec Node :=
  Runs.run (step env) (.start (genesis 0 staking ∅)) (block ++ [.tx (vote exchangeRates)])

set_option maxRecDepth 40000 in
theorem voted_granted : (voted "ubtc").toOption.map (fun n => n.granted "v1") = some 1 := by
  decide

set_option maxRecDepth 20000 in
theorem block_targets : (Runs.run (step env) (.start (genesis 0 staking ∅)) block).toOption.map
    (fun n => unknownDenom n.chain.oracle [⟨"ubtc", 1⟩]) = some none := by decide

theorem vote_tuples : parseExchangeRateTuples codec "ubtc" = .ok [⟨"ubtc", 1⟩] := by decide

theorem voted_limited : ∃ n, voted "ubtc" = .ok n ∧ n.granted "v1" = 1 ∧ Limited env n := by
  obtain ⟨n, hn, hgranted⟩ := exists_of_toOption_map voted_granted
  refine ⟨n, hn, hgranted, (limited_of_kept _ _ n hn).1 ?_⟩
  rw [Runs.along_append]
  refine ⟨⟨trivial, fun _ _ => ⟨trivial, fun _ _ => trivial⟩⟩, ?_⟩
  intro m hm
  obtain ⟨m', hm', htargets⟩ := exists_of_toOption_map block_targets
  cases hm.symm.trans hm'
  refine ⟨?_, fun _ _ => trivial⟩
  intro msg a feederAddr hfirst
  refine ⟨rfl, ?_⟩
  intro tuples hparse
  cases hfirst.alone
  cases hparse.symm.trans vote_tuples
  refine ⟨htargets, ?_⟩
  intro tuple htuple
  rw [List.mem_singleton.mp htuple]
  decide

end UnknownDenom

end Kiichain.Ante
