import Kiichain.AnteFeeless
import Kiichain.AnteGovExpedited
import Kiichain.AnteGovVote
import Kiichain.DecoratorChain
import Kiichain.FeeEvm

/-!
# The ante handler

A transaction goes by its first extension option: to the decorator of the EVM, to the
chain of the other transactions, or nowhere. The chain holds the checks on governance
and ends with the fees; the decorator of the EVM has no such checks, and takes no message
that they look at. Decorators of other packages enter as parameters.
-/

namespace Kiichain.Ante
open GoExec FeeAbstraction DecoratorChain

/-- A message that wraps no others, as far as any decorator looks at it. -/
inductive AppMsg
  | ethereumTx (msg : EthMsg)
  | aggregateExchangeRateVote (msg : Oracle.MsgAggregateExchangeRateVote)
  | voteV1Beta1 (voter : String)
  | voteV1 (voter : String)
  | submitProposal (prop : MsgSubmitProposal)
  | garbled
  | other

def AppMsg.sdkMsg : AppMsg → SdkMsg
  | .voteV1Beta1 voter => .voteV1Beta1 voter
  | .voteV1 voter => .voteV1 voter
  | .garbled => .garbled
  | _ => .other

def AppMsg.unwrapped : AppMsg → UnwrappedMsg
  | .submitProposal prop => .submitProposal prop
  | _ => .other

/-- What the check of votes sees of messages. -/
def sdkMsgs (msgs : List (Envelope AppMsg)) : List SdkMsg :=
  Envelope.foldAll AppMsg.sdkMsg .exec msgs

/-- What the check of expedited proposals sees of messages. -/
def unwrappedMsgs (msgs : List (Envelope AppMsg)) : List (Envelope UnwrappedMsg) :=
  Envelope.foldAll (fun msg => .leaf msg.unwrapped) .wrap msgs

structure AppTx where
  extensionOptions : List String
  feeTx : FeeTx (Envelope AppMsg)

structure AnteCtx (W : Type) where
  state : W
  priority : ℤ
  paidFees : Option (List Coin)

/-- What the decorators read of the chain, and those of other packages. -/
structure HandlerOptions (W U : Type) where
  codec : Oracle.Codec
  staking : W → Oracle.Staking
  oracle : W → Oracle.State
  delegations : W → StakingView
  fees : W → FeeAbstraction.State
  blockHeight : W → ℕ
  govVote : GovVoteDecorator
  feeKeepers : FeeKeepers W
  deduct : DeductKeepers W (Envelope AppMsg)
  evm : EvmKeepers W (Envelope AppMsg) U
  (rejectMessages authzLimiter setUpContext limitSimulationGas countTX extensionOptions
    validateBasic txTimeoutHeight validateMemo minGasPrice consumeGasForTxSize setPubKey
    validateSigCount sigGasConsume sigVerification incrementSequence redundantRelay gasWanted :
      AnteMode → W → AppTx → Exec W)

def useFeeMarketDecorator : Bool := true

variable {W U : Type}

section Chain

variable (o : HandlerOptions W U) (mode : AnteMode)

/-- A decorator of another package checks the transaction and writes to the state. -/
def foreign (f : AnteMode → W → AppTx → Exec W) : Handler (AnteCtx W) AppTx := fun c tx => do
  let w ← f mode c.state tx
  pure { c with state := w }

def govVoteGate (c : AnteCtx W) (tx : AppTx) : Exec Unit :=
  o.govVote.anteHandle (o.delegations c.state) mode.simulate (sdkMsgs tx.feeTx.msgs)

def govExpeditedGate (_ : AnteCtx W) (tx : AppTx) : Exec Unit :=
  GovExpeditedProposalsDecorator.anteHandle (unwrappedMsgs tx.feeTx.msgs)

def isAppTxFeeless (w : W) (tx : AppTx) : Exec Bool :=
  match tx.feeTx.msgs with
  | [.leaf (.aggregateExchangeRateVote msg)] =>
    msgAggregateExchangeRateVoteIsFeeless o.codec (o.staking w) (o.oracle w) msg
  | _ => pure false

def deductFeeDecorator : Decorator (AnteCtx W) AppTx := fun c tx next => do
  let ((_, priority), w) ← landed (deductFeeAnteHandle o.feeKeepers (o.fees c.state) o.deduct
    (o.blockHeight c.state) mode.simulate tx.feeTx c.state)
  next { c with state := w, priority := priority } tx

def feelessDecorator (feeDecorator : Decorator (AnteCtx W) AppTx) :
    Decorator (AnteCtx W) AppTx := fun c tx next => do
  let isFeeless ← isAppTxFeeless o c.state tx
  if isFeeless then next { c with priority := 2 ^ 63 - 1 } tx else feeDecorator c tx next

def cosmosAnteHandler : Handler (AnteCtx W) AppTx :=
  chain ([
    check (foreign mode o.rejectMessages),
    check (foreign mode o.authzLimiter),
    check (foreign mode o.setUpContext),
    check (foreign mode o.limitSimulationGas),
    check (foreign mode o.countTX),
    check (foreign mode o.extensionOptions),
    check (foreign mode o.validateBasic),
    check (foreign mode o.txTimeoutHeight),
    check (foreign mode o.validateMemo),
    check (gate (govVoteGate o mode)),
    check (gate govExpeditedGate),
    check (foreign mode o.minGasPrice),
    check (foreign mode o.consumeGasForTxSize),
    check (foreign mode o.setPubKey),
    check (foreign mode o.validateSigCount),
    check (foreign mode o.sigGasConsume),
    check (foreign mode o.sigVerification),
    check (foreign mode o.incrementSequence),
    check (foreign mode o.redundantRelay),
    check (foreign mode o.gasWanted)] ++
      if useFeeMarketDecorator then [feelessDecorator o (deductFeeDecorator o mode)] else [])

def monoDecorator : Decorator (AnteCtx W) AppTx := fun c tx next => do
  let (p, priority) ← monoAnteHandle o.feeKeepers (o.fees c.state) o.evm mode tx.feeTx c.state
  next ⟨p.state, priority, p.paidFees⟩ tx

def monoEVMAnteHandler : Handler (AnteCtx W) AppTx := chain [monoDecorator o mode]

def newAnteHandler : Handler (AnteCtx W) AppTx := fun c tx =>
  match tx.extensionOptions with
  | [] => cosmosAnteHandler o mode c tx
  | typeUrl :: _ =>
    if typeUrl = "/cosmos.evm.vm.v1.ExtensionOptionsEthereumTx" then monoEVMAnteHandler o mode c tx
    else if typeUrl = "/cosmos.evm.types.v1.ExtensionOptionDynamicFeeTx" then
      cosmosAnteHandler o mode c tx
    else fail "rejecting tx with unsupported extension option: %s: unknown extension options"

end Chain

section Gates

variable (o : HandlerOptions W U) (mode : AnteMode)

/-- The decorators before the checks on governance, and those after them. -/
def setUpChecks : List (AnteMode → W → AppTx → Exec W) :=
  [o.rejectMessages, o.authzLimiter, o.setUpContext, o.limitSimulationGas, o.countTX,
    o.extensionOptions, o.validateBasic, o.txTimeoutHeight, o.validateMemo]

def signingChecks : List (AnteMode → W → AppTx → Exec W) :=
  [o.minGasPrice, o.consumeGasForTxSize, o.setPubKey, o.validateSigCount, o.sigGasConsume,
    o.sigVerification, o.incrementSequence, o.redundantRelay, o.gasWanted]

/-- The stores that the decorators of this repository read. -/
def stores (w : W) : Oracle.Staking × Oracle.State × StakingView × FeeAbstraction.State :=
  (o.staking w, o.oracle w, o.delegations w, o.fees w)

/-- Decorators of other packages write to none of these stores. -/
def KeepsStores : Prop :=
  ∀ f ∈ setUpChecks o ++ signingChecks o, ∀ mode w tx w', f mode w tx = .ok w' →
    stores o w' = stores o w

/-- Only Ethereum messages unpack as such. -/
def UnpacksOnly : Prop :=
  ∀ msg ethMsg, o.evm.unpackEthMsg msg = .ok ethMsg → msg = .leaf (.ethereumTx ethMsg)

/-- The first vote of a validator, alone in its transaction and by its feeder. -/
def FeelessVote (w : W) (tx : AppTx) : Prop :=
  ∃ msg feederAddr valAddr, tx.feeTx.msgs = [.leaf (.aggregateExchangeRateVote msg)] ∧
    o.codec.accAddressFromBech32 msg.feeder = .ok feederAddr ∧
    o.codec.valAddressFromBech32 msg.validator = .ok valAddr ∧
    Oracle.validateFeeder o.codec (o.staking w) (o.oracle w) feederAddr valAddr = .ok () ∧
    (o.oracle w).aggregateExchangeRateVote.get? valAddr = none

/-- How an accepted transaction is paid for, by the fee tokens of the state that it
met. -/
inductive Settles (w : W) (tx : AppTx) : Prop
  | feeless (vote : FeelessVote o w tx)
  | deducted (charged : Charged) (priority : ℤ) (w₁ w₂ : W)
      (accepted : deductFeeAnteHandle o.feeKeepers (o.fees w) o.deduct (o.blockHeight w₁)
        mode.simulate tx.feeTx w₁ = (.ok (charged, priority), w₂))
  | ethereum (each : ∀ msg ∈ tx.feeTx.msgs, ∃ ethMsg fees coins w₁ w₂,
      msg = .leaf (.ethereumTx ethMsg) ∧
        chargeMsg o.feeKeepers (o.fees w) o.evm ethMsg fees w₁ = .ok (coins, w₂))

variable {o mode} {c c' : AnteCtx W} {tx : AppTx}

theorem cosmosAnteHandler_eq : cosmosAnteHandler o mode =
    chain (((setUpChecks o).map (foreign mode) ++ gate (govVoteGate o mode) ::
      gate govExpeditedGate :: (signingChecks o).map (foreign mode)).map check ++
        [feelessDecorator o (deductFeeDecorator o mode)]) := rfl

/-- A vote that passes for free is the first of its validator. -/
theorem isAppTxFeeless_iff {w : W} : isAppTxFeeless o w tx = .ok true ↔ FeelessVote o w tx := by
  unfold isAppTxFeeless
  split
  · rename_i msg halone
    simp only [msgAggregateExchangeRateVoteIsFeeless, bind_eq_ok, pure_eq_ok, Except.ok.injEq,
      Option.isNone_iff_eq_none]
    constructor
    · rintro ⟨feederAddr, hfeeder, valAddr, hvalidator, _, hallowed, hunvoted⟩
      exact ⟨msg, feederAddr, valAddr, halone, hfeeder, hvalidator, hallowed, hunvoted⟩
    · rintro ⟨msg', feederAddr, valAddr, halone', hfeeder, hvalidator, hallowed, hunvoted⟩
      rw [halone] at halone'
      cases halone'
      exact ⟨feederAddr, hfeeder, valAddr, hvalidator, (), hallowed, hunvoted⟩
  · rename_i hother
    refine iff_of_false (fun h => by cases h) ?_
    rintro ⟨msg, _, _, halone, _⟩
    exact hother msg halone

theorem keeps_foreign {fs : List (AnteMode → W → AppTx → Exec W)}
    (hkeep : ∀ f ∈ fs, ∀ mode w tx w', f mode w tx = .ok w' → stores o w' = stores o w)
    (h : checks (fs.map (foreign mode)) c tx = .ok c') : stores o c'.state = stores o c.state := by
  refine checks_keep (v := fun c : AnteCtx W => stores o c.state) ?_ h
  intro f hf s s' hs
  obtain ⟨f, hmem, rfl⟩ := List.mem_map.mp hf
  simp only [foreign, bind_eq_ok, pure_eq_ok, Except.ok.injEq] at hs
  obtain ⟨w, hw, rfl⟩ := hs
  exact hkeep f hmem mode s.state tx w hw

/-- The end of the chain lets a first vote pass, and else what is deducted from. -/
theorem returns_feeless_iff :
    Returns (chain [feelessDecorator o (deductFeeDecorator o mode)] c tx) ↔
      FeelessVote o c.state tx ∨ isAppTxFeeless o c.state tx = .ok false ∧
        ∃ charged priority w, deductFeeAnteHandle o.feeKeepers (o.fees c.state) o.deduct
          (o.blockHeight c.state) mode.simulate tx.feeTx c.state = (.ok (charged, priority), w) := by
  simp only [chain, feelessDecorator, ← isAppTxFeeless_iff]
  cases isAppTxFeeless o c.state tx with
  | error f => simp
  | ok isFeeless =>
      cases isFeeless with
      | true => simp
      | false =>
          simp only [ok_bind, Bool.false_eq_true, if_false, Except.ok.injEq, false_or, true_and,
            deductFeeDecorator, returns_bind, Prod.exists, landed_eq_ok, returns_ok, and_true]

/-- A transaction passes the chain exactly where the decorators of other packages let
it pass, nothing in it is refused in the state that it met, and its fees are settled. -/
theorem returns_cosmosAnteHandler_iff (hkeep : KeepsStores o) (hsimulate : mode.simulate = false) :
    Returns (cosmosAnteHandler o mode c tx) ↔
      (¬ o.govVote.Refused (o.delegations c.state) (sdkMsgs tx.feeTx.msgs) ∧
        ¬ RefusesUnwrapped (unwrappedMsgs tx.feeTx.msgs)) ∧
      ∃ c₁ c₂, checks ((setUpChecks o).map (foreign mode)) c tx = .ok c₁ ∧
        checks ((signingChecks o).map (foreign mode)) c₁ tx = .ok c₂ ∧
        (FeelessVote o c₂.state tx ∨ isAppTxFeeless o c₂.state tx = .ok false ∧
          ∃ charged priority w, deductFeeAnteHandle o.feeKeepers (o.fees c₂.state) o.deduct
            (o.blockHeight c₂.state) mode.simulate tx.feeTx c₂.state =
              (.ok (charged, priority), w)) := by
  have hgates : ∀ c₁, checks ((setUpChecks o).map (foreign mode)) c tx = .ok c₁ →
      (govVoteGate o mode c₁ tx = .ok () ∧ govExpeditedGate c₁ tx = .ok () ↔
        ¬ o.govVote.Refused (o.delegations c.state) (sdkMsgs tx.feeTx.msgs) ∧
          ¬ RefusesUnwrapped (unwrappedMsgs tx.feeTx.msgs)) := by
    intro c₁ hc₁
    have hstores := keeps_foreign (fun f hf => hkeep f (List.mem_append_left _ hf)) hc₁
    have hdelegations : o.delegations c₁.state = o.delegations c.state :=
      congrArg (fun s => s.2.2.1) hstores
    rw [← GovVoteDecorator.returns_anteHandle_iff, ← returns_anteHandle_unwrapped_iff,
      govVoteGate, govExpeditedGate, hdelegations, hsimulate]
    exact and_congr ⟨fun h => ⟨(), h⟩, fun ⟨_, h⟩ => h⟩ ⟨fun h => ⟨(), h⟩, fun ⟨_, h⟩ => h⟩
  rw [cosmosAnteHandler_eq, chain_checks, returns_bind]
  simp only [checks_append_eq_ok, checks_gate_eq_ok, returns_feeless_iff]
  constructor
  · rintro ⟨c₂, ⟨c₁, hsetUp, hvotes, hproposals, hsigning⟩, hsettled⟩
    exact ⟨(hgates c₁ hsetUp).mp ⟨hvotes, hproposals⟩, c₁, c₂, hsetUp, hsigning, hsettled⟩
  · rintro ⟨hclear, c₁, c₂, hsetUp, hsigning, hsettled⟩
    obtain ⟨hvotes, hproposals⟩ := (hgates c₁ hsetUp).mpr hclear
    exact ⟨c₂, ⟨c₁, hsetUp, hvotes, hproposals, hsigning⟩, hsettled⟩

/-- Messages that are all of the EVM hold no vote and no proposal. -/
theorem clear_of_ethereum (hall : ∀ msg ∈ tx.feeTx.msgs, ∃ ethMsg, msg = .leaf (.ethereumTx ethMsg))
    (g : GovVoteDecorator) (st : StakingView) :
    ¬ g.Refused st (sdkMsgs tx.feeTx.msgs) ∧ ¬ RefusesUnwrapped (unwrappedMsgs tx.feeTx.msgs) := by
  constructor
  · rintro ⟨m, hm, hrefused⟩
    obtain ⟨msg, hmem, rfl⟩ := (Envelope.mem_foldAll _ _).mp hm
    obtain ⟨ethMsg, rfl⟩ := hall msg hmem
    obtain hgarbled | ⟨k, _, v, hwithin, voter, hvoter, _⟩ := hrefused
    · cases hgarbled
    · cases hwithin
      cases hvoter
  · rintro ⟨prop, hprop, _⟩
    obtain ⟨msg, hmem, heq⟩ := (Envelope.mem_foldAll _ _).mp hprop
    obtain ⟨ethMsg, rfl⟩ := hall msg hmem
    cases heq

theorem charged_of_mono (hunpack : UnpacksOnly o)
    (h : Returns (monoEVMAnteHandler o mode c tx)) : ∀ msg ∈ tx.feeTx.msgs,
      ∃ ethMsg fees coins w₁ w₂, msg = .leaf (.ethereumTx ethMsg) ∧
        chargeMsg o.feeKeepers (o.fees c.state) o.evm ethMsg fees w₁ = .ok (coins, w₂) := by
  intro msg hmsg
  simp only [monoEVMAnteHandler, chain, monoDecorator, returns_bind, Prod.exists] at h
  obtain ⟨p, priority, hmono, _⟩ := h
  simp only [monoAnteHandle, bind_eq_ok, pure_eq_ok, Except.ok.injEq] at hmono
  obtain ⟨_, _, _, _, _, _, _, hloop, _⟩ := hmono
  obtain ⟨q, r, hturn⟩ := exists_turn_of_foldlM hloop hmsg
  simp only [monoAnteHandleMsg, bind_eq_ok, Prod.exists] at hturn
  obtain ⟨ethMsg, hmessage, _, _, w₁, _, _, _, fees, _, coins, w₂, hcharged, _⟩ := hturn
  exact ⟨ethMsg, fees, coins, w₁, w₂, hunpack msg ethMsg hmessage, hcharged⟩

end Gates

namespace StakedVote
open TwoCoins (Purse keepers state fee)

def view : StakingView where
  validators := (∅ : SortedMap String Validator).insert "v1" ⟨5000000, .ofInt 5000000, by decide⟩
  delegations accAddr := if accAddr = "alice" then [⟨"v1", .ofInt 2000000, by decide⟩] else []

def decorator : DeductKeepers Purse (Envelope AppMsg) where
  feeCollector _ := some "fee_collector"
  hasAccount _ _ := true
  useGrantedFees := none
  txFeeChecker _ tx := .ok (tx.fee, 7)
  deductFees := TwoCoins.deductFees

def unpackEthMsg : Envelope AppMsg → Exec EthMsg
  | .leaf (.ethereumTx msg) => .ok msg
  | _ => fail "invalid message type"

/-- The decorators of other packages let everything pass. -/
def options : HandlerOptions Purse Unit where
  codec := Oracle.BoundaryBlock.codec
  staking _ := Oracle.BoundaryBlock.staking
  oracle _ := Oracle.defaultGenesis ∅
  delegations _ := view
  fees _ := state
  blockHeight _ := 1
  govVote := WrappedTwice.decorator
  feeKeepers := keepers
  deduct := decorator
  evm := ValueSent.openKeepers unpackEthMsg (fun w _ => some ⟨w.native, false⟩)
    TwoCoins.deductFees (fun _ _ => 0) (fun w _ _ => .ok w)
  rejectMessages _ w _ := .ok w
  authzLimiter _ w _ := .ok w
  setUpContext _ w _ := .ok w
  limitSimulationGas _ w _ := .ok w
  countTX _ w _ := .ok w
  extensionOptions _ w _ := .ok w
  validateBasic _ w _ := .ok w
  txTimeoutHeight _ w _ := .ok w
  validateMemo _ w _ := .ok w
  minGasPrice _ w _ := .ok w
  consumeGasForTxSize _ w _ := .ok w
  setPubKey _ w _ := .ok w
  validateSigCount _ w _ := .ok w
  sigGasConsume _ w _ := .ok w
  sigVerification _ w _ := .ok w
  incrementSequence _ w _ := .ok w
  redundantRelay _ w _ := .ok w
  gasWanted _ w _ := .ok w

def vote (voter : String) (extensionOptions : List String) : AppTx :=
  ⟨extensionOptions, ⟨200000, [fee], "kii1payer", none, [.leaf (.voteV1 voter)]⟩⟩

def ctx : AnteCtx Purse := ⟨⟨100, 0, 0, 0⟩, 0, none⟩

def mode : AnteMode := ⟨false, false, false⟩

theorem keepsStores : KeepsStores options := by
  intro f hf mode w tx w' h
  have hsame : f mode w tx = .ok w := by
    simp only [setUpChecks, signingChecks, options, List.cons_append, List.nil_append,
      List.mem_cons, List.not_mem_nil, or_false] at hf
    obtain rfl | rfl | rfl | rfl | rfl | rfl | rfl | rfl | rfl | rfl | rfl | rfl | rfl | rfl |
      rfl | rfl | rfl | rfl := hf
    all_goals rfl
  rw [hsame] at h
  cases h
  rfl

theorem unpacksOnly : UnpacksOnly options := by
  intro msg ethMsg h
  change unpackEthMsg msg = .ok ethMsg at h
  unfold unpackEthMsg at h
  split at h
  · cases h
    rfl
  · cases h

theorem vote_passes : Returns (newAnteHandler options mode ctx (vote "alice" [])) := by decide

/-- No route takes a vote without stake. -/
theorem stakeless_refused : ¬ Returns (newAnteHandler options mode ctx (vote "bob" [])) ∧
    ¬ Returns (newAnteHandler options mode ctx
      (vote "bob" ["/cosmos.evm.vm.v1.ExtensionOptionsEthereumTx"])) := by decide

end StakedVote

end Kiichain.Ante
