import Kiichain.FeeDeduction
import Kiichain.Runs

/-!
# Fees of Ethereum transactions

The decorator runs the checks of the EVM on each message of a transaction, converts
the message's fee and deducts it before it compares what is left with the value that
the message sends. The checks and the EVM's own keeper enter as parameters over the
state of the chain. An account pays each of its nonces once.
-/

namespace Kiichain.FeeAbstraction
open GoExec FixedPoint FirstMatch

/-- What the decorator reads of an Ethereum message; its hash names the signed
transaction, which the other checks look at. -/
structure EthMsg where
  hash : String
  sender : String
  gas : ℕ
  nonce : ℕ
  value : ℤ
  dynamicFee : Bool
  fee : ℤ
  effectiveFee : ℤ → ℤ

structure EvmAccount where
  balance : ℕ
  isContract : Bool
deriving DecidableEq

/-- The fee of the envelope around the messages. -/
structure FeeInfo where
  amount : List Coin
  gasLimit : ℕ
deriving DecidableEq

/-- `U` are the parameters, the signer and the rules of the EVM. -/
structure MonoDecoratorUtils (U : Type) where
  evm : U
  baseFee : Option ℤ
  mempoolMinGasPrice : LegacyDec
  globalMinGasPrice : LegacyDec
  isLondon : Bool
  gasWanted : ℕ
  minPriority : ℤ
  txFee : ℤ
  txGasLimit : ℕ

/-- The checks of the EVM and what the decorator uses of its keeper, of the accounts
and of the fee market. An account that is not there has sequence zero. -/
structure EvmKeepers (W M U : Type) where
  evmDenom : String
  maxGasWanted : ℕ
  validateTx : FeeTx M → Exec FeeInfo
  setupContextAndResetTransientGas : W → FeeTx M → Exec W
  newMonoDecoratorUtils : W → Exec (MonoDecoratorUtils U)
  unpackEthMsg : M → Exec EthMsg
  checkMempoolFee : LegacyDec → LegacyDec → LegacyDec → Bool → Exec Unit
  checkGlobalFee : LegacyDec → LegacyDec → LegacyDec → Exec Unit
  validateMsg : U → EthMsg → Exec Unit
  signatureVerification : U → EthMsg → Exec Unit
  getAccount : W → String → Option EvmAccount
  setNewAccount : W → String → W
  canTransfer : W → U → Option ℤ → EthMsg → Exec Unit
  verifyFee : U → Option ℤ → Bool → EthMsg → String → Exec (List Coin)
  consumeFees : W → String → List Coin → Exec Unit × W
  updateCumulativeGasWanted : W → ℕ → ℕ → ℕ → ℕ
  getMsgPriority : EthMsg → ℤ → Option ℤ → ℤ
  hasAccount : W → String → Bool
  sequence : W → String → ℕ
  incrementNonce : W → String → ℕ → Exec W
  checkGasWanted : W → FeeTx M → Bool → Exec W
  checkTxFee : Option FeeInfo → ℤ → ℕ → Exec Unit
  checkBlockGasLimit : W → ℕ → ℤ → Exec ℤ

structure AnteMode where
  isCheckTx : Bool
  isReCheckTx : Bool
  simulate : Bool

/-- Between two messages: the state, the sums so far and the fees that the context
keeps for refunds. -/
structure Progress (W U : Type) where
  state : W
  utils : MonoDecoratorUtils U
  paidFees : Option (List Coin)

variable {W M U : Type}

section Account

variable (e : EvmKeepers W M U)

/-- Only accounts without code send transactions; one that is not there is created. -/
def verifyIfAccountExists (account : Option EvmAccount) (fromAddr : String) (w : W) : Exec W :=
  match account with
  | some account => do
    ensure (account.isContract = false)
      (.error "the sender is not EOA: address %s: invalid type")
    pure w
  | none => pure (e.setNewAccount w fromAddr)

def checkSenderBalance (balance : ℕ) (value : ℤ) : Exec Unit := do
  ensure (0 ≤ value) (.error "tx value (%s) is negative and invalid: invalid coins")
  ensure (value ≤ balance) (.error "sender balance < tx value (%s < %s): insufficient funds")

def verifyAccountBalance (account : Option EvmAccount) (ethMsg : EthMsg) : Exec Unit :=
  match account with
  | none => panics "invalid memory address or nil pointer dereference"
  | some account =>
    wrapped "failed to check sender balance: " (checkSenderBalance account.balance ethMsg.value)

end Account

section Decorator

variable (k : FeeKeepers W) (s : State) (e : EvmKeepers W M U) (mode : AnteMode)

/-- The checks of a message that come before its sender. -/
def checkMsg (utils : MonoDecoratorUtils U) (ethMsg : EthMsg) : Exec Unit := do
  let fee : LegacyDec := .ofInt ethMsg.fee
  let gasLimit : LegacyDec := .ofInt ethMsg.gas
  if mode.isCheckTx = true ∧ mode.simulate = false then
    e.checkMempoolFee fee utils.mempoolMinGasPrice gasLimit utils.isLondon
  let fee : LegacyDec :=
    match utils.baseFee with
    | some baseFee => if ethMsg.dynamicFee then .ofInt (ethMsg.effectiveFee baseFee) else fee
    | none => fee
  e.checkGlobalFee fee utils.globalMinGasPrice gasLimit
  e.validateMsg utils.evm ethMsg
  e.signatureVerification utils.evm ethMsg

/-- The fee is converted and deducted, and what is left must cover the value. -/
def chargeMsg (ethMsg : EthMsg) (msgFees : List Coin) (w : W) : Exec (List Coin × W) := do
  let (convertedMsgFees, w) ← landed (convertNativeFee k s ethMsg.sender msgFees w)
  let (_, w) ← landed (e.consumeFees w ethMsg.sender convertedMsgFees)
  verifyAccountBalance (e.getAccount w (k.bytesToAddress ethMsg.sender)) ethMsg
  pure (convertedMsgFees, w)

/-- The sums of the transaction with one more message. The gas limit is a `uint64`. -/
def countMsg (utils : MonoDecoratorUtils U) (ethMsg : EthMsg) (w : W) : MonoDecoratorUtils U :=
  { utils with
    gasWanted := e.updateCumulativeGasWanted w ethMsg.gas e.maxGasWanted utils.gasWanted
    minPriority := e.getMsgPriority ethMsg utils.minPriority utils.baseFee
    txFee := utils.txFee + ethMsg.fee
    txGasLimit := (utils.txGasLimit + ethMsg.gas) % 2 ^ 64 }

/-- One turn of the loop over the messages. -/
def monoAnteHandleMsg (tx : FeeTx M) (p : Progress W U) (msg : M) : Exec (Progress W U) := do
  let ethMsg ← e.unpackEthMsg msg
  checkMsg e mode p.utils ethMsg
  let fromAddr := k.bytesToAddress ethMsg.sender
  let w ← verifyIfAccountExists e (e.getAccount p.state fromAddr) fromAddr p.state
  e.canTransfer w p.utils.evm p.utils.baseFee ethMsg
  let msgFees ← e.verifyFee p.utils.evm p.utils.baseFee mode.isCheckTx ethMsg e.evmDenom
  let (convertedMsgFees, w) ← chargeMsg k s e ethMsg msgFees w
  let utils := countMsg e p.utils ethMsg w
  ensure (e.hasAccount w ethMsg.sender = true)
    (.error "account %s does not exist: unknown address")
  let w ← e.incrementNonce w ethMsg.sender ethMsg.nonce
  let w ← e.checkGasWanted w tx p.utils.isLondon
  pure ⟨w, utils, some convertedMsgFees⟩

/-- A recheck takes the envelope as validated. -/
def envelopeFee (tx : FeeTx M) : Exec (Option FeeInfo) :=
  if mode.isReCheckTx then pure none else (e.validateTx tx).map some

/-- The value is the priority. -/
def monoAnteHandle (tx : FeeTx M) (w : W) : Exec (Progress W U × ℤ) := do
  let txFeeInfo ← envelopeFee e mode tx
  let w ← e.setupContextAndResetTransientGas w tx
  let utils ← e.newMonoDecoratorUtils w
  let p ← tx.msgs.foldlM (monoAnteHandleMsg k s e mode tx) ⟨w, utils, none⟩
  e.checkTxFee txFeeInfo p.utils.txFee p.utils.txGasLimit
  let priority ← e.checkBlockGasLimit p.state p.utils.gasWanted p.utils.minPriority
  pure (p, priority)

end Decorator

section Money

variable (k : FeeKeepers W) (s : State) (e : EvmKeepers W M U) (d : DeductKeepers W M)
  (locked : W → String → String → ℕ)

/-- What the EVM takes for the balance of an account. -/
def evmBalance (w : W) (account : String) : Option ℕ :=
  (e.getAccount w (k.bytesToAddress account)).map EvmAccount.balance

/-- The fee is deducted as that of any transaction. The EVM's balance is of its own coin,
at most what the bank has; a deduction takes from it what it deducts of this coin, and a
conversion adds what it pays of it. -/
structure EvmFunds : Prop where
  deducts : e.consumeFees = d.deductFees
  held : ∀ w account b, evmBalance k e w account = some b →
    b ≤ k.getBalance w account e.evmDenom
  deducted : ∀ w account coin w' b, 0 ≤ coin.amount.val →
    e.consumeFees w account [coin] = (.ok (), w') → evmBalance k e w account = some b → ∃ b',
      evmBalance k e w' account = some b' ∧
        (b' : ℤ) = b - if coin.denom = e.evmDenom then coin.amount.val else 0
  converted : ∀ w msg w' id pair b, k.convertERC20 w msg = (.ok (), w') →
    k.getTokenPair w id = some pair → pair.erc20Address = msg.contractAddress →
    evmBalance k e w msg.receiver = some b → ∃ b', evmBalance k e w' msg.receiver = some b' ∧
      (b' : ℤ) = b + if pair.denom = e.evmDenom then msg.amount.val else 0

variable (account : String) (w : W) (fee : Coin)

/-- The coins that a native fee is converted to, with the state that this leaves. -/
inductive Converts : List Coin → W → Prop
  | native (covered : hasSufficientNativeBalance k account fee w) : Converts [fee] w
  | bank (token : FeeTokenMetadata) (amount : SdkInt)
      (short : ¬ hasSufficientNativeBalance k account fee w)
      (first : IsFirst (Stops k account w fee) s.feeTokens token)
      (amount_eq : amountEquivalentInt token fee.amount = .ok amount)
      (covered : amount.val ≤ k.getBalance w account token.denom)
      (coin : validDenom token.denom = true ∧ 0 ≤ amount.val) :
      Converts [⟨token.denom, amount⟩] w
  | erc20 (token : FeeTokenMetadata) (amount : SdkInt) (pair : TokenPair) (w' : W)
      (short : ¬ hasSufficientNativeBalance k account fee w)
      (unwraps : Unwraps k s account w fee token amount pair)
      (converted : k.convertERC20 w (newMsgConvertERC20 k account amount pair) = (.ok (), w'))
      (coin : validDenom token.denom = true ∧ 0 ≤ amount.val) :
      Converts [⟨token.denom, amount⟩] w'

/-- The sender of a value can pay the fee beside it: in the native coin where the balance
covers both, and else, short of the fee alone, in the token on which the search ends. -/
inductive Affords (value : ℤ) (b : ℕ) : Prop
  | native (unlocked : fee.amount.val ≤ spendable k locked w account fee.denom)
      (covered : fee.amount.val + value ≤ b)
  | bank (token : FeeTokenMetadata) (amount : SdkInt)
      (short : ¬ hasSufficientNativeBalance k account fee w)
      (first : IsFirst (Stops k account w fee) s.feeTokens token)
      (amount_eq : amountEquivalentInt token fee.amount = .ok amount)
      (coin : validDenom token.denom = true ∧ 0 ≤ amount.val)
      (unlocked : amount.val ≤ spendable k locked w account token.denom)
      (covered : (if token.denom = fee.denom then amount.val else 0) + value ≤ b)
  | erc20 (token : FeeTokenMetadata) (amount : SdkInt) (pair : TokenPair) (w' : W)
      (short : ¬ hasSufficientNativeBalance k account fee w)
      (unwraps : Unwraps k s account w fee token amount pair)
      (coin : validDenom token.denom = true ∧ 0 ≤ amount.val)
      (same : pair.denom = token.denom)
      (unlocked : locked w account token.denom ≤ k.getBalance w account token.denom)
      (converted : k.convertERC20 w (newMsgConvertERC20 k account amount pair) = (.ok (), w'))
      (covered : value ≤ b)

variable {k s e d locked account w fee} {coins : List Coin} {w' : W}

theorem convertNativeFee_iff (henabled : s.params.enabled = true)
    (hdenom : fee.denom = s.params.nativeDenom) (hpos : fee.isZero = false) :
    convertNativeFee k s account [fee] w = (.ok coins, w') ↔
      Converts k s account w fee coins w' := by
  have hpasses := passesThrough_iff k account w henabled hdenom hpos
  constructor
  · intro h
    by_cases hnative : hasSufficientNativeBalance k account fee w
    · rw [convertNativeFee_of_passes (hpasses.mpr hnative)] at h
      cases h
      exact .native hnative
    · obtain ⟨fee', r, w₁, hfee, houtcome, hresult⟩ := exists_outcome (mt hpasses.mp hnative)
      obtain rfl := (List.cons.inj hfee).1
      rw [hresult, Prod.mk.injEq, map_eq_ok] at h
      obtain ⟨⟨p, rfl, rfl⟩, rfl⟩ := h
      generalize hr : (Except.ok p : Exec (List Coin × LegacyDec)) = r at houtcome
      cases houtcome with
      | none text _ => cases hr
      | fault token e first fault => cases hr
      | failed token amount pair e w' unwraps refused => cases hr
      | bank token amount first amount_eq covered =>
          obtain ⟨hvalid, hnonneg, rfl⟩ := payment_eq_ok.mp hr.symm
          exact .bank token amount hnative first amount_eq covered ⟨hvalid, hnonneg⟩
      | unwrapped token amount pair w' unwraps converted =>
          obtain ⟨hvalid, hnonneg, rfl⟩ := payment_eq_ok.mp hr.symm
          exact .erc20 token amount pair _ hnative unwraps converted ⟨hvalid, hnonneg⟩
  · intro h
    have hsearch : ¬ hasSufficientNativeBalance k account fee w → ∀ token amount w',
        convertERC20ForFees k account fee s.feeTokens w = (payment token amount, w') →
        validDenom token.denom = true ∧ 0 ≤ amount.val →
        convertNativeFee k s account [fee] w = (.ok [⟨token.denom, amount⟩], w') := by
      intro hshort token amount w' hend hcoin
      obtain ⟨fee', hfee, hresult⟩ := convertNativeFee_of_not_passes (mt hpasses.mp hshort)
      obtain rfl := (List.cons.inj hfee).1
      rw [hend, payment_eq_ok.mpr ⟨hcoin.1, hcoin.2, rfl⟩] at hresult
      exact hresult
    cases h with
    | native covered => exact convertNativeFee_of_passes (hpasses.mpr covered)
    | bank token amount short first amount_eq covered coin =>
        exact hsearch short token amount w (search_of_bank first amount_eq covered) coin
    | erc20 token amount pair w' short unwraps converted coin =>
        exact hsearch short token amount w' (search_of_converted unwraps converted) coin

theorem returns_verifyAccountBalance_iff {ethMsg : EthMsg} {b : ℕ}
    (hb : evmBalance k e w ethMsg.sender = some b) :
    Returns (verifyAccountBalance (e.getAccount w (k.bytesToAddress ethMsg.sender)) ethMsg) ↔
      0 ≤ ethMsg.value ∧ ethMsg.value ≤ b := by
  obtain ⟨found, hfound, rfl⟩ := Option.map_eq_some_iff.mp hb
  rw [hfound]
  simp [verifyAccountBalance, checkSenderBalance, Returns, bind_eq_ok]

variable {ethMsg : EthMsg}

theorem returns_chargeMsg_iff (fees : List Coin) : Returns (chargeMsg k s e ethMsg fees w) ↔
    ∃ coins w₁ w₂, convertNativeFee k s ethMsg.sender fees w = (.ok coins, w₁) ∧
      e.consumeFees w₁ ethMsg.sender coins = (.ok (), w₂) ∧
      Returns (verifyAccountBalance (e.getAccount w₂ (k.bytesToAddress ethMsg.sender)) ethMsg) := by
  simp only [chargeMsg, returns_bind, Prod.exists, landed_eq_ok]
  constructor
  · rintro ⟨coins, w₁, hconvert, _, w₂, hconsume, u, hverify, _⟩
    exact ⟨coins, w₁, w₂, hconvert, hconsume, u, hverify⟩
  · rintro ⟨coins, w₁, w₂, hconvert, hconsume, u, hverify⟩
    exact ⟨coins, w₁, hconvert, (), w₂, hconsume, u, hverify, returns_ok _⟩

section Laws

variable (law : ConvertsExactly k) (hlocked : KeepsLocked k locked)
  (hdeducts : DeductsSpendable k locked d) (funds : EvmFunds k e d)
include hdeducts funds

/-- A coin is deducted and the value still covered where the coin may be spent and the
balance covers what of it is the EVM's, with the value. -/
theorem deducted_iff {coin : Coin} (hcoin : 0 ≤ coin.amount.val) {b : ℕ}
    (hb : evmBalance k e w ethMsg.sender = some b) :
    (∃ w', e.consumeFees w ethMsg.sender [coin] = (.ok (), w') ∧
        Returns (verifyAccountBalance (e.getAccount w' (k.bytesToAddress ethMsg.sender)) ethMsg)) ↔
      coin.amount.val ≤ spendable k locked w ethMsg.sender coin.denom ∧ 0 ≤ ethMsg.value ∧
        (if coin.denom = e.evmDenom then coin.amount.val else 0) + ethMsg.value ≤ b := by
  have hspendable := hdeducts w ethMsg.sender coin
  rw [← funds.deducts] at hspendable
  constructor
  · rintro ⟨w', hconsume, hverify⟩
    obtain ⟨b', hb', hmoved⟩ := funds.deducted w ethMsg.sender coin w' b hcoin hconsume hb
    obtain ⟨hvalue, hcovered⟩ := (returns_verifyAccountBalance_iff hb').mp hverify
    refine ⟨hspendable.mp ⟨(), congrArg Prod.fst hconsume⟩, hvalue, ?_⟩
    omega
  · rintro ⟨hunlocked, hvalue, hcovered⟩
    obtain ⟨u, hu⟩ := hspendable.mpr hunlocked
    have hconsume : e.consumeFees w ethMsg.sender [coin] =
        (.ok (), (e.consumeFees w ethMsg.sender [coin]).2) := Prod.ext hu rfl
    obtain ⟨b', hb', hmoved⟩ := funds.deducted w ethMsg.sender coin _ b hcoin hconsume hb
    refine ⟨_, hconsume, (returns_verifyAccountBalance_iff hb').mpr ⟨hvalue, ?_⟩⟩
    omega

include law hlocked

/-- The fee is charged and the value covered exactly where the sender affords both. -/
theorem chargeMsg_iff (henabled : s.params.enabled = true)
    (hdenom : fee.denom = s.params.nativeDenom) (hevm : fee.denom = e.evmDenom)
    (hpos : 0 < fee.amount.val) {b : ℕ} (hb : evmBalance k e w ethMsg.sender = some b) :
    Returns (chargeMsg k s e ethMsg [fee] w) ↔
      0 ≤ ethMsg.value ∧ Affords k s locked ethMsg.sender w fee ethMsg.value b := by
  have hzero : fee.isZero = false := decide_eq_false hpos.ne'
  rw [returns_chargeMsg_iff]
  simp only [convertNativeFee_iff henabled hdenom hzero]
  constructor
  · rintro ⟨coins, w₁, w₂, hconverts, hcharged⟩
    cases hconverts with
    | native covered =>
        obtain ⟨hunlocked, hvalue, hcovered⟩ :=
          (deducted_iff hdeducts funds hpos.le hb).mp ⟨w₂, hcharged⟩
        rw [if_pos hevm] at hcovered
        exact ⟨hvalue, .native hunlocked hcovered⟩
    | bank token amount short first amount_eq covered coin =>
        obtain ⟨hunlocked, hvalue, hcovered⟩ :=
          (deducted_iff hdeducts funds coin.2 hb).mp ⟨w₂, hcharged⟩
        rw [← hevm] at hcovered
        exact ⟨hvalue, .bank token amount short first amount_eq coin hunlocked hcovered⟩
    | erc20 token amount pair _ short unwraps converted coin =>
        obtain ⟨b₁, hb₁, hpaid⟩ := funds.converted w _ w₁ _ pair b converted unwraps.pair_eq rfl hb
        obtain ⟨hunlocked, hvalue, hcovered⟩ :=
          (deducted_iff hdeducts funds coin.2 hb₁).mp ⟨w₂, hcharged⟩
        have hzero := (unwraps.first.holds.2 amount unwraps.amount_eq).1
        obtain ⟨hsame, hunlocked⟩ := (spendable_of_converted law hlocked unwraps.pair_eq
          (lt_of_le_of_ne coin.2 (Ne.symm hzero)) unwraps.uncovered converted).mp hunlocked
        rw [hsame] at hpaid
        refine ⟨hvalue, .erc20 token amount pair w₁ short unwraps coin hsame hunlocked converted ?_⟩
        simp only [newMsgConvertERC20] at hpaid
        dsimp only at hcovered
        omega
  · rintro ⟨hvalue, hafford⟩
    cases hafford with
    | native unlocked covered =>
        have hheld := funds.held w _ b hb
        rw [← hevm] at hheld
        have hnative : hasSufficientNativeBalance k ethMsg.sender fee w := by
          unfold hasSufficientNativeBalance
          omega
        obtain ⟨w₂, hcharged⟩ := (deducted_iff hdeducts funds hpos.le hb).mpr
          ⟨unlocked, hvalue, by rwa [if_pos hevm]⟩
        exact ⟨[fee], w, w₂, .native hnative, hcharged⟩
    | bank token amount short first amount_eq coin unlocked covered =>
        have hbank : amount.val ≤ k.getBalance w ethMsg.sender token.denom :=
          unlocked.trans (by exact_mod_cast spendable_le k locked w ethMsg.sender token.denom)
        rw [hevm] at covered
        have hcoin : 0 ≤ (⟨token.denom, amount⟩ : Coin).amount.val := coin.2
        obtain ⟨w₂, hcharged⟩ := (deducted_iff hdeducts funds hcoin hb).mpr
          ⟨unlocked, hvalue, covered⟩
        exact ⟨_, w, w₂, .bank token amount short first amount_eq hbank coin, hcharged⟩
    | erc20 token amount pair w₁ short unwraps coin same unlocked converted covered =>
        obtain ⟨b₁, hb₁, hpaid⟩ := funds.converted w _ w₁ _ pair b converted unwraps.pair_eq rfl hb
        have hzero := (unwraps.first.holds.2 amount unwraps.amount_eq).1
        have hspendable := (spendable_of_converted law hlocked unwraps.pair_eq
          (lt_of_le_of_ne coin.2 (Ne.symm hzero)) unwraps.uncovered converted).mpr ⟨same, unlocked⟩
        rw [same] at hpaid
        simp only [newMsgConvertERC20] at hpaid
        have hcoin : 0 ≤ (⟨token.denom, amount⟩ : Coin).amount.val := coin.2
        obtain ⟨w₂, hcharged⟩ := (deducted_iff hdeducts funds hcoin hb₁).mpr
          ⟨hspendable, hvalue, by dsimp only; omega⟩
        exact ⟨_, w₁, w₂, .erc20 token amount pair w₁ short unwraps converted coin, hcharged⟩

end Laws

end Money

/-- A transaction as it meets the state of the module, with what its messages do once it
is accepted, or a change by anything else. -/
inductive EvmEvent (W M : Type)
  | tx (s : State) (mode : AnteMode) (tx : FeeTx M) (execute : W → W)
  | other (change : W → W)

/-- The chain, and the senders and nonces accepted so far, in order. -/
structure Signed (W : Type) where
  state : W
  log : List (String × ℕ)

section Nonces

variable (k : FeeKeepers W) (e : EvmKeepers W M U)

/-- The account has no code, and its sequence is at least `n`. -/
def Stands (w : W) (account : String) (n : ℕ) : Prop :=
  (∀ found, e.getAccount w (k.bytesToAddress account) = some found → found.isContract = false) ∧
    n ≤ e.sequence w account

/-- No account without code gets any, and the sequence of none falls. -/
def KeepsAccounts (w w' : W) : Prop :=
  ∀ account n, Stands k e w account n → Stands k e w' account n

/-- Only the increment moves a sequence, from the nonce of the message to the next. -/
structure NonceLaw : Prop where
  setup : ∀ w tx w', e.setupContextAndResetTransientGas w tx = .ok w' → KeepsAccounts k e w w'
  created : ∀ w fromAddr, e.getAccount w fromAddr = none →
    KeepsAccounts k e w (e.setNewAccount w fromAddr)
  converted : ∀ w msg w', k.convertERC20 w msg = (.ok (), w') → KeepsAccounts k e w w'
  consumed : ∀ w account coins w', e.consumeFees w account coins = (.ok (), w') →
    KeepsAccounts k e w w'
  incremented : ∀ w account nonce w', e.incrementNonce w account nonce = .ok w' →
    e.sequence w account = nonce ∧ e.sequence w' account = nonce + 1 ∧ KeepsAccounts k e w w'
  gasWanted : ∀ w tx isLondon w', e.checkGasWanted w tx isLondon = .ok w' → KeepsAccounts k e w w'

def EvmEvent.Keeps : EvmEvent W M → Prop
  | .tx _ _ _ execute => ∀ w, KeepsAccounts k e w (execute w)
  | .other change => ∀ w, KeepsAccounts k e w (change w)

def noncesOf (msgs : List M) : List (String × ℕ) :=
  msgs.filterMap fun msg =>
    (e.unpackEthMsg msg).toOption.map fun ethMsg => (ethMsg.sender, ethMsg.nonce)

/-- What the checks of a transaction wrote stays where its messages fail. -/
def stepSigned (n : Signed W) : EvmEvent W M → Exec (Signed W)
  | .tx s mode tx execute =>
    match monoAnteHandle k s e mode tx n.state with
    | .error _ => pure n
    | .ok (p, _) => pure ⟨execute p.state, n.log ++ noncesOf e tx.msgs⟩
  | .other change => pure { n with state := change n.state }

/-- The nonces of each sender rise, and its sequence is past them. -/
def Ordered (log : List (String × ℕ)) (w : W) : Prop :=
  log.Pairwise (fun p q => p.1 = q.1 → p.2 < q.2) ∧ ∀ p ∈ log, Stands k e w p.1 (p.2 + 1)

variable {k e} {log : List (String × ℕ)} {w w' : W}

theorem KeepsAccounts.trans {w₁ w₂ w₃ : W} (h : KeepsAccounts k e w₁ w₂)
    (h' : KeepsAccounts k e w₂ w₃) : KeepsAccounts k e w₁ w₃ :=
  fun account n hn => h' account n (h account n hn)

theorem Ordered.kept (h : Ordered k e log w) (hkeeps : KeepsAccounts k e w w') :
    Ordered k e log w' :=
  ⟨h.1, fun p hp => hkeeps p.1 _ (h.2 p hp)⟩

/-- One more message, of the nonce at which its sender's sequence stood. -/
theorem Ordered.append {account : String} {nonce : ℕ} (h : Ordered k e log w)
    (hnow : e.sequence w account = nonce) (hkeeps : KeepsAccounts k e w w')
    (hnext : Stands k e w' account (nonce + 1)) : Ordered k e (log ++ [(account, nonce)]) w' := by
  constructor
  · refine List.pairwise_append.mpr ⟨h.1, List.pairwise_singleton _ _, ?_⟩
    intro p hp q hq heq
    obtain rfl := List.mem_singleton.mp hq
    have hpast := (h.2 p hp).2
    rw [show p.1 = account from heq, hnow] at hpast
    exact hpast
  · intro p hp
    obtain hp | hp := List.mem_append.mp hp
    · exact hkeeps p.1 _ (h.2 p hp)
    · obtain rfl := List.mem_singleton.mp hp
      exact hnext

variable {s : State} (law : NonceLaw k e)
include law

theorem keeps_convertNativeFee {account : String} {fees coins : List Coin}
    (h : convertNativeFee k s account fees w = (.ok coins, w')) : KeepsAccounts k e w w' := by
  by_cases hpasses : PassesThrough k s account w fees
  · rw [convertNativeFee_of_passes hpasses] at h
    cases h
    exact fun _ _ => id
  · obtain ⟨fee, r, w₁, rfl, houtcome, hresult⟩ := exists_outcome hpasses
    rw [hresult, Prod.mk.injEq, map_eq_ok] at h
    obtain ⟨⟨p, rfl, rfl⟩, rfl⟩ := h
    generalize hr : (Except.ok p : Exec (List Coin × LegacyDec)) = r at houtcome
    cases houtcome with
    | none text _ => cases hr
    | fault token e first fault => cases hr
    | failed token amount pair e w' unwraps refused => cases hr
    | bank token amount first amount_eq covered => exact fun _ _ => id
    | unwrapped token amount pair w' unwraps converted => exact law.converted _ _ _ converted

theorem keeps_chargeMsg {ethMsg : EthMsg} {fees coins : List Coin}
    (h : chargeMsg k s e ethMsg fees w = .ok (coins, w')) : KeepsAccounts k e w w' := by
  simp only [chargeMsg, bind_eq_ok, Prod.exists, landed_eq_ok, pure_eq_ok, Except.ok.injEq,
    Prod.mk.injEq] at h
  obtain ⟨_, w₁, hconvert, _, w₂, hconsume, _, _, _, rfl⟩ := h
  exact (keeps_convertNativeFee law hconvert).trans (law.consumed _ _ _ _ hconsume)

/-- A sender that passes has no code, before and after its account is made. -/
theorem verified {fromAddr account : String} (haddr : k.bytesToAddress account = fromAddr)
    (h : verifyIfAccountExists e (e.getAccount w fromAddr) fromAddr w = .ok w') :
    KeepsAccounts k e w w' ∧ Stands k e w' account 0 := by
  subst haddr
  cases hfound : e.getAccount w (k.bytesToAddress account) with
  | none =>
      rw [hfound] at h
      cases h
      have hkeeps := law.created w _ hfound
      refine ⟨hkeeps, hkeeps account 0 ⟨fun found hsome => ?_, Nat.zero_le _⟩⟩
      rw [hfound] at hsome
      cases hsome
  | some found =>
      rw [hfound] at h
      simp only [verifyIfAccountExists, bind_eq_ok, ensure_eq_ok, pure_eq_ok,
        Except.ok.injEq] at h
      obtain ⟨_, hcode, rfl⟩ := h
      refine ⟨fun _ _ => id, fun found' hsome => ?_, Nat.zero_le _⟩
      rw [hfound] at hsome
      cases hsome
      exact hcode

variable {mode : AnteMode} {tx : FeeTx M} {p p' : Progress W U}

theorem ordered_message {msg : M} (hp : Ordered k e log p.state)
    (h : monoAnteHandleMsg k s e mode tx p msg = .ok p') :
    ∃ ethMsg, e.unpackEthMsg msg = .ok ethMsg ∧
      Ordered k e (log ++ [(ethMsg.sender, ethMsg.nonce)]) p'.state := by
  simp only [monoAnteHandleMsg, bind_eq_ok, Prod.exists, ensure_eq_ok, pure_eq_ok,
    Except.ok.injEq] at h
  obtain ⟨ethMsg, hunpack, _, _, w₁, hverified, _, _, fees, _, coins, w₂, hcharged, _, _, w₃,
    hincrement, w₄, hgas, rfl⟩ := h
  obtain ⟨hcreated, hcode⟩ := verified law rfl hverified
  have hpaid := keeps_chargeMsg law hcharged
  obtain ⟨hnow, hnext, hincremented⟩ := law.incremented _ _ _ _ hincrement
  have hwanted := law.gasWanted _ _ _ _ hgas
  refine ⟨ethMsg, hunpack, ((hp.kept (hcreated.trans hpaid)).append hnow hincremented ?_).kept
    hwanted⟩
  exact ⟨(hincremented _ 0 (hpaid _ 0 hcode)).1, hnext.ge⟩

theorem ordered_messages {msgs : List M} (hp : Ordered k e log p.state)
    (h : msgs.foldlM (monoAnteHandleMsg k s e mode tx) p = .ok p') :
    Ordered k e (log ++ noncesOf e msgs) p'.state := by
  induction msgs generalizing log p with
  | nil =>
      cases h
      simpa [noncesOf] using hp
  | cons msg msgs ih =>
      rw [List.foldlM_cons, bind_eq_ok] at h
      obtain ⟨q, hq, hrest⟩ := h
      obtain ⟨ethMsg, hunpack, hq⟩ := ordered_message law hp hq
      have hlast := ih hq hrest
      rw [List.append_assoc] at hlast
      simpa [noncesOf, hunpack, Except.toOption] using hlast

theorem ordered_step (n : Signed W) (ev : EvmEvent W M) (n' : Signed W) (hkeeps : ev.Keeps k e)
    (hn : Ordered k e n.log n.state) (h : stepSigned k e n ev = .ok n') :
    Ordered k e n'.log n'.state := by
  cases ev with
  | other change =>
      cases h
      exact hn.kept (hkeeps n.state)
  | tx s mode tx execute =>
      simp only [stepSigned] at h
      cases hante : monoAnteHandle k s e mode tx n.state with
      | error f =>
          rw [hante] at h
          cases h
          exact hn
      | ok r =>
          rw [hante] at h
          cases h
          simp only [monoAnteHandle, bind_eq_ok, pure_eq_ok, Except.ok.injEq] at hante
          obtain ⟨_, _, w, hsetup, utils, _, p, hloop, _, _, _, _, rfl⟩ := hante
          have hstart : Ordered k e n.log w := hn.kept (law.setup _ _ _ hsetup)
          exact (ordered_messages law hstart hloop).kept (hkeeps p.state)

end Nonces

namespace ValueSent
open TwoCoins (Purse keepers locked convertsExactly keepsLocked state fee atom amount atom_stops
  amount_eq)

/-- Every check passes, and a fee of fifty is asked for in one coin. -/
def openKeepers {W M : Type} (unpackEthMsg : M → Exec EthMsg) (getAccount : W → String → Option EvmAccount)
    (consumeFees : W → String → List Coin → Exec Unit × W) (sequence : W → String → ℕ)
    (incrementNonce : W → String → ℕ → Exec W) : EvmKeepers W M Unit where
  evmDenom := "akii"
  maxGasWanted := 0
  validateTx tx := .ok ⟨tx.fee, tx.gas⟩
  setupContextAndResetTransientGas w _ := .ok w
  newMonoDecoratorUtils _ := .ok ⟨(), some 1, 0, 0, true, 0, 2 ^ 63 - 1, 0, 0⟩
  unpackEthMsg := unpackEthMsg
  checkMempoolFee _ _ _ _ := .ok ()
  checkGlobalFee _ _ _ := .ok ()
  validateMsg _ _ := .ok ()
  signatureVerification _ _ := .ok ()
  getAccount := getAccount
  setNewAccount w _ := w
  canTransfer _ _ _ _ := .ok ()
  verifyFee _ _ _ msg _ := .ok (if msg.fee = 50 then [fee] else [])
  consumeFees := consumeFees
  updateCumulativeGasWanted _ gas _ total := total + gas
  getMsgPriority _ minPriority _ := minPriority
  hasAccount _ _ := true
  sequence := sequence
  incrementNonce := incrementNonce
  checkGasWanted w _ _ := .ok w
  checkTxFee _ _ _ := .ok ()
  checkBlockGasLimit _ _ minPriority := .ok minPriority

def message (value : ℤ) (nonce : ℕ) : EthMsg := ⟨"0x", "kii1payer", 21000, nonce, value, false, 0, id⟩

def evm : EvmKeepers Purse EthMsg Unit :=
  openKeepers .ok (fun w _ => some ⟨w.native, false⟩) TwoCoins.deductFees (fun _ _ => 0)
    (fun _ _ _ => fail "invalid nonce")

def decorator : DeductKeepers Purse EthMsg where
  feeCollector _ := some "fee_collector"
  hasAccount _ _ := true
  useGrantedFees := none
  txFeeChecker _ tx := .ok (tx.fee, 0)
  deductFees := TwoCoins.deductFees

theorem deductsSpendable : DeductsSpendable keepers locked decorator :=
  fun w account coin => TwoCoins.deductsSpendable w account coin

theorem evmFunds : EvmFunds keepers evm decorator := by
  refine ⟨rfl, fun w account b h => ?_, fun w account coin w' b hcoin h hb => ?_,
    fun w msg w' id pair b h => ?_⟩
  · cases h
    exact le_rfl
  · cases hb
    change TwoCoins.deductFees w account [coin] = _ at h
    simp only [TwoCoins.deductFees] at h
    split_ifs at h with hcovered hnative
    · cases h
      refine ⟨_, rfl, ?_⟩
      simp only [spendable, keepers, locked, if_pos hnative] at hcovered
      change ((w.native - coin.amount.val.toNat : ℕ) : ℤ) =
        w.native - if coin.denom = "akii" then coin.amount.val else 0
      rw [if_pos hnative]
      omega
    · cases h
      refine ⟨_, rfl, ?_⟩
      change (w.native : ℤ) = w.native - if coin.denom = "akii" then coin.amount.val else 0
      rw [if_neg hnative, sub_zero]
    · cases h
  · cases h

/-- With fewer native coins than the fee alone, the sender pays with a token. -/
theorem token_pays :
    Returns (chargeMsg keepers state evm (message 40 0) [fee] ⟨40, 100, 0, 0⟩) :=
  (chargeMsg_iff convertsExactly keepsLocked deductsSpendable evmFunds rfl rfl rfl (by decide)
    rfl).mpr ⟨by decide, .bank atom amount (by decide) (atom_stops (by norm_num)) amount_eq
      (by decide) (by decide) (by decide)⟩

/-- With enough for the fee, but not for the value too, it is refused. -/
theorem richer_refused :
    ¬ Returns (chargeMsg keepers state evm (message 60 0) [fee] ⟨100, 100, 0, 0⟩) := by decide

/-- The sequence of one account is all there is. -/
def counters : FeeKeepers ℕ where
  getBalance _ _ _ := 0
  getTokenPairID _ _ := []
  getTokenPair _ _ := none
  balanceOf _ _ _ := none
  convertERC20 w _ := (fail "token pair not found", w)
  bytesToAddress a := a

def incrementNonce (w : ℕ) (account : String) (nonce : ℕ) : Exec ℕ :=
  if account = "kii1payer" ∧ nonce = w then .ok (w + 1) else fail "invalid nonce"

def counting : EvmKeepers ℕ EthMsg Unit :=
  openKeepers .ok (fun _ _ => some ⟨0, false⟩) (fun w _ _ => (.ok (), w))
    (fun w account => if account = "kii1payer" then w else 0) incrementNonce

theorem nonceLaw : NonceLaw counters counting := by
  have hsame : ∀ w, KeepsAccounts counters counting w w := fun _ _ _ => id
  refine ⟨fun w tx w' h => ?_, fun w _ _ => hsame w, fun w msg w' h => ?_,
    fun w account coins w' h => ?_, fun w account nonce w' h => ?_, fun w tx isLondon w' h => ?_⟩
  · cases h
    exact hsame w
  · cases h
  · cases h
    exact hsame w
  · change incrementNonce w account nonce = .ok w' at h
    unfold incrementNonce at h
    split_ifs at h with hnow
    · obtain ⟨rfl, rfl⟩ := hnow
      cases h
      refine ⟨rfl, rfl, fun other n hn => ⟨hn.1, hn.2.trans ?_⟩⟩
      change (if other = "kii1payer" then nonce else 0) ≤ if other = "kii1payer" then nonce + 1 else 0
      split_ifs <;> omega
    · cases h
  · cases h
    exact hsame w

def sent (nonce : ℕ) : EvmEvent ℕ EthMsg :=
  .tx state ⟨false, false, false⟩ ⟨21000, [], "kii1payer", none, [message 0 nonce]⟩ id

def thrice : Exec (Signed ℕ) := Runs.run (stepSigned counters counting) ⟨7, []⟩ [sent 7, sent 7, sent 8]

theorem thrice_log : thrice.toOption.map (fun n => n.log) =
    some [("kii1payer", 7), ("kii1payer", 8)] := by decide

end ValueSent

end Kiichain.FeeAbstraction
