import Kiichain.PrecompileArgs

/-!
# The IBC precompile

A call of the precompile transfers for the origin of the transaction, whoever
called. The keepers of IBC and the parts of the EVM around a call enter as
parameters. In a tree of calls the debited account is the direct caller exactly
where no contract gets a transfer through.
-/

namespace Kiichain.IbcPrecompile
open GoExec Precompile

abbrev EvmAddress := BitVec 160

/-- Account addresses are the same twenty bytes. -/
abbrev AccAddress := EvmAddress

structure Height where
  revisionNumber : ℕ
  revisionHeight : ℕ
deriving DecidableEq

structure Coin where
  denom : String
  amount : ℕ
deriving DecidableEq

structure MsgTransfer where
  sourcePort : String
  sourceChannel : String
  token : Coin
  sender : String
  receiver : String
  timeoutHeight : Height
  timeoutTimestamp : ℕ
  memo : String
deriving DecidableEq

variable {S : Type}

/-- What the precompile uses of the SDK, of IBC and of the EVM. -/
structure Env (S : Type) where
  addressText : AccAddress → String
  balance : S → AccAddress → String → ℕ
  transfer : S → MsgTransfer → Exec S
  validateBasic : MsgTransfer → Exec Unit
  getChannel : S → String → String → Option (List String)
  getConnection : S → String → Option String
  getClientLatestHeight : S → String → Height
  getClientTimestampAtHeight : S → String → Height → Exec ℕ
  runSetup : Bool → List UInt8 → Exec (String × List Arg)
  emitEventTransfer : EvmAddress → MsgTransfer → Exec Unit
  useGas : S → S → Exec Unit

section Messages

variable (env : Env S) (s : S)

def getKiiAddressByEvmAddress (evmAddress : EvmAddress) : Exec AccAddress := pure evmAddress

structure ValidatedArgs where
  senderKiiAddr : AccAddress
  receiverAddressString : String
  port : String
  channelID : String
  denom : String
  amount : ℕ

def validateArgsLength (args : List Arg) (length : ℕ) : Exec Unit :=
  ensure (args.length = length) (.error "expected %d arguments but got %d")

def validateCommonArgs (args : List Arg) (caller : EvmAddress) : Exec ValidatedArgs := do
  let senderKiiAddr ← getKiiAddressByEvmAddress caller
  let receiverAddressString ← require (args[0]?.bind Arg.asString)
    (.error "receiverAddress is not a string or empty")
  ensure (receiverAddressString ≠ "") (.error "receiverAddress is not a string or empty")
  let port ← require (args[1]?.bind Arg.asString) (.error "port is not a string")
  ensure (port ≠ "") (.error "port cannot be empty")
  let channelID ← require (args[2]?.bind Arg.asString) (.error "channelID is not a string")
  ensure (channelID ≠ "") (.error "channelID cannot be empty")
  let denom ← require (args[3]?.bind Arg.asString) (.error "denom is not a string or is empty")
  ensure (denom ≠ "") (.error "denom is not a string or is empty")
  let amount ← require (args[4]?.bind Arg.asBigInt) (.error "amount is not a big.Int")
  pure ⟨senderKiiAddr, receiverAddressString, port, channelID, denom, amount⟩

/-- A memo of another type counts as empty. -/
def memoOf (memoArg : Option Arg) : String := (memoArg.bind Arg.asString).getD ""

def newMsgTransfer (sender : EvmAddress) (args : List Arg) : Exec MsgTransfer := do
  validateArgsLength args 9
  let validatedArgs ← validateCommonArgs args sender
  ensure (validatedArgs.amount ≠ 0) (.error "amount is zero, transaction is invalid")
  let revisionNumber ← require (args[5]?.bind Arg.asUint64)
    (.error "revisionNumber is not a uint64")
  let revisionHeight ← require (args[6]?.bind Arg.asUint64)
    (.error "revisionHeight is not a uint64")
  let timeoutTimestamp ← require (args[7]?.bind Arg.asUint64)
    (.error "timeoutTimestamp is not a uint64")
  let msg : MsgTransfer :=
    ⟨validatedArgs.port, validatedArgs.channelID, ⟨validatedArgs.denom, validatedArgs.amount⟩,
      env.addressText validatedArgs.senderKiiAddr, validatedArgs.receiverAddressString,
      ⟨revisionNumber, revisionHeight⟩, timeoutTimestamp, memoOf args[8]?⟩
  env.validateBasic msg
  pure msg

/-- The client of the connection, by the first hop of the channel. -/
def getChannelConnection (port channelID : String) : Exec String := do
  let connectionHops ← require (env.getChannel s port channelID) (.error "channel not found")
  let hop ← require connectionHops.head? (.panic "index out of range [0] with length 0")
  require (env.getConnection s hop) (.error "connection not found")

def defaultBlockIncrement : ℕ := 100

/-- Ten minutes, in nanoseconds. -/
def defaultTimeIncrement : ℕ := 600000000000

def getAdjustedTimestamp (clientID : String) (height : Height) : Exec ℕ := do
  let timeoutTimestamp ← env.getClientTimestampAtHeight s clientID height
  pure ((timeoutTimestamp + defaultTimeIncrement) % 2 ^ 64)

def newMsgTransferDefaultTimeout (sender : EvmAddress) (args : List Arg) : Exec MsgTransfer := do
  validateArgsLength args 6
  let validatedArgs ← validateCommonArgs args sender
  ensure (validatedArgs.amount ≠ 0) (.error "amount is zero, transaction is invalid")
  let clientID ← getChannelConnection env s validatedArgs.port validatedArgs.channelID
  let latestConsensusHeight := env.getClientLatestHeight s clientID
  let timeoutTimestamp ← getAdjustedTimestamp env s clientID latestConsensusHeight
  let msg : MsgTransfer :=
    ⟨validatedArgs.port, validatedArgs.channelID, ⟨validatedArgs.denom, validatedArgs.amount⟩,
      env.addressText validatedArgs.senderKiiAddr, validatedArgs.receiverAddressString,
      ⟨latestConsensusHeight.revisionNumber,
        (latestConsensusHeight.revisionHeight + defaultBlockIncrement) % 2 ^ 64⟩,
      timeoutTimestamp, memoOf args[5]?⟩
  env.validateBasic msg
  pure msg

end Messages

section Run

variable (env : Env S)

/-- What both methods do with the message that they build. -/
def sendTransfer (s : S) (newMsg : Exec MsgTransfer) (caller : EvmAddress) : Exec S := do
  let msg ← newMsg
  let t ← env.transfer s msg
  env.emitEventTransfer caller msg
  pure t

def transfer (s : S) (args : List Arg) (caller : EvmAddress) : Exec S :=
  sendTransfer env s (newMsgTransfer env caller args) caller

def transferWithDefaultTimeout (s : S) (args : List Arg) (caller : EvmAddress) : Exec S :=
  sendTransfer env s (newMsgTransferDefaultTimeout env s caller args) caller

/-- The account that signed the transaction. -/
structure Evm where
  origin : EvmAddress

/-- The frame of a call: the account that made it, and its input. -/
structure Contract where
  caller : EvmAddress
  input : List UInt8

def transferMethod : String := "transfer"

def transferWithDefaultTimeoutMethod : String := "transferWithDefaultTimeout"

def run (evm : Evm) (contract : Contract) (readOnly : Bool) (s : S) : Exec S := do
  let (method, args) ← env.runSetup readOnly contract.input
  let t ←
    if method = transferMethod then transfer env s args evm.origin
    else if method = transferWithDefaultTimeoutMethod then
      transferWithDefaultTimeout env s args evm.origin
    else fail "unknown method '%s'"
  env.useGas s t
  pure t

end Run

section CallTree

/-- What a frame does, in order: its own effects on the state, calls of the
precompile, and calls of contracts, each a frame with its own list, static or
not, that returns or reverts. A delegate call is one of the frame's own account. -/
inductive Calls (S : Type)
  | done
  | effect (f : S → S) (rest : Calls S)
  | precompile (input : List UInt8) (rest : Calls S)
  | call (callee : EvmAddress) (isStatic : Bool) (body : Calls S) (reverts : Bool) (rest : Calls S)

/-- A call of the precompile, with the state that it found. -/
structure Invocation (S : Type) where
  contract : Contract
  readOnly : Bool
  before : S

variable (env : Env S) (evm : Evm)

def Invocation.result (i : Invocation S) : Exec S := run env evm i.contract i.readOnly i.before

/-- The state after a frame of `account`, and the calls of the precompile in it
and below it. -/
def visit : Calls S → EvmAddress → Bool → S → S × List (Invocation S)
  | .done, _, _, s => (s, [])
  | .effect f rest, account, readOnly, s => visit rest account readOnly (f s)
  | .precompile input rest, account, readOnly, s =>
    let i : Invocation S := ⟨⟨account, input⟩, readOnly, s⟩
    let (t, is) := visit rest account readOnly (rolledBack s (i.result env evm))
    (t, i :: is)
  | .call callee isStatic body reverts rest, account, readOnly, s =>
    let (u, is) := visit body callee (readOnly || isStatic) s
    let (t, js) := visit rest account readOnly (if reverts then s else u)
    (t, is ++ js)

/-- The calls of the precompile in a transaction that the origin signed. -/
def invocations (calls : Calls S) (s : S) : List (Invocation S) :=
  (visit env evm calls evm.origin false s).2

/-- A transfer lowers no balance but the direct caller's. -/
def DebitsOnlyCaller (i : Invocation S) : Prop :=
  ∀ t, i.result env evm = .ok t → ∀ a denom, env.balance t a denom < env.balance i.before a denom →
    getKiiAddressByEvmAddress i.contract.caller = .ok a

/-- The message of a call, by its method. -/
def messageOf (s : S) (method : String) (args : List Arg) : Exec MsgTransfer :=
  if method = transferMethod then newMsgTransfer env evm.origin args
  else if method = transferWithDefaultTimeoutMethod then
    newMsgTransferDefaultTimeout env s evm.origin args
  else fail "unknown method '%s'"

/-- The input decodes to a valid transfer of the origin that the keeper accepts,
its event packs, and the gas for it is there. -/
def Accepted (i : Invocation S) : Prop :=
  ∃ method args msg t, env.runSetup i.readOnly i.contract.input = .ok (method, args) ∧
    messageOf env evm i.before method args = .ok msg ∧ env.transfer i.before msg = .ok t ∧
    Returns (env.emitEventTransfer evm.origin msg) ∧ Returns (env.useGas i.before t)

/-- What the SDK and IBC promise: a text is of one address, a transfer of some
amount takes of the sender, and it takes of nobody else. -/
structure SenderPays : Prop where
  text_injective : Function.Injective env.addressText
  debits : ∀ s msg t, env.transfer s msg = .ok t → 0 < msg.token.amount →
    ∀ a, env.addressText a = msg.sender →
      env.balance t a msg.token.denom < env.balance s a msg.token.denom
  spares : ∀ s msg t, env.transfer s msg = .ok t → ∀ a, env.addressText a ≠ msg.sender →
    ∀ denom, env.balance s a denom ≤ env.balance t a denom

end CallTree

section Sender

variable {env : Env S} {evm : Evm} {s : S} {sender : EvmAddress} {args : List Arg}

theorem senderKiiAddr_of_validateCommonArgs {v : ValidatedArgs}
    (h : validateCommonArgs args sender = .ok v) : v.senderKiiAddr = sender := by
  simp only [validateCommonArgs, getKiiAddressByEvmAddress, pure_eq_ok, ok_bind, bind_eq_ok,
    require_eq_ok, ensure_eq_ok, exists_const, Except.ok.injEq] at h
  obtain ⟨_, _, _, _, _, _, _, _, _, _, _, _, _, _, rfl⟩ := h
  rfl

/-- A message that is built moves some amount of the address it is built for. -/
structure Moves (env : Env S) (sender : EvmAddress) (msg : MsgTransfer) : Prop where
  sender_eq : msg.sender = env.addressText sender
  amount_pos : 0 < msg.token.amount

theorem moves_of_newMsgTransfer {msg : MsgTransfer} (h : newMsgTransfer env sender args = .ok msg) :
    Moves env sender msg := by
  simp only [newMsgTransfer, bind_eq_ok, ensure_eq_ok, exists_const, pure_eq_ok,
    Except.ok.injEq] at h
  obtain ⟨_, _, v, hv, hamount, _, _, _, _, _, _, _, _, rfl⟩ := h
  exact ⟨by rw [senderKiiAddr_of_validateCommonArgs hv], Nat.pos_of_ne_zero hamount⟩

theorem moves_of_newMsgTransferDefaultTimeout {msg : MsgTransfer}
    (h : newMsgTransferDefaultTimeout env s sender args = .ok msg) : Moves env sender msg := by
  simp only [newMsgTransferDefaultTimeout, bind_eq_ok, ensure_eq_ok, exists_const, pure_eq_ok,
    Except.ok.injEq] at h
  obtain ⟨_, _, v, hv, hamount, _, _, _, _, _, _, rfl⟩ := h
  exact ⟨by rw [senderKiiAddr_of_validateCommonArgs hv], Nat.pos_of_ne_zero hamount⟩

/-- Whatever the method, the sender is the origin. -/
theorem moves_of_messageOf {method : String} {msg : MsgTransfer}
    (h : messageOf env evm s method args = .ok msg) : Moves env evm.origin msg := by
  unfold messageOf at h
  split_ifs at h
  · exact moves_of_newMsgTransfer h
  · exact moves_of_newMsgTransferDefaultTimeout h
  · cases h

end Sender

section Authorisation

variable {env : Env S} {evm : Evm}

theorem run_eq (contract : Contract) (readOnly : Bool) (s : S) :
    run env evm contract readOnly s = (do
      let (method, args) ← env.runSetup readOnly contract.input
      let t ← sendTransfer env s (messageOf env evm s method args) evm.origin
      env.useGas s t
      pure t) := by
  unfold run
  congr 1
  funext setup
  obtain ⟨method, args⟩ := setup
  unfold messageOf
  dsimp only
  split_ifs <;> rfl

theorem result_eq_ok {i : Invocation S} {t : S} : i.result env evm = .ok t ↔
    ∃ method args msg, env.runSetup i.readOnly i.contract.input = .ok (method, args) ∧
      messageOf env evm i.before method args = .ok msg ∧ env.transfer i.before msg = .ok t ∧
      Returns (env.emitEventTransfer evm.origin msg) ∧ Returns (env.useGas i.before t) := by
  rw [Invocation.result, run_eq]
  simp only [bind_eq_ok, sendTransfer, pure_eq_ok, Except.ok.injEq, Prod.exists]
  constructor
  · rintro ⟨method, args, hsetup, t, ⟨msg, hmsg, t, htransfer, _, hemit, rfl⟩, _, hgas, rfl⟩
    exact ⟨method, args, msg, hsetup, hmsg, htransfer, ⟨_, hemit⟩, ⟨_, hgas⟩⟩
  · rintro ⟨method, args, msg, hsetup, hmsg, htransfer, ⟨_, hemit⟩, ⟨_, hgas⟩⟩
    exact ⟨method, args, hsetup, t, ⟨msg, hmsg, t, htransfer, _, hemit, rfl⟩, _, hgas, rfl⟩

theorem accepted_iff {i : Invocation S} : Accepted env evm i ↔ Returns (i.result env evm) := by
  constructor
  · rintro ⟨method, args, msg, t, h⟩
    exact ⟨t, result_eq_ok.mpr ⟨method, args, msg, h⟩⟩
  · rintro ⟨t, ht⟩
    obtain ⟨method, args, msg, h⟩ := result_eq_ok.mp ht
    exact ⟨method, args, msg, t, h⟩

/-- A transfer lowers a balance of the origin, and of nobody else. -/
theorem debits_origin (law : SenderPays env) {i : Invocation S} {t : S}
    (h : i.result env evm = .ok t) :
    (∃ denom, env.balance t evm.origin denom < env.balance i.before evm.origin denom) ∧
      ∀ a, a ≠ evm.origin → ∀ denom, env.balance i.before a denom ≤ env.balance t a denom := by
  obtain ⟨method, args, msg, _, hmsg, htransfer, _⟩ := result_eq_ok.mp h
  have hmoves := moves_of_messageOf hmsg
  constructor
  · exact ⟨_, law.debits _ _ _ htransfer hmoves.amount_pos evm.origin hmoves.sender_eq.symm⟩
  · intro a ha denom
    refine law.spares _ _ _ htransfer a (fun htext => ha ?_) denom
    exact law.text_injective (htext.trans hmoves.sender_eq)

theorem debitsOnlyCaller_iff (law : SenderPays env) (i : Invocation S) :
    DebitsOnlyCaller env evm i ↔ (Accepted env evm i → i.contract.caller = evm.origin) := by
  rw [accepted_iff]
  constructor
  · rintro h ⟨t, ht⟩
    obtain ⟨denom, hlower⟩ := (debits_origin law ht).1
    exact Except.ok.inj (h t ht evm.origin denom hlower)
  · intro h t ht a denom hlower
    have horigin : a = evm.origin := by
      by_contra hother
      exact absurd ((debits_origin law ht).2 a hother denom) (not_le.mpr hlower)
    rw [horigin, ← h ⟨t, ht⟩]
    rfl

/-- In a tree of calls every transfer debits its direct caller only, exactly
where every transfer that gets through was called by the origin itself. -/
theorem transfers_debit_callers_iff (law : SenderPays env) (calls : Calls S) (s : S) :
    (∀ i ∈ invocations env evm calls s, DebitsOnlyCaller env evm i) ↔
      ∀ i ∈ invocations env evm calls s, Accepted env evm i → i.contract.caller = evm.origin :=
  forall₂_congr fun i _ => debitsOnlyCaller_iff law i

end Authorisation

namespace PhishingContract

/-- Balances by the text of an address and the denomination. -/
abbrev Bank := String → String → ℕ

def addressText (a : AccAddress) : String := String.ofList (List.replicate a.toNat 'k')

def debited (bank : Bank) (msg : MsgTransfer) : Bank := fun text denom =>
  if text = msg.sender ∧ denom = msg.token.denom then bank text denom - msg.token.amount
  else bank text denom

/-- Every input decodes to one and the same transfer. -/
def env : Env Bank where
  addressText := addressText
  balance bank a denom := bank (addressText a) denom
  transfer bank msg := do
    ensure (msg.token.amount ≤ bank msg.sender msg.token.denom) (.error "insufficient funds")
    pure (debited bank msg)
  validateBasic _ := .ok ()
  getChannel _ _ _ := none
  getConnection _ _ := none
  getClientLatestHeight _ _ := ⟨0, 0⟩
  getClientTimestampAtHeight _ _ _ := fail "not found"
  runSetup readOnly _ := do
    ensure (readOnly = false) (.error "write protection")
    pure (transferMethod, [.string "cosmos1thief", .string "transfer", .string "channel-0",
      .string "akii", .bigInt 5, .uint64 0, .uint64 100, .uint64 0, .string ""])
  emitEventTransfer _ _ := .ok ()
  useGas _ _ := .ok ()

def user : EvmAddress := 1

def contract : EvmAddress := 2

def bank : Bank := fun text denom => if text = "k" ∧ denom = "akii" then 10 else 0

/-- The user calls the contract, and the contract calls the precompile. -/
def calls : Calls Bank := .call contract false (.precompile [] .done) false .done

def evm : Evm := ⟨user⟩

theorem text_injective : Function.Injective addressText := by
  intro a b h
  have hlist : List.replicate a.toNat 'k' = List.replicate b.toNat 'k' := String.ofList_injective h
  have hlength := congrArg List.length hlist
  rw [List.length_replicate, List.length_replicate] at hlength
  exact BitVec.eq_of_toNat_eq hlength

theorem senderPays : SenderPays env := by
  refine ⟨text_injective, fun bank msg t h hpos a ha => ?_, fun bank msg t h a ha denom => ?_⟩
  · obtain ⟨_, hfunds, ht⟩ := bind_eq_ok.mp h
    cases ht
    have hle := ensure_eq_ok.mp hfunds
    change debited bank msg (addressText a) _ < bank (addressText a) _
    rw [show addressText a = msg.sender from ha, debited, if_pos ⟨rfl, rfl⟩]
    omega
  · obtain ⟨_, _, ht⟩ := bind_eq_ok.mp h
    cases ht
    change bank (addressText a) denom ≤ debited bank msg (addressText a) denom
    rw [debited, if_neg fun heq => ha heq.1]

def invoked : Invocation Bank := ⟨⟨contract, []⟩, false, bank⟩

theorem invoked_mem : invoked ∈ invocations env evm calls bank := by
  change invoked ∈ [invoked]
  exact List.mem_singleton_self _

/-- What the user has left of ten coins. -/
theorem invoked_result :
    (invoked.result env evm).toOption.map (fun t => env.balance t user "akii") = some 5 := by
  decide

/-- The contract moves coins of the user, who only called it. -/
theorem contract_spends : SenderPays env ∧
    ¬ ∀ i ∈ invocations env evm calls bank, DebitsOnlyCaller env evm i := by
  refine ⟨senderPays, fun h => ?_⟩
  obtain ⟨t, ht, hleft⟩ := exists_of_toOption_map invoked_result
  have hcaller := h invoked invoked_mem t ht user "akii" (by rw [hleft]; decide)
  exact absurd (Except.ok.inj hcaller) (by decide)

/-- A user who calls the precompile spends their own coins. -/
theorem user_spends : (invocations env evm (.precompile [] .done) bank).length = 1 ∧
    ∀ i ∈ invocations env evm (.precompile [] .done) bank, DebitsOnlyCaller env evm i := by
  refine ⟨rfl, (transfers_debit_callers_iff senderPays (.precompile [] .done) bank).mpr ?_⟩
  intro i hi _
  change i ∈ [(⟨⟨user, []⟩, false, bank⟩ : Invocation Bank)] at hi
  rw [List.mem_singleton.mp hi]
  rfl

end PhishingContract

end Kiichain.IbcPrecompile
