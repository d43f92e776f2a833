import Kiichain.Coins
import Kiichain.GoStrings
import Kiichain.Ledger
import Kiichain.Runs
import Mathlib.Data.Finset.Prod

/-!
# The token factory

Any account can create denominations `factory/{creator}/{subdenom}`. The admin
recorded for a denomination mints, burns and moves it, and hands the role on.
-/

namespace Kiichain.TokenFactory
open GoExec FixedPoint

def moduleName : String := "tokenfactory"

def moduleDenomPrefix : String := "factory"

def maxSubdenomLength : ℕ := 44

def maxHrpLength : ℕ := 16

def maxCreatorLength : ℕ := 59 + maxHrpLength

def enableSetMetadata : String := "enable_metadata"

def enableForceTransfer : String := "enable_force_transfer"

def enableBurnFrom : String := "enable_burn_from"

def enableCommunityPoolFeeFunding : String := "enable_community_pool_fee_funding"

def isCapabilityEnabled (enabledCapabilities : List String) (capability : String) : Bool :=
  capability ∈ enabledCapabilities

structure Params where
  denomCreationFee : List Coin
  denomCreationGasConsume : ℕ

structure DenomAuthorityMetadata where
  admin : String
deriving DecidableEq

structure State where
  params : Params
  authorityMetadata : SortedMap String DenomAuthorityMetadata
  creatorDenoms : Finset (String × String)
  denomMetaData : SortedMap String Metadata
  bank : Ledger Account String

/-- The wiring of the module. No account has the empty address. -/
structure Keeper where
  enabledCapabilities : List String
  permAddrs : List String
  accAddressFromBech32 : String → Option Account
  addressString : Account → String
  blockedAddr : Account → Bool
  metadataValid : Metadata → Bool
  empty_address : accAddressFromBech32 "" = none

structure MsgCreateDenom where
  sender : String
  subdenom : String

structure MsgMint where
  sender : String
  amount : Coin
  mintToAddress : String

structure MsgBurn where
  sender : String
  amount : Coin
  burnFromAddress : String

structure MsgForceTransfer where
  sender : String
  amount : Coin
  transferFromAddress : String
  transferToAddress : String

structure MsgChangeAdmin where
  sender : String
  denom : String
  newAdmin : String

structure MsgSetDenomMetadata where
  sender : String
  metadata : Metadata

def defaultParams : Params := ⟨[⟨"akii", ⟨10000000, by norm_num⟩⟩], 2000000⟩

def defaultGenesis (denomMetaData : SortedMap String Metadata) (bank : Ledger Account String) :
    State :=
  ⟨defaultParams, ∅, ∅, denomMetaData, bank⟩

section Denoms

def tokenDenom (creator subdenom : String) : String :=
  moduleDenomPrefix ++ "/" ++ creator ++ "/" ++ subdenom

def getTokenDenom (creator subdenom : String) : Exec String := do
  ensure (subdenom.utf8ByteSize ≤ maxSubdenomLength)
    (.error "subdenom too long, max length is 44 bytes")
  ensure (creator.utf8ByteSize ≤ maxCreatorLength)
    (.error "creator too long, max length is 75 bytes")
  ensure ('/' ∉ creator.toList) (.error "invalid creator")
  ensure (validDenom (tokenDenom creator subdenom)) (.error "invalid denom: %s")
  pure (tokenDenom creator subdenom)

def deconstructDenom (k : Keeper) (denom : String) : Exec (String × String) := do
  ensure (validDenom denom) (.error "invalid denom: %s")
  match GoStrings.splitString '/' denom with
  | lead :: creator :: part :: parts => do
      ensure (lead = moduleDenomPrefix)
        (.error "denom prefix is incorrect. Is: %s.  Should be: %s: invalid denom")
      let creatorAddr ← require (k.accAddressFromBech32 creator)
        (.error "Invalid creator address (%s): invalid denom")
      pure (k.addressString creatorAddr, "/".intercalate (part :: parts))
  | _ => fail "not enough parts of denom %s: invalid denom"

end Denoms

section Bank

/-- The bank takes coins built by `NewCoins`, which panics on an invalid coin. -/
def newCoins (amount : Coin) : Exec Unit := do
  let _ ← Coin.newCoin amount.denom amount.amount

def sendCoins (l : Ledger Account String) (a b : Account) (coins : List Coin) :
    Exec (Ledger Account String) :=
  coins.foldlM (fun l c => l.send a b c.denom c.amount.val.toNat) l

def burnCoins (l : Ledger Account String) (a : Account) (coins : List Coin) :
    Exec (Ledger Account String) :=
  coins.foldlM (fun l c => l.burn a c.denom c.amount.val.toNat) l

def mintCoins (l : Ledger Account String) (a : Account) (c : Coin) :
    Exec (Ledger Account String) := do
  ensure (l.supply c.denom + c.amount.val.toNat < 2 ^ 256) (.panic "Int overflow")
  pure (l.mint a c.denom c.amount.val.toNat)

end Bank

section Keeper

variable (k : Keeper) (s : State)

def validateAuthorityMetadata (metadata : DenomAuthorityMetadata) : Exec Unit :=
  if metadata.admin = "" then pure ()
  else ensure ((k.accAddressFromBech32 metadata.admin).isSome) (.error "decoding bech32 failed: %s")

/-- An absent entry decodes to the empty admin. -/
def getAuthorityMetadata (denom : String) : DenomAuthorityMetadata :=
  (s.authorityMetadata.get? denom).getD ⟨""⟩

def setAuthorityMetadata (denom : String) (metadata : DenomAuthorityMetadata) : Exec State := do
  validateAuthorityMetadata k metadata
  pure { s with authorityMetadata := s.authorityMetadata.insert denom metadata }

def setAdmin (metadata : DenomAuthorityMetadata) (denom admin : String) : Exec State :=
  setAuthorityMetadata k s denom { metadata with admin := admin }

def addDenomFromCreator (creator denom : String) : State :=
  { s with creatorDenoms := insert (creator, denom) s.creatorDenoms }

def setDenomMetaData (metadata : Metadata) : State :=
  { s with denomMetaData := s.denomMetaData.insert metadata.base metadata }

def validateCreateDenom (creatorAddr subdenom : String) : Exec String := do
  let denom ← getTokenDenom creatorAddr subdenom
  ensure (s.denomMetaData.get? denom = none)
    (.error "attempting to create a denom that already exists (has bank metadata)")
  pure denom

def payCreationFee (accAddr : Account) : Exec (Ledger Account String) :=
  if isCapabilityEnabled k.enabledCapabilities enableCommunityPoolFeeFunding then
    sendCoins s.bank accAddr (.module "distribution") s.params.denomCreationFee
  else do
    let bank ← sendCoins s.bank accAddr (.module moduleName) s.params.denomCreationFee
    burnCoins bank (.module moduleName) s.params.denomCreationFee

/-- The fee of the parameters is a stored list, hence never nil. -/
def chargeForCreateDenom (gasLeft : ℕ) (creatorAddr : String) : Exec State := do
  let accAddr ← require (k.accAddressFromBech32 creatorAddr) (.error "decoding bech32 failed: %s")
  let bank ← payCreationFee k s accAddr
  ensure (s.params.denomCreationGasConsume ≤ gasLeft) (.panic "out of gas")
  pure { s with bank := bank }

def createDenomAfterValidation (creatorAddr denom : String) : Exec State := do
  let t := setDenomMetaData s ⟨"", [⟨denom, 0, []⟩], denom, denom, denom, denom⟩
  let t ← setAuthorityMetadata k t denom ⟨creatorAddr⟩
  pure (addDenomFromCreator t creatorAddr denom)

def mintTo (amount : Coin) (mintTo : String) : Exec State := do
  let _ ← deconstructDenom k amount.denom
  newCoins amount
  let bank ← mintCoins s.bank (.module moduleName) amount
  let addr ← require (k.accAddressFromBech32 mintTo) (.error "decoding bech32 failed: %s")
  ensure (¬ k.blockedAddr addr) (.error "failed to mint to blocked address: %s")
  let bank ← bank.transfer (.module moduleName) addr amount.denom amount.amount.val.toNat
  pure { s with bank := bank }

def burnFrom (amount : Coin) (burnFrom : String) : Exec State := do
  let _ ← deconstructDenom k amount.denom
  let addr ← require (k.accAddressFromBech32 burnFrom) (.error "decoding bech32 failed: %s")
  ensure (¬ k.blockedAddr addr) (.error "failed to burn from blocked address: %s")
  newCoins amount
  let bank ← sendCoins s.bank addr (.module moduleName) [amount]
  let bank ← burnCoins bank (.module moduleName) [amount]
  pure { s with bank := bank }

def forceTransfer (amount : Coin) (fromAddr toAddr : String) : Exec State := do
  let _ ← deconstructDenom k amount.denom
  let fromSdkAddr ← require (k.accAddressFromBech32 fromAddr) (.error "decoding bech32 failed: %s")
  ensure (∀ name ∈ k.permAddrs, Account.module name ≠ fromSdkAddr)
    (.error "send from module acc not available")
  let toSdkAddr ← require (k.accAddressFromBech32 toAddr) (.error "decoding bech32 failed: %s")
  ensure (¬ k.blockedAddr toSdkAddr) (.error "failed to force transfer to blocked address: %s")
  newCoins amount
  let bank ← sendCoins s.bank fromSdkAddr toSdkAddr [amount]
  pure { s with bank := bank }

end Keeper

namespace MsgServer

variable (k : Keeper) (s : State)

def validateCreateDenomMsg (msg : MsgCreateDenom) : Exec Unit := do
  ensure ((k.accAddressFromBech32 msg.sender).isSome)
    (.error "Invalid sender address (%s): invalid address")
  match getTokenDenom msg.sender msg.subdenom with
  | .ok _ => pure ()
  | .error _ => fail "%s: invalid denom"

def createDenom (gasLeft : ℕ) (msg : MsgCreateDenom) : Exec (State × String) := do
  validateCreateDenomMsg k msg
  let denom ← validateCreateDenom s msg.sender msg.subdenom
  let t ← chargeForCreateDenom k s gasLeft msg.sender
  let t ← createDenomAfterValidation k t msg.sender denom
  pure (t, denom)

def checkAdmin (sender denom : String) : Exec Unit :=
  ensure (sender = (getAuthorityMetadata s denom).admin) (.error "unauthorized account")

def checkCapability (capability : String) : Exec Unit :=
  ensure (isCapabilityEnabled k.enabledCapabilities capability)
    (.error "this capability is not enabled on chain")

def mint (msg : MsgMint) : Exec State := do
  ensure ((s.denomMetaData.get? msg.amount.denom).isSome)
    (.error "denom: %s: denom does not exist")
  checkAdmin s msg.sender msg.amount.denom
  mintTo k s msg.amount (if msg.mintToAddress = "" then msg.sender else msg.mintToAddress)

def burn (msg : MsgBurn) : Exec State := do
  checkAdmin s msg.sender msg.amount.denom
  if msg.burnFromAddress = "" then burnFrom k s msg.amount msg.sender
  else do
    checkCapability k enableBurnFrom
    burnFrom k s msg.amount msg.burnFromAddress

def forceTransfer (msg : MsgForceTransfer) : Exec State := do
  checkCapability k enableForceTransfer
  checkAdmin s msg.sender msg.amount.denom
  TokenFactory.forceTransfer k s msg.amount msg.transferFromAddress msg.transferToAddress

def changeAdmin (msg : MsgChangeAdmin) : Exec State := do
  checkAdmin s msg.sender msg.denom
  setAdmin k s (getAuthorityMetadata s msg.denom) msg.denom msg.newAdmin

def setDenomMetadata (msg : MsgSetDenomMetadata) : Exec State := do
  checkCapability k enableSetMetadata
  ensure (k.metadataValid msg.metadata) (.error "invalid metadata")
  checkAdmin s msg.sender msg.metadata.base
  pure (setDenomMetaData s msg.metadata)

end MsgServer

inductive Msg
  | createDenom (gasLeft : ℕ) (msg : MsgCreateDenom)
  | mint (msg : MsgMint)
  | burn (msg : MsgBurn)
  | forceTransfer (msg : MsgForceTransfer)
  | changeAdmin (msg : MsgChangeAdmin)
  | setDenomMetadata (msg : MsgSetDenomMetadata)

def Msg.sender : Msg → String
  | .createDenom _ msg => msg.sender
  | .mint msg => msg.sender
  | .burn msg => msg.sender
  | .forceTransfer msg => msg.sender
  | .changeAdmin msg => msg.sender
  | .setDenomMetadata msg => msg.sender

def handle (k : Keeper) (s : State) : Msg → Exec State
  | .createDenom gasLeft msg => do
      let r ← MsgServer.createDenom k s gasLeft msg
      pure r.1
  | .mint msg => MsgServer.mint k s msg
  | .burn msg => MsgServer.burn k s msg
  | .forceTransfer msg => MsgServer.forceTransfer k s msg
  | .changeAdmin msg => MsgServer.changeAdmin k s msg
  | .setDenomMetadata msg => MsgServer.setDenomMetadata k s msg

/-- The signer of a message must decode to an account before the handler runs. -/
def execute (k : Keeper) (s : State) (msg : Msg) : Exec State := do
  ensure ((k.accAddressFromBech32 msg.sender).isSome) (.error "invalid signer")
  handle k s msg

def step (k : Keeper) (s : State) (msg : Msg) : Exec State :=
  pure (rolledBack s (execute k s msg))

end Kiichain.TokenFactory
