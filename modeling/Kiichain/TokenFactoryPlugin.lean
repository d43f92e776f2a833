import Kiichain.TokenFactoryAuthority

/-!
# The two front ends of the token factory

A message of a transaction passes its stateless checks and then the message
server. A contract reaches the module through the custom messages of the
CosmWasm plugin, which builds the same messages with the contract as their
sender, except that metadata is written to the bank directly.
-/

namespace Kiichain.TokenFactory
open GoExec FixedPoint

section ValidateBasic

variable (k : Keeper)

def validateSender (sender : String) : Exec Unit :=
  ensure ((k.accAddressFromBech32 sender).isSome) (.error "Invalid sender address (%s): invalid address")

/-- `IsValid` of a coin. -/
def checkCoin (amount : Coin) : Exec Unit :=
  ensure (validDenom amount.denom = true ∧ 0 ≤ amount.amount.val) (.error "%s: invalid coins")

def MsgMint.validateBasic (msg : MsgMint) : Exec Unit := do
  validateSender k msg.sender
  ensure (msg.mintToAddress = "" ∨ (k.accAddressFromBech32 msg.mintToAddress).isSome)
    (.error "Invalid mint to address (%s): invalid address")
  checkCoin msg.amount
  ensure (msg.amount.amount.val ≠ 0) (.error "%s: invalid coins")

def MsgBurn.validateBasic (msg : MsgBurn) : Exec Unit := do
  validateSender k msg.sender
  checkCoin msg.amount
  ensure (msg.amount.amount.val ≠ 0) (.error "%s: invalid coins")
  ensure (msg.burnFromAddress = "" ∨ (k.accAddressFromBech32 msg.burnFromAddress).isSome)
    (.error "Invalid burn from address (%s): invalid address")

def MsgForceTransfer.validateBasic (msg : MsgForceTransfer) : Exec Unit := do
  validateSender k msg.sender
  ensure ((k.accAddressFromBech32 msg.transferFromAddress).isSome)
    (.error "Invalid from address (%s): invalid address")
  ensure ((k.accAddressFromBech32 msg.transferToAddress).isSome)
    (.error "Invalid to address (%s): invalid address")
  checkCoin msg.amount

def MsgChangeAdmin.validateBasic (msg : MsgChangeAdmin) : Exec Unit := do
  validateSender k msg.sender
  ensure ((k.accAddressFromBech32 msg.newAdmin).isSome)
    (.error "Invalid address (%s): invalid address")
  let _ ← deconstructDenom k msg.denom
  pure ()

def MsgSetDenomMetadata.validateBasic (msg : MsgSetDenomMetadata) : Exec Unit := do
  validateSender k msg.sender
  ensure (k.metadataValid msg.metadata) (.error "invalid metadata")
  let _ ← deconstructDenom k msg.metadata.base
  pure ()

def Msg.validateBasic : Msg → Exec Unit
  | .createDenom _ msg => MsgServer.validateCreateDenomMsg k msg
  | .mint msg => msg.validateBasic k
  | .burn msg => msg.validateBasic k
  | .forceTransfer msg => msg.validateBasic k
  | .changeAdmin msg => msg.validateBasic k
  | .setDenomMetadata msg => msg.validateBasic k

/-- A message with the stateless checks that come before its handler. -/
def deliver (s : State) (msg : Msg) : Exec State := do
  msg.validateBasic k
  handle k s msg

end ValidateBasic

section Params

structure MsgUpdateParams where
  authority : String
  params : Params

def validateDenomCreationFee (fee : List Coin) : Exec Unit :=
  ensure (fee.Pairwise (fun c d => c.denom < d.denom) ∧
    ∀ c ∈ fee, validDenom c.denom = true ∧ 0 < c.amount.val)
    (.error "invalid denom creation fee: %+v")

def updateParams (authority : String) (s : State) (msg : MsgUpdateParams) : Exec State := do
  ensure (authority = msg.authority) (.error "invalid authority; expected %s, got %s")
  validateDenomCreationFee msg.params.denomCreationFee
  pure { s with params := msg.params }

end Params

namespace Plugin

structure CreateDenom where
  subdenom : String
  metadata : Option Metadata

structure MintTokens where
  denom : String
  amount : SdkInt
  mintToAddress : String

structure ChangeAdmin where
  denom : String
  newAdminAddress : String

structure BurnTokens where
  denom : String
  amount : SdkInt
  burnFromAddress : String

structure SetMetadata where
  denom : String
  metadata : Metadata

structure ForceTransfer where
  denom : String
  amount : SdkInt
  fromAddress : String
  toAddress : String

/-- The custom message of a contract; the first field that is set decides. -/
structure Msg where
  createDenom : Option CreateDenom
  mintTokens : Option MintTokens
  changeAdmin : Option ChangeAdmin
  burnTokens : Option BurnTokens
  setMetadata : Option SetMetadata
  forceTransfer : Option ForceTransfer

inductive Variant
  | createDenom (createDenom : CreateDenom)
  | mintTokens (mint : MintTokens)
  | changeAdmin (changeAdmin : ChangeAdmin)
  | burnTokens (burn : BurnTokens)
  | setMetadata (setMetadata : SetMetadata)
  | forceTransfer (forcetransfer : ForceTransfer)

def Msg.variant? (msg : Msg) : Option Variant :=
  (msg.createDenom.map .createDenom).or <|
  (msg.mintTokens.map .mintTokens).or <|
  (msg.changeAdmin.map .changeAdmin).or <|
  (msg.burnTokens.map .burnTokens).or <|
  (msg.setMetadata.map .setMetadata).or <|
  msg.forceTransfer.map .forceTransfer

section Perform

variable (k : Keeper) (s : State) (contractAddr : Account)

/-- `AccAddressFromBech32` verifies the format of the address as well. -/
def parseAddress (addr : String) : Exec Account :=
  require (k.accAddressFromBech32 addr) (.error "address from bech32: %s")

/-- An empty base stands for the denomination, any other must be equal to it. -/
def fillBase (denom : String) (metadata : Metadata) : Exec Metadata :=
  if metadata.base = "" then pure { metadata with base := denom }
  else do
    ensure (metadata.base = denom) (.error "Base must be the same as denom")
    pure metadata

def performSetMetadata (denom : String) (metadata : Metadata) : Exec State := do
  ensure ((getAuthorityMetadata s denom).admin = k.addressString contractAddr)
    (.error "only admin can set metadata")
  let metadata ← fillBase denom metadata
  ensure (k.metadataValid metadata) (.error "invalid metadata")
  pure (setDenomMetaData s metadata)

def performCreateDenom (gasLeft : ℕ) (createDenom : CreateDenom) : Exec State := do
  let msgCreateDenom : MsgCreateDenom := ⟨k.addressString contractAddr, createDenom.subdenom⟩
  wrapped "failed validating MsgCreateDenom: " (MsgServer.validateCreateDenomMsg k msgCreateDenom)
  let (t, newDenom) ← wrapped "creating denom: " (MsgServer.createDenom k s gasLeft msgCreateDenom)
  match createDenom.metadata with
  | none => pure t
  | some metadata =>
    wrapped "setting metadata: " (performSetMetadata k t contractAddr newDenom metadata)

def performMint (mint : MintTokens) : Exec State := do
  let rcpt ← parseAddress k mint.mintToAddress
  let coin : Coin := ⟨mint.denom, mint.amount⟩
  let sdkMsg : MsgMint := ⟨k.addressString contractAddr, coin, ""⟩
  sdkMsg.validateBasic k
  let t ← wrapped "minting coins from message: " (MsgServer.mint k s sdkMsg)
  -- a blocked recipient wraps the nil error of the mint, which gives nil
  if k.blockedAddr rcpt then pure t
  else do
    newCoins coin
    let bank ← wrapped "sending newly minted coins from message: "
      (sendCoins t.bank contractAddr rcpt [coin])
    pure { t with bank := bank }

def changeAdmin (changeAdmin : ChangeAdmin) : Exec State := do
  let newAdminAddr ← parseAddress k changeAdmin.newAdminAddress
  let changeAdminMsg : MsgChangeAdmin :=
    ⟨k.addressString contractAddr, changeAdmin.denom, k.addressString newAdminAddr⟩
  changeAdminMsg.validateBasic k
  wrapped "failed changing admin from message: " (MsgServer.changeAdmin k s changeAdminMsg)

def performBurn (burn : BurnTokens) : Exec State := do
  let sdkMsg : MsgBurn :=
    ⟨k.addressString contractAddr, ⟨burn.denom, burn.amount⟩, burn.burnFromAddress⟩
  sdkMsg.validateBasic k
  wrapped "burning coins from message: " (MsgServer.burn k s sdkMsg)

def performForceTransfer (forcetransfer : ForceTransfer) : Exec State := do
  let _ ← parseAddress k forcetransfer.fromAddress
  let _ ← parseAddress k forcetransfer.toAddress
  let sdkMsg : MsgForceTransfer := ⟨k.addressString contractAddr,
    ⟨forcetransfer.denom, forcetransfer.amount⟩, forcetransfer.fromAddress, forcetransfer.toAddress⟩
  sdkMsg.validateBasic k
  wrapped "force transferring from message: " (MsgServer.forceTransfer k s sdkMsg)

def perform (gasLeft : ℕ) : Variant → Exec State
  | .createDenom createDenom =>
    wrapped "perform create denom: " (performCreateDenom k s contractAddr gasLeft createDenom)
  | .mintTokens mint => wrapped "perform mint: " (performMint k s contractAddr mint)
  | .changeAdmin admin => wrapped "failed to change admin: " (changeAdmin k s contractAddr admin)
  | .burnTokens burn => wrapped "perform burn: " (performBurn k s contractAddr burn)
  | .setMetadata setMetadata => wrapped "perform set metadata: "
      (performSetMetadata k s contractAddr setMetadata.denom setMetadata.metadata)
  | .forceTransfer forcetransfer =>
    wrapped "perform force transfer: " (performForceTransfer k s contractAddr forcetransfer)

def dispatchMsg (gasLeft : ℕ) (msg : Msg) : Exec State :=
  match msg.variant? with
  | some variant => perform k s contractAddr gasLeft variant
  | none => fail "unknown token factory msg variant"

end Perform

end Plugin

section Inversion

variable {k : Keeper} {s t : State} {contractAddr : Account} {gasLeft : ℕ}

theorem deliver_eq_ok {msg : Msg} :
    deliver k s msg = .ok t ↔ msg.validateBasic k = .ok () ∧ handle k s msg = .ok t := by
  simp only [deliver, bind_eq_ok]
  constructor
  · rintro ⟨_, hbasic, h⟩
    exact ⟨hbasic, h⟩
  · rintro ⟨hbasic, h⟩
    exact ⟨_, hbasic, h⟩

theorem fillBase_eq_ok {denom : String} {metadata filled : Metadata} :
    Plugin.fillBase denom metadata = .ok filled ↔
      (metadata.base = "" ∨ metadata.base = denom) ∧ filled = { metadata with base := denom } := by
  unfold Plugin.fillBase
  split_ifs with hempty
  · simp [hempty, eq_comm]
  · simp only [bind_eq_ok, ensure_eq_ok, exists_const, pure_eq_ok, Except.ok.injEq, hempty,
      false_or]
    constructor
    · rintro ⟨rfl, rfl⟩
      exact ⟨rfl, rfl⟩
    · rintro ⟨rfl, rfl⟩
      exact ⟨rfl, rfl⟩

theorem performSetMetadata_eq_ok {denom : String} {metadata : Metadata} :
    Plugin.performSetMetadata k s contractAddr denom metadata = .ok t ↔
      admin s denom = k.addressString contractAddr ∧
        (metadata.base = "" ∨ metadata.base = denom) ∧
        k.metadataValid { metadata with base := denom } = true ∧
        t = setDenomMetaData s { metadata with base := denom } := by
  simp only [Plugin.performSetMetadata, bind_eq_ok, ensure_eq_ok, exists_const, fillBase_eq_ok,
    pure_eq_ok, Except.ok.injEq]
  constructor
  · rintro ⟨hadmin, _, ⟨hbase, rfl⟩, hvalid, rfl⟩
    exact ⟨hadmin, hbase, hvalid, rfl⟩
  · rintro ⟨hadmin, hbase, hvalid, rfl⟩
    exact ⟨hadmin, _, ⟨hbase, rfl⟩, hvalid, rfl⟩

/-- The message of a contract that mints to itself. -/
def Plugin.MintTokens.toMsg (k : Keeper) (contractAddr : Account) (mint : Plugin.MintTokens) :
    MsgMint :=
  ⟨k.addressString contractAddr, ⟨mint.denom, mint.amount⟩, ""⟩

/-- The contract mints to itself, and what it minted goes on to a recipient that
is not blocked. -/
theorem performMint_eq_ok {mint : Plugin.MintTokens} :
    Plugin.performMint k s contractAddr mint = .ok t ↔
      ∃ rcpt u, k.accAddressFromBech32 mint.mintToAddress = some rcpt ∧
        deliver k s (.mint (mint.toMsg k contractAddr)) = .ok u ∧
        (k.blockedAddr rcpt = true ∧ t = u ∨
          k.blockedAddr rcpt = false ∧ newCoins ⟨mint.denom, mint.amount⟩ = .ok () ∧
            ∃ bank, sendCoins u.bank contractAddr rcpt [⟨mint.denom, mint.amount⟩] = .ok bank ∧
              t = { u with bank := bank }) := by
  simp only [Plugin.performMint, Plugin.parseAddress, wrapped_eq_ok, bind_eq_ok, require_eq_ok,
    deliver_eq_ok]
  constructor
  · rintro ⟨rcpt, hrcpt, _, hbasic, u, hmint, h⟩
    refine ⟨rcpt, u, hrcpt, ⟨hbasic, hmint⟩, ?_⟩
    split_ifs at h with hblocked
    · exact Or.inl ⟨hblocked, (Except.ok.inj h).symm⟩
    · simp only [wrapped_eq_ok, bind_eq_ok, pure_eq_ok, Except.ok.injEq] at h
      obtain ⟨_, hcoins, bank, hbank, rfl⟩ := h
      exact Or.inr ⟨by simpa using hblocked, hcoins, bank, hbank, rfl⟩
  · rintro ⟨rcpt, u, hrcpt, ⟨hbasic, hmint⟩, h⟩
    refine ⟨rcpt, hrcpt, (), hbasic, u, hmint, ?_⟩
    obtain ⟨hblocked, rfl⟩ | ⟨hblocked, hcoins, bank, hbank, rfl⟩ := h
    · rw [if_pos hblocked, pure_eq_ok]
    · rw [if_neg (by simp [hblocked]), hcoins, ok_bind, hbank]
      rfl

/-- The contract creates the denomination and, where metadata comes with the message,
sets it for the denomination of its own name. -/
theorem perform_createDenom_eq_ok {m : Plugin.CreateDenom} :
    Plugin.perform k s contractAddr gasLeft (.createDenom m) = .ok t ↔ ∃ u,
      deliver k s (.createDenom gasLeft ⟨k.addressString contractAddr, m.subdenom⟩) = .ok u ∧
        (m.metadata = none ∧ t = u ∨ ∃ metadata, m.metadata = some metadata ∧
          Plugin.performSetMetadata k u contractAddr
            (tokenDenom (k.addressString contractAddr) m.subdenom) metadata = .ok t) := by
  simp only [Plugin.perform, Plugin.performCreateDenom, wrapped_eq_ok, bind_eq_ok, deliver_eq_ok,
    Msg.validateBasic, handle, pure_eq_ok, Except.ok.injEq]
  constructor
  · rintro ⟨_, hbasic, ⟨u, newDenom⟩, hcreate, h⟩
    refine ⟨u, ⟨hbasic, _, hcreate, rfl⟩, ?_⟩
    cases hm : m.metadata with
    | none =>
        rw [hm] at h
        exact Or.inl ⟨rfl, (Except.ok.inj h).symm⟩
    | some metadata =>
        rw [hm, (createDenom_effect hcreate).1] at h
        exact Or.inr ⟨metadata, rfl, wrapped_eq_ok.mp h⟩
  · rintro ⟨_, ⟨hbasic, ⟨u, newDenom⟩, hcreate, rfl⟩, h⟩
    refine ⟨(), hbasic, ⟨u, newDenom⟩, hcreate, ?_⟩
    obtain ⟨hm, rfl⟩ | ⟨metadata, hm, h⟩ := h
    · rw [hm]
    · rw [hm, (createDenom_effect hcreate).1]
      exact wrapped_eq_ok.mpr h

theorem perform_changeAdmin_eq_ok {m : Plugin.ChangeAdmin} :
    Plugin.perform k s contractAddr gasLeft (.changeAdmin m) = .ok t ↔ ∃ a,
      k.accAddressFromBech32 m.newAdminAddress = some a ∧
        deliver k s (.changeAdmin ⟨k.addressString contractAddr, m.denom, k.addressString a⟩) =
          .ok t := by
  simp only [Plugin.perform, Plugin.changeAdmin, Plugin.parseAddress, wrapped_eq_ok, deliver,
    Msg.validateBasic, handle, bind_eq_ok, require_eq_ok]

theorem perform_burnTokens_iff {m : Plugin.BurnTokens} :
    Plugin.perform k s contractAddr gasLeft (.burnTokens m) = .ok t ↔
      deliver k s (.burn ⟨k.addressString contractAddr, ⟨m.denom, m.amount⟩, m.burnFromAddress⟩) =
        .ok t := by
  simp only [Plugin.perform, Plugin.performBurn, wrapped_eq_ok, deliver, Msg.validateBasic, handle,
    bind_eq_ok]

/-- The addresses that the plugin parses first are parsed by the message again. -/
theorem perform_forceTransfer_iff {m : Plugin.ForceTransfer} :
    Plugin.perform k s contractAddr gasLeft (.forceTransfer m) = .ok t ↔
      deliver k s (.forceTransfer
        ⟨k.addressString contractAddr, ⟨m.denom, m.amount⟩, m.fromAddress, m.toAddress⟩) = .ok t := by
  simp only [Plugin.perform, Plugin.performForceTransfer, Plugin.parseAddress, wrapped_eq_ok, deliver,
    Msg.validateBasic, handle, bind_eq_ok, require_eq_ok]
  constructor
  · rintro ⟨_, _, _, _, hrest⟩
    exact hrest
  · rintro ⟨u, hbasic, h⟩
    have hparse := hbasic
    simp only [MsgForceTransfer.validateBasic, bind_eq_ok, ensure_eq_ok] at hparse
    obtain ⟨_, _, _, hfrom, _, hto, _⟩ := hparse
    obtain ⟨a, ha⟩ := Option.isSome_iff_exists.mp hfrom
    obtain ⟨b, hb⟩ := Option.isSome_iff_exists.mp hto
    exact ⟨a, ha, b, hb, u, hbasic, h⟩

/-- A custom message is at most one delivered message of the contract, followed by
at most a write of metadata or a payment by the contract. -/
inductive Performs (k : Keeper) (s : State) (contractAddr : Account) : State → Prop
  | idle : Performs k s contractAddr s
  | delivered (msg : Msg) {t : State} (hsender : msg.sender = k.addressString contractAddr)
      (h : deliver k s msg = .ok t) : Performs k s contractAddr t
  | metadata {t : State} {metadata : Metadata} (h : Performs k s contractAddr t) :
      Performs k s contractAddr (setDenomMetaData t metadata)
  | paid {t : State} {rcpt : Account} {coin : Coin} {bank : Ledger Account String}
      (h : Performs k s contractAddr t)
      (hsend : sendCoins t.bank contractAddr rcpt [coin] = .ok bank) :
      Performs k s contractAddr { t with bank := bank }

theorem performs_of_perform {variant : Plugin.Variant}
    (h : Plugin.perform k s contractAddr gasLeft variant = .ok t) : Performs k s contractAddr t := by
  cases variant with
  | createDenom createDenom =>
      obtain ⟨u, hdeliver, hset⟩ := perform_createDenom_eq_ok.mp h
      have hdelivered : Performs k s contractAddr u := .delivered (.createDenom _ _) rfl hdeliver
      obtain ⟨_, rfl⟩ | ⟨metadata, _, hset⟩ := hset
      · exact hdelivered
      · obtain ⟨_, _, _, rfl⟩ := performSetMetadata_eq_ok.mp hset
        exact .metadata hdelivered
  | mintTokens mint =>
      simp only [Plugin.perform, wrapped_eq_ok, performMint_eq_ok] at h
      obtain ⟨rcpt, u, _, hmint, h⟩ := h
      have hdelivered : Performs k s contractAddr u := .delivered (.mint _) rfl hmint
      obtain ⟨_, rfl⟩ | ⟨_, _, bank, hbank, rfl⟩ := h
      · exact hdelivered
      · exact .paid hdelivered hbank
  | changeAdmin admin =>
      obtain ⟨_, _, hdeliver⟩ := perform_changeAdmin_eq_ok.mp h
      exact .delivered (.changeAdmin _) rfl hdeliver
  | burnTokens burn => exact .delivered (.burn _) rfl (perform_burnTokens_iff.mp h)
  | setMetadata setMetadata =>
      simp only [Plugin.perform, wrapped_eq_ok, performSetMetadata_eq_ok] at h
      obtain ⟨_, _, _, rfl⟩ := h
      exact .metadata .idle
  | forceTransfer forcetransfer =>
      exact .delivered (.forceTransfer _) rfl (perform_forceTransfer_iff.mp h)

end Inversion

/-- What reaches the module: a message of a transaction, a change of its
parameters, or a custom message of a contract. -/
inductive Call
  | msg (msg : Msg)
  | updateParams (msg : MsgUpdateParams)
  | contract (contractAddr : Account) (gasLeft : ℕ) (msg : Plugin.Msg)

def executeCall (k : Keeper) (authority : String) (s : State) : Call → Exec State
  | .msg msg => deliver k s msg
  | .updateParams msg => updateParams authority s msg
  | .contract contractAddr gasLeft msg => Plugin.dispatchMsg k s contractAddr gasLeft msg

def stepCall (k : Keeper) (authority : String) (s : State) (c : Call) : Exec State :=
  pure (rolledBack s (executeCall k authority s c))

end Kiichain.TokenFactory
