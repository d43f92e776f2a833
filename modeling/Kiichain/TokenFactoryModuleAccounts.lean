import Kiichain.TokenFactoryConfiscation
import Kiichain.TokenFactoryFrontEnds

/-!
# Module accounts under burns and forced transfers

A forced transfer is refused from every module account of the app. A burn is
refused from the blocked addresses only, and the account of governance is not
one of them, since it may receive funds: an admin who burns from it takes what
it holds.
-/

namespace Kiichain.TokenFactory
open GoExec FixedPoint

section Wiring

def govModuleName : String := "gov"

def maccPerms : List String :=
  ["fee_collector", "distribution", "interchainaccounts", "bonded_tokens_pool",
    "not_bonded_tokens_pool", govModuleName, "transfer", "wasm", "evm", "feemarket", "erc20",
    moduleName, "rewards", "oracle", "feeabstraction"]

def moduleAccountAddrs : List Account := maccPerms.map .module

/-- Module accounts that are allowed to receive funds are removed. -/
def blockedModuleAccountAddrs (modAccAddrs : List Account) : List Account :=
  modAccAddrs.filter (· ≠ .module govModuleName)

/-- The keeper on the app's table of module accounts. -/
def Keeper.wired (k : Keeper) : Keeper :=
  { k with
    permAddrs := maccPerms
    blockedAddr := fun addr => addr ∈ blockedModuleAccountAddrs moduleAccountAddrs }

/-- The registered module accounts, without the one that coins pass through. -/
def Protected (c : Account) : Prop := ∃ name ∈ maccPerms, name ≠ moduleName ∧ c = .module name

theorem eq_gov_of_not_blocked {k : Keeper} {c : Account} (hc : Protected c)
    (hblocked : k.wired.blockedAddr c = false) : c = .module govModuleName := by
  obtain ⟨name, hname, _, rfl⟩ := hc
  by_contra hne
  have hmem : Account.module name ∈ blockedModuleAccountAddrs moduleAccountAddrs := by
    apply List.mem_filter.mpr
    exact ⟨List.mem_map_of_mem hname, decide_eq_true hne⟩
  exact absurd (decide_eq_true hmem) (Bool.eq_false_iff.mp hblocked)

theorem gov_protected : Protected (.module govModuleName) :=
  ⟨govModuleName, by simp [maccPerms], by decide, rfl⟩

end Wiring

section Messages

/-- The messages that take coins from an account. -/
def Msg.takes : Msg → Bool
  | .burn _ | .forceTransfer _ => true
  | _ => false

/-- The message of an event, sent by its signer or by a contract. -/
def Event.message? (k : Keeper) : Event → Option Msg
  | .call (.msg msg) => some msg
  | .call (.contract contractAddr gasLeft msg) =>
    msg.variant?.bind (fun variant => variant.toMsg k contractAddr gasLeft)
  | _ => none

def MsgBurn.source (msg : MsgBurn) : String :=
  if msg.burnFromAddress = "" then msg.sender else msg.burnFromAddress

/-- The message passes every check for burning coins of the account. -/
structure BurnsFrom (k : Keeper) (s : State) (msg : MsgBurn) (c : Account) : Prop where
  sender : (k.accAddressFromBech32 msg.sender).isSome = true
  denom : validDenom msg.amount.denom = true
  positive : 0 < msg.amount.amount.val
  admin : msg.sender = admin s msg.amount.denom
  capability : msg.burnFromAddress = "" ∨ isCapabilityEnabled k.enabledCapabilities enableBurnFrom = true
  factory : Returns (deconstructDenom k msg.amount.denom)
  source : k.accAddressFromBech32 msg.source = some c
  unblocked : k.blockedAddr c = false
  spendable : msg.amount.amount.val.toNat ≤ s.bank.spendable c msg.amount.denom
  supply : msg.amount.amount.val.toNat ≤ s.bank.supply msg.amount.denom

variable {k : Keeper} {authority : String} {s t : State} {c : Account}

theorem validateBasic_burn_eq_ok {msg : MsgBurn} {u : Unit} : msg.validateBasic k = .ok u ↔
    (k.accAddressFromBech32 msg.sender).isSome = true ∧ validDenom msg.amount.denom = true ∧
      0 < msg.amount.amount.val ∧
      (msg.burnFromAddress = "" ∨ (k.accAddressFromBech32 msg.burnFromAddress).isSome = true) := by
  simp only [MsgBurn.validateBasic, validateSender, checkCoin, bind_eq_ok, ensure_eq_ok, exists_const]
  constructor
  · rintro ⟨hsender, ⟨hdenom, hnonneg⟩, hne, hfrom⟩
    exact ⟨hsender, hdenom, by omega, hfrom⟩
  · rintro ⟨hsender, hdenom, hpos, hfrom⟩
    exact ⟨hsender, ⟨hdenom, by omega⟩, by omega, hfrom⟩

theorem burn_eq_ok {msg : MsgBurn} : MsgServer.burn k s msg = .ok t ↔
    msg.sender = admin s msg.amount.denom ∧
      (msg.burnFromAddress = "" ∨ isCapabilityEnabled k.enabledCapabilities enableBurnFrom = true) ∧
      burnFrom k s msg.amount msg.source = .ok t := by
  simp only [MsgServer.burn, bind_eq_ok, checkAdmin_eq_ok, exists_const, MsgBurn.source]
  apply and_congr_right
  intro _
  by_cases hfrom : msg.burnFromAddress = ""
  · simp [hfrom]
  · simp only [hfrom, if_false, false_or, bind_eq_ok, MsgServer.checkCapability, ensure_eq_ok,
      exists_const]

/-- A burn from an account that its text stands for. -/
theorem returns_burnFrom_iff {amount : Coin} {address : String}
    (hc : k.accAddressFromBech32 address = some c) : Returns (burnFrom k s amount address) ↔
      Returns (deconstructDenom k amount.denom) ∧ k.blockedAddr c = false ∧
        validDenom amount.denom = true ∧ 0 ≤ amount.amount.val ∧
        amount.amount.val.toNat ≤ s.bank.spendable c amount.denom ∧
        amount.amount.val.toNat ≤ s.bank.supply amount.denom := by
  have hbank : Returns (sendCoins s.bank c (.module moduleName) [amount] >>= fun bank =>
      burnCoins bank (.module moduleName) [amount]) ↔
      amount.amount.val.toNat ≤ s.bank.spendable c amount.denom ∧
        amount.amount.val.toNat ≤ s.bank.supply amount.denom := by
    simp only [sendCoins_singleton, burnCoins_singleton, returns_bind]
    constructor
    · rintro ⟨bank, hsend, hburn⟩
      exact ⟨(Ledger.send_eq_ok.mp hsend).1, (Ledger.returns_burn_of_send hsend).mp hburn⟩
    · rintro ⟨hspendable, hsupply⟩
      obtain ⟨bank, hsend⟩ : Returns
          (s.bank.send c (.module moduleName) amount.denom amount.amount.val.toNat) :=
        ⟨_, Ledger.send_eq_ok.mpr ⟨hspendable, rfl⟩⟩
      exact ⟨bank, hsend, (Ledger.returns_burn_of_send hsend).mpr hsupply⟩
  rw [← hbank]
  simp only [burnFrom, hc, require, Returns, bind_eq_ok, ensure_eq_ok, newCoins_eq_ok, exists_const,
    pure_eq_ok, Except.ok.injEq]
  constructor
  · rintro ⟨t, parts, hparts, _, rfl, hblocked, ⟨hdenom, hnonneg⟩, sent, hsent, bank, hburn, rfl⟩
    exact ⟨⟨parts, hparts⟩, by simpa using hblocked, hdenom, hnonneg, bank, sent, hsent, hburn⟩
  · rintro ⟨⟨parts, hparts⟩, hblocked, hdenom, hnonneg, bank, sent, hsent, hburn⟩
    exact ⟨_, parts, hparts, c, rfl, by simpa using hblocked, ⟨hdenom, hnonneg⟩, sent, hsent, bank,
      hburn, rfl⟩

theorem returns_burn_iff {msg : MsgBurn} (hc : k.accAddressFromBech32 msg.source = some c) :
    Returns (deliver k s (.burn msg)) ↔ BurnsFrom k s msg c := by
  have hburn : Returns (deliver k s (.burn msg)) ↔ msg.validateBasic k = .ok () ∧
      msg.sender = admin s msg.amount.denom ∧
      (msg.burnFromAddress = "" ∨ isCapabilityEnabled k.enabledCapabilities enableBurnFrom = true) ∧
      Returns (burnFrom k s msg.amount msg.source) := by
    simp only [Returns, deliver_eq_ok, Msg.validateBasic, handle, burn_eq_ok, exists_and_left]
  rw [hburn, returns_burnFrom_iff hc, validateBasic_burn_eq_ok]
  constructor
  · rintro ⟨⟨hsender, hdenom, hpos, _⟩, hadmin, hcap, hfactory, hblocked, _, _, hspend, hsupply⟩
    exact ⟨hsender, hdenom, hpos, hadmin, hcap, hfactory, hc, hblocked, hspend, hsupply⟩
  · intro h
    have hfrom : msg.burnFromAddress = "" ∨
        (k.accAddressFromBech32 msg.burnFromAddress).isSome = true := by
      by_cases hempty : msg.burnFromAddress = ""
      · exact Or.inl hempty
      · have hsource := h.source
        rw [MsgBurn.source, if_neg hempty] at hsource
        exact Or.inr (by rw [hsource]; rfl)
    exact ⟨⟨h.sender, h.denom, h.positive, hfrom⟩, h.admin, h.capability, h.factory, h.unblocked,
      h.denom, h.positive.le, h.spendable, h.supply⟩

/-- A burn takes its amount from the account it burns from. -/
theorem burnFrom_takes {amount : Coin} {address : String}
    (h : burnFrom k s amount address = .ok t) (hc : k.accAddressFromBech32 address = some c)
    (hne : c ≠ .module moduleName) :
    t.bank.balance c amount.denom + amount.amount.val.toNat = s.bank.balance c amount.denom := by
  simp only [burnFrom, hc, require, bind_eq_ok, pure_eq_ok, Except.ok.injEq, sendCoins_singleton,
    burnCoins_singleton] at h
  obtain ⟨_, _, _, rfl, _, _, _, _, sent, hsent, bank, hburn, rfl⟩ := h
  have hmoved := Ledger.send_balance hsent c amount.denom
  have hburned := Ledger.burn_balance hburn c amount.denom
  simp only [hne, false_and, and_self, if_true, if_false] at hmoved hburned ⊢
  omega

/-- A forced transfer takes nothing from a module account of the keeper's table. -/
theorem forceTransfer_spares {msg : MsgForceTransfer} {name : String} (hname : name ∈ k.permAddrs)
    (h : deliver k s (.forceTransfer msg) = .ok t) (denom : String) :
    s.bank.balance (.module name) denom ≤ t.bank.balance (.module name) denom := by
  have hh := (deliver_eq_ok.mp h).2
  simp only [handle, MsgServer.forceTransfer, forceTransfer, bind_eq_ok, ensure_eq_ok, pure_eq_ok,
    Except.ok.injEq] at hh
  obtain ⟨_, _, _, _, _, _, a, _, _, hother, _, _, _, _, _, _, bank, hbank, rfl⟩ := hh
  rw [sendCoins_balance (hother name hname) hbank]
  exact Nat.le_add_right _ _

end Messages

section Runs

variable {k : Keeper} {authority : String} {s t : State}

/-- A burn or forced transfer lowers no balance of a protected account. -/
def Spares (k : Keeper) (authority : String) (s : State) (e : Event) : Prop :=
  ∀ msg, e.message? k = some msg → msg.takes = true → ∀ t, stepEvent k authority s e = .ok t →
    ∀ c, Protected c → ∀ denom, s.bank.balance c denom ≤ t.bank.balance c denom

/-- The event is no burn from the account of governance that passes its checks. -/
def LeavesGov (k : Keeper) (s : State) (e : Event) : Prop :=
  ∀ msg, e.message? k = some (.burn msg) → ¬ BurnsFrom k s msg (.module govModuleName)

/-- A contract's burn or forced transfer is the message it stands for. -/
theorem dispatchMsg_iff {contractAddr : Account} {gasLeft : ℕ} {pluginMsg : Plugin.Msg} {msg : Msg}
    (hmsg : (pluginMsg.variant?.bind (fun v => v.toMsg k contractAddr gasLeft)) = some msg)
    (htakes : msg.takes = true) :
    Plugin.dispatchMsg k s contractAddr gasLeft pluginMsg = .ok t ↔ deliver k s msg = .ok t := by
  obtain ⟨variant, hvariant, hmsg⟩ := Option.bind_eq_some_iff.mp hmsg
  simp only [Plugin.dispatchMsg, hvariant]
  cases variant with
  | createDenom m =>
      cases hm : m.metadata <;> simp only [Plugin.Variant.toMsg, hm] at hmsg <;> cases hmsg
      cases htakes
  | mintTokens m => cases hmsg
  | changeAdmin m =>
      cases hmsg
      cases htakes
  | burnTokens m =>
      cases hmsg
      exact perform_burnTokens_iff
  | setMetadata m =>
      obtain ⟨_, hmsg⟩ := Option.ite_none_right_eq_some.mp hmsg
      cases hmsg
      cases htakes
  | forceTransfer m =>
      cases hmsg
      exact perform_forceTransfer_iff

/-- An event with a burn or forced transfer delivers it, or changes nothing. -/
theorem stepEvent_eq_ok {e : Event} {msg : Msg} (hmsg : e.message? k = some msg)
    (htakes : msg.takes = true) : stepEvent k authority s e = .ok t ↔
      deliver k s msg = .ok t ∨ (¬ Returns (deliver k s msg) ∧ t = s) := by
  have hstep : ∀ {x : Exec State}, (∀ u, x = .ok u ↔ deliver k s msg = .ok u) →
      ((pure (rolledBack s x) : Exec State) = .ok t ↔
        deliver k s msg = .ok t ∨ (¬ Returns (deliver k s msg) ∧ t = s)) := by
    intro x hx
    simp only [← hx, Returns, pure_eq_ok]
    cases x with
    | ok u => simp [rolledBack, eq_comm]
    | error f => simp [rolledBack, eq_comm]
  cases e with
  | external bank denomMetaData => cases hmsg
  | call c =>
      cases c with
      | msg m =>
          cases hmsg
          exact hstep (fun _ => Iff.rfl)
      | updateParams m => cases hmsg
      | contract contractAddr gasLeft m => exact hstep (fun _ => dispatchMsg_iff hmsg htakes)

/-- A burn lowers a balance of a protected account exactly where it burns from governance. -/
theorem burn_spares {msg : MsgBurn} (hgov : ¬ BurnsFrom k.wired s msg (.module govModuleName))
    (h : deliver k.wired s (.burn msg) = .ok t) {c : Account} (hc : Protected c) (denom : String) :
    s.bank.balance c denom ≤ t.bank.balance c denom := by
  have hburn := (burn_eq_ok.mp (deliver_eq_ok.mp h).2).2.2
  by_cases hsource : k.wired.accAddressFromBech32 msg.source = some c
  · have hburns : BurnsFrom k.wired s msg c := (returns_burn_iff hsource).mp ⟨t, h⟩
    rw [eq_gov_of_not_blocked hc hburns.unblocked] at hburns
    exact absurd hburns hgov
  · exact (burnFrom_balance hburn hsource denom).ge

theorem burn_takes {msg : MsgBurn} (hgov : BurnsFrom k s msg (.module govModuleName)) :
    ∃ t, deliver k s (.burn msg) = .ok t ∧
      t.bank.balance (.module govModuleName) msg.amount.denom <
        s.bank.balance (.module govModuleName) msg.amount.denom := by
  obtain ⟨t, h⟩ := (returns_burn_iff hgov.source).mpr hgov
  have hburn := (burn_eq_ok.mp (deliver_eq_ok.mp h).2).2.2
  have htaken := burnFrom_takes hburn hgov.source (by decide)
  have hpos := hgov.positive
  exact ⟨t, h, by omega⟩

theorem spares_iff (s : State) (e : Event) :
    Spares k.wired authority s e ↔ LeavesGov k.wired s e := by
  constructor
  · intro hspares msg hmsg hgov
    obtain ⟨t, h, hlt⟩ := burn_takes hgov
    have hstep : stepEvent k.wired authority s e = .ok t := (stepEvent_eq_ok hmsg rfl).mpr (Or.inl h)
    exact absurd (hspares _ hmsg rfl t hstep _ gov_protected _) (Nat.not_le.mpr hlt)
  · intro hleaves msg hmsg htakes t hstep c hc denom
    obtain h | ⟨_, rfl⟩ := (stepEvent_eq_ok hmsg htakes).mp hstep
    · cases msg with
      | burn m => exact burn_spares (hleaves m hmsg) h hc denom
      | forceTransfer m =>
          obtain ⟨name, hname, _, rfl⟩ := hc
          exact forceTransfer_spares hname h denom
      | _ => cases htakes
    · exact le_rfl

/-- Along every run, from any state and with any capabilities, burns and forced
transfers spare the registered module accounts exactly where no burn from the
account of governance passes its checks. -/
theorem along_spares_iff (k : Keeper) (authority : String) (s : State) (es : List Event) :
    Runs.Along (stepEvent k.wired authority) (Spares k.wired authority) s es ↔
      Runs.Along (stepEvent k.wired authority) (LeavesGov k.wired) s es :=
  Runs.along_congr (fun _ _ _ _ _ => trivial) (fun s e _ => spares_iff s e) trivial es

end Runs

namespace GovGold
open RenouncedGold (bank five)

def keeper : Keeper :=
  { RenouncedGold.keeper with
    enabledCapabilities := [enableBurnFrom, enableCommunityPoolFeeFunding]
    accAddressFromBech32 := fun address =>
      if address = "" then none
      else if address = govModuleName then some (.module govModuleName)
      else some (.user address)
    empty_address := rfl }

/-- Alice creates gold and mints five of it to governance. -/
def minted : List Event :=
  [.call (.msg (.createDenom 2000000 ⟨"alice", "gold"⟩)),
    .call (.msg (.mint ⟨"alice", ⟨"factory/alice/gold", five⟩, govModuleName⟩))]

def burned : Event := .call (.msg (.burn ⟨"alice", ⟨"factory/alice/gold", 1⟩, govModuleName⟩))

def held (es : List Event) : Option ℕ :=
  (Runs.run (stepEvent keeper.wired govModuleName) (defaultGenesis ∅ bank) es).toOption.map
    (fun s => s.bank.balance (.module govModuleName) "factory/alice/gold")

theorem held_minted : held minted = some 5 := by decide

theorem held_burned : held (minted ++ [burned]) = some 4 := by decide

/-- The admin burns a coin that governance holds. -/
theorem gov_burned : ¬ ∀ (k : Keeper) (authority : String) (denomMetaData : SortedMap String Metadata)
    (bank : Ledger Account String) (es : List Event) (s : State) (e : Event),
    Runs.run (stepEvent k.wired authority) (defaultGenesis denomMetaData bank) es = .ok s →
      Spares k.wired authority s e := by
  intro h
  obtain ⟨s, hs, hminted⟩ := exists_of_toOption_map held_minted
  obtain ⟨t, ht, hburned⟩ := exists_of_toOption_map held_burned
  obtain ⟨s', hs', hstep⟩ := Runs.run_append_eq_ok.mp ht
  cases hs.symm.trans hs'
  obtain ⟨t', ht', hend⟩ := Runs.run_cons_eq_ok.mp hstep
  cases hend
  have hle := h keeper govModuleName ∅ bank minted s burned hs _ rfl rfl t ht' _ gov_protected
    "factory/alice/gold"
  omega

end GovGold

end Kiichain.TokenFactory
