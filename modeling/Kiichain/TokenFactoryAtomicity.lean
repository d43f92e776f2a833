import Kiichain.GoState
import Kiichain.TokenFactoryConfiscation

/-!
# The creation of a denomination, write by write

The message server is followed over a store that keeps every write, without the
rollback of the transaction around it. Each call of the bank or the distribution
module fails before it writes. After the fee is taken nothing can fail: the module
account holds what it has just received, and the creator has decoded before.
-/

namespace Kiichain.TokenFactory
open GoExec FixedPoint

section Bank

variable {l l' m : Ledger Account String} {a b : Account} {coins : List Coin}

/-- `IsValid` of a set of coins: in the order of their denominations, and positive. -/
def CoinsValid (coins : List Coin) : Prop :=
  coins.Pairwise (fun c d => c.denom < d.denom) ∧
    ∀ c ∈ coins, validDenom c.denom = true ∧ 0 < c.amount.val

instance (coins : List Coin) : Decidable (CoinsValid coins) :=
  inferInstanceAs (Decidable (_ ∧ _))

/-- No account holds more than there is, as the bank keeps it. -/
def Backed (l : Ledger Account String) : Prop := ∀ c denom, l.balance c denom ≤ l.supply denom

theorem CoinsValid.tail {x : Coin} (h : CoinsValid (x :: coins)) : CoinsValid coins :=
  ⟨h.1.of_cons, fun c hc => h.2 c (List.mem_cons_of_mem x hc)⟩

/-- What the payer of a valid set of coins held before. -/
theorem total_le_balance (hvalid : CoinsValid coins) (h : sendCoins l a b coins = .ok l')
    (denom : String) : total coins denom ≤ l.balance a denom := by
  induction coins generalizing l with
  | nil => exact Nat.zero_le _
  | cons x coins ih =>
      rw [sendCoins, List.foldlM_cons, bind_eq_ok] at h
      obtain ⟨m, hm, h⟩ := h
      have hfirst : x.amount.val.toNat ≤ l.balance a x.denom :=
        (Ledger.send_eq_ok.mp hm).1.trans (Nat.sub_le _ _)
      rw [total_cons]
      by_cases hd : x.denom = denom
      · have hrest : total coins denom = 0 := by
          apply total_eq_zero
          rintro c hc rfl
          exact absurd hd (List.rel_of_pairwise_cons hvalid.1 hc).ne
        rw [if_pos hd, hrest, Nat.add_zero, ← hd]
        exact hfirst
      · have hkept := Ledger.send_balance hm a denom
        simp only [Ne.symm hd, and_false, if_false, Nat.add_zero] at hkept
        rw [if_neg hd, Nat.zero_add, ← hkept]
        exact ih hvalid.tail h

/-- Coins that an account holds, of as large a supply, are burned. -/
theorem returns_burnCoins (hheld : ∀ denom, total coins denom ≤ l.balance a denom)
    (hsupply : ∀ denom, total coins denom ≤ l.supply denom) : Returns (burnCoins l a coins) := by
  induction coins generalizing l with
  | nil => exact ⟨l, rfl⟩
  | cons x coins ih =>
      have hfirst : x.amount.val.toNat ≤ total (x :: coins) x.denom := by
        rw [total_cons, if_pos rfl]
        exact Nat.le_add_right _ _
      obtain ⟨m, hm⟩ : Returns (l.burn a x.denom x.amount.val.toNat) :=
        ⟨_, Ledger.burn_eq_ok.mpr ⟨hfirst.trans (hheld _), hfirst.trans (hsupply _), rfl⟩⟩
      have hburned : burnCoins l a [x] = .ok m := by rw [burnCoins_singleton, hm]
      rw [burnCoins, List.foldlM_cons, hm, ok_bind]
      apply ih
      · intro denom
        have hbalance := burnCoins_balance (c := a) hburned denom
        have hle := hheld denom
        rw [total_singleton, if_pos rfl] at hbalance
        rw [total_cons] at hle
        omega
      · intro denom
        have hleft := burnCoins_supply hburned denom
        have hle := hsupply denom
        rw [total_singleton] at hleft
        rw [total_cons] at hle
        omega

/-- What the module account has just received of a valid fee it can burn. -/
theorem returns_burnCoins_of_sendCoins (hbacked : Backed l) (hvalid : CoinsValid coins)
    (h : sendCoins l a b coins = .ok m) : Returns (burnCoins m b coins) := by
  have hpaid := total_le_balance hvalid h
  apply returns_burnCoins
  · intro denom
    have hmoved := sendCoins_moves h b denom
    have hle := hpaid denom
    by_cases hb : b = a
    · simp only [hb, if_true] at hmoved ⊢
      omega
    · simp only [hb, if_true, if_false] at hmoved
      omega
  · intro denom
    rw [sendCoins_supply h]
    exact (hpaid denom).trans (hbacked a denom)

theorem graceful_sendCoins : Graceful (sendCoins l a b coins) := by
  apply graceful_foldlM
  intro l c
  apply graceful_ensure_bind
  intro _
  apply graceful_ensure_bind
  exact fun _ => graceful_ok _

end Bank

/-- The state of the module, and what the community pool of distribution holds. -/
structure World where
  state : State
  communityPool : String → ℚ

namespace World

def withBank (w : World) (bank : Ledger Account String) : World :=
  { w with state := { w.state with bank := bank } }

end World

namespace Stepwise
open Stateful

section Calls

variable (k : Keeper)

/-- A payment between accounts, which checks its coins first. -/
def bankSendCoins (l : Ledger Account String) (fromAddr toAddr : Account) (amt : List Coin) :
    Exec (Ledger Account String) := do
  ensure (CoinsValid amt) (.error "%s: invalid coins")
  sendCoins l fromAddr toAddr amt

def fundCommunityPool (amount : List Coin) (sender : Account) : Stateful World Unit :=
  atomically fun w => do
    let bank ← bankSendCoins w.state.bank sender (.module "distribution") amount
    pure { w.withBank bank with
      communityPool := fun denom => w.communityPool denom + total amount denom }

def sendCoinsFromAccountToModule (senderAddr : Account) (recipientModule : String)
    (amt : List Coin) : Stateful World Unit :=
  atomically fun w => do
    let bank ← bankSendCoins w.state.bank senderAddr (.module recipientModule) amt
    pure (w.withBank bank)

def burnCoins (moduleName : String) (amounts : List Coin) : Stateful World Unit :=
  atomically fun w => do
    ensure (CoinsValid amounts) (.error "%s: invalid coins")
    let bank ← TokenFactory.burnCoins w.state.bank (.module moduleName) amounts
    pure (w.withBank bank)

def setDenomMetaData (denomMetaData : Metadata) : Stateful World Unit :=
  writes fun w => { w with state := TokenFactory.setDenomMetaData w.state denomMetaData }

def setAuthorityMetadata (denom : String) (metadata : DenomAuthorityMetadata) :
    Stateful World Unit := do
  reads fun _ => validateAuthorityMetadata k metadata
  writes fun w => { w with state := { w.state with
    authorityMetadata := w.state.authorityMetadata.insert denom metadata } }

def addDenomFromCreator (creator denom : String) : Stateful World Unit :=
  writes fun w => { w with state := TokenFactory.addDenomFromCreator w.state creator denom }

/-- An empty fee reads back from the store as nil. -/
def chargeForCreateDenom (creatorAddr : String) : Stateful World Unit := do
  let params ← reads fun w => pure w.state.params
  if params.denomCreationFee = [] then pure ()
  else do
    let accAddr ← reads fun _ =>
      require (k.accAddressFromBech32 creatorAddr) (.error "decoding bech32 failed: %s")
    if isCapabilityEnabled k.enabledCapabilities enableCommunityPoolFeeFunding then
      fundCommunityPool params.denomCreationFee accAddr
    else do
      sendCoinsFromAccountToModule accAddr moduleName params.denomCreationFee
      burnCoins moduleName params.denomCreationFee

def createDenomAfterValidation (creatorAddr denom : String) : Stateful World Unit := do
  setDenomMetaData ⟨"", [⟨denom, 0, []⟩], denom, denom, denom, denom⟩
  setAuthorityMetadata k denom ⟨creatorAddr⟩
  addDenomFromCreator creatorAddr denom

def createDenom (creatorAddr subdenom : String) : Stateful World String := do
  let denom ← reads fun w => validateCreateDenom w.state creatorAddr subdenom
  chargeForCreateDenom k creatorAddr
  createDenomAfterValidation k creatorAddr denom
  pure denom

def msgServerCreateDenom (msg : MsgCreateDenom) : Stateful World String := do
  reads fun _ => MsgServer.validateCreateDenomMsg k msg
  createDenom k msg.sender msg.subdenom

end Calls

section Outcome

/-- The fee goes from the payer to the community pool. -/
structure PaidToPool (fee : String → ℕ) (payer : Account) (w w' : World) : Prop where
  balance : ∀ c denom, (w'.state.bank.balance c denom + if c = payer then fee denom else 0) =
    w.state.bank.balance c denom + if c = .module "distribution" then fee denom else 0
  supply : w'.state.bank.supply = w.state.bank.supply
  pool : ∀ denom, w'.communityPool denom = w.communityPool denom + fee denom

/-- The fee is taken from the payer and from the supply. -/
structure Burned (fee : String → ℕ) (payer : Account) (w w' : World) : Prop where
  balance : ∀ c denom, (w'.state.bank.balance c denom + if c = payer then fee denom else 0) =
    w.state.bank.balance c denom
  supply : ∀ denom, w'.state.bank.supply denom + fee denom = w.state.bank.supply denom
  pool : w'.communityPool = w.communityPool

/-- The fee is charged once, along the way that the capabilities say. -/
def Charged (k : Keeper) (fee : String → ℕ) (payer : Account) (w w' : World) : Prop :=
  if isCapabilityEnabled k.enabledCapabilities enableCommunityPoolFeeFunding then
    PaidToPool fee payer w w'
  else Burned fee payer w w'

/-- The creator is charged and recorded as the admin of a denomination without metadata. -/
structure Succeeds (k : Keeper) (msg : MsgCreateDenom) (w : World) (denom : String) (w' : World) :
    Prop where
  named : denom = tokenDenom msg.sender msg.subdenom
  fresh : w.state.denomMetaData.get? denom = none
  charged : ∃ payer, k.accAddressFromBech32 msg.sender = some payer ∧
    Charged k (total w.state.params.denomCreationFee) payer w w'
  admin : admin w'.state denom = msg.sender
  written : w'.state = { w.state with
    bank := w'.state.bank
    denomMetaData := w.state.denomMetaData.insert denom
      ⟨"", [⟨denom, 0, []⟩], denom, denom, denom, denom⟩
    authorityMetadata := w.state.authorityMetadata.insert denom ⟨msg.sender⟩
    creatorDenoms := insert (msg.sender, denom) w.state.creatorDenoms }

end Outcome

section Charge

variable {k : Keeper} {w w' : World} {creatorAddr : String} {payer : Account}

theorem charged_nil (k : Keeper) (payer : Account) (w : World) :
    Charged k (total []) payer w w := by
  unfold Charged
  split_ifs
  · exact ⟨by simp [total], rfl, by simp [total]⟩
  · exact ⟨by simp [total], by simp [total], rfl⟩

theorem bankSendCoins_eq_ok {l l' : Ledger Account String} {a b : Account} {amt : List Coin} :
    bankSendCoins l a b amt = .ok l' ↔ CoinsValid amt ∧ sendCoins l a b amt = .ok l' := by
  simp only [bankSendCoins, GoExec.bind_eq_ok, ensure_eq_ok, exists_const]

theorem graceful_bankSendCoins (l : Ledger Account String) (a b : Account) (amt : List Coin) :
    Graceful (bankSendCoins l a b amt) :=
  graceful_ensure_bind fun _ => graceful_sendCoins

theorem fundCommunityPool_eq_ok {amount : List Coin} {u : Unit} :
    fundCommunityPool amount payer w = .ok u w' ↔ CoinsValid amount ∧
      ∃ bank, sendCoins w.state.bank payer (.module "distribution") amount = .ok bank ∧
        w' = { w.withBank bank with
          communityPool := fun denom => w.communityPool denom + total amount denom } := by
  simp only [fundCommunityPool, atomically_eq_ok, GoExec.bind_eq_ok, bankSendCoins_eq_ok,
    GoExec.pure_eq_ok, Except.ok.injEq, and_assoc, exists_and_left, eq_comm (a := w')]

theorem sendCoinsFromAccountToModule_eq_ok {amt : List Coin} {name : String} {u : Unit} :
    sendCoinsFromAccountToModule payer name amt w = .ok u w' ↔ CoinsValid amt ∧
      ∃ bank, sendCoins w.state.bank payer (.module name) amt = .ok bank ∧ w' = w.withBank bank := by
  simp only [sendCoinsFromAccountToModule, atomically_eq_ok, GoExec.bind_eq_ok,
    bankSendCoins_eq_ok, GoExec.pure_eq_ok, Except.ok.injEq, and_assoc, exists_and_left,
    eq_comm (a := w')]

theorem burnCoins_eq_ok {amounts : List Coin} {name : String} {u : Unit} :
    burnCoins name amounts w = .ok u w' ↔ CoinsValid amounts ∧
      ∃ bank, TokenFactory.burnCoins w.state.bank (.module name) amounts = .ok bank ∧
        w' = w.withBank bank := by
  simp only [burnCoins, atomically_eq_ok, GoExec.bind_eq_ok, ensure_eq_ok, exists_and_left,
    exists_const, GoExec.pure_eq_ok, Except.ok.injEq, eq_comm (a := w')]

/-- The two ways of the charge, and the one of an empty fee. -/
theorem chargeForCreateDenom_eq_ok {u : Unit}
    (hpayer : k.accAddressFromBech32 creatorAddr = some payer) :
    chargeForCreateDenom k creatorAddr w = .ok u w' ↔
      if w.state.params.denomCreationFee = [] then w = w'
      else if isCapabilityEnabled k.enabledCapabilities enableCommunityPoolFeeFunding then
        fundCommunityPool w.state.params.denomCreationFee payer w = .ok () w'
      else ∃ sent,
        sendCoinsFromAccountToModule payer moduleName w.state.params.denomCreationFee w = .ok () sent ∧
          burnCoins moduleName w.state.params.denomCreationFee sent = .ok () w' := by
  simp only [chargeForCreateDenom, Stateful.bind_eq_ok, reads_eq_ok, GoExec.pure_eq_ok,
    Except.ok.injEq, and_assoc, exists_eq_left', exists_and_left]
  by_cases hfee : w.state.params.denomCreationFee = []
  · simp [hfee]
  · simp only [if_neg hfee, Stateful.bind_eq_ok, reads_eq_ok, hpayer, require, Except.ok.injEq,
      and_assoc, exists_eq_left', exists_and_left]
    split_ifs
    · exact Iff.rfl
    · simp only [Stateful.bind_eq_ok]
      exact Unique.exists_iff

theorem burned_of_calls {fee : List Coin} {sent : World} {u v : Unit}
    (hsend : sendCoinsFromAccountToModule payer moduleName fee w = .ok u sent)
    (hburn : burnCoins moduleName fee sent = .ok v w') :
    Burned (total fee) payer w w' ∧ w' = w.withBank w'.state.bank := by
  obtain ⟨_, bank, hsent, rfl⟩ := sendCoinsFromAccountToModule_eq_ok.mp hsend
  obtain ⟨_, bank', hburned, rfl⟩ := burnCoins_eq_ok.mp hburn
  refine ⟨⟨fun c denom => ?_, fun denom => ?_, rfl⟩, rfl⟩
  · have hmoved := sendCoins_moves hsent c denom
    have hgone := burnCoins_balance (c := c) hburned denom
    simp only [World.withBank] at hgone ⊢
    omega
  · change bank'.supply denom + _ = _
    rw [burnCoins_supply hburned]
    exact congrFun (sendCoins_supply hsent) denom

/-- What the charge changes: the bank and the pool, and these by the fee. -/
theorem chargeForCreateDenom_effect {u : Unit}
    (hpayer : k.accAddressFromBech32 creatorAddr = some payer)
    (h : chargeForCreateDenom k creatorAddr w = .ok u w') :
    Charged k (total w.state.params.denomCreationFee) payer w w' ∧
      w' = { w.withBank w'.state.bank with communityPool := w'.communityPool } := by
  rw [chargeForCreateDenom_eq_ok hpayer] at h
  by_cases hfee : w.state.params.denomCreationFee = []
  · rw [if_pos hfee] at h
    subst h
    rw [hfee]
    exact ⟨charged_nil k payer w, rfl⟩
  · rw [if_neg hfee] at h
    unfold Charged
    split_ifs at h ⊢
    · obtain ⟨_, bank, hsend, rfl⟩ := fundCommunityPool_eq_ok.mp h
      exact ⟨⟨sendCoins_moves hsend, sendCoins_supply hsend, fun _ => rfl⟩, rfl⟩
    · obtain ⟨sent, hsend, hburn⟩ := h
      obtain ⟨hburned, hw⟩ := burned_of_calls hsend hburn
      refine ⟨hburned, ?_⟩
      rw [hw]
      rfl

/-- The burn after the payment does not fail. -/
theorem lands_burnCoins {fee : List Coin} {sent : World} {u : Unit} (hbacked : Backed w.state.bank)
    (h : sendCoinsFromAccountToModule payer moduleName fee w = .ok u sent) :
    Lands (burnCoins moduleName fee) sent := by
  obtain ⟨hvalid, bank, hsend, rfl⟩ := sendCoinsFromAccountToModule_eq_ok.mp h
  obtain ⟨bank', hburn⟩ := returns_burnCoins_of_sendCoins hbacked hvalid hsend
  exact ⟨(), _, burnCoins_eq_ok.mpr ⟨hvalid, bank', hburn, rfl⟩⟩

theorem atomic_chargeForCreateDenom (hbacked : Backed w.state.bank) (creatorAddr : String) :
    Atomic (chargeForCreateDenom k creatorAddr) w := by
  apply atomic_reads_bind
  · exact graceful_ok _
  rintro _ ⟨⟩
  by_cases hfee : w.state.params.denomCreationFee = []
  · rw [if_pos hfee]
    exact (lands_pure _ _).atomic
  · rw [if_neg hfee]
    apply atomic_reads_bind
    · exact graceful_require _ _
    intro payer _
    split_ifs
    · apply atomic_atomically
      exact graceful_bind (graceful_bankSendCoins _ _ _ _) fun _ _ => graceful_ok _
    · apply Atomic.bind
      · apply atomic_atomically
        exact graceful_bind (graceful_bankSendCoins _ _ _ _) fun _ _ => graceful_ok _
      · exact fun _ _ h => Or.inl (lands_burnCoins hbacked h)

end Charge

section Creation

variable {k : Keeper} {w w' : World} {msg : MsgCreateDenom}

theorem validateAuthorityMetadata_eq_ok {admin : String}
    (h : (k.accAddressFromBech32 admin).isSome = true) :
    validateAuthorityMetadata k ⟨admin⟩ = .ok () := by
  unfold validateAuthorityMetadata
  split_ifs
  · rfl
  · exact ensure_of h

theorem lands_createDenomAfterValidation {creatorAddr : String} (denom : String)
    (h : (k.accAddressFromBech32 creatorAddr).isSome = true) (w : World) :
    Lands (createDenomAfterValidation k creatorAddr denom) w := by
  apply (lands_writes _ _).bind
  intro _ _ _
  apply Lands.bind
  · apply Lands.bind
    · exact lands_reads ⟨(), validateAuthorityMetadata_eq_ok h⟩
    · exact fun _ t _ => lands_writes _ t
  · exact fun _ t _ => lands_writes _ t

theorem graceful_getTokenDenom (creator subdenom : String) :
    Graceful (getTokenDenom creator subdenom) := by
  apply graceful_ensure_bind
  intro _
  apply graceful_ensure_bind
  intro _
  apply graceful_ensure_bind
  intro _
  apply graceful_ensure_bind
  exact fun _ => graceful_ok _

theorem graceful_validateCreateDenomMsg (msg : MsgCreateDenom) :
    Graceful (MsgServer.validateCreateDenomMsg k msg) := by
  apply graceful_ensure_bind
  intro _
  split
  · exact graceful_ok _
  · exact graceful_fail _

theorem graceful_validateCreateDenom (s : State) (creatorAddr subdenom : String) :
    Graceful (validateCreateDenom s creatorAddr subdenom) := by
  apply graceful_bind (graceful_getTokenDenom _ _)
  intro _ _
  apply graceful_ensure_bind
  exact fun _ => graceful_ok _

theorem atomic_createDenom (hbacked : Backed w.state.bank) {creatorAddr : String}
    (hcreator : (k.accAddressFromBech32 creatorAddr).isSome = true) (subdenom : String) :
    Atomic (createDenom k creatorAddr subdenom) w := by
  apply atomic_reads_bind
  · exact graceful_validateCreateDenom _ _ _
  intro denom _
  apply (atomic_chargeForCreateDenom hbacked creatorAddr).bind
  intro _ t _
  apply Or.inl
  apply (lands_createDenomAfterValidation denom hcreator t).bind
  exact fun _ u _ => lands_pure _ u

theorem isSome_of_validateCreateDenomMsg {u : Unit}
    (h : MsgServer.validateCreateDenomMsg k msg = .ok u) :
    (k.accAddressFromBech32 msg.sender).isSome = true := by
  obtain ⟨_, hsender, _⟩ := GoExec.bind_eq_ok.mp h
  exact ensure_eq_ok.mp hsender

theorem atomic_msgServerCreateDenom (hbacked : Backed w.state.bank) (msg : MsgCreateDenom) :
    Atomic (msgServerCreateDenom k msg) w := by
  apply atomic_reads_bind
  · exact graceful_validateCreateDenomMsg msg
  intro _ h
  exact atomic_createDenom hbacked (isSome_of_validateCreateDenomMsg h) msg.subdenom

theorem createDenomAfterValidation_effect {creatorAddr denom : String} {u : Unit}
    (h : createDenomAfterValidation k creatorAddr denom w = .ok u w') :
    w' = { w with state := { w.state with
      denomMetaData := w.state.denomMetaData.insert denom
        ⟨"", [⟨denom, 0, []⟩], denom, denom, denom, denom⟩
      authorityMetadata := w.state.authorityMetadata.insert denom ⟨creatorAddr⟩
      creatorDenoms := insert (creatorAddr, denom) w.state.creatorDenoms } } := by
  simp only [createDenomAfterValidation, setDenomMetaData, setAuthorityMetadata, addDenomFromCreator,
    Stateful.bind_eq_ok, writes_eq_ok, reads_eq_ok] at h
  obtain ⟨_, _, rfl, _, _, ⟨_, _, ⟨_, rfl⟩, rfl⟩, rfl⟩ := h
  rfl

theorem succeeds_of_msgServerCreateDenom {denom : String}
    (h : msgServerCreateDenom k msg w = .ok denom w') : Succeeds k msg w denom w' := by
  simp only [msgServerCreateDenom, createDenom, Stateful.bind_eq_ok, reads_eq_ok,
    Stateful.pure_eq_ok] at h
  obtain ⟨_, _, ⟨hbasic, rfl⟩, _, _, ⟨hvalidate, rfl⟩, _, paid, hcharge, _, _, hwrites, rfl, rfl⟩ := h
  obtain ⟨payer, hpayer⟩ := Option.isSome_iff_exists.mp (isSome_of_validateCreateDenomMsg hbasic)
  obtain ⟨hcharged, hpaid⟩ := chargeForCreateDenom_effect hpayer hcharge
  have hw := createDenomAfterValidation_effect hwrites
  simp only [validateCreateDenom, GoExec.bind_eq_ok, ensure_eq_ok, exists_const,
    GoExec.pure_eq_ok, Except.ok.injEq] at hvalidate
  obtain ⟨_, hdenom, hfresh, rfl⟩ := hvalidate
  subst hw
  refine ⟨getTokenDenom_eq_ok hdenom, hfresh, ⟨payer, hpayer, ?_⟩, ?_, ?_⟩
  · unfold Charged at hcharged ⊢
    split_ifs at hcharged ⊢
    · exact ⟨hcharged.balance, hcharged.supply, hcharged.pool⟩
    · exact ⟨hcharged.balance, hcharged.supply, hcharged.pool⟩
  · simp [admin, getAuthorityMetadata]
  · rw [hpaid]
    rfl

/-- From any state of a backed bank, with any parameters and capabilities, the message
server fails with an error and no trace, or charges the creator once and records the
creator as the admin. -/
theorem createDenom_atomic (k : Keeper) (msg : MsgCreateDenom) (w : World)
    (hbacked : Backed w.state.bank) :
    (∃ text, msgServerCreateDenom k msg w = .error (.error text) w) ∨
      ∃ denom w', msgServerCreateDenom k msg w = .ok denom w' ∧ Succeeds k msg w denom w' := by
  cases h : msgServerCreateDenom k msg w with
  | ok denom w' => exact Or.inr ⟨denom, w', rfl, succeeds_of_msgServerCreateDenom h⟩
  | error f w' =>
      obtain ⟨rfl, text, rfl⟩ := atomic_msgServerCreateDenom hbacked msg f w' h
      exact Or.inl ⟨text, rfl⟩

end Creation

section Refinement

variable {k : Keeper} {w : World} {t : State} {msg : MsgCreateDenom}

/-- The charge takes what the charge with rollback takes. -/
theorem payCreationFee_iff {creatorAddr : String} {payer : Account} {bank : Ledger Account String}
    (hfee : CoinsValid w.state.params.denomCreationFee)
    (hpayer : k.accAddressFromBech32 creatorAddr = some payer) :
    payCreationFee k w.state payer = .ok bank ↔
      ∃ w', chargeForCreateDenom k creatorAddr w = .ok () w' ∧ w'.state.bank = bank := by
  simp only [chargeForCreateDenom_eq_ok hpayer]
  unfold payCreationFee
  by_cases hempty : w.state.params.denomCreationFee = []
  · simp only [hempty, if_true, exists_eq_left']
    split_ifs
    · exact Iff.of_eq (Except.ok.injEq _ _)
    · exact Iff.of_eq (Except.ok.injEq _ _)
  · simp only [if_neg hempty]
    split_ifs
    · simp only [fundCommunityPool_eq_ok]
      constructor
      · intro h
        exact ⟨_, ⟨hfee, bank, h, rfl⟩, rfl⟩
      · rintro ⟨_, ⟨_, sent, h, rfl⟩, rfl⟩
        exact h
    · simp only [sendCoinsFromAccountToModule_eq_ok, burnCoins_eq_ok, GoExec.bind_eq_ok]
      constructor
      · rintro ⟨sent, hsend, hburn⟩
        exact ⟨_, ⟨_, ⟨hfee, sent, hsend, rfl⟩, hfee, bank, hburn, rfl⟩, rfl⟩
      · rintro ⟨_, ⟨_, ⟨_, sent, hsend, rfl⟩, _, left, hburn, rfl⟩, rfl⟩
        exact ⟨sent, hsend, hburn⟩

theorem chargeForCreateDenom_refines {creatorAddr : String} {gasLeft : ℕ}
    (hfee : CoinsValid w.state.params.denomCreationFee)
    (hgas : w.state.params.denomCreationGasConsume ≤ gasLeft)
    (hcreator : (k.accAddressFromBech32 creatorAddr).isSome = true) :
    Refines World.state (chargeForCreateDenom k creatorAddr)
      (fun s => TokenFactory.chargeForCreateDenom k s gasLeft creatorAddr) w := by
  intro t
  obtain ⟨payer, hpayer⟩ := Option.isSome_iff_exists.mp hcreator
  simp only [TokenFactory.chargeForCreateDenom, hpayer, require, ok_bind, GoExec.bind_eq_ok,
    ensure_of hgas, payCreationFee_iff hfee hpayer, GoExec.pure_eq_ok, Except.ok.injEq]
  constructor
  · rintro ⟨_, ⟨w', h, rfl⟩, rfl⟩
    refine ⟨w', h, ?_⟩
    rw [(chargeForCreateDenom_effect hpayer h).2]
    rfl
  · rintro ⟨w', h, rfl⟩
    refine ⟨_, ⟨w', h, rfl⟩, ?_⟩
    rw [(chargeForCreateDenom_effect hpayer h).2]
    rfl

theorem createDenomAfterValidation_refines {creatorAddr : String} (denom : String)
    (hcreator : (k.accAddressFromBech32 creatorAddr).isSome = true) (w : World) :
    Refines World.state (createDenomAfterValidation k creatorAddr denom)
      (fun s => TokenFactory.createDenomAfterValidation k s creatorAddr denom) w := by
  intro t
  obtain ⟨u, w', h⟩ := lands_createDenomAfterValidation denom hcreator w
  have hw := createDenomAfterValidation_effect h
  simp only [h, EStateM.Result.ok.injEq, true_and, exists_eq_left',
    TokenFactory.createDenomAfterValidation, TokenFactory.setAuthorityMetadata,
    validateAuthorityMetadata_eq_ok hcreator, ok_bind, GoExec.pure_eq_ok, Except.ok.injEq, hw]
  exact Iff.rfl

/-- Where the parameters hold a valid fee and the gas is enough, the creation write by
write returns what the creation with rollback returns. -/
theorem createDenom_iff_stepwise {gasLeft : ℕ} {denom : String}
    (hfee : CoinsValid w.state.params.denomCreationFee)
    (hgas : w.state.params.denomCreationGasConsume ≤ gasLeft) :
    MsgServer.createDenom k w.state gasLeft msg = .ok (t, denom) ↔
      ∃ w', msgServerCreateDenom k msg w = .ok denom w' ∧ w'.state = t := by
  have hwrites : ∀ u, MsgServer.validateCreateDenomMsg k msg = .ok u →
      Refines World.state
        (chargeForCreateDenom k msg.sender >>= fun _ => createDenomAfterValidation k msg.sender denom)
        (fun s => TokenFactory.chargeForCreateDenom k s gasLeft msg.sender >>= fun s' =>
          TokenFactory.createDenomAfterValidation k s' msg.sender denom) w := by
    intro u hbasic
    have hcreator := isSome_of_validateCreateDenomMsg hbasic
    apply (chargeForCreateDenom_refines hfee hgas hcreator).bind
    exact fun w' _ => createDenomAfterValidation_refines denom hcreator w'
  simp only [MsgServer.createDenom, msgServerCreateDenom, createDenom, GoExec.bind_eq_ok,
    Stateful.bind_eq_ok, reads_eq_ok, Stateful.pure_eq_ok, GoExec.pure_eq_ok, Except.ok.injEq,
    Prod.mk.injEq]
  constructor
  · rintro ⟨u, hbasic, _, hvalidate, s, hcharge, _, hafter, rfl, rfl⟩
    obtain ⟨w', h, rfl⟩ := (hwrites u hbasic _).mp (GoExec.bind_eq_ok.mpr ⟨s, hcharge, hafter⟩)
    obtain ⟨_, paid, hpaid, hrest⟩ := Stateful.bind_eq_ok.mp h
    exact ⟨w', ⟨u, w, ⟨hbasic, rfl⟩, _, w, ⟨hvalidate, rfl⟩, (), paid, hpaid, (), w', hrest, rfl, rfl⟩,
      rfl⟩
  · rintro ⟨w', ⟨u, _, ⟨hbasic, rfl⟩, _, _, ⟨hvalidate, rfl⟩, _, paid, hpaid, _, _, hrest, rfl, rfl⟩, rfl⟩
    have h := (hwrites u hbasic _).mpr ⟨_, Stateful.bind_eq_ok.mpr ⟨_, paid, hpaid, hrest⟩, rfl⟩
    obtain ⟨s, hcharge, hafter⟩ := GoExec.bind_eq_ok.mp h
    exact ⟨u, hbasic, _, hvalidate, s, hcharge, _, hafter, rfl, rfl⟩

end Refinement

end Stepwise

namespace BurnedFee
open Stepwise

/-- The fee is burned where no capability is enabled. -/
def keeper : Keeper := { RenouncedGold.keeper with enabledCapabilities := [] }

def world : World := ⟨defaultGenesis ∅ RenouncedGold.bank, fun _ => 0⟩

def gold : MsgCreateDenom := ⟨"alice", "gold"⟩

theorem world_backed : Backed world.state.bank := by
  intro c denom
  change (if c = .user "alice" ∧ denom = "akii" then 10000000 else 0) ≤
    if denom = "akii" then 10000000 else 0
  split_ifs with hc hd
  · exact le_rfl
  · exact absurd hc.2 hd
  · exact Nat.zero_le _
  · exact le_rfl

/-- Alice creates gold and is charged what she has. -/
theorem gold_created : ∃ denom w', msgServerCreateDenom keeper gold world = .ok denom w' ∧
    Succeeds keeper gold world denom w' := by
  obtain ⟨text, h⟩ | h := createDenom_atomic keeper gold world world_backed
  · have hlands : (match msgServerCreateDenom keeper gold world with
      | .ok _ _ => true
      | .error _ _ => false) = true := by decide
    rw [h] at hlands
    cases hlands
  · exact h

end BurnedFee

end Kiichain.TokenFactory
