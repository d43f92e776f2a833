import Kiichain.TokenFactoryPlugin

/-!
# The mint of a contract

A contract mints to itself and sends the coins on. When the recipient is blocked
the second step is left out and the error that is to say so is nil, so that the
contract keeps the coins of a mint that has succeeded.
-/

namespace Kiichain.TokenFactory
open GoExec FixedPoint

section Mint

variable (k : Keeper) (s : State) (contractAddr : Account) (mint : Plugin.MintTokens)

/-- The recipient has the amount, and another account than it has given nothing. -/
structure PaidInFull (t : State) (rcpt : Account) : Prop where
  paid : (t.bank.balance rcpt mint.denom : ℤ) = s.bank.balance rcpt mint.denom + mint.amount.val
  kept : rcpt ≠ contractAddr →
    t.bank.balance contractAddr mint.denom = s.bank.balance contractAddr mint.denom

/-- A mint that returns no error has paid its recipient in full. -/
def AllOrReported : Prop :=
  ∀ t, Plugin.performMint k s contractAddr mint = .ok t →
    ∃ rcpt, k.accAddressFromBech32 mint.mintToAddress = some rcpt ∧
      PaidInFull s contractAddr mint t rcpt

/-- What the first step asks for: the contract administers the factory
denomination, and the supply has room for the positive amount. -/
structure Mintable : Prop where
  known : (s.denomMetaData.get? mint.denom).isSome = true
  administers : k.addressString contractAddr = admin s mint.denom
  factory : Returns (deconstructDenom k mint.denom)
  positive : 0 < mint.amount.val
  room : s.bank.supply mint.denom + mint.amount.val.toNat < 2 ^ 256
  unblocked : k.blockedAddr contractAddr = false

/-- The recipient may receive no coins. -/
def BlockedRecipient : Prop :=
  ∃ rcpt, k.accAddressFromBech32 mint.mintToAddress = some rcpt ∧ k.blockedAddr rcpt = true

end Mint

section Steps

variable {k : Keeper} {s t u : State} {contractAddr : Account} {mint : Plugin.MintTokens}

/-- The first step, in full: it credits the contract. -/
theorem mint_toMsg_eq_ok
    (hcanonical : k.accAddressFromBech32 (k.addressString contractAddr) = some contractAddr) :
    deliver k s (.mint (mint.toMsg k contractAddr)) = .ok u ↔
      Mintable k s contractAddr mint ∧ ∃ bank,
        (s.bank.mint (.module moduleName) mint.denom mint.amount.val.toNat).transfer
          (.module moduleName) contractAddr mint.denom mint.amount.val.toNat = .ok bank ∧
        u = { s with bank := bank } := by
  have hvalid : Returns (deconstructDenom k mint.denom) → validDenom mint.denom = true := by
    rintro ⟨parts, hparts⟩
    exact ensure_eq_ok.mp (bind_eq_ok.mp hparts).choose_spec.1
  simp only [deliver_eq_ok, Msg.validateBasic, MsgMint.validateBasic, Plugin.MintTokens.toMsg,
    validateSender, checkCoin, handle, MsgServer.mint, mintTo, bind_eq_ok, ensure_eq_ok,
    checkAdmin_eq_ok, newCoins_eq_ok, mintCoins_eq_ok, require_eq_ok, exists_const, hcanonical,
    if_true, Option.some.injEq, pure_eq_ok, Except.ok.injEq]
  constructor
  · rintro ⟨⟨_, _, ⟨_, hnonneg⟩, hne⟩, hknown, hadmin, parts, hparts, _, _, ⟨hroom, rfl⟩, _, rfl,
      hunblocked, bank, hbank, rfl⟩
    exact ⟨⟨hknown, hadmin, ⟨parts, hparts⟩, lt_of_le_of_ne hnonneg (Ne.symm hne), hroom,
      by simpa using hunblocked⟩, bank, hbank, rfl⟩
  · rintro ⟨⟨hknown, hadmin, ⟨parts, hparts⟩, hpos, hroom, hunblocked⟩, bank, hbank, rfl⟩
    have hdenom := hvalid ⟨parts, hparts⟩
    exact ⟨⟨rfl, Or.inl trivial, ⟨hdenom, hpos.le⟩, hpos.ne'⟩, hknown, hadmin, parts, hparts,
      ⟨hdenom, hpos.le⟩, _, ⟨hroom, rfl⟩, _, rfl, by simp [hunblocked], bank, hbank, rfl⟩

variable (hcanonical : k.accAddressFromBech32 (k.addressString contractAddr) = some contractAddr)
include hcanonical

/-- A mint that can be made is made: of a module's fresh coins the transfer never fails. -/
theorem returns_mint (h : Mintable k s contractAddr mint) :
    Returns (deliver k s (.mint (mint.toMsg k contractAddr))) := by
  have hfresh : mint.amount.val.toNat ≤ (s.bank.mint (.module moduleName) mint.denom
      mint.amount.val.toNat).balance (.module moduleName) mint.denom := by
    rw [Ledger.mint_balance, if_pos ⟨rfl, rfl⟩]
    exact Nat.le_add_left _ _
  exact ⟨_, (mint_toMsg_eq_ok hcanonical).mpr
    ⟨h, _, Ledger.transfer_eq_ok.mpr ⟨hfresh, rfl⟩, rfl⟩⟩

/-- The first step credits the contract and no other account. -/
theorem mint_balance (h : deliver k s (.mint (mint.toMsg k contractAddr)) = .ok u)
    (a : Account) (e : String) : u.bank.balance a e = s.bank.balance a e +
      if a = contractAddr ∧ e = mint.denom then mint.amount.val.toNat else 0 := by
  obtain ⟨_, bank, hbank, rfl⟩ := (mint_toMsg_eq_ok hcanonical).mp h
  have hmoved := Ledger.transfer_balance hbank a e
  rw [Ledger.mint_balance] at hmoved
  dsimp only
  omega

theorem paidInFull_of_sent {rcpt : Account} {bank : Ledger Account String}
    (hmint : deliver k s (.mint (mint.toMsg k contractAddr)) = .ok u)
    (hsend : sendCoins u.bank contractAddr rcpt [⟨mint.denom, mint.amount⟩] = .ok bank) :
    PaidInFull s contractAddr mint { u with bank := bank } rcpt := by
  have hpos := ((mint_toMsg_eq_ok hcanonical).mp hmint).1.positive
  have hsent : u.bank.send contractAddr rcpt mint.denom mint.amount.val.toNat = .ok bank := by
    obtain ⟨_, hsent, hnil⟩ := bind_eq_ok.mp hsend
    cases hnil
    exact hsent
  have hmoved := fun a => Ledger.send_balance hsent a mint.denom
  simp only [mint_balance hcanonical hmint, and_true] at hmoved
  constructor
  · have hrcpt := hmoved rcpt
    rw [if_pos rfl] at hrcpt
    dsimp only
    omega
  · intro hne
    have hcontract := hmoved contractAddr
    rw [if_pos rfl, if_neg (Ne.symm hne)] at hcontract
    dsimp only
    omega

/-- With a blocked recipient the contract has the coins. -/
theorem not_paidInFull_of_blocked {rcpt : Account}
    (hmint : deliver k s (.mint (mint.toMsg k contractAddr)) = .ok u)
    (hblocked : k.blockedAddr rcpt = true) : ¬ PaidInFull s contractAddr mint u rcpt := by
  have hmintable := ((mint_toMsg_eq_ok hcanonical).mp hmint).1
  have hne : rcpt ≠ contractAddr := by
    rintro rfl
    rw [hmintable.unblocked] at hblocked
    cases hblocked
  intro h
  have hpaid := h.paid
  rw [mint_balance hcanonical hmint, if_neg fun heq => hne heq.1] at hpaid
  have hpos := hmintable.positive
  omega

/-- A mint is all or reported exactly where it is refused or goes to a recipient
that is not blocked. -/
theorem allOrReported_iff : AllOrReported k s contractAddr mint ↔
    ¬ (Mintable k s contractAddr mint ∧ BlockedRecipient k mint) := by
  constructor
  · rintro h ⟨hmintable, rcpt, hrcpt, hblocked⟩
    obtain ⟨u, hmint⟩ := returns_mint hcanonical hmintable
    obtain ⟨rcpt', hrcpt', hpaid⟩ :=
      h u (performMint_eq_ok.mpr ⟨rcpt, u, hrcpt, hmint, Or.inl ⟨hblocked, rfl⟩⟩)
    rw [hrcpt] at hrcpt'
    cases hrcpt'
    exact not_paidInFull_of_blocked hcanonical hmint hblocked hpaid
  · intro h t ht
    obtain ⟨rcpt, u, hrcpt, hmint, ⟨hblocked, rfl⟩ | ⟨_, _, bank, hbank, rfl⟩⟩ :=
      performMint_eq_ok.mp ht
    · exact absurd ⟨((mint_toMsg_eq_ok hcanonical).mp hmint).1, rcpt, hrcpt, hblocked⟩ h
    · exact ⟨rcpt, hrcpt, paidInFull_of_sent hcanonical hmint hbank⟩

end Steps

namespace MintToPool

/-- The community pool's account may not receive coins. -/
def keeper : Keeper :=
  { RenouncedGold.keeper with blockedAddr := fun a => decide (a = .user "pool") }

def contract : Account := .user "alice"

def gold : String := "factory/alice/gold"

def create : Plugin.Msg := ⟨some ⟨"gold", none⟩, none, none, none, none, none⟩

/-- The contract has created its denomination. -/
def created : Exec State :=
  Plugin.dispatchMsg keeper (defaultGenesis ∅ RenouncedGold.bank) contract 2000000 create

def mintTo (address : String) : Plugin.MintTokens := ⟨gold, RenouncedGold.five, address⟩

/-- The balances of the recipient and of the contract. -/
def balances (t : State) : ℕ × ℕ :=
  (t.bank.balance (.user "pool") gold, t.bank.balance contract gold)

def minted : Exec (State × State) := do
  let s ← created
  let t ← Plugin.performMint keeper s contract (mintTo "pool")
  pure (s, t)

theorem minted_balances : minted.toOption.map (fun r => (balances r.1, balances r.2)) =
    some ((0, 0), (0, 5)) := by decide

/-- The mint reports success, and the contract has the coins. -/
theorem success_unpaid : ∃ s, created = .ok s ∧
    ¬ AllOrReported keeper s contract (mintTo "pool") := by
  obtain ⟨⟨s, t⟩, hrun, hview⟩ := exists_of_toOption_map minted_balances
  simp only [minted, bind_eq_ok, pure_eq_ok, Except.ok.injEq, Prod.mk.injEq] at hrun
  obtain ⟨_, hs, _, ht, rfl, rfl⟩ := hrun
  refine ⟨_, hs, fun h => ?_⟩
  obtain ⟨rcpt, hrcpt, hpaid⟩ := h _ ht
  obtain rfl : rcpt = .user "pool" := (Option.some.inj hrcpt).symm
  simp only [balances, Prod.mk.injEq] at hview
  obtain ⟨⟨hbefore, _⟩, hafter, _⟩ := hview
  have hfive := hpaid.paid
  change (_ : ℤ) = (_ : ℕ) + 5 at hfive
  rw [show (mintTo "pool").denom = gold from rfl, hbefore, hafter] at hfive
  omega

/-- A mint to another account is all or reported. -/
theorem others_paid : ∃ s, created = .ok s ∧ AllOrReported keeper s contract (mintTo "bob") := by
  obtain ⟨⟨s, _⟩, hrun, _⟩ := exists_of_toOption_map minted_balances
  obtain ⟨_, hs, _⟩ := bind_eq_ok.mp hrun
  refine ⟨_, hs, (allOrReported_iff rfl).mpr ?_⟩
  rintro ⟨_, rcpt, hrcpt, hblocked⟩
  obtain rfl : rcpt = .user "bob" := (Option.some.inj hrcpt).symm
  cases hblocked

end MintToPool

end Kiichain.TokenFactory
