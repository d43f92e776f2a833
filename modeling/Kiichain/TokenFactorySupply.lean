import Kiichain.LedgerSums
import Kiichain.TokenFactoryActions
import Kiichain.TokenFactoryConfiscation

/-!
# Where the coins of a denomination come from and go to

Whatever front end an action comes through, it hands at most one message to the
message server and does nothing to supplies besides. So over any run the supply of a
denomination is accounted for by mints, burns and burned creation fees, and the
balances keep adding up to it.
-/

namespace Kiichain.TokenFactory
open GoExec FixedPoint

section Bank

variable {l l' : Ledger Account String} {a b : Account} {coins : List Coin} {denom : String}

theorem addsUp_sendCoins (hl : l.AddsUp denom) (h : sendCoins l a b coins = .ok l') :
    l'.AddsUp denom := by
  induction coins generalizing l with
  | nil =>
      cases h
      exact hl
  | cons x coins ih =>
      rw [sendCoins, List.foldlM_cons, bind_eq_ok] at h
      obtain ⟨m, hm, h⟩ := h
      exact ih (hl.send hm) h

theorem addsUp_burnCoins (hl : l.AddsUp denom) (h : burnCoins l a coins = .ok l') :
    l'.AddsUp denom := by
  induction coins generalizing l with
  | nil =>
      cases h
      exact hl
  | cons x coins ih =>
      rw [burnCoins, List.foldlM_cons, bind_eq_ok] at h
      obtain ⟨m, hm, h⟩ := h
      exact ih (hl.burn hm) h

end Bank

section Messages

/-- What a message mints of a denomination. -/
def Msg.mints (denom : String) : Msg → ℕ
  | .mint msg => total [msg.amount] denom
  | _ => 0

def Msg.burns (denom : String) : Msg → ℕ
  | .burn msg => total [msg.amount] denom
  | _ => 0

/-- The fee for a new denomination is burned, unless it goes to the community pool. -/
def Msg.charges (k : Keeper) (s : State) (denom : String) : Msg → ℕ
  | .createDenom _ _ =>
    if isCapabilityEnabled k.enabledCapabilities enableCommunityPoolFeeFunding then 0
    else total s.params.denomCreationFee denom
  | _ => 0

/-- A step from `s` to `t` mints and burns what it says and takes nothing from the sums. -/
structure Accounted (s t : State) (denom : String) (minted burned : ℕ) : Prop where
  supply : t.bank.supply denom + burned = s.bank.supply denom + minted
  addsUp : s.bank.AddsUp denom → t.bank.AddsUp denom

variable {k : Keeper} {s t : State} {denom : String}

theorem Accounted.of_bank_eq (h : t.bank = s.bank) : Accounted s t denom 0 0 :=
  ⟨by rw [h], fun hs => by rwa [h]⟩

theorem accounted_mintTo {amount : Coin} {address : String}
    (h : mintTo k s amount address = .ok t) : Accounted s t denom (total [amount] denom) 0 := by
  simp only [mintTo, bind_eq_ok, mintCoins_eq_ok, pure_eq_ok, Except.ok.injEq] at h
  obtain ⟨_, _, _, _, _, ⟨_, rfl⟩, _, _, _, _, bank, hbank, rfl⟩ := h
  refine ⟨?_, fun hs => hs.mint.transfer hbank⟩
  change bank.supply denom + 0 = _
  rw [Ledger.transfer_supply hbank, Ledger.mint_supply, total_singleton, add_zero]
  by_cases hd : denom = amount.denom
  · rw [if_pos hd, if_pos hd.symm, hd]
  · rw [if_neg hd, if_neg (Ne.symm hd), add_zero]

theorem accounted_burnFrom {amount : Coin} {address : String}
    (h : burnFrom k s amount address = .ok t) : Accounted s t denom 0 (total [amount] denom) := by
  simp only [burnFrom, bind_eq_ok, pure_eq_ok, Except.ok.injEq] at h
  obtain ⟨_, _, _, _, _, _, _, _, sent, hsent, bank, hbank, rfl⟩ := h
  refine ⟨?_, fun hs => addsUp_burnCoins (addsUp_sendCoins hs hsent) hbank⟩
  rw [add_zero, ← sendCoins_supply hsent]
  exact burnCoins_supply hbank denom

theorem accounted_forceTransfer {amount : Coin} {fromAddr toAddr : String}
    (h : forceTransfer k s amount fromAddr toAddr = .ok t) : Accounted s t denom 0 0 := by
  simp only [forceTransfer, bind_eq_ok, pure_eq_ok, Except.ok.injEq] at h
  obtain ⟨_, _, _, _, _, _, _, _, _, _, _, _, bank, hbank, rfl⟩ := h
  refine ⟨?_, fun hs => addsUp_sendCoins hs hbank⟩
  rw [add_zero, add_zero, ← sendCoins_supply hbank]

theorem accounted_createDenom {gasLeft : ℕ} {msg : MsgCreateDenom} {newDenom : String}
    (h : MsgServer.createDenom k s gasLeft msg = .ok (t, newDenom)) :
    Accounted s t denom 0 ((Msg.createDenom gasLeft msg).charges k s denom) := by
  obtain ⟨_, _, a, bank, hbank, rfl⟩ := createDenom_effect h
  unfold payCreationFee at hbank
  simp only [Msg.charges]
  split_ifs at hbank ⊢ with hpool
  · refine ⟨?_, fun hs => addsUp_sendCoins hs hbank⟩
    rw [add_zero, add_zero, ← sendCoins_supply hbank]
  · obtain ⟨sent, hsent, hburn⟩ := bind_eq_ok.mp hbank
    refine ⟨?_, fun hs => addsUp_burnCoins (addsUp_sendCoins hs hsent) hburn⟩
    rw [add_zero, ← sendCoins_supply hsent]
    exact burnCoins_supply hburn denom

theorem accounted_execute {msg : Msg} (h : execute k s msg = .ok t) :
    Accounted s t denom (msg.mints denom) (msg.burns denom + msg.charges k s denom) := by
  obtain ⟨_, hhandle⟩ := execute_eq_ok.mp h
  cases msg with
  | createDenom gasLeft m =>
      obtain ⟨newDenom, hcreate⟩ := handle_createDenom hhandle
      simpa only [Msg.mints, Msg.burns, zero_add] using accounted_createDenom hcreate
  | mint m =>
      simp only [handle, MsgServer.mint, bind_eq_ok] at hhandle
      obtain ⟨_, _, _, _, hmint⟩ := hhandle
      exact accounted_mintTo hmint
  | burn m =>
      obtain ⟨_, _, hburn⟩ := burn_effect hhandle
      exact accounted_burnFrom hburn
  | forceTransfer m =>
      simp only [handle, MsgServer.forceTransfer, bind_eq_ok] at hhandle
      obtain ⟨_, _, _, _, htransfer⟩ := hhandle
      exact accounted_forceTransfer htransfer
  | changeAdmin m =>
      obtain ⟨_, rfl⟩ := changeAdmin_effect hhandle
      exact .of_bank_eq rfl
  | setDenomMetadata m =>
      obtain ⟨_, rfl⟩ := setDenomMetadata_effect hhandle
      exact .of_bank_eq rfl

end Messages

section Actions

/-- The message that a custom message of a contract hands to the message server.
Metadata is set without one. -/
def Plugin.Variant.message? (k : Keeper) (contractAddr : Account) (gasLeft : ℕ) :
    Plugin.Variant → Option TokenFactory.Msg
  | .createDenom m => some (.createDenom gasLeft ⟨k.addressString contractAddr, m.subdenom⟩)
  | .mintTokens m => some (.mint (m.toMsg k contractAddr))
  | .changeAdmin m => (k.accAddressFromBech32 m.newAdminAddress).map fun a =>
    .changeAdmin ⟨k.addressString contractAddr, m.denom, k.addressString a⟩
  | .burnTokens m =>
    some (.burn ⟨k.addressString contractAddr, ⟨m.denom, m.amount⟩, m.burnFromAddress⟩)
  | .setMetadata _ => none
  | .forceTransfer m => some (.forceTransfer
      ⟨k.addressString contractAddr, ⟨m.denom, m.amount⟩, m.fromAddress, m.toAddress⟩)

def Action.message? (k : Keeper) : Action → Option Msg
  | .delivered msg => some msg
  | .nested msg => some msg
  | .updateParams _ => none
  | .custom contractAddr gasLeft msg =>
    msg.variant?.bind (fun variant => variant.message? k contractAddr gasLeft)

/-- Supplies, sums and admins are left as they were. -/
structure Settled (s t : State) : Prop where
  supply : t.bank.supply = s.bank.supply
  addsUp : ∀ denom, s.bank.AddsUp denom → t.bank.AddsUp denom
  authority : t.authorityMetadata = s.authorityMetadata

variable {k : Keeper} {authority : String} {s t : State} {denom : String}

theorem Settled.refl (s : State) : Settled s s := ⟨rfl, fun _ hs => hs, rfl⟩

theorem settled_setDenomMetaData (s : State) (metadata : Metadata) :
    Settled s (setDenomMetaData s metadata) := ⟨rfl, fun _ hs => hs, rfl⟩

theorem settled_sendCoins {a b : Account} {coins : List Coin} {bank : Ledger Account String}
    (h : sendCoins s.bank a b coins = .ok bank) : Settled s { s with bank := bank } :=
  ⟨sendCoins_supply h, fun _ hs => addsUp_sendCoins hs h, rfl⟩

/-- A custom message passes its message on, and what it does itself settles. -/
theorem perform_variant_cases {contractAddr : Account} {gasLeft : ℕ} {variant : Plugin.Variant}
    (h : Plugin.perform k s contractAddr gasLeft variant = .ok t) :
    variant.message? k contractAddr gasLeft = none ∧ Settled s t ∨
      ∃ msg u, variant.message? k contractAddr gasLeft = some msg ∧ execute k s msg = .ok u ∧
        Settled u t := by
  cases variant with
  | createDenom m =>
      obtain ⟨u, hdeliver, hset⟩ := perform_createDenom_eq_ok.mp h
      refine Or.inr ⟨_, u, rfl, execute_of_deliver hdeliver, ?_⟩
      obtain ⟨_, rfl⟩ | ⟨metadata, _, hset⟩ := hset
      · exact .refl _
      · obtain ⟨_, _, _, rfl⟩ := performSetMetadata_eq_ok.mp hset
        exact settled_setDenomMetaData u _
  | mintTokens m =>
      simp only [Plugin.perform, wrapped_eq_ok, performMint_eq_ok] at h
      obtain ⟨rcpt, u, _, hmint, h⟩ := h
      refine Or.inr ⟨_, u, rfl, execute_of_deliver hmint, ?_⟩
      obtain ⟨_, rfl⟩ | ⟨_, _, bank, hbank, rfl⟩ := h
      · exact .refl _
      · exact settled_sendCoins hbank
  | changeAdmin m =>
      obtain ⟨a, ha, hdeliver⟩ := perform_changeAdmin_eq_ok.mp h
      refine Or.inr ⟨_, t, ?_, execute_of_deliver hdeliver, .refl t⟩
      rw [Plugin.Variant.message?, ha]
      rfl
  | burnTokens m =>
      exact Or.inr ⟨_, t, rfl, execute_of_deliver (perform_burnTokens_iff.mp h), .refl t⟩
  | setMetadata m =>
      simp only [Plugin.perform, wrapped_eq_ok, performSetMetadata_eq_ok] at h
      obtain ⟨_, _, _, rfl⟩ := h
      exact Or.inl ⟨rfl, settled_setDenomMetaData s _⟩
  | forceTransfer m =>
      exact Or.inr ⟨_, t, rfl, execute_of_deliver (perform_forceTransfer_iff.mp h), .refl t⟩

theorem perform_cases {a : Action} (h : perform k authority s a = .ok t) :
    a.message? k = none ∧ Settled s t ∨
      ∃ msg u, a.message? k = some msg ∧ execute k s msg = .ok u ∧ Settled u t := by
  cases a with
  | delivered msg => exact Or.inr ⟨msg, t, rfl, execute_of_deliver h, .refl t⟩
  | nested msg => exact Or.inr ⟨msg, t, rfl, h, .refl t⟩
  | updateParams msg =>
      simp only [perform, updateParams, bind_eq_ok, pure_eq_ok, Except.ok.injEq] at h
      obtain ⟨_, _, _, _, rfl⟩ := h
      exact Or.inl ⟨rfl, rfl, fun _ hs => hs, rfl⟩
  | custom contractAddr gasLeft msg =>
      simp only [perform, Plugin.dispatchMsg] at h
      cases hvariant : msg.variant? with
      | none =>
          rw [hvariant] at h
          cases h
      | some variant =>
          rw [hvariant] at h
          simp only [Action.message?, hvariant, Option.bind_some]
          exact perform_variant_cases h

/-- An amount that goes with a message, counted where its action passes. -/
def counted (k : Keeper) (authority : String) (amount : State → Msg → ℕ) (s : State) (a : Action) :
    ℤ :=
  match perform k authority s a, a.message? k with
  | .ok _, some msg => amount s msg
  | _, _ => 0

/-- What the actions of a run mint of the denomination. -/
def minted (k : Keeper) (authority denom : String) : State → List Action → ℤ :=
  Runs.total (stepAction k authority) (counted k authority fun _ msg => msg.mints denom)

def burned (k : Keeper) (authority denom : String) : State → List Action → ℤ :=
  Runs.total (stepAction k authority) (counted k authority fun _ msg => msg.burns denom)

def charged (k : Keeper) (authority denom : String) : State → List Action → ℤ :=
  Runs.total (stepAction k authority) (counted k authority fun s msg => msg.charges k s denom)

theorem accounted_stepAction {a : Action} (hs : s.bank.AddsUp denom)
    (h : stepAction k authority s a = .ok t) : t.bank.AddsUp denom ∧
      (t.bank.supply denom : ℤ) = s.bank.supply denom +
        (counted k authority (fun _ msg => msg.mints denom) s a -
          counted k authority (fun _ msg => msg.burns denom) s a -
          counted k authority (fun s msg => msg.charges k s denom) s a) := by
  cases h
  simp only [counted]
  cases hperform : perform k authority s a with
  | error f => simpa [rolledBack] using hs
  | ok t =>
      simp only [rolledBack]
      obtain ⟨hmsg, hsettled⟩ | ⟨msg, u, hmsg, hexecute, hsettled⟩ := perform_cases hperform
      · rw [hmsg]
        refine ⟨hsettled.addsUp denom hs, ?_⟩
        simp [hsettled.supply]
      · have haccounted : Accounted s u denom _ _ := accounted_execute hexecute
        rw [hmsg]
        refine ⟨hsettled.addsUp denom (haccounted.addsUp hs), ?_⟩
        have hsupply := haccounted.supply
        simp only [hsettled.supply]
        omega

/-- From any state whose balances add up to the supply they do so after every run of
messages, parameter changes and contract calls, and the supply has moved by what the
actions that passed minted, burned and were charged. -/
theorem supply_accounted (k : Keeper) (authority : String) (s : State) (actions : List Action)
    {denom : String} (hs : s.bank.AddsUp denom)
    (h : Runs.run (stepAction k authority) s actions = .ok t) : t.bank.AddsUp denom ∧
      (t.bank.supply denom : ℤ) = s.bank.supply denom + minted k authority denom s actions -
        burned k authority denom s actions - charged k authority denom s actions := by
  refine ⟨Runs.run_invariant (I := fun s => s.bank.AddsUp denom)
    (fun _ _ _ hs h => (accounted_stepAction hs h).1) hs h, ?_⟩
  have htotal := Runs.measure_of_total (I := fun s => s.bank.AddsUp denom)
    (m := fun s => (s.bank.supply denom : ℤ)) (fun _ _ _ hs h => accounted_stepAction hs h) hs h
  rw [Runs.total_sub, Runs.total_sub] at htotal
  rw [htotal, minted, burned, charged]
  ring

end Actions

namespace DestroyedFee
open RenouncedGold (bank five)

/-- The fee for a new denomination is burned. -/
def keeper : Keeper := { RenouncedGold.keeper with enabledCapabilities := [] }

/-- Alice creates gold, mints to bob and to herself, and burns one of her own. -/
def issued : List Action :=
  [.delivered (.createDenom 2000000 ⟨"alice", "gold"⟩),
    .custom (.user "alice") 0
      ⟨none, some ⟨"factory/alice/gold", five, "bob"⟩, none, none, none, none⟩,
    .nested (.mint ⟨"alice", ⟨"factory/alice/gold", five⟩, ""⟩),
    .nested (.burn ⟨"alice", ⟨"factory/alice/gold", 1⟩, ""⟩)]

theorem bank_addsUp (denom : String) : bank.AddsUp denom := by
  refine ⟨{.user "alice"}, ?_, ?_⟩
  · intro c hc
    have hne : c ≠ .user "alice" := fun heq => hc (Finset.mem_singleton.mpr heq)
    simp [bank, hne]
  · simp [bank]

def start : State := defaultGenesis ∅ bank

theorem issued_returns : (Runs.run (stepAction keeper "gov") start issued).toOption.isSome = true := by
  decide

theorem gold_totals : minted keeper "gov" "factory/alice/gold" start issued = 10 ∧
    burned keeper "gov" "factory/alice/gold" start issued = 1 ∧
    charged keeper "gov" "factory/alice/gold" start issued = 0 := by decide

theorem fee_totals : minted keeper "gov" "akii" start issued = 0 ∧
    burned keeper "gov" "akii" start issued = 0 ∧
    charged keeper "gov" "akii" start issued = 10000000 := by decide

theorem gold_accounted : ∃ s, Runs.run (stepAction keeper "gov") start issued = .ok s ∧
    s.bank.AddsUp "factory/alice/gold" ∧ s.bank.supply "factory/alice/gold" = 9 ∧
    s.bank.supply "akii" = 0 := by
  obtain ⟨s, hs⟩ := Option.isSome_iff_exists.mp issued_returns
  have hrun := toOption_eq_some.mp hs
  obtain ⟨haddsUp, hgold⟩ :=
    supply_accounted keeper "gov" start issued (bank_addsUp "factory/alice/gold") hrun
  obtain ⟨_, hfee⟩ := supply_accounted keeper "gov" start issued (bank_addsUp "akii") hrun
  obtain ⟨hminted, hburned, hcharged⟩ := gold_totals
  obtain ⟨hminted', hburned', hcharged'⟩ := fee_totals
  rw [hminted, hburned, hcharged] at hgold
  rw [hminted', hburned', hcharged'] at hfee
  refine ⟨s, hrun, haddsUp, ?_, ?_⟩
  · have hstart : start.bank.supply "factory/alice/gold" = 0 := rfl
    omega
  · have hstart : start.bank.supply "akii" = 10000000 := rfl
    omega

end DestroyedFee

end Kiichain.TokenFactory
