import Kiichain.TokenFactoryPlugin

/-!
# No confiscation without the capabilities for it

Without `enable_burn_from` and `enable_force_transfer` a call takes coins from
its caller only, whichever front end it comes through. What passes through the
module account on the way leaves its balance as it was.
-/

namespace Kiichain.TokenFactory
open GoExec FixedPoint

section Bank

variable {l l' : Ledger Account String} {a b c : Account} {coins : List Coin}

/-- The share of an account in a list of coins, one coin at a time. -/
theorem share_cons (x : Coin) (coins : List Coin) (denom : String) (c a : Account) :
    (if c = a then total (x :: coins) denom else 0) =
      (if c = a ∧ denom = x.denom then x.amount.val.toNat else 0) +
        if c = a then total coins denom else 0 := by
  by_cases ha : c = a
  · simp only [ha, if_true, true_and, total_cons, eq_comm (a := denom)]
  · simp [ha]

/-- A payment moves its total, also where it goes back to the payer. -/
theorem sendCoins_moves (h : sendCoins l a b coins = .ok l') (c : Account) (denom : String) :
    (l'.balance c denom + if c = a then total coins denom else 0) =
      l.balance c denom + if c = b then total coins denom else 0 := by
  induction coins generalizing l with
  | nil =>
      cases h
      simp [total]
  | cons x coins ih =>
      rw [sendCoins, List.foldlM_cons, bind_eq_ok] at h
      obtain ⟨m, hm, h⟩ := h
      have hrest := ih h
      have hfirst := Ledger.send_balance hm c denom
      rw [share_cons, share_cons]
      omega

theorem sendCoins_balance (hc : c ≠ a) (h : sendCoins l a b coins = .ok l') (denom : String) :
    l'.balance c denom = l.balance c denom + if c = b then total coins denom else 0 := by
  have hmoved := sendCoins_moves h c denom
  rwa [if_neg hc] at hmoved

theorem burnCoins_balance (h : burnCoins l a coins = .ok l') (denom : String) :
    l.balance c denom = l'.balance c denom + if c = a then total coins denom else 0 := by
  induction coins generalizing l with
  | nil =>
      cases h
      simp [total]
  | cons x coins ih =>
      rw [burnCoins, List.foldlM_cons, bind_eq_ok] at h
      obtain ⟨m, hm, h⟩ := h
      have hfirst := Ledger.burn_balance hm c denom
      have hrest := ih h
      rw [hfirst, hrest, total_cons]
      by_cases ha : c = a
      · simp only [ha, true_and, if_true, eq_comm (a := denom)]
        omega
      · simp [ha]

/-- Coins that are sent to an account and burned there are taken from the sender only. -/
theorem burnCoins_of_sendCoins {m : Ledger Account String} (hc : c ≠ a)
    (hsend : sendCoins l a b coins = .ok m) (hburn : burnCoins m b coins = .ok l')
    (denom : String) : l'.balance c denom = l.balance c denom := by
  have hsent := sendCoins_balance hc hsend denom
  have hburned := burnCoins_balance (c := c) hburn denom
  omega

end Bank

section Handlers

variable {k : Keeper} {s t : State} {a c : Account} {denom : String}

theorem mintTo_balance {amount : Coin} {address : String}
    (h : mintTo k s amount address = .ok t) (c : Account) (denom : String) :
    s.bank.balance c denom ≤ t.bank.balance c denom := by
  simp only [mintTo, bind_eq_ok, mintCoins_eq_ok, pure_eq_ok, Except.ok.injEq] at h
  obtain ⟨_, _, _, _, _, ⟨_, rfl⟩, _, _, _, _, bank, hbank, rfl⟩ := h
  have hminted := Ledger.mint_balance s.bank (.module moduleName) c amount.denom denom
    amount.amount.val.toNat
  by_cases hc : c = .module moduleName
  · have hle := Ledger.le_transfer_balance hbank c denom
    simp only [hc, true_and] at hminted hle ⊢
    omega
  · have hsent := Ledger.transfer_balance_of_ne hc hbank denom
    simp only [hc, false_and, if_false] at hminted
    simp only
    omega

theorem burnFrom_balance {amount : Coin} {address : String}
    (h : burnFrom k s amount address = .ok t) (hc : k.accAddressFromBech32 address ≠ some c)
    (denom : String) : t.bank.balance c denom = s.bank.balance c denom := by
  simp only [burnFrom, bind_eq_ok, require_eq_ok, pure_eq_ok, Except.ok.injEq] at h
  obtain ⟨_, _, a, ha, _, _, _, _, sent, hsent, bank, hbank, rfl⟩ := h
  apply burnCoins_of_sendCoins _ hsent hbank
  rintro rfl
  exact hc ha

theorem payCreationFee_balance {bank : Ledger Account String} (hc : c ≠ a)
    (h : payCreationFee k s a = .ok bank) (denom : String) :
    s.bank.balance c denom ≤ bank.balance c denom := by
  unfold payCreationFee at h
  split_ifs at h
  · rw [sendCoins_balance hc h]
    exact Nat.le_add_right _ _
  · obtain ⟨sent, hsent, hburn⟩ := bind_eq_ok.mp h
    exact (burnCoins_of_sendCoins hc hsent hburn denom).ge

theorem createDenom_balance {gasLeft : ℕ} {msg : MsgCreateDenom} {newDenom : String}
    (h : MsgServer.createDenom k s gasLeft msg = .ok (t, newDenom))
    (hc : k.accAddressFromBech32 msg.sender ≠ some c) (denom : String) :
    s.bank.balance c denom ≤ t.bank.balance c denom := by
  simp only [MsgServer.createDenom, chargeForCreateDenom, createDenomAfterValidation, bind_eq_ok,
    require_eq_ok, pure_eq_ok, Except.ok.injEq, Prod.mk.injEq] at h
  obtain ⟨_, _, _, _, _, ⟨a, ha, bank, hbank, _, _, rfl⟩, _, ⟨_, hset, rfl⟩, rfl, _⟩ := h
  rw [setAuthorityMetadata_effect hset]
  apply payCreationFee_balance _ hbank
  rintro rfl
  exact hc ha

end Handlers

section Calls

variable {k : Keeper} {authority : String} {s t : State} {c : Account}

/-- The app burns and moves coins of their holders only. -/
structure NoSeizure (k : Keeper) : Prop where
  burnFrom : enableBurnFrom ∉ k.enabledCapabilities
  forceTransfer : enableForceTransfer ∉ k.enabledCapabilities

theorem NoSeizure.not_checkCapability (h : NoSeizure k) {capability : String} {u : Unit}
    (hcap : capability = enableBurnFrom ∨ capability = enableForceTransfer) :
    MsgServer.checkCapability k capability ≠ .ok u := by
  intro hcheck
  have hmem : capability ∈ k.enabledCapabilities := by
    simpa [MsgServer.checkCapability, isCapabilityEnabled] using hcheck
  obtain rfl | rfl := hcap
  · exact h.burnFrom hmem
  · exact h.forceTransfer hmem

/-- A message takes coins from its sender only. -/
theorem deliver_balance (hk : NoSeizure k) {msg : Msg} (h : deliver k s msg = .ok t)
    (hc : k.accAddressFromBech32 msg.sender ≠ some c) (denom : String) :
    s.bank.balance c denom ≤ t.bank.balance c denom := by
  have hh := (deliver_eq_ok.mp h).2
  cases msg with
  | createDenom gasLeft m =>
      obtain ⟨newDenom, hcreate⟩ := handle_createDenom hh
      exact createDenom_balance hcreate hc denom
  | mint m =>
      simp only [handle, MsgServer.mint, bind_eq_ok] at hh
      obtain ⟨_, _, _, _, hmint⟩ := hh
      exact mintTo_balance hmint c denom
  | burn m =>
      simp only [handle, MsgServer.burn, bind_eq_ok] at hh
      obtain ⟨_, _, hh⟩ := hh
      split_ifs at hh
      · exact (burnFrom_balance hh hc denom).ge
      · obtain ⟨_, hcheck, _⟩ := bind_eq_ok.mp hh
        exact absurd hcheck (hk.not_checkCapability (Or.inl rfl))
  | forceTransfer m =>
      simp only [handle, MsgServer.forceTransfer, bind_eq_ok] at hh
      obtain ⟨_, hcheck, _⟩ := hh
      exact absurd hcheck (hk.not_checkCapability (Or.inr rfl))
  | changeAdmin m =>
      obtain ⟨_, rfl⟩ := changeAdmin_effect hh
      exact le_rfl
  | setDenomMetadata m =>
      obtain ⟨_, rfl⟩ := setDenomMetadata_effect hh
      exact le_rfl

theorem performs_balance (hk : NoSeizure k) {contractAddr : Account}
    (hcanonical : k.accAddressFromBech32 (k.addressString contractAddr) = some contractAddr)
    (h : Performs k s contractAddr t) (hc : c ≠ contractAddr) (denom : String) :
    s.bank.balance c denom ≤ t.bank.balance c denom := by
  induction h with
  | idle => exact le_rfl
  | delivered msg hsender h =>
      apply deliver_balance hk h
      rw [hsender, hcanonical]
      exact fun heq => hc (Option.some.inj heq).symm
  | metadata _ ih => exact ih
  | paid _ hsend ih =>
      have hsent := sendCoins_balance hc hsend denom
      simp only at hsent ⊢
      omega

/-- The account that a call comes from; a change of parameters comes from none. -/
def caller (k : Keeper) : Call → Option Account
  | .msg msg => k.accAddressFromBech32 msg.sender
  | .updateParams _ => none
  | .contract contractAddr _ _ => some contractAddr

/-- A calling contract is the account that its address text stands for. -/
def Canonical (k : Keeper) : Call → Prop
  | .contract contractAddr _ _ =>
    k.accAddressFromBech32 (k.addressString contractAddr) = some contractAddr
  | _ => True

theorem executeCall_balance (hk : NoSeizure k) {call : Call} (hcanonical : Canonical k call)
    (h : executeCall k authority s call = .ok t) (hc : caller k call ≠ some c) (denom : String) :
    s.bank.balance c denom ≤ t.bank.balance c denom := by
  cases call with
  | msg msg => exact deliver_balance hk h hc denom
  | updateParams msg =>
      simp only [executeCall, updateParams, bind_eq_ok, pure_eq_ok, Except.ok.injEq] at h
      obtain ⟨_, _, _, _, rfl⟩ := h
      exact le_rfl
  | contract contractAddr gasLeft msg =>
      simp only [executeCall, Plugin.dispatchMsg] at h
      split at h
      · exact performs_balance hk hcanonical (performs_of_perform h)
          (fun heq => hc (congrArg some heq.symm)) denom
      · cases h

/-- Without the capabilities to burn from and to move between accounts, no sequence
of messages, parameter changes and custom messages of contracts, from any state,
lowers a balance of an account that none of them comes from. -/
theorem no_confiscation (hk : NoSeizure k) (authority : String) (s : State) (calls : List Call)
    (hcanonical : ∀ call ∈ calls, Canonical k call)
    (h : Runs.run (stepCall k authority) s calls = .ok t) (c : Account)
    (hc : ∀ call ∈ calls, caller k call ≠ some c) (denom : String) :
    s.bank.balance c denom ≤ t.bank.balance c denom := by
  apply Runs.run_invariant_mem (I := fun t => s.bank.balance c denom ≤ t.bank.balance c denom) _
    le_rfl h
  intro u call hcall v hle hstep
  cases hstep
  obtain ⟨_, heq⟩ | heq := rolledBack_cases u (executeCall k authority u call)
  · rw [heq]
    exact hle
  · exact hle.trans (executeCall_balance hk (hcanonical call hcall) heq (hc call hcall) denom)

end Calls

namespace HeldGold
open RenouncedGold (keeper bank five)

/-- Alice creates gold and mints five of it to bob. -/
def minted : List Call :=
  [.msg (.createDenom 2000000 ⟨"alice", "gold"⟩),
    .msg (.mint ⟨"alice", ⟨"factory/alice/gold", five⟩, "bob"⟩)]

/-- Attempts of the admin and of a contract to take what bob holds. -/
def attempts : List Call :=
  [.msg (.burn ⟨"alice", ⟨"factory/alice/gold", 1⟩, "bob"⟩),
    .msg (.forceTransfer ⟨"alice", ⟨"factory/alice/gold", 1⟩, "bob", "alice"⟩),
    .contract (.user "contract") 0
      ⟨none, none, none, some ⟨"factory/alice/gold", 1, "bob"⟩, none, none⟩]

def held (calls : List Call) : Exec State :=
  Runs.run (stepCall keeper "gov") (defaultGenesis ∅ bank) calls

theorem held_balance : (held minted).toOption.map
    (fun s => s.bank.balance (.user "bob") "factory/alice/gold") = some 5 := by decide

theorem held_returns : (held (minted ++ attempts)).toOption.isSome = true := by decide

theorem noSeizure : NoSeizure keeper := ⟨by decide, by decide⟩

theorem bob_keeps : ∃ s t, held minted = .ok s ∧
    Runs.run (stepCall keeper "gov") s attempts = .ok t ∧
    s.bank.balance (.user "bob") "factory/alice/gold" = 5 ∧
    5 ≤ t.bank.balance (.user "bob") "factory/alice/gold" := by
  obtain ⟨s, hs, hheld⟩ := exists_of_toOption_map held_balance
  obtain ⟨t, ht⟩ := Option.isSome_iff_exists.mp held_returns
  obtain ⟨s', hs', hrun⟩ := Runs.run_append_eq_ok.mp (toOption_eq_some.mp ht)
  cases hs.symm.trans hs'
  refine ⟨s, t, hs, hrun, hheld, ?_⟩
  rw [← hheld]
  apply no_confiscation noSeizure "gov" s attempts _ hrun (.user "bob") _ "factory/alice/gold"
  · simp [attempts, Canonical, keeper]
  · simp [attempts, caller, keeper, Msg.sender]

end HeldGold

end Kiichain.TokenFactory
