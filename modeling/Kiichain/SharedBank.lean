import Kiichain.RewardsConservation
import Kiichain.TokenFactoryModuleAccounts
import Kiichain.TokenFactorySupply

/-!
# Two modules over one bank

The reward pool is worth the balance behind it, and the token factory moves balances.
On the app's table of module accounts no message and no contract call of the factory,
with whatever capabilities, takes a coin from the account of the rewards module. So in
any interleaving with blocks and payments of users, what that account holds beyond the
pool never falls.
-/

namespace Kiichain.TokenFactory
open GoExec FixedPoint

section Spared

variable {k : Keeper} {authority : String} {s t : State} {c : Account}

/-- A burn takes nothing from a blocked address. -/
theorem burnFrom_spares {amount : Coin} {address : String} (hblocked : k.blockedAddr c = true)
    (h : burnFrom k s amount address = .ok t) (denom : String) :
    t.bank.balance c denom = s.bank.balance c denom := by
  apply burnFrom_balance h
  intro hc
  simp only [burnFrom, hc, require, bind_eq_ok, ensure_eq_ok, pure_eq_ok, Except.ok.injEq] at h
  obtain ⟨_, _, _, rfl, _, hfree, _⟩ := h
  exact hfree hblocked

/-- A message takes nothing from a blocked module account that does not send it. -/
theorem execute_spares {msg : Msg} {name : String} (hname : name ∈ k.permAddrs)
    (hblocked : k.blockedAddr (.module name) = true)
    (hsender : k.accAddressFromBech32 msg.sender ≠ some (.module name))
    (h : execute k s msg = .ok t) (denom : String) :
    s.bank.balance (.module name) denom ≤ t.bank.balance (.module name) denom := by
  obtain ⟨_, hhandle⟩ := execute_eq_ok.mp h
  cases msg with
  | createDenom gasLeft m =>
      obtain ⟨newDenom, hcreate⟩ := handle_createDenom hhandle
      exact createDenom_balance hcreate hsender denom
  | mint m =>
      simp only [handle, MsgServer.mint, bind_eq_ok] at hhandle
      obtain ⟨_, _, _, _, hmint⟩ := hhandle
      exact mintTo_balance hmint _ denom
  | burn m =>
      obtain ⟨_, address, hburn⟩ := burn_effect hhandle
      exact (burnFrom_spares hblocked hburn denom).ge
  | forceTransfer m =>
      simp only [handle, MsgServer.forceTransfer, forceTransfer, bind_eq_ok, ensure_eq_ok,
        pure_eq_ok, Except.ok.injEq] at hhandle
      obtain ⟨_, _, _, _, _, _, a, _, _, hother, _, _, _, _, _, _, bank, hbank, rfl⟩ := hhandle
      rw [sendCoins_balance (hother name hname) hbank]
      exact Nat.le_add_right _ _
  | changeAdmin m =>
      obtain ⟨_, rfl⟩ := changeAdmin_effect hhandle
      exact le_rfl
  | setDenomMetadata m =>
      obtain ⟨_, rfl⟩ := setDenomMetadata_effect hhandle
      exact le_rfl

/-- The account that an action comes from; a change of parameters comes from none. -/
def Action.signer? (k : Keeper) : Action → Option Account
  | .delivered msg | .nested msg => k.accAddressFromBech32 msg.sender
  | .updateParams _ => none
  | .custom contractAddr _ _ => some contractAddr

/-- What the chain writes for an account stands for no other. -/
def Unambiguous (k : Keeper) : Prop :=
  ∀ a b, k.accAddressFromBech32 (k.addressString a) = some b → b = a

theorem performs_spares (hk : Unambiguous k) {name : String} (hname : name ∈ k.permAddrs)
    (hblocked : k.blockedAddr (.module name) = true) {contractAddr : Account}
    (hne : Account.module name ≠ contractAddr) (h : Performs k s contractAddr t) (denom : String) :
    s.bank.balance (.module name) denom ≤ t.bank.balance (.module name) denom := by
  induction h with
  | idle => exact le_rfl
  | delivered msg hsender h =>
      apply execute_spares hname hblocked _ (execute_of_deliver h)
      rw [hsender]
      exact fun heq => hne (hk _ _ heq)
  | metadata _ ih => exact ih
  | paid _ hsend ih =>
      have hsent := sendCoins_balance hne hsend denom
      simp only at hsent ⊢
      omega

theorem perform_spares (hk : Unambiguous k) {name : String} (hname : name ∈ k.permAddrs)
    (hblocked : k.blockedAddr (.module name) = true) {a : Action}
    (hsigner : a.signer? k ≠ some (.module name)) (h : perform k authority s a = .ok t)
    (denom : String) :
    s.bank.balance (.module name) denom ≤ t.bank.balance (.module name) denom := by
  cases a with
  | delivered msg => exact execute_spares hname hblocked hsigner (execute_of_deliver h) denom
  | nested msg => exact execute_spares hname hblocked hsigner h denom
  | updateParams msg =>
      simp only [perform, updateParams, bind_eq_ok, pure_eq_ok, Except.ok.injEq] at h
      obtain ⟨_, _, _, _, rfl⟩ := h
      exact le_rfl
  | custom contractAddr gasLeft msg =>
      simp only [perform, Plugin.dispatchMsg] at h
      split at h
      · exact performs_spares hk hname hblocked (fun heq => hsigner (congrArg some heq.symm))
          (performs_of_perform h) denom
      · cases h

end Spared

end Kiichain.TokenFactory

namespace Kiichain.App
open GoExec FixedPoint
open Rewards (Solvent)
open TokenFactory (Action Unambiguous)

/-- The states of both modules, which see one bank. -/
structure Chain where
  rewards : Rewards.State
  factory : TokenFactory.State
  shared : factory.bank = rewards.bank

structure Wiring where
  rewards : Rewards.Keeper
  factory : TokenFactory.Keeper
  authority : String

def rewardsAccount : Account := .module Rewards.moduleName

/-- A payment of a user, such as a transfer or a transaction fee. -/
structure MsgSend where
  fromAddress : String
  toAccount : Account
  denom : String
  amount : ℕ

inductive Event
  | rewards (e : Rewards.Event)
  | factory (a : Action)
  | send (msg : MsgSend)

def genesis (denomMetaData : SortedMap String Metadata)
    (bank : Ledger Account String) : Chain :=
  ⟨Rewards.defaultGenesis bank, TokenFactory.defaultGenesis denomMetaData bank, rfl⟩

/-- The rewards module has written its state, and the bank with it. -/
def Chain.ofRewards (c : Chain) (s : Rewards.State) : Chain :=
  ⟨s, { c.factory with bank := s.bank }, rfl⟩

def Chain.ofFactory (c : Chain) (s : TokenFactory.State) : Chain :=
  ⟨{ c.rewards with bank := s.bank }, s, rfl⟩

def Chain.ofBank (c : Chain) (bank : Ledger Account String) : Chain :=
  ⟨{ c.rewards with bank := bank }, { c.factory with bank := bank }, rfl⟩

/-- Nobody signs for the account of the rewards module. -/
def step (k : Wiring) (c : Chain) : Event → Exec Chain
  | .rewards e => do
    let s ← Rewards.step k.rewards c.rewards e
    pure (c.ofRewards s)
  | .factory a =>
    if a.signer? k.factory.wired = some rewardsAccount then pure c
    else do
      let s ← TokenFactory.stepAction k.factory.wired k.authority c.factory a
      pure (c.ofFactory s)
  | .send msg =>
    pure (c.ofBank (rolledBack c.rewards.bank
      (c.rewards.bank.send (.user msg.fromAddress) msg.toAccount msg.denom msg.amount)))

/-- What the account of the rewards module holds beyond the pool, in the pool's units. -/
def surplus (s : Rewards.State) (d : String) : ℤ :=
  s.bank.balance rewardsAccount d * legacyFormat.scale - (DecCoins.amountOf s.rewardPool d).raw

section Steps

variable {k : Wiring} {c c' : Chain} {d : String}

/-- A balance that rises leaves at least as much beyond the pool. -/
theorem surplus_mono {s : Rewards.State} {bank : Ledger Account String}
    (h : s.bank.balance rewardsAccount d ≤ bank.balance rewardsAccount d) :
    surplus s d ≤ surplus { s with bank := bank } d := by
  have hle : (s.bank.balance rewardsAccount d : ℤ) * legacyFormat.scale ≤
      bank.balance rewardsAccount d * legacyFormat.scale :=
    mul_le_mul_of_nonneg_right (by exact_mod_cast h) (Int.natCast_nonneg _)
  unfold surplus
  dsimp only
  omega

theorem surplus_nonneg {s : Rewards.State} (hs : Rewards.Sound s) (d : String) : 0 ≤ surplus s d :=
  sub_nonneg.mpr (hs.backed d)

/-- A bank in which the account holds no less leaves the pool sound. -/
theorem sound_of_balance {s : Rewards.State} {bank : Ledger Account String} (hs : Rewards.Sound s)
    (h : ∀ d, s.bank.balance rewardsAccount d ≤ bank.balance rewardsAccount d) :
    Rewards.Sound { s with bank := bank } :=
  ⟨hs.schedule, hs.covered, hs.pool_nonneg, hs.pool_fits, fun d =>
    sub_nonneg.mp ((surplus_nonneg hs d).trans (surplus_mono (h d)))⟩

theorem surplus_rewards {s t : Rewards.State} {e : Rewards.Event}
    (hne : k.rewards.feeCollectorName ≠ Rewards.moduleName)
    (h : Rewards.step k.rewards s e = .ok t) (d : String) : surplus t d = surplus s d := by
  obtain ⟨hpool, hbalance, _⟩ := Rewards.moved_step (d := d) hne h
  unfold surplus rewardsAccount
  rw [hpool, hbalance]
  ring

theorem addsUp_rolledBack {s : Rewards.State} {x : Exec Rewards.State} (hs : s.bank.AddsUp d)
    (h : ∀ t, x = .ok t → t.bank.AddsUp d) : (rolledBack s x).bank.AddsUp d := by
  obtain ⟨_, heq⟩ | heq := rolledBack_cases s x
  · rwa [heq]
  · exact h _ heq

theorem addsUp_rewards {s t : Rewards.State} {e : Rewards.Event} (hs : s.bank.AddsUp d)
    (h : Rewards.step k.rewards s e = .ok t) : t.bank.AddsUp d := by
  cases e with
  | fundPool msg =>
      cases h
      split_ifs
      · apply addsUp_rolledBack hs
        intro t ht
        simp only [Rewards.fundPool, Rewards.fundCommunityPool, bind_eq_ok, pure_eq_ok,
          Except.ok.injEq] at ht
        obtain ⟨_, _, _, _, _, _, _, _, bank, hbank, _, _, rfl⟩ := ht
        exact hs.send hbank
      · exact hs
  | changeSchedule ctx msg =>
      cases h
      apply addsUp_rolledBack hs
      intro t ht
      simp only [Rewards.changeSchedule, bind_eq_ok, pure_eq_ok, Except.ok.injEq] at ht
      obtain ⟨_, _, _, _, _, _, rfl⟩ := ht
      exact hs
  | updateParams msg =>
      cases h
      apply addsUp_rolledBack hs
      intro t ht
      simp only [Rewards.updateParams, bind_eq_ok, pure_eq_ok, Except.ok.injEq] at ht
      obtain ⟨_, _, _, _, rfl⟩ := ht
      exact hs
  | beginBlock blockTime =>
      have hbank := Rewards.bank_beginBlocker h
      split at hbank
      · exact hs.transfer hbank
      · rwa [hbank]

/-- What every step keeps: the pool is sound, nothing is taken from what lies beyond it,
and balances that add up do so afterwards. -/
structure Keeps (c c' : Chain) : Prop where
  sound : Rewards.Sound c.rewards → Rewards.Sound c'.rewards
  surplus : ∀ d, surplus c.rewards d ≤ surplus c'.rewards d
  addsUp : ∀ d, c.rewards.bank.AddsUp d → c'.rewards.bank.AddsUp d

theorem Keeps.refl (c : Chain) : Keeps c c := ⟨id, fun _ => le_rfl, fun _ => id⟩

theorem Keeps.trans {c₁ c₂ c₃ : Chain} (h : Keeps c₁ c₂) (h' : Keeps c₂ c₃) : Keeps c₁ c₃ :=
  ⟨h'.sound ∘ h.sound, fun d => (h.surplus d).trans (h'.surplus d),
    fun d => h'.addsUp d ∘ h.addsUp d⟩

/-- The account of the rewards module is on the app's table and blocked. -/
theorem rewards_registered (k : TokenFactory.Keeper) :
    Rewards.moduleName ∈ k.wired.permAddrs ∧ k.wired.blockedAddr rewardsAccount = true := by
  have hname : Rewards.moduleName ∈ TokenFactory.maccPerms := by decide
  have hblocked : rewardsAccount ∈
      TokenFactory.blockedModuleAccountAddrs TokenFactory.moduleAccountAddrs := by decide
  exact ⟨hname, decide_eq_true hblocked⟩

theorem stepAction_spares {k : TokenFactory.Keeper} {authority : String} (hk : Unambiguous k.wired)
    {a : Action} {s t : TokenFactory.State} (hsigner : a.signer? k.wired ≠ some rewardsAccount)
    (h : TokenFactory.stepAction k.wired authority s a = .ok t) (d : String) :
    s.bank.balance rewardsAccount d ≤ t.bank.balance rewardsAccount d := by
  obtain ⟨hname, hblocked⟩ := rewards_registered k
  cases h
  obtain ⟨_, heq⟩ | heq := rolledBack_cases s (TokenFactory.perform k.wired authority s a)
  · rw [heq]
  · exact TokenFactory.perform_spares hk hname hblocked hsigner heq d

theorem send_spares {l l' : Ledger Account String} {sender d : String} {receiver : Account} {n : ℕ}
    (h : l.send (.user sender) receiver d n = .ok l') (d' : String) :
    l.balance rewardsAccount d' ≤ l'.balance rewardsAccount d' := by
  have hmoved := Ledger.send_balance h rewardsAccount d'
  have hne : rewardsAccount ≠ .user sender := by
    intro heq
    cases heq
  simp only [hne, false_and, if_false, add_zero] at hmoved
  omega

theorem keeps_ofBank {bank : Ledger Account String}
    (hspares : ∀ d, c.rewards.bank.balance rewardsAccount d ≤ bank.balance rewardsAccount d)
    (haddsUp : ∀ d, c.rewards.bank.AddsUp d → bank.AddsUp d) : Keeps c (c.ofBank bank) :=
  ⟨fun hs => sound_of_balance hs hspares, fun d => surplus_mono (hspares d), haddsUp⟩

theorem keeps_ofFactory {s : TokenFactory.State}
    (hspares : ∀ d, c.rewards.bank.balance rewardsAccount d ≤ s.bank.balance rewardsAccount d)
    (haddsUp : ∀ d, c.rewards.bank.AddsUp d → s.bank.AddsUp d) : Keeps c (c.ofFactory s) :=
  ⟨fun hs => sound_of_balance hs hspares, fun d => surplus_mono (hspares d), haddsUp⟩

variable (hk : Unambiguous k.factory.wired)
  (hne : k.rewards.feeCollectorName ≠ Rewards.moduleName)
include hk hne

theorem keeps_step {e : Event} (h : step k c e = .ok c') : Keeps c c' := by
  cases e with
  | rewards e =>
      simp only [step, bind_eq_ok, pure_eq_ok, Except.ok.injEq] at h
      obtain ⟨s, hs, rfl⟩ := h
      exact ⟨fun hsound => Rewards.sound_step _ e s hsound hs,
        fun d => (surplus_rewards hne hs d).ge, fun d hd => addsUp_rewards hd hs⟩
  | factory a =>
      simp only [step] at h
      split_ifs at h with hsigner
      · cases h
        exact .refl c
      · simp only [bind_eq_ok, pure_eq_ok, Except.ok.injEq] at h
        obtain ⟨s, hs, rfl⟩ := h
        have hspares := stepAction_spares hk hsigner hs
        rw [c.shared] at hspares
        apply keeps_ofFactory hspares
        intro d hd
        rw [← c.shared] at hd
        exact (TokenFactory.accounted_stepAction hd hs).1
  | send msg =>
      cases h
      generalize hsent : c.rewards.bank.send (.user msg.fromAddress) msg.toAccount msg.denom
        msg.amount = sent
      cases sent with
      | error _ => exact keeps_ofBank (fun _ => le_rfl) (fun _ => id)
      | ok bank => exact keeps_ofBank (send_spares hsent) (fun _ hd => hd.send hsent)

/-- Over every interleaving of both modules' messages, contract calls of the factory under
any capabilities, blocks and payments of users: the state of the rewards module is
solvent, what its account holds beyond the pool has not fallen, and balances that added
up to the supply still do. -/
theorem pool_backed_of_run (denomMetaData : SortedMap String Metadata)
    (bank : Ledger Account String) (es : List Event)
    (h : Runs.run (step k) (genesis denomMetaData bank) es = .ok c) :
    Solvent k.rewards c.rewards ∧
      (∀ d, (DecCoins.amountOf c.rewards.rewardPool d).raw +
          bank.balance rewardsAccount d * legacyFormat.scale ≤
        c.rewards.bank.balance rewardsAccount d * legacyFormat.scale) ∧
      ∀ d, bank.AddsUp d → c.factory.bank.AddsUp d := by
  have hkeeps : Keeps (genesis denomMetaData bank) c :=
    Runs.run_invariant (fun _ _ _ hi hstep => hi.trans (keeps_step hk hne hstep)) (.refl _) h
  refine ⟨Rewards.solvent_of_sound (hkeeps.sound (Rewards.sound_defaultGenesis bank)),
    fun d => ?_, fun d hd => ?_⟩
  · have hsurplus := hkeeps.surplus d
    have hempty : (DecCoins.amountOf (genesis denomMetaData bank).rewards.rewardPool d).raw = 0 := rfl
    simp only [surplus, hempty] at hsurplus
    change bank.balance rewardsAccount d * (legacyFormat.scale : ℤ) - 0 ≤ _ at hsurplus
    omega
  · rw [c.shared]
    exact hkeeps.addsUp d hd

end Steps

namespace GoldPool
open TokenFactory.RenouncedGold (bank five)

/-- Alice and two modules have addresses. -/
def accAddressFromBech32 (text : String) : Option Account :=
  if text = "alice" then some (.user "alice")
  else if text = "gov" then some (.module "gov")
  else if text = "rewards" then some (.module "rewards")
  else none

def addressString : Account → String
  | .user address => if address = "alice" then "alice" else ""
  | .module name => if name = "gov" ∨ name = "rewards" then name else ""

/-- Every capability is enabled. -/
def factory : TokenFactory.Keeper where
  enabledCapabilities := [TokenFactory.enableBurnFrom, TokenFactory.enableForceTransfer,
    TokenFactory.enableSetMetadata]
  permAddrs := []
  accAddressFromBech32 := accAddressFromBech32
  addressString := addressString
  blockedAddr _ := false
  metadataValid _ := true
  empty_address := rfl

def wiring : Wiring := ⟨⟨"gov", "fee_collector", accAddressFromBech32⟩, factory, "gov"⟩

theorem unambiguous : Unambiguous wiring.factory.wired := by
  intro a b h
  change accAddressFromBech32 (addressString a) = some b at h
  cases a with
  | user address =>
      simp only [addressString] at h
      split_ifs at h with ha
      · cases h
        rw [ha]
      · cases h
  | module name =>
      simp only [addressString] at h
      split_ifs at h with hname
      · obtain rfl | rfl := hname
        · cases h
          rfl
        · cases h
          rfl
      · cases h

def gold (n : SdkInt) : Coin := ⟨"factory/alice/gold", n⟩

def four : SdkInt := ⟨4, by norm_num⟩

/-- Rewards are paid in alice's gold: she funds the pool, tries to burn and to move what
the module holds, and at last gives one more. -/
def events : List Event :=
  [.factory (.delivered (.createDenom 2000000 ⟨"alice", "gold"⟩)),
    .factory (.delivered (.mint ⟨"alice", gold five, ""⟩)),
    .rewards (.updateParams ⟨"gov", ⟨"factory/alice/gold"⟩⟩),
    .rewards (.fundPool ⟨"alice", gold four⟩),
    .factory (.delivered (.burn ⟨"alice", gold 1, "rewards"⟩)),
    .factory (.nested (.forceTransfer ⟨"alice", gold 1, "rewards", "alice"⟩)),
    .send ⟨"alice", rewardsAccount, "factory/alice/gold", 1⟩]

def reached : Exec Chain := Runs.run (step wiring) (genesis ∅ bank) events

set_option maxRecDepth 8000 in
theorem reached_view : reached.toOption.map (fun c =>
    ((DecCoins.amountOf c.rewards.rewardPool "factory/alice/gold").raw,
      c.rewards.bank.balance rewardsAccount "factory/alice/gold")) =
    some (4 * (legacyFormat.scale : ℤ), 5) := by decide

theorem gold_backed : ∃ c, reached = .ok c ∧ Solvent wiring.rewards c.rewards ∧
    c.factory.bank.AddsUp "factory/alice/gold" := by
  obtain ⟨c, hc, _⟩ := exists_of_toOption_map reached_view
  obtain ⟨hsolvent, _, haddsUp⟩ := pool_backed_of_run unambiguous (by decide) ∅ bank events hc
  refine ⟨c, hc, hsolvent, haddsUp _ ⟨∅, fun a _ => ?_, rfl⟩⟩
  simp [bank]

end GoldPool

end Kiichain.App
