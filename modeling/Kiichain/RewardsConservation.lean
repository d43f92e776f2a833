import Kiichain.RewardsSolvency

/-!
# Where the rewards come from and go to

Accepted deposits are the only source of the reward pool and the payments to the fee
collector its only drain, whatever schedules replace each other in between. So over
any run the pool is what was deposited less what was paid, in whole coins, and the
module's account moves with it.
-/

namespace Kiichain.Rewards
open GoExec FixedPoint

variable {k : Keeper} {s t : State} {d : String}

/-- What an event deposits in the denomination `d`. -/
def fundedBy (k : Keeper) (d : String) (s : State) : Event → ℤ
  | .fundPool msg =>
    if canSign k msg.sender then
      match fundPool k s msg with
      | .ok _ => amountIn d (some msg.amount)
      | .error _ => 0
    else 0
  | _ => 0

/-- What the messages of a run deposit in the denomination `d`. -/
def funded (k : Keeper) (d : String) : State → List Event → ℤ := Runs.total (step k) (fundedBy k d)

theorem sent_eq_total (k : Keeper) (d : String) (s : State) (es : List Event) :
    sent k d s es = Runs.total (step k) (sentBy d) s es := by
  induction es generalizing s with
  | nil => rfl
  | cons e es ih =>
      simp only [sent, Runs.total]
      cases step k s e with
      | error _ => rfl
      | ok t => simp only [ih]

/-- The pool, the module's balance and the supply move by `n` coins of `d`. -/
structure Moved (s t : State) (d : String) (n : ℤ) : Prop where
  pool : (DecCoins.amountOf t.rewardPool d).raw =
    (DecCoins.amountOf s.rewardPool d).raw + n * legacyFormat.scale
  balance : (t.bank.balance (.module moduleName) d : ℤ) =
    s.bank.balance (.module moduleName) d + n
  supply : t.bank.supply d = s.bank.supply d

theorem moved_self (hpool : t.rewardPool = s.rewardPool) (hbank : t.bank = s.bank) :
    Moved s t d 0 := by
  exact ⟨by simp [hpool], by simp [hbank], by rw [hbank]⟩

theorem moved_fundPool {msg : MsgFundPool} (hsign : canSign k msg.sender = true)
    (h : fundPool k s msg = .ok t) : Moved s t d (amountIn d (some msg.amount)) := by
  simp only [fundPool, fundCommunityPool, bind_eq_ok, require_eq_ok, ensure_eq_ok, exists_const,
    DecCoins.add_eq_ok, pure_eq_ok, Except.ok.injEq] at h
  obtain ⟨a, ha, _, _, _, ⟨_, hpos⟩, bank, hbank, _, ⟨hfits, rfl⟩, rfl⟩ := h
  have hne : a ≠ .module moduleName := by
    rintro rfl
    simp [canSign, ha] at hsign
  have hb := Ledger.send_balance_other hne hbank d
  have hsupply := congrFun (Ledger.send_supply hbank) d
  refine ⟨?_, ?_, hsupply⟩
  · simp only [DecCoins.amountOf_put, amountIn]
    split_ifs with hd
    · rw [← hd]
    · simp
  · simp only [amountIn]
    by_cases hd : msg.amount.denom = d
    · rw [if_pos hd.symm] at hb
      rw [if_pos hd, hb]
      push_cast
      omega
    · rw [if_neg (Ne.symm hd)] at hb
      rw [if_neg hd, hb]
      simp

theorem moved_paid {o : Option Coin} (hne : k.feeCollectorName ≠ moduleName) (h : Paid k s o t) :
    Moved s t d (-amountIn d o) := by
  cases o with
  | none =>
      obtain rfl : t = s := h
      exact moved_self rfl rfl
  | some c =>
      obtain ⟨⟨_, hpos⟩, bank, hbank, pool, hpool, rfl⟩ := release_eq_ok.mp h
      obtain ⟨_, _, rfl⟩ := DecCoins.sub_eq_ok.mp hpool
      have hb := Ledger.transfer_balance hbank (.module moduleName) d
      have hother : (Account.module moduleName : Account) ≠ .module k.feeCollectorName := by
        intro heq
        exact hne (Account.module.inj heq).symm
      refine ⟨?_, ?_, congrFun (Ledger.transfer_supply hbank) d⟩
      · simp only [DecCoins.amountOf_put, amountIn]
        split_ifs with hd
        · rw [← hd]
          ring
        · simp
      · simp only [amountIn, hother, false_and, if_false, true_and] at hb ⊢
        by_cases hd : c.denom = d
        · rw [if_pos hd.symm] at hb
          rw [if_pos hd]
          omega
        · rw [if_neg (Ne.symm hd)] at hb
          rw [if_neg hd]
          omega

theorem moved_rolledBack {x : Exec State} {n : ℤ} (hok : ∀ u, x = .ok u → Moved s u d n)
    (herror : ¬ Returns x → n = 0) : Moved s (rolledBack s x) d n := by
  obtain ⟨hfail, hr⟩ | hr := rolledBack_cases s x
  · rw [hr, herror hfail]
    exact moved_self rfl rfl
  · exact hok _ hr

theorem moved_step {e : Event} (hne : k.feeCollectorName ≠ moduleName) (h : step k s e = .ok t) :
    Moved s t d (fundedBy k d s e - sentBy d s e) := by
  cases e with
  | fundPool msg =>
      cases h
      simp only [fundedBy, sentBy, sub_zero]
      split_ifs with hsign
      · apply moved_rolledBack
        · intro u hu
          simp only [hu]
          exact moved_fundPool hsign hu
        · intro hfail
          cases hx : fundPool k s msg with
          | error _ => rfl
          | ok u => exact absurd ⟨u, hx⟩ hfail
      · exact moved_self rfl rfl
  | changeSchedule ctx msg =>
      cases h
      simp only [fundedBy, sentBy, sub_zero]
      apply moved_rolledBack _ (fun _ => rfl)
      intro u hu
      simp only [changeSchedule, bind_eq_ok, pure_eq_ok, Except.ok.injEq] at hu
      obtain ⟨_, _, _, _, _, _, rfl⟩ := hu
      exact moved_self rfl rfl
  | updateParams msg =>
      cases h
      simp only [fundedBy, sentBy, sub_zero]
      apply moved_rolledBack _ (fun _ => rfl)
      intro u hu
      simp only [updateParams, bind_eq_ok, pure_eq_ok, Except.ok.injEq] at hu
      obtain ⟨_, _, _, _, rfl⟩ := hu
      exact moved_self rfl rfl
  | beginBlock blockTime =>
      obtain ⟨o, sch, u, hadvances, hpaid, rfl⟩ := beginBlocker_advances h
      simp only [fundedBy, sentBy, sentCoin_of_advances hadvances, zero_sub]
      obtain ⟨hpool, hbalance, hsupply⟩ := moved_paid hne hpaid
      exact ⟨hpool, hbalance, hsupply⟩

/-- Over every run from the default genesis, with whatever schedules in between: the pool
holds what was deposited less what was sent to the fee collector, in whole coins, the
module's account has moved by the same, and so at most what was deposited is ever sent. -/
theorem rewards_conserved (k : Keeper) (hne : k.feeCollectorName ≠ moduleName)
    (bank : Ledger Account String) (es : List Event) {s : State}
    (h : Runs.run (step k) (defaultGenesis bank) es = .ok s) (d : String) :
    (DecCoins.amountOf s.rewardPool d).raw =
        (funded k d (defaultGenesis bank) es - sent k d (defaultGenesis bank) es) *
          legacyFormat.scale ∧
      (s.bank.balance (.module moduleName) d : ℤ) = bank.balance (.module moduleName) d +
        (funded k d (defaultGenesis bank) es - sent k d (defaultGenesis bank) es) ∧
      s.bank.supply d = bank.supply d ∧
      sent k d (defaultGenesis bank) es ≤ funded k d (defaultGenesis bank) es := by
  have hbalance : (s.bank.balance (.module moduleName) d : ℤ) =
      bank.balance (.module moduleName) d +
        (funded k d (defaultGenesis bank) es - sent k d (defaultGenesis bank) es) := by
    rw [sent_eq_total, funded, ← Runs.total_sub]
    exact Runs.measure_of_total (I := fun _ => True)
      (m := fun u : State => (u.bank.balance (.module moduleName) d : ℤ))
      (fun _ _ _ _ hstep => ⟨trivial, (moved_step hne hstep).balance⟩) trivial h
  have hpool : (DecCoins.amountOf s.rewardPool d).raw =
      ((s.bank.balance (.module moduleName) d : ℤ) - bank.balance (.module moduleName) d) *
        legacyFormat.scale := by
    apply Runs.run_invariant (I := fun u : State => (DecCoins.amountOf u.rewardPool d).raw =
      ((u.bank.balance (.module moduleName) d : ℤ) - bank.balance (.module moduleName) d) *
        legacyFormat.scale) _ _ h
    · intro u e u' hu hstep
      obtain ⟨hpool, hmoved, _⟩ := moved_step (d := d) hne hstep
      rw [hpool, hmoved, hu]
      ring
    · simp [defaultGenesis, DecCoins.amountOf]
  have hsupply : s.bank.supply d = bank.supply d :=
    Runs.run_invariant (I := fun u : State => u.bank.supply d = bank.supply d)
      (fun _ _ _ hu hstep => (moved_step hne hstep).supply.trans hu) rfl h
  have hnonneg := (Runs.run_invariant sound_step (sound_defaultGenesis bank) h).pool_nonneg d
  rw [hbalance, add_sub_cancel_left] at hpool
  refine ⟨hpool, hbalance, hsupply, ?_⟩
  rw [hpool, legacyFormat_scale] at hnonneg
  omega

theorem halting_run_conserved :
    ∃ s, Runs.run (step HaltingRun.keeper) (defaultGenesis HaltingRun.bank) HaltingRun.accepted =
      .ok s ∧ (DecCoins.amountOf s.rewardPool "akii").raw =
        (funded HaltingRun.keeper "akii" (defaultGenesis HaltingRun.bank) HaltingRun.accepted -
          sent HaltingRun.keeper "akii" (defaultGenesis HaltingRun.bank) HaltingRun.accepted) *
            legacyFormat.scale :=
  ⟨_, rfl, (rewards_conserved HaltingRun.keeper (by decide) HaltingRun.bank HaltingRun.accepted rfl
    "akii").1⟩

end Kiichain.Rewards
