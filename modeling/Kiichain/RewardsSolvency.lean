import Kiichain.RewardsLiveness

/-!
# Solvency of the reward pool

The module's balance backs the pool and the pool covers what an active schedule
has still to release. A run that leaves the schedule in place sends to the fee
collector exactly what the released amount grows by.
-/

namespace Kiichain.Rewards
open GoExec FixedPoint

/-- The coin that a block at `blockTime` sends to the fee collector. -/
def sentCoin (blockTime : ℤ) (sch : ReleaseSchedule) : Option Coin :=
  if !sch.active || sch.totalAmount.isZero then none
  else if sch.lastReleaseTime = 0 then none
  else match calculateReward blockTime sch with
    | .ok c => if c.isZero then none else some c
    | .error _ => none

def amountIn (d : String) : Option Coin → ℤ
  | some c => if c.denom = d then c.amount.val else 0
  | none => 0

def sentBy (d : String) (s : State) : Event → ℤ
  | .beginBlock blockTime => amountIn d (sentCoin blockTime s.releaseSchedule)
  | _ => 0

/-- What the blocks of a run send to the fee collector in the denomination `d`. -/
def sent (k : Keeper) (d : String) : State → List Event → ℤ
  | _, [] => 0
  | s, e :: es => sentBy d s e +
      match step k s e with
      | .ok t => sent k d t es
      | .error _ => 0

/-- The event is not a schedule change that is accepted. -/
def KeepsSchedule (k : Keeper) (s : State) : Event → Prop
  | .changeSchedule ctx msg => ¬ Returns (changeSchedule k ctx s msg)
  | _ => True

def blockTime? : Event → Option ℤ
  | .beginBlock blockTime => some blockTime
  | _ => none

def blockTimes (es : List Event) : List ℤ := es.filterMap blockTime?

theorem sentCoin_of_advances {blockTime : ℤ} {sch sch' : ReleaseSchedule} {o : Option Coin}
    (h : sch.Advances blockTime o sch') : sentCoin blockTime sch = o := by
  cases h with
  | idle hidle => rw [sentCoin, if_pos hidle]
  | started hlive hlast => rw [sentCoin, if_neg hlive, if_pos hlast]
  | exhausted hlive hlast hc hz => simp only [sentCoin, if_neg hlive, if_neg hlast, hc, if_pos hz]
  | paid hlive hlast hc hz _ => simp only [sentCoin, if_neg hlive, if_neg hlast, hc, if_neg hz]

theorem calculateReward_of_sentCoin {blockTime : ℤ} {sch : ReleaseSchedule} {c : Coin}
    (h : sentCoin blockTime sch = some c) :
    ¬ (!sch.active || sch.totalAmount.isZero) = true ∧ calculateReward blockTime sch = .ok c ∧
      ¬ c.isZero = true := by
  unfold sentCoin at h
  by_cases hidle : (!sch.active || sch.totalAmount.isZero) = true
  · rw [if_pos hidle] at h
    cases h
  · by_cases hlast : sch.lastReleaseTime = 0
    · rw [if_neg hidle, if_pos hlast] at h
      cases h
    · rw [if_neg hidle, if_neg hlast] at h
      cases hc : calculateReward blockTime sch with
      | error f => simp [hc] at h
      | ok c' =>
          by_cases hz : c'.isZero = true
          · simp [hc, hz] at h
          · simp only [hc, if_neg hz, Option.some.injEq] at h
            subst h
            exact ⟨hidle, rfl, hz⟩

/-- A block that pays takes the coin out of the module's account and gives it to
the fee collector's; a block that does not leaves the bank alone. -/
theorem bank_beginBlocker {k : Keeper} {blockTime : ℤ} {s s' : State}
    (h : beginBlocker k blockTime s = .ok s') :
    match sentCoin blockTime s.releaseSchedule with
    | some c => s.bank.transfer (.module moduleName) (.module k.feeCollectorName) c.denom
        c.amount.val.toNat = .ok s'.bank
    | none => s'.bank = s.bank := by
  obtain ⟨o, sch, t, hadvances, hpaid, rfl⟩ := beginBlocker_advances h
  rw [sentCoin_of_advances hadvances]
  cases o with
  | none =>
      cases hpaid
      rfl
  | some c =>
      obtain ⟨_, bank, hbank, pool, _, rfl⟩ := release_eq_ok.mp hpaid
      exact hbank

section Conservation

variable {k : Keeper} {s t : State} {d : String}

theorem sent_advances {blockTime : ℤ} {sch sch' : ReleaseSchedule} {o : Option Coin}
    (hw : sch.WellFormed) (h : sch.Advances blockTime o sch') (d : String) :
    sch'.totalAmount = sch.totalAmount ∧ amountIn d o =
      if d = sch.totalAmount.denom then
        sch'.releasedAmount.amount.val - sch.releasedAmount.amount.val else 0 := by
  cases h with
  | idle _ => simp [amountIn]
  | started _ _ => simp [amountIn]
  | exhausted _ _ _ _ => simp [amountIn]
  | paid hlive _ hc hz hreleased =>
      obtain ⟨hd, _, _⟩ := calculateReward_amount hw (hw.denom_valid (live_iff.mp hlive).1) hc hz
      obtain ⟨_, _, hsum⟩ := Coin.add_eq_ok.mp hreleased
      refine ⟨rfl, ?_⟩
      rw [amountIn, hd, hsum]
      simp [eq_comm]

theorem schedule_rolledBack {x : Exec State}
    (h : ∀ u, x = .ok u → u.releaseSchedule = s.releaseSchedule) :
    (rolledBack s x).releaseSchedule = s.releaseSchedule := by
  obtain ⟨_, hr⟩ | hr := rolledBack_cases s x
  · rw [hr]
  · exact h _ hr

theorem schedule_fundPool {msg : MsgFundPool} (h : fundPool k s msg = .ok t) :
    t.releaseSchedule = s.releaseSchedule := by
  simp only [fundPool, fundCommunityPool, bind_eq_ok, pure_eq_ok, Except.ok.injEq] at h
  obtain ⟨_, _, _, _, _, _, _, _, _, _, _, _, rfl⟩ := h
  rfl

theorem schedule_updateParams {msg : MsgUpdateParams} (h : updateParams k s msg = .ok t) :
    t.releaseSchedule = s.releaseSchedule := by
  simp only [updateParams, bind_eq_ok, pure_eq_ok, Except.ok.injEq] at h
  obtain ⟨_, _, _, _, rfl⟩ := h
  rfl

/-- Only blocks move a schedule that is kept. -/
theorem schedule_step {e : Event} (hk : KeepsSchedule k s e) (h : step k s e = .ok t) :
    match blockTime? e with
    | some blockTime => ∃ o, s.releaseSchedule.Advances blockTime o t.releaseSchedule
    | none => t.releaseSchedule = s.releaseSchedule := by
  cases e with
  | fundPool msg =>
      cases h
      dsimp only [blockTime?]
      split_ifs
      · exact schedule_rolledBack fun _ => schedule_fundPool
      · rfl
  | changeSchedule ctx msg =>
      cases h
      exact schedule_rolledBack fun u hu => absurd ⟨u, hu⟩ hk
  | updateParams msg =>
      cases h
      exact schedule_rolledBack fun _ => schedule_updateParams
  | beginBlock blockTime =>
      obtain ⟨o, sch, u, hadvances, _, rfl⟩ := beginBlocker_advances h
      exact ⟨o, hadvances⟩

/-- What a step pays out and how the schedule moves: the total stays, the
released amount takes the payment. -/
theorem sent_step {e : Event} (hs : Sound s) (hk : KeepsSchedule k s e) (h : step k s e = .ok t)
    (d : String) :
    t.releaseSchedule.totalAmount = s.releaseSchedule.totalAmount ∧
      sentBy d s e = if d = s.releaseSchedule.totalAmount.denom then
        t.releaseSchedule.releasedAmount.amount.val -
          s.releaseSchedule.releasedAmount.amount.val else 0 := by
  have hsch := schedule_step hk h
  cases e with
  | beginBlock blockTime =>
      obtain ⟨o, hadvances⟩ := hsch
      rw [sentBy, sentCoin_of_advances hadvances]
      exact sent_advances hs.schedule hadvances d
  | fundPool msg =>
      dsimp only [blockTime?] at hsch
      simp [hsch, sentBy]
  | changeSchedule ctx msg =>
      dsimp only [blockTime?] at hsch
      simp [hsch, sentBy]
  | updateParams msg =>
      dsimp only [blockTime?] at hsch
      simp [hsch, sentBy]

theorem sent_run {es : List Event} (hs : Sound s) (hk : Runs.Along (step k) (KeepsSchedule k) s es)
    (h : Runs.run (step k) s es = .ok t) (d : String) :
    t.releaseSchedule.totalAmount = s.releaseSchedule.totalAmount ∧
      sent k d s es = if d = s.releaseSchedule.totalAmount.denom then
        t.releaseSchedule.releasedAmount.amount.val -
          s.releaseSchedule.releasedAmount.amount.val else 0 := by
  induction es generalizing s with
  | nil =>
      cases h
      simp [sent]
  | cons e es ih =>
      obtain ⟨u, hu, hr⟩ := Runs.run_cons_eq_ok.mp h
      obtain ⟨htotal, hsent⟩ := sent_step hs hk.1 hu d
      obtain ⟨htotal', hsent'⟩ := ih (sound_step s e u hs hu) (hk.2 u hu) hr
      refine ⟨htotal'.trans htotal, ?_⟩
      simp only [sent, hu, hsent, hsent', htotal]
      split_ifs
      · ring
      · rfl

end Conservation

/-- What holds of the pool, the schedule and the module's balance. The last two
fields are about what follows: over any run that keeps the schedule the coins
sent are the increase of the released amount, and a block that is to send a coin
finds it in the balance and in the pool. -/
structure Solvent (k : Keeper) (s : State) : Prop where
  backed : ∀ d, (DecCoins.amountOf s.rewardPool d).raw ≤
    s.bank.balance (.module moduleName) d * legacyFormat.scale
  denom_eq : s.releaseSchedule.releasedAmount.denom = s.releaseSchedule.totalAmount.denom
  released_le : s.releaseSchedule.releasedAmount.amount.val ≤
    s.releaseSchedule.totalAmount.amount.val
  covered : s.releaseSchedule.active = true →
    (s.releaseSchedule.totalAmount.amount.val - s.releaseSchedule.releasedAmount.amount.val) *
        legacyFormat.scale ≤
      (DecCoins.amountOf s.rewardPool s.releaseSchedule.totalAmount.denom).raw
  conserved : ∀ es t, Runs.Along (step k) (KeepsSchedule k) s es →
    Runs.run (step k) s es = .ok t → ∀ d,
      t.releaseSchedule.totalAmount = s.releaseSchedule.totalAmount ∧
        sent k d s es = if d = s.releaseSchedule.totalAmount.denom then
          t.releaseSchedule.releasedAmount.amount.val -
            s.releaseSchedule.releasedAmount.amount.val else 0
  transferred : ∀ blockTime s', beginBlocker k blockTime s = .ok s' →
    match sentCoin blockTime s.releaseSchedule with
    | some c => s.bank.transfer (.module moduleName) (.module k.feeCollectorName) c.denom
        c.amount.val.toNat = .ok s'.bank
    | none => s'.bank = s.bank
  funded : ∀ blockTime c, sentCoin blockTime s.releaseSchedule = some c →
    Returns (release k s c)

theorem solvent_of_sound {k : Keeper} {s : State} (hs : Sound s) : Solvent k s where
  backed := hs.backed
  denom_eq := hs.schedule.denom_eq
  released_le := hs.schedule.released_le
  covered _ := hs.covered
  conserved _ _ hk h d := sent_run hs hk h d
  transferred _ _ h := bank_beginBlocker h
  funded blockTime c h := by
    obtain ⟨hlive, hc, hz⟩ := calculateReward_of_sentCoin h
    exact (distribution_returns hs (live_iff.mp hlive).1 hc hz).1

/-- Every state that messages and completed blocks reach from the default genesis
is solvent, whatever the order of the messages. -/
theorem solvent_of_run (k : Keeper) (bank : Ledger Account String) (es : List Event) (s : State)
    (h : Runs.run (step k) (defaultGenesis bank) es = .ok s) : Solvent k s :=
  solvent_of_sound (Runs.run_invariant sound_step (sound_defaultGenesis bank) h)

theorem solvent_of_accepted :
    ∃ s, Runs.run (step HaltingRun.keeper) (defaultGenesis HaltingRun.bank) HaltingRun.accepted =
      .ok s ∧ Solvent HaltingRun.keeper s :=
  ⟨_, rfl, solvent_of_run HaltingRun.keeper HaltingRun.bank HaltingRun.accepted _ rfl⟩

end Kiichain.Rewards
