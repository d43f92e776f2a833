import Kiichain.RewardsGenesis
import Kiichain.RewardsSolvency

/-!
# Chains that start from a checked genesis state

The check of a rewards genesis state compares the denominations of the total and the
released amount only where something is released. A state that passes it, and that the
bank backs, keeps its pool covered; its blocks fail where the schedule is not paced, and
where nothing is released yet in another denomination than the total's.
-/

namespace Kiichain.Rewards
open GoExec FixedPoint

/-- The schedule as far as blocks release it, in one denomination. -/
def ReleaseSchedule.repaired (sch : ReleaseSchedule) : ReleaseSchedule :=
  if sch.active then
    { sch with releasedAmount := ⟨sch.totalAmount.denom, sch.releasedAmount.amount⟩ }
  else initialReleaseSchedule

def State.repaired (s : State) : State := { s with releaseSchedule := s.releaseSchedule.repaired }

/-- What blocks release is in the denomination of the total. -/
def ReleaseSchedule.Denominated (sch : ReleaseSchedule) : Prop :=
  sch.active = true → sch.releasedAmount.denom = sch.totalAmount.denom

/-- What the bank of a chain has for a genesis state. -/
structure GenesisState.Backed (gs : GenesisState) (bank : Ledger Account String) : Prop where
  covered : gs.releaseSchedule.active = true → gs.releaseSchedule.remaining * legacyFormat.scale ≤
    (DecCoins.amountOf gs.rewardPool gs.releaseSchedule.totalAmount.denom).raw
  fits : ∀ d, Decimal.Fits legacyFormat (DecCoins.amountOf gs.rewardPool d).raw
  backed : ∀ d, (DecCoins.amountOf gs.rewardPool d).raw ≤
    bank.balance (.module moduleName) d * legacyFormat.scale

section Repaired

variable {sch : ReleaseSchedule} {s : State}

theorem repaired_of_active (h : sch.active = true) : sch.repaired =
    { sch with releasedAmount := ⟨sch.totalAmount.denom, sch.releasedAmount.amount⟩ } := if_pos h

theorem repaired_of_inactive (h : sch.active = false) : sch.repaired = initialReleaseSchedule := by
  rw [ReleaseSchedule.repaired, h]
  rfl

theorem repaired_of_denominated (hactive : sch.active = true)
    (hdenom : sch.releasedAmount.denom = sch.totalAmount.denom) : sch.repaired = sch := by
  rw [repaired_of_active hactive, ← hdenom]

theorem State.repaired_of_denominated (hactive : s.releaseSchedule.active = true)
    (hdenom : s.releaseSchedule.releasedAmount.denom = s.releaseSchedule.totalAmount.denom) :
    s.repaired = s := by
  rw [State.repaired, Rewards.repaired_of_denominated hactive hdenom]

/-- Without a schedule only the pool matters. -/
theorem sound_initial (hs : Sound s) : Sound { s with releaseSchedule := initialReleaseSchedule } where
  schedule := ⟨rfl, le_rfl, le_rfl, fun h => absurd h Bool.false_ne_true⟩
  covered := by
    have hnonneg := hs.pool_nonneg initialReleaseSchedule.totalAmount.denom
    simpa [ReleaseSchedule.remaining, initialReleaseSchedule] using hnonneg
  pool_nonneg := hs.pool_nonneg
  pool_fits := hs.pool_fits
  backed := hs.backed

theorem sound_repaired (hs : Sound s) : Sound s.repaired := by
  cases hactive : s.releaseSchedule.active with
  | true =>
      rw [State.repaired_of_denominated hactive hs.schedule.denom_eq]
      exact hs
  | false =>
      rw [State.repaired, repaired_of_inactive hactive]
      exact sound_initial hs

/-- Where a running schedule is denominated, nothing is repaired. -/
theorem sound_of_repaired (hs : Sound s.repaired) (hactive : s.releaseSchedule.active = true)
    (hdenom : s.releaseSchedule.releasedAmount.denom = s.releaseSchedule.totalAmount.denom) :
    Sound s :=
  State.repaired_of_denominated hactive hdenom ▸ hs

end Repaired

section Steps

variable {k : Keeper} {s t : State}

/-- A block of a schedule that is not denominated releases nothing. -/
theorem beginBlocker_cases {blockTime : ℤ} (h : beginBlocker k blockTime s = .ok t) :
    t = s ∨ (s.releaseSchedule.active = true ∧
      t = { s with releaseSchedule := { s.releaseSchedule with lastReleaseTime := blockTime } }) ∨
      s.releaseSchedule.active = true ∧
        s.releaseSchedule.releasedAmount.denom = s.releaseSchedule.totalAmount.denom := by
  obtain ⟨sent, sch, u, hadvances, hpaid, rfl⟩ := beginBlocker_advances h
  have hsame : ∀ {blockTime c}, calculateReward blockTime s.releaseSchedule = .ok c →
      s.releaseSchedule.releasedAmount.denom = s.releaseSchedule.totalAmount.denom := by
    intro blockTime c hc
    obtain ⟨remaining, hremaining, _⟩ := bind_eq_ok.mp hc
    exact (Coin.sub_eq_ok.mp hremaining).1.symm
  cases hadvances with
  | idle _ =>
      cases hpaid
      exact Or.inl rfl
  | started hlive _ =>
      cases hpaid
      exact Or.inr (Or.inl ⟨(live_iff.mp hlive).1, rfl⟩)
  | exhausted hlive _ hc _ => exact Or.inr (Or.inr ⟨(live_iff.mp hlive).1, hsame hc⟩)
  | paid hlive _ hc _ _ => exact Or.inr (Or.inr ⟨(live_iff.mp hlive).1, hsame hc⟩)

theorem sound_repaired_beginBlocker {blockTime : ℤ} (hs : Sound s.repaired)
    (h : beginBlocker k blockTime s = .ok t) : Sound t.repaired := by
  obtain rfl | ⟨hactive, rfl⟩ | ⟨hactive, hdenom⟩ := beginBlocker_cases h
  · exact hs
  · -- only the time of the last release moves
    have hw := hs.schedule
    simp only [State.repaired, ReleaseSchedule.repaired, if_pos hactive] at hs hw ⊢
    exact ⟨⟨hw.1, hw.2, hw.3, hw.4⟩, hs.covered, hs.pool_nonneg, hs.pool_fits, hs.backed⟩
  · exact sound_repaired (sound_beginBlocker (sound_of_repaired hs hactive hdenom) h)

/-- Funding does not read the schedule. -/
theorem sound_repaired_fundPool {msg : MsgFundPool} (hs : Sound s.repaired)
    (hsign : canSign k msg.sender = true) (h : fundPool k s msg = .ok t) : Sound t.repaired := by
  apply sound_fundPool hs hsign
  simp only [fundPool, fundCommunityPool, bind_eq_ok, pure_eq_ok, Except.ok.injEq] at h ⊢
  obtain ⟨depositor, hdepositor, _, hamount, _, hdenom, _, hcoins, bank, hbank, pool, hpool, rfl⟩ := h
  exact ⟨depositor, hdepositor, _, hamount, _, hdenom, _, hcoins, bank, hbank, pool, hpool, rfl⟩

theorem sound_repaired_updateParams {msg : MsgUpdateParams} (hs : Sound s.repaired)
    (h : updateParams k s msg = .ok t) : Sound t.repaired := by
  refine sound_updateParams hs (?_ : updateParams k s.repaired msg = .ok t.repaired)
  simp only [updateParams, bind_eq_ok, pure_eq_ok, Except.ok.injEq] at h ⊢
  obtain ⟨_, hauthority, _, hvalid, rfl⟩ := h
  exact ⟨_, hauthority, _, hvalid, rfl⟩

/-- An accepted schedule replaces the one before it. -/
theorem sound_of_changeSchedule {ctx : Context} {msg : MsgChangeSchedule} (hs : Sound s.repaired)
    (h : changeSchedule k ctx s msg = .ok t) : Sound t := by
  refine sound_changeSchedule hs (?_ : changeSchedule k ctx s.repaired msg = .ok t)
  simp only [changeSchedule, bind_eq_ok, pure_eq_ok, Except.ok.injEq] at h ⊢
  obtain ⟨_, hauthority, _, hvalid, _, hfunds, rfl⟩ := h
  exact ⟨_, hauthority, _, hvalid, _, hfunds, rfl⟩

theorem sound_repaired_rolledBack {x : Exec State} (hs : Sound s.repaired)
    (h : ∀ t, x = .ok t → Sound t.repaired) : Sound (rolledBack s x).repaired := by
  obtain ⟨_, hr⟩ | hr := rolledBack_cases s x
  · rw [hr]
    exact hs
  · exact h _ hr

theorem sound_repaired_step (s : State) (e : Event) (t : State) (hs : Sound s.repaired)
    (h : step k s e = .ok t) : Sound t.repaired := by
  cases e with
  | fundPool msg =>
      cases h
      split_ifs with hsign
      · exact sound_repaired_rolledBack hs fun _ ht => sound_repaired_fundPool hs hsign ht
      · exact hs
  | changeSchedule ctx msg =>
      cases h
      exact sound_repaired_rolledBack hs fun _ ht => sound_repaired (sound_of_changeSchedule hs ht)
  | updateParams msg =>
      cases h
      exact sound_repaired_rolledBack hs fun _ ht => sound_repaired_updateParams hs ht
  | beginBlock blockTime => exact sound_repaired_beginBlocker hs h

/-- A block also needs the schedule denominated, where it is to release something. -/
def StepDenominated (s : State) : Event → Prop
  | .beginBlock _ => ¬ s.releaseSchedule.totalAmount.isZero = true →
      s.releaseSchedule.lastReleaseTime ≠ 0 → s.releaseSchedule.Denominated
  | _ => True

theorem returns_beginBlocker_of_repaired {blockTime : ℤ} (hs : Sound s.repaired) :
    Returns (beginBlocker k blockTime s) ↔
      Releasable blockTime s ∧ StepDenominated s (.beginBlock blockTime) := by
  by_cases hidle : (!s.releaseSchedule.active || s.releaseSchedule.totalAmount.isZero) = true
  · have hreturns : Returns (beginBlocker k blockTime s) := by
      rw [beginBlocker, if_pos hidle]
      exact returns_ok _
    refine iff_of_true hreturns ⟨fun hactive htotal => ?_, fun htotal _ hactive => ?_⟩
    · simp [hactive, htotal] at hidle
    · simp [hactive, htotal] at hidle
  · obtain ⟨hactive, htotal⟩ := live_iff.mp hidle
    by_cases hlast : s.releaseSchedule.lastReleaseTime = 0
    · have hreturns : Returns (beginBlocker k blockTime s) := by
        rw [beginBlocker, if_neg hidle, if_pos hlast]
        exact returns_ok _
      exact iff_of_true hreturns ⟨fun _ _ hne => absurd hlast hne, fun _ hne => absurd hlast hne⟩
    · by_cases hdenom : s.releaseSchedule.releasedAmount.denom = s.releaseSchedule.totalAmount.denom
      · rw [returns_beginBlocker_iff (sound_of_repaired hs hactive hdenom)]
        exact (and_iff_left fun _ _ _ => hdenom).symm
      · refine iff_of_false ?_ fun h => hdenom (h.2 htotal hlast hactive)
        rintro ⟨t, ht⟩
        rw [beginBlocker, if_neg hidle, if_neg hlast] at ht
        obtain ⟨c, hc, _⟩ := bind_eq_ok.mp ht
        obtain ⟨remaining, hremaining, _⟩ := bind_eq_ok.mp hc
        exact hdenom (Coin.sub_eq_ok.mp hremaining).1.symm

theorem returns_step_of_repaired (s : State) (e : Event) (hs : Sound s.repaired) :
    Returns (step k s e) ↔ StepReleasable s e ∧ StepDenominated s e := by
  cases e with
  | beginBlock blockTime => exact returns_beginBlocker_of_repaired hs
  | fundPool msg => simp [step, StepReleasable, StepDenominated]
  | changeSchedule ctx msg => simp [step, StepReleasable, StepDenominated]
  | updateParams msg => simp [step, StepReleasable, StepDenominated]

theorem denominated_of_changeSchedule {ctx : Context} {msg : MsgChangeSchedule}
    (h : changeSchedule k ctx s msg = .ok t) : t.releaseSchedule.Denominated := by
  simp only [changeSchedule, bind_eq_ok, wrapped_eq_ok, pure_eq_ok, Except.ok.injEq] at h
  obtain ⟨_, _, _, hvalid, _, _, rfl⟩ := h
  exact fun _ => (validateSchedule_wellFormed hvalid).denom_eq

/-- A denominated schedule is replaced by denominated ones only. -/
theorem denominated_step (s : State) (e : Event) (t : State)
    (hs : s.releaseSchedule.Denominated) (h : step k s e = .ok t) :
    t.releaseSchedule.Denominated := by
  cases e with
  | fundPool msg =>
      cases h
      split_ifs
      · rw [schedule_rolledBack fun _ => schedule_fundPool]
        exact hs
      · exact hs
  | changeSchedule ctx msg =>
      cases h
      obtain ⟨_, hr⟩ | hr := rolledBack_cases s (changeSchedule k ctx s msg)
      · rw [hr]
        exact hs
      · exact denominated_of_changeSchedule hr
  | updateParams msg =>
      cases h
      rw [schedule_rolledBack fun _ => schedule_updateParams]
      exact hs
  | beginBlock blockTime =>
      obtain ⟨sent, sch, u, hadvances, hpaid, rfl⟩ := beginBlocker_advances h
      cases hadvances with
      | idle _ => exact hs
      | started _ _ => exact hs
      | exhausted _ _ _ _ => exact fun hactive => absurd hactive Bool.false_ne_true
      | paid hlive _ hc hz hreleased =>
          intro hactive
          rw [(Coin.add_eq_ok.mp hreleased).2.1]
          exact hs hactive

end Steps

section Checked

variable {clock : GenesisClock} {gs : GenesisState} {s : State}

theorem amountOf_nonneg {m : DecCoins} (h : DecCoins.isAnyNegative m = false) (d : String) :
    0 ≤ (DecCoins.amountOf m d).raw := by
  rw [DecCoins.amountOf]
  cases hget : m.get? d with
  | none => exact le_rfl
  | some x =>
      rw [DecCoins.isAnyNegative, List.any_eq_false] at h
      have hx := h (d, x) (SortedMap.get?_eq_some.mp hget)
      exact Decimal.le_iff.mp (not_lt.mp fun hneg => hx (decide_eq_true hneg))

/-- What the check of a running schedule says of it. -/
theorem wellFormed_of_validateGenesis {sch : ReleaseSchedule}
    (h : sch.validateGenesis clock = .ok ()) (hactive : sch.active = true) :
    sch.repaired.WellFormed := by
  simp only [ReleaseSchedule.validateGenesis, if_pos hactive, bind_eq_ok, wrapped_eq_ok,
    Coin.validate_eq_ok] at h
  obtain ⟨_, _, _, _, _, ⟨hvalid, htotal⟩, _, _, _, _, hreleased⟩ := h
  rw [repaired_of_active hactive]
  rw [ReleaseSchedule.validateGenesisReleased] at hreleased
  by_cases hzero : sch.releasedAmount.isZero = true
  · have hval : sch.releasedAmount.amount.val = 0 := by simpa [Coin.isZero] using hzero
    exact ⟨rfl, hval.ge, hval.trans_le htotal, fun _ => hvalid⟩
  · simp only [if_neg hzero, bind_eq_ok, wrapped_eq_ok, Coin.validate_eq_ok, ensure_eq_ok,
      exists_const] at hreleased
    obtain ⟨⟨_, hnonneg⟩, _, hle⟩ := hreleased
    exact ⟨rfl, hnonneg, BoundedInt.le_iff.mp hle, fun _ => hvalid⟩

theorem sound_initGenesis (hvalid : gs.validate clock = .ok ()) (hbacked : gs.Backed s.bank) :
    Sound (initGenesis s gs).repaired := by
  simp only [GenesisState.validate, bind_eq_ok] at hvalid
  obtain ⟨_, _, _, hpool, hsch⟩ := hvalid
  have hnonneg : ∀ d, 0 ≤ (DecCoins.amountOf gs.rewardPool d).raw := by
    rw [validatePool, ensure_eq_ok, Bool.not_eq_true] at hpool
    exact amountOf_nonneg hpool
  cases hactive : gs.releaseSchedule.active with
  | true =>
      refine ⟨wellFormed_of_validateGenesis hsch hactive, ?_, hnonneg, hbacked.fits,
        hbacked.backed⟩
      simp only [initGenesis, State.repaired, repaired_of_active hactive]
      exact hbacked.covered hactive
  | false =>
      rw [State.repaired, initGenesis, repaired_of_inactive hactive]
      have hempty := hnonneg initialReleaseSchedule.totalAmount.denom
      refine ⟨⟨rfl, le_rfl, le_rfl, fun h => absurd h Bool.false_ne_true⟩, ?_, hnonneg,
        hbacked.fits, hbacked.backed⟩
      simpa [ReleaseSchedule.remaining, initialReleaseSchedule] using hempty

/-- The module's balance backs the pool, and the pool covers a running schedule. -/
structure Covered (s : State) : Prop where
  pool_nonneg : ∀ d, 0 ≤ (DecCoins.amountOf s.rewardPool d).raw
  backed : ∀ d, (DecCoins.amountOf s.rewardPool d).raw ≤
    s.bank.balance (.module moduleName) d * legacyFormat.scale
  covered : s.releaseSchedule.active = true → s.releaseSchedule.remaining * legacyFormat.scale ≤
    (DecCoins.amountOf s.rewardPool s.releaseSchedule.totalAmount.denom).raw

theorem covered_of_repaired (hs : Sound s.repaired) : Covered s := by
  refine ⟨hs.pool_nonneg, hs.backed, fun hactive => ?_⟩
  have hcovered := hs.covered
  simp only [State.repaired, repaired_of_active hactive] at hcovered
  exact hcovered

/-- A chain starts from a genesis state that passes its check and that the bank backs.
Over every run the pool stays backed and a running schedule covered. The run goes through
exactly where each block finds the schedule paced and denominated; of a schedule that the
genesis state has denominated only the pace decides. -/
theorem validated_genesis_runs (k : Keeper) (hvalid : gs.validate clock = .ok ())
    (hbacked : gs.Backed s.bank) (es : List Event) :
    (∀ t, Runs.run (step k) (initGenesis s gs) es = .ok t → Covered t) ∧
      (Returns (Runs.run (step k) (initGenesis s gs) es) ↔
        Runs.Along (step k) (fun t e => StepReleasable t e ∧ StepDenominated t e)
          (initGenesis s gs) es) ∧
      (gs.releaseSchedule.Denominated →
        (Returns (Runs.run (step k) (initGenesis s gs) es) ↔
          Runs.Along (step k) StepReleasable (initGenesis s gs) es)) := by
  have hsound := sound_initGenesis hvalid hbacked
  have hreturns := Runs.returns_run_iff (I := fun t : State => Sound t.repaired) sound_repaired_step
    (returns_step_of_repaired (k := k)) hsound es
  refine ⟨fun t ht => ?_, hreturns, fun hdenominated => ?_⟩
  · exact covered_of_repaired (Runs.run_invariant (I := fun t : State => Sound t.repaired)
      sound_repaired_step hsound ht)
  · rw [hreturns]
    apply Runs.along_congr (I := fun t : State => t.releaseSchedule.Denominated) denominated_step
    · intro t e ht
      apply and_iff_left
      cases e with
      | beginBlock _ => exact fun _ _ => ht
      | fundPool _ | changeSchedule _ _ | updateParams _ => trivial
    · exact hdenominated

end Checked

namespace NamelessRelease
open HaltingRun (keeper start amount)

def bank : Ledger Account String where
  balance a d := if a = .module moduleName ∧ d = "akii" then 1000 else 0
  locked _ _ := 0
  supply d := if d = "akii" then 1000 else 0

/-- A running schedule whose released amount is a zero without a denomination. -/
def gs : GenesisState where
  params := defaultParams
  rewardPool := ⟨[("akii", .ofInt 1000)], by decide⟩
  releaseSchedule := ⟨⟨"akii", amount⟩, ⟨"", 0⟩, start + 10000000000, 0, true⟩

def clock : GenesisClock := ⟨start, start⟩

def chain : State := initGenesis (defaultGenesis bank) gs

theorem gs_backed : gs.Backed bank := by
  have hother : ∀ d, d ≠ "akii" → DecCoins.amountOf gs.rewardPool d = 0 := by
    intro d hd
    have hnot : gs.rewardPool.get? d = none := by
      rw [SortedMap.get?_eq_none]
      simpa [gs, SortedMap.keys] using hd
    rw [DecCoins.amountOf, hnot]
    rfl
  refine ⟨fun _ => by decide, fun d => ?_, fun d => ?_⟩
  · by_cases hd : d = "akii"
    · subst hd
      decide
    · rw [hother d hd]
      exact Decimal.fits_zero
  · by_cases hd : d = "akii"
    · subst hd
      decide
    · rw [hother d hd, Decimal.raw_zero]
      positivity

/-- The state passes its check, and the second block of the chain fails. -/
theorem second_block_fails : gs.validate clock = .ok () ∧
    (∃ t, Runs.run (step keeper) chain [.beginBlock start] = .ok t ∧ Covered t) ∧
    ¬ Runs.Along (step keeper) (fun t e => StepReleasable t e ∧ StepDenominated t e) chain
      [.beginBlock start, .beginBlock (start + 1000000000)] := by
  have hvalid : gs.validate clock = .ok () := by decide
  refine ⟨hvalid, ?_, ?_⟩
  · obtain ⟨t, ht⟩ : ∃ t, Runs.run (step keeper) chain [.beginBlock start] = .ok t := ⟨_, rfl⟩
    exact ⟨t, ht, (validated_genesis_runs keeper hvalid gs_backed _).1 t ht⟩
  · intro halong
    obtain ⟨t, ht⟩ := (validated_genesis_runs keeper hvalid gs_backed _).2.1.mpr halong
    have hfails : (Runs.run (step keeper) chain
        [.beginBlock start, .beginBlock (start + 1000000000)]).toOption.isSome = false := by decide
    rw [chain, ht] at hfails
    cases hfails

end NamelessRelease

end Kiichain.Rewards
