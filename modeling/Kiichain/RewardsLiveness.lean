import Kiichain.RewardsKeeper

/-!
# When the rewards begin blocker returns

The reachable states keep the schedule inside the pool and the pool inside the
module's balance, so the transfer and every subtraction of the begin blocker
succeed. What remains is the arithmetic of the proportion: a divisor truncated
to whole seconds, and a share that must fit an integer of 256 bits.
-/

namespace Kiichain.Rewards
open GoExec FixedPoint

namespace ReleaseSchedule

variable (sch : ReleaseSchedule)

def remaining : ℤ := sch.totalAmount.amount.val - sch.releasedAmount.amount.val

def period : ℤ := GoTime.wholeSeconds (GoTime.sub sch.endTime sch.lastReleaseTime)

def elapsed (blockTime : ℤ) : ℤ :=
  GoTime.wholeSeconds (GoTime.sub blockTime sch.lastReleaseTime)

/-- Elapsed over total seconds in units of `10 ^ (-18)`. -/
def proportion (blockTime : ℤ) : ℤ :=
  chop 1000000000000000000
    ((sch.elapsed blockTime * (1000000000000000000 * 1000000000000000000)).tdiv sch.period)

structure WellFormed : Prop where
  denom_eq : sch.releasedAmount.denom = sch.totalAmount.denom
  released_nonneg : 0 ≤ sch.releasedAmount.amount.val
  released_le : sch.releasedAmount.amount.val ≤ sch.totalAmount.amount.val
  denom_valid : sch.active = true → validDenom sch.totalAmount.denom = true

/-- The last release is at least a second away from the end, and the share of
the elapsed time fits 256 bits. -/
def Paced (blockTime : ℤ) : Prop :=
  1000000000 ≤ |sch.endTime - sch.lastReleaseTime| ∧
    |sch.remaining * sch.proportion blockTime| < 2 ^ 256 * 1000000000000000000

variable {sch}

theorem period_ne_zero : sch.period ≠ 0 ↔ 1000000000 ≤ |sch.endTime - sch.lastReleaseTime| := by
  rw [period, ne_eq, GoTime.wholeSeconds_eq_zero_iff (GoTime.abs_sub_le _ _),
    GoTime.abs_sub_lt_iff, not_lt]

theorem proportion_fits (blockTime : ℤ) :
    Decimal.Fits legacyFormat (sch.proportion blockTime) := by
  have helapsed := GoTime.abs_wholeSeconds_le (GoTime.abs_sub_le blockTime sch.lastReleaseTime)
  have hnat : (sch.elapsed blockTime).natAbs ≤ 2 ^ 34 := by
    rw [Int.abs_eq_natAbs] at helapsed
    exact_mod_cast helapsed
  have hchop : (sch.proportion blockTime).natAbs ≤
      (sch.elapsed blockTime * (1000000000000000000 * 1000000000000000000)).natAbs := by
    rw [proportion, natAbs_chop]
    apply (halfEven_le_self (by norm_num) _).trans
    rw [Int.natAbs_tdiv]
    exact Nat.div_le_self _ _
  apply lt_of_le_of_lt hchop
  rw [Int.natAbs_mul, two_pow_bits]
  calc (sch.elapsed blockTime).natAbs * (1000000000000000000 * 1000000000000000000 : ℤ).natAbs
      ≤ 2 ^ 34 * (1000000000000000000 * 1000000000000000000 : ℤ).natAbs :=
        Nat.mul_le_mul_right _ hnat
    _ < 2 ^ 256 * 2 ^ 60 := by norm_num

end ReleaseSchedule

theorem truncated_fits_iff (z : ℤ) :
    (z.tdiv 1000000000000000000).natAbs < 2 ^ 256 ↔ |z| < 2 ^ 256 * 1000000000000000000 := by
  have hdiv : (z.tdiv 1000000000000000000).natAbs = z.natAbs / 1000000000000000000 :=
    Int.natAbs_tdiv _ _
  rw [hdiv, Nat.div_lt_iff_lt_mul (by norm_num), Int.abs_eq_natAbs]
  exact_mod_cast Iff.rfl

/-- A share whose integer part fits 256 bits fits a decimal. -/
theorem fits_of_abs_lt {z : ℤ} (h : |z| < 2 ^ 256 * 1000000000000000000) :
    Decimal.Fits legacyFormat z := by
  have hnat : z.natAbs < 2 ^ 256 * 1000000000000000000 := by
    rw [Int.abs_eq_natAbs] at h
    exact_mod_cast h
  unfold Decimal.Fits
  rw [two_pow_bits]
  apply hnat.trans
  exact Nat.mul_lt_mul_of_pos_left (by norm_num) (by positivity)

section CalculateReward

variable {sch : ReleaseSchedule}

theorem remaining_coin (hw : sch.WellFormed) :
    ∃ r, sch.totalAmount.sub sch.releasedAmount = .ok r ∧ r.denom = sch.totalAmount.denom ∧
      r.amount.val = sch.remaining := by
  have hnonneg := hw.released_nonneg
  have hle := hw.released_le
  have hfits : sch.remaining.natAbs < 2 ^ 256 := by
    apply lt_of_le_of_lt _ sch.totalAmount.amount.fits
    unfold ReleaseSchedule.remaining
    omega
  exact ⟨⟨sch.totalAmount.denom, ⟨sch.remaining, hfits⟩⟩,
    Coin.sub_eq_ok.mpr ⟨hw.denom_eq.symm, hle, rfl, rfl⟩, rfl, rfl⟩

/-- Every step of the computation that can panic, as one condition. -/
theorem calculateReward_eq_ok (hw : sch.WellFormed) (hvalid : validDenom sch.totalAmount.denom = true)
    (hrem : sch.remaining ≠ 0) {blockTime : ℤ} {c : Coin} :
    calculateReward blockTime sch = .ok c ↔ sch.Paced blockTime ∧
      c.denom = sch.totalAmount.denom ∧
      c.amount.val = min (max ((sch.remaining * sch.proportion blockTime).tdiv
        1000000000000000000) 1) sch.remaining := by
  obtain ⟨r, hr, hrd, hrv⟩ := remaining_coin hw
  have hrz : ¬ r.isZero = true := by simpa [Coin.isZero, hrv] using hrem
  have hpos : 0 < sch.remaining := by
    have := hw.released_le
    unfold ReleaseSchedule.remaining at hrem ⊢
    omega
  simp only [calculateReward, hr, ok_bind, if_neg hrz, bind_eq_ok, ensure_eq_ok, exists_const,
    Decimal.ofInt_quo_ofInt_eq_ok, Decimal.ofInt_mul_eq_ok, Decimal.truncateInt_eq_ok,
    Coin.newCoin_eq_ok, legacyFormat_scale]
  constructor
  · rintro ⟨_, _, ⟨hperiod, _, rfl⟩, _, ⟨_, rfl⟩, n, hn, _, _, rfl⟩
    have hshare : n.val = (sch.remaining * sch.proportion blockTime).tdiv 1000000000000000000 := by
      rw [hn, hrv]
      rfl
    refine ⟨⟨ReleaseSchedule.period_ne_zero.mp hperiod, ?_⟩, rfl, ?_⟩
    · rw [← truncated_fits_iff, ← hshare]
      exact n.fits
    · rw [BoundedInt.val_min, BoundedInt.val_max, hshare, hrv, SdkInt.val_one]
  · rintro ⟨⟨hperiod, hfits⟩, hd, hv⟩
    have hne : sch.endTime ≠ sch.lastReleaseTime := by
      intro h
      rw [h, sub_self] at hperiod
      norm_num at hperiod
    refine ⟨hne, ⟨sch.proportion blockTime⟩,
      ⟨ReleaseSchedule.period_ne_zero.mpr hperiod, ReleaseSchedule.proportion_fits blockTime, rfl⟩,
      ⟨sch.remaining * sch.proportion blockTime⟩, ?_,
      ⟨_, (truncated_fits_iff _).mpr hfits⟩, rfl, hvalid, ?_, ?_⟩
    · rw [hrv]
      exact ⟨fits_of_abs_lt hfits, rfl⟩
    · rw [BoundedInt.val_min, BoundedInt.val_max, SdkInt.val_one, hrv]
      exact le_min (le_max_of_le_right zero_le_one) hpos.le
    · cases c
      subst hd
      congr 1
      apply BoundedInt.ext_val
      rw [hv, BoundedInt.val_min, BoundedInt.val_max, SdkInt.val_one, hrv]

theorem calculateReward_returns (hw : sch.WellFormed)
    (hvalid : validDenom sch.totalAmount.denom = true) (hrem : sch.remaining ≠ 0) {blockTime : ℤ}
    (h : sch.Paced blockTime) : Returns (calculateReward blockTime sch) := by
  have hnonneg := hw.released_nonneg
  have hle := hw.released_le
  have hfits : (min (max ((sch.remaining * sch.proportion blockTime).tdiv 1000000000000000000) 1)
      sch.remaining).natAbs < 2 ^ 256 := by
    apply lt_of_le_of_lt _ sch.totalAmount.amount.fits
    unfold ReleaseSchedule.remaining at hrem ⊢
    omega
  exact ⟨⟨sch.totalAmount.denom, ⟨_, hfits⟩⟩,
    (calculateReward_eq_ok hw hvalid hrem).mpr ⟨h, rfl, rfl⟩⟩

theorem calculateReward_of_remaining_eq_zero (hw : sch.WellFormed) (hrem : sch.remaining = 0)
    (blockTime : ℤ) :
    ∃ c, calculateReward blockTime sch = .ok c ∧ c.isZero = true := by
  obtain ⟨r, hr, _, hrv⟩ := remaining_coin hw
  have hrz : r.isZero = true := by simpa [Coin.isZero, hrv] using hrem
  refine ⟨r, ?_, hrz⟩
  rw [calculateReward, hr, ok_bind, if_pos hrz]
  rfl

/-- Within the last second before the end the divisor is zero. -/
theorem calculateReward_panics (hw : sch.WellFormed) (hrem : sch.remaining ≠ 0)
    (hne : sch.endTime ≠ sch.lastReleaseTime)
    (hshort : |sch.endTime - sch.lastReleaseTime| < 1000000000) (blockTime : ℤ) :
    calculateReward blockTime sch = .error (.panic "division by zero") := by
  obtain ⟨r, hr, _, hrv⟩ := remaining_coin hw
  have hrz : ¬ r.isZero = true := by simpa [Coin.isZero, hrv] using hrem
  have hperiod : GoTime.wholeSeconds (GoTime.sub sch.endTime sch.lastReleaseTime) = 0 := by
    by_contra h
    exact absurd (ReleaseSchedule.period_ne_zero.mp h) (not_le.mpr hshort)
  rw [calculateReward, hr, ok_bind, if_neg hrz, ensure_of hne, ok_bind, hperiod]
  rfl

theorem calculateReward_amount (hw : sch.WellFormed)
    (hvalid : validDenom sch.totalAmount.denom = true) {blockTime : ℤ} {c : Coin}
    (h : calculateReward blockTime sch = .ok c) (hc : ¬ c.isZero = true) :
    c.denom = sch.totalAmount.denom ∧ 0 < c.amount.val ∧ c.amount.val ≤ sch.remaining := by
  have hrem : sch.remaining ≠ 0 := by
    intro h0
    obtain ⟨r, hr, hrz⟩ := calculateReward_of_remaining_eq_zero hw h0 blockTime
    rw [hr] at h
    cases h
    exact hc hrz
  obtain ⟨_, hd, hv⟩ := (calculateReward_eq_ok hw hvalid hrem).mp h
  have hpos : 0 < sch.remaining := by
    have := hw.released_le
    unfold ReleaseSchedule.remaining at hrem ⊢
    omega
  refine ⟨hd, ?_, ?_⟩
  · rw [hv]
    exact lt_min (lt_max_of_lt_right zero_lt_one) hpos
  · rw [hv]
    exact min_le_right _ _

end CalculateReward

/-- The schedule is covered by the pool, and the pool by the module's balance. -/
structure Sound (s : State) : Prop where
  schedule : s.releaseSchedule.WellFormed
  covered : s.releaseSchedule.remaining * legacyFormat.scale ≤
    (DecCoins.amountOf s.rewardPool s.releaseSchedule.totalAmount.denom).raw
  pool_nonneg : ∀ d, 0 ≤ (DecCoins.amountOf s.rewardPool d).raw
  pool_fits : ∀ d, Decimal.Fits legacyFormat (DecCoins.amountOf s.rewardPool d).raw
  backed : ∀ d, (DecCoins.amountOf s.rewardPool d).raw ≤
    s.bank.balance (.module moduleName) d * legacyFormat.scale

theorem sound_defaultGenesis (bank : Ledger Account String) : Sound (defaultGenesis bank) where
  schedule := ⟨rfl, le_rfl, le_rfl, by simp [defaultGenesis, initialReleaseSchedule]⟩
  covered := by simp [defaultGenesis, initialReleaseSchedule, ReleaseSchedule.remaining,
    DecCoins.amountOf]
  pool_nonneg d := by simp [defaultGenesis, DecCoins.amountOf]
  pool_fits d := by simp [defaultGenesis, DecCoins.amountOf]
  backed d := by
    simp only [defaultGenesis, DecCoins.amountOf, SortedMap.get?_empty, Option.getD_none,
      Decimal.raw_zero]
    positivity

theorem release_eq_ok {k : Keeper} {s t : State} {c : Coin} :
    release k s c = .ok t ↔ (validDenom c.denom = true ∧ 0 < c.amount.val) ∧
      ∃ bank, s.bank.transfer (.module moduleName) (.module k.feeCollectorName) c.denom
        c.amount.val.toNat = .ok bank ∧
      ∃ pool, DecCoins.sub s.rewardPool c = .ok pool ∧
        t = { s with bank := bank, rewardPool := pool } := by
  simp only [release, bind_eq_ok, ensure_eq_ok, exists_const, pure_eq_ok, Except.ok.injEq,
    @eq_comm _ t]

/-- A covered amount is in the balance and in the pool, so its release returns. -/
theorem release_returns {k : Keeper} {s : State} (hs : Sound s) {c : Coin}
    (hvalid : validDenom c.denom = true) (hpos : 0 < c.amount.val)
    (hle : c.amount.val * legacyFormat.scale ≤ (DecCoins.amountOf s.rewardPool c.denom).raw) :
    Returns (release k s c) := by
  have hbacked := hs.backed c.denom
  have hnonneg := hs.pool_nonneg c.denom
  have hfits := hs.pool_fits c.denom
  have hbalance : c.amount.val.toNat ≤ s.bank.balance (.module moduleName) c.denom := by
    rw [legacyFormat_scale] at hle hbacked
    omega
  obtain ⟨bank, hbank⟩ : ∃ bank, s.bank.transfer (.module moduleName) (.module k.feeCollectorName)
      c.denom c.amount.val.toNat = .ok bank :=
    ⟨_, Ledger.transfer_eq_ok.mpr ⟨hbalance, rfl⟩⟩
  have hpool : DecCoins.sub s.rewardPool c = .ok (DecCoins.put s.rewardPool c.denom
      ⟨(DecCoins.amountOf s.rewardPool c.denom).raw - c.amount.val * legacyFormat.scale⟩) := by
    have hscaled : 0 ≤ c.amount.val * legacyFormat.scale := by positivity
    apply DecCoins.sub_eq_ok.mpr
    exact ⟨hfits.of_le (by omega) (by omega), by omega, rfl⟩
  exact ⟨_, release_eq_ok.mpr ⟨⟨hvalid, hpos⟩, bank, hbank, _, hpool, rfl⟩⟩

/-- The condition on a block: while there is something left to release, the
schedule is paced at the block's time. -/
def Releasable (blockTime : ℤ) (s : State) : Prop :=
  s.releaseSchedule.active = true → ¬ s.releaseSchedule.totalAmount.isZero = true →
    s.releaseSchedule.lastReleaseTime ≠ 0 → s.releaseSchedule.remaining ≠ 0 →
      s.releaseSchedule.Paced blockTime

/-- What a block does to the schedule, with the coin it sends to the fee collector. -/
inductive ReleaseSchedule.Advances (blockTime : ℤ) (sch : ReleaseSchedule) :
    Option Coin → ReleaseSchedule → Prop
  | idle (hidle : (!sch.active || sch.totalAmount.isZero) = true) : Advances blockTime sch none sch
  | started (hlive : ¬ (!sch.active || sch.totalAmount.isZero) = true)
      (hlast : sch.lastReleaseTime = 0) :
      Advances blockTime sch none { sch with lastReleaseTime := blockTime }
  | exhausted (hlive : ¬ (!sch.active || sch.totalAmount.isZero) = true)
      (hlast : sch.lastReleaseTime ≠ 0) {c : Coin} (hc : calculateReward blockTime sch = .ok c)
      (hz : c.isZero = true) : Advances blockTime sch none { sch with active := false }
  | paid (hlive : ¬ (!sch.active || sch.totalAmount.isZero) = true)
      (hlast : sch.lastReleaseTime ≠ 0) {c released : Coin}
      (hc : calculateReward blockTime sch = .ok c) (hz : ¬ c.isZero = true)
      (hreleased : sch.releasedAmount.add c = .ok released) :
      Advances blockTime sch (some c)
        { sch with lastReleaseTime := blockTime, releasedAmount := released }

/-- The bank and the pool move by the coin that is sent, if there is one. -/
def Paid (k : Keeper) (s : State) : Option Coin → State → Prop
  | none, t => t = s
  | some c, t => release k s c = .ok t

theorem live_iff {sch : ReleaseSchedule} :
    ¬ (!sch.active || sch.totalAmount.isZero) = true ↔
      sch.active = true ∧ ¬ sch.totalAmount.isZero = true := by
  cases sch.active <;> simp

section BeginBlocker

variable {k : Keeper} {blockTime : ℤ} {s s' : State}

theorem beginBlocker_advances (h : beginBlocker k blockTime s = .ok s') :
    ∃ sent sch t, s.releaseSchedule.Advances blockTime sent sch ∧ Paid k s sent t ∧
      s' = { t with releaseSchedule := sch } := by
  unfold beginBlocker at h
  by_cases hidle : (!s.releaseSchedule.active || s.releaseSchedule.totalAmount.isZero) = true
  · rw [if_pos hidle] at h
    cases h
    exact ⟨none, _, s, .idle hidle, rfl, rfl⟩
  · rw [if_neg hidle] at h
    by_cases hlast : s.releaseSchedule.lastReleaseTime = 0
    · rw [if_pos hlast] at h
      cases h
      exact ⟨none, _, s, .started hidle hlast, rfl, rfl⟩
    · rw [if_neg hlast] at h
      obtain ⟨c, hc, h⟩ := bind_eq_ok.mp h
      by_cases hz : c.isZero = true
      · rw [if_pos hz] at h
        cases h
        exact ⟨none, _, s, .exhausted hidle hlast hc hz, rfl, rfl⟩
      · rw [if_neg hz] at h
        obtain ⟨t, ht, h⟩ := bind_eq_ok.mp h
        obtain ⟨released, hreleased, h⟩ := bind_eq_ok.mp h
        cases h
        exact ⟨some c, _, t, .paid hidle hlast hc hz hreleased, ht, rfl⟩

/-- The amount a block releases is covered and leaves the schedule well formed. -/
theorem distribution_returns (hs : Sound s) (hactive : s.releaseSchedule.active = true) {c : Coin}
    (hc : calculateReward blockTime s.releaseSchedule = .ok c) (hz : ¬ c.isZero = true) :
    Returns (release k s c) ∧ Returns (s.releaseSchedule.releasedAmount.add c) := by
  have hw := hs.schedule
  have hnonneg := hw.released_nonneg
  obtain ⟨hd, hpos, hle⟩ := calculateReward_amount hw (hw.denom_valid hactive) hc hz
  constructor
  · apply release_returns hs (hd ▸ hw.denom_valid hactive) hpos
    rw [hd]
    exact (mul_le_mul_of_nonneg_right hle (by positivity)).trans hs.covered
  · have hfits : (s.releaseSchedule.releasedAmount.amount.val + c.amount.val).natAbs < 2 ^ 256 := by
      apply lt_of_le_of_lt _ s.releaseSchedule.totalAmount.amount.fits
      unfold ReleaseSchedule.remaining at hle
      omega
    exact ⟨⟨s.releaseSchedule.releasedAmount.denom, ⟨_, hfits⟩⟩,
      Coin.add_eq_ok.mpr ⟨hw.denom_eq.trans hd.symm, rfl, rfl⟩⟩

theorem returns_beginBlocker_iff (hs : Sound s) :
    Returns (beginBlocker k blockTime s) ↔ Releasable blockTime s := by
  have hw := hs.schedule
  unfold beginBlocker Releasable
  by_cases hidle : (!s.releaseSchedule.active || s.releaseSchedule.totalAmount.isZero) = true
  · rw [if_pos hidle]
    simp only [pure_eq_ok, returns_ok, true_iff]
    intro hactive htotal
    simp [hactive, htotal] at hidle
  · rw [if_neg hidle]
    obtain ⟨hactive, htotal⟩ := live_iff.mp hidle
    have hvalid := hw.denom_valid hactive
    by_cases hlast : s.releaseSchedule.lastReleaseTime = 0
    · simp [hlast]
    · rw [if_neg hlast, returns_bind]
      constructor
      · rintro ⟨c, hc, _⟩ _ _ _ hrem
        exact ((calculateReward_eq_ok hw hvalid hrem).mp hc).1
      · intro hpaced
        have hreward : Returns (calculateReward blockTime s.releaseSchedule) := by
          by_cases hrem : s.releaseSchedule.remaining = 0
          · obtain ⟨c, hc, _⟩ := calculateReward_of_remaining_eq_zero hw hrem blockTime
            exact ⟨c, hc⟩
          · exact calculateReward_returns hw hvalid hrem (hpaced hactive htotal hlast hrem)
        obtain ⟨c, hc⟩ := hreward
        refine ⟨c, hc, ?_⟩
        by_cases hz : c.isZero = true
        · rw [if_pos hz]
          exact returns_ok _
        · obtain ⟨⟨t, ht⟩, released, hreleased⟩ := distribution_returns hs hactive hc hz (k := k)
          rw [if_neg hz, ht, ok_bind, hreleased]
          exact returns_ok _

theorem sound_distribution (hs : Sound s) (hactive : s.releaseSchedule.active = true) {c : Coin}
    {t : State} {released : Coin} (hc : calculateReward blockTime s.releaseSchedule = .ok c)
    (hz : ¬ c.isZero = true) (ht : release k s c = .ok t)
    (hreleased : s.releaseSchedule.releasedAmount.add c = .ok released) :
    Sound { t with releaseSchedule := { s.releaseSchedule with
      lastReleaseTime := blockTime, releasedAmount := released } } := by
  have hw := hs.schedule
  obtain ⟨hd, hpos, hle⟩ := calculateReward_amount hw (hw.denom_valid hactive) hc hz
  obtain ⟨_, bank, hbank, pool, hpool, rfl⟩ := release_eq_ok.mp ht
  obtain ⟨hfits, h0, rfl⟩ := DecCoins.sub_eq_ok.mp hpool
  obtain ⟨_, hrd, hrv⟩ := Coin.add_eq_ok.mp hreleased
  have hcovered := hs.covered
  unfold ReleaseSchedule.remaining at hle hcovered
  constructor
  · have hnonneg := hw.released_nonneg
    exact ⟨hrd.trans hw.denom_eq, by dsimp only; omega, by dsimp only; omega, hw.denom_valid⟩
  · simp only [ReleaseSchedule.remaining, DecCoins.amountOf_put, if_pos hd, hrv]
    rw [hd]
    linarith
  · intro d
    simp only [DecCoins.amountOf_put]
    split_ifs
    · exact h0
    · exact hs.pool_nonneg d
  · intro d
    simp only [DecCoins.amountOf_put]
    split_ifs
    · exact hfits
    · exact hs.pool_fits d
  · intro d
    have hb := Ledger.le_transfer_balance hbank (.module moduleName) d
    have hbacked := hs.backed d
    simp only [DecCoins.amountOf_put, legacyFormat_scale] at hbacked ⊢
    by_cases he : c.denom = d
    · subst he
      rw [if_pos rfl] at hb ⊢
      dsimp only
      omega
    · rw [if_neg (Ne.symm he)] at hb
      rw [if_neg he]
      omega

theorem sound_beginBlocker (hs : Sound s) (h : beginBlocker k blockTime s = .ok s') : Sound s' := by
  obtain ⟨sent, sch, t, hadvances, hpaid, rfl⟩ := beginBlocker_advances h
  have hw := hs.schedule
  cases hadvances with
  | idle _ =>
      cases hpaid
      exact hs
  | started _ _ =>
      cases hpaid
      exact ⟨⟨hw.1, hw.2, hw.3, hw.4⟩, hs.covered, hs.pool_nonneg, hs.pool_fits, hs.backed⟩
  | exhausted _ _ _ _ =>
      cases hpaid
      exact ⟨⟨hw.1, hw.2, hw.3, by simp⟩, hs.covered, hs.pool_nonneg, hs.pool_fits, hs.backed⟩
  | paid hlive _ hc hz hreleased =>
      exact sound_distribution hs (live_iff.mp hlive).1 hc hz hpaid hreleased

end BeginBlocker

section Messages

variable {k : Keeper} {ctx : Context} {s s' : State}

theorem validateAmount_eq_ok {c : Coin} {u : Unit} :
    validateAmount c = .ok u ↔ validDenom c.denom = true ∧ 0 ≤ c.amount.val := by
  rw [← Coin.validate_eq_ok (u := u), validateAmount]
  cases h : c.validate with
  | ok a => simp
  | error e => simp [fail]

theorem validateReleasedAmount_eq_ok {sch : ReleaseSchedule} {u : Unit}
    (h : validateReleasedAmount sch = .ok u) (htotal : 0 ≤ sch.totalAmount.amount.val) :
    sch.releasedAmount.denom = sch.totalAmount.denom ∧ 0 ≤ sch.releasedAmount.amount.val ∧
      sch.releasedAmount.amount.val ≤ sch.totalAmount.amount.val := by
  simp only [validateReleasedAmount, bind_eq_ok, ensure_eq_ok, exists_const] at h
  obtain ⟨hd, h⟩ := h
  by_cases hz : sch.releasedAmount.isZero = true
  · have hz0 : sch.releasedAmount.amount.val = 0 := by simpa [Coin.isZero] using hz
    exact ⟨hd, hz0.ge, hz0.trans_le htotal⟩
  · rw [if_neg hz] at h
    simp only [bind_eq_ok, wrapped_eq_ok, validateAmount_eq_ok, ensure_eq_ok, exists_const] at h
    exact ⟨hd, h.1.2, BoundedInt.le_iff.mp h.2⟩

/-- An accepted schedule is well formed and leaves the time fields as sent. -/
theorem validateSchedule_wellFormed {sch : ReleaseSchedule} {u : Unit}
    (h : validateSchedule ctx s sch = .ok u) : sch.WellFormed := by
  simp only [validateSchedule, bind_eq_ok, wrapped_eq_ok, validateAmount_eq_ok,
    exists_const] at h
  obtain ⟨⟨hvalid, htotal⟩, _, _, _, hreleased, _⟩ := h
  obtain ⟨hd, h0, hle⟩ := validateReleasedAmount_eq_ok hreleased htotal
  exact ⟨hd, h0, hle, fun _ => hvalid⟩

theorem fundsAvailable_eq_ok {c : Coin} {u : Unit} :
    fundsAvailable s c = .ok u ↔
      c.amount.val * legacyFormat.scale ≤ (DecCoins.amountOf s.rewardPool c.denom).raw := by
  simp only [fundsAvailable, ensure_eq_ok, not_lt, Decimal.le_iff, Decimal.ofInt]

theorem sound_changeSchedule {msg : MsgChangeSchedule} (hs : Sound s)
    (h : changeSchedule k ctx s msg = .ok s') : Sound s' := by
  simp only [changeSchedule, bind_eq_ok, wrapped_eq_ok, fundsAvailable_eq_ok, exists_const,
    pure_eq_ok, Except.ok.injEq] at h
  obtain ⟨_, _, _, hvalid, hfunds, rfl⟩ := h
  have hw := validateSchedule_wellFormed hvalid
  refine ⟨hw, ?_, hs.pool_nonneg, hs.pool_fits, hs.backed⟩
  apply le_trans _ hfunds
  exact mul_le_mul_of_nonneg_right (sub_le_self _ hw.released_nonneg) (by positivity)

theorem sound_updateParams {msg : MsgUpdateParams} (hs : Sound s)
    (h : updateParams k s msg = .ok s') : Sound s' := by
  simp only [updateParams, bind_eq_ok, pure_eq_ok, Except.ok.injEq] at h
  obtain ⟨_, _, _, _, rfl⟩ := h
  exact ⟨hs.schedule, hs.covered, hs.pool_nonneg, hs.pool_fits, hs.backed⟩

theorem sound_fundPool {msg : MsgFundPool} (hs : Sound s) (hsign : canSign k msg.sender = true)
    (h : fundPool k s msg = .ok s') : Sound s' := by
  simp only [fundPool, fundCommunityPool, bind_eq_ok, require_eq_ok, ensure_eq_ok, exists_const,
    DecCoins.add_eq_ok, pure_eq_ok, Except.ok.injEq] at h
  obtain ⟨a, ha, _, _, _, ⟨_, hpos⟩, bank, hbank, _, ⟨hfits, rfl⟩, rfl⟩ := h
  have hne : a ≠ .module moduleName := by
    rintro rfl
    simp [canSign, ha] at hsign
  have hnonneg := hs.pool_nonneg msg.amount.denom
  have hamount : 0 ≤ msg.amount.amount.val * legacyFormat.scale := by positivity
  constructor
  · exact hs.schedule
  · apply hs.covered.trans
    simp only [DecCoins.amountOf_put]
    split_ifs with hd
    · rw [← hd]
      dsimp only
      omega
    · exact le_rfl
  · intro d
    simp only [DecCoins.amountOf_put]
    split_ifs
    · dsimp only
      omega
    · exact hs.pool_nonneg d
  · intro d
    simp only [DecCoins.amountOf_put]
    split_ifs
    · exact hfits
    · exact hs.pool_fits d
  · intro d
    have hb := Ledger.send_balance_other hne hbank d
    have hbacked := hs.backed d
    simp only [DecCoins.amountOf_put, legacyFormat_scale] at hbacked ⊢
    by_cases he : msg.amount.denom = d
    · subst he
      rw [if_pos rfl] at hb ⊢
      dsimp only
      omega
    · rw [if_neg (Ne.symm he)] at hb
      rw [if_neg he]
      omega

end Messages

theorem sound_rolledBack {s : State} {x : Exec State} (hs : Sound s)
    (h : ∀ t, x = .ok t → Sound t) : Sound (rolledBack s x) := by
  obtain ⟨_, hr⟩ | hr := rolledBack_cases s x
  · rw [hr]
    exact hs
  · exact h _ hr

theorem sound_step {k : Keeper} (s : State) (e : Event) (s' : State) (hs : Sound s)
    (h : step k s e = .ok s') : Sound s' := by
  cases e with
  | fundPool msg =>
      cases h
      by_cases hsign : canSign k msg.sender = true
      · rw [if_pos hsign]
        exact sound_rolledBack hs (fun _ ht => sound_fundPool hs hsign ht)
      · rw [if_neg hsign]
        exact hs
  | changeSchedule ctx msg =>
      cases h
      exact sound_rolledBack hs (fun _ ht => sound_changeSchedule hs ht)
  | updateParams msg =>
      cases h
      exact sound_rolledBack hs (fun _ ht => sound_updateParams hs ht)
  | beginBlock blockTime => exact sound_beginBlocker hs h

/-- Only blocks can fail, and only on an unpaced schedule. -/
def StepReleasable (s : State) : Event → Prop
  | .beginBlock blockTime => Releasable blockTime s
  | _ => True

theorem returns_step_iff {k : Keeper} (s : State) (e : Event) (hs : Sound s) :
    Returns (step k s e) ↔ StepReleasable s e := by
  cases e with
  | beginBlock blockTime => exact returns_beginBlocker_iff hs
  | fundPool msg => simp [step, StepReleasable]
  | changeSchedule ctx msg => simp [step, StepReleasable]
  | updateParams msg => simp [step, StepReleasable]

/-- From the default genesis, over any bank, a sequence of messages and blocks
runs without a failing begin blocker exactly when every block finds the schedule
releasable at its time. -/
theorem run_returns_iff_releasable (k : Keeper) (bank : Ledger Account String)
    (es : List Event) :
    Returns (Runs.run (step k) (defaultGenesis bank) es) ↔
      Runs.Along (step k) StepReleasable (defaultGenesis bank) es :=
  Runs.returns_run_iff sound_step returns_step_iff (sound_defaultGenesis bank) es

namespace HaltingRun

def keeper : Keeper := ⟨"gov", "fee_collector", fun address => some (.user address)⟩

def bank : Ledger Account String where
  balance a d := if a = .user "alice" ∧ d = "akii" then 1000 else 0
  locked _ _ := 0
  supply d := if d = "akii" then 1000 else 0

def start : ℤ := 63900000000000000000

def amount : SdkInt := ⟨1000, by norm_num⟩

/-- A schedule of 1000 akii that ends half a second after the first block. -/
def schedule : ReleaseSchedule :=
  ⟨⟨"akii", amount⟩, ⟨"akii", 0⟩, start + 500000000, 0, true⟩

def accepted : List Event :=
  [.fundPool ⟨"alice", ⟨"akii", amount⟩⟩,
    .changeSchedule ⟨start - 2000000000, start - 1000000000, start - 1000000000⟩ ⟨"gov", schedule⟩,
    .beginBlock start]

/-- Funding, scheduling and two blocks a second apart: the second block panics. -/
theorem second_block_panics :
    Runs.run (step keeper) (defaultGenesis bank) (accepted ++ [.beginBlock (start + 1000000000)]) =
      .error (.panic "division by zero") := by
  obtain ⟨t, ht, hsch⟩ : ∃ t, Runs.run (step keeper) (defaultGenesis bank) accepted = .ok t ∧
      t.releaseSchedule = { schedule with lastReleaseTime := start } := ⟨_, rfl, rfl⟩
  have hreward : calculateReward (start + 1000000000) t.releaseSchedule =
      .error (.panic "division by zero") := by
    rw [hsch]
    apply calculateReward_panics
    · exact ⟨rfl, by decide, by decide, fun _ => by decide⟩
    · decide
    · decide
    · decide
  rw [Runs.run_append, ht, ok_bind, Runs.run_cons, step, beginBlocker, hreward, hsch]
  rfl

end HaltingRun

end Kiichain.Rewards
