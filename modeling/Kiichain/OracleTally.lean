import Kiichain.OracleIterationOrder

/-!
# What a tally computes

The median of a ballot is one of its rates, its deviation is small enough never
to overflow on its own, and the tally of a ballot panics exactly when the upper
end of its reward band does not fit.
-/

namespace Kiichain.Oracle
open GoExec FixedPoint

namespace Ballot

section Median

/-- The median is the rate of a vote, as soon as the votes reach half. -/
theorem exists_vote_of_medianFrom {half pivot : ℤ} {b : Ballot} (hb : b ≠ [])
    (h : half ≤ pivot + power b) : ∃ v ∈ b, v.exchangeRate = medianFrom half pivot b := by
  induction b generalizing pivot with
  | nil => exact absurd rfl hb
  | cons v b ih =>
      by_cases hv : half ≤ pivot + v.power
      · refine ⟨v, List.mem_cons_self, ?_⟩
        rw [medianFrom, if_pos hv]
      · have hpower : power (v :: b) = v.power + power b := by simp [power]
        have hne : b ≠ [] := by
          rintro rfl
          apply hv
          simpa [power] using h
        obtain ⟨w, hw, heq⟩ := @ih (pivot + v.power) hne (by omega)
        refine ⟨w, List.mem_cons_of_mem v hw, ?_⟩
        rw [medianFrom, if_neg hv, heq]

def median (b : Ballot) : LegacyDec := medianFrom ((power b).tdiv 2) 0 b

theorem weightedMedianWithAssertion_eq {b : Ballot} (h : IsSorted b) :
    b.weightedMedianWithAssertion = .ok b.median := by
  rw [weightedMedianWithAssertion, ensure_of h]
  rfl

theorem exists_vote_of_median {b : Ballot} (hb : b ≠ []) (hpower : ∀ v ∈ b, 0 ≤ v.power) :
    ∃ v ∈ b, v.exchangeRate = b.median := by
  apply exists_vote_of_medianFrom hb
  rw [zero_add]
  exact Int.tdiv_le_self _ (power_nonneg hpower)

end Median

section Deviation

variable (rt : Runtime) (b : Ballot) (m : LegacyDec)

theorem noError_deviationOf : NoError (deviationOf rt b m) := by
  apply noError_bind
  · apply noError_foldlM
    intro sum v
    apply noError_bind (Decimal.noError_checked _)
    intro deviation
    apply noError_bind (Decimal.noError_checked _)
    intro square
    exact Decimal.noError_checked _
  · intro sum
    apply noError_bind
    · intro text h
      unfold Decimal.quoInt ensure at h
      split_ifs at h <;> cases h
    · exact fun _ => noError_pure _

/-- The value of the deviation, which always returns. -/
def deviation : LegacyDec := (standardDeviation rt b m).toOption.getD 0

theorem standardDeviation_eq : standardDeviation rt b m = .ok (deviation rt b m) := by
  unfold deviation
  by_cases hb : b = []
  · rw [standardDeviation, if_pos hb]
    rfl
  · rw [standardDeviation, if_neg hb]
    obtain ⟨x, hx, _⟩ := recovered_eq_ok_of (noError_deviationOf rt b m) (a := 0)
    rw [hx]
    rfl

theorem deviation_cases :
    (∃ x, deviationOf rt b m = .ok x ∧ deviation rt b m = x) ∨ deviation rt b m = 0 := by
  by_cases hb : b = []
  · apply Or.inr
    rw [deviation, standardDeviation, if_pos hb]
    rfl
  · obtain ⟨x, hx, hor⟩ := recovered_eq_ok_of (noError_deviationOf rt b m) (a := 0)
    have hdev : deviation rt b m = x := by
      rw [deviation, standardDeviation, if_neg hb, hx]
      rfl
    obtain hok | rfl := hor
    · exact Or.inl ⟨x, hok, hdev⟩
    · exact Or.inr hdev

variable {rt b m}

theorem sumOfSquares_bounds {sum : LegacyDec} (h : sumOfSquares m b = .ok sum) :
    0 ≤ sum.raw ∧ Decimal.Fits legacyFormat sum.raw := by
  apply foldlM_invariant (I := fun x : LegacyDec => 0 ≤ x.raw ∧ Decimal.Fits legacyFormat x.raw)
    _ ⟨le_rfl, Decimal.fits_zero⟩ h
  intro acc v _ acc' hacc hstep
  simp only [bind_eq_ok, Decimal.mul_eq_ok, Decimal.add_eq_ok] at hstep
  obtain ⟨dev, _, square, ⟨_, rfl⟩, hfits, rfl⟩ := hstep
  exact ⟨add_nonneg hacc.1 (chop_nonneg _ (mul_self_nonneg dev.raw)), hfits⟩

variable (rt b m) in
theorem deviation_nonneg : 0 ≤ (deviation rt b m).raw := by
  obtain ⟨x, hx, heq⟩ | heq := deviation_cases rt b m
  · simp only [deviationOf, bind_eq_ok, pure_eq_ok, Except.ok.injEq] at hx
    obtain ⟨_, _, variance, _, rfl⟩ := hx
    rw [heq]
    exact rt.sqrt_nonneg variance
  · rw [heq]
    exact le_rfl

variable (rt b m) in
/-- The square of a deviation is about a variance, which fits by itself. -/
theorem deviation_sq_lt :
    (deviation rt b m).raw ^ 2 ≤ 4 * (2 ^ legacyFormat.bits * legacyFormat.scale) +
      legacyFormat.scale ^ 2 := by
  obtain ⟨x, hx, heq⟩ | heq := deviation_cases rt b m
  · simp only [deviationOf, bind_eq_ok, pure_eq_ok, Except.ok.injEq, Decimal.quoInt_eq_ok] at hx
    obtain ⟨sum, hsum, variance, ⟨_, rfl⟩, rfl⟩ := hx
    obtain ⟨h0, hfits⟩ := sumOfSquares_bounds hsum
    have hlen : (0 : ℤ) ≤ b.length := Int.natCast_nonneg _
    have hvar : sum.raw.tdiv b.length ≤ 2 ^ legacyFormat.bits := by
      calc sum.raw.tdiv b.length ≤ sum.raw := Int.tdiv_le_self _ h0
        _ ≤ 2 ^ legacyFormat.bits := by
          unfold Decimal.Fits at hfits
          zify at hfits
          rw [abs_of_nonneg h0] at hfits
          exact hfits.le
    have hsq := rt.sqrt_sq_le ⟨sum.raw.tdiv b.length⟩ (Int.tdiv_nonneg h0 hlen)
    rw [heq]
    apply hsq.trans
    gcongr
  · rw [heq]
    simp only [Decimal.raw_zero]
    positivity

end Deviation

section Spread

variable (rt : Runtime) (rewardBand : LegacyDec)

/-- Half the reward band of the median, or the deviation where that is larger. -/
def spread (b : Ballot) : LegacyDec :=
  max ⟨chop legacyFormat.scale (b.median.raw * rewardBand.raw.tdiv 2)⟩ (deviation rt b b.median)

/-- The rate lies in the reward band of the ballot. -/
def InBand (b : Ballot) (rate : LegacyDec) : Prop :=
  b.median.raw - (b.spread rt rewardBand).raw ≤ rate.raw ∧
    rate.raw ≤ b.median.raw + (b.spread rt rewardBand).raw

instance (b : Ballot) (rate : LegacyDec) : Decidable (b.InBand rt rewardBand rate) :=
  inferInstanceAs (Decidable (_ ∧ _))

/-- The upper end of the reward band fits. -/
def BandFits (b : Ballot) : Prop :=
  Decimal.Fits legacyFormat (b.median.raw + (b.spread rt rewardBand).raw)

instance (b : Ballot) : Decidable (b.BandFits rt rewardBand) :=
  inferInstanceAs (Decidable (Decimal.Fits _ _))

variable {rt rewardBand} {b : Ballot}

theorem halfBand_spread_le (h0 : 0 ≤ b.median.raw) (hband : 0 ≤ rewardBand.raw)
    (hband1 : rewardBand.raw ≤ 1000000000000000000) :
    0 ≤ chop legacyFormat.scale (b.median.raw * rewardBand.raw.tdiv 2) ∧
      chop legacyFormat.scale (b.median.raw * rewardBand.raw.tdiv 2) ≤ b.median.raw := by
  have hhalf0 : 0 ≤ rewardBand.raw.tdiv 2 := Int.tdiv_nonneg hband (by norm_num)
  have hhalf : rewardBand.raw.tdiv 2 ≤ legacyFormat.scale :=
    (Int.tdiv_le_self 2 hband).trans hband1
  have hprod := mul_nonneg h0 hhalf0
  refine ⟨chop_nonneg _ hprod, ?_⟩
  calc chop legacyFormat.scale (b.median.raw * rewardBand.raw.tdiv 2)
      ≤ chop legacyFormat.scale (legacyFormat.scale * b.median.raw) := by
        apply chop_mono_of_nonneg legacyFormat.scale_pos hprod
        rw [mul_comm]
        exact mul_le_mul_of_nonneg_right hhalf h0
    _ = b.median.raw := chop_mul_self legacyFormat.scale_pos _

variable (rt rewardBand b) in
theorem spread_nonneg : 0 ≤ (b.spread rt rewardBand).raw :=
  (deviation_nonneg rt b b.median).trans (Decimal.le_iff.mp (le_max_right _ _))

theorem rewardSpread_eq (h0 : 0 ≤ b.median.raw) (hfits : Decimal.Fits legacyFormat b.median.raw)
    (hband : 0 ≤ rewardBand.raw) (hband1 : rewardBand.raw ≤ 1000000000000000000) :
    rewardSpread rt rewardBand b b.median = .ok (b.spread rt rewardBand) := by
  obtain ⟨hs0, hs⟩ := halfBand_spread_le (b := b) h0 hband hband1
  have hmul : b.median.mul ⟨rewardBand.raw.tdiv 2⟩ =
      .ok ⟨chop legacyFormat.scale (b.median.raw * rewardBand.raw.tdiv 2)⟩ :=
    Decimal.mul_eq_ok.mpr ⟨hfits.of_le hs0 hs, rfl⟩
  have hquo : rewardBand.quoInt 2 = .ok ⟨rewardBand.raw.tdiv 2⟩ :=
    Decimal.quoInt_eq_ok.mpr ⟨by norm_num, rfl⟩
  rw [rewardSpread, standardDeviation_eq, ok_bind, hquo, ok_bind, hmul, ok_bind, pure_eq_ok,
    spread, max_def']
  congr 1
  split_ifs with h1 h2 h2
  · exact absurd h1 (not_lt.mpr h2)
  · rfl
  · rfl
  · exact absurd (lt_of_not_ge h2) h1

variable (rt b) in
theorem two_mul_deviation_lt (m : LegacyDec) :
    2 * (deviation rt b m).raw < 2 ^ legacyFormat.bits := by
  have hsq := deviation_sq_lt rt b m
  have h0 := deviation_nonneg rt b m
  have hlarge : (32 : ℤ) * legacyFormat.scale ≤ 2 ^ legacyFormat.bits := by
    have hbits : (2 : ℤ) ^ legacyFormat.bits = 2 ^ 256 * 2 ^ 60 := by exact_mod_cast two_pow_bits
    rw [hbits, legacyFormat_scale]
    norm_num
  have hscale : (0 : ℤ) < legacyFormat.scale := by norm_num
  generalize (2 : ℤ) ^ legacyFormat.bits = bound at hsq hlarge ⊢
  generalize (legacyFormat.scale : ℤ) = scale at hsq hlarge hscale
  by_contra! hge
  have hbound : 0 < bound := by linarith
  have h1 : bound ^ 2 ≤ 4 * (deviation rt b m).raw ^ 2 := by nlinarith
  have h2 : 32 * scale * bound ≤ bound ^ 2 := by nlinarith
  have h3 : 32 * scale * scale ≤ scale * bound := by nlinarith
  nlinarith

/-- Of a rate up to the bound that votes meet, the reward band always fits. -/
theorem bandFits_of_lt (h0 : 0 ≤ b.median.raw) (hm : 2 * b.median.raw < 2 ^ legacyFormat.bits)
    (hband : 0 ≤ rewardBand.raw) (hband1 : rewardBand.raw ≤ 1000000000000000000) :
    b.BandFits rt rewardBand := by
  have hs := (halfBand_spread_le (b := b) h0 hband hband1).2
  have hd := two_mul_deviation_lt rt b b.median
  have hle : 2 * (b.spread rt rewardBand).raw < 2 ^ legacyFormat.bits := by
    unfold spread
    rcases max_choice (⟨chop legacyFormat.scale (b.median.raw * rewardBand.raw.tdiv 2)⟩ : LegacyDec)
      (deviation rt b b.median) with h | h
    · rw [h]
      linarith
    · rw [h]
      exact hd
  have h1 := spread_nonneg rt rewardBand b
  unfold BandFits Decimal.Fits
  zify
  rw [abs_of_nonneg (add_nonneg h0 h1)]
  linarith

end Spread

end Ballot

section Tally

variable {rt : Runtime} {rewardBand : LegacyDec}

theorem inBand_eq {m spread : LegacyDec} (hm : 0 ≤ m.raw) (hs : 0 ≤ spread.raw)
    (hfits : Decimal.Fits legacyFormat (m.raw + spread.raw)) (rate : LegacyDec) :
    inBand m spread rate =
      .ok (decide (m.raw - spread.raw ≤ rate.raw ∧ rate.raw ≤ m.raw + spread.raw)) := by
  have hsub : m.sub spread = .ok ⟨m.raw - spread.raw⟩ := by
    apply Decimal.sub_eq_ok.mpr
    unfold Decimal.Fits at hfits ⊢
    exact ⟨by omega, rfl⟩
  have hadd : m.add spread = .ok ⟨m.raw + spread.raw⟩ := Decimal.add_eq_ok.mpr ⟨hfits, rfl⟩
  rw [inBand, hsub, ok_bind, hadd]
  by_cases hlower : m.raw - spread.raw ≤ rate.raw
  · rw [if_pos (Decimal.le_iff.mpr hlower), ok_bind, pure_eq_ok]
    congr 1
    simp [hlower, Decimal.le_iff]
  · rw [if_neg (fun h => hlower (Decimal.le_iff.mp h)), pure_eq_ok]
    congr 1
    simp [hlower]

/-- The vote of the median meets the lower end, so the upper end is computed. -/
theorem fits_of_returns_inBand {m spread : LegacyDec} (hs : 0 ≤ spread.raw)
    (h : Returns (inBand m spread m)) : Decimal.Fits legacyFormat (m.raw + spread.raw) := by
  obtain ⟨wins, hwins⟩ := h
  simp only [inBand, bind_eq_ok, Decimal.sub_eq_ok] at hwins
  obtain ⟨lower, ⟨_, rfl⟩, hwins⟩ := hwins
  rw [if_pos (Decimal.le_iff.mpr (by change m.raw - spread.raw ≤ m.raw; omega)), bind_eq_ok] at hwins
  obtain ⟨upper, hupper, _⟩ := hwins
  exact (Decimal.add_eq_ok.mp hupper).1

/-- What the ballots that reach a tally have in common. -/
structure Ballot.WellFormed (b : Ballot) : Prop where
  ne_nil : b ≠ []
  sorted : b.IsSorted
  power_nonneg : ∀ v ∈ b, 0 ≤ v.power
  rate_nonneg : ∀ v ∈ b, 0 ≤ v.exchangeRate.raw
  rate_fits : ∀ v ∈ b, Decimal.Fits legacyFormat v.exchangeRate.raw

theorem Ballot.WellFormed.median_bounds {b : Ballot} (hb : b.WellFormed) :
    0 ≤ b.median.raw ∧ Decimal.Fits legacyFormat b.median.raw := by
  obtain ⟨v, hv, heq⟩ := Ballot.exists_vote_of_median hb.ne_nil hb.power_nonneg
  rw [← heq]
  exact ⟨hb.rate_nonneg v hv, hb.rate_fits v hv⟩

def rewardVotes (wins : LegacyDec → Bool) (l : Ballot) (claims : ClaimMap) : ClaimMap :=
  l.foldl (fun claims v => claims.insert v.voter
    (rewardClaim ((claims.get? v.voter).getD zeroClaim) v.power (wins v.exchangeRate))) claims

/-- The claims after the tally of a ballot. -/
def Ballot.reward (rt : Runtime) (rewardBand : LegacyDec) (b : Ballot) (claims : ClaimMap) :
    ClaimMap :=
  rewardVotes (fun rate => decide (b.InBand rt rewardBand rate)) b claims

section Returns

variable {b : Ballot} (hb : b.WellFormed) (hband : 0 ≤ rewardBand.raw)
  (hband1 : rewardBand.raw ≤ 1000000000000000000)
include hb hband hband1

theorem tally_unfold (claims : ClaimMap) :
    tally rt rewardBand b claims = (do
      let claims ← b.foldlM (tallyVote b.median (b.spread rt rewardBand)) claims
      pure (b.median, claims)) := by
  obtain ⟨h0, hfits⟩ := hb.median_bounds
  rw [tally, Ballot.weightedMedianWithAssertion_eq hb.sorted, ok_bind,
    Ballot.rewardSpread_eq h0 hfits hband hband1, ok_bind]

theorem tally_eq (hfits : b.BandFits rt rewardBand) (claims : ClaimMap) :
    tally rt rewardBand b claims = .ok (b.median, b.reward rt rewardBand claims) := by
  have hvote : ∀ claims, ∀ v ∈ b, tallyVote b.median (b.spread rt rewardBand) claims v =
      .ok (claims.insert v.voter (rewardClaim ((claims.get? v.voter).getD zeroClaim) v.power
        (decide (b.InBand rt rewardBand v.exchangeRate)))) := by
    intro claims v _
    rw [tallyVote, inBand_eq hb.median_bounds.1 (Ballot.spread_nonneg _ _ _) hfits, ok_bind, pure_eq_ok]
    rfl
  rw [tally_unfold hb hband hband1, foldlM_eq_ok_foldl hvote, ok_bind, pure_eq_ok]
  rfl

theorem returns_tally_iff (claims : ClaimMap) :
    Returns (tally rt rewardBand b claims) ↔ b.BandFits rt rewardBand := by
  constructor
  · intro h
    rw [tally_unfold hb hband hband1, returns_bind] at h
    obtain ⟨_, hloop, _⟩ := h
    have hturn : ∀ claims, ∀ v ∈ b, Returns (tallyVote b.median (b.spread rt rewardBand) claims v) ↔
        Returns (inBand b.median (b.spread rt rewardBand) v.exchangeRate) := by
      exact fun claims v _ => returns_bind_pure
    obtain ⟨v, hv, heq⟩ := Ballot.exists_vote_of_median hb.ne_nil hb.power_nonneg
    have hmedian := (returns_foldlM_iff hturn claims).mp ⟨_, hloop⟩ v hv
    rw [heq] at hmedian
    exact fits_of_returns_inBand (Ballot.spread_nonneg _ _ _) hmedian
  · intro h
    exact ⟨_, tally_eq hb hband hband1 h claims⟩

end Returns

section Rewards

/-- How often an operator votes inside the reward band of a ballot. -/
def Ballot.winsOf (rt : Runtime) (rewardBand : LegacyDec) (b : Ballot) (a : ValAddress) : ℕ :=
  b.countP (fun v => v.voter = a ∧ b.InBand rt rewardBand v.exchangeRate)

def Ballot.hasVoter (b : Ballot) (a : ValAddress) : Bool := b.any (fun v => v.voter = a)

theorem Ballot.hasVoter_iff {b : Ballot} {a : ValAddress} :
    b.hasVoter a = true ↔ ∃ v ∈ b, v.voter = a := by simp [hasVoter]

theorem get?_rewardVotes (wins : LegacyDec → Bool) (l : Ballot) {claims : ClaimMap}
    {a : ValAddress} {c : Claim} (hc : claims.get? a = some c) :
    ∃ weight, (rewardVotes wins l claims).get? a = some ⟨c.power, weight,
      c.winCount + l.countP (fun v => v.voter = a ∧ wins v.exchangeRate),
      c.didVote || Ballot.hasVoter l a, c.recipient⟩ := by
  induction l generalizing claims c with
  | nil => exact ⟨c.weight, by simpa [rewardVotes, Ballot.hasVoter] using hc⟩
  | cons v l ih =>
      by_cases hv : v.voter = a
      · have hnext : (claims.insert v.voter (rewardClaim ((claims.get? v.voter).getD zeroClaim)
            v.power (wins v.exchangeRate))).get? a =
            some (rewardClaim c v.power (wins v.exchangeRate)) := by
          rw [hv, SortedMap.get?_insert_self, hc, Option.getD_some]
        obtain ⟨weight, hw⟩ := ih hnext
        refine ⟨weight, ?_⟩
        change (rewardVotes wins l _).get? a = _
        rw [hw]
        cases hwin : wins v.exchangeRate <;>
          simp [rewardClaim, hwin, hv, Ballot.hasVoter]
        ring
      · have hnext : (claims.insert v.voter (rewardClaim ((claims.get? v.voter).getD zeroClaim)
            v.power (wins v.exchangeRate))).get? a = some c := by
          rw [SortedMap.get?_insert_ne _ _ hv, hc]
        obtain ⟨weight, hw⟩ := ih hnext
        refine ⟨weight, ?_⟩
        change (rewardVotes wins l _).get? a = _
        rw [hw]
        simp [hv, Ballot.hasVoter]

theorem get?_rewardVotes_none (wins : LegacyDec → Bool) (l : Ballot) {claims : ClaimMap}
    {a : ValAddress} (hc : claims.get? a = none) (hl : ∀ v ∈ l, v.voter ≠ a) :
    (rewardVotes wins l claims).get? a = none := by
  induction l generalizing claims with
  | nil => exact hc
  | cons v l ih =>
      apply ih
      · rw [SortedMap.get?_insert_ne _ _ (hl v List.mem_cons_self), hc]
      · exact fun w hw => hl w (List.mem_cons_of_mem v hw)

end Rewards

end Tally

end Kiichain.Oracle
