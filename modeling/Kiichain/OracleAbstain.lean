import Kiichain.OracleRuntime
import Kiichain.OracleTally
import Mathlib.Analysis.Real.Sqrt

/-!
# Abstentions in a tally

With the standard deviation as the exact root of the mean squared deviation, a
vote lies in the band where it is as near to the median as half the reward band,
or its squared distance does not exceed the mean. A vote without rate and power
counts in that mean like any other.
-/

namespace Kiichain.Oracle
open GoExec FixedPoint

/-- What the cross rate makes of a vote that it cannot convert. -/
def VoteForTally.Abstains (v : VoteForTally) : Prop := v.exchangeRate.raw = 0 ∧ v.power = 0

instance (v : VoteForTally) : Decidable v.Abstains := inferInstanceAs (Decidable (_ ∧ _))

/-- A vote with power for a rate. -/
def VoteForTally.Positive (v : VoteForTally) : Prop := 0 < v.power ∧ 0 < v.exchangeRate.raw

instance (v : VoteForTally) : Decidable v.Positive := inferInstanceAs (Decidable (_ ∧ _))

namespace Ballot

section Band

variable (rewardBand : LegacyDec) (b : Ballot)

/-- The sum of the squared deviations. -/
def squares (m : LegacyDec) : ℤ := (b.map (fun v => (v.exchangeRate.raw - m.raw) ^ 2)).sum

noncomputable def exactDeviation (m : LegacyDec) : ℝ := √(b.squares m / b.length)

/-- Half the reward band, of the median. -/
def halfBand : ℤ := chop legacyFormat.scale (b.median.raw * rewardBand.raw.tdiv 2)

noncomputable def exactSpread : ℝ := max (b.halfBand rewardBand : ℝ) (b.exactDeviation b.median)

def InExactBand (rate : LegacyDec) : Prop :=
  b.median.raw - b.exactSpread rewardBand ≤ rate.raw ∧
    rate.raw ≤ b.median.raw + b.exactSpread rewardBand

/-- The rate is outside half the reward band and the standard deviation. -/
def Outlying (rate : LegacyDec) : Prop :=
  b.halfBand rewardBand < |rate.raw - b.median.raw| ∧
    b.squares b.median < b.length * (rate.raw - b.median.raw) ^ 2

instance (rate : LegacyDec) : Decidable (b.Outlying rewardBand rate) :=
  inferInstanceAs (Decidable (_ ∧ _))

variable {rewardBand b}

theorem squares_nonneg (m : LegacyDec) : 0 ≤ b.squares m := by
  apply List.sum_nonneg
  intro x hx
  obtain ⟨v, _, rfl⟩ := List.mem_map.mp hx
  exact sq_nonneg _

/-- The band is left exactly by the rates outside both of its spreads. -/
theorem not_inExactBand_iff (hb : b ≠ []) (rate : LegacyDec) :
    ¬ b.InExactBand rewardBand rate ↔ b.Outlying rewardBand rate := by
  have hlength : (0 : ℝ) < b.length := by exact_mod_cast List.length_pos_iff.mpr hb
  have hsquares : (0 : ℝ) ≤ b.squares b.median := by exact_mod_cast squares_nonneg b.median
  have hin : b.InExactBand rewardBand rate ↔
      |((rate.raw - b.median.raw : ℤ) : ℝ)| ≤ b.exactSpread rewardBand := by
    push_cast
    rw [abs_le, InExactBand]
    constructor <;> rintro ⟨hlo, hhi⟩ <;> constructor <;> linarith
  rw [hin, exactSpread, le_max_iff, exactDeviation,
    Real.le_sqrt (abs_nonneg _) (div_nonneg hsquares hlength.le), sq_abs,
    le_div_iff₀ hlength, mul_comm, not_or, not_le, not_le, Outlying]
  exact_mod_cast Iff.rfl

/-- The band is decided by squares. -/
instance (rate : LegacyDec) : Decidable (b.InExactBand rewardBand rate) :=
  if hb : b = [] then
    decidable_of_iff (rate.raw = 0) <| by
      subst hb
      have hmedian : median [] = 0 := rfl
      simp only [InExactBand, exactSpread, exactDeviation, halfBand, squares, hmedian]
      simp [le_antisymm_iff, and_comm]
  else
    decidable_of_iff (¬ b.Outlying rewardBand rate) <| by
      rw [← not_inExactBand_iff hb, not_not]

/-- The claims after a tally with the exact deviation. -/
def exactReward (rewardBand : LegacyDec) (b : Ballot) (claims : ClaimMap) : ClaimMap :=
  rewardVotes (fun rate => decide (b.InExactBand rewardBand rate)) b claims

/-- The ballot without its abstentions. -/
def others (b : Ballot) : Ballot := b.filter (fun v => ¬ v.Abstains)

/-- A tally counts wins only of votes with power and a rate, and abstentions do not
widen the band around the median. -/
def AbstentionsLose (rewardBand : LegacyDec) (b : Ballot) : Prop :=
  (∀ claims a c, claims.get? a = some c →
    ∃ weight, (b.exactReward rewardBand claims).get? a = some ⟨c.power, weight,
      c.winCount + b.countP (fun v => v.voter = a ∧ b.InExactBand rewardBand v.exchangeRate ∧
        v.Positive), c.didVote || b.hasVoter a, c.recipient⟩) ∧
    b.exactSpread rewardBand ≤ b.others.exactSpread rewardBand

/-- Votes without power or rate are outliers, and where some of them are abstentions
the median is positive and the deviation is at most half the reward band. -/
structure Contained (rewardBand : LegacyDec) (b : Ballot) : Prop where
  outlying : ∀ v ∈ b, ¬ v.Positive → ¬ v.Abstains → b.Outlying rewardBand v.exchangeRate
  narrow : (∃ v ∈ b, v.Abstains) → 0 < b.median.raw ∧
    b.squares b.median ≤ b.length * b.halfBand rewardBand ^ 2

end Band

section Others

variable {b : Ballot} {v : VoteForTally}

theorem others_cons_of_abstains (hv : v.Abstains) : others (v :: b) = others b := by
  simp [others, hv]

theorem others_cons_of_not_abstains (hv : ¬ v.Abstains) : others (v :: b) = v :: others b := by
  simp [others, hv]

/-- A positive median is that of the votes that do not abstain. -/
theorem medianFrom_others {half pivot : ℤ} (h : 0 < (medianFrom half pivot b).raw) :
    medianFrom half pivot b.others = medianFrom half pivot b := by
  induction b generalizing pivot with
  | nil => rfl
  | cons v b ih =>
      rw [medianFrom] at h ⊢
      by_cases hv : v.Abstains
      · rw [hv.2, add_zero] at h ⊢
        split_ifs at h ⊢
        · exact absurd hv.1 h.ne'
        · rw [others_cons_of_abstains hv]
          exact ih h
      · rw [others_cons_of_not_abstains hv, medianFrom]
        split_ifs at h ⊢
        · rfl
        · exact ih h

theorem power_others (b : Ballot) : power b.others = power b := by
  induction b with
  | nil => rfl
  | cons v b ih =>
      have hcons : ∀ l : Ballot, power (v :: l) = v.power + power l := fun l => by simp [power]
      by_cases hv : v.Abstains
      · rw [others_cons_of_abstains hv, hcons, hv.2, zero_add, ih]
      · rw [others_cons_of_not_abstains hv, hcons, hcons, ih]

theorem median_others (h : 0 < b.median.raw) : b.others.median = b.median := by
  unfold median at h ⊢
  rw [power_others]
  exact medianFrom_others h

theorem halfBand_others (h : 0 < b.median.raw) (rewardBand : LegacyDec) :
    b.others.halfBand rewardBand = b.halfBand rewardBand := by
  rw [halfBand, halfBand, median_others h]

/-- Half of a band up to one is less than a positive median. -/
theorem halfBand_lt {rewardBand : LegacyDec} (h : 0 < b.median.raw) (hband : 0 ≤ rewardBand.raw)
    (hband1 : rewardBand.raw ≤ 1000000000000000000) :
    b.halfBand rewardBand < b.median.raw := by
  have hhalf0 : 0 ≤ rewardBand.raw.tdiv 2 := Int.tdiv_nonneg hband (by norm_num)
  have hhalf : 2 * rewardBand.raw.tdiv 2 ≤ legacyFormat.scale := by
    rw [Int.tdiv_eq_ediv_of_nonneg hband, legacyFormat_scale]
    omega
  have hscale : (0 : ℤ) < legacyFormat.scale := by norm_num
  have hprod := mul_nonneg h.le hhalf0
  obtain hone | hmore : b.median.raw = 1 ∨ 2 ≤ b.median.raw := by omega
  · have hpos := chop_pos_iff legacyFormat.scale_pos hprod
    rw [halfBand, hone, one_mul] at *
    omega
  · have hbounds := (halfEven_bounds legacyFormat.scale_pos
      (b.median.raw * rewardBand.raw.tdiv 2).natAbs).1
    rw [halfBand, chop_of_nonneg _ hprod]
    generalize halfEven legacyFormat.scale (b.median.raw * rewardBand.raw.tdiv 2).natAbs = rounded
      at hbounds ⊢
    zify at hbounds
    rw [abs_of_nonneg hprod] at hbounds
    by_contra! hge
    nlinarith

/-- An abstention adds the square of the median to the deviations. -/
theorem squares_others (b : Ballot) (m : LegacyDec) : b.squares m =
    b.others.squares m + b.countP (fun v => v.Abstains) * m.raw ^ 2 := by
  induction b with
  | nil => simp [squares, others]
  | cons v b ih =>
      have hcons : ∀ l : Ballot, squares (v :: l) m =
          (v.exchangeRate.raw - m.raw) ^ 2 + squares l m := fun l => by simp [squares]
      by_cases hv : v.Abstains
      · rw [others_cons_of_abstains hv, hcons, ih, hv.1,
          List.countP_cons_of_pos (by simpa using hv)]
        push_cast
        ring
      · rw [others_cons_of_not_abstains hv, hcons, hcons, ih,
          List.countP_cons_of_neg (by simpa using hv), add_assoc]

theorem length_others (b : Ballot) :
    b.length = b.others.length + b.countP (fun v => v.Abstains) := by
  induction b with
  | nil => rfl
  | cons v b ih =>
      by_cases hv : v.Abstains
      · rw [others_cons_of_abstains hv, List.length_cons, ih,
          List.countP_cons_of_pos (by simpa using hv), add_assoc]
      · rw [others_cons_of_not_abstains hv, List.length_cons, List.length_cons, ih,
          List.countP_cons_of_neg (by simpa using hv)]
        omega

/-- Abstentions that lie outside the deviation are what widens it. -/
theorem exactDeviation_others_lt {m : LegacyDec} (hothers : b.others ≠ [])
    (habstains : ∃ v ∈ b, v.Abstains) (hout : b.squares m < b.length * m.raw ^ 2) :
    b.others.exactDeviation m < b.exactDeviation m := by
  have hcount : 0 < b.countP (fun v => v.Abstains) := by
    obtain ⟨v, hv, habstain⟩ := habstains
    exact List.countP_pos_iff.mpr ⟨v, hv, by simpa using habstain⟩
  have hlength : (0 : ℝ) < b.others.length := by exact_mod_cast List.length_pos_iff.mpr hothers
  have hsquares := squares_nonneg (b := b.others) m
  have hsum := squares_others b m
  have hlen := length_others b
  have hall : (0 : ℝ) < b.length := by
    rw [hlen]
    push_cast
    positivity
  apply Real.sqrt_lt_sqrt (div_nonneg (by exact_mod_cast hsquares) hlength.le)
  rw [div_lt_div_iff₀ hlength hall]
  -- with k abstentions, n (S - k m²) < (n - k) S where S < n m²
  have hcross : b.others.squares m * b.length < b.squares m * b.others.length := by
    have hrest : b.others.squares m = b.squares m - b.countP (fun v => v.Abstains) * m.raw ^ 2 := by
      omega
    have hrestLength : (b.others.length : ℤ) = b.length - b.countP (fun v => v.Abstains) := by
      omega
    rw [hrest, hrestLength]
    have hk : (0 : ℤ) < b.countP (fun v => v.Abstains) := by exact_mod_cast hcount
    nlinarith
  exact_mod_cast hcross

theorem others_of_none (h : ¬ ∃ v ∈ b, v.Abstains) : b.others = b := by
  apply List.filter_eq_self.mpr
  intro v hv
  simpa using fun habstains => h ⟨v, hv, habstains⟩

/-- Some vote does not abstain where the median is positive. -/
theorem others_ne_nil (h : 0 < b.median.raw) : b.others ≠ [] := by
  intro hnil
  have hmedian := median_others h
  rw [hnil] at hmedian
  rw [← hmedian] at h
  exact lt_irrefl _ h

theorem exactDeviation_le_iff {h : ℤ} (hb : b ≠ []) (hh : 0 ≤ h) (m : LegacyDec) :
    b.exactDeviation m ≤ h ↔ b.squares m ≤ b.length * h ^ 2 := by
  have hlength : (0 : ℝ) < b.length := by exact_mod_cast List.length_pos_iff.mpr hb
  rw [exactDeviation, Real.sqrt_le_left (by exact_mod_cast hh), div_le_iff₀ hlength, mul_comm]
  exact_mod_cast Iff.rfl

/-- The others keep their band exactly where the deviation is within half the reward
band, as soon as the abstentions are outliers. -/
theorem exactSpread_le_others_iff {rewardBand : LegacyDec} (habstains : ∃ v ∈ b, v.Abstains)
    (hhalf : 0 ≤ b.halfBand rewardBand) (h : 0 < b.median.raw)
    (hout : b.squares b.median < b.length * b.median.raw ^ 2) :
    b.exactSpread rewardBand ≤ b.others.exactSpread rewardBand ↔
      b.squares b.median ≤ b.length * b.halfBand rewardBand ^ 2 := by
  obtain ⟨v, hv, _⟩ := id habstains
  have hlt := exactDeviation_others_lt (others_ne_nil h) habstains hout
  rw [← exactDeviation_le_iff (List.ne_nil_of_mem hv) hhalf, exactSpread, exactSpread,
    median_others h, halfBand_others h]
  constructor
  · intro hle
    obtain hcase | hcase := le_max_iff.mp ((le_max_right _ _).trans hle)
    · exact hcase
    · exact absurd hcase (not_le.mpr hlt)
  · intro hle
    exact max_le (le_max_left _ _) (hle.trans (le_max_left _ _))

/-- As many elements meet both conditions as meet the first exactly where the first
implies the second. -/
theorem countP_eq_countP_and_iff {α : Type*} {l : List α} {p q : α → Prop} [DecidablePred p]
    [DecidablePred q] :
    l.countP (fun x => p x) = l.countP (fun x => p x ∧ q x) ↔ ∀ x ∈ l, p x → q x := by
  have hsplit := List.countP_eq_countP_filter_add l (fun x => decide (p x)) (fun x => decide (q x))
  rw [List.countP_filter, List.countP_filter] at hsplit
  have hboth : l.countP (fun x => decide (p x) && decide (q x)) = l.countP (fun x => p x ∧ q x) :=
    List.countP_congr (by simp)
  have hzero : l.countP (fun x => decide (p x) && !decide (q x)) = 0 ↔ ∀ x ∈ l, p x → q x := by
    simp [List.countP_eq_zero]
  rw [hboth] at hsplit
  rw [← hzero]
  omega

/-- Every win is that of a vote with power and a rate exactly where all votes in the
band are. -/
theorem wins_positive_iff {rewardBand : LegacyDec} : (∀ claims a c, claims.get? a = some c →
    ∃ weight, (b.exactReward rewardBand claims).get? a = some ⟨c.power, weight,
      c.winCount + b.countP (fun v => v.voter = a ∧ b.InExactBand rewardBand v.exchangeRate ∧
        v.Positive), c.didVote || b.hasVoter a, c.recipient⟩) ↔
      ∀ v ∈ b, b.InExactBand rewardBand v.exchangeRate → v.Positive := by
  have hcount : ∀ a, b.countP (fun v => v.voter = a ∧
      (decide (b.InExactBand rewardBand v.exchangeRate) = true)) = b.countP (fun v => v.voter = a ∧
        b.InExactBand rewardBand v.exchangeRate ∧ v.Positive) ↔
      ∀ v ∈ b, v.voter = a → b.InExactBand rewardBand v.exchangeRate → v.Positive := by
    intro a
    have hiff := countP_eq_countP_and_iff (l := b)
      (p := fun v => v.voter = a ∧ b.InExactBand rewardBand v.exchangeRate)
      (q := fun v => v.Positive)
    simpa only [decide_eq_true_eq, and_assoc, and_imp] using hiff
  constructor
  · intro hwins v hv
    have hclaim : (SortedMap.insert ∅ v.voter zeroClaim : ClaimMap).get? v.voter = some zeroClaim :=
      SortedMap.get?_insert_self _ _ _
    obtain ⟨weight, hw⟩ := hwins _ v.voter zeroClaim hclaim
    obtain ⟨weight', hw'⟩ := get?_rewardVotes
      (fun rate => decide (b.InExactBand rewardBand rate)) b hclaim
    rw [exactReward, hw'] at hw
    simp only [Option.some.injEq, Claim.mk.injEq, add_right_inj, Nat.cast_inj] at hw
    exact (hcount v.voter).mp hw.2.2.1 v hv rfl
  · intro hpositive claims a c hclaim
    obtain ⟨weight, hw⟩ := get?_rewardVotes
      (fun rate => decide (b.InExactBand rewardBand rate)) b hclaim
    refine ⟨weight, ?_⟩
    rw [exactReward, hw, (hcount a).mpr (fun v hv _ => hpositive v hv)]

end Others

section Lose

variable {rewardBand : LegacyDec} {b : Ballot}

theorem median_nonneg (hpower : ∀ v ∈ b, 0 ≤ v.power) (hrate : ∀ v ∈ b, 0 ≤ v.exchangeRate.raw) :
    0 ≤ b.median.raw := by
  by_cases hb : b = []
  · rw [hb]
    exact le_rfl
  · obtain ⟨v, hv, heq⟩ := exists_vote_of_median hb hpower
    rw [← heq]
    exact hrate v hv

theorem outlying_of_abstains_iff {v : VoteForTally} (hv : v.Abstains) (h : 0 ≤ b.median.raw) :
    b.Outlying rewardBand v.exchangeRate ↔ b.halfBand rewardBand < b.median.raw ∧
      b.squares b.median < b.length * b.median.raw ^ 2 := by
  rw [Outlying, hv.1, zero_sub, abs_neg, abs_of_nonneg h, neg_sq]

/-- An abstention is an outlier where the median is positive and the deviation within
half the reward band, which is less than the median. -/
theorem Contained.abstention (h : b.Contained rewardBand) (hmedian : 0 ≤ b.median.raw)
    (hband : Params.unitInterval rewardBand) {v : VoteForTally} (hv : v ∈ b) (habstains : v.Abstains) :
    b.Outlying rewardBand v.exchangeRate := by
  have hband0 : 0 ≤ rewardBand.raw := not_lt.mp hband.2
  have hband1 : rewardBand.raw ≤ 1000000000000000000 := not_lt.mp hband.1
  obtain ⟨hpos, hsquares⟩ := h.narrow ⟨v, hv, habstains⟩
  have hhalf := (halfBand_spread_le hmedian hband0 hband1).1
  have hlt := halfBand_lt hpos hband0 hband1
  have hlength : (0 : ℤ) < b.length := by
    exact_mod_cast List.length_pos_iff.mpr (List.ne_nil_of_mem hv)
  apply (outlying_of_abstains_iff habstains hmedian).mpr
  refine ⟨hlt, hsquares.trans_lt ?_⟩
  exact mul_lt_mul_of_pos_left (pow_lt_pow_left₀ hlt hhalf two_ne_zero) hlength

/-- Abstentions never win and leave the band as it is exactly where votes without power
or rate are outliers, and where some of them abstain the deviation is within half the
reward band of a positive median. -/
theorem abstentionsLose_iff (hpower : ∀ v ∈ b, 0 ≤ v.power)
    (hrate : ∀ v ∈ b, 0 ≤ v.exchangeRate.raw) (hband : Params.unitInterval rewardBand) :
    AbstentionsLose rewardBand b ↔ Contained rewardBand b := by
  have hmedian := median_nonneg hpower hrate
  have hhalf : 0 ≤ b.halfBand rewardBand :=
    (halfBand_spread_le hmedian (not_lt.mp hband.2) (not_lt.mp hband.1)).1
  have hin : ∀ v ∈ b, ¬ b.InExactBand rewardBand v.exchangeRate ↔
      b.Outlying rewardBand v.exchangeRate :=
    fun v hv => not_inExactBand_iff (List.ne_nil_of_mem hv) v.exchangeRate
  rw [AbstentionsLose, wins_positive_iff]
  constructor
  · rintro ⟨hwins, hspread⟩
    refine ⟨fun v hv hnot _ => (hin v hv).mp (mt (hwins v hv) hnot), ?_⟩
    rintro ⟨v, hv, habstains⟩
    have hout := (hin v hv).mp (mt (hwins v hv) (fun hpositive => hpositive.2.ne' habstains.1))
    obtain ⟨hlt, hsquares⟩ := (outlying_of_abstains_iff habstains hmedian).mp hout
    have hpos : 0 < b.median.raw := hhalf.trans_lt hlt
    exact ⟨hpos, (exactSpread_le_others_iff ⟨v, hv, habstains⟩ hhalf hpos hsquares).mp hspread⟩
  · intro hcontained
    constructor
    · intro v hv hwin
      by_contra hnot
      apply (hin v hv).mpr _ hwin
      by_cases habstains : v.Abstains
      · exact hcontained.abstention hmedian hband hv habstains
      · exact hcontained.outlying v hv hnot habstains
    · by_cases habstains : ∃ v ∈ b, v.Abstains
      · obtain ⟨hpos, hsquares⟩ := hcontained.narrow habstains
        obtain ⟨v, hv, hv'⟩ := id habstains
        have hout := (outlying_of_abstains_iff hv' hmedian).mp
          (hcontained.abstention hmedian hband hv hv')
        exact (exactSpread_le_others_iff habstains hhalf hpos hout.2).mpr hsquares
      · rw [others_of_none habstains]

/-- Where the rounded root decides as the exact one, a tally rewards as with the exact
deviation. -/
theorem tally_eq_exactReward {rt : Runtime} (hb : b.WellFormed)
    (hband : Params.unitInterval rewardBand) (hfits : b.BandFits rt rewardBand)
    (hagree : ∀ v ∈ b, b.InBand rt rewardBand v.exchangeRate ↔
      b.InExactBand rewardBand v.exchangeRate) (claims : ClaimMap) :
    tally rt rewardBand b claims = .ok (b.median, b.exactReward rewardBand claims) := by
  rw [tally_eq hb (not_lt.mp hband.2) (not_lt.mp hband.1) hfits]
  congr 2
  unfold reward exactReward rewardVotes
  apply List.foldl_ext
  intro acc v hv
  simp only [hagree v hv]

end Lose

end Ballot

namespace OneAbstention

def units (n : ℤ) : LegacyDec := ⟨n * 1000000000000000000⟩

/-- Four votes at a rate of one, the last of a voter without a base. -/
def votes : Ballot :=
  [⟨"uatom", units 1, "v1", 1⟩, ⟨"uatom", units 1, "v2", 1⟩, ⟨"uatom", units 1, "v3", 1⟩,
    ⟨"uatom", units 1, "v4", 1⟩]

/-- The cross rates of the first three voters are 1, 1 and `n`. -/
def converted (n : ℤ) : Ballot := Ballot.toCrossRateWithSort .insertion votes <|
  (((∅ : SortedMap ValAddress LegacyDec).insert "v1" (units 1)).insert "v2" (units 1)).insert "v3"
    (units n)

theorem same_rates : converted 1 = [⟨"uatom", 0, "v4", 0⟩, ⟨"uatom", units 1, "v1", 1⟩,
    ⟨"uatom", units 1, "v2", 1⟩, ⟨"uatom", units 1, "v3", 1⟩] := by decide

theorem far_rate : converted 100 = [⟨"uatom", 0, "v4", 0⟩, ⟨"uatom", units 1, "v1", 1⟩,
    ⟨"uatom", units 1, "v2", 1⟩, ⟨"uatom", units 100, "v3", 1⟩] := by decide

/-- With the widest reward band the deviation of one abstention in four is within half
of it. -/
theorem abstention_loses : (converted 1).AbstentionsLose 1 := by
  apply (Ballot.abstentionsLose_iff _ _ _).mpr
  · rw [same_rates]
    exact ⟨by decide, fun _ => by decide⟩
  · rw [same_rates]
    decide
  · rw [same_rates]
    decide
  · decide

theorem far_not_outlying : ¬ Ballot.Outlying defaultParams.rewardBand
    [⟨"uatom", 0, "v4", 0⟩, ⟨"uatom", units 1, "v1", 1⟩, ⟨"uatom", units 1, "v2", 1⟩,
      ⟨"uatom", units 100, "v3", 1⟩] 0 := by decide

set_option maxRecDepth 20000 in
theorem far_tallied : ((tally .insertion defaultParams.rewardBand (converted 100) ∅).toOption.bind
    (fun result => result.2.get? "v4")).map Claim.winCount = some 1 := by
  rw [far_rate]
  decide

/-- One rate far from the median brings the abstention into the band. -/
theorem abstention_wins : ¬ (converted 100).AbstentionsLose defaultParams.rewardBand ∧
    ((tally .insertion defaultParams.rewardBand (converted 100) ∅).toOption.bind
      (fun result => result.2.get? "v4")).map Claim.winCount = some 1 := by
  refine ⟨?_, far_tallied⟩
  rw [far_rate]
  rintro ⟨hwins, _⟩
  have hin := not_not.mp (mt (Ballot.not_inExactBand_iff (List.cons_ne_nil _ _) 0).mp far_not_outlying)
  have hpositive := Ballot.wins_positive_iff.mp hwins ⟨"uatom", 0, "v4", 0⟩ List.mem_cons_self hin
  exact lt_irrefl _ hpositive.1

end OneAbstention

end Kiichain.Oracle
