import Kiichain.OracleQuorum

/-!
# When the end blocker panics

On accepted votes and validated parameters every ballot of submitted rates can
be tallied. Only three computations can overflow: the quorum of an unbounded
threshold, the upper end of a cross ballot's reward band, and the inversion of a
small cross median.
-/

namespace Kiichain.Oracle
open GoExec FixedPoint

section Returns

variable (rt : Runtime) (st : Staking) (s : State)

/-- The arithmetic of a cross ballot fits: its reward band, and the inversion of
its median unless nothing is written. -/
def CrossFits (r denom : String) : Prop :=
  (tallied rt st s r denom).BandFits rt s.params.rewardBand ∧
    ((tallied rt st s r denom).median.raw ≠ 0 →
      Decimal.Fits legacyFormat (chop legacyFormat.scale
        (((ballotOn rt st s r).median.raw * (legacyFormat.scale * legacyFormat.scale)).tdiv
          (tallied rt st s r denom).median.raw)))

instance (r denom : String) : Decidable (CrossFits rt st s r denom) :=
  inferInstanceAs (Decidable (_ ∧ _))

variable {rt st s} {blk : Block} (hs : AcceptedVotes s) (hv : s.params.Valid)
include hs

theorem ne_empty_of_voted {d : String} (h : castOn (claimsOf st) s d ≠ []) : d ≠ "" := by
  obtain ⟨v, hmem⟩ := List.exists_mem_of_ne_nil _ h
  obtain ⟨_, _, _, vote, hvote, htuple⟩ := (mem_castOn hs).mp hmem
  exact (hs _ vote hvote).named _ htuple

include hv

/-- A ballot of submitted rates always fits. -/
theorem ballotOn_bandFits {d : String} (h : castOn (claimsOf st) s d ≠ []) :
    (ballotOn rt st s d).BandFits rt s.params.rewardBand := by
  obtain ⟨a, ha⟩ := exists_submitted_median hs rt h
  obtain ⟨hpos, hlt⟩ := submitted_bounds hs ha
  apply Ballot.bandFits_of_lt hpos.le _ hv.rewardBand_nonneg hv.rewardBand_le_one
  have hbound : (2 : ℤ) * 2 ^ rateBits = 2 ^ legacyFormat.bits := by exact_mod_cast two_mul_rateBound
  zify at hlt
  rw [abs_of_pos hpos] at hlt
  linarith

theorem returns_tallyDenom_iff {p : Pick} (hp : Picked rt st s p) {r d : String}
    (hd : d ∈ passingTargets rt st s) (acc : ClaimMap × State) :
    Returns (tallyDenom rt blk s.params.rewardBand (referenceOf rt st s r) p.voteMap acc d) ↔
      (d ≠ r → CrossFits rt st s r d) := by
  have hvoted := castOn_ne_nil_of_passing hd
  have hwell := tallied_wellFormed rt hs r hvoted
  have hband := @returns_tally_iff rt _ _ hwell hv.rewardBand_nonneg hv.rewardBand_le_one acc.1
  rw [tallyDenom, votingTally_eq hp hd]
  constructor
  · intro h hne
    rw [returns_bind] at h
    obtain ⟨⟨rate, claims⟩, htally, hrest⟩ := h
    refine ⟨hband.mp ⟨_, htally⟩, fun hzero => ?_⟩
    obtain rfl := tally_rate hwell.sorted htally
    dsimp only at hrest
    rw [if_neg hzero, baseRate_ne hne, returns_bind] at hrest
    obtain ⟨rate, hquo, _⟩ := hrest
    exact (Decimal.quo_eq_ok.mp hquo).2.1
  · intro h
    have hfits : (tallied rt st s r d).BandFits rt s.params.rewardBand := by
      by_cases hdr : d = r
      · rw [hdr, tallied_self]
        exact ballotOn_bandFits hs hv (hdr ▸ hvoted)
      · exact (h hdr).1
    rw [tally_eq hwell hv.rewardBand_nonneg hv.rewardBand_le_one hfits, ok_bind]
    dsimp only
    split_ifs with hzero
    · exact returns_ok _
    · by_cases hdr : d = r
      · rw [hdr, baseRate_self]
        exact returns_ok _
      · rw [baseRate_ne hdr, Decimal.quo_eq_ok.mpr ⟨hzero, (h hdr).2 hzero, rfl⟩]
        exact returns_ok _

theorem returns_tallyPassing_iff {p : Pick} (hp : Picked rt st s p) (claims : ClaimMap) (t : State) :
    Returns (tallyPassing rt .ascending blk s.params.rewardBand p claims t) ↔
      ∀ r, IsReference rt st s r → ∀ d ∈ passingTargets rt st s, d ≠ r → CrossFits rt st s r d := by
  rw [tallyPassing_eq hp]
  obtain ⟨hr, hnil⟩ | href := hp.reference
  · rw [if_neg (not_not.mpr hr)]
    simp [hnil]
  · rw [if_pos (ne_empty_of_voted hs (castOn_ne_nil_of_passing href.1)),
      returns_foldlM_iff (fun acc d hd => returns_tallyDenom_iff hs hv hp hd acc)]
    constructor
    · intro h r href' d hd
      rw [isReference_unique href' href]
      exact h d hd
    · exact fun h => h p.referenceDenom href

theorem returns_tallyBelowThreshold {p : Pick} (hp : Picked rt st s p) (claims : ClaimMap) :
    Returns (tallyBelowThreshold rt .ascending s.params.rewardBand p.belowThresholdVoteMap claims) := by
  rw [tallyBelowThreshold_eq hp, returns_foldlM_iff (C := fun _ => True)]
  · exact fun _ _ => trivial
  · intro claims d hd
    have hvoted := castOn_ne_nil_of_failing hd
    rw [getD_below hp hd, tally_eq (ballotOn_wellFormed hs rt hvoted) hv.rewardBand_nonneg
      hv.rewardBand_le_one (ballotOn_bandFits hs hv hvoted)]
    exact iff_of_true (returns_ok _) trivial

theorem returns_tallyPeriod_iff (o : IterationOrder) : Returns (tallyPeriod rt o blk st s) ↔
    (quorum st s).natAbs < 2 ^ 256 ∧
      ∀ r, IsReference rt st s r → ∀ d ∈ passingTargets rt st s, d ≠ r → CrossFits rt st s r d := by
  constructor
  · rintro ⟨t, h⟩
    obtain ⟨p, hpick, claims, t₁, hpassing, _⟩ := (tallyPeriod_eq_ok rt blk st s o).mp h
    have hquorum := quorum_of_pick hpick
    have hp := picked_of_pick hpick
    exact ⟨hquorum, (returns_tallyPassing_iff hs hv hp _ _).mp ⟨_, hpassing⟩⟩
  · rintro ⟨hquorum, hfits⟩
    obtain ⟨p, hpick, hp⟩ := exists_picked rt .ascending hquorum
    obtain ⟨⟨claims, t₁⟩, hpassing⟩ :
        Returns (tallyPassing rt .ascending blk s.params.rewardBand p (claimsOf st) s) :=
      (returns_tallyPassing_iff hs hv hp (claimsOf st) s).mpr hfits
    obtain ⟨claims₁, hbelow⟩ := returns_tallyBelowThreshold hs hv hp claims
    obtain ⟨t₂, hwhitelist⟩ := returns_applyWhitelist p.voteTargets
      (clearVotes (countVotes .ascending p.voteTargets.size claims₁ t₁)) hv.whitelist_named
    exact ⟨_, (tallyPeriod_eq_ok rt blk st s o).mpr
      ⟨p, hpick, claims, t₁, hpassing, claims₁, hbelow, t₂, hwhitelist, rfl⟩⟩

/-- The end blocker returns exactly when it is not the last block of a period, or
the quorum fits 256 bits and the arithmetic of every cross ballot fits. -/
theorem returns_endBlocker_iff (o : IterationOrder) : Returns (endBlocker rt o blk st s) ↔
    ((blk.height + 1) % s.params.votePeriod = 0 → (quorum st s).natAbs < 2 ^ 256 ∧
      ∀ r, IsReference rt st s r → ∀ d ∈ passingTargets rt st s, d ≠ r → CrossFits rt st s r d) := by
  have hcases : Returns (endBlocker rt o blk st s) ↔
      ((blk.height + 1) % s.params.votePeriod = 0 → Returns (tallyPeriod rt o blk st s)) := by
    simp only [Returns, endBlocker_eq_ok, hv.votePeriod_ne_zero, ne_eq, not_false_eq_true, true_and]
    by_cases hlast : (blk.height + 1) % s.params.votePeriod = 0
    · simp [hlast]
    · simp [hlast]
  rw [hcases, returns_tallyPeriod_iff hs hv]

end Returns

namespace ScaledReference

def staking : Staking := .trio

/-- One operator votes the least rate on the reference, two others a huge one. -/
def stored : State :=
  let votes : SortedMap ValAddress AggregateExchangeRateVote := ⟨[
    ("v1", ⟨[⟨"uatom", ⟨1⟩⟩, ⟨"ubtc", .ofInt 1⟩], "v1"⟩),
    ("v2", ⟨[⟨"uatom", .ofInt (10 ^ 62)⟩, ⟨"ubtc", .ofInt 1⟩], "v2"⟩),
    ("v3", ⟨[⟨"uatom", .ofInt (10 ^ 62)⟩], "v3"⟩)], by decide⟩
  { defaultGenesis ∅ with
    params := { defaultParams with whitelist := [⟨"uatom"⟩, ⟨"ubtc"⟩] }
    voteTarget := twoTargets
    aggregateExchangeRateVote := votes }

theorem stored_valid : stored.params.Valid := Params.valid_of_validate (u := ()) (by decide)

theorem stored_accepted : AcceptedVotes stored := by decide

set_option maxRecDepth 20000 in
/-- The cross median is one unit, and dividing by it overflows. -/
theorem inversion_panics : stored.params.Valid ∧ AcceptedVotes stored ∧
    ¬ Returns (endBlocker .insertion .ascending ⟨1, 0⟩ staking stored) := by
  refine ⟨stored_valid, stored_accepted, ?_⟩
  decide

theorem fits_decides : Returns (endBlocker .insertion .ascending ⟨1, 0⟩ staking stored) ↔
    ((1 + 1) % stored.params.votePeriod = 0 → (quorum staking stored).natAbs < 2 ^ 256 ∧
      ∀ r, IsReference .insertion staking stored r →
        ∀ d ∈ passingTargets .insertion staking stored, d ≠ r →
          CrossFits .insertion staking stored r d) :=
  returns_endBlocker_iff stored_accepted stored_valid .ascending

end ScaledReference

end Kiichain.Oracle
