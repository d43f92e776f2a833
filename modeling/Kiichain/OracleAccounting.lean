import Kiichain.OracleCounts

/-!
# The accounting of a period against its purpose

An operator is due a success when it is inside the band of every target that
passed, whatever became of the other targets. The code compares the wins over
passing and failing ballots together with the targets that passed or that nobody
voted on, so the two agree under a condition on these numbers.
-/

namespace Kiichain.Oracle
open GoExec FixedPoint

section Wins

variable {rt : Runtime} {rewardBand : LegacyDec}

theorem winsAmong_append (l l' : List Ballot) (a : ValAddress) :
    winsAmong rt rewardBand (l ++ l') a =
      winsAmong rt rewardBand l a + winsAmong rt rewardBand l' a := by
  simp [winsAmong]

theorem winsOf_eq_zero {b : Ballot} {a : ValAddress} (h : b.hasVoter a = false) :
    b.winsOf rt rewardBand a = 0 := by
  apply List.countP_eq_zero.mpr
  intro v hv hwin
  simp only [decide_eq_true_eq] at hwin
  have hvoter : b.hasVoter a = true := Ballot.hasVoter_iff.mpr ⟨v, hv, hwin.1⟩
  rw [h] at hvoter
  cases hvoter

/-- Distinct voters win at most once. -/
theorem winsOf_le_one {b : Ballot} (h : (b.map (·.voter)).Nodup) (a : ValAddress) :
    b.winsOf rt rewardBand a ≤ 1 := by
  have hcount := List.nodup_iff_count_le_one.mp h a
  rw [List.count, List.countP_map] at hcount
  apply le_trans _ hcount
  apply List.countP_mono_left
  intro v _ hwin
  simp only [decide_eq_true_eq] at hwin
  simp [hwin.1]

theorem winsAmong_eq_length {l : List Ballot} {a : ValAddress}
    (h : ∀ b ∈ l, b.winsOf rt rewardBand a = 1) : winsAmong rt rewardBand l a = l.length := by
  rw [winsAmong, List.map_congr_left h]
  simp

theorem winsAmong_eq_zero {l : List Ballot} {a : ValAddress}
    (h : ∀ b ∈ l, b.winsOf rt rewardBand a = 0) : winsAmong rt rewardBand l a = 0 := by
  rw [winsAmong, List.map_congr_left h]
  simp

end Wins

section Accounting

variable (rt : Runtime) (st : Staking) (s : State)

/-- On every target that passed, the operator has a positive rate in the band. -/
def WonAll (a : ValAddress) : Prop :=
  ∀ b ∈ passingBallots rt st s, ∃ v ∈ b, v.voter = a ∧ 0 < v.exchangeRate.raw ∧
    b.InBand rt s.params.rewardBand v.exchangeRate

instance (a : ValAddress) : Decidable (WonAll rt st s a) :=
  inferInstanceAs (Decidable (∀ b ∈ passingBallots rt st s, ∃ v ∈ b, _))

/-- The outcome that the period is meant to record. -/
def dueOutcome (a : ValAddress) : Outcome :=
  if tookPart rt st s a then if WonAll rt st s a then .success else .miss else .abstain

/-- The numbers that the code compares tell the operator's due outcome. -/
def Accounted (a : ValAddress) : Prop :=
  if tookPart rt st s a then
    if WonAll rt st s a then
      winsAmong rt s.params.rewardBand (failingBallots rt st s) a = (unvotedTargets st s).length
    else periodWins rt st s a ≠ remainingTargets rt st s
  else remainingTargets rt st s ≠ 0

variable {rt st s} {a : ValAddress} {blk : Block} (hs : AcceptedVotes s) (hv : s.params.Valid)

theorem bump_injective {x y : Outcome} {c : VotePenaltyCounter} (h : bump x c = bump y c) : x = y := by
  have hne : ∀ n, increment64 n ≠ n := by
    intro n hn
    unfold increment64 at hn
    omega
  cases x <;> cases y <;>
    simp [bump, VotePenaltyCounter.ext_iff, hne, (hne _).symm] at h ⊢

theorem periodWins_of_absent (h : tookPart rt st s a = false) : periodWins rt st s a = 0 := by
  apply winsAmong_eq_zero
  intro b hb
  apply winsOf_eq_zero
  rw [← any_hasVoter, List.any_eq_false] at h
  simpa using h b hb

include hs

theorem voters_nodup {b : Ballot} (hb : b ∈ passingBallots rt st s) : (b.map (·.voter)).Nodup := by
  obtain ⟨d, _, rfl⟩ := List.mem_map.mp hb
  rw [(voters_tallied _ d).nodup_iff]
  exact List.pairwise_map.mpr (castOn_distinct hs d)

theorem winsAmong_of_wonAll (h : WonAll rt st s a) :
    winsAmong rt s.params.rewardBand (passingBallots rt st s) a =
      (passingTargets rt st s).length := by
  rw [winsAmong_eq_length, passingBallots, List.length_map]
  intro b hb
  obtain ⟨v, hv, hvoter, _, hin⟩ := h b hb
  apply le_antisymm (winsOf_le_one (voters_nodup hs hb) a)
  apply List.countP_pos_iff.mpr
  exact ⟨v, hv, decide_eq_true ⟨hvoter, hin⟩⟩

/-- The recorded outcome is the due one exactly for an accounted operator. -/
theorem periodOutcome_eq_iff : periodOutcome rt st s a = dueOutcome rt st s a ↔
    Accounted rt st s a := by
  unfold periodOutcome dueOutcome Accounted
  cases htook : tookPart rt st s a with
  | false =>
      rw [periodWins_of_absent htook]
      by_cases hzero : remainingTargets rt st s = 0
      · simp [hzero]
      · simp [hzero, Ne.symm hzero]
  | true =>
      by_cases hwon : WonAll rt st s a
      · have hwins := winsAmong_of_wonAll hs hwon
        simp only [hwon, periodWins, winsAmong_append, hwins, remainingTargets, if_true]
        split_ifs with heq
        · simpa using heq
        · simpa using heq
      · simp only [hwon, if_true, if_false]
        split_ifs with heq
        · simp [heq]
        · simp [heq]

include hv

/-- On the last block of a period the end blocker records the due outcome of
every bonded operator exactly when its arithmetic fits and each is accounted. -/
theorem records_due_iff (o : IterationOrder) (hlast : (blk.height + 1) % s.params.votePeriod = 0) :
    (∃ t, endBlocker rt o blk st s = .ok t ∧ ∀ a, st.Bonded a →
      getVotePenaltyCounterOrDefault t a =
        bump (dueOutcome rt st s a) (getVotePenaltyCounterOrDefault s a)) ↔
    ((quorum st s).natAbs < 2 ^ 256 ∧ ∀ r, IsReference rt st s r →
      ∀ d ∈ passingTargets rt st s, d ≠ r → CrossFits rt st s r d) ∧
      ∀ a, st.Bonded a → Accounted rt st s a := by
  have hstep : ∀ t, endBlocker rt o blk st s = .ok t ↔ tallyPeriod rt o blk st s = .ok t := by
    intro t
    rw [endBlocker_eq_ok, if_pos hlast]
    exact and_iff_right hv.votePeriod_ne_zero
  rw [← (returns_tallyPeriod_iff hs hv o : Returns (tallyPeriod rt o blk st s) ↔ _)]
  simp only [hstep]
  constructor
  · rintro ⟨t, ht, hdue⟩
    refine ⟨⟨t, ht⟩, fun a ha => ?_⟩
    have hcount := tallyPeriod_counts hs hv ht a
    rw [if_pos ha, hdue a ha] at hcount
    exact (periodOutcome_eq_iff hs).mp (bump_injective hcount).symm
  · rintro ⟨⟨t, ht⟩, haccounted⟩
    refine ⟨t, ht, fun a ha => ?_⟩
    rw [tallyPeriod_counts hs hv ht a, if_pos ha, (periodOutcome_eq_iff hs).mpr (haccounted a ha)]

end Accounting

namespace UnvotedTarget

def staking : Staking := .trio

/-- Everyone votes the same rate on one target, and no one votes on the other. -/
def stored : State :=
  let votes : SortedMap ValAddress AggregateExchangeRateVote := ⟨[
    ("v1", ⟨[⟨"uatom", .ofInt 100⟩], "v1"⟩),
    ("v2", ⟨[⟨"uatom", .ofInt 100⟩], "v2"⟩),
    ("v3", ⟨[⟨"uatom", .ofInt 100⟩], "v3"⟩)], by decide⟩
  { defaultGenesis ∅ with
    params := { defaultParams with whitelist := [⟨"uatom"⟩, ⟨"ubtc"⟩] }
    voteTarget := twoTargets
    aggregateExchangeRateVote := votes }

theorem stored_valid : stored.params.Valid := Params.valid_of_validate (u := ()) (by decide)

theorem stored_accepted : AcceptedVotes stored := by decide

def closed : Exec State := endBlocker .insertion .ascending ⟨1, 0⟩ staking stored

set_option maxRecDepth 20000 in
theorem closed_counter : closed.toOption.map (fun t => getVotePenaltyCounterOrDefault t "v1") =
    some ⟨1, 0, 0⟩ := by decide

set_option maxRecDepth 20000 in
theorem success_due : staking.Bonded "v1" ∧
    dueOutcome .insertion staking stored "v1" = .success := by decide

/-- An operator that wins the only ballot of the period gets a miss. -/
theorem winner_misses : stored.params.Valid ∧ AcceptedVotes stored ∧
    ¬ ∃ t, closed = .ok t ∧ ∀ a, staking.Bonded a → getVotePenaltyCounterOrDefault t a =
      bump (dueOutcome .insertion staking stored a) (getVotePenaltyCounterOrDefault stored a) := by
  refine ⟨stored_valid, stored_accepted, ?_⟩
  rintro ⟨t, ht, hdue⟩
  obtain ⟨t', ht', hcounter⟩ := exists_of_toOption_map closed_counter
  rw [ht] at ht'
  cases ht'
  have hwinner := hdue "v1" success_due.1
  rw [success_due.2, hcounter] at hwinner
  exact absurd hwinner (by decide)

theorem accounts_decide : (∃ t, closed = .ok t ∧ ∀ a, staking.Bonded a →
      getVotePenaltyCounterOrDefault t a =
        bump (dueOutcome .insertion staking stored a) (getVotePenaltyCounterOrDefault stored a)) ↔
    ((quorum staking stored).natAbs < 2 ^ 256 ∧ ∀ r, IsReference .insertion staking stored r →
      ∀ d ∈ passingTargets .insertion staking stored, d ≠ r →
        CrossFits .insertion staking stored r d) ∧
      ∀ a, staking.Bonded a → Accounted .insertion staking stored a :=
  records_due_iff stored_accepted stored_valid .ascending (by decide)

end UnvotedTarget

end Kiichain.Oracle
