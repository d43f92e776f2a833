import Kiichain.OracleWrites

/-!
# Ballots of accepted votes

The message handler stores a vote under its voter, with named, distinct
denominations and positive rates of bounded size. The ballots that such votes
form are well formed, cross rates included.
-/

namespace Kiichain.Oracle
open GoExec FixedPoint

/-- The greatest bit length of a submitted rate. -/
def rateBits : ℕ := 255 + 60

/-- What the handler promises of the vote it stores for an operator. -/
structure Accepted (a : ValAddress) (vote : AggregateExchangeRateVote) : Prop where
  voter_eq : vote.voter = a
  distinct : vote.exchangeRateTuples.Pairwise (fun x y => x.denom ≠ y.denom)
  named : ∀ tuple ∈ vote.exchangeRateTuples, tuple.denom ≠ ""
  rate_pos : ∀ tuple ∈ vote.exchangeRateTuples, 0 < tuple.exchangeRate.raw
  rate_bounded : ∀ tuple ∈ vote.exchangeRateTuples, tuple.exchangeRate.raw.natAbs < 2 ^ rateBits

/-- Decided by the bit length, as the limit is checked. -/
instance (a : ValAddress) (vote : AggregateExchangeRateVote) : Decidable (Accepted a vote) :=
  decidable_of_iff (vote.voter = a ∧
    vote.exchangeRateTuples.Pairwise (fun x y => x.denom ≠ y.denom) ∧
    (∀ tuple ∈ vote.exchangeRateTuples, tuple.denom ≠ "") ∧
    ∀ tuple ∈ vote.exchangeRateTuples,
      0 < tuple.exchangeRate.raw ∧ tuple.exchangeRate.raw.natAbs.log2 < rateBits) <| by
    constructor
    · rintro ⟨hvoter, hdistinct, hnamed, hrate⟩
      refine ⟨hvoter, hdistinct, hnamed, fun x hx => (hrate x hx).1, fun x hx => ?_⟩
      obtain ⟨hpos, hlog⟩ := hrate x hx
      exact (Nat.log2_lt (by omega)).mp hlog
    · rintro ⟨hvoter, hdistinct, hnamed, hpos, hbounded⟩
      refine ⟨hvoter, hdistinct, hnamed, fun x hx => ⟨hpos x hx, ?_⟩⟩
      have hx0 := hpos x hx
      exact (Nat.log2_lt (by omega)).mpr (hbounded x hx)

def AcceptedVotes (s : State) : Prop :=
  ∀ a vote, s.aggregateExchangeRateVote.get? a = some vote → Accepted a vote

theorem acceptedVotes_iff {s : State} :
    AcceptedVotes s ↔ ∀ e ∈ s.aggregateExchangeRateVote.entries, Accepted e.1 e.2 := by
  constructor
  · exact fun h e he => h e.1 e.2 (SortedMap.get?_eq_some.mpr he)
  · exact fun h a vote hvote => h (a, vote) (SortedMap.get?_eq_some.mp hvote)

instance (s : State) : Decidable (AcceptedVotes s) := decidable_of_iff _ acceptedVotes_iff.symm

/-- The bonded operator has a stored vote with this rate on the denomination. -/
def Submitted (st : Staking) (s : State) (a : ValAddress) (denom : String) (rate : LegacyDec) :
    Prop :=
  st.Bonded a ∧ ∃ vote, s.aggregateExchangeRateVote.get? a = some vote ∧
    ⟨denom, rate⟩ ∈ vote.exchangeRateTuples

theorem two_mul_rateBound : 2 * 2 ^ rateBits = 2 ^ legacyFormat.bits := by
  have hbits : legacyFormat.bits = rateBits + 1 := rfl
  rw [hbits, pow_succ, mul_comm]

section Votes

variable {st : Staking} {s : State} (hs : AcceptedVotes s)
include hs

theorem mem_castOn {d : String} {v : VoteForTally} :
    v ∈ castOn (claimsOf st) s d ↔
      v.denom = d ∧ v.power = st.power v.voter ∧ Submitted st s v.voter d v.exchangeRate := by
  simp only [castOn, List.mem_filter, mem_castVotes, decide_eq_true_eq]
  constructor
  · rintro ⟨⟨a, vote, claim, tuple, hvote, hclaim, htuple, rfl⟩, rfl⟩
    have ha := hs a vote hvote
    rw [ha.voter_eq, get?_claimsOf] at hclaim
    split_ifs at hclaim with hbonded
    cases hclaim
    have hpos : 0 < tuple.exchangeRate := Decimal.lt_iff.mpr (ha.rate_pos tuple htuple)
    refine ⟨rfl, ?_, hbonded, vote, hvote, htuple⟩
    simp only [voteForTally, if_pos hpos]
    rfl
  · rintro ⟨hd, hpower, hbonded, vote, hvote, htuple⟩
    have ha := hs v.voter vote hvote
    have hpos : 0 < v.exchangeRate := Decimal.lt_iff.mpr (ha.rate_pos _ htuple)
    refine ⟨⟨v.voter, vote, claimOf st v.voter, _, hvote, ?_, htuple, ?_⟩, hd⟩
    · rw [ha.voter_eq, get?_claimsOf, if_pos hbonded]
    · obtain ⟨denom, rate, voter, power⟩ := v
      simp only at hd hpower hpos
      subst hd
      simp only [voteForTally, if_pos hpos, VoteForTally.mk.injEq, true_and]
      exact hpower

/-- A denomination's ballot has at most one vote of an operator. -/
theorem castOn_distinct (d : String) :
    (castOn (claimsOf st) s d).Pairwise (fun v w => v.voter ≠ w.voter) := by
  have hcast : (castVotes (claimsOf st) s).Pairwise
      (fun v w => v.denom = w.denom → v.voter ≠ w.voter) := by
    rw [castVotes, List.pairwise_flatMap]
    constructor
    · rintro ⟨a, vote⟩ he
      have ha := hs a vote (SortedMap.get?_eq_some.mpr he)
      unfold castBy
      split
      · rw [List.pairwise_map]
        exact ha.distinct.imp (fun hne heq => absurd heq hne)
      · exact List.Pairwise.nil
    · apply s.aggregateExchangeRateVote.sorted.imp
      rintro ⟨a, vote⟩ ⟨a', vote'⟩ hlt v hv w hw _
      have hvoter : ∀ (b : ValAddress) (x : AggregateExchangeRateVote) (u : VoteForTally),
          u ∈ castBy (claimsOf st) b x → u.voter = b := by
        intro b x u hu
        unfold castBy at hu
        split at hu
        · obtain ⟨tuple, _, rfl⟩ := List.mem_map.mp hu
          rfl
        · exact absurd hu List.not_mem_nil
      rw [hvoter a vote v hv, hvoter a' vote' w hw]
      exact ne_of_lt hlt
  apply (hcast.filter _).imp_of_mem
  intro v w hv hw hne
  apply hne
  have hvd : v.denom = d := by simpa using List.of_mem_filter hv
  have hwd : w.denom = d := by simpa using List.of_mem_filter hw
  rw [hvd, hwd]

theorem submitted_bounds {a : ValAddress} {d : String} {rate : LegacyDec}
    (h : Submitted st s a d rate) : 0 < rate.raw ∧ rate.raw.natAbs < 2 ^ rateBits := by
  obtain ⟨_, vote, hvote, htuple⟩ := h
  exact ⟨(hs a vote hvote).rate_pos _ htuple, (hs a vote hvote).rate_bounded _ htuple⟩

theorem ballotOn_wellFormed {d : String} (rt : Runtime) (h : castOn (claimsOf st) s d ≠ []) :
    (ballotOn rt st s d).WellFormed := by
  have hperm : (ballotOn rt st s d).Perm (castOn (claimsOf st) s d) := rt.sort_perm _
  refine ⟨?_, rt.sort_sorted _, fun v hv => ?_, fun v hv => ?_, fun v hv => ?_⟩
  · intro hnil
    rw [hnil] at hperm
    exact h hperm.nil_eq.symm
  · rw [((mem_castOn hs).mp (hperm.mem_iff.mp hv)).2.1]
    exact Staking.power_nonneg _
  · exact (submitted_bounds hs ((mem_castOn hs).mp (hperm.mem_iff.mp hv)).2.2).1.le
  · have hlt := (submitted_bounds hs ((mem_castOn hs).mp (hperm.mem_iff.mp hv)).2.2).2
    have hbound := two_mul_rateBound
    unfold Decimal.Fits
    omega

/-- The median of submitted rates is one of them. -/
theorem exists_submitted_median {d : String} (rt : Runtime) (h : castOn (claimsOf st) s d ≠ []) :
    ∃ a, Submitted st s a d (ballotOn rt st s d).median := by
  have hwell := ballotOn_wellFormed hs rt h
  obtain ⟨v, hv, heq⟩ := Ballot.exists_vote_of_median hwell.ne_nil hwell.power_nonneg
  have hcast := (mem_castOn hs).mp ((rt.sort_perm _).mem_iff.mp hv)
  exact ⟨v.voter, heq ▸ hcast.2.2⟩

end Votes

section CrossRates

open Ballot (toCrossVote)

theorem toMap_append (b : Ballot) (v : VoteForTally) :
    Ballot.toMap (b ++ [v]) =
      if 0 < v.exchangeRate then (Ballot.toMap b).insert v.voter v.exchangeRate
      else Ballot.toMap b := by
  simp [Ballot.toMap, List.foldl_append]

/-- A base is the positive rate of a vote on the reference denomination. -/
theorem exists_vote_of_toMap {b : Ballot} {a : ValAddress} {rate : LegacyDec}
    (h : b.toMap.get? a = some rate) :
    ∃ v ∈ b, v.voter = a ∧ v.exchangeRate = rate ∧ 0 < rate.raw := by
  induction b using List.reverseRecOn with
  | nil => cases h
  | append_singleton b v ih =>
      have hold : (Ballot.toMap b).get? a = some rate →
          ∃ w ∈ b ++ [v], w.voter = a ∧ w.exchangeRate = rate ∧ 0 < rate.raw := by
        intro hb
        obtain ⟨w, hw, hrest⟩ := ih hb
        exact ⟨w, List.mem_append_left _ hw, hrest⟩
      rw [toMap_append] at h
      split_ifs at h with hpos
      · rw [SortedMap.get?_insert] at h
        split_ifs at h with hv
        · cases h
          exact ⟨v, by simp, hv, rfl, Decimal.lt_iff.mp hpos⟩
        · exact hold h
      · exact hold h

/-- A cross vote is a quotient of two positive rates, or an abstention. -/
theorem toCrossVote_cases (bases : SortedMap ValAddress LegacyDec) (v : VoteForTally) :
    (∃ base cross, bases.get? v.voter = some base ∧ 0 < v.exchangeRate.raw ∧
        base.quo v.exchangeRate = .ok cross ∧
        toCrossVote bases v = { v with exchangeRate := cross }) ∨
      toCrossVote bases v = { v with exchangeRate := 0, power := 0 } := by
  unfold toCrossVote
  cases hbase : bases.get? v.voter with
  | none => exact Or.inr rfl
  | some base =>
      simp only
      split_ifs with hpos
      · cases hquo : base.quo v.exchangeRate with
        | ok cross => exact Or.inl ⟨base, cross, rfl, Decimal.lt_iff.mp hpos, hquo, rfl⟩
        | error e => exact Or.inr rfl
      · exact Or.inr rfl

theorem toCrossVote_voter (bases : SortedMap ValAddress LegacyDec) (v : VoteForTally) :
    (toCrossVote bases v).voter = v.voter := by
  obtain ⟨base, cross, _, _, _, heq⟩ | heq := toCrossVote_cases bases v <;> rw [heq]

theorem mem_toCrossRateWithSort {rt : Runtime} {b : Ballot} {bases : SortedMap ValAddress LegacyDec}
    {w : VoteForTally} :
    w ∈ b.toCrossRateWithSort rt bases ↔ ∃ v ∈ b, toCrossVote bases v = w := by
  rw [Ballot.toCrossRateWithSort, (rt.sort_perm _).mem_iff, Ballot.toCrossRate, List.mem_map]

theorem toCrossRateWithSort_wellFormed (rt : Runtime) {b r : Ballot} (hb : b.WellFormed) :
    (b.toCrossRateWithSort rt r.toMap).WellFormed := by
  refine ⟨?_, rt.sort_sorted _, fun w hw => ?_, fun w hw => ?_, fun w hw => ?_⟩
  · intro hnil
    have hperm := rt.sort_perm (b.toCrossRate r.toMap)
    rw [Ballot.toCrossRateWithSort] at hnil
    rw [hnil] at hperm
    exact hb.ne_nil (List.map_eq_nil_iff.mp hperm.nil_eq.symm)
  all_goals obtain ⟨v, hv, rfl⟩ := mem_toCrossRateWithSort.mp hw
  · obtain ⟨base, cross, _, _, _, heq⟩ | heq := toCrossVote_cases r.toMap v
    · rw [heq]
      exact hb.power_nonneg v hv
    · rw [heq]
  · obtain ⟨base, cross, hbase, hpos, hquo, heq⟩ | heq := toCrossVote_cases r.toMap v
    · obtain ⟨_, _, _, _, hbase0⟩ := exists_vote_of_toMap hbase
      rw [heq]
      exact Decimal.quo_nonneg hbase0.le hpos.le hquo
    · rw [heq]
      exact le_rfl
  · obtain ⟨base, cross, _, _, hquo, heq⟩ | heq := toCrossVote_cases r.toMap v
    · rw [heq]
      obtain ⟨_, hfits, rfl⟩ := Decimal.quo_eq_ok.mp hquo
      exact hfits
    · rw [heq]
      exact Decimal.fits_zero

theorem tallied_wellFormed (rt : Runtime) {st : Staking} {s : State} (hs : AcceptedVotes s)
    (r : String) {d : String} (h : castOn (claimsOf st) s d ≠ []) :
    (tallied rt st s r d).WellFormed := by
  have hwell := ballotOn_wellFormed hs rt h
  unfold tallied
  split_ifs
  · exact toCrossRateWithSort_wellFormed rt hwell
  · exact hwell

end CrossRates

end Kiichain.Oracle
