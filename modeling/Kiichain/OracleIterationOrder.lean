import Kiichain.OracleReference

/-!
# The end blocker does not depend on the iteration order of Go's maps

Each loop over a map is shown to give the same value for any two orders: the
ballots are sorted one by one, the selection has a unique outcome, collected
names are sorted before use, and counter increments commute.
-/

namespace Kiichain.Oracle
open GoExec FixedPoint

theorem sortStrings_perm {l l' : List String} (h : l.Perm l') : sortStrings l = sortStrings l' := by
  have hperm : (sortStrings l).Perm (sortStrings l') :=
    (List.perm_insertionSort _ l).trans (h.trans (List.perm_insertionSort _ l').symm)
  exact hperm.eq_of_pairwise (fun a b _ _ hab hba => le_antisymm hab hba)
    (List.pairwise_insertionSort _ l) (List.pairwise_insertionSort _ l')

section Powers

variable {claims : ClaimMap} {s : State}

namespace Ballot

theorem power_perm {b c : Ballot} (h : b.Perm c) : power b = power c :=
  (h.map _).sum_eq

theorem power_nonneg {b : Ballot} (h : ∀ v ∈ b, 0 ≤ v.power) : 0 ≤ power b := by
  apply List.sum_nonneg
  intro x hx
  obtain ⟨v, hv, rfl⟩ := List.mem_map.mp hx
  exact h v hv

end Ballot

theorem castVotes_power_nonneg (hc : ∀ a c, claims.get? a = some c → 0 ≤ c.power) :
    ∀ v ∈ castVotes claims s, 0 ≤ v.power := by
  intro v hv
  obtain ⟨a, vote, claim, tuple, _, hclaim, _, rfl⟩ := mem_castVotes.mp hv
  simp only [voteForTally]
  split_ifs
  · exact hc _ _ hclaim
  · exact le_rfl

theorem claimsOf_power_nonneg {st : Staking} :
    ∀ a c, (claimsOf st).get? a = some c → 0 ≤ c.power := by
  intro a c h
  rw [get?_claimsOf] at h
  split_ifs at h
  cases h
  exact Staking.power_nonneg a

theorem organized_power_nonneg (rt : Runtime) (o : IterationOrder) {st : Staking} :
    ∀ d b, (organizeBallotByDenom rt o s (claimsOf st)).get? d = some b → 0 ≤ Ballot.power b := by
  intro d b h
  rw [get?_organizeBallotByDenom] at h
  split_ifs at h
  cases h
  rw [Ballot.power_perm (rt.sort_perm _)]
  apply Ballot.power_nonneg
  intro v hv
  exact castVotes_power_nonneg claimsOf_power_nonneg v (List.mem_of_mem_filter hv)

end Powers

section Counting

/-- The counters after one more outcome. -/
def bump (x : Outcome) (c : VotePenaltyCounter) : VotePenaltyCounter :=
  match x with
  | .success => { c with successCount := increment64 c.successCount }
  | .abstain => { c with abstainCount := increment64 c.abstainCount }
  | .miss => { c with missCount := increment64 c.missCount }

theorem bump_comm (x y : Outcome) (c : VotePenaltyCounter) : bump x (bump y c) = bump y (bump x c) := by
  cases x <;> cases y <;> rfl

theorem countOutcome_eq (s : State) (a : ValAddress) (x : Outcome) :
    countOutcome s a x =
      setVotePenaltyCounter s a (bump x (getVotePenaltyCounterOrDefault s a)) := by
  cases x <;> rfl

theorem getVotePenaltyCounterOrDefault_set (s : State) (a b : ValAddress) (c : VotePenaltyCounter) :
    getVotePenaltyCounterOrDefault (setVotePenaltyCounter s a c) b =
      if a = b then c else getVotePenaltyCounterOrDefault s b := by
  simp only [getVotePenaltyCounterOrDefault, setVotePenaltyCounter, SortedMap.get?_insert]
  split_ifs <;> rfl

theorem countOutcome_comm (s : State) (a b : ValAddress) (x y : Outcome) :
    countOutcome (countOutcome s a x) b y = countOutcome (countOutcome s b y) a x := by
  simp only [countOutcome_eq, getVotePenaltyCounterOrDefault_set]
  by_cases hab : a = b
  · subst hab
    simp only [if_true, setVotePenaltyCounter, bump_comm x y]
    congr 1
    apply SortedMap.ext_get?
    intro d
    simp only [SortedMap.get?_insert]
    split_ifs <;> rfl
  · simp only [if_neg hab, if_neg (Ne.symm hab), setVotePenaltyCounter]
    congr 1
    apply SortedMap.ext_get?
    intro d
    simp only [SortedMap.get?_insert]
    split_ifs with h1 h2
    · exact absurd (h2.trans h1.symm) hab
    · rfl
    · rfl
    · rfl

theorem countVote_comm (targets : ℕ) (claims : ClaimMap) (s : State) (a b : ValAddress) :
    countVote targets claims (countVote targets claims s a) b =
      countVote targets claims (countVote targets claims s b) a := by
  unfold countVote
  cases claims.get? a <;> cases claims.get? b <;> simp only [countOutcome_comm]

theorem countVotes_order (o o' : IterationOrder) (targets : ℕ) (claims : ClaimMap) (s : State) :
    countVotes o targets claims s = countVotes o' targets claims s := by
  unfold countVotes
  apply List.Perm.foldl_eq'
  · exact (o.perm _ _).trans (o'.perm _ _).symm
  · intro a _ b _ t
    exact countVote_comm targets claims t a b

end Counting

section EndBlocker

variable (rt : Runtime) (o o' : IterationOrder) (blk : Block) (st : Staking)

theorem tallyPassing_order (rewardBand : LegacyDec) (p : Pick) (claims : ClaimMap) (s : State) :
    tallyPassing rt o blk rewardBand p claims s = tallyPassing rt o' blk rewardBand p claims s := by
  unfold tallyPassing
  rw [sortStrings_perm ((o.perm .collectDenoms _).trans (o'.perm .collectDenoms _).symm)]

theorem tallyBelowThreshold_order (rewardBand : LegacyDec) (below : VoteMap) (claims : ClaimMap) :
    tallyBelowThreshold rt o rewardBand below claims =
      tallyBelowThreshold rt o' rewardBand below claims := by
  unfold tallyBelowThreshold
  rw [sortStrings_perm
    ((o.perm .collectBelowThreshold _).trans (o'.perm .collectBelowThreshold _).symm)]

theorem tallyPeriod_order (s : State) :
    tallyPeriod rt o blk st s = tallyPeriod rt o' blk st s := by
  unfold tallyPeriod
  rw [validatorClaimMap_eq, ok_bind, ok_bind, organizeBallotByDenom_order rt _ s o o',
    pickReferenceDenom_order o' (organized_power_nonneg rt o')]
  simp only [tallyPassing_order rt o o', tallyBelowThreshold_order rt o o',
    countVotes_order o o']

/-- For every state and any two iteration orders of the maps it ranges over, the
end blocker has the same result: the same store, or the same failure. -/
theorem endBlocker_order_independent (s : State) :
    endBlocker rt o blk st s = endBlocker rt o' blk st s := by
  unfold endBlocker
  rw [tallyPeriod_order rt o o']

end EndBlocker

end Kiichain.Oracle
