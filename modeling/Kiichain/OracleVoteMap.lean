import Kiichain.OracleKeeper

/-!
# Claims and ballots in closed form

The claim map holds one fresh claim for each bonded validator. The ballot of a
denomination holds, sorted, one vote for each tuple on it in a stored vote of a
bonded validator, in whatever order the map of ballots is sorted.
-/

namespace Kiichain.Oracle
open GoExec FixedPoint

section Claims

variable {st : Staking}

def claimOf (st : Staking) (a : ValAddress) : Claim := newClaim (st.power a) 0 0 false a

def claimsOf (st : Staking) : ClaimMap :=
  (st.validators.filter (fun _ v => v.bonded)).mapValues (fun a _ => claimOf st a)

theorem get?_claimsOf (a : ValAddress) :
    (claimsOf st).get? a = if st.Bonded a then some (claimOf st a) else none := by
  rw [claimsOf, SortedMap.get?_mapValues, SortedMap.get?_filter]
  by_cases hb : st.Bonded a
  · obtain ⟨v, hv, hvb⟩ := hb
    rw [if_pos ⟨v, hv, hvb⟩, hv]
    simp [hvb]
  · rw [if_neg hb]
    cases hv : st.validators.get? a with
    | none => rfl
    | some v =>
        have hvb : v.bonded = false := by
          by_contra h
          exact hb ⟨v, hv, by simpa using h⟩
        simp [hvb]

theorem claim_of_stored {a : ValAddress} {v : Validator} (hv : st.validators.get? a = some v) :
    v.operator = a ∧
      newClaim (v.consensusPower st.powerReduction) 0 0 false v.operator = claimOf st a := by
  have ha := st.operator_eq a v hv
  refine ⟨ha, ?_⟩
  rw [claimOf, Staking.power, hv, ha]

variable (st) in
theorem validatorClaimMap_foldlM (l : List ValAddress)
    (hl : ∀ a ∈ l, ∃ v, st.validators.get? a = some v) (m : ClaimMap) :
    ∃ claims, l.foldlM (fun claims valAddr => do
        let validator ← require (st.validators.get? valAddr) (.error "validator does not exist")
        pure (if validator.bonded then
          claims.insert validator.operator
            (newClaim (validator.consensusPower st.powerReduction) 0 0 false validator.operator)
        else claims)) m = (.ok claims : Exec ClaimMap) ∧
      ∀ a, claims.get? a = if a ∈ l ∧ st.Bonded a then some (claimOf st a) else m.get? a := by
  induction l generalizing m with
  | nil => exact ⟨m, rfl, fun a => by simp⟩
  | cons b l ih =>
      obtain ⟨v, hv⟩ := hl b List.mem_cons_self
      have hl' : ∀ a ∈ l, ∃ v, st.validators.get? a = some v :=
        fun a ha => hl a (List.mem_cons_of_mem _ ha)
      rw [List.foldlM_cons, hv]
      cases hb : v.bonded with
      | false =>
          obtain ⟨claims, hc, hget⟩ := ih hl' m
          refine ⟨claims, by simpa [require, hb] using hc, fun a => ?_⟩
          have hnot : ¬ st.Bonded b := by
            rintro ⟨w, hw, hwb⟩
            rw [hv] at hw
            cases hw
            rw [hb] at hwb
            cases hwb
          rw [hget a]
          by_cases hab : a = b
          · subst hab
            simp [hnot]
          · simp [hab]
      | true =>
          obtain ⟨hop, hclaim⟩ := claim_of_stored hv
          obtain ⟨claims, hc, hget⟩ := ih hl' (m.insert b (claimOf st b))
          refine ⟨claims, ?_, fun a => ?_⟩
          · rw [← hc, ← hclaim, hop]
            simp [require, hb, hop]
          · rw [hget a, SortedMap.get?_insert]
            have hbonded : st.Bonded b := ⟨v, hv, hb⟩
            by_cases hab : b = a
            · subst hab
              simp [hbonded]
            · simp [hab, Ne.symm hab]

theorem validatorClaimMap_eq (st : Staking) : validatorClaimMap st = .ok (claimsOf st) := by
  obtain ⟨claims, hc, hget⟩ := validatorClaimMap_foldlM st st.powerStore
    st.powerStore_stored ∅
  have heq : claims = claimsOf st := by
    apply SortedMap.ext_get?
    intro a
    rw [hget a, get?_claimsOf]
    by_cases hb : st.Bonded a
    · obtain ⟨v, hv, hvb⟩ := hb
      have hmem := st.bonded_listed a v hv hvb
      have hbonded : st.Bonded a := ⟨v, hv, hvb⟩
      simp [hmem, hbonded]
    · simp [hb]
  rw [← heq]
  exact hc

end Claims

section Ballots

variable (rt : Runtime) (o : IterationOrder) (claims : ClaimMap) (s : State)

def castBy (voterAddr : ValAddress) (vote : AggregateExchangeRateVote) : Ballot :=
  match claims.get? vote.voter with
  | some claim => vote.exchangeRateTuples.map (voteForTally claim.power voterAddr)
  | none => []

/-- All votes of claim holders, in the order the store is walked. -/
def castVotes : Ballot :=
  s.aggregateExchangeRateVote.entries.flatMap (fun e => castBy claims e.1 e.2)

def castOn (denom : String) : Ballot := (castVotes claims s).filter (fun v => v.denom = denom)

theorem get?_foldl_appendVote (l : Ballot) (m : VoteMap) (denom : String) :
    (l.foldl appendVote m).get? denom =
      if l.filter (fun v => v.denom = denom) = [] then m.get? denom
      else some ((m.get? denom).getD [] ++ l.filter (fun v => v.denom = denom)) := by
  induction l generalizing m with
  | nil => simp
  | cons v l ih =>
      rw [List.foldl_cons, ih, appendVote, SortedMap.get?_insert]
      by_cases hd : v.denom = denom
      · simp [hd]
      · simp [hd]

theorem foldl_aggregateHandler (l : List (ValAddress × AggregateExchangeRateVote)) (m : VoteMap) :
    l.foldl (fun votes e => aggregateHandler claims votes e.1 e.2) m =
      (l.flatMap (fun e => castBy claims e.1 e.2)).foldl appendVote m := by
  induction l generalizing m with
  | nil => rfl
  | cons e l ih =>
      rw [List.foldl_cons, ih, List.flatMap_cons, List.foldl_append]
      congr 1
      unfold aggregateHandler castBy
      cases claims.get? e.2.voter <;> rfl

theorem get?_foldl_sortBallot {ks : List String} (hks : ks.Nodup) (m : VoteMap) (denom : String) :
    (ks.foldl (sortBallot rt) m).get? denom =
      if denom ∈ ks then some (rt.sort ((m.get? denom).getD [])) else m.get? denom := by
  induction ks generalizing m with
  | nil => simp
  | cons k ks ih =>
      obtain ⟨hk, hks⟩ := List.nodup_cons.mp hks
      rw [List.foldl_cons, ih hks, sortBallot, SortedMap.get?_insert]
      by_cases hd : k = denom
      · subst hd
        simp [hk]
      · simp [hd, Ne.symm hd]

/-- The ballot of a denomination, if anyone voted on it. -/
theorem get?_organizeBallotByDenom (denom : String) :
    (organizeBallotByDenom rt o s claims).get? denom =
      if castOn claims s denom = [] then none else some (rt.sort (castOn claims s denom)) := by
  have hvotes := get?_foldl_appendVote (castVotes claims s) ∅ denom
  simp only [SortedMap.get?_empty, Option.getD_none, List.nil_append] at hvotes
  have hmem : denom ∈ o.keys .organizeBallot ((castVotes claims s).foldl appendVote ∅).keys ↔
      castOn claims s denom ≠ [] := by
    rw [(o.perm _ _).mem_iff, SortedMap.mem_keys_iff_isSome, hvotes, castOn]
    split_ifs with h <;> simp [h]
  unfold organizeBallotByDenom
  rw [foldl_aggregateHandler]
  change ((o.keys .organizeBallot ((castVotes claims s).foldl appendVote ∅).keys).foldl
    (sortBallot rt) ((castVotes claims s).foldl appendVote ∅)).get? denom = _
  rw [get?_foldl_sortBallot rt ((o.perm _ _).nodup_iff.mpr (SortedMap.keys_nodup _)), hvotes]
  by_cases hd : castOn claims s denom = []
  · rw [if_neg (fun h => hmem.mp h hd), if_pos hd]
    exact if_pos hd
  · rw [if_pos (hmem.mpr hd), if_neg hd]
    exact congrArg (fun x => some (rt.sort (Option.getD x []))) (if_neg hd)

/-- Sorting the ballots in another order of the map gives the same map. -/
theorem organizeBallotByDenom_order (o o' : IterationOrder) :
    organizeBallotByDenom rt o s claims = organizeBallotByDenom rt o' s claims := by
  apply SortedMap.ext_get?
  intro denom
  rw [get?_organizeBallotByDenom, get?_organizeBallotByDenom]

variable {claims s}

theorem mem_castVotes {v : VoteForTally} :
    v ∈ castVotes claims s ↔ ∃ a vote claim tuple, s.aggregateExchangeRateVote.get? a = some vote ∧
      claims.get? vote.voter = some claim ∧ tuple ∈ vote.exchangeRateTuples ∧
      v = voteForTally claim.power a tuple := by
  simp only [castVotes, List.mem_flatMap, castBy]
  constructor
  · rintro ⟨⟨a, vote⟩, he, hv⟩
    cases hc : claims.get? vote.voter with
    | none => simp [hc] at hv
    | some claim =>
        simp only [hc, List.mem_map] at hv
        obtain ⟨tuple, ht, rfl⟩ := hv
        exact ⟨a, vote, claim, tuple, SortedMap.get?_eq_some.mpr he, hc, ht, rfl⟩
  · rintro ⟨a, vote, claim, tuple, he, hc, ht, rfl⟩
    refine ⟨(a, vote), SortedMap.get?_eq_some.mp he, ?_⟩
    simp only [hc, List.mem_map]
    exact ⟨tuple, ht, rfl⟩

end Ballots

end Kiichain.Oracle
