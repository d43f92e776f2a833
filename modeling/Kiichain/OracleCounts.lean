import Kiichain.OracleOverflow

/-!
# How a period counts an operator

A period that ends normally has tallied the passing ballots and then those that
fall short. It bumps one counter of each bonded operator, by the number of its
wins and by whether it took part in any tally.
-/

namespace Kiichain.Oracle
open GoExec FixedPoint

section Rewards

variable (rt : Runtime) (rewardBand : LegacyDec)

def rewardAll (ballots : List Ballot) (claims : ClaimMap) : ClaimMap :=
  ballots.foldl (fun claims b => b.reward rt rewardBand claims) claims

def winsAmong (ballots : List Ballot) (a : ValAddress) : ℕ :=
  (ballots.map (fun b => b.winsOf rt rewardBand a)).sum

variable {rt rewardBand}

variable (rt rewardBand) in
theorem get?_rewardAll (ballots : List Ballot) {claims : ClaimMap} {a : ValAddress} {c : Claim}
    (hc : claims.get? a = some c) : ∃ weight, (rewardAll rt rewardBand ballots claims).get? a =
      some ⟨c.power, weight, c.winCount + winsAmong rt rewardBand ballots a,
        c.didVote || ballots.any (fun b => b.hasVoter a), c.recipient⟩ := by
  induction ballots generalizing claims c with
  | nil => exact ⟨c.weight, by simpa [rewardAll, winsAmong] using hc⟩
  | cons b ballots ih =>
      obtain ⟨weight, hb⟩ :=
        get?_rewardVotes (fun rate => decide (b.InBand rt rewardBand rate)) b hc
      obtain ⟨weight', hrest⟩ := @ih (b.reward rt rewardBand claims) _ hb
      refine ⟨weight', ?_⟩
      change (rewardAll rt rewardBand ballots (b.reward rt rewardBand claims)).get? a = _
      rw [hrest]
      simp [winsAmong, Ballot.winsOf, add_assoc, Bool.or_assoc]

theorem get?_rewardAll_none (ballots : List Ballot) {claims : ClaimMap} {a : ValAddress}
    (hc : claims.get? a = none) (hballots : ∀ b ∈ ballots, ∀ v ∈ b, v.voter ≠ a) :
    (rewardAll rt rewardBand ballots claims).get? a = none := by
  induction ballots generalizing claims with
  | nil => exact hc
  | cons b ballots ih =>
      have hb := get?_rewardVotes_none (fun rate => decide (b.InBand rt rewardBand rate)) b hc
        (hballots b List.mem_cons_self)
      exact ih hb (fun b' hb' => hballots b' (List.mem_cons_of_mem b hb'))

end Rewards

section Counters

theorem getVotePenaltyCounterOrDefault_countOutcome (s : State) (a b : ValAddress) (x : Outcome) :
    getVotePenaltyCounterOrDefault (countOutcome s a x) b =
      if a = b then bump x (getVotePenaltyCounterOrDefault s b)
      else getVotePenaltyCounterOrDefault s b := by
  rw [countOutcome_eq, getVotePenaltyCounterOrDefault_set]
  split_ifs with hab
  · rw [hab]
  · rfl

/-- Each claim bumps one counter of its holder once. -/
theorem getVotePenaltyCounterOrDefault_foldl {targets : ℕ} {claims : ClaimMap}
    (hrecipient : ∀ a c, claims.get? a = some c → c.recipient = a) {l : List ValAddress}
    (hl : l.Nodup) (s : State) (a : ValAddress) :
    getVotePenaltyCounterOrDefault (l.foldl (countVote targets claims) s) a =
      match claims.get? a with
      | some c => if a ∈ l then bump (outcome targets c) (getVotePenaltyCounterOrDefault s a)
        else getVotePenaltyCounterOrDefault s a
      | none => getVotePenaltyCounterOrDefault s a := by
  induction l generalizing s with
  | nil => cases claims.get? a <;> rfl
  | cons b l ih =>
      obtain ⟨hb, hl⟩ := List.nodup_cons.mp hl
      have hfirst : getVotePenaltyCounterOrDefault (countVote targets claims s b) a =
          match claims.get? b with
          | some c => if b = a then bump (outcome targets c) (getVotePenaltyCounterOrDefault s a)
            else getVotePenaltyCounterOrDefault s a
          | none => getVotePenaltyCounterOrDefault s a := by
        unfold countVote
        cases hc : claims.get? b with
        | none => rfl
        | some c =>
            simp only
            rw [hrecipient b c hc, getVotePenaltyCounterOrDefault_countOutcome]
      rw [List.foldl_cons, ih hl, hfirst]
      by_cases hab : b = a
      · subst hab
        cases claims.get? b <;> simp [hb]
      · cases claims.get? a <;> cases claims.get? b <;> simp [hab, Ne.symm hab]

theorem getVotePenaltyCounterOrDefault_countVotes {targets : ℕ} {claims : ClaimMap}
    (hrecipient : ∀ a c, claims.get? a = some c → c.recipient = a) (o : IterationOrder) (s : State)
    (a : ValAddress) :
    getVotePenaltyCounterOrDefault (countVotes o targets claims s) a =
      match claims.get? a with
      | some c => bump (outcome targets c) (getVotePenaltyCounterOrDefault s a)
      | none => getVotePenaltyCounterOrDefault s a := by
  have hperm := o.perm .missCount claims.keys
  rw [countVotes, getVotePenaltyCounterOrDefault_foldl hrecipient
    (hperm.nodup_iff.mpr claims.keys_nodup)]
  cases hc : claims.get? a with
  | none => rfl
  | some c =>
      have hmem : a ∈ o.keys .missCount claims.keys :=
        hperm.mem_iff.mpr (SortedMap.mem_keys.mpr ⟨c, hc⟩)
      simp [hmem]

end Counters

section Period

variable (rt : Runtime) (st : Staking) (s : State)

/-- The reference denomination, or nothing where no ballot passes. -/
def reference : String :=
  ((passingTargets rt st s).find? (fun r => decide (IsReference rt st s r))).getD ""

def passingBallots : List Ballot :=
  (passingTargets rt st s).map (tallied rt st s (reference rt st s))

def failingBallots : List Ballot := (failingTargets rt st s).map (ballotOn rt st s)

/-- The operator has a vote on a target, so it takes part in a tally. -/
def tookPart (a : ValAddress) : Bool :=
  (passingTargets rt st s ++ failingTargets rt st s).any
    (fun denom => (castOn (claimsOf st) s denom).hasVoter a)

def periodWins (a : ValAddress) : ℕ :=
  winsAmong rt s.params.rewardBand (passingBallots rt st s ++ failingBallots rt st s) a

/-- The targets a winner is measured against. -/
def remainingTargets : ℕ := (passingTargets rt st s).length + (unvotedTargets st s).length

def periodOutcome (a : ValAddress) : Outcome :=
  if periodWins rt st s a = remainingTargets rt st s then .success
  else if tookPart rt st s a then .miss else .abstain

variable {rt st s}

theorem reference_eq {r : String} (h : IsReference rt st s r) : reference rt st s = r := by
  unfold reference
  cases hfind : (passingTargets rt st s).find? (fun r => decide (IsReference rt st s r)) with
  | none =>
      have hnot := List.find?_eq_none.mp hfind r h.1
      exact absurd (decide_eq_true h) hnot
  | some r' =>
      have href := List.find?_some hfind
      exact isReference_unique (of_decide_eq_true href) h

/-- Sorting and conversion keep the voters. -/
theorem voters_ballotOn (d : String) :
    ((ballotOn rt st s d).map (·.voter)).Perm ((castOn (claimsOf st) s d).map (·.voter)) :=
  (rt.sort_perm _).map _

theorem voters_tallied (r d : String) :
    ((tallied rt st s r d).map (·.voter)).Perm ((castOn (claimsOf st) s d).map (·.voter)) := by
  apply List.Perm.trans _ (@voters_ballotOn rt st s d)
  unfold tallied
  split_ifs
  · apply ((rt.sort_perm _).map _).trans
    rw [Ballot.toCrossRate, List.map_map]
    apply List.Perm.of_eq
    apply List.map_congr_left
    exact fun v _ => toCrossVote_voter _ v
  · exact List.Perm.refl _

theorem hasVoter_congr {b c : Ballot} (h : (b.map (·.voter)).Perm (c.map (·.voter)))
    (a : ValAddress) : b.hasVoter a = c.hasVoter a := by
  rw [Bool.eq_iff_iff, Ballot.hasVoter_iff, Ballot.hasVoter_iff, ← List.mem_map, ← List.mem_map,
    h.mem_iff]

theorem hasVoter_ballotOn (d : String) (a : ValAddress) :
    (ballotOn rt st s d).hasVoter a = (castOn (claimsOf st) s d).hasVoter a :=
  hasVoter_congr (voters_ballotOn d) a

theorem hasVoter_tallied (r d : String) (a : ValAddress) :
    (tallied rt st s r d).hasVoter a = (castOn (claimsOf st) s d).hasVoter a :=
  hasVoter_congr (voters_tallied r d) a

theorem any_hasVoter (a : ValAddress) :
    (passingBallots rt st s ++ failingBallots rt st s).any (fun b => b.hasVoter a) =
      tookPart rt st s a := by
  simp only [passingBallots, failingBallots, tookPart, List.any_append, List.any_map,
    Function.comp_def, hasVoter_tallied, hasVoter_ballotOn]

variable {o : IterationOrder} {blk : Block} {t : State} (hs : AcceptedVotes s)
  (hv : s.params.Valid)

include hv in
theorem claims_of_tally {b : Ballot} (hb : b.WellFormed) {claims claims' : ClaimMap}
    {rate : LegacyDec} (h : tally rt s.params.rewardBand b claims = .ok (rate, claims')) :
    claims' = b.reward rt s.params.rewardBand claims := by
  have hfits := (returns_tally_iff hb hv.rewardBand_nonneg hv.rewardBand_le_one claims).mp ⟨_, h⟩
  rw [tally_eq hb hv.rewardBand_nonneg hv.rewardBand_le_one hfits] at h
  cases h
  rfl

include hs

theorem voter_of_periodBallots {b : Ballot}
    (hb : b ∈ passingBallots rt st s ++ failingBallots rt st s) {v : VoteForTally} (hmem : v ∈ b) :
    st.Bonded v.voter := by
  have hvoter : ∃ d, (castOn (claimsOf st) s d).hasVoter v.voter = true := by
    simp only [passingBallots, failingBallots, List.mem_append, List.mem_map] at hb
    obtain ⟨d, _, rfl⟩ | ⟨d, _, rfl⟩ := hb
    · refine ⟨d, ?_⟩
      rw [← @hasVoter_tallied rt st s (reference rt st s), Ballot.hasVoter_iff]
      exact ⟨v, hmem, rfl⟩
    · refine ⟨d, ?_⟩
      rw [← @hasVoter_ballotOn rt, Ballot.hasVoter_iff]
      exact ⟨v, hmem, rfl⟩
  obtain ⟨d, hd⟩ := hvoter
  obtain ⟨w, hw, heq⟩ := Ballot.hasVoter_iff.mp hd
  rw [← heq]
  exact ((mem_castOn hs).mp hw).2.2.1

/-- The claims when both loops have ended. -/
theorem get?_periodClaims {claims : ClaimMap} (h : claims = rewardAll rt s.params.rewardBand
    (passingBallots rt st s ++ failingBallots rt st s) (claimsOf st)) (a : ValAddress) :
    (∃ weight, claims.get? a = some ⟨st.power a, weight, periodWins rt st s a,
        tookPart rt st s a, a⟩) ∧ st.Bonded a ∨ claims.get? a = none ∧ ¬ st.Bonded a := by
  subst h
  by_cases ha : st.Bonded a
  · have hclaim : (claimsOf st).get? a = some (claimOf st a) := by rw [get?_claimsOf, if_pos ha]
    obtain ⟨weight, hget⟩ := get?_rewardAll rt s.params.rewardBand
      (passingBallots rt st s ++ failingBallots rt st s) hclaim
    refine Or.inl ⟨⟨weight, ?_⟩, ha⟩
    rw [hget, any_hasVoter]
    simp [claimOf, newClaim, periodWins]
  · have hclaim : (claimsOf st).get? a = none := by rw [get?_claimsOf, if_neg ha]
    refine Or.inr ⟨get?_rewardAll_none _ hclaim ?_, ha⟩
    rintro b hb v hv' rfl
    exact ha (voter_of_periodBallots hs hb hv')

theorem recipient_of_periodClaims {claims : ClaimMap} (h : claims = rewardAll rt s.params.rewardBand
    (passingBallots rt st s ++ failingBallots rt st s) (claimsOf st)) {a : ValAddress} {c : Claim}
    (hc : claims.get? a = some c) : c.recipient = a ∧ st.Bonded a := by
  obtain ⟨⟨weight, hget⟩, ha⟩ | ⟨hget, _⟩ := get?_periodClaims hs h a
  · rw [hget] at hc
    cases hc
    exact ⟨rfl, ha⟩
  · rw [hget] at hc
    cases hc

include hv

theorem claims_of_tallyPassing {p : Pick} (hp : Picked rt st s p) {claims claims' : ClaimMap}
    (h : tallyPassing rt .ascending blk s.params.rewardBand p claims s = .ok (claims', t)) :
    claims' = rewardAll rt s.params.rewardBand (passingBallots rt st s) claims := by
  rw [tallyPassing_eq hp] at h
  obtain ⟨hr, hnil⟩ | href := hp.reference
  · rw [if_neg (not_not.mpr hr)] at h
    cases h
    simp [passingBallots, rewardAll, hnil]
  · rw [if_pos (ne_empty_of_voted hs (castOn_ne_nil_of_passing href.1))] at h
    have hloop := foldlM_proj Prod.fst (g := fun claims d =>
      (tallied rt st s p.referenceDenom d).reward rt s.params.rewardBand claims) ?_ h
    · simp only at hloop
      rw [hloop, passingBallots, rewardAll, List.foldl_map, reference_eq href]
    · intro acc d hd acc' hturn
      rw [tallyDenom, votingTally_eq hp hd, bind_eq_ok] at hturn
      obtain ⟨⟨rate, claims₁⟩, htally, hrest⟩ := hturn
      have hclaims := claims_of_tally hv (tallied_wellFormed rt hs _ (castOn_ne_nil_of_passing hd))
        htally
      dsimp only at hrest
      split_ifs at hrest
      · cases hrest
        exact hclaims
      · rw [bind_eq_ok] at hrest
        obtain ⟨_, _, hrest⟩ := hrest
        cases hrest
        exact hclaims

theorem claims_of_tallyBelowThreshold {p : Pick} (hp : Picked rt st s p) {claims claims' : ClaimMap}
    (h : tallyBelowThreshold rt .ascending s.params.rewardBand p.belowThresholdVoteMap claims =
      .ok claims') :
    claims' = rewardAll rt s.params.rewardBand (failingBallots rt st s) claims := by
  rw [tallyBelowThreshold_eq hp] at h
  have hloop := foldlM_proj id (g := fun claims d =>
    (ballotOn rt st s d).reward rt s.params.rewardBand claims) ?_ h
  · simp only [id_eq] at hloop
    rw [hloop, failingBallots, rewardAll, List.foldl_map]
  · intro claims d hd claims' hturn
    rw [getD_below hp hd, bind_eq_ok] at hturn
    obtain ⟨⟨rate, claims₁⟩, htally, hrest⟩ := hturn
    cases hrest
    exact claims_of_tally hv (ballotOn_wellFormed hs rt (castOn_ne_nil_of_failing hd)) htally

/-- The counters that a period leaves are counted from its claims. -/
theorem exists_periodClaims (h : tallyPeriod rt o blk st s = .ok t) :
    ∃ claims u, claims = rewardAll rt s.params.rewardBand
        (passingBallots rt st s ++ failingBallots rt st s) (claimsOf st) ∧
      u.votePenaltyCounter = s.votePenaltyCounter ∧ t.votePenaltyCounter =
        (countVotes .ascending (remainingTargets rt st s) claims u).votePenaltyCounter := by
  obtain ⟨p, hpick, claims, t₁, hpassing, claims₁, hbelow, t₂, hwhitelist, rfl⟩ :=
    (tallyPeriod_eq_ok rt blk st s o).mp h
  have hp := picked_of_pick hpick
  obtain ⟨_, hsnapshot⟩ := takePriceSnapshot_frame blk t₂
  refine ⟨claims₁, t₁, ?_, ?_, ?_⟩
  · rw [claims_of_tallyBelowThreshold hs hv hp hbelow, claims_of_tallyPassing hs hv hp hpassing]
    simp only [rewardAll, List.foldl_append]
  · obtain ⟨_, _, rfl⟩ := tallyPassing_frame hp hpassing
    rfl
  · obtain ⟨_, _, rfl⟩ := applyWhitelist_frame hwhitelist
    rw [hsnapshot, size_voteTargets hp]
    rfl

/-- One counter of each bonded operator is bumped, and no other counter changes. -/
theorem tallyPeriod_counts (h : tallyPeriod rt o blk st s = .ok t) (a : ValAddress) :
    getVotePenaltyCounterOrDefault t a =
      if st.Bonded a then bump (periodOutcome rt st s a) (getVotePenaltyCounterOrDefault s a)
      else getVotePenaltyCounterOrDefault s a := by
  obtain ⟨claims, u, hclaims, hu, ht⟩ := exists_periodClaims hs hv h
  have hcounts : getVotePenaltyCounterOrDefault
      (countVotes .ascending (remainingTargets rt st s) claims u) a = _ :=
    getVotePenaltyCounterOrDefault_countVotes
      (fun b c hc => (recipient_of_periodClaims hs hclaims hc).1) .ascending u a
  unfold getVotePenaltyCounterOrDefault at hcounts ⊢
  rw [ht, hcounts, hu]
  obtain ⟨⟨weight, hget⟩, ha⟩ | ⟨hget, ha⟩ := get?_periodClaims hs hclaims a
  · rw [hget, if_pos ha]
    simp only [outcome, periodOutcome, Nat.cast_inj]
  · rw [hget, if_neg ha]

end Period

end Kiichain.Oracle
