import Kiichain.OracleTally

/-!
# The end of a vote period in closed form

The targets divide into those whose ballot passes, those whose ballot falls
short and those nobody voted on. The selection keeps the first, sets the second
apart and leaves the last among the targets that a winner is measured against.
-/

namespace Kiichain.Oracle
open GoExec FixedPoint

theorem sortStrings_keys {V : Type} (m : SortedMap String V) : sortStrings m.keys = m.keys :=
  (m.keys_sorted.imp le_of_lt).insertionSort_eq

section Targets

variable (rt : Runtime) (st : Staking) (s : State)

def ballotOn (denom : String) : Ballot := rt.sort (castOn (claimsOf st) s denom)

/-- The voting power a ballot has to reach. -/
def quorum : ℤ := chop legacyFormat.scale (s.params.voteThreshold.raw * st.totalBondedPower)

def voted (denom : String) : Bool := castOn (claimsOf st) s denom ≠ []

def passes (denom : String) : Bool :=
  voted st s denom && ballotIsPassing (ballotOn rt st s denom) (quorum st s)

def fails (denom : String) : Bool :=
  voted st s denom && !ballotIsPassing (ballotOn rt st s denom) (quorum st s)

def passingTargets : List String := s.voteTarget.keys.filter (passes rt st s)

def failingTargets : List String := s.voteTarget.keys.filter (fails rt st s)

def unvotedTargets : List String := s.voteTarget.keys.filter (fun denom => !voted st s denom)

/-- The passing target of greatest power, the first by name among equals. -/
def IsReference (r : String) : Prop :=
  r ∈ passingTargets rt st s ∧ ∀ d ∈ passingTargets rt st s,
    (ballotOn rt st s d).power < (ballotOn rt st s r).power ∨
      (ballotOn rt st s d).power = (ballotOn rt st s r).power ∧ r ≤ d

instance (r : String) : Decidable (IsReference rt st s r) := inferInstanceAs (Decidable (_ ∧ _))

/-- The ballot whose median becomes the rate, given the reference denomination. -/
def tallied (r denom : String) : Ballot :=
  if denom ≠ r then (ballotOn rt st s denom).toCrossRateWithSort rt (ballotOn rt st s r).toMap
  else ballotOn rt st s denom

def referenceOf (r : String) : Reference :=
  ⟨r, (ballotOn rt st s r).toMap, (ballotOn rt st s r).median⟩

variable {rt st s}

theorem mem_passingTargets {d : String} :
    d ∈ passingTargets rt st s ↔ d ∈ s.voteTarget.keys ∧ passes rt st s d = true :=
  List.mem_filter

theorem mem_failingTargets {d : String} :
    d ∈ failingTargets rt st s ↔ d ∈ s.voteTarget.keys ∧ fails rt st s d = true :=
  List.mem_filter

theorem castOn_ne_nil_of_passing {d : String} (h : d ∈ passingTargets rt st s) :
    castOn (claimsOf st) s d ≠ [] := by
  have hp := (mem_passingTargets.mp h).2
  simp only [passes, voted, Bool.and_eq_true, decide_eq_true_eq] at hp
  exact hp.1

theorem castOn_ne_nil_of_failing {d : String} (h : d ∈ failingTargets rt st s) :
    castOn (claimsOf st) s d ≠ [] := by
  have hf := (mem_failingTargets.mp h).2
  simp only [fails, voted, Bool.and_eq_true, decide_eq_true_eq] at hf
  exact hf.1

theorem isReference_unique {r r' : String} (h : IsReference rt st s r) (h' : IsReference rt st s r') :
    r = r' := by
  obtain hlt | ⟨heq, hle⟩ := h.2 r' h'.1
  · obtain hlt' | ⟨heq', _⟩ := h'.2 r h.1 <;> omega
  · obtain hlt' | ⟨_, hle'⟩ := h'.2 r h.1
    · omega
    · exact le_antisymm hle hle'

variable (rt st s) in
theorem not_fails_iff (d : String) :
    (!fails rt st s d) = (passes rt st s d || !voted st s d) ∧
      (passes rt st s d && !voted st s d) = false := by
  unfold fails passes
  cases voted st s d <;> cases ballotIsPassing (ballotOn rt st s d) (quorum st s) <;> simp

/-- Every target passes, falls short or has no votes. -/
theorem length_passing_add_unvoted :
    (s.voteTarget.keys.filter (fun d => !fails rt st s d)).length =
      (passingTargets rt st s).length + (unvotedTargets st s).length := by
  unfold passingTargets unvotedTargets
  simp only [← List.countP_eq_length_filter]
  induction s.voteTarget.keys with
  | nil => rfl
  | cons d l ih =>
      obtain ⟨hor, hand⟩ := not_fails_iff rt st s d
      simp only [List.countP_cons, ih, hor]
      cases hp : passes rt st s d <;> cases hv : voted st s d <;> simp_all [add_right_comm]
      omega

end Targets

section Threshold

variable {st : Staking} {s : State}

theorem fits_of_chop {z : ℤ} (h : (chop legacyFormat.scale z).natAbs < 2 ^ 256) :
    Decimal.Fits legacyFormat z := by
  rw [natAbs_chop] at h
  have hb := (halfEven_bounds legacyFormat.scale_pos z.natAbs).2
  have hmul := Nat.mul_le_mul_left legacyFormat.scale (Nat.succ_le_of_lt h)
  unfold Decimal.Fits
  rw [two_pow_bits]
  generalize halfEven legacyFormat.scale z.natAbs = rounded at hb hmul
  simp only [legacyFormat_scale] at hb hmul
  omega

theorem thresholdVotes_eq_ok {threshold : ℤ} :
    thresholdVotes st s.params = .ok threshold ↔
      (quorum st s).natAbs < 2 ^ 256 ∧ threshold = quorum st s := by
  simp only [thresholdVotes, bind_eq_ok, Decimal.mulInt_eq_ok, Decimal.roundInt, pure_eq_ok,
    Except.ok.injEq]
  constructor
  · rintro ⟨scaled, ⟨_, rfl⟩, rounded, hrounded, rfl⟩
    have hval := BoundedInt.checked_eq_ok.mp hrounded
    refine ⟨?_, hval⟩
    have hfits := rounded.fits
    rw [hval] at hfits
    exact hfits
  · rintro ⟨hfits, rfl⟩
    exact ⟨_, ⟨fits_of_chop hfits, rfl⟩, ⟨quorum st s, hfits⟩, BoundedInt.checked_eq_ok.mpr rfl, rfl⟩

end Threshold

section Selection

variable (rt : Runtime) (st : Staking) (s : State)

/-- The variables of the selection loop when it ends. -/
structure Picked (p : Pick) : Prop where
  voteMap : p.voteMap =
    (s.voteTarget.filter (fun d _ => passes rt st s d)).mapValues (fun d _ => ballotOn rt st s d)
  below : p.belowThresholdVoteMap =
    (s.voteTarget.filter (fun d _ => fails rt st s d)).mapValues (fun d _ => ballotOn rt st s d)
  voteTargets : p.voteTargets = s.voteTarget.filter (fun d _ => !fails rt st s d)
  reference : p.referenceDenom = "" ∧ passingTargets rt st s = [] ∨
    IsReference rt st s p.referenceDenom

variable {rt st s}

theorem get?_organized (o : IterationOrder) (d : String) :
    (organizeBallotByDenom rt o s (claimsOf st)).get? d =
      if voted st s d then some (ballotOn rt st s d) else none := by
  rw [get?_organizeBallotByDenom]
  unfold voted ballotOn
  by_cases h : castOn (claimsOf st) s d = [] <;> simp [h]

theorem passingBallot_organized (o : IterationOrder) (d : String) :
    passingBallot (quorum st s) s.voteTarget (organizeBallotByDenom rt o s (claimsOf st)) d =
      if d ∈ passingTargets rt st s then some (ballotOn rt st s d) else none := by
  rw [passingBallot, get?_organized]
  simp only [mem_passingTargets, SortedMap.mem_keys_iff_isSome, passes]
  cases voted st s d <;> simp [Option.filter_some]

theorem failingBallot_organized (o : IterationOrder) (d : String) :
    failingBallot (quorum st s) s.voteTarget (organizeBallotByDenom rt o s (claimsOf st)) d =
      if d ∈ failingTargets rt st s then some (ballotOn rt st s d) else none := by
  rw [failingBallot, get?_organized]
  simp only [mem_failingTargets, SortedMap.mem_keys_iff_isSome, fails]
  cases voted st s d <;> simp [Option.filter_some]

theorem get?_filter_mapValues (p : String → Bool) (f : String → Ballot) (d : String) :
    ((s.voteTarget.filter (fun d _ => p d)).mapValues (fun d _ => f d)).get? d =
      if d ∈ s.voteTarget.keys.filter p then some (f d) else none := by
  rw [SortedMap.get?_mapValues, SortedMap.get?_filter]
  simp only [List.mem_filter, SortedMap.mem_keys_iff_isSome]
  cases s.voteTarget.get? d <;> cases p d <;> simp [Option.filter_some]

theorem isReference_of_isBest {o : IterationOrder} {r : String} {power : ℤ}
    (h : IsBest (quorum st s) s.voteTarget (organizeBallotByDenom rt o s (claimsOf st))
      (organizeBallotByDenom rt o s (claimsOf st)).keys r power) :
    r = "" ∧ passingTargets rt st s = [] ∨ IsReference rt st s r := by
  have hkey : ∀ d ∈ passingTargets rt st s,
      d ∈ (organizeBallotByDenom rt o s (claimsOf st)).keys := by
    intro d hd
    rw [SortedMap.mem_keys_iff_isSome, get?_organized, voted, if_pos]
    · rfl
    · exact decide_eq_true (castOn_ne_nil_of_passing hd)
  obtain ⟨rfl, _, hnone⟩ | ⟨_, ⟨b, hb, rfl⟩, hall⟩ := h
  · refine Or.inl ⟨rfl, List.eq_nil_iff_forall_not_mem.mpr fun d hd => ?_⟩
    have hd' := hnone d (hkey d hd)
    rw [passingBallot_organized, if_pos hd] at hd'
    cases hd'
  · rw [passingBallot_organized] at hb
    split_ifs at hb with hr
    cases hb
    refine Or.inr ⟨hr, fun d hd => ?_⟩
    apply hall d (hkey d hd)
    rw [passingBallot_organized, if_pos hd]

theorem picked_of_settled {o : IterationOrder} {p : Pick}
    (h : Settled (quorum st s) s.voteTarget (organizeBallotByDenom rt o s (claimsOf st)) p) :
    Picked rt st s p := by
  refine ⟨?_, ?_, ?_, isReference_of_isBest h.best⟩
  · apply SortedMap.ext_get?
    intro d
    rw [h.voteMap, passingBallot_organized, get?_filter_mapValues]
    rfl
  · apply SortedMap.ext_get?
    intro d
    rw [h.below, failingBallot_organized, get?_filter_mapValues]
    rfl
  · apply SortedMap.ext_get?
    intro d
    rw [h.voteTargets, failingBallot_organized, SortedMap.get?_filter]
    simp only [mem_failingTargets, SortedMap.mem_keys_iff_isSome]
    cases s.voteTarget.get? d <;> cases fails rt st s d <;> simp [Option.filter_some]

variable (rt) in
theorem exists_picked (o : IterationOrder) (hquorum : (quorum st s).natAbs < 2 ^ 256) :
    ∃ p, pickReferenceDenom o st s.params s.voteTarget
      (organizeBallotByDenom rt o s (claimsOf st)) = .ok p ∧ Picked rt st s p := by
  refine ⟨_, pickReferenceDenom_eq_ok.mpr
    ⟨_, thresholdVotes_eq_ok.mpr ⟨hquorum, rfl⟩, rfl⟩, ?_⟩
  exact picked_of_settled (settled_pick (passing_pos_of_nonneg (organized_power_nonneg rt o)))

theorem quorum_of_pick {o : IterationOrder} {p : Pick} {targets : SortedMap String Denom}
    {votes : VoteMap} (h : pickReferenceDenom o st s.params targets votes = .ok p) :
    (quorum st s).natAbs < 2 ^ 256 := by
  obtain ⟨threshold, ht, _⟩ := pickReferenceDenom_eq_ok.mp h
  exact (thresholdVotes_eq_ok.mp ht).1

theorem picked_of_pick {o : IterationOrder} {p : Pick}
    (h : pickReferenceDenom o st s.params s.voteTarget
      (organizeBallotByDenom rt o s (claimsOf st)) = .ok p) : Picked rt st s p := by
  obtain ⟨q, hq, hp⟩ := exists_picked rt o (quorum_of_pick h)
  rw [h] at hq
  cases hq
  exact hp

variable {p : Pick} (hp : Picked rt st s p)
include hp

theorem keys_voteMap : p.voteMap.keys = passingTargets rt st s := by
  rw [hp.voteMap, SortedMap.keys_mapValues, SortedMap.keys_filter]
  rfl

theorem keys_below : p.belowThresholdVoteMap.keys = failingTargets rt st s := by
  rw [hp.below, SortedMap.keys_mapValues, SortedMap.keys_filter]
  rfl

theorem size_voteTargets :
    p.voteTargets.size = (passingTargets rt st s).length + (unvotedTargets st s).length := by
  rw [hp.voteTargets, ← SortedMap.length_keys, SortedMap.keys_filter]
  exact length_passing_add_unvoted

theorem getD_voteMap {d : String} (hd : d ∈ passingTargets rt st s) :
    (p.voteMap.get? d).getD [] = ballotOn rt st s d := by
  rw [hp.voteMap, get?_filter_mapValues]
  exact congrArg (fun x => Option.getD x []) (if_pos hd)

theorem getD_below {d : String} (hd : d ∈ failingTargets rt st s) :
    (p.belowThresholdVoteMap.get? d).getD [] = ballotOn rt st s d := by
  rw [hp.below, get?_filter_mapValues]
  exact congrArg (fun x => Option.getD x []) (if_pos hd)

theorem votingTally_eq {r d : String} (hd : d ∈ passingTargets rt st s) :
    votingTally rt (referenceOf rt st s r) p.voteMap d = tallied rt st s r d := by
  rw [votingTally, getD_voteMap hp hd]
  rfl

end Selection

section Stages

variable (rt : Runtime) (blk : Block) (st : Staking) (s : State)

theorem tallyPeriod_eq_ok (o : IterationOrder) {t : State} :
    tallyPeriod rt o blk st s = .ok t ↔ ∃ p, pickReferenceDenom .ascending st s.params s.voteTarget
        (organizeBallotByDenom rt .ascending s (claimsOf st)) = .ok p ∧
      ∃ claims t₁, tallyPassing rt .ascending blk s.params.rewardBand p (claimsOf st) s =
        .ok (claims, t₁) ∧
      ∃ claims₁, tallyBelowThreshold rt .ascending s.params.rewardBand p.belowThresholdVoteMap
        claims = .ok claims₁ ∧
      ∃ t₂, applyWhitelist s.params.whitelist p.voteTargets
        (clearVotes (countVotes .ascending p.voteTargets.size claims₁ t₁)) = .ok t₂ ∧
      takePriceSnapshot blk t₂ = t := by
  rw [tallyPeriod_order rt o .ascending]
  simp only [tallyPeriod, validatorClaimMap_eq, ok_bind, bind_eq_ok, pure_eq_ok, Except.ok.injEq,
    Prod.exists]

variable {rt blk st s}

theorem tallyPassing_eq {p : Pick} (hp : Picked rt st s p) (rewardBand : LegacyDec)
    (claims : ClaimMap) (t : State) :
    tallyPassing rt .ascending blk rewardBand p claims t =
      if p.referenceDenom ≠ "" then
        (passingTargets rt st s).foldlM
          (tallyDenom rt blk rewardBand (referenceOf rt st s p.referenceDenom) p.voteMap) (claims, t)
      else .ok (claims, t) := by
  unfold tallyPassing
  by_cases hr : p.referenceDenom = ""
  · rw [if_neg (not_not.mpr hr), if_neg (not_not.mpr hr), pure_eq_ok]
  · obtain ⟨hnone, _⟩ | href := hp.reference
    · exact absurd hnone hr
    · have hmedian : (ballotOn rt st s p.referenceDenom).weightedMedianWithAssertion =
          .ok (ballotOn rt st s p.referenceDenom).median :=
        Ballot.weightedMedianWithAssertion_eq (rt.sort_sorted _)
      rw [if_pos hr, if_pos hr, getD_voteMap hp href.1]
      dsimp only
      rw [hmedian, ok_bind]
      change (sortStrings p.voteMap.keys).foldlM _ _ = _
      rw [sortStrings_keys, keys_voteMap hp]
      rfl

theorem tallyBelowThreshold_eq {p : Pick} (hp : Picked rt st s p) (rewardBand : LegacyDec)
    (claims : ClaimMap) :
    tallyBelowThreshold rt .ascending rewardBand p.belowThresholdVoteMap claims =
      (failingTargets rt st s).foldlM (fun claims denom => do
        let (_, claims) ← tally rt rewardBand
          ((p.belowThresholdVoteMap.get? denom).getD []) claims
        pure claims) claims := by
  unfold tallyBelowThreshold
  change (sortStrings p.belowThresholdVoteMap.keys).foldlM _ _ = _
  rw [sortStrings_keys, keys_below hp]

end Stages

section Frames

variable {blk : Block}

theorem setVoteTarget_frame {s t : State} {item : Denom} (h : setVoteTarget s item = .ok t) :
    ∃ denomMetaData, t = { s with
      voteTarget := s.voteTarget.insert item.name item, denomMetaData := denomMetaData } := by
  unfold setVoteTarget at h
  dsimp only at h
  split_ifs at h
  · cases h
    exact ⟨_, rfl⟩
  · simp only [bind_eq_ok, ensure_eq_ok, exists_const, pure_eq_ok, Except.ok.injEq] at h
    obtain ⟨_, rfl⟩ := h
    exact ⟨_, rfl⟩

theorem returns_setVoteTarget (s : State) {item : Denom} (h : item.name ≠ "") :
    Returns (setVoteTarget s item) := by
  unfold setVoteTarget
  dsimp only
  split_ifs
  · exact returns_ok _
  · rw [ensure_of h, ok_bind]
    exact returns_ok _

/-- Registering the targets touches them and the bank's metadata only. -/
theorem applyWhitelist_frame {whitelist : List Denom} {targets : SortedMap String Denom}
    {s t : State} (h : applyWhitelist whitelist targets s = .ok t) :
    ∃ voteTarget denomMetaData,
      t = { s with voteTarget := voteTarget, denomMetaData := denomMetaData } := by
  unfold applyWhitelist at h
  split_ifs at h
  · apply foldlM_invariant (I := fun u : State => ∃ voteTarget denomMetaData,
      u = { s with voteTarget := voteTarget, denomMetaData := denomMetaData }) _ ⟨∅, _, rfl⟩ h
    rintro u item _ v ⟨voteTarget, denomMetaData, rfl⟩ hv
    obtain ⟨metadata, rfl⟩ := setVoteTarget_frame hv
    exact ⟨_, metadata, rfl⟩
  · cases h
    exact ⟨_, _, rfl⟩

theorem returns_applyWhitelist {whitelist : List Denom} (targets : SortedMap String Denom)
    (s : State) (h : ∀ denom ∈ whitelist, denom.name ≠ "") :
    Returns (applyWhitelist whitelist targets s) := by
  unfold applyWhitelist
  split_ifs
  · rw [returns_foldlM_iff (C := fun _ => True)]
    · exact fun _ _ => trivial
    · intro u item hitem
      exact iff_of_true (returns_setVoteTarget u (h item hitem)) trivial
  · exact returns_ok s

theorem get?_of_addPriceSnapshot {s : State} {snapshot x : PriceSnapshot} {k : ℤ}
    (h : (addPriceSnapshot blk s snapshot).priceSnapshot.get? k = some x) :
    (s.priceSnapshot.insert snapshot.snapshotTimestamp snapshot).get? k = some x :=
  SortedMap.get?_of_foldl_erase h

variable (blk) in
theorem takePriceSnapshot_of_nil {t : State} (h : t.exchangeRate.entries = []) :
    takePriceSnapshot blk t = t := by
  simp [takePriceSnapshot, h]

variable (blk) in
theorem takePriceSnapshot_of_ne {t : State} (h : t.exchangeRate.entries ≠ []) :
    takePriceSnapshot blk t = addPriceSnapshot blk t
      ⟨GoTime.unix blk.time, t.exchangeRate.entries.map (fun e => ⟨e.1, e.2⟩)⟩ := by
  rw [takePriceSnapshot, if_neg (mt List.map_eq_nil_iff.mp h)]

variable (blk) in
theorem takePriceSnapshot_frame (t : State) :
    ∃ priceSnapshot, takePriceSnapshot blk t = { t with priceSnapshot := priceSnapshot } := by
  by_cases h : t.exchangeRate.entries = []
  · exact ⟨_, takePriceSnapshot_of_nil blk h⟩
  · exact ⟨_, takePriceSnapshot_of_ne blk h⟩

theorem countVotes_frame (o : IterationOrder) (targets : ℕ) (claims : ClaimMap) (s : State) :
    ∃ counters, countVotes o targets claims s = { s with votePenaltyCounter := counters } := by
  unfold countVotes
  apply List.foldlRecOn (motive := fun u : State => ∃ counters,
    u = { s with votePenaltyCounter := counters })
  · exact ⟨_, rfl⟩
  · rintro u ⟨counters, rfl⟩ a _
    unfold countVote
    split
    · rw [countOutcome_eq]
      exact ⟨_, rfl⟩
    · exact ⟨_, rfl⟩

end Frames

end Kiichain.Oracle
