import Kiichain.OracleRates

/-!
# The power behind a written rate

The quorum is checked on the ballot as it was cast. The ballot that is tallied
for another denomination than the reference keeps the power of those voters
only whose two rates divide, so it meets the quorum exactly where they do.
-/

namespace Kiichain.Oracle
open GoExec FixedPoint

namespace Ballot

/-- The power of the votes that enter a median with positive power. -/
def positivePower (b : Ballot) : ℤ := power (b.filter (fun v => 0 < v.power))

theorem positivePower_eq {b : Ballot} (h : ∀ v ∈ b, 0 ≤ v.power) : positivePower b = power b := by
  induction b with
  | nil => rfl
  | cons v b ih =>
      have ih' := ih (fun w hw => h w (List.mem_cons_of_mem v hw))
      have hv := h v List.mem_cons_self
      simp only [positivePower, power, List.filter_cons, decide_eq_true_eq] at ih' ⊢
      split_ifs with hpos
      · simp [ih']
      · have hzero : v.power = 0 := by omega
        simp [ih', hzero]

/-- The voter has a positive base and a positive rate, and they divide. -/
def converts (bases : SortedMap ValAddress LegacyDec) (v : VoteForTally) : Bool :=
  match bases.get? v.voter with
  | some base => decide (0 < v.exchangeRate) && (base.quo v.exchangeRate).toBool
  | none => false

theorem toCrossVote_power (bases : SortedMap ValAddress LegacyDec) (v : VoteForTally) :
    (toCrossVote bases v).power = if converts bases v then v.power else 0 := by
  unfold toCrossVote converts
  cases bases.get? v.voter with
  | none => rfl
  | some base =>
      simp only
      by_cases hpos : 0 < v.exchangeRate
      · have hquo : (∃ cross, base.quo v.exchangeRate = .ok cross) ∨
            ∃ e, base.quo v.exchangeRate = .error e := by
          cases base.quo v.exchangeRate
          · exact Or.inr ⟨_, rfl⟩
          · exact Or.inl ⟨_, rfl⟩
        obtain ⟨cross, hquo⟩ | ⟨e, hquo⟩ := hquo <;> simp [hpos, hquo, Except.toBool]
      · simp [hpos]

theorem power_toCrossRateWithSort (rt : Runtime) (b : Ballot)
    (bases : SortedMap ValAddress LegacyDec) :
    power (b.toCrossRateWithSort rt bases) = power (b.filter (converts bases)) := by
  rw [toCrossRateWithSort, power_perm (rt.sort_perm _)]
  induction b with
  | nil => rfl
  | cons v b ih =>
      simp only [power, toCrossRate, List.map_cons, List.sum_cons, List.filter_cons,
        toCrossVote_power] at ih ⊢
      rw [ih]
      split_ifs <;> simp

end Ballot

section Quorum

variable {rt : Runtime} {o : IterationOrder} {blk : Block} {st : Staking} {s t : State}

/-- The power of the voters on a denomination whose rates for it and for the
reference denomination divide. -/
def overlapPower (rt : Runtime) (st : Staking) (s : State) (r denom : String) : ℤ :=
  Ballot.power ((castOn (claimsOf st) s denom).filter
    (Ballot.converts (ballotOn rt st s r).toMap))

theorem castOn_power_nonneg {d : String} : ∀ v ∈ castOn (claimsOf st) s d, 0 ≤ v.power :=
  fun v hv => castVotes_power_nonneg claimsOf_power_nonneg v (List.mem_of_mem_filter hv)

theorem ballotOn_power_nonneg {d : String} : ∀ v ∈ ballotOn rt st s d, 0 ≤ v.power :=
  fun v hv => castOn_power_nonneg v ((rt.sort_perm _).mem_iff.mp hv)

theorem positivePower_tallied_self (r : String) :
    (tallied rt st s r r).positivePower = (ballotOn rt st s r).power := by
  rw [tallied_self, Ballot.positivePower_eq ballotOn_power_nonneg]

theorem positivePower_tallied_ne {r d : String} (h : d ≠ r) :
    (tallied rt st s r d).positivePower = overlapPower rt st s r d := by
  have hnonneg : ∀ w ∈ (ballotOn rt st s d).toCrossRateWithSort rt (ballotOn rt st s r).toMap,
      0 ≤ w.power := by
    intro w hw
    obtain ⟨v, hv, rfl⟩ := mem_toCrossRateWithSort.mp hw
    rw [Ballot.toCrossVote_power]
    split_ifs
    · exact ballotOn_power_nonneg v hv
    · exact le_rfl
  rw [tallied_ne h, Ballot.positivePower_eq hnonneg, Ballot.power_toCrossRateWithSort, overlapPower]
  exact Ballot.power_perm ((rt.sort_perm _).filter _)

theorem quorum_le_of_passing {d : String} (h : d ∈ passingTargets rt st s) :
    quorum st s ≤ (ballotOn rt st s d).power := by
  have hp := (mem_passingTargets.mp h).2
  simp only [passes, ballotIsPassing, Bool.and_eq_true, decide_eq_true_eq] at hp
  exact hp.2.2

/-- Every written rate rests on a quorum exactly when, on a last block, each
passing denomination whose cross median is not zero has it among the voters
whose two rates divide. -/
theorem written_quorum_iff (h : endBlocker rt o blk st s = .ok t) :
    (∀ d rate, Writes s t d rate → ∃ r, IsReference rt st s r ∧
      quorum st s ≤ (tallied rt st s r d).positivePower) ↔
    ((blk.height + 1) % s.params.votePeriod = 0 → ∀ r d, r ≠ "" → IsReference rt st s r →
      d ∈ passingTargets rt st s → d ≠ r → (tallied rt st s r d).median.raw ≠ 0 →
      quorum st s ≤ overlapPower rt st s r d) := by
  constructor
  · intro hquorum hlast r d hr href hd hne hzero
    have hperiod := (endBlocker_eq_ok.mp h).2
    rw [if_pos hlast] at hperiod
    obtain ⟨rate, hw⟩ := exists_writes hperiod hr href hd hzero
    obtain ⟨r', href', hle⟩ := hquorum d rate hw
    rw [isReference_unique href' href, positivePower_tallied_ne hne] at hle
    exact hle
  · intro hoverlap d rate hw
    obtain ⟨hlast, r, hr, href, hd, hrate⟩ := (writes_endBlocker_iff h).mp hw
    refine ⟨r, href, ?_⟩
    by_cases hdr : d = r
    · rw [hdr, positivePower_tallied_self]
      exact quorum_le_of_passing href.1
    · rw [positivePower_tallied_ne hdr]
      exact hoverlap hlast r d hr href hd hdr (writtenRate_eq_some.mp hrate).1

end Quorum

namespace ThinOverlap

def staking : Staking := .ofPowers ⟨[("v1", 4), ("v2", 4), ("v3", 4)], by decide⟩ (by decide)

/-- Two ballots of two thirds each, which share one operator. -/
def stored : State :=
  let votes : SortedMap ValAddress AggregateExchangeRateVote := ⟨[
    ("v1", ⟨[⟨"uatom", .ofInt 100⟩, ⟨"ubtc", .ofInt 50⟩], "v1"⟩),
    ("v2", ⟨[⟨"ubtc", .ofInt 10⟩], "v2"⟩),
    ("v3", ⟨[⟨"uatom", .ofInt 100⟩], "v3"⟩)], by decide⟩
  { defaultGenesis ∅ with
    params := { defaultParams with whitelist := [⟨"uatom"⟩, ⟨"ubtc"⟩] }
    voteTarget := twoTargets
    aggregateExchangeRateVote := votes }

def closed : Exec State := endBlocker .insertion .ascending ⟨1, 0⟩ staking stored

set_option maxRecDepth 20000 in
theorem closed_events : closed.toOption.map (·.events) =
    some [("uatom", .ofInt 100), ("ubtc", .ofInt 50)] := by decide

set_option maxRecDepth 20000 in
/-- The written rate of ubtc is that of one operator with a third of the power. -/
theorem ubtc_without_quorum : stored.params.Valid ∧ AcceptedVotes stored ∧
    ∃ t, closed = .ok t ∧ Writes stored t "ubtc" (.ofInt 50) ∧
      ¬ ∃ r, IsReference .insertion staking stored r ∧
        quorum staking stored ≤ (tallied .insertion staking stored r "ubtc").positivePower := by
  obtain ⟨t, ht, hevents⟩ := exists_of_toOption_map closed_events
  refine ⟨Params.valid_of_validate (u := ()) (by decide), by decide, t, ht,
    ⟨_, by rw [hevents]; rfl, by simp⟩, ?_⟩
  rintro ⟨r, href, hle⟩
  have huatom : IsReference .insertion staking stored "uatom" := by decide
  rw [isReference_unique href huatom] at hle
  exact absurd hle (by decide)

theorem overlap_decides : ∃ t, closed = .ok t ∧
    ((∀ d rate, Writes stored t d rate → ∃ r, IsReference .insertion staking stored r ∧
      quorum staking stored ≤ (tallied .insertion staking stored r d).positivePower) ↔
    ((1 + 1) % stored.params.votePeriod = 0 → ∀ r d, r ≠ "" →
      IsReference .insertion staking stored r → d ∈ passingTargets .insertion staking stored →
      d ≠ r → (tallied .insertion staking stored r d).median.raw ≠ 0 →
      quorum staking stored ≤ overlapPower .insertion staking stored r d)) := by
  obtain ⟨t, ht, _⟩ := exists_of_toOption_map closed_events
  exact ⟨t, ht, written_quorum_iff ht⟩

end ThinOverlap

end Kiichain.Oracle
