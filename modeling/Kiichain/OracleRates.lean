import Kiichain.OracleVotes
import Kiichain.OracleRuntime

/-!
# Where a written rate comes from

The rate of the reference denomination is one that a bonded operator submitted
for it. The rate of another denomination is the reference median divided by the
cross rate of one operator, so it measures that operator's rate against the
reference of everyone.
-/

namespace Kiichain.Oracle
open GoExec FixedPoint

section Rates

variable {rt : Runtime} {o : IterationOrder} {blk : Block} {st : Staking} {s t : State}

/-- The rate is what the reference median makes of the two positive rates that
one bonded operator submitted, each division rounded to 18 digits. -/
def CrossRated (rt : Runtime) (st : Staking) (s : State) (r denom : String) (rate : LegacyDec) :
    Prop :=
  ∃ a base own cross, Submitted st s a r base ∧ 0 < base.raw ∧ Submitted st s a denom own ∧
    0 < own.raw ∧ base.quo own = .ok cross ∧ (ballotOn rt st s r).median.quo cross = .ok rate

/-- A cross median other than zero is the cross rate of an operator. -/
theorem crossRated_of_written (hs : AcceptedVotes s) {r d : String} {rate : LegacyDec}
    (hd : d ∈ passingTargets rt st s) (hne : d ≠ r)
    (hrate : writtenRate rt st s r d = some rate) : CrossRated rt st s r d rate := by
  obtain ⟨hzero, hquo⟩ := writtenRate_eq_some.mp hrate
  have hwell := tallied_wellFormed rt hs r (castOn_ne_nil_of_passing hd)
  obtain ⟨w, hw, hmedian⟩ := Ballot.exists_vote_of_median hwell.ne_nil hwell.power_nonneg
  rw [← hmedian] at hzero hquo
  rw [tallied_ne hne] at hw
  obtain ⟨v, hv, rfl⟩ := mem_toCrossRateWithSort.mp hw
  have hvote := (mem_castOn hs).mp ((rt.sort_perm _).mem_iff.mp hv)
  obtain ⟨base, cross, hbase, hpos, hcross, heq⟩ | heq :=
    toCrossVote_cases (ballotOn rt st s r).toMap v
  · rw [heq] at hquo
    obtain ⟨b, hb, hvoter, rfl, hbase0⟩ := exists_vote_of_toMap hbase
    have hbvote := (mem_castOn hs).mp ((rt.sort_perm _).mem_iff.mp hb)
    refine ⟨v.voter, b.exchangeRate, v.exchangeRate, cross, hvoter ▸ hbvote.2.2, hbase0,
      hvote.2.2, hpos, hcross, ?_⟩
    rw [baseRate_ne hne] at hquo
    exact hquo
  · rw [heq] at hzero
    exact absurd rfl hzero

/-- A written rate of the reference denomination was submitted for it. That of
another denomination is the cross rate of one operator, inverted with a
submitted rate of the reference denomination. -/
theorem written_rate_sources (hs : AcceptedVotes s) (h : endBlocker rt o blk st s = .ok t)
    {d : String} {rate : LegacyDec} (hw : Writes s t d rate) :
    ∃ r, IsReference rt st s r ∧ 0 < (ballotOn rt st s r).median.raw ∧
      (∃ a, Submitted st s a r (ballotOn rt st s r).median) ∧
      (d = r → rate = (ballotOn rt st s r).median) ∧ (d ≠ r → CrossRated rt st s r d rate) := by
  obtain ⟨_, r, _, href, hd, hrate⟩ := (writes_endBlocker_iff h).mp hw
  obtain ⟨a, ha⟩ := exists_submitted_median hs rt (castOn_ne_nil_of_passing href.1)
  refine ⟨r, href, (submitted_bounds hs ha).1, ⟨a, ha⟩, ?_, ?_⟩
  · rintro rfl
    obtain ⟨_, hbase⟩ := writtenRate_eq_some.mp hrate
    rw [baseRate_self, tallied_self] at hbase
    cases hbase
    rfl
  · exact fun hne => crossRated_of_written hs hd hne hrate

end Rates

namespace SplitReference

def staking : Staking := .trio

/-- Both operators that vote on ubtc submit 10, against references of 100 and 200. -/
def stored : State :=
  let votes : SortedMap ValAddress AggregateExchangeRateVote := ⟨[
    ("v1", ⟨[⟨"uatom", .ofInt 100⟩, ⟨"ubtc", .ofInt 10⟩], "v1"⟩),
    ("v2", ⟨[⟨"uatom", .ofInt 200⟩, ⟨"ubtc", .ofInt 10⟩], "v2"⟩),
    ("v3", ⟨[⟨"uatom", .ofInt 300⟩], "v3"⟩)], by decide⟩
  { defaultGenesis ∅ with
    params := { defaultParams with whitelist := [⟨"uatom"⟩, ⟨"ubtc"⟩] }
    voteTarget := twoTargets
    aggregateExchangeRateVote := votes }

def closed : Exec State := endBlocker .insertion .ascending ⟨1, 0⟩ staking stored

set_option maxRecDepth 20000 in
theorem closed_events : closed.toOption.map (·.events) =
    some [("uatom", .ofInt 200), ("ubtc", .ofInt 20)] := by decide

theorem stored_accepted : AcceptedVotes stored := by decide

theorem exists_writes : ∃ t, closed = .ok t ∧ Writes stored t "ubtc" (.ofInt 20) := by
  obtain ⟨t, ht, hevents⟩ := exists_of_toOption_map closed_events
  exact ⟨t, ht, _, by rw [hevents]; rfl, by simp⟩

theorem submitted_ubtc {a : ValAddress} {rate : LegacyDec}
    (h : Submitted staking stored a "ubtc" rate) : rate = .ofInt 10 := by
  obtain ⟨_, vote, hvote, htuple⟩ := h
  have hentry := SortedMap.get?_eq_some.mp hvote
  simp only [stored, List.mem_cons, Prod.mk.injEq, List.not_mem_nil, or_false] at hentry
  obtain ⟨_, rfl⟩ | ⟨_, rfl⟩ | ⟨_, rfl⟩ := hentry
  · simpa using htuple
  · simpa using htuple
  · simp at htuple

/-- Every submitted rate of ubtc is 10, and the written one is 20. -/
theorem rate_doubles : AcceptedVotes stored ∧
    (∃ t, closed = .ok t ∧ Writes stored t "ubtc" (.ofInt 20)) ∧
    (∃ a, Submitted staking stored a "ubtc" (.ofInt 10)) ∧
    ∀ a rate, Submitted staking stored a "ubtc" rate → rate = .ofInt 10 := by
  refine ⟨stored_accepted, exists_writes, ⟨"v1", ?_⟩, fun _ _ => submitted_ubtc⟩
  exact ⟨by decide, _, rfl, by simp⟩

theorem ubtc_sources : ∃ r, IsReference .insertion staking stored r ∧
    0 < (ballotOn .insertion staking stored r).median.raw ∧
    (∃ a, Submitted staking stored a r (ballotOn .insertion staking stored r).median) ∧
    ("ubtc" = r → .ofInt 20 = (ballotOn .insertion staking stored r).median) ∧
    ("ubtc" ≠ r → CrossRated .insertion staking stored r "ubtc" (.ofInt 20)) := by
  obtain ⟨t, ht, hw⟩ := exists_writes
  exact written_rate_sources stored_accepted ht hw

end SplitReference

end Kiichain.Oracle
