import Kiichain.OracleRounds

/-!
# Which prices a block refreshes

In a reachable state every passing ballot has a positive median, so a period end
with a passing ballot always finds a reference denomination and prices it. The
other passing denominations are priced by their cross ballots, except where the
median of one rounds to zero, and nothing else touches a price.
-/

namespace Kiichain.Oracle
open GoExec FixedPoint

section Reference

variable {rt : Runtime} {o : IterationOrder} {blk : Block} {st : Staking} {s t : State}

theorem ne_empty_of_passing (hs : AcceptedVotes s) {d : String} (hd : d ∈ passingTargets rt st s) :
    d ≠ "" := by
  obtain ⟨v, hv⟩ := List.exists_mem_of_ne_nil _ (castOn_ne_nil_of_passing hd)
  obtain ⟨_, _, _, vote, hvote, htuple⟩ := (mem_castOn hs).mp hv
  exact (hs v.voter vote hvote).named _ htuple

/-- A passing ballot leaves a reference denomination. -/
theorem exists_reference (hs : AcceptedVotes s) (h : tallyPeriod rt o blk st s = .ok t)
    (hpassing : passingTargets rt st s ≠ []) : ∃ r, r ≠ "" ∧ IsReference rt st s r := by
  obtain ⟨p, hpick, _⟩ := (tallyPeriod_eq_ok rt blk st s o).mp h
  obtain ⟨_, hnil⟩ | href := (picked_of_pick hpick).reference
  · exact absurd hnil hpassing
  · exact ⟨_, ne_empty_of_passing hs href.1, href⟩

theorem median_pos_of_passing (hs : AcceptedVotes s) {d : String}
    (hd : d ∈ passingTargets rt st s) : 0 < (ballotOn rt st s d).median.raw := by
  obtain ⟨a, ha⟩ := exists_submitted_median hs rt (castOn_ne_nil_of_passing hd)
  exact (submitted_bounds hs ha).1

theorem writtenRate_reference (hs : AcceptedVotes s) {r : String} (href : IsReference rt st s r) :
    writtenRate rt st s r r = some (ballotOn rt st s r).median := by
  rw [writtenRate_eq_some, tallied_self, baseRate_self]
  exact ⟨(median_pos_of_passing hs href.1).ne', rfl⟩

/-- The rate that a passing denomination gets beside the reference. -/
theorem written_cross {r d : String} (hne : d ≠ r) (href : IsReference rt st s r) (hr : r ≠ "")
    (hd : d ∈ passingTargets rt st s) (h : tallyPeriod rt o blk st s = .ok t)
    (hzero : (tallied rt st s r d).median.raw ≠ 0) : ∃ rate,
      (ballotOn rt st s r).median.quo (tallied rt st s r d).median = .ok rate ∧
        writtenRate rt st s r d = some rate := by
  obtain ⟨rate, hw⟩ := exists_writes h hr href hd hzero
  obtain ⟨r', _, href', _, hrate⟩ := (writes_iff h).mp hw
  rw [isReference_unique href' href] at hrate
  refine ⟨rate, ?_, hrate⟩
  rw [← baseRate_ne hne]
  exact (writtenRate_eq_some.mp hrate).2

end Reference

section Prices

variable {env : Env} {o : IterationOrder} {c c' : Chain}

/-- The stored rate of a denomination after a period end with the reference `r`. -/
def PricedAgainst (env : Env) (c : Chain) (r d : String) (after : Option OracleExchangeRate) :
    Prop :=
  if d = r then
    after = some ⟨(ballotOn env.runtime c.staking c.oracle r).median, c.height,
      GoTime.unixMilli c.time⟩
  else if d ∈ passingTargets env.runtime c.staking c.oracle ∧
      (tallied env.runtime c.staking c.oracle r d).median.raw ≠ 0 then
    ∃ rate, (ballotOn env.runtime c.staking c.oracle r).median.quo
      (tallied env.runtime c.staking c.oracle r d).median = .ok rate ∧
        after = some ⟨rate, c.height, GoTime.unixMilli c.time⟩
  else after = c.oracle.exchangeRate.get? d

theorem pricedAgainst_of_tallyPeriod (hs : AcceptedVotes c.oracle) {r : String} (hr : r ≠ "")
    (href : IsReference env.runtime c.staking c.oracle r) {s : State}
    (h : tallyPeriod env.runtime o c.block c.staking c.oracle = .ok s) (d : String) :
    PricedAgainst env c r d (s.exchangeRate.get? d) := by
  obtain ⟨r', value, _, href', hd, hw, hget⟩ | ⟨hnone, hsame⟩ := get?_rates_tallyPeriod h d
  · obtain rfl := isReference_unique href href'
    rw [hget]
    unfold PricedAgainst
    split_ifs with hself hcross
    · rw [hself, writtenRate_reference hs href] at hw
      cases hw
      rfl
    · obtain ⟨hzero, hrate⟩ := writtenRate_eq_some.mp hw
      rw [baseRate_ne hself] at hrate
      exact ⟨value, hrate, rfl⟩
    · exact absurd ⟨hd, (writtenRate_eq_some.mp hw).1⟩ hcross
  · have hunwritten := hnone r hr href
    unfold PricedAgainst
    split_ifs with hself hcross
    · rw [hself, writtenRate_reference hs href] at hunwritten
      exact absurd (hunwritten href.1) (by simp)
    · obtain ⟨rate, _, hrate⟩ := written_cross hself href hr hcross.1 h hcross.2
      rw [hunwritten hcross.1] at hrate
      cases hrate
    · exact hsame

/-- In every reachable state an end block prices denominations exactly where it ends a
period and some ballot passes: the reference by the median of its ballot, every other
passing denomination by its cross ballot unless that median is zero, and no other. -/
theorem prices_of_endBlock {height : ℕ} (hheight : height < 2 ^ 63) (st : Staking)
    (denomMetaData : SortedMap String Metadata) (es : List Event)
    (h : Runs.run (step env) (genesis height st denomMetaData) es = .ok c)
    (hend : step env c (.endBlock o) = .ok c') :
    if c.endsPeriod ∧ passingTargets env.runtime c.staking c.oracle ≠ [] then
      ∃ r, IsReference env.runtime c.staking c.oracle r ∧
        ∀ d, PricedAgainst env c r d (c'.oracle.exchangeRate.get? d)
    else c'.oracle.exchangeRate = c.oracle.exchangeRate := by
  have hs := (conserved_of_run hheight h).accepted
  simp only [step, bind_eq_ok, pure_eq_ok, Except.ok.injEq] at hend
  obtain ⟨_, _, s, hend, rfl⟩ := hend
  have hperiod : if c.endsPeriod then
      tallyPeriod env.runtime o c.block c.staking c.oracle = .ok s else s = c.oracle :=
    (endBlocker_eq_ok.mp hend).2
  by_cases hlast : c.endsPeriod
  · rw [if_pos hlast] at hperiod
    by_cases hpassing : passingTargets env.runtime c.staking c.oracle = []
    · rw [if_neg (fun hand => hand.2 hpassing)]
      obtain ⟨hsame, _⟩ | ⟨r, _, href, _⟩ := tallyPeriod_rates hperiod
      · exact hsame
      · rw [IsReference, hpassing] at href
        exact absurd href.1 List.not_mem_nil
    · rw [if_pos ⟨hlast, hpassing⟩]
      obtain ⟨r, hr, href⟩ := exists_reference hs hperiod hpassing
      refine ⟨r, href, fun d => ?_⟩
      exact pricedAgainst_of_tallyPeriod hs hr href hperiod d
  · rw [if_neg hlast] at hperiod
    rw [if_neg (fun hand => hlast hand.1), hperiod]

end Prices

namespace ThirdBlock

def closing : List Event := voted ++ [.endBlock .ascending, .beginBlock 0]

def closed : Exec Bool := do
  let c ← Runs.run (step env) start closing
  let _ ← step env c (.endBlock .ascending)
  pure (c.endsPeriod ∧ passingTargets env.runtime c.staking c.oracle ≠ [])

set_option maxRecDepth 20000 in
theorem closed_eq : closed.toOption = some true := by decide

theorem prices_third_block : ∃ c c', Runs.run (step env) start closing = .ok c ∧
    step env c (.endBlock .ascending) = .ok c' ∧ ∃ r,
      IsReference env.runtime c.staking c.oracle r ∧
        ∀ d, PricedAgainst env c r d (c'.oracle.exchangeRate.get? d) := by
  have hok := toOption_eq_some.mp closed_eq
  simp only [closed, bind_eq_ok, pure_eq_ok, Except.ok.injEq, decide_eq_true_eq] at hok
  obtain ⟨c, hc, c', hc', hpassing⟩ := hok
  have hprices := prices_of_endBlock (show 0 < 2 ^ 63 by norm_num) .single ∅ closing hc hc'
  rw [if_pos hpassing] at hprices
  exact ⟨c, c', hc, hc', hprices⟩

end ThirdBlock

end Kiichain.Oracle
