import Kiichain.OracleFreshness
import Kiichain.OracleMedian

/-!
# Prices that a minority cannot move

Some operators are honest: what they submit on a denomination lies in a range. While
the others hold less than half the power of a ballot, its median lies in the range
too, and a cross rate lies between the rounded quotients of the two ranges.
-/

namespace Kiichain.Oracle
open GoExec FixedPoint WeightedQuantile

/-- The power in a ballot of the operators that are not honest. -/
def strangerPower (honest : ValAddress → Bool) (b : Ballot) : ℤ :=
  Ballot.power (b.filter fun v => !honest v.voter)

/-- What honest operators submit on the denomination lies in the range. -/
def SubmitWithin (st : Staking) (s : State) (honest : ValAddress → Bool) (denom : String)
    (lo hi : LegacyDec) : Prop :=
  ∀ a rate, honest a = true → Submitted st s a denom rate → lo ≤ rate ∧ rate ≤ hi

section Median

variable {honest : ValAddress → Bool} {b : Ballot} {lo hi : LegacyDec}

/-- The median of a ballot in which strangers are a minority. -/
theorem median_mem_range (hb : b.WellFormed)
    (hhonest : ∀ v ∈ b, honest v.voter = true → v.power = 0 ∨
      lo ≤ v.exchangeRate ∧ v.exchangeRate ≤ hi)
    (hminority : strangerPower honest b < b.power / 2) : lo ≤ b.median ∧ b.median ≤ hi := by
  have hstrangers : outside VoteForTally.exchangeRate VoteForTally.power b lo hi ≤
      strangerPower honest b :=
    outside_le_of_group hb.power_nonneg (fun v => honest v.voter) hhonest
  have hnonneg : 0 ≤ outside VoteForTally.exchangeRate VoteForTally.power b lo hi :=
    weightOf_nonneg hb.power_nonneg
  have hpos : 0 < b.power := by omega
  have htotal : total VoteForTally.power b = b.power := rfl
  apply (Ballot.isQuantile_median hb.power_nonneg hpos hb.sorted).mem_range hb.power_nonneg
  · omega
  · omega

end Median

section Ranges

variable {rt : Runtime} {st : Staking} {s : State} {honest : ValAddress → Bool}

theorem median_of_ballotOn (hs : AcceptedVotes s) {d : String} {lo hi : LegacyDec}
    (hwithin : SubmitWithin st s honest d lo hi) (hd : d ∈ passingTargets rt st s)
    (hminority : strangerPower honest (ballotOn rt st s d) < (ballotOn rt st s d).power / 2) :
    lo ≤ (ballotOn rt st s d).median ∧ (ballotOn rt st s d).median ≤ hi := by
  apply median_mem_range (ballotOn_wellFormed hs rt (castOn_ne_nil_of_passing hd)) _ hminority
  intro v hv hhonest
  obtain ⟨_, _, hsubmitted⟩ := (mem_castOn hs).mp ((rt.sort_perm _).mem_iff.mp hv)
  exact Or.inr (hwithin _ _ hhonest hsubmitted)

/-- The cross rate of an honest operator, or its abstention. -/
theorem crossVote_within (hs : AcceptedVotes s) {r d : String} {lo hi lo' hi' : LegacyDec}
    (hr : SubmitWithin st s honest r lo hi) (hd : SubmitWithin st s honest d lo' hi')
    (hlo : 0 ≤ lo.raw) (hlo' : 0 < lo'.raw) {v : VoteForTally} (hv : v ∈ ballotOn rt st s d)
    (hhonest : honest v.voter = true) :
    (Ballot.toCrossVote (ballotOn rt st s r).toMap v).power = 0 ∨
      Decimal.quotient lo hi' ≤ (Ballot.toCrossVote (ballotOn rt st s r).toMap v).exchangeRate ∧
      (Ballot.toCrossVote (ballotOn rt st s r).toMap v).exchangeRate ≤ Decimal.quotient hi lo' := by
  obtain ⟨_, _, hown⟩ := (mem_castOn hs).mp ((rt.sort_perm _).mem_iff.mp hv)
  obtain ⟨base, cross, hbase, hpos, hquo, heq⟩ | heq :=
    toCrossVote_cases (ballotOn rt st s r).toMap v
  · obtain ⟨w, hw, hvoter, rfl, hbase0⟩ := exists_vote_of_toMap hbase
    obtain ⟨_, _, hreference⟩ := (mem_castOn hs).mp ((rt.sort_perm _).mem_iff.mp hw)
    rw [hvoter] at hreference
    obtain ⟨hle, hle'⟩ := hr _ _ hhonest hreference
    obtain ⟨hge, hge'⟩ := hd _ _ hhonest hown
    rw [heq, Decimal.eq_quotient_of_quo hquo]
    right
    exact ⟨Decimal.quotient_mono hlo hle hpos hge', Decimal.quotient_mono hbase0.le hle' hlo' hge⟩
  · rw [heq]
    exact Or.inl rfl

/-- The median of the cross ballot of two honest ranges. -/
theorem median_of_cross (hs : AcceptedVotes s) {r d : String} {lo hi lo' hi' : LegacyDec}
    (hr : SubmitWithin st s honest r lo hi) (hd : SubmitWithin st s honest d lo' hi')
    (hlo : 0 ≤ lo.raw) (hlo' : 0 < lo'.raw) (hne : d ≠ r) (hpassing : d ∈ passingTargets rt st s)
    (hminority : strangerPower honest (tallied rt st s r d) < (tallied rt st s r d).power / 2) :
    Decimal.quotient lo hi' ≤ (tallied rt st s r d).median ∧
      (tallied rt st s r d).median ≤ Decimal.quotient hi lo' := by
  have hwell := tallied_wellFormed rt hs r (castOn_ne_nil_of_passing hpassing)
  apply median_mem_range hwell _ hminority
  intro w hw hhonest
  rw [tallied_ne hne] at hw
  obtain ⟨v, hv, rfl⟩ := mem_toCrossRateWithSort.mp hw
  rw [toCrossVote_voter] at hhonest
  exact crossVote_within hs hr hd hlo hlo' hv hhonest

/-- What a passing denomination is priced at, between what the two ranges allow. -/
theorem writtenRate_within (hs : AcceptedVotes s) {r d : String} {rate : LegacyDec}
    (href : IsReference rt st s r) (hd : d ∈ passingTargets rt st s)
    (hrate : writtenRate rt st s r d = some rate) {lo hi : String → LegacyDec}
    (hlo : ∀ denom, 0 < (lo denom).raw)
    (hwithin : ∀ denom, SubmitWithin st s honest denom (lo denom) (hi denom))
    (hminority : ∀ denom ∈ [r, d], strangerPower honest (tallied rt st s r denom) <
      (tallied rt st s r denom).power / 2)
    (hcross : 0 < (Decimal.quotient (lo r) (hi d)).raw) :
    if d = r then lo r ≤ rate ∧ rate ≤ hi r
    else Decimal.quotient (lo r) (Decimal.quotient (hi r) (lo d)) ≤ rate ∧
      rate ≤ Decimal.quotient (hi r) (Decimal.quotient (lo r) (hi d)) := by
  have hminority_r := hminority r List.mem_cons_self
  rw [tallied_self] at hminority_r
  have hmedian := median_of_ballotOn hs (hwithin r) href.1 hminority_r
  split_ifs with hself
  · subst hself
    rw [writtenRate_reference hs href] at hrate
    cases hrate
    exact hmedian
  · have hcrossed := median_of_cross hs (hwithin r) (hwithin d) (hlo r).le (hlo d) hself hd
      (hminority d (by simp))
    obtain ⟨_, hquo⟩ := writtenRate_eq_some.mp hrate
    rw [baseRate_ne hself] at hquo
    rw [Decimal.eq_quotient_of_quo hquo]
    have hpos : 0 < (tallied rt st s r d).median.raw :=
      hcross.trans_le (Decimal.le_iff.mp hcrossed.1)
    exact ⟨Decimal.quotient_mono (hlo r).le hmedian.1 hpos hcrossed.2,
      Decimal.quotient_mono ((hlo r).le.trans (Decimal.le_iff.mp hmedian.1)) hmedian.2 hcross
        hcrossed.1⟩

end Ranges

section Prices

variable {env : Env} {o : IterationOrder} {c c' : Chain} {honest : ValAddress → Bool}

end Prices

section Entries

/-- The stored votes of the honest lie in the ranges. -/
def EntriesWithin (s : State) (honest : ValAddress → Bool) (lo hi : String → LegacyDec) : Prop :=
  ∀ e ∈ s.aggregateExchangeRateVote.entries, honest e.1 = true → ∀ tuple ∈ e.2.exchangeRateTuples,
    lo tuple.denom ≤ tuple.exchangeRate ∧ tuple.exchangeRate ≤ hi tuple.denom

instance (s : State) (honest : ValAddress → Bool) (lo hi : String → LegacyDec) :
    Decidable (EntriesWithin s honest lo hi) := inferInstanceAs (Decidable (∀ e ∈ _, _))

theorem submitWithin_of_entries {st : Staking} {s : State} {honest : ValAddress → Bool}
    {lo hi : String → LegacyDec} (h : EntriesWithin s honest lo hi) (denom : String) :
    SubmitWithin st s honest denom (lo denom) (hi denom) := by
  rintro a rate hhonest ⟨_, vote, hvote, htuple⟩
  exact h (a, vote) (SortedMap.get?_eq_some.mp hvote) hhonest _ htuple

end Entries

namespace OneStranger

/-- Addresses are their own text, and two decimal coins parse. -/
def codec : Codec where
  valAddressFromBech32 := .ok
  accAddressFromBech32 := .ok
  accAddress a := a
  valAddress a := a
  parseDecCoin text :=
    if text = "2ubtc" then .ok ("ubtc", .ofInt 2)
    else if text = "9ubtc" then .ok ("ubtc", .ofInt 9)
    else fail "invalid decimal coin expression: %s"
  parse_valid text denom amount h := by
    split_ifs at h <;> cases h <;> exact ⟨by decide, by decide⟩

def env : Env := { BoundaryBlock.env with codec := codec }

def start : Chain := genesis 0 .trio ∅

def vote (text operator : String) : Event :=
  .message (.aggregateExchangeRateVote ⟨text, operator, operator⟩)

def blocks : List Event :=
  [.beginBlock 0, .endBlock .ascending, .beginBlock 0, vote "2ubtc" "v1", vote "2ubtc" "v2",
    vote "9ubtc" "v3", .endBlock .ascending, .beginBlock 0]

def honest (a : ValAddress) : Bool := a ≠ "v3"

def low (_ : String) : LegacyDec := .ofInt 1

def high (_ : String) : LegacyDec := .ofInt 3

def checked : Exec Bool := do
  let c ← Runs.run (step env) start blocks
  let c' ← step env c (.endBlock .ascending)
  pure (c.oracle.events = [] ∧ ("ubtc", .ofInt 2) ∈ c'.oracle.events ∧
    IsReference env.runtime c.staking c.oracle "ubtc" ∧ EntriesWithin c.oracle honest low high ∧
    strangerPower honest (tallied env.runtime c.staking c.oracle "ubtc" "ubtc") <
      (tallied env.runtime c.staking c.oracle "ubtc" "ubtc").power / 2)

set_option maxRecDepth 20000 in
theorem checked_eq : checked.toOption = some true := by decide

end OneStranger

end Kiichain.Oracle
