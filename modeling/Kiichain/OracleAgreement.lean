import Kiichain.OracleAccounting
import Kiichain.OracleBand
import Kiichain.OracleSlashWindow

/-!
# Who is slashed at the end of a window

At the end of a period some operators agree: what they submit on a target differs by at
most half the reward band. While the others are a minority in every ballot, the median
lies among the rates that agree, so whoever agrees wins every ballot that passes. So the
successes of a window are at least the periods of agreement, and at most those in which
the operator voted, or in which no target was left to win.
-/

namespace Kiichain.Oracle
open GoExec FixedPoint

namespace Band

variable (b : Band) (r d : String)

/-- The least rate in a tallied ballot that submissions in the band allow. -/
def lowTallied : LegacyDec := if d = r then b.low r else Decimal.quotient (b.low r) (b.high d)

/-- The greatest rate in a tallied ballot that submissions in the band allow. -/
def highTallied : LegacyDec := if d = r then b.high r else Decimal.quotient (b.high r) (b.low d)

theorem lowTallied_nonneg (hhigh : 0 ≤ (b.high d).raw) : 0 ≤ (b.lowTallied r d).raw := by
  unfold lowTallied
  split_ifs
  · exact (b.low_pos r).le
  · apply chop_nonneg
    apply Int.tdiv_nonneg _ hhigh
    exact mul_nonneg (b.low_pos r).le (by positivity)

end Band

/-- Some operators, `a` among them, submit in narrow ranges, and the others are a minority
in every ballot that passes. -/
structure Agreed (env : Env) (c : Chain) (r : String) (a : ValAddress)
    (honest : ValAddress → Bool) (ranges : Band) : Prop where
  member : honest a = true
  within : ∀ denom, SubmitWithin c.staking c.oracle honest denom (ranges.low denom)
    (ranges.high denom)
  minority : ∀ d ∈ passingTargets env.runtime c.staking c.oracle,
    strangerPower honest (tallied env.runtime c.staking c.oracle r d) <
      (tallied env.runtime c.staking c.oracle r d).power / 2
  narrow : ∀ d ∈ passingTargets env.runtime c.staking c.oracle,
    (ranges.highTallied r d).raw - (ranges.lowTallied r d).raw ≤ chop legacyFormat.scale
      ((ranges.lowTallied r d).raw * c.oracle.params.rewardBand.raw.tdiv 2)
  fits : ∀ d ∈ passingTargets env.runtime c.staking c.oracle, d ≠ r →
    Decimal.Fits legacyFormat (ranges.highTallied r d).raw

/-- At the end of a period `a` has voted on every target that passes, in agreement with a
majority, and its wins elsewhere are as many as the targets that nobody has voted on. -/
structure Agrees (env : Env) (a : ValAddress) (c : Chain) : Prop where
  submits : ∀ d ∈ passingTargets env.runtime c.staking c.oracle,
    ∃ rate, Submitted c.staking c.oracle a d rate
  agreed : ∀ r, IsReference env.runtime c.staking c.oracle r →
    ∃ honest ranges, Agreed env c r a honest ranges
  settled : winsAmong env.runtime c.oracle.params.rewardBand
    (failingBallots env.runtime c.staking c.oracle) a = (unvotedTargets c.staking c.oracle).length

section CrossVotes

/-- The base of a voter is its rate, where it has one vote. -/
theorem get?_toMap {b : Ballot} (hb : b.Pairwise (fun v w => v.voter ≠ w.voter)) {v : VoteForTally}
    (hv : v ∈ b) (hpos : 0 < v.exchangeRate) : b.toMap.get? v.voter = some v.exchangeRate := by
  induction b using List.reverseRecOn with
  | nil => cases hv
  | append_singleton b w ih =>
      obtain ⟨hfront, -, hlast⟩ := List.pairwise_append.mp hb
      rw [toMap_append]
      obtain hv | hv := List.mem_append.mp hv
      · have hne : w.voter ≠ v.voter := (hlast v hv w (List.mem_singleton_self w)).symm
        split_ifs
        · rw [SortedMap.get?_insert_ne _ _ hne]
          exact ih hfront hv
        · exact ih hfront hv
      · obtain rfl := List.mem_singleton.mp hv
        rw [if_pos hpos, SortedMap.get?_insert_self]

variable {rt : Runtime} {st : Staking} {s : State}

theorem ballotOn_distinct (hs : AcceptedVotes s) (d : String) :
    (ballotOn rt st s d).Pairwise (fun v w => v.voter ≠ w.voter) :=
  ((rt.sort_perm _).pairwise_iff fun hne => hne.symm).mpr (castOn_distinct hs d)

/-- The vote of an operator that submitted a rate. -/
theorem mem_ballotOn_of_submitted (hs : AcceptedVotes s) {a : ValAddress} {d : String}
    {rate : LegacyDec} (h : Submitted st s a d rate) :
    ⟨d, rate, a, st.power a⟩ ∈ ballotOn rt st s d :=
  (rt.sort_perm _).mem_iff.mpr ((mem_castOn hs).mpr ⟨rfl, rfl, h⟩)

/-- Whoever submits on the reference denomination and on another has the cross rate. -/
theorem crossVote_of_submitted (hs : AcceptedVotes s) {a : ValAddress} {r d : String}
    {base own : LegacyDec} (hr : Submitted st s a r base) (hd : Submitted st s a d own)
    (hfits : Decimal.Fits legacyFormat (Decimal.quotient base own).raw) :
    Ballot.toCrossVote (ballotOn rt st s r).toMap ⟨d, own, a, st.power a⟩ =
      ⟨d, Decimal.quotient base own, a, st.power a⟩ := by
  have hown := (submitted_bounds hs hd).1
  have hbase : (ballotOn rt st s r).toMap.get? a = some base :=
    get?_toMap (ballotOn_distinct hs r) (mem_ballotOn_of_submitted hs hr)
      (Decimal.lt_iff.mpr (submitted_bounds hs hr).1)
  have hquo : base.quo own = .ok (Decimal.quotient base own) :=
    Decimal.quo_eq_ok.mpr ⟨hown.ne', hfits, rfl⟩
  simp only [Ballot.toCrossVote, hbase, hquo]
  exact if_pos (Decimal.lt_iff.mpr hown)

end CrossVotes

section Wins

variable {env : Env} {c : Chain} {r d : String} {a : ValAddress} {honest : ValAddress → Bool}
  {ranges : Band}

/-- The median of a passing ballot lies where the agreeing rates do. -/
theorem Agreed.median (h : Agreed env c r a honest ranges) (hs : AcceptedVotes c.oracle)
    (hd : d ∈ passingTargets env.runtime c.staking c.oracle) :
    ranges.lowTallied r d ≤ (tallied env.runtime c.staking c.oracle r d).median ∧
      (tallied env.runtime c.staking c.oracle r d).median ≤ ranges.highTallied r d := by
  have hminority := h.minority d hd
  unfold Band.lowTallied Band.highTallied
  split_ifs with hself
  · subst hself
    rw [tallied_self] at hminority ⊢
    exact median_of_ballotOn hs (h.within d) hd hminority
  · exact median_of_cross hs (h.within r) (h.within d) (ranges.low_pos r).le (ranges.low_pos d)
      hself hd hminority

/-- So does the vote of the operator in the ballot. -/
theorem Agreed.vote (h : Agreed env c r a honest ranges) (hs : AcceptedVotes c.oracle)
    (hd : d ∈ passingTargets env.runtime c.staking c.oracle) {base own : LegacyDec}
    (hr : Submitted c.staking c.oracle a r base) (hown : Submitted c.staking c.oracle a d own) :
    ∃ v ∈ tallied env.runtime c.staking c.oracle r d, v.voter = a ∧
      ranges.lowTallied r d ≤ v.exchangeRate ∧ v.exchangeRate ≤ ranges.highTallied r d := by
  have hfits := h.fits d hd
  unfold Band.lowTallied
  unfold Band.highTallied at hfits ⊢
  split_ifs at hfits ⊢ with hself
  · subst hself
    rw [tallied_self]
    exact ⟨_, mem_ballotOn_of_submitted hs hown, rfl, h.within d a own h.member hown⟩
  · obtain ⟨hlow, hhigh⟩ := h.within r a base h.member hr
    obtain ⟨hlow', hhigh'⟩ := h.within d a own h.member hown
    have hbase := (submitted_bounds hs hr).1
    have hpos := (submitted_bounds hs hown).1
    have hle := Decimal.quotient_mono hbase.le hhigh (ranges.low_pos d) hlow'
    have hcross : Decimal.Fits legacyFormat (Decimal.quotient base own).raw := by
      apply (hfits hself).of_le _ (Decimal.le_iff.mp hle)
      apply chop_nonneg
      apply Int.tdiv_nonneg _ hpos.le
      exact mul_nonneg hbase.le (by positivity)
    rw [tallied_ne hself]
    refine ⟨_, mem_toCrossRateWithSort.mpr ⟨_, mem_ballotOn_of_submitted hs hown,
      crossVote_of_submitted hs hr hown hcross⟩, rfl, ?_, hle⟩
    exact Decimal.quotient_mono (ranges.low_pos r).le hlow hpos hhigh'

/-- Two rates in a narrow range differ by at most the spread of the ballot. -/
theorem inBand_of_narrow {rt : Runtime} {rewardBand : LegacyDec} {b : Ballot} {lo hi rate : LegacyDec}
    (hlo : 0 ≤ lo.raw) (hband : 0 ≤ rewardBand.raw)
    (hnarrow : hi.raw - lo.raw ≤ chop legacyFormat.scale (lo.raw * rewardBand.raw.tdiv 2))
    (hmedian : lo ≤ b.median ∧ b.median ≤ hi) (hrate : lo ≤ rate ∧ rate ≤ hi) :
    b.InBand rt rewardBand rate := by
  simp only [Decimal.le_iff] at hmedian hrate
  have hhalf : 0 ≤ rewardBand.raw.tdiv 2 := Int.tdiv_nonneg hband (by norm_num)
  have hmono : chop legacyFormat.scale (lo.raw * rewardBand.raw.tdiv 2) ≤
      chop legacyFormat.scale (b.median.raw * rewardBand.raw.tdiv 2) :=
    chop_mono_of_nonneg legacyFormat.scale_pos (mul_nonneg hlo hhalf)
      (mul_le_mul_of_nonneg_right hmedian.1 hhalf)
  have hspread : chop legacyFormat.scale (b.median.raw * rewardBand.raw.tdiv 2) ≤
      (b.spread rt rewardBand).raw := Decimal.le_iff.mp (le_max_left _ _)
  constructor
  · omega
  · omega

/-- The operator wins every ballot that passes. -/
theorem Agreed.wins (h : Agreed env c r a honest ranges) (hs : AcceptedVotes c.oracle)
    (hv : c.oracle.params.Valid) (href : IsReference env.runtime c.staking c.oracle r)
    (hsubmits : ∀ d ∈ passingTargets env.runtime c.staking c.oracle,
      ∃ rate, Submitted c.staking c.oracle a d rate)
    (hd : d ∈ passingTargets env.runtime c.staking c.oracle) :
    (tallied env.runtime c.staking c.oracle r d).winsOf env.runtime c.oracle.params.rewardBand a =
      1 := by
  obtain ⟨base, hr⟩ := hsubmits r href.1
  obtain ⟨own, hown⟩ := hsubmits d hd
  obtain ⟨v, hmem, hvoter, hrate⟩ := h.vote hs hd hr hown
  have hhigh : 0 ≤ (ranges.high d).raw := by
    have hle := Decimal.le_iff.mp (h.within d a own h.member hown).2
    exact (submitted_bounds hs hown).1.le.trans hle
  have hdistinct : ((tallied env.runtime c.staking c.oracle r d).map (·.voter)).Nodup :=
    (voters_tallied r d).nodup_iff.mpr (List.pairwise_map.mpr (castOn_distinct hs d))
  apply le_antisymm (winsOf_le_one hdistinct a)
  apply List.countP_pos_iff.mpr
  refine ⟨v, hmem, decide_eq_true ⟨hvoter, ?_⟩⟩
  exact inBand_of_narrow (ranges.lowTallied_nonneg r d hhigh) hv.rewardBand_nonneg (h.narrow d hd)
    (h.median hs hd) hrate

/-- So a period that ends normally is a success of the operator. -/
theorem Agrees.success (h : Agrees env a c) (hs : AcceptedVotes c.oracle)
    (hv : c.oracle.params.Valid) {o : IterationOrder} {blk : Block} {t : State}
    (hperiod : tallyPeriod env.runtime o blk c.staking c.oracle = .ok t) :
    periodOutcome env.runtime c.staking c.oracle a = .success := by
  have hpassing : winsAmong env.runtime c.oracle.params.rewardBand
      (passingBallots env.runtime c.staking c.oracle) a =
        (passingTargets env.runtime c.staking c.oracle).length := by
    rw [winsAmong_eq_length, passingBallots, List.length_map]
    intro b hb
    obtain ⟨d, hd, rfl⟩ := List.mem_map.mp hb
    obtain ⟨r, _, href⟩ := exists_reference hs hperiod (List.ne_nil_of_mem hd)
    obtain ⟨honest, ranges, hagreed⟩ := h.agreed r href
    rw [reference_eq href]
    exact hagreed.wins hs hv href h.submits hd
  rw [periodOutcome, if_pos]
  rw [periodWins, winsAmong_append, hpassing, h.settled, remainingTargets]

end Wins

section Windows

variable {env : Env} {marked : Chain → Bool} {a : ValAddress} {c c' : Chain}

/-- One where a block ends a period that is marked. -/
def markedEnd (marked : Chain → Bool) (c : Chain) : Event → ℤ
  | .endBlock _ => if c.endsPeriod ∧ marked c = true then 1 else 0
  | _ => 0

/-- No block ends the window. -/
def Lasts (c : Chain) (e : Event) : Prop := (∃ time, e = .beginBlock time) → ¬ c.endsWindow

instance (c : Chain) (e : Event) : Decidable (Lasts c e) :=
  match e with
  | .beginBlock _ => decidable_of_iff (¬ c.endsWindow) (by simp [Lasts])
  | .stake _ | .message _ | .endBlock _ => isTrue (by simp [Lasts])

/-- The window lasts, and in the marked periods `a` agrees with a majority. -/
def AgreesWhere (env : Env) (marked : Chain → Bool) (a : ValAddress) (c : Chain) (e : Event) :
    Prop :=
  Lasts c e ∧ ((∃ o, e = .endBlock o) → c.endsPeriod → marked c = true → Agrees env a c)

/-- The operator has a vote on a target, or no target is left to win. -/
def excused (env : Env) (a : ValAddress) (c : Chain) : Bool :=
  tookPart env.runtime c.staking c.oracle a || remainingTargets env.runtime c.staking c.oracle = 0

theorem le_successCount_plus (x : Outcome) (k : VotePenaltyCounter) :
    k.successCount ≤ (k.plus x).successCount := by
  cases x with
  | success => exact Nat.le_succ _
  | abstain => exact le_rfl
  | miss => exact le_rfl

/-- In a window that lasts, only the end of a period counts: one outcome. -/
theorem counter_step (hc : Conserved c) {e : Event} {params : Params}
    (hattended : Attended params a c e) (hlasts : Lasts c e) (hstep : step env c e = .ok c') :
    (∃ o t, e = .endBlock o ∧ c.endsPeriod ∧
        tallyPeriod env.runtime o c.block c.staking c.oracle = .ok t ∧
        c'.counter a = (c.counter a).plus (periodOutcome env.runtime c.staking c.oracle a)) ∨
      c'.counter a = c.counter a ∧ ∀ marked, markedEnd marked c e = 0 := by
  cases e with
  | stake st =>
      cases hstep
      exact Or.inr ⟨rfl, fun _ => rfl⟩
  | message msg =>
      obtain ⟨_, hdelivered⟩ := delivered_message hstep
      refine Or.inr ⟨?_, fun _ => rfl⟩
      simp only [Chain.counter, getVotePenaltyCounterOrDefault, hdelivered.votePenaltyCounter]
  | beginBlock time =>
      have hcounter := counter_beginBlock hc hstep a
      rw [if_neg (hlasts ⟨time, rfl⟩)] at hcounter
      exact Or.inr ⟨hcounter, fun _ => rfl⟩
  | endBlock o =>
      by_cases hends : c.endsPeriod
      · simp only [step, bind_eq_ok, pure_eq_ok, Except.ok.injEq] at hstep
        obtain ⟨_, _, s, hend, rfl⟩ := hstep
        have hperiod : if c.endsPeriod then
            tallyPeriod env.runtime o c.block c.staking c.oracle = .ok s else s = c.oracle :=
          (endBlocker_eq_ok.mp hend).2
        rw [if_pos hends] at hperiod
        have hcount := tallyPeriod_counts hc.accepted hc.valid hperiod a
        rw [if_pos (hattended.2 ⟨o, rfl⟩)] at hcount
        exact Or.inl ⟨o, s, rfl, hends, hperiod, hcount.trans (bump_eq_plus (hc.sum_lt a) _)⟩
      · have hcounter := counter_endBlock hc hstep a
        rw [if_neg (fun hcounted => hends hcounted.1)] at hcounter
        exact Or.inr ⟨hcounter, fun _ => if_neg (fun hmarked => hends hmarked.1)⟩

/-- A marked period end adds a success, and no step of the window takes one away. -/
theorem le_successCount_step (hc : Conserved c) {e : Event} {params : Params}
    (hattended : Attended params a c e) (hagrees : AgreesWhere env marked a c e)
    (hstep : step env c e = .ok c') :
    ((c.counter a).successCount : ℤ) + markedEnd marked c e ≤ (c'.counter a).successCount := by
  obtain ⟨o, t, rfl, hends, hperiod, hcounter⟩ | ⟨hcounter, hzero⟩ :=
    counter_step hc hattended hagrees.1 hstep
  · rw [hcounter, markedEnd]
    split_ifs with hmarked
    · have hagreed := hagrees.2 ⟨o, rfl⟩ hends hmarked.2
      rw [hagreed.success hc.accepted hc.valid hperiod]
      exact_mod_cast le_rfl
    · rw [add_zero, Nat.cast_le]
      exact le_successCount_plus _ _
  · rw [hcounter, hzero, add_zero]

/-- Whoever is not excused has no success in the period. -/
theorem excused_of_success (h : periodOutcome env.runtime c.staking c.oracle a = .success) :
    excused env a c = true := by
  unfold excused
  cases htook : tookPart env.runtime c.staking c.oracle a with
  | true => rfl
  | false =>
      rw [periodOutcome, periodWins_of_absent htook, htook] at h
      split_ifs at h with hzero
      simp [← hzero]

/-- A step of the window adds at most one success, where `a` is excused at a period end. -/
theorem successCount_step_le (hc : Conserved c) {e : Event} {params : Params}
    (hattended : Attended params a c e) (hlasts : Lasts c e) (hstep : step env c e = .ok c') :
    ((c'.counter a).successCount : ℤ) ≤
      (c.counter a).successCount + markedEnd (excused env a) c e := by
  obtain ⟨o, t, rfl, hends, _, hcounter⟩ | ⟨hcounter, hzero⟩ :=
    counter_step hc hattended hlasts hstep
  · rw [hcounter]
    cases houtcome : periodOutcome env.runtime c.staking c.oracle a with
    | success =>
        rw [markedEnd, if_pos ⟨hends, excused_of_success houtcome⟩]
        exact_mod_cast le_rfl
    | abstain =>
        unfold markedEnd
        split_ifs
        · exact Int.le_add_one le_rfl
        · exact (add_zero _).ge
    | miss =>
        unfold markedEnd
        split_ifs
        · exact Int.le_add_one le_rfl
        · exact (add_zero _).ge
  · rw [hcounter, hzero, add_zero]

variable {height : ℕ} (hheight : height < 2 ^ 63) {st : Staking}
  {denomMetaData : SortedMap String Metadata} {before : List Event} {c₀ c₁ : Chain} {time : ℤ}
  (hbefore : Runs.run (step env) (genesis height st denomMetaData) before = .ok c₀)
  (hends : c₀.endsWindow) (hreset : step env c₀ (.beginBlock time) = .ok c₁) {es : List Event}
  (hattended : Runs.Along (step env) (Attended c₀.oracle.params a) c₁ es)
  (h : Runs.run (step env) c₁ es = .ok c) (hparams : c.oracle.params = c₀.oracle.params)
include hheight hbefore hends hreset hattended h hparams

/-- Take a slash window under fixed parameters through which an operator is bonded. It has
a success for each period at whose end it agreed with a majority, whatever the others
submitted. Where these periods are the minimum share of the window's, the block that ends
the window does not slash it. -/
theorem spared_of_agreement (hslash : KeepsOthers env.slash)
    (hagrees : Runs.Along (step env) (AgreesWhere env marked a) c₁ es) (hlast : c.endsWindow)
    {time' : ℤ} (hnext : step env c (.beginBlock time') = .ok c') :
    Runs.total (step env) (markedEnd marked) c₁ es ≤ (c.counter a).successCount ∧
      ((c.oracle.params.minValidPerWindow.raw : ℚ) / legacyFormat.scale *
          (c.oracle.params.slashWindow / c.oracle.params.votePeriod : ℕ) ≤
        Runs.total (step env) (markedEnd marked) c₁ es →
        ∃ w, slashesOf env.slash ⟨c.height + 1, time'⟩ c.staking c.oracle = .ok w ∧
          c'.staking = w.staking ∧ a ∉ w.calls.map SlashCall.operator) := by
  have hconserved₁ := conserved_step _ _ _ (conserved_of_run hheight hbefore) hreset
  obtain ⟨hconserved, hcounted, hvalid⟩ :=
    counted_since_reset hheight hbefore hends hreset hattended h hparams
  have hsuccess : ((c₁.counter a).successCount : ℤ) +
      Runs.total (step env) (markedEnd marked) c₁ es ≤ (c.counter a).successCount := by
    refine Runs.total_le_measure (I := Conserved) (m := fun c => ((c.counter a).successCount : ℤ))
      (fun c e c' hc hP hstep => ⟨conserved_step c e c' hc hstep, ?_⟩) hconserved₁
      (hattended.and hagrees) h
    exact le_successCount_step hc hP.1 hP.2 hstep
  have htotal : Runs.total (step env) (markedEnd marked) c₁ es ≤ (c.counter a).successCount := by
    have hnonneg : (0 : ℤ) ≤ (c₁.counter a).successCount := Int.natCast_nonneg _
    omega
  refine ⟨htotal, fun hshare => ?_⟩
  obtain ⟨_, w, hw, hstaking, _, hiff⟩ :=
    slashed_iff_of_counted hslash hconserved hcounted hvalid hlast hnext
  refine ⟨w, hw, hstaking, fun hmem => ?_⟩
  obtain ⟨_, hbelow⟩ := hiff.mp hmem
  have hcast : (Runs.total (step env) (markedEnd marked) c₁ es : ℚ) ≤
      (c.counter a).successCount := by exact_mod_cast htotal
  exact absurd hbelow (not_lt.mpr (hshare.trans hcast))

/-- Take such a window. An operator has no more successes than periods at whose end it had
a vote on a target, or no target passed or was without votes. Where these periods fall
short of the minimum share, the block that ends the window slashes it, unless it is not
bonded any more or jailed. -/
theorem slashed_of_absence (hslash : KeepsOthers env.slash)
    (hlasts : Runs.Along (step env) Lasts c₁ es) (hlast : c.endsWindow) {time' : ℤ}
    (hnext : step env c (.beginBlock time') = .ok c') :
    (c.counter a).successCount ≤ Runs.total (step env) (markedEnd (excused env a)) c₁ es ∧
      ((Runs.total (step env) (markedEnd (excused env a)) c₁ es : ℚ) <
          c.oracle.params.minValidPerWindow.raw / legacyFormat.scale *
            (c.oracle.params.slashWindow / c.oracle.params.votePeriod : ℕ) → c.staking.Active a →
        ∃ w, slashesOf env.slash ⟨c.height + 1, time'⟩ c.staking c.oracle = .ok w ∧
          c'.staking = w.staking ∧ a ∈ w.calls.map SlashCall.operator ∧
          (w.calls.map SlashCall.operator).Nodup) := by
  have hconserved₁ := conserved_step _ _ _ (conserved_of_run hheight hbefore) hreset
  have hempty := counter_beginBlock (conserved_of_run hheight hbefore) hreset a
  rw [if_pos hends] at hempty
  obtain ⟨hconserved, hcounted, hvalid⟩ :=
    counted_since_reset hheight hbefore hends hreset hattended h hparams
  have htotal : ((c.counter a).successCount : ℤ) ≤ (c₁.counter a).successCount +
      Runs.total (step env) (markedEnd (excused env a)) c₁ es := by
    refine Runs.measure_le_total (I := Conserved) (m := fun c => ((c.counter a).successCount : ℤ))
      (fun c e c' hc hP hstep => ⟨conserved_step c e c' hc hstep, ?_⟩) hconserved₁
      (hattended.and hlasts) h
    exact successCount_step_le hc hP.1 hP.2 hstep
  rw [hempty, Nat.cast_zero, zero_add] at htotal
  refine ⟨htotal, fun hshort hactive => ?_⟩
  obtain ⟨_, w, hw, hstaking, hnodup, hiff⟩ :=
    slashed_iff_of_counted hslash hconserved hcounted hvalid hlast hnext
  have hcast : ((c.counter a).successCount : ℚ) ≤
      Runs.total (step env) (markedEnd (excused env a)) c₁ es := by exact_mod_cast htotal
  exact ⟨w, hw, hstaking, hiff.mpr ⟨hactive, hcast.trans_lt hshort⟩, hnodup⟩

end Windows

namespace SparedMajority
open OneStranger (env start vote honest)

/-- Every second block ends a period and a window, and every period has to be won. -/
def params : Params := { defaultParams with
  votePeriod := 2, slashWindow := 2, minValidPerWindow := .ofInt 1, whitelist := [⟨"ubtc"⟩] }

def before : List Event :=
  [.beginBlock 0, .message (.updateParams ⟨"gov", params⟩), .endBlock .ascending, .beginBlock 0,
    .endBlock .ascending]

def window : List Event :=
  [vote "2ubtc" "v1", vote "2ubtc" "v2", vote "9ubtc" "v3", .endBlock .ascending, .beginBlock 0,
    .endBlock .ascending]

def ranges : Band := ⟨fun _ => .ofInt 2, fun _ => .ofInt 2, fun _ => by decide⟩

/-- The first operator votes on what passes, at the one honest rate, and outvotes the stranger. -/
structure Checks (c : Chain) : Prop where
  accepted : AcceptedVotes c.oracle
  within : EntriesWithin c.oracle honest ranges.low ranges.high
  cast : ∀ d ∈ passingTargets env.runtime c.staking c.oracle,
    ⟨d, .ofInt 2, "v1", c.staking.power "v1"⟩ ∈ castOn (claimsOf c.staking) c.oracle d
  minority : ∀ r ∈ passingTargets env.runtime c.staking c.oracle,
    ∀ d ∈ passingTargets env.runtime c.staking c.oracle, d = r ∧
      strangerPower honest (tallied env.runtime c.staking c.oracle r d) <
        (tallied env.runtime c.staking c.oracle r d).power / 2
  band : 0 ≤ c.oracle.params.rewardBand.raw
  settled : winsAmong env.runtime c.oracle.params.rewardBand
    (failingBallots env.runtime c.staking c.oracle) "v1" =
      (unvotedTargets c.staking c.oracle).length

instance (c : Chain) : Decidable (Checks c) :=
  decidable_of_iff (_ ∧ _ ∧ _ ∧ _ ∧ _ ∧ _)
    ⟨fun ⟨h₁, h₂, h₃, h₄, h₅, h₆⟩ => ⟨h₁, h₂, h₃, h₄, h₅, h₆⟩,
      fun ⟨h₁, h₂, h₃, h₄, h₅, h₆⟩ => ⟨h₁, h₂, h₃, h₄, h₅, h₆⟩⟩

theorem agrees_of_checks {c : Chain} (h : Checks c) : Agrees env "v1" c := by
  refine ⟨fun d hd => ⟨.ofInt 2, ?_⟩, fun r href => ⟨honest, ranges, ?_⟩, h.settled⟩
  · exact ((mem_castOn h.accepted).mp (h.cast d hd)).2.2
  · refine ⟨by decide, submitWithin_of_entries h.within, fun d hd => (h.minority r href.1 d hd).2,
      fun d hd => ?_, fun d hd hne => absurd (h.minority r href.1 d hd).1 hne⟩
    obtain rfl := (h.minority r href.1 d hd).1
    have hrate : 0 ≤ (Decimal.ofInt 2 : LegacyDec).raw := by decide
    unfold Band.highTallied Band.lowTallied
    rw [if_pos rfl, if_pos rfl, ranges, sub_self]
    exact chop_nonneg _ (mul_nonneg hrate (Int.tdiv_nonneg h.band (by norm_num)))

def ChecksAt (c : Chain) : Event → Prop
  | .endBlock _ => c.endsPeriod → Checks c
  | _ => True

instance (c : Chain) : ∀ e, Decidable (ChecksAt c e)
  | .endBlock _ => inferInstanceAs (Decidable (_ → _))
  | .stake _ | .message _ | .beginBlock _ => inferInstanceAs (Decidable True)

theorem agreesWhere_of_checks {c : Chain} {e : Event} (h : Lasts c e ∧ ChecksAt c e) :
    AgreesWhere env (fun _ => true) "v1" c e := by
  refine ⟨h.1, ?_⟩
  rintro ⟨o, rfl⟩ hends _
  exact agrees_of_checks (h.2 hends)

def reached : Exec (Bool × ℤ) := do
  let c₀ ← Runs.run (step env) start before
  let c₁ ← step env c₀ (.beginBlock 0)
  let c ← Runs.run (step env) c₁ window
  let _ ← step env c (.beginBlock 0)
  pure (c₀.endsWindow ∧ Runs.Along (step env) (Attended c₀.oracle.params "v1") c₁ window ∧
    c.oracle.params = c₀.oracle.params ∧
    Runs.Along (step env) (fun c e => Lasts c e ∧ ChecksAt c e) c₁ window ∧
    c.endsWindow ∧ c.oracle.params = params,
    Runs.total (step env) (markedEnd fun _ => true) c₁ window)

set_option maxRecDepth 20000 in
theorem reached_view : reached.toOption = some (true, 1) := by decide

theorem voter_spared : ∃ c₀ c₁ c c' w, Runs.run (step env) start before = .ok c₀ ∧
    step env c₀ (.beginBlock 0) = .ok c₁ ∧ Runs.run (step env) c₁ window = .ok c ∧
    step env c (.beginBlock 0) = .ok c' ∧
    slashesOf env.slash ⟨c.height + 1, 0⟩ c.staking c.oracle = .ok w ∧
    "v1" ∉ w.calls.map SlashCall.operator := by
  have hok := toOption_eq_some.mp reached_view
  simp only [reached, bind_eq_ok, pure_eq_ok, Except.ok.injEq, Prod.mk.injEq,
    decide_eq_true_eq] at hok
  obtain ⟨c₀, hbefore, c₁, hreset, c, hwindow, c', hnext,
    ⟨hends, hattended, hparams, hchecks, hlast, hset⟩, htotal⟩ := hok
  have hagrees : Runs.Along (step env) (AgreesWhere env (fun _ => true) "v1") c₁ window :=
    hchecks.imp fun _ _ => agreesWhere_of_checks
  have hspared := spared_of_agreement (by norm_num) hbefore hends hreset hattended hwindow hparams
    (fun _ _ _ _ _ _ _ _ _ _ _ => rfl) hagrees hlast hnext
  rw [htotal, hset] at hspared
  obtain ⟨w, hw, _, hspared⟩ := hspared.2 (by norm_num [params, Decimal.ofInt])
  exact ⟨c₀, c₁, c, c', w, hbefore, hreset, hwindow, hnext, hw, hspared⟩

end SparedMajority

namespace SilentOperator
open OneStranger (env start vote)
open SparedMajority (params before)

def window : List Event :=
  [vote "2ubtc" "v1", vote "2ubtc" "v2", .endBlock .ascending, .beginBlock 0, .endBlock .ascending]

def reached : Exec (Bool × ℤ) := do
  let c₀ ← Runs.run (step env) start before
  let c₁ ← step env c₀ (.beginBlock 0)
  let c ← Runs.run (step env) c₁ window
  let _ ← step env c (.beginBlock 0)
  pure (c₀.endsWindow ∧ Runs.Along (step env) (Attended c₀.oracle.params "v3") c₁ window ∧
    c.oracle.params = c₀.oracle.params ∧ Runs.Along (step env) Lasts c₁ window ∧
    c.endsWindow ∧ c.oracle.params = params ∧ c.staking.Active "v3",
    Runs.total (step env) (markedEnd (excused env "v3")) c₁ window)

set_option maxRecDepth 20000 in
theorem reached_view : reached.toOption = some (true, 0) := by decide

theorem silent_slashed : ∃ c₀ c₁ c c' w, Runs.run (step env) start before = .ok c₀ ∧
    step env c₀ (.beginBlock 0) = .ok c₁ ∧ Runs.run (step env) c₁ window = .ok c ∧
    step env c (.beginBlock 0) = .ok c' ∧
    slashesOf env.slash ⟨c.height + 1, 0⟩ c.staking c.oracle = .ok w ∧
    "v3" ∈ w.calls.map SlashCall.operator := by
  have hok := toOption_eq_some.mp reached_view
  simp only [reached, bind_eq_ok, pure_eq_ok, Except.ok.injEq, Prod.mk.injEq,
    decide_eq_true_eq] at hok
  obtain ⟨c₀, hbefore, c₁, hreset, c, hwindow, c', hnext,
    ⟨hends, hattended, hparams, hlasts, hlast, hset, hactive⟩, htotal⟩ := hok
  have hslashed := slashed_of_absence (by norm_num) hbefore hends hreset hattended hwindow hparams
    (fun _ _ _ _ _ _ _ _ _ _ _ => rfl) hlasts hlast hnext
  rw [htotal, hset] at hslashed
  obtain ⟨w, hw, _, hmem, _⟩ := hslashed.2 (by norm_num [params, Decimal.ofInt]) hactive
  exact ⟨c₀, c₁, c, c', w, hbefore, hreset, hwindow, hnext, hw, hmem⟩

end SilentOperator

end Kiichain.Oracle
