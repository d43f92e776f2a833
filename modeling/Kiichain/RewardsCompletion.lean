import Kiichain.RewardsSolvency

/-!
# Completion of a release schedule

A block at or after the end of a schedule pays everything that is left when the
last release lies at or before the end. A schedule that starts only after its
end has a negative period, and from then on pays one unit a block.
-/

namespace Kiichain.Rewards
open GoExec FixedPoint

section Blocks

variable {blockTime : ℤ} {sch sch' : ReleaseSchedule} {o : Option Coin}

theorem endTime_advances (h : sch.Advances blockTime o sch') : sch'.endTime = sch.endTime := by
  cases h <;> rfl

theorem remaining_nonneg (hw : sch.WellFormed) : 0 ≤ sch.remaining := by
  have := hw.released_le
  unfold ReleaseSchedule.remaining
  omega

/-- What is left is still to be paid out by an active schedule. -/
structure Running (sch : ReleaseSchedule) : Prop where
  wellFormed : sch.WellFormed
  active : sch.remaining ≠ 0 → sch.active = true

theorem Running.live (hr : Running sch) (hrem : sch.remaining ≠ 0) :
    ¬ (!sch.active || sch.totalAmount.isZero) = true := by
  refine live_iff.mpr ⟨hr.active hrem, ?_⟩
  intro hz
  have htotal : sch.totalAmount.amount.val = 0 := by simpa [Coin.isZero] using hz
  have hnonneg := hr.wellFormed.released_nonneg
  have hle := hr.wellFormed.released_le
  apply hrem
  unfold ReleaseSchedule.remaining
  omega

theorem isZero_of_remaining (hw : sch.WellFormed) (hrem : sch.remaining = 0) {c : Coin}
    (hc : calculateReward blockTime sch = .ok c) : c.isZero = true := by
  obtain ⟨c', hc', hz'⟩ := calculateReward_of_remaining_eq_zero hw hrem blockTime
  rw [hc'] at hc
  cases hc
  exact hz'

theorem remaining_advances_of_zero (hr : Running sch) (hrem : sch.remaining = 0)
    (h : sch.Advances blockTime o sch') : sch'.remaining = 0 := by
  cases h with
  | idle _ => exact hrem
  | started _ _ => exact hrem
  | exhausted _ _ _ _ => exact hrem
  | paid _ _ hc hz _ => exact absurd (isZero_of_remaining hr.wellFormed hrem hc) hz

/-- A block that finds something left and a last release pays the share of the
elapsed time, at least one unit and at most what is left. -/
theorem advances_of_remaining (hr : Running sch) (hrem : sch.remaining ≠ 0)
    (hlast : sch.lastReleaseTime ≠ 0) (h : sch.Advances blockTime o sch') :
    sch.Paced blockTime ∧ sch'.lastReleaseTime = blockTime ∧ sch'.active = true ∧
      sch'.WellFormed ∧
      sch'.remaining = sch.remaining - min (max ((sch.remaining * sch.proportion blockTime).tdiv
        1000000000000000000) 1) sch.remaining := by
  have hw := hr.wellFormed
  have hvalid := hw.denom_valid (hr.active hrem)
  have hnonneg := remaining_nonneg hw
  cases h with
  | idle hidle => exact absurd hidle (hr.live hrem)
  | started _ h0 => exact absurd h0 hlast
  | exhausted _ _ hc hz =>
      obtain ⟨_, _, hv⟩ := (calculateReward_eq_ok hw hvalid hrem).mp hc
      have hzero : (0 : ℤ) = _ := (by simpa [Coin.isZero] using hz : _ = (0 : ℤ)).symm.trans hv
      omega
  | paid _ _ hc hz hreleased =>
      obtain ⟨hpaced, hd, hv⟩ := (calculateReward_eq_ok hw hvalid hrem).mp hc
      obtain ⟨_, hrd, hrv⟩ := Coin.add_eq_ok.mp hreleased
      have hreleased_nonneg := hw.released_nonneg
      have hpaid := (calculateReward_amount hw hvalid hc hz).2
      refine ⟨hpaced, rfl, hr.active hrem, ⟨hrd.trans hw.denom_eq, ?_, ?_, hw.denom_valid⟩, ?_⟩
      · dsimp only
        omega
      · unfold ReleaseSchedule.remaining at hpaid
        dsimp only
        omega
      · rw [← hv]
        simp only [ReleaseSchedule.remaining, hrv]
        ring

theorem running_advances (hr : Running sch) (h : sch.Advances blockTime o sch') : Running sch' := by
  by_cases hrem : sch.remaining = 0
  · have hrem' := remaining_advances_of_zero hr hrem h
    have hw := hr.wellFormed
    refine ⟨?_, fun hne => absurd hrem' hne⟩
    cases h with
    | idle _ => exact hw
    | started _ _ => exact ⟨hw.1, hw.2, hw.3, hw.4⟩
    | exhausted _ _ _ _ => exact ⟨hw.1, hw.2, hw.3, by simp⟩
    | paid _ _ hc hz _ => exact absurd (isZero_of_remaining hw hrem hc) hz
  · by_cases hlast : sch.lastReleaseTime = 0
    · cases h with
      | idle _ => exact hr
      | started _ _ =>
          have hw := hr.wellFormed
          exact ⟨⟨hw.1, hw.2, hw.3, hw.4⟩, hr.active⟩
      | exhausted _ hne _ _ => exact absurd hlast hne
      | paid _ hne _ _ _ => exact absurd hlast hne
    · obtain ⟨_, _, hactive, hw, _⟩ := advances_of_remaining hr hrem hlast h
      exact ⟨hw, fun _ => hactive⟩

theorem advances_of_unstarted (hr : Running sch) (hrem : sch.remaining ≠ 0)
    (hlast : sch.lastReleaseTime = 0) (h : sch.Advances blockTime o sch') :
    sch' = { sch with lastReleaseTime := blockTime } := by
  cases h with
  | idle hidle => exact absurd hidle (hr.live hrem)
  | started _ _ => rfl
  | exhausted _ hne _ _ => exact absurd hlast hne
  | paid _ hne _ _ _ => exact absurd hlast hne

/-- At or after the end, a period that ends later than the last release has
elapsed in full. -/
theorem le_proportion (hpaced : sch.Paced blockTime) (hlate : sch.endTime ≤ blockTime)
    (hlast : sch.lastReleaseTime < sch.endTime) :
    1000000000000000000 ≤ sch.proportion blockTime := by
  have hsub : GoTime.sub sch.endTime sch.lastReleaseTime ≤
      GoTime.sub blockTime sch.lastReleaseTime := by
    unfold GoTime.sub GoTime.maxDuration GoTime.minDuration
    omega
  have hnonneg : 0 ≤ GoTime.sub sch.endTime sch.lastReleaseTime := by
    unfold GoTime.sub GoTime.maxDuration GoTime.minDuration
    omega
  have hmax := (abs_le.mp (GoTime.abs_sub_le blockTime sch.lastReleaseTime)).2
  have hle : sch.period ≤ sch.elapsed blockTime := GoTime.wholeSeconds_mono hnonneg hsub hmax
  have hpos : 0 < sch.period := by
    have hne := ReleaseSchedule.period_ne_zero.mpr hpaced.1
    have hge := (GoTime.wholeSeconds_of_nonneg hnonneg (hsub.trans hmax)).1
    have : 0 ≤ sch.period := (Int.ediv_nonneg hnonneg (by norm_num)).trans hge
    omega
  have hquo : 1000000000000000000 * 1000000000000000000 ≤
      (sch.elapsed blockTime * (1000000000000000000 * 1000000000000000000)).tdiv sch.period := by
    have helapsed : 0 ≤ sch.elapsed blockTime := hpos.le.trans hle
    rw [Int.tdiv_eq_ediv_of_nonneg (by positivity)]
    apply (Int.le_ediv_iff_mul_le hpos).mpr
    rw [mul_comm]
    exact mul_le_mul_of_nonneg_right hle (by norm_num)
  have hchop := chop_mono_of_nonneg (s := 1000000000000000000) (by norm_num) (by norm_num) hquo
  rw [show (1000000000000000000 * 1000000000000000000 : ℤ) =
    ((1000000000000000000 : ℕ) : ℤ) * 1000000000000000000 by norm_num,
    chop_mul_self (by norm_num)] at hchop
  exact hchop

/-- After a last release at or past the end the period is negative. -/
theorem proportion_nonpos (hlast : sch.endTime ≤ sch.lastReleaseTime)
    (hblock : sch.lastReleaseTime ≤ blockTime) : sch.proportion blockTime ≤ 0 := by
  have hnonpos : GoTime.sub sch.endTime sch.lastReleaseTime ≤ 0 := by
    unfold GoTime.sub GoTime.maxDuration GoTime.minDuration
    omega
  have hnonneg : 0 ≤ GoTime.sub blockTime sch.lastReleaseTime := by
    unfold GoTime.sub GoTime.maxDuration GoTime.minDuration
    omega
  have hmin := (abs_le.mp (GoTime.abs_sub_le sch.endTime sch.lastReleaseTime)).1
  have hmax := (abs_le.mp (GoTime.abs_sub_le blockTime sch.lastReleaseTime)).2
  have hperiod : sch.period ≤ 0 := by
    have hle := (GoTime.wholeSeconds_of_nonpos hnonpos hmin).2
    have := Int.ediv_nonneg (neg_nonneg.mpr hnonpos) (by norm_num : (0 : ℤ) ≤ 1000000000)
    unfold ReleaseSchedule.period
    omega
  have helapsed : 0 ≤ sch.elapsed blockTime := by
    have hge := (GoTime.wholeSeconds_of_nonneg hnonneg hmax).1
    exact (Int.ediv_nonneg hnonneg (by norm_num)).trans hge
  apply chop_nonpos
  exact Int.tdiv_nonpos_of_nonneg_of_nonpos (by positivity) hperiod

/-- The last release is behind the schedule's end or on it, or nothing is left. -/
def Due (sch : ReleaseSchedule) : Prop :=
  sch.remaining = 0 ∨ sch.lastReleaseTime ≠ 0 ∧ sch.lastReleaseTime ≤ sch.endTime

theorem due_of_early (hr : Running sch) (hblock : blockTime ≠ 0) (hearly : blockTime < sch.endTime)
    (h : sch.Advances blockTime o sch') : Due sch' := by
  by_cases hrem : sch.remaining = 0
  · exact Or.inl (remaining_advances_of_zero hr hrem h)
  · refine Or.inr ?_
    rw [endTime_advances h]
    by_cases hlast : sch.lastReleaseTime = 0
    · rw [advances_of_unstarted hr hrem hlast h]
      exact ⟨hblock, hearly.le⟩
    · rw [(advances_of_remaining hr hrem hlast h).2.1]
      exact ⟨hblock, hearly.le⟩

/-- The first block at or after the end pays out all of a schedule that is due. -/
theorem remaining_of_late (hr : Running sch) (hdue : Due sch) (hlate : sch.endTime ≤ blockTime)
    (h : sch.Advances blockTime o sch') : sch'.remaining = 0 := by
  by_cases hrem : sch.remaining = 0
  · exact remaining_advances_of_zero hr hrem h
  · obtain ⟨hne, hle⟩ := hdue.resolve_left hrem
    obtain ⟨hpaced, _, _, _, hpaid⟩ := advances_of_remaining hr hrem hne h
    have hlt : sch.lastReleaseTime < sch.endTime := by
      refine lt_of_le_of_ne hle fun heq => ?_
      have hgap := hpaced.1
      rw [heq, sub_self] at hgap
      norm_num at hgap
    have hnonneg := remaining_nonneg hr.wellFormed
    have hshare : sch.remaining ≤
        (sch.remaining * sch.proportion blockTime).tdiv 1000000000000000000 := by
      have hmul := mul_le_mul_of_nonneg_left (le_proportion hpaced hlate hlt) hnonneg
      rw [Int.tdiv_eq_ediv_of_nonneg (le_trans (by positivity) hmul)]
      exact (Int.le_ediv_iff_mul_le (by norm_num)).mpr hmul
    rw [hpaid, min_eq_right (hshare.trans (le_max_left _ _)), sub_self]

/-- From a last release past the end on, a block pays a single unit. -/
theorem remaining_of_overdue (hr : Running sch) (hrem : sch.remaining ≠ 0)
    (hne : sch.lastReleaseTime ≠ 0) (hlast : sch.endTime ≤ sch.lastReleaseTime)
    (hblock : sch.lastReleaseTime ≤ blockTime) (h : sch.Advances blockTime o sch') :
    sch'.remaining = sch.remaining - 1 := by
  obtain ⟨_, _, _, _, hpaid⟩ := advances_of_remaining hr hrem hne h
  have hnonneg := remaining_nonneg hr.wellFormed
  have hshare : (sch.remaining * sch.proportion blockTime).tdiv 1000000000000000000 ≤ 0 := by
    have hmul := mul_nonpos_of_nonneg_of_nonpos hnonneg (proportion_nonpos hlast hblock)
    have hneg := Int.tdiv_nonneg (neg_nonneg.mpr hmul) (by norm_num : (0 : ℤ) ≤ 1000000000000000000)
    rw [Int.neg_tdiv] at hneg
    omega
  rw [hpaid]
  omega

end Blocks

/-- The blocks at the given times move the schedule from the first to the last. -/
inductive Releases : ReleaseSchedule → List ℤ → ReleaseSchedule → Prop
  | nil (sch : ReleaseSchedule) : Releases sch [] sch
  | cons {sch sch' sch'' : ReleaseSchedule} {o : Option Coin} {b : ℤ} {bs : List ℤ}
      (hfirst : sch.Advances b o sch') (hrest : Releases sch' bs sch'') : Releases sch (b :: bs) sch''

def late (endTime : ℤ) (bs : List ℤ) : ℕ := bs.countP (endTime ≤ ·)

section Sequences

variable {sch sch' : ReleaseSchedule} {bs : List ℤ}

theorem remaining_releases_of_zero (hr : Running sch) (hrem : sch.remaining = 0)
    (h : Releases sch bs sch') : sch'.remaining = 0 := by
  induction h with
  | nil _ => exact hrem
  | cons hfirst _ ih =>
      exact ih (running_advances hr hfirst) (remaining_advances_of_zero hr hrem hfirst)

theorem running_releases (hr : Running sch) (h : Releases sch bs sch') : Running sch' := by
  induction h with
  | nil _ => exact hr
  | cons hfirst _ ih => exact ih (running_advances hr hfirst)

theorem remaining_of_due (hr : Running sch) (hdue : Due sch) (hclock : ∀ b ∈ bs, b ≠ 0)
    (hlate : 1 ≤ late sch.endTime bs) (h : Releases sch bs sch') : sch'.remaining = 0 := by
  induction h with
  | nil _ => simp [late] at hlate
  | @cons sch₁ sch₂ sch₃ o b bs hfirst hrest ih =>
      have hr' := running_advances hr hfirst
      obtain hb | hb := le_or_gt sch₁.endTime b
      · exact remaining_releases_of_zero hr' (remaining_of_late hr hdue hb hfirst) hrest
      · obtain ⟨hzero, hclock'⟩ := List.forall_mem_cons.mp hclock
        refine ih hr' (due_of_early hr hzero hb hfirst) hclock' ?_
        rw [endTime_advances hfirst]
        simpa [late, not_le.mpr hb] using hlate

/-- The condition on a schedule and the block times to come. -/
def InTime (sch : ReleaseSchedule) (bs : List ℤ) : Prop :=
  late sch.endTime bs ≤ 1 ∨ sch.lastReleaseTime ≠ 0 ∨ (∃ b ∈ bs, b < sch.endTime) ∨
    sch.remaining ≤ 1

/-- A schedule that was never released starts at the first block. When that block
is already late, the next one finds the start past the end. -/
theorem remaining_of_late_start {sch₁ : ReleaseSchedule} {b b' : ℤ} {o o' : Option Coin}
    (hr : Running sch) (hstarted : sch.lastReleaseTime = 0) (hrem : sch.remaining ≠ 0)
    (hzero : b ≠ 0) (hb : sch.endTime ≤ b) (hle : b ≤ b') (hfirst : sch.Advances b o sch₁)
    (hsecond : sch₁.Advances b' o' sch') : sch'.remaining = sch.remaining - 1 := by
  have hr₁ := running_advances hr hfirst
  obtain rfl := advances_of_unstarted hr hrem hstarted hfirst
  have hrem₁ : ReleaseSchedule.remaining { sch with lastReleaseTime := b } ≠ 0 := hrem
  have hpaid := remaining_of_overdue hr₁ hrem₁ hzero hb hle hsecond
  exact hpaid

theorem remaining_of_inTime (hr : Running sch)
    (hlast : sch.lastReleaseTime = 0 ∨ sch.lastReleaseTime ≤ sch.endTime)
    (hsorted : bs.Pairwise (· ≤ ·)) (hclock : ∀ b ∈ bs, b ≠ 0) (hlate : 2 ≤ late sch.endTime bs)
    (hin : InTime sch bs) (h : Releases sch bs sch') : sch'.remaining = 0 := by
  by_cases hstarted : sch.lastReleaseTime ≠ 0
  · exact remaining_of_due hr (Or.inr ⟨hstarted, hlast.resolve_left hstarted⟩) hclock (by omega) h
  · rw [not_not] at hstarted
    by_cases hrem : sch.remaining = 0
    · exact remaining_releases_of_zero hr hrem h
    · cases h with
      | nil _ => simp [late] at hlate
      | @cons _ sch₁ _ o b bs hfirst hrest =>
          obtain ⟨hzero, hclock'⟩ := List.forall_mem_cons.mp hclock
          have hr₁ := running_advances hr hfirst
          obtain hb | hb := le_or_gt sch.endTime b
          · obtain ⟨hle, hsorted'⟩ := List.pairwise_cons.mp hsorted
            have hone : sch.remaining = 1 := by
              have hnonneg := remaining_nonneg hr.wellFormed
              obtain hfew | hne | ⟨b', hb', hearly⟩ | hunit := hin
              · omega
              · exact absurd hstarted hne
              · have hbb' : b ≤ b' := by
                  obtain rfl | hmem := List.mem_cons.mp hb'
                  · exact le_rfl
                  · exact hle b' hmem
                omega
              · omega
            cases hrest with
            | nil _ => simp [late, hb] at hlate
            | @cons _ sch₂ _ o' b' bs' hsecond hrest' =>
                have hpaid := remaining_of_late_start hr hstarted hrem hzero hb
                  (hle b' List.mem_cons_self) hfirst hsecond
                apply remaining_releases_of_zero (running_advances hr₁ hsecond) _ hrest'
                rw [hpaid, hone, sub_self]
          · apply remaining_of_due hr₁ (due_of_early hr hzero hb hfirst) hclock' _ hrest
            rw [endTime_advances hfirst]
            simp only [late, List.countP_cons, decide_eq_true_eq, if_neg (not_le.mpr hb)] at hlate ⊢
            omega

end Sequences

section Runs

variable {k : Keeper} {s t : State} {es : List Event}

theorem releases_run (hk : Runs.Along (step k) (KeepsSchedule k) s es)
    (h : Runs.run (step k) s es = .ok t) :
    Releases s.releaseSchedule (blockTimes es) t.releaseSchedule := by
  induction es generalizing s with
  | nil =>
      cases h
      exact .nil _
  | cons e es ih =>
      obtain ⟨u, hu, hr⟩ := Runs.run_cons_eq_ok.mp h
      have hfirst := schedule_step hk.1 hu
      have hrest := ih (hk.2 u hu) hr
      cases he : blockTime? e with
      | none =>
          rw [he] at hfirst
          rw [← hfirst]
          simpa [blockTimes, he] using hrest
      | some b =>
          rw [he] at hfirst
          obtain ⟨o, hfirst⟩ := hfirst
          simpa [blockTimes, he] using Releases.cons hfirst hrest

theorem changeSchedule_eq_ok {ctx : Context} {msg : MsgChangeSchedule}
    (h : changeSchedule k ctx s msg = .ok t) :
    t.releaseSchedule = msg.schedule ∧ msg.schedule.WellFormed ∧
      (msg.schedule.lastReleaseTime = 0 ∨
        msg.schedule.lastReleaseTime ≤ msg.schedule.endTime) := by
  simp only [changeSchedule, bind_eq_ok, wrapped_eq_ok, pure_eq_ok, Except.ok.injEq] at h
  obtain ⟨_, _, _, hvalid, _, _, rfl⟩ := h
  refine ⟨rfl, validateSchedule_wellFormed hvalid, ?_⟩
  simp only [validateSchedule, bind_eq_ok] at hvalid
  obtain ⟨_, _, _, _, _, _, _, _, _, _, _, hlast, _⟩ := hvalid
  unfold validateLastReleaseTime at hlast
  by_cases hzero : msg.schedule.lastReleaseTime = 0
  · exact Or.inl hzero
  · rw [if_neg hzero] at hlast
    simp only [bind_eq_ok, ensure_eq_ok, exists_const] at hlast
    exact Or.inr hlast.2

/-- Whenever two blocks at or after the end have completed, the total amount is
released. -/
def Completes (k : Keeper) (s : State) (es : List Event) : Prop :=
  ∀ pre suf t, es = pre ++ suf → 2 ≤ late s.releaseSchedule.endTime (blockTimes pre) →
    Runs.run (step k) s pre = .ok t →
      t.releaseSchedule.releasedAmount = t.releaseSchedule.totalAmount

theorem exists_two_of_late {e : ℤ} {bs : List ℤ} (h : 1 < late e bs) :
    ∃ b b' bs', bs = b :: b' :: bs' := by
  have hlen := List.countP_le_length (p := fun b => decide (e ≤ b)) (l := bs)
  unfold late at h
  match bs, hlen.trans_lt' h with
  | b :: b' :: bs', _ => exact ⟨b, b', bs', rfl⟩

theorem exists_prefix {b b' : ℤ} {bs : List ℤ} (h : blockTimes es = b :: b' :: bs) :
    ∃ pre suf, es = pre ++ suf ∧ blockTimes pre = [b, b'] := by
  have hsplit : es.filterMap blockTime? = [b, b'] ++ bs := h
  obtain ⟨pre, suf, hes, hpre, _⟩ := List.filterMap_eq_append_iff.mp hsplit
  exact ⟨pre, suf, hes, hpre⟩

theorem wellFormed_ext {sch : ReleaseSchedule} (hw : sch.WellFormed) :
    sch.releasedAmount = sch.totalAmount ↔ sch.remaining = 0 := by
  have hd := hw.denom_eq
  unfold ReleaseSchedule.remaining
  constructor
  · intro h
    rw [h, sub_self]
  · intro h
    cases hreleased : sch.releasedAmount with
    | mk d n =>
        cases htotal : sch.totalAmount with
        | mk d' n' =>
            rw [hreleased, htotal] at hd h
            congr 1
            exact BoundedInt.ext_val (sub_eq_zero.mp h).symm

/-- Two late blocks leave nothing out of what was in time. -/
theorem inTime_of_append {sch : ReleaseSchedule} {bs bs' : List ℤ}
    (hsorted : (bs ++ bs').Pairwise (· ≤ ·)) (hlate : 2 ≤ late sch.endTime bs)
    (hin : InTime sch (bs ++ bs')) : InTime sch bs := by
  obtain ⟨_, _, hcross⟩ := List.pairwise_append.mp hsorted
  obtain hfew | hstarted | ⟨b, hb, hearly⟩ | hunit := hin
  · simp only [late, List.countP_append] at hfew hlate
    omega
  · exact Or.inr (Or.inl hstarted)
  · obtain hmem | hmem := List.mem_append.mp hb
    · exact Or.inr (Or.inr (Or.inl ⟨b, hmem, hearly⟩))
    · obtain ⟨b', hb', hle⟩ := List.countP_pos_iff.mp (two_pos.trans_le hlate)
      have hbefore := hcross b' hb' b hmem
      simp only [decide_eq_true_eq] at hle
      omega
  · exact Or.inr (Or.inr (Or.inr hunit))

/-- A schedule that completes was in time: else two late blocks that start it leave
more than a unit. -/
theorem inTime_of_completes (hr : Running s.releaseSchedule)
    (hkeeps : Runs.Along (step k) (KeepsSchedule k) s es)
    (hsorted : (blockTimes es).Pairwise (· ≤ ·)) (hclock : ∀ b ∈ blockTimes es, b ≠ 0)
    (hrun : Runs.run (step k) s es = .ok t) (hcompletes : Completes k s es) :
    InTime s.releaseSchedule (blockTimes es) := by
  by_contra hin
  simp only [InTime, not_or, not_le, not_exists, not_and, not_lt, not_not] at hin
  obtain ⟨hmany, hstarted, hnone, hleft⟩ := hin
  obtain ⟨b, b', bs, htimes⟩ := exists_two_of_late hmany
  obtain ⟨pre, suf, rfl, hpre⟩ := exists_prefix htimes
  obtain ⟨u, hu, _⟩ := Runs.run_append_eq_ok.mp hrun
  have hreleases := releases_run ((Runs.along_append _ _ _ _).mp hkeeps).1 hu
  rw [htimes] at hclock hnone hsorted
  have hb := hnone b (by simp)
  have hle : b ≤ b' := (List.pairwise_cons.mp hsorted).1 b' (by simp)
  have hlate : 2 ≤ late s.releaseSchedule.endTime (blockTimes pre) := by
    rw [hpre]
    simp [late, hb, hb.trans hle]
  have hdone := hcompletes pre suf u rfl hlate hu
  rw [hpre] at hreleases
  cases hreleases with
  | cons hfirst hrest =>
      cases hrest with
      | cons hsecond hnil =>
          cases hnil
          have hr₂ := running_advances (running_advances hr hfirst) hsecond
          have hrem := remaining_of_late_start hr hstarted (by omega) (hclock b (by simp)) hb hle
            hfirst hsecond
          rw [(wellFormed_ext hr₂.wellFormed).mp hdone] at hrem
          omega

/-- For a schedule accepted as active and the blocks that complete after it, in
order of time and none at the zero time: the total amount is released within two
late blocks exactly when the schedule or a block before the end has set the last
release time, or at most one unit is left. -/
theorem completes_iff_inTime {ctx : Context} {s₀ : State} {msg : MsgChangeSchedule}
    (hchange : changeSchedule k ctx s₀ msg = .ok s) (hactive : msg.schedule.active = true)
    (hkeeps : Runs.Along (step k) (KeepsSchedule k) s es)
    (hsorted : (blockTimes es).Pairwise (· ≤ ·)) (hclock : ∀ b ∈ blockTimes es, b ≠ 0)
    (hrun : Runs.run (step k) s es = .ok t) :
    Completes k s es ↔ InTime s.releaseSchedule (blockTimes es) := by
  obtain ⟨heq, hw, hlast⟩ := changeSchedule_eq_ok hchange
  rw [← heq] at hw hlast hactive
  have hr : Running s.releaseSchedule := ⟨hw, fun _ => hactive⟩
  constructor
  · exact inTime_of_completes hr hkeeps hsorted hclock hrun
  · intro hin pre suf u hes hlate hpre
    subst hes
    have hk := ((Runs.along_append _ _ _ _).mp hkeeps).1
    have hreleases := releases_run hk hpre
    have htimes : blockTimes (pre ++ suf) = blockTimes pre ++ blockTimes suf :=
      List.filterMap_append
    rw [htimes] at hsorted hclock hin
    have hw' := running_releases hr hreleases
    apply (wellFormed_ext hw'.wellFormed).mpr
    exact remaining_of_inTime hr hlast (List.pairwise_append.mp hsorted).1
      (fun b hb => hclock b (List.mem_append_left _ hb)) hlate
      (inTime_of_append hsorted hlate hin) hreleases

end Runs

namespace LateStart

/-- A schedule of 1000 akii that ends before the first block after it was accepted. -/
def schedule : ReleaseSchedule :=
  ⟨⟨"akii", HaltingRun.amount⟩, ⟨"akii", 0⟩, HaltingRun.start, 0, true⟩

def context : Context :=
  ⟨HaltingRun.start - 2000000000, HaltingRun.start - 1000000000, HaltingRun.start - 1000000000⟩

def funding : List Event := [.fundPool ⟨"alice", ⟨"akii", HaltingRun.amount⟩⟩]

def blocks : List Event :=
  [.beginBlock (HaltingRun.start + 5000000000), .beginBlock (HaltingRun.start + 10000000000)]

def outcome : Exec State := do
  let s₀ ← Runs.run (step HaltingRun.keeper) (defaultGenesis HaltingRun.bank) funding
  let s ← changeSchedule HaltingRun.keeper context s₀ ⟨"gov", schedule⟩
  Runs.run (step HaltingRun.keeper) s blocks

theorem blocks_complete :
    ∃ s₀ s t, Runs.run (step HaltingRun.keeper) (defaultGenesis HaltingRun.bank) funding = .ok s₀ ∧
      changeSchedule HaltingRun.keeper context s₀ ⟨"gov", schedule⟩ = .ok s ∧
      Runs.run (step HaltingRun.keeper) s blocks = .ok t ∧
      t.releaseSchedule.releasedAmount.amount.val = 1 ∧
      t.releaseSchedule.totalAmount.amount.val = 1000 := by
  have hvalue : outcome.toOption.map (fun t => (t.releaseSchedule.releasedAmount.amount.val,
      t.releaseSchedule.totalAmount.amount.val)) = some (1, 1000) := by decide +kernel
  obtain ⟨t, ht, hamounts⟩ := exists_of_toOption_map hvalue
  obtain ⟨hreleased, htotal⟩ := Prod.mk.inj hamounts
  obtain ⟨s₀, hfunding, hrest⟩ := bind_eq_ok.mp ht
  obtain ⟨s, hchange, hblocks⟩ := bind_eq_ok.mp hrest
  exact ⟨s₀, s, t, hfunding, hchange, hblocks, hreleased, htotal⟩

/-- Two blocks after the end, five seconds apart, release a single unit. -/
theorem one_unit_released :
    ∃ s₀ s t, Runs.run (step HaltingRun.keeper) (defaultGenesis HaltingRun.bank) funding = .ok s₀ ∧
      changeSchedule HaltingRun.keeper context s₀ ⟨"gov", schedule⟩ = .ok s ∧
      Runs.run (step HaltingRun.keeper) s blocks = .ok t ∧
      t.releaseSchedule.releasedAmount.amount.val = 1 ∧
      ¬ Completes HaltingRun.keeper s blocks := by
  obtain ⟨s₀, s, t, hfunding, hchange, hblocks, hreleased, htotal⟩ := blocks_complete
  refine ⟨s₀, s, t, hfunding, hchange, hblocks, hreleased, ?_⟩
  intro hcompletes
  have hend : s.releaseSchedule.endTime = HaltingRun.start := by
    rw [(changeSchedule_eq_ok hchange).1]
    rfl
  have hdone := hcompletes blocks [] t (by simp) (by rw [hend]; decide) hblocks
  rw [hdone, htotal] at hreleased
  norm_num at hreleased

theorem completes_iff_started :
    ∃ s₀ s, changeSchedule HaltingRun.keeper context s₀ ⟨"gov", schedule⟩ = .ok s ∧
      (Completes HaltingRun.keeper s blocks ↔
        InTime s.releaseSchedule (blockTimes blocks)) := by
  obtain ⟨s₀, s, t, _, hchange, hblocks, _⟩ := blocks_complete
  refine ⟨s₀, s, hchange, completes_iff_inTime hchange rfl ?_ ?_ ?_ hblocks⟩
  · exact ⟨trivial, fun _ _ => ⟨trivial, fun _ _ => trivial⟩⟩
  · decide
  · decide

end LateStart

end Kiichain.Rewards
