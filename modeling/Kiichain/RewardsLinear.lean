import Kiichain.RewardsCompletion
import Kiichain.RoundedShares

/-!
# The linear release

Blocks before the end of a schedule release nearly the linear share of what was left,
and nearly the same in more blocks, as long as the ratios of whole seconds that the
blocks compute stay within the share of one second of the ratios of the exact times.
-/

namespace Kiichain.Rewards
open GoExec FixedPoint RoundedShares

/-- The proportion of a block, by the distances of the last release and of the block
from the end. -/
def share (u u' : ℤ) : ℚ :=
  chop 1000000000000000000 ((GoTime.wholeSeconds (GoTime.sub u u') *
    (1000000000000000000 * 1000000000000000000)).tdiv (GoTime.wholeSeconds (GoTime.sub u 0))) /
      1000000000000000000

/-- How far the ratios of whole seconds of a sequence of blocks are from the exact ones,
each with half a unit in the last of 18 decimal digits. -/
def strayed (endTime : ℤ) : ℤ → List ℤ → ℚ
  | _, [] => 0
  | last, b :: bs =>
      |(GoTime.wholeSeconds (GoTime.sub b last) : ℚ) /
          GoTime.wholeSeconds (GoTime.sub endTime last) - (b - last) / (endTime - last)| +
        1 / (2 * 1000000000000000000) + strayed endTime b bs

/-- Each block finds the last release a second or more before the end. -/
def Unhurried (endTime : ℤ) : ℤ → List ℤ → Prop
  | _, [] => True
  | last, b :: bs => 1000000000 ≤ endTime - last ∧ Unhurried endTime b bs

section Share

variable {u u' : ℤ}

theorem sub_bounds (hu' : 0 < u') (hlt : u' < u) :
    0 ≤ GoTime.sub u u' ∧ GoTime.sub u u' ≤ GoTime.sub u 0 ∧ GoTime.sub u 0 ≤ 2 ^ 63 := by
  unfold GoTime.sub GoTime.maxDuration GoTime.minDuration
  omega

theorem seconds_bounds (hu' : 0 < u') (hlt : u' < u) :
    0 ≤ GoTime.wholeSeconds (GoTime.sub u u') ∧
      GoTime.wholeSeconds (GoTime.sub u u') ≤ GoTime.wholeSeconds (GoTime.sub u 0) := by
  obtain ⟨hnonneg, hle, hmax⟩ := sub_bounds hu' hlt
  have hwhole := (GoTime.wholeSeconds_of_nonneg hnonneg (hle.trans hmax)).1
  exact ⟨(Int.ediv_nonneg hnonneg (by norm_num)).trans hwhole,
    GoTime.wholeSeconds_mono hnonneg hle hmax⟩

/-- The elapsed seconds are at most the seconds to the end. -/
theorem share_le_one (hu' : 0 < u') (hlt : u' < u) : share u u' ≤ 1 := by
  obtain ⟨hnonneg, hle⟩ := seconds_bounds hu' hlt
  unfold share
  generalize GoTime.wholeSeconds (GoTime.sub u u') = e at *
  generalize GoTime.wholeSeconds (GoTime.sub u 0) = n at *
  have hquo : (e * (1000000000000000000 * 1000000000000000000)).tdiv n ≤
      1000000000000000000 * 1000000000000000000 := by
    obtain hn | rfl := (hnonneg.trans hle).lt_or_eq
    · rw [Int.tdiv_eq_ediv_of_nonneg (by positivity)]
      apply Int.ediv_le_of_le_mul hn
      rw [mul_comm]
      exact mul_le_mul_of_nonneg_left hle (by norm_num)
    · simp
  have hchop := chop_mono_of_nonneg (s := 1000000000000000000) (by norm_num)
    (Int.tdiv_nonneg (by positivity) (hnonneg.trans hle)) hquo
  have hone : chop 1000000000000000000 (1000000000000000000 * 1000000000000000000) =
      1000000000000000000 := chop_mul_self (by norm_num) 1000000000000000000
  rw [hone] at hchop
  rw [div_le_one (by norm_num)]
  exact_mod_cast hchop

theorem share_nonneg (hu' : 0 < u') (hlt : u' < u) : 0 ≤ share u u' := by
  obtain ⟨hnonneg, hle⟩ := seconds_bounds hu' hlt
  apply div_nonneg _ (by norm_num)
  exact_mod_cast chop_nonneg _ (Int.tdiv_nonneg (by positivity) (hnonneg.trans hle))

/-- The proportion is the ratio of whole seconds up to half a unit in its last digit. -/
theorem abs_share_sub_le (hu' : 0 < u') (hlt : u' < u) (hlong : 1000000000 ≤ u) :
    |share u u' - (GoTime.wholeSeconds (GoTime.sub u u') : ℚ) /
      GoTime.wholeSeconds (GoTime.sub u 0)| ≤ 1 / (2 * 1000000000000000000) := by
  obtain ⟨hnonneg, _⟩ := seconds_bounds hu' hlt
  obtain ⟨hsub, hle, hmax⟩ := sub_bounds hu' hlt
  have hlong' : 1000000000 ≤ GoTime.sub u 0 := by
    unfold GoTime.sub GoTime.maxDuration GoTime.minDuration
    omega
  have hpos : 0 < GoTime.wholeSeconds (GoTime.sub u 0) := by
    have := (GoTime.wholeSeconds_of_nonneg (hsub.trans hle) hmax).1
    omega
  have hsmall := (abs_le.mp (GoTime.abs_wholeSeconds_le (GoTime.abs_sub_le u 0))).2
  have hround := abs_chop_tdiv_le (s := 1000000000000000000) (by norm_num) hnonneg hpos
    (by push_cast; omega)
  simp only [Nat.cast_ofNat] at hround
  unfold share
  generalize GoTime.wholeSeconds (GoTime.sub u u') = e at *
  generalize GoTime.wholeSeconds (GoTime.sub u 0) = n at *
  generalize chop 1000000000000000000
    ((e * (1000000000000000000 * 1000000000000000000)).tdiv n) = c at *
  have hn : (0 : ℚ) < n := by exact_mod_cast hpos
  have hround' : |(2 * (n * c) - 2 * (e * 1000000000000000000) : ℚ)| ≤ n := by exact_mod_cast hround
  have hratio : (c / 1000000000000000000 - e / n : ℚ) =
      (2 * (n * c) - 2 * (e * 1000000000000000000)) / (n * (2 * 1000000000000000000)) := by
    field_simp
  rw [hratio, abs_div, abs_of_pos (a := (n * (2 * 1000000000000000000) : ℚ)) (by positivity)]
  rw [div_le_div_iff₀ (by positivity) (by norm_num)]
  linarith [mul_le_mul_of_nonneg_right hround' (by norm_num : (0 : ℚ) ≤ 2 * 1000000000000000000)]

end Share

theorem proportion_eq_share (sch : ReleaseSchedule) (blockTime : ℤ) :
    (sch.proportion blockTime : ℚ) = 1000000000000000000 *
      share (sch.endTime - sch.lastReleaseTime) (sch.endTime - blockTime) := by
  have helapsed : GoTime.sub (sch.endTime - sch.lastReleaseTime) (sch.endTime - blockTime) =
      GoTime.sub blockTime sch.lastReleaseTime := by
    rw [GoTime.sub, sub_sub_sub_cancel_left, GoTime.sub]
  have hperiod : GoTime.sub (sch.endTime - sch.lastReleaseTime) 0 =
      GoTime.sub sch.endTime sch.lastReleaseTime := by
    rw [GoTime.sub, sub_zero, GoTime.sub]
  rw [share, helapsed, hperiod, mul_div_cancel₀ _ (by norm_num)]
  rfl

theorem proportion_bounds {sch : ReleaseSchedule} {blockTime : ℤ}
    (hlast : sch.lastReleaseTime < blockTime) (hend : blockTime < sch.endTime) :
    0 ≤ sch.proportion blockTime ∧ sch.proportion blockTime ≤ 1000000000000000000 := by
  have hnonneg := share_nonneg (sub_pos.mpr hend) (sub_lt_sub_left hlast sch.endTime)
  have hone := share_le_one (sub_pos.mpr hend) (sub_lt_sub_left hlast sch.endTime)
  have heq := proportion_eq_share sch blockTime
  constructor
  · have hcast : (0 : ℚ) ≤ sch.proportion blockTime := by linarith
    exact_mod_cast hcast
  · have hcast : (sch.proportion blockTime : ℚ) ≤ 1000000000000000000 := by linarith
    exact_mod_cast hcast

/-- What a block pays is a rounded share of what is left. -/
theorem payment_eq (sch : ReleaseSchedule) {blockTime : ℤ}
    (hnonneg : 0 ≤ sch.remaining * sch.proportion blockTime) :
    min (max ((sch.remaining * sch.proportion blockTime).tdiv 1000000000000000000) 1)
      sch.remaining = payment (share (sch.endTime - sch.lastReleaseTime)
        (sch.endTime - blockTime)) sch.remaining := by
  have hfloor : (sch.remaining * share (sch.endTime - sch.lastReleaseTime)
      (sch.endTime - blockTime) : ℚ) =
        ((sch.remaining * sch.proportion blockTime : ℤ) : ℚ) / (1000000000000000000 : ℕ) := by
    push_cast
    rw [proportion_eq_share]
    ring
  rw [payment, hfloor, Rat.floor_intCast_div_natCast, Int.tdiv_eq_ediv_of_nonneg hnonneg]
  rfl

/-- Where a schedule stands at a time before its end: sound, with its terms unchanged,
and last released at that time if anything is left. -/
structure Standing (endTime : ℤ) (total : Coin) (last : ℤ) (s : State) : Prop where
  sound : Sound s
  endTime_eq : s.releaseSchedule.endTime = endTime
  total_eq : s.releaseSchedule.totalAmount = total
  running : s.releaseSchedule.remaining ≠ 0 →
    s.releaseSchedule.active = true ∧ s.releaseSchedule.lastReleaseTime = last

section Blocks

variable {k : Keeper} {endTime last b : ℤ} {total : Coin} {s : State}

theorem totalAmount_advances {sch sch' : ReleaseSchedule} {o : Option Coin}
    (h : sch.Advances b o sch') : sch'.totalAmount = sch.totalAmount := by
  cases h <;> rfl

theorem paced_of_early {sch : ReleaseSchedule} (hw : sch.WellFormed)
    (hlast : sch.lastReleaseTime < b) (hb : b < sch.endTime)
    (hlong : 1000000000 ≤ sch.endTime - sch.lastReleaseTime) : sch.Paced b := by
  obtain ⟨hnonneg, hle⟩ := proportion_bounds hlast hb
  have hremaining := remaining_nonneg hw
  have hfits : sch.remaining < 2 ^ 256 := by
    have htotal := sch.totalAmount.amount.fits
    have hreleased := hw.released_nonneg
    unfold ReleaseSchedule.remaining
    omega
  refine ⟨hlong.trans (le_abs_self _), ?_⟩
  rw [abs_of_nonneg (mul_nonneg hremaining hnonneg)]
  calc sch.remaining * sch.proportion b ≤ sch.remaining * 1000000000000000000 :=
        mul_le_mul_of_nonneg_left hle hremaining
    _ < 2 ^ 256 * 1000000000000000000 := mul_lt_mul_of_pos_right hfits (by norm_num)

/-- A block before the end returns and pays the rounded share of what is left. -/
theorem beginBlock_standing (hstanding : Standing endTime total last s) (hset : last ≠ 0)
    (hlast : last < b) (hb : b < endTime) (hlong : 1000000000 ≤ endTime - last) :
    ∃ t, step k s (.beginBlock b) = .ok t ∧ Standing endTime total b t ∧
      t.releaseSchedule.remaining = s.releaseSchedule.remaining -
        payment (share (endTime - last) (endTime - b)) s.releaseSchedule.remaining := by
  obtain ⟨hs, hend, htotal, hrunning⟩ := hstanding
  subst hend htotal
  have hw := hs.schedule
  have hr : Running s.releaseSchedule := ⟨hw, fun hne => (hrunning hne).1⟩
  have hreturns : Releasable b s := by
    intro _ _ _ hrem
    obtain ⟨_, rfl⟩ := hrunning hrem
    exact paced_of_early hw hlast hb hlong
  obtain ⟨t, ht⟩ := (returns_beginBlocker_iff (k := k) hs).mpr hreturns
  have hsound := sound_beginBlocker hs ht
  obtain ⟨sent, sch, u, hadvances, _, rfl⟩ := beginBlocker_advances ht
  refine ⟨_, ht, ⟨hsound, endTime_advances hadvances, totalAmount_advances hadvances, ?_⟩, ?_⟩
  · intro hrem
    have hne : s.releaseSchedule.remaining ≠ 0 :=
      fun hzero => hrem (remaining_advances_of_zero hr hzero hadvances)
    obtain ⟨_, rfl⟩ := hrunning hne
    obtain ⟨_, hlast', hactive, _, _⟩ := advances_of_remaining hr hne hset hadvances
    exact ⟨hactive, hlast'⟩
  · by_cases hne : s.releaseSchedule.remaining = 0
    · have hzero := remaining_advances_of_zero hr hne hadvances
      have hnothing := payment_bounds (share (s.releaseSchedule.endTime - last)
        (s.releaseSchedule.endTime - b)) (le_refl 0)
      dsimp only
      rw [hne, hzero]
      omega
    · obtain ⟨_, rfl⟩ := hrunning hne
      obtain ⟨_, _, _, _, hpaid⟩ := advances_of_remaining hr hne hset hadvances
      have hnonneg := (proportion_bounds hlast hb).1
      dsimp only
      rw [hpaid, payment_eq _ (mul_nonneg (remaining_nonneg hw) hnonneg)]

theorem run_standing {bs : List ℤ} (hstanding : Standing endTime total last s) (hset : 0 < last)
    (hsorted : (last :: bs).Pairwise (· < ·)) (hbefore : ∀ b ∈ bs, b < endTime)
    (hlong : Unhurried endTime last bs) :
    ∃ t, Runs.run (step k) s (bs.map .beginBlock) = .ok t ∧
      Standing endTime total (bs.getLastD last) t ∧ t.releaseSchedule.remaining =
        remainAfter share s.releaseSchedule.remaining (endTime - last)
          (bs.map (endTime - ·)) := by
  induction bs generalizing last s with
  | nil => exact ⟨s, rfl, hstanding, rfl⟩
  | cons b bs ih =>
      obtain ⟨hlast, hsorted'⟩ := List.pairwise_cons.mp hsorted
      obtain ⟨hb, hbefore'⟩ := List.forall_mem_cons.mp hbefore
      have hlt := hlast b List.mem_cons_self
      obtain ⟨u, hu, hstanding', hpaid⟩ :=
        beginBlock_standing (k := k) hstanding hset.ne' hlt hb hlong.1
      obtain ⟨t, ht, hend, hrest⟩ := ih hstanding' (hset.trans hlt) hsorted' hbefore' hlong.2
      refine ⟨t, Runs.run_cons_eq_ok.mpr ⟨u, hu, ht⟩, ?_, ?_⟩
      · rw [List.getLastD_cons]
        exact hend
      · rw [hrest, hpaid]
        rfl

theorem cuts_of_sorted {bs : List ℤ} (hsorted : (last :: bs).Pairwise (· < ·))
    (hlast : last < endTime) (hbefore : ∀ b ∈ bs, b < endTime) :
    Cuts (endTime - last) (bs.map (endTime - ·)) := by
  induction bs generalizing last with
  | nil => exact sub_pos.mpr hlast
  | cons b bs ih =>
      obtain ⟨hlt, hsorted'⟩ := List.pairwise_cons.mp hsorted
      obtain ⟨hb, hbefore'⟩ := List.forall_mem_cons.mp hbefore
      exact ⟨sub_lt_sub_left (hlt b List.mem_cons_self) endTime, ih hsorted' hb hbefore'⟩

theorem stray_le_strayed {bs : List ℤ} (hsorted : (last :: bs).Pairwise (· < ·))
    (hbefore : ∀ b ∈ bs, b < endTime) (hlong : Unhurried endTime last bs) :
    stray share (endTime - last) (bs.map (endTime - ·)) ≤ strayed endTime last bs := by
  induction bs generalizing last with
  | nil => exact le_rfl
  | cons b bs ih =>
      obtain ⟨hlt, hsorted'⟩ := List.pairwise_cons.mp hsorted
      obtain ⟨hb, hbefore'⟩ := List.forall_mem_cons.mp hbefore
      have hrec := ih hsorted' hbefore' hlong.2
      have hround := abs_share_sub_le (sub_pos.mpr hb)
        (sub_lt_sub_left (hlt b List.mem_cons_self) endTime) hlong.1
      have helapsed : GoTime.sub (endTime - last) (endTime - b) = GoTime.sub b last := by
        rw [GoTime.sub, sub_sub_sub_cancel_left, GoTime.sub]
      have hperiod : GoTime.sub (endTime - last) 0 = GoTime.sub endTime last := by
        rw [GoTime.sub, sub_zero, GoTime.sub]
      rw [helapsed, hperiod] at hround
      have hexact : (((endTime - last : ℤ) : ℚ) - ((endTime - b : ℤ) : ℚ)) = b - last := by
        push_cast
        ring
      rw [List.map_cons, stray, strayed, hexact, Int.cast_sub]
      have htriangle := abs_sub_le (share (endTime - last) (endTime - b))
        ((GoTime.wholeSeconds (GoTime.sub b last) : ℚ) /
          GoTime.wholeSeconds (GoTime.sub endTime last)) ((b - last) / (endTime - last))
      linarith

end Blocks

/-- What one state has released more than another. -/
def releasedBetween (s t : State) : ℚ :=
  t.releaseSchedule.releasedAmount.amount.val - s.releaseSchedule.releasedAmount.amount.val

/-- What a second of the time that is left to a schedule releases. -/
def secondsShare (sch : ReleaseSchedule) : ℚ :=
  sch.remaining * (1000000000 / (sch.endTime - sch.lastReleaseTime))

/-- The blocks return and release the linear share of what was left, up to a unit a block
and the share of one second. -/
def ReleasesLinearly (k : Keeper) (s : State) (bs : List ℤ) : Prop :=
  ∃ t, Runs.run (step k) s (bs.map .beginBlock) = .ok t ∧
    |releasedBetween s t - s.releaseSchedule.remaining *
        (bs.getLastD s.releaseSchedule.lastReleaseTime - s.releaseSchedule.lastReleaseTime) /
          (s.releaseSchedule.endTime - s.releaseSchedule.lastReleaseTime)| ≤
      bs.length + secondsShare s.releaseSchedule

/-- More blocks over the same time. -/
structure Refines (last : ℤ) (bs finer : List ℤ) : Prop where
  sorted : (last :: finer).Pairwise (· < ·)
  sublist : bs.Sublist finer
  same_end : bs.getLastD last = finer.getLastD last

/-- The blocks and more of them over the same time all return and release the same, up to
a unit a block and the share of one second. -/
def ReleasesAlike (k : Keeper) (s : State) (bs finer : List ℤ) : Prop :=
  ∃ t t', Runs.run (step k) s (bs.map .beginBlock) = .ok t ∧
    Runs.run (step k) s (finer.map .beginBlock) = .ok t' ∧
    |releasedBetween t t'| ≤ finer.length + secondsShare s.releaseSchedule

section Sequences

variable {k : Keeper} {s : State} {bs finer : List ℤ}

theorem standing_self (hs : Sound s) (hactive : s.releaseSchedule.active = true) :
    Standing s.releaseSchedule.endTime s.releaseSchedule.totalAmount
      s.releaseSchedule.lastReleaseTime s where
  sound := hs
  endTime_eq := rfl
  total_eq := rfl
  running _ := ⟨hactive, rfl⟩

theorem releasedBetween_eq {s t : State}
    (htotal : t.releaseSchedule.totalAmount = s.releaseSchedule.totalAmount) :
    releasedBetween s t = s.releaseSchedule.remaining - t.releaseSchedule.remaining := by
  unfold releasedBetween ReleaseSchedule.remaining
  rw [htotal]
  push_cast
  ring

theorem le_getLastD {last : ℤ} (hsorted : (last :: bs).Pairwise (· < ·)) :
    ∀ b ∈ last :: bs, b ≤ bs.getLastD last := by
  induction bs generalizing last with
  | nil => simp
  | cons b bs ih =>
      obtain ⟨hlt, hsorted'⟩ := List.pairwise_cons.mp hsorted
      rw [List.getLastD_cons]
      exact List.forall_mem_cons.mpr
        ⟨(hlt b List.mem_cons_self).le.trans (ih hsorted' b List.mem_cons_self), ih hsorted'⟩

theorem Refines.lt_end {last endTime : ℤ} (h : Refines last bs finer)
    (hbefore : ∀ b ∈ last :: bs, b < endTime) : ∀ b ∈ last :: finer, b < endTime := by
  intro b hb
  apply (le_getLastD h.sorted b hb).trans_lt
  rw [← h.same_end]
  exact hbefore _ List.getLastD_mem_cons

/-- A run whose strays come to at most the share of one second. -/
theorem releasesLinearly_of_strayed (hs : Sound s) (hactive : s.releaseSchedule.active = true)
    (hset : 0 < s.releaseSchedule.lastReleaseTime)
    (hlast : s.releaseSchedule.lastReleaseTime < s.releaseSchedule.endTime)
    (hsorted : (s.releaseSchedule.lastReleaseTime :: bs).Pairwise (· < ·))
    (hbefore : ∀ b ∈ bs, b < s.releaseSchedule.endTime)
    (hlong : Unhurried s.releaseSchedule.endTime s.releaseSchedule.lastReleaseTime bs)
    (hstray : strayed s.releaseSchedule.endTime s.releaseSchedule.lastReleaseTime bs ≤
      1000000000 / (s.releaseSchedule.endTime - s.releaseSchedule.lastReleaseTime)) :
    ReleasesLinearly k s bs := by
  obtain ⟨t, ht, hstanding, hrest⟩ :=
    run_standing (k := k) (standing_self hs hactive) hset hsorted hbefore hlong
  have hcuts := cuts_of_sorted hsorted hlast hbefore
  have hremaining := remaining_nonneg hs.schedule
  have hduration : (0 : ℚ) < s.releaseSchedule.endTime - s.releaseSchedule.lastReleaseTime := by
    exact_mod_cast sub_pos.mpr hlast
  have hline := abs_remainAfter_sub_part_le (fun _ _ => share_le_one) hcuts hremaining le_rfl
  have hstray' := (stray_le_strayed hsorted hbefore hlong).trans hstray
  have hend : (bs.map (s.releaseSchedule.endTime - ·)).getLastD
      (s.releaseSchedule.endTime - s.releaseSchedule.lastReleaseTime) =
        s.releaseSchedule.endTime - bs.getLastD s.releaseSchedule.lastReleaseTime :=
    List.getLastD_map
  have hscaled := mul_le_mul_of_nonneg_left hstray'
    (by exact_mod_cast hremaining : (0 : ℚ) ≤ s.releaseSchedule.remaining)
  refine ⟨t, ht, ?_⟩
  rw [hend, List.length_map, ← hrest] at hline
  push_cast at hline
  have heq : releasedBetween s t - s.releaseSchedule.remaining *
      (bs.getLastD s.releaseSchedule.lastReleaseTime - s.releaseSchedule.lastReleaseTime) /
        (s.releaseSchedule.endTime - s.releaseSchedule.lastReleaseTime) =
      -(t.releaseSchedule.remaining - s.releaseSchedule.remaining *
        ((s.releaseSchedule.endTime - bs.getLastD s.releaseSchedule.lastReleaseTime) /
          (s.releaseSchedule.endTime - s.releaseSchedule.lastReleaseTime))) := by
    rw [releasedBetween_eq hstanding.total_eq]
    field_simp
    ring
  rw [heq, abs_neg]
  exact hline.trans (add_le_add_right hscaled _)

theorem releasesAlike_of_strayed (hs : Sound s) (hactive : s.releaseSchedule.active = true)
    (hset : 0 < s.releaseSchedule.lastReleaseTime)
    (hsorted : (s.releaseSchedule.lastReleaseTime :: bs).Pairwise (· < ·))
    (hbefore : ∀ b ∈ s.releaseSchedule.lastReleaseTime :: bs, b < s.releaseSchedule.endTime)
    (hlong : Unhurried s.releaseSchedule.endTime s.releaseSchedule.lastReleaseTime bs)
    (hfiner : Refines s.releaseSchedule.lastReleaseTime bs finer)
    (hlong' : Unhurried s.releaseSchedule.endTime s.releaseSchedule.lastReleaseTime finer)
    (hstray : strayed s.releaseSchedule.endTime s.releaseSchedule.lastReleaseTime bs +
        strayed s.releaseSchedule.endTime s.releaseSchedule.lastReleaseTime finer ≤
      1000000000 / (s.releaseSchedule.endTime - s.releaseSchedule.lastReleaseTime)) :
    ReleasesAlike k s bs finer := by
  have hbefore' := hfiner.lt_end hbefore
  obtain ⟨hlast, hbs⟩ := List.forall_mem_cons.mp hbefore
  obtain ⟨_, hfs⟩ := List.forall_mem_cons.mp hbefore'
  obtain ⟨t, ht, hstanding, hrest⟩ :=
    run_standing (k := k) (standing_self hs hactive) hset hsorted hbs hlong
  obtain ⟨t', ht', hstanding', hrest'⟩ :=
    run_standing (k := k) (standing_self hs hactive) hset hfiner.sorted hfs hlong'
  have hremaining := remaining_nonneg hs.schedule
  have hend : (bs.map (s.releaseSchedule.endTime - ·)).getLastD
      (s.releaseSchedule.endTime - s.releaseSchedule.lastReleaseTime) =
        (finer.map (s.releaseSchedule.endTime - ·)).getLastD
          (s.releaseSchedule.endTime - s.releaseSchedule.lastReleaseTime) := by
    rw [List.getLastD_map (f := (s.releaseSchedule.endTime - ·)),
      List.getLastD_map (f := (s.releaseSchedule.endTime - ·)), hfiner.same_end]
  have hnear := abs_remainAfter_sub_refined_le
    (fun _ _ => share_le_one) (cuts_of_sorted hfiner.sorted hlast hfs)
    (hfiner.sublist.map _) hend hremaining le_rfl hremaining le_rfl
  have hscaled := mul_le_mul_of_nonneg_left ((add_le_add (stray_le_strayed hsorted hbs hlong)
    (stray_le_strayed hfiner.sorted hfs hlong')).trans hstray)
    (by exact_mod_cast hremaining : (0 : ℚ) ≤ s.releaseSchedule.remaining)
  rw [sub_self, abs_zero, zero_add, List.length_map, ← hrest, ← hrest'] at hnear
  have heq : releasedBetween t t' = t.releaseSchedule.remaining - t'.releaseSchedule.remaining :=
    releasedBetween_eq (hstanding'.total_eq.trans hstanding.total_eq.symm)
  refine ⟨t, t', ht, ht', ?_⟩
  rw [heq]
  exact hnear.trans (add_le_add_right hscaled _)

theorem wholeSeconds_sub {t u : ℤ} (hle : u ≤ t) (hfits : t - u < 2 ^ 63)
    (hwhole : 1000000000 ∣ t - u) :
    GoTime.wholeSeconds (GoTime.sub t u) * 1000000000 = t - u := by
  obtain ⟨n, hn⟩ := hwhole
  have hsub : GoTime.sub t u = n * 1000000000 := by
    unfold GoTime.sub GoTime.maxDuration GoTime.minDuration
    omega
  rw [hsub, GoTime.wholeSeconds_seconds (by omega) (by omega)]
  omega

/-- Blocks whole seconds apart, and from the end, stray only by the rounding to 18 digits. -/
theorem strayed_of_seconds {endTime last : ℤ} (hsorted : (last :: bs).Pairwise (· < ·))
    (hbefore : ∀ b ∈ last :: bs, b < endTime) (hfits : endTime - last < 2 ^ 63)
    (hend : 1000000000 ∣ endTime - last) (hwhole : ∀ b ∈ bs, 1000000000 ∣ b - last) :
    strayed endTime last bs = bs.length * (1 / (2 * 1000000000000000000)) := by
  induction bs generalizing last with
  | nil => simp [strayed]
  | cons b bs ih =>
      obtain ⟨hlt, hsorted'⟩ := List.pairwise_cons.mp hsorted
      obtain ⟨hlast, hbefore'⟩ := List.forall_mem_cons.mp hbefore
      obtain ⟨hb, hwhole'⟩ := List.forall_mem_cons.mp hwhole
      have hlt' := hlt b List.mem_cons_self
      have hb' := hbefore' b List.mem_cons_self
      have hrec := ih hsorted' hbefore' (by omega) (by omega)
        (fun b' hb' => by have := hwhole' b' hb'; omega)
      have helapsed := wholeSeconds_sub hlt'.le (by omega) hb
      have hperiod := wholeSeconds_sub hlast.le hfits hend
      have hratio : (GoTime.wholeSeconds (GoTime.sub b last) : ℚ) /
          GoTime.wholeSeconds (GoTime.sub endTime last) = (b - last) / (endTime - last) := by
        rw [← Int.cast_sub, ← Int.cast_sub, ← helapsed, ← hperiod]
        push_cast
        rw [mul_div_mul_right _ _ (by norm_num)]
      rw [strayed, hratio, sub_self, abs_zero, hrec, List.length_cons]
      push_cast
      ring

end Sequences

namespace HalfSeconds

/-- A schedule of 1000 akii over ten seconds, funded and accepted at its start. -/
def accepted : List Event :=
  [.fundPool ⟨"alice", ⟨"akii", HaltingRun.amount⟩⟩,
    .changeSchedule ⟨HaltingRun.start, HaltingRun.start, HaltingRun.start⟩
      ⟨"gov", ⟨⟨"akii", HaltingRun.amount⟩, ⟨"akii", 0⟩, HaltingRun.start + 10000000000,
        HaltingRun.start, true⟩⟩]

def blocks : List ℤ :=
  [HaltingRun.start + 500000000, HaltingRun.start + 1000000000, HaltingRun.start + 1500000000]

def wholeSeconds : List ℤ :=
  [HaltingRun.start + 2000000000, HaltingRun.start + 5000000000]

def finer : List ℤ :=
  [HaltingRun.start + 1000000000, HaltingRun.start + 2000000000, HaltingRun.start + 5000000000]

theorem accepted_runs : ∃ s, Runs.run (step HaltingRun.keeper) (defaultGenesis HaltingRun.bank)
    accepted = .ok s ∧ s.releaseSchedule = ⟨⟨"akii", HaltingRun.amount⟩, ⟨"akii", 0⟩,
      HaltingRun.start + 10000000000, HaltingRun.start, true⟩ := ⟨_, rfl, rfl⟩

theorem sound_accepted {s : State}
    (h : Runs.run (step HaltingRun.keeper) (defaultGenesis HaltingRun.bank) accepted = .ok s) :
    Sound s :=
  Runs.run_invariant sound_step (sound_defaultGenesis HaltingRun.bank) h

theorem blocks_release_three : ∃ s t,
    Runs.run (step HaltingRun.keeper) (defaultGenesis HaltingRun.bank) accepted = .ok s ∧
      Runs.run (step HaltingRun.keeper) s (blocks.map .beginBlock) = .ok t ∧
      t.releaseSchedule.releasedAmount.amount.val = 3 := by
  have hvalue : (Runs.run (step HaltingRun.keeper) (defaultGenesis HaltingRun.bank)
      (accepted ++ blocks.map .beginBlock)).toOption.map
        (·.releaseSchedule.releasedAmount.amount.val) = some 3 := by decide +kernel
  obtain ⟨t, ht, hreleased⟩ := exists_of_toOption_map hvalue
  obtain ⟨s, hs, hblocks⟩ := Runs.run_append_eq_ok.mp ht
  exact ⟨s, t, hs, hblocks, hreleased⟩

end HalfSeconds

end Kiichain.Rewards
