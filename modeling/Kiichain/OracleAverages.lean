import Kiichain.OracleSnapshots
import Kiichain.StepSums

/-!
# What the averages mean

The walk over the snapshots computes time-weighted averages: for each target in the
window, the sum over the seconds of the window of the rate that was then in force,
divided by the number of seconds.
-/

namespace Kiichain.Oracle
open GoExec FixedPoint Finset

def newestFirst (s : State) : List PriceSnapshot := (s.priceSnapshot.entries.map Prod.snd).reverse

/-- The snapshots from a start on, with the newest of the older ones. -/
def windowFrom (start : ℤ) (snapshots : List PriceSnapshot) : List PriceSnapshot :=
  snapshots.filter (start ≤ ·.snapshotTimestamp) ++
    (snapshots.filter (·.snapshotTimestamp < start)).take 1

def rateIn (denom : String) (snapshot : PriceSnapshot) : Option ℤ :=
  (snapshot.priceSnapshotItems.find? (·.denom = denom)).map (·.oracleExchangeRate.exchangeRate.raw)

/-- The rate in the newest snapshot of a window at or before a time that contains the
denomination. -/
def rateAt (denom : String) (window : List PriceSnapshot) (time : ℤ) : Option ℤ :=
  window.findSome? (fun x => if x.snapshotTimestamp ≤ time then rateIn denom x else none)

/-- An average over the last seconds before `now` that a window covers for a
denomination: the rates in force are summed second by second. -/
structure TimeWeighted (now lookBack : ℤ) (window : List PriceSnapshot) (e : OracleTwap) : Prop where
  oldest : ∃ x ∈ window, (rateIn e.denom x).isSome ∧
    (∀ y ∈ window, (rateIn e.denom y).isSome → x.snapshotTimestamp ≤ y.snapshotTimestamp) ∧
    e.lookbackSeconds = min lookBack (now - x.snapshotTimestamp)
  average : 0 < e.lookbackSeconds → ∃ rate : ℤ → ℤ,
    (∀ t ∈ Ico (now - e.lookbackSeconds) now, rateAt e.denom window t = some (rate t)) ∧
    e.twap.raw = (∑ t ∈ Ico (now - e.lookbackSeconds) now, rate t).tdiv e.lookbackSeconds ∧
    (∃ t ∈ Ico (now - e.lookbackSeconds) now, rate t ≤ e.twap.raw) ∧
    ∃ t ∈ Ico (now - e.lookbackSeconds) now, e.twap.raw ≤ rate t

/-- One average for each target that occurs in the window, in the order of their names. -/
structure AveragesOf (s : State) (now lookBack : ℤ) (twaps : List OracleTwap) : Prop where
  sorted : (twaps.map OracleTwap.denom).Pairwise (· < ·)
  entries : ∀ d, d ∈ twaps.map OracleTwap.denom ↔ (s.voteTarget.get? d).isSome ∧
    ∃ x ∈ windowFrom (now - lookBack) (newestFirst s), (rateIn d x).isSome
  average : ∀ e ∈ twaps, TimeWeighted now lookBack (windowFrom (now - lookBack) (newestFirst s)) e

section Window

variable {now lookBack start : ℤ} {x : PriceSnapshot} {l : List PriceSnapshot}

theorem windowFrom_cons_of_le (h : start ≤ x.snapshotTimestamp) :
    windowFrom start (x :: l) = x :: windowFrom start l := by
  unfold windowFrom
  rw [List.filter_cons_of_pos (by simpa using h), List.filter_cons_of_neg (by simpa using h)]
  rfl

/-- All snapshots behind an older one are older still. -/
theorem windowFrom_cons_of_lt (h : x.snapshotTimestamp < start)
    (hsorted : ∀ y ∈ l, y.snapshotTimestamp ≤ x.snapshotTimestamp) :
    windowFrom start (x :: l) = [x] := by
  have hnone : l.filter (start ≤ ·.snapshotTimestamp) = [] := by
    apply List.filter_eq_nil_iff.mpr
    intro y hy
    have hle := hsorted y hy
    simp only [decide_eq_true_eq]
    omega
  unfold windowFrom
  rw [List.filter_cons_of_neg (by simpa using h), List.filter_cons_of_pos (by simpa using h), hnone]
  rfl

/-- The seconds a snapshot counts for: its age, or the whole window. -/
def ageIn (now lookBack : ℤ) (x : PriceSnapshot) : ℤ := min lookBack (now - x.snapshotTimestamp)

theorem examined_eq (hlo : 0 ≤ lookBack) (hhi : lookBack < 2 ^ 63)
    (hstart : GoTime.int64 (now - lookBack) = now - lookBack)
    (hpast : ∀ x ∈ l, x.snapshotTimestamp ≤ now)
    (hsorted : l.Pairwise (fun x y => y.snapshotTimestamp ≤ x.snapshotTimestamp)) :
    examined now lookBack l = (windowFrom (now - lookBack) l).flatMap
      (fun x => x.priceSnapshotItems.map (fun item => (ageIn now lookBack x, item))) := by
  induction l with
  | nil => rfl
  | cons x l ih =>
      obtain ⟨holder, hrest⟩ := List.pairwise_cons.mp hsorted
      obtain ⟨hx, hpast'⟩ := List.forall_mem_cons.mp hpast
      unfold examined
      dsimp only
      rw [hstart]
      by_cases hstop : now - lookBack > x.snapshotTimestamp
      · have hage : GoTime.int64 (now - (now - lookBack)) = ageIn now lookBack x := by
          rw [GoTime.int64_of_bounds (by omega) (by omega), ageIn]
          omega
        rw [if_pos hstop, windowFrom_cons_of_lt hstop holder, hage, List.flatMap_singleton]
      · have hage : GoTime.int64 (now - x.snapshotTimestamp) = ageIn now lookBack x := by
          rw [GoTime.int64_of_bounds (by omega) (by omega), ageIn]
          omega
        rw [if_neg hstop, windowFrom_cons_of_le (not_lt.mp hstop), hage, ih hpast' hrest,
          List.flatMap_cons]

/-- The samples of a window, of which one snapshot may hold several. -/
def samplesFrom (now lookBack : ℤ) (denom : String) (window : List PriceSnapshot) : List (ℤ × ℤ) :=
  window.flatMap (fun x => (x.priceSnapshotItems.filter (·.denom = denom)).map
    (fun item => (ageIn now lookBack x, item.oracleExchangeRate.exchangeRate.raw)))

theorem samplesOf_eq (denom : String) (window : List PriceSnapshot) :
    samplesOf denom (window.flatMap
      (fun x => x.priceSnapshotItems.map (fun item => (ageIn now lookBack x, item)))) =
        samplesFrom now lookBack denom window := by
  unfold samplesOf samplesFrom
  rw [List.filter_flatMap, List.map_flatMap]
  congr 1
  funext x
  rw [List.filter_map, List.map_map]
  rfl

/-- Both find the first item of the first snapshot that is old enough. -/
theorem valueAt_samplesFrom (denom : String) (window : List PriceSnapshot) {age : ℤ}
    (hage : age ≤ lookBack) :
    StepSums.valueAt (samplesFrom now lookBack denom window) age =
      rateAt denom window (now - age) := by
  unfold StepSums.valueAt samplesFrom rateAt
  rw [List.find?_flatMap, List.map_findSome?]
  congr 1
  funext x
  have hold : age ≤ ageIn now lookBack x ↔ x.snapshotTimestamp ≤ now - age := by
    unfold ageIn
    omega
  by_cases h : x.snapshotTimestamp ≤ now - age
  · simp [rateIn, hold.mpr h, h, List.find?_map]
    rfl
  · simp [hold, h]

theorem windowFrom_subset (start : ℤ) : windowFrom start l ⊆ l := by
  intro x hx
  obtain hx | hx := List.mem_append.mp hx
  · exact (List.mem_filter.mp hx).1
  · exact (List.mem_filter.mp (List.mem_of_mem_take hx)).1

/-- A window is in the order of its snapshots. -/
theorem windowFrom_sorted (start : ℤ)
    (hsorted : l.Pairwise (fun x y => y.snapshotTimestamp ≤ x.snapshotTimestamp)) :
    (windowFrom start l).Pairwise (fun x y => y.snapshotTimestamp ≤ x.snapshotTimestamp) := by
  refine List.pairwise_append.mpr ⟨hsorted.filter _, (hsorted.filter _).take, ?_⟩
  intro x hx y hy
  have hle := (List.mem_filter.mp hx).2
  have hlt := (List.mem_filter.mp (List.mem_of_mem_take hy)).2
  simp only [decide_eq_true_eq] at hle hlt
  omega

theorem mem_samplesFrom {denom : String} {window : List PriceSnapshot} {e : ℤ × ℤ}
    (he : e ∈ samplesFrom now lookBack denom window) :
    ∃ x ∈ window, (rateIn denom x).isSome ∧ e.1 = ageIn now lookBack x := by
  obtain ⟨x, hx, hmem⟩ := List.mem_flatMap.mp he
  obtain ⟨item, hitem, rfl⟩ := List.mem_map.mp hmem
  obtain ⟨hitem, hdenom⟩ := List.mem_filter.mp hitem
  refine ⟨x, hx, ?_, rfl⟩
  rw [rateIn, Option.isSome_map, List.find?_isSome]
  exact ⟨item, hitem, hdenom⟩

theorem exists_sample (now lookBack : ℤ) {denom : String} {window : List PriceSnapshot} (hx : x ∈ window)
    (h : (rateIn denom x).isSome) :
    ∃ e ∈ samplesFrom now lookBack denom window, e.1 = ageIn now lookBack x := by
  rw [rateIn, Option.isSome_map, List.find?_isSome] at h
  obtain ⟨item, hitem, hdenom⟩ := h
  refine ⟨_, List.mem_flatMap.mpr ⟨x, hx, List.mem_map.mpr ⟨item, ?_, rfl⟩⟩, rfl⟩
  exact List.mem_filter.mpr ⟨hitem, hdenom⟩

theorem ageIn_bounds (hlo : 0 ≤ lookBack) (hx : x.snapshotTimestamp ≤ now) :
    0 ≤ ageIn now lookBack x ∧ ageIn now lookBack x ≤ lookBack := by
  unfold ageIn
  omega

theorem ages_samplesFrom (denom : String) {window : List PriceSnapshot} (hlo : 0 ≤ lookBack)
    (hpast : ∀ x ∈ window, x.snapshotTimestamp ≤ now)
    (hsorted : window.Pairwise (fun x y => y.snapshotTimestamp ≤ x.snapshotTimestamp)) :
    StepSums.Ages 0 (samplesFrom now lookBack denom window) := by
  apply List.pairwise_cons.mpr
  constructor
  · intro age hage
    obtain ⟨e, he, rfl⟩ := List.mem_map.mp hage
    obtain ⟨x, hx, _, heq⟩ := mem_samplesFrom he
    rw [heq]
    exact (ageIn_bounds hlo (hpast x hx)).1
  · apply List.pairwise_map.mpr
    apply List.pairwise_flatMap.mpr
    constructor
    · intro x _
      exact List.pairwise_map.mpr (List.pairwise_of_forall (fun _ _ => le_rfl))
    · apply hsorted.imp
      intro x y hle e he f hf
      obtain ⟨_, _, rfl⟩ := List.mem_map.mp he
      obtain ⟨_, _, rfl⟩ := List.mem_map.mp hf
      simp only [ageIn]
      omega

end Window

/-- On ages that do not decrease the differences of the walk do not wrap. -/
theorem foldl_weigh_eq {samples : List (ℤ × ℤ)} {acc : ℤ × ℤ} (h : StepSums.Ages acc.2 samples)
    (hlo : 0 ≤ acc.2) (hhi : ∀ e ∈ samples, e.1 < 2 ^ 63) :
    samples.foldl weigh acc =
      (acc.1 + StepSums.weighedFrom acc.2 samples, StepSums.reach acc.2 samples) := by
  induction samples generalizing acc with
  | nil => simp [StepSums.weighedFrom, StepSums.reach]
  | cons e samples ih =>
      obtain ⟨hle, hages⟩ := StepSums.ages_cons.mp h
      obtain ⟨he, hhi'⟩ := List.forall_mem_cons.mp hhi
      have hdiff : GoTime.int64 (e.1 - acc.2) = e.1 - acc.2 :=
        GoTime.int64_of_bounds (by omega) (by omega)
      rw [List.foldl_cons, ih hages (hlo.trans hle) hhi', StepSums.reach_cons,
        StepSums.weighedFrom, weigh, hdiff, smul_eq_mul, mul_comm e.2, add_assoc]

section Average

variable {now lookBack : ℤ} {denom : String} {window : List PriceSnapshot}

/-- The walk reaches as far back as the oldest snapshot that contains the denomination. -/
theorem exists_oldest (hne : samplesFrom now lookBack denom window ≠ [])
    (hages : StepSums.Ages 0 (samplesFrom now lookBack denom window)) :
    ∃ x ∈ window, (rateIn denom x).isSome ∧
      (∀ y ∈ window, (rateIn denom y).isSome → x.snapshotTimestamp ≤ y.snapshotTimestamp) ∧
      StepSums.reach 0 (samplesFrom now lookBack denom window) = ageIn now lookBack x := by
  obtain ⟨e, he, hreach⟩ := StepSums.exists_reach 0 hne
  obtain ⟨z, hz, hzd, hze⟩ := mem_samplesFrom he
  obtain ⟨x, hx, hmin⟩ := exists_min_image
    (window.filter (fun x => (rateIn denom x).isSome)).toFinset PriceSnapshot.snapshotTimestamp
    ⟨z, List.mem_toFinset.mpr (List.mem_filter.mpr ⟨hz, hzd⟩)⟩
  obtain ⟨hxw, hxd⟩ := List.mem_filter.mp (List.mem_toFinset.mp hx)
  have holdest : ∀ y ∈ window, (rateIn denom y).isSome →
      x.snapshotTimestamp ≤ y.snapshotTimestamp := fun y hy hyd =>
    hmin y (List.mem_toFinset.mpr (List.mem_filter.mpr ⟨hy, hyd⟩))
  refine ⟨x, hxw, hxd, holdest, le_antisymm ?_ ?_⟩
  · have hle := holdest z hz hzd
    rw [← hreach, hze]
    unfold ageIn
    omega
  · obtain ⟨f, hf, hfe⟩ := exists_sample now lookBack hxw hxd
    rw [← hfe]
    exact hages.le_reach.2 f hf

theorem rateAt_eq_valueAt {duration : ℤ} (hle : duration ≤ lookBack) {t : ℤ}
    (ht : t ∈ Ico (now - duration) now) : rateAt denom window t =
      StepSums.valueAt (samplesFrom now lookBack denom window) (now - t) := by
  have hlow := (mem_Ico.mp ht).1
  rw [valueAt_samplesFrom denom window (by omega), sub_sub_cancel]

/-- The sum over the seconds is the sum over the ages. -/
theorem sum_rateAt {duration : ℤ} (hle : duration ≤ lookBack)
    (hages : StepSums.Ages 0 (samplesFrom now lookBack denom window))
    (hduration : duration = StepSums.reach 0 (samplesFrom now lookBack denom window)) :
    ∑ t ∈ Ico (now - duration) now, (rateAt denom window t).getD 0 =
      StepSums.weighedFrom 0 (samplesFrom now lookBack denom window) := by
  rw [← StepSums.sum_valueAt hages, ← hduration]
  apply sum_nbij' (now - ·) (now - ·)
  · intro t ht
    rw [mem_Ico] at ht
    exact mem_Ioc.mpr (by omega)
  · intro age hage
    rw [mem_Ioc] at hage
    exact mem_Ico.mpr (by omega)
  · intro t _
    exact sub_sub_cancel now t
  · intro age _
    exact sub_sub_cancel now age
  · intro t ht
    rw [rateAt_eq_valueAt hle ht]

theorem timeWeighted_of_samples (hlo : 0 ≤ lookBack)
    (hpast : ∀ x ∈ window, x.snapshotTimestamp ≤ now)
    (hsorted : window.Pairwise (fun x y => y.snapshotTimestamp ≤ x.snapshotTimestamp))
    (hne : samplesFrom now lookBack denom window ≠ []) {duration : ℤ}
    (hduration : duration = StepSums.reach 0 (samplesFrom now lookBack denom window)) :
    TimeWeighted now lookBack window ⟨denom, denomTwap
      ⟨StepSums.weighedFrom 0 (samplesFrom now lookBack denom window)⟩ duration, duration⟩ := by
  have hages := ages_samplesFrom denom hlo hpast hsorted
  obtain ⟨x, hx, hxd, holdest, hreach⟩ := exists_oldest hne hages
  refine ⟨⟨x, hx, hxd, holdest, hduration.trans hreach⟩, fun hpos => ?_⟩
  dsimp only at hpos ⊢
  have hle : duration ≤ lookBack := by
    rw [hduration, hreach]
    exact (ageIn_bounds hlo (hpast x hx)).2
  have hcard : ((Ico (now - duration) now).card : ℤ) = duration := by
    rw [Int.card_Ico_of_le _ _ (by omega), sub_sub_cancel]
  have hraw : (denomTwap ⟨StepSums.weighedFrom 0 (samplesFrom now lookBack denom window)⟩
      duration).raw =
        (∑ t ∈ Ico (now - duration) now, (rateAt denom window t).getD 0).tdiv duration := by
    rw [denomTwap, if_pos hpos.ne', sum_rateAt hle hages hduration]
  have hbetween := StepSums.exists_le_average (fun t => (rateAt denom window t).getD 0)
    (nonempty_Ico.mpr (by omega : now - duration < now))
  rw [hcard, ← hraw] at hbetween
  refine ⟨fun t => (rateAt denom window t).getD 0, ?_, hraw, hbetween⟩
  intro t ht
  have hsome := StepSums.isSome_valueAt 0 hne
    (show now - t ≤ _ by
      have hlow := (mem_Ico.mp ht).1
      omega)
  rw [← rateAt_eq_valueAt hle ht] at hsome
  obtain ⟨rate, heq⟩ := Option.isSome_iff_exists.mp hsome
  dsimp only
  rw [heq, Option.getD_some]

end Average

section Twaps

variable {blk : Block} {s : State} {lookBackSeconds : ℕ}

/-- The stored snapshots lie under their own timestamps, none after the block. -/
def KeptBefore (s : State) (now : ℤ) : Prop :=
  ∀ t x, s.priceSnapshot.get? t = some x → x.snapshotTimestamp = t ∧ t ≤ now

theorem KeptBefore.sorted {now : ℤ} (h : KeptBefore s now) :
    (newestFirst s).Pairwise (fun x y => y.snapshotTimestamp ≤ x.snapshotTimestamp) :=
  snapshots_sorted (fun t x hx => (h t x hx).1)

theorem KeptBefore.past {now : ℤ} (h : KeptBefore s now) :
    ∀ x ∈ newestFirst s, x.snapshotTimestamp ≤ now := by
  intro x hx
  obtain ⟨t, ht⟩ := mem_snapshots.mp hx
  obtain ⟨heq, hle⟩ := h t x ht
  exact heq.le.trans hle

/-- The samples of a window that does not wrap. -/
theorem samplesIn_eq (hkept : KeptBefore s (GoTime.unix blk.time))
    (hvalid : LookBackValid s lookBackSeconds) (hlook : (lookBackSeconds : ℤ) < 2 ^ 63)
    (hnow : GoTime.unix blk.time < 2 ^ 63)
    (hstart : -2 ^ 63 ≤ GoTime.unix blk.time - lookBackSeconds) {d : String}
    (hd : (s.voteTarget.get? d).isSome) :
    samplesIn blk s lookBackSeconds d = samplesFrom (GoTime.unix blk.time) lookBackSeconds d
      (windowFrom (GoTime.unix blk.time - lookBackSeconds) (newestFirst s)) := by
  have hnonneg : (0 : ℤ) ≤ lookBackSeconds := Int.natCast_nonneg lookBackSeconds
  have hsame : GoTime.int64 lookBackSeconds = lookBackSeconds :=
    GoTime.int64_of_bounds (by omega) hlook
  have hwindow : GoTime.int64 (GoTime.unix blk.time - lookBackSeconds) =
      GoTime.unix blk.time - lookBackSeconds := GoTime.int64_of_bounds hstart (by omega)
  have hexamined := examined_eq hnonneg hlook hwindow hkept.past hkept.sorted
  rw [samplesIn_of_valid hvalid hd, itemsIn, hsame, ← samplesOf_eq, ← hexamined]
  rfl

theorem samplesFrom_ne_nil_iff {now lookBack : ℤ} {d : String} {window : List PriceSnapshot} :
    samplesFrom now lookBack d window ≠ [] ↔ ∃ x ∈ window, (rateIn d x).isSome := by
  constructor
  · intro hne
    obtain ⟨e, he⟩ := List.exists_mem_of_ne_nil _ hne
    obtain ⟨x, hx, hxd, _⟩ := mem_samplesFrom he
    exact ⟨x, hx, hxd⟩
  · rintro ⟨x, hx, hxd⟩
    obtain ⟨e, he, _⟩ := exists_sample now lookBack hx hxd
    exact List.ne_nil_of_mem he

theorem timeWeighted_twapIn (hkept : KeptBefore s (GoTime.unix blk.time))
    (hvalid : LookBackValid s lookBackSeconds) (hlook : (lookBackSeconds : ℤ) < 2 ^ 63)
    (hnow : GoTime.unix blk.time < 2 ^ 63)
    (hstart : -2 ^ 63 ≤ GoTime.unix blk.time - lookBackSeconds) {d : String}
    (hd : (s.voteTarget.get? d).isSome) (hne : samplesIn blk s lookBackSeconds d ≠ []) :
    TimeWeighted (GoTime.unix blk.time) lookBackSeconds
      (windowFrom (GoTime.unix blk.time - lookBackSeconds) (newestFirst s))
      (twapIn blk s lookBackSeconds d) := by
  have hsamples := samplesIn_eq hkept hvalid hlook hnow hstart hd
  have hnonneg : (0 : ℤ) ≤ lookBackSeconds := Int.natCast_nonneg lookBackSeconds
  have hpast : ∀ x ∈ windowFrom (GoTime.unix blk.time - lookBackSeconds) (newestFirst s),
      x.snapshotTimestamp ≤ GoTime.unix blk.time := fun x hx =>
    hkept.past x (windowFrom_subset _ hx)
  have hsorted := windowFrom_sorted (GoTime.unix blk.time - lookBackSeconds) hkept.sorted
  have hages := ages_samplesFrom d hnonneg hpast hsorted
  have hfold : weighed blk s lookBackSeconds d =
      (StepSums.weighedFrom 0 (samplesIn blk s lookBackSeconds d),
        StepSums.reach 0 (samplesIn blk s lookBackSeconds d)) := by
    rw [← hsamples] at hages
    rw [weighed, foldl_weigh_eq hages le_rfl, zero_add]
    intro e he
    rw [hsamples] at he
    obtain ⟨x, hx, _, heq⟩ := mem_samplesFrom he
    rw [heq]
    exact (ageIn_bounds hnonneg (hpast x hx)).2.trans_lt hlook
  rw [twapIn, hfold, hsamples]
  rw [hsamples] at hne
  exact timeWeighted_of_samples hnonneg hpast hsorted hne rfl

theorem averages_eq (acc : Weighed) : averages acc =
    if acc.twapByDenom.keys.map (twapOf acc) = [] then
      .error (.error "No data for the twap calculation")
    else .ok (acc.twapByDenom.keys.map (twapOf acc)) := by
  rw [averages, sortStrings_keys]
  split_ifs with hnil
  · rw [ensure_of_not (not_not.mpr hnil)]
    rfl
  · rw [ensure_of hnil]
    rfl

/-- For snapshots kept under timestamps up to the block time and a lookback that is
accepted and fits 64 bits, as the window's start does: without decimal overflow the
result is the list of the time-weighted averages, and that there are none is an error. -/
theorem calculateTwaps_timeWeighted (hkept : KeptBefore s (GoTime.unix blk.time))
    (hvalid : LookBackValid s lookBackSeconds) (hlook : (lookBackSeconds : ℤ) < 2 ^ 63)
    (hnow : GoTime.unix blk.time < 2 ^ 63)
    (hstart : -2 ^ 63 ≤ GoTime.unix blk.time - lookBackSeconds)
    (hfits : WindowFits blk s lookBackSeconds) :
    ∃ twaps, AveragesOf s (GoTime.unix blk.time) lookBackSeconds twaps ∧
      calculateTwaps blk s lookBackSeconds =
        if twaps = [] then .error (.error "No data for the twap calculation") else .ok twaps := by
  obtain ⟨acc, hwalk⟩ := (returns_walk_iff hvalid).mpr hfits
  have hkeys := mem_keys_walk hvalid hwalk
  have hsome : ∀ d ∈ acc.twapByDenom.keys, (s.voteTarget.get? d).isSome := by
    intro d hd
    by_contra hno
    exact (hkeys d).mp hd (if_neg (mt And.right hno))
  have hdenoms : (acc.twapByDenom.keys.map (twapOf acc)).map OracleTwap.denom =
      acc.twapByDenom.keys := by
    rw [List.map_map]
    exact List.map_id _
  refine ⟨acc.twapByDenom.keys.map (twapOf acc), ⟨?_, ?_, ?_⟩, ?_⟩
  · rw [hdenoms]
    exact acc.twapByDenom.keys_sorted
  · intro d
    rw [hdenoms, hkeys]
    constructor
    · intro hne
      have hd := hsome d ((hkeys d).mpr hne)
      rw [samplesIn_eq hkept hvalid hlook hnow hstart hd, samplesFrom_ne_nil_iff] at hne
      exact ⟨hd, hne⟩
    · rintro ⟨hd, hx⟩
      rw [samplesIn_eq hkept hvalid hlook hnow hstart hd, samplesFrom_ne_nil_iff]
      exact hx
  · intro e he
    obtain ⟨d, hd, rfl⟩ := List.mem_map.mp he
    rw [twapOf_walk hvalid hwalk hd]
    exact timeWeighted_twapIn hkept hvalid hlook hnow hstart (hsome d hd) ((hkeys d).mp hd)
  · rw [calculateTwaps_eq_of_valid hvalid, hwalk, ok_bind, averages_eq]

end Twaps

namespace StraddledStart

def item (denom : String) (rate : ℤ) : PriceSnapshotItem := ⟨denom, ⟨⟨rate⟩, 1, 1⟩⟩

/-- Snapshots three, six and fifteen seconds before the block. -/
def state : State :=
  { defaultGenesis ∅ with
    voteTarget := ⟨[("uatom", ⟨"uatom"⟩), ("uosmo", ⟨"uosmo"⟩)], by decide⟩
    priceSnapshot := ⟨[(85, ⟨85, [item "uatom" 10]⟩), (94, ⟨94, [item "uosmo" 6]⟩),
      (97, ⟨97, [item "uatom" 4]⟩)], by decide⟩ }

def block : Block := ⟨1, (GoTime.unixEpochSeconds + 100) * 1000000000⟩

def twaps : List OracleTwap := [⟨"uatom", ⟨8⟩, 10⟩, ⟨"uosmo", ⟨6⟩, 6⟩]

/-- Over ten seconds, three of the rate 4 and seven of the rate 10 average to 8.2. -/
theorem averaged : calculateTwaps block state 10 = .ok twaps ∧ AveragesOf state 100 10 twaps := by
  have hvalue : calculateTwaps block state 10 = .ok twaps := by decide
  have hkept : KeptBefore state 100 := by
    intro t x hx
    have hmem := SortedMap.get?_eq_some.mp hx
    revert hmem
    simp only [state, List.mem_cons, Prod.mk.injEq, List.not_mem_nil, or_false]
    rintro (⟨rfl, rfl⟩ | ⟨rfl, rfl⟩ | ⟨rfl, rfl⟩) <;> decide
  have hfits : WindowFits block state 10 := by
    apply returns_calculateTwaps_iff.mp
    rw [hvalue]
    exact returns_ok _
  refine ⟨hvalue, ?_⟩
  obtain ⟨l, haverages, heq⟩ := @calculateTwaps_timeWeighted block state 10 hkept
    (by decide) (by decide) (by decide) (by decide) hfits
  rw [hvalue] at heq
  split_ifs at heq
  cases heq
  exact haverages

end StraddledStart

end Kiichain.Oracle
