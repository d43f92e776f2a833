import Kiichain.FeeStaleness
import Kiichain.OracleAverages

/-!
# The history behind an average

A snapshot holds the rates that the last period end of its second left, and the window
skips none that left rates. So the walk weighs every second with the rate that was then
in force on the chain, and whoever disputes a price for some seconds moves the average
by no more than the share of these seconds.
-/

namespace Kiichain.Oracle
open GoExec FixedPoint Finset

/-- The rate of a denomination that was in force at a time: of the period ends that were
the last of their second to leave rates, the latest one up to then that left it. -/
def InForce (ends : List PeriodEnd) (d : String) (t rate : ℤ) : Prop :=
  ∃ e earlier r, TakenAt ends e.time e earlier ∧ e.time ≤ t ∧ e.rates.get? d = some r ∧
    r.exchangeRate.raw = rate ∧ ∀ e' earlier', TakenAt ends e'.time e' earlier' →
      e.time < e'.time → e'.time ≤ t → e'.rates.get? d = none

/-- No snapshot without items is stored. -/
def Filled (s : State) : Prop := ∀ k x, s.priceSnapshot.get? k = some x → x.priceSnapshotItems ≠ []

section Snapshots

variable {ends : List PeriodEnd} {d : String} {blk : Block} {s : State} {time start t rate : ℤ}

theorem entries_ne_nil {rates : SortedMap String OracleExchangeRate} {r : OracleExchangeRate}
    (h : rates.get? d = some r) : rates.entries ≠ [] :=
  List.ne_nil_of_mem (SortedMap.get?_eq_some.mp h)

theorem TakenAt.mem {k : ℤ} {e : PeriodEnd} {earlier : List PeriodEnd}
    (h : TakenAt ends k e earlier) : e ∈ ends := by
  obtain ⟨_, later, rfl, _⟩ := h
  exact List.mem_append_right _ List.mem_cons_self

/-- Two period ends that left rates cannot both be the last of one second. -/
theorem takenAt_unique {k : ℤ} {e e' : PeriodEnd} {earlier earlier' : List PeriodEnd}
    (h : TakenAt ends k e earlier) (h' : TakenAt ends k e' earlier') (he : e.rates.entries ≠ [])
    (he' : e'.rates.entries ≠ []) : e = e' := by
  obtain ⟨htime, later, hends, hlater⟩ := h
  obtain ⟨htime', later', hends', hlater'⟩ := h'
  rw [hends] at hends'
  obtain ⟨between, rfl, hcons⟩ | ⟨between, rfl, hcons⟩ := List.append_eq_append_iff.mp hends'
  · cases between with
    | nil => exact (List.cons.inj hcons).1
    | cons first between =>
        obtain ⟨rfl, _⟩ := List.cons.inj hcons
        obtain hnil | hlt := hlater' e (List.mem_append_right _ List.mem_cons_self)
        · exact absurd hnil he
        · exact absurd htime hlt.ne'
  · cases between with
    | nil => exact (List.cons.inj hcons).1.symm
    | cons first between =>
        obtain ⟨rfl, _⟩ := List.cons.inj hcons
        obtain hnil | hlt := hlater e' (List.mem_append_right _ List.mem_cons_self)
        · exact absurd hnil he'
        · exact absurd htime' hlt.ne'

/-- At most one rate of a denomination is in force. -/
theorem inForce_unique {rate' : ℤ} (h : InForce ends d t rate) (h' : InForce ends d t rate') :
    rate = rate' := by
  obtain ⟨e, earlier, r, htaken, htime, hrate, rfl, hlatest⟩ := h
  obtain ⟨e', earlier', r', htaken', htime', hrate', rfl, hlatest'⟩ := h'
  obtain hlt | heq | hgt := lt_trichotomy e.time e'.time
  · rw [hlatest e' earlier' htaken' hlt htime'] at hrate'
    cases hrate'
  · rw [← heq] at htaken'
    obtain rfl := takenAt_unique htaken htaken' (entries_ne_nil hrate) (entries_ne_nil hrate')
    rw [hrate] at hrate'
    cases hrate'
    rfl
  · rw [hlatest' e earlier htaken hgt htime] at hrate
    cases hrate

variable (blk) in
theorem filled_takePriceSnapshot (h : Filled s) : Filled (takePriceSnapshot blk s) := by
  intro k x hk
  by_cases hnil : s.exchangeRate.entries = []
  · rw [takePriceSnapshot_of_nil blk hnil] at hk
    exact h k x hk
  · obtain hold | ⟨_, rfl⟩ := get?_takePriceSnapshot hk
    · exact h k x hold
    · exact mt List.map_eq_nil_iff.mp hnil

/-- A snapshot has the rates of the period end it was taken at. -/
theorem rateIn_eq {x : PriceSnapshot} {rates : SortedMap String OracleExchangeRate}
    (h : x.priceSnapshotItems = itemsOf rates) :
    rateIn d x = (rates.get? d).map (·.exchangeRate.raw) := by
  rw [rateIn, h]
  cases hget : rates.get? d with
  | none =>
      rw [Option.map_none, Option.map_eq_none_iff, List.find?_eq_none]
      intro item hitem hd
      obtain ⟨⟨d', r⟩, hmem, rfl⟩ := List.mem_map.mp hitem
      obtain rfl := of_decide_eq_true hd
      rw [SortedMap.get?_eq_some.mpr hmem] at hget
      cases hget
  | some r =>
      have hsome : ((itemsOf rates).find? (·.denom = d)).isSome :=
        List.find?_isSome.mpr ⟨⟨d, r⟩,
          List.mem_map.mpr ⟨(d, r), SortedMap.get?_eq_some.mp hget, rfl⟩, decide_eq_true rfl⟩
      obtain ⟨item, hitem⟩ := Option.isSome_iff_exists.mp hsome
      obtain ⟨⟨d', r'⟩, hmem, rfl⟩ := List.mem_map.mp (List.mem_of_find?_eq_some hitem)
      obtain rfl : d' = d := by simpa using List.find?_some hitem
      rw [SortedMap.get?_eq_some.mpr hmem] at hget
      cases hget
      rw [hitem]
      rfl

/-- The newest of the snapshots up to a time that a window holds is the newest stored. -/
theorem mem_windowFrom {x y : PriceSnapshot} (hx : x ∈ windowFrom start (newestFirst s))
    (hy : y ∈ newestFirst s) (hlt : x.snapshotTimestamp < y.snapshotTimestamp)
    (hsorted : (newestFirst s).Pairwise (fun x y => y.snapshotTimestamp ≤ x.snapshotTimestamp)) :
    y ∈ windowFrom start (newestFirst s) := by
  by_cases hstart : start ≤ y.snapshotTimestamp
  · exact List.mem_append_left _ (List.mem_filter.mpr ⟨hy, decide_eq_true hstart⟩)
  · have hyold : y ∈ (newestFirst s).filter (·.snapshotTimestamp < start) :=
      List.mem_filter.mpr ⟨hy, decide_eq_true (by omega)⟩
    obtain hnew | hold := List.mem_append.mp hx
    · have hge := of_decide_eq_true (List.mem_filter.mp hnew).2
      omega
    · -- `x` heads the older ones, and none of them is newer
      have hpast := hsorted.filter (·.snapshotTimestamp < start)
      cases hcons : (newestFirst s).filter (·.snapshotTimestamp < start) with
      | nil =>
          rw [hcons] at hyold
          cases hyold
      | cons first rest =>
          rw [hcons] at hyold hold hpast
          obtain rfl := List.mem_singleton.mp hold
          obtain rfl | hrest := List.mem_cons.mp hyold
          · exact absurd hlt (lt_irrefl _)
          · exact absurd hlt (not_lt_of_ge ((List.pairwise_cons.mp hpast).1 y hrest))

theorem rateAt_eq_some {window : List PriceSnapshot} (h : rateAt d window t = some rate)
    (hsorted : window.Pairwise (fun x y => y.snapshotTimestamp ≤ x.snapshotTimestamp)) :
    ∃ x ∈ window, x.snapshotTimestamp ≤ t ∧ rateIn d x = some rate ∧
      ∀ y ∈ window, x.snapshotTimestamp < y.snapshotTimestamp → y.snapshotTimestamp ≤ t →
        rateIn d y = none := by
  obtain ⟨newer, x, older, rfl, hx, hnewer⟩ := List.findSome?_eq_some_iff.mp h
  split_ifs at hx with hle
  refine ⟨x, by simp, hle, hx, fun y hy hlt hyt => ?_⟩
  obtain hy | hy := List.mem_append.mp hy
  · have hnone := hnewer y hy
    rwa [if_pos hyt] at hnone
  · have holder := (List.pairwise_append.mp hsorted).2.1
    obtain rfl | hy := List.mem_cons.mp hy
    · exact absurd hlt (lt_irrefl _)
    · exact absurd hlt (not_lt_of_ge ((List.pairwise_cons.mp holder).1 y hy))

/-- The rate that the window has for a time was in force then. -/
theorem inForce_of_rateAt (hrec : Recorded s time) (hfilled : Filled s)
    (h : Remembered s time ends)
    (hrate : rateAt d (windowFrom start (newestFirst s)) t = some rate) :
    InForce ends d t rate := by
  have hsorted : (newestFirst s).Pairwise (fun x y => y.snapshotTimestamp ≤ x.snapshotTimestamp) :=
    hrec.sorted
  obtain ⟨x, hx, hle, hxrate, hlatest⟩ := rateAt_eq_some hrate (windowFrom_sorted start hsorted)
  obtain ⟨k, hk⟩ := mem_snapshots.mp (windowFrom_subset start hx)
  obtain ⟨e, earlier, htaken, hitems⟩ := h.taken k x hk
  have hstamp : x.snapshotTimestamp = e.time := (hrec.stamped k x hk).1.trans htaken.1.symm
  rw [rateIn_eq hitems] at hxrate
  obtain ⟨r, hr, hraw⟩ := Option.map_eq_some_iff.mp hxrate
  refine ⟨e, earlier, r, htaken.1.symm ▸ htaken, hstamp ▸ hle, hr, hraw, ?_⟩
  intro e' earlier' htaken' hlt htime
  by_contra hsome
  obtain ⟨r', hr'⟩ := Option.ne_none_iff_exists'.mp hsome
  have hkept := h.kept e' htaken'.mem (entries_ne_nil hr') k
    (SortedMap.mem_keys.mpr ⟨x, hk⟩) (by rw [← htaken.1]; exact hlt.le)
  obtain ⟨y, hy⟩ := SortedMap.mem_keys.mp hkept
  obtain ⟨e₂, earlier₂, htaken₂, hitems₂⟩ := h.taken e'.time y hy
  have hfull : e₂.rates.entries ≠ [] := by
    intro hnil
    apply hfilled _ y hy
    rw [hitems₂, itemsOf, hnil, List.map_nil]
  obtain rfl := takenAt_unique htaken' htaken₂ (entries_ne_nil hr') hfull
  have hystamp : y.snapshotTimestamp = e'.time := (hrec.stamped _ y hy).1
  have hnone := hlatest y (mem_windowFrom hx (mem_snapshots.mpr ⟨_, hy⟩) (by omega) hsorted)
    (by omega) (by omega)
  rw [rateIn_eq hitems₂, hr'] at hnone
  cases hnone

/-- A weighed rate is that of a stored snapshot, so it is not negative. -/
theorem nonneg_of_rateAt (hrec : Recorded s time)
    (hrate : rateAt d (windowFrom start (newestFirst s)) t = some rate) : 0 ≤ rate := by
  have hsorted : (newestFirst s).Pairwise (fun x y => y.snapshotTimestamp ≤ x.snapshotTimestamp) :=
    hrec.sorted
  obtain ⟨x, hx, _, hxrate, _⟩ := rateAt_eq_some hrate (windowFrom_sorted start hsorted)
  obtain ⟨k, hk⟩ := mem_snapshots.mp (windowFrom_subset start hx)
  obtain ⟨item, hitem, rfl⟩ := Option.map_eq_some_iff.mp hxrate
  exact hrec.items k x hk item (List.mem_of_find?_eq_some hitem)

end Snapshots

section Average

variable {blk : Block} {s : State} {lookBack : ℕ} {ends : List PeriodEnd} {twaps : List OracleTwap}
  {e : OracleTwap}

/-- Every average of a call comes from samples, and is time-weighted. -/
theorem timeWeighted_of_mem (hkept : KeptBefore s (GoTime.unix blk.time))
    (hlook : (lookBack : ℤ) < 2 ^ 63) (hnow : GoTime.unix blk.time < 2 ^ 63)
    (hstart : -2 ^ 63 ≤ GoTime.unix blk.time - lookBack)
    (h : calculateTwaps blk s lookBack = .ok twaps) (he : e ∈ twaps) :
    TimeWeighted (GoTime.unix blk.time) lookBack
        (windowFrom (GoTime.unix blk.time - lookBack) (newestFirst s)) e ∧
      (e.lookbackSeconds = 0 → e.twap.raw = 0) := by
  obtain ⟨l, rfl, hmem⟩ := twaps_eq (by rw [h]; rfl)
  obtain ⟨d, hd, rfl⟩ := List.mem_map.mp he
  have hne := (hmem d).mp hd
  have hsampled : LookBackValid s lookBack ∧ (s.voteTarget.get? d).isSome := by
    by_contra hno
    exact hne (if_neg hno)
  refine ⟨timeWeighted_twapIn hkept hsampled.1 hlook hnow hstart hsampled.2 hne, fun hzero => ?_⟩
  have hduration : (weighed blk s lookBack d).2 = 0 := hzero
  rw [twapIn, denomTwap, hduration]
  rfl

/-- An average of the rates in force, second by second. -/
structure Historical (ends : List PeriodEnd) (now : ℤ) (e : OracleTwap) (rate : ℤ → ℤ) : Prop where
  inForce : ∀ t ∈ Ico (now - e.lookbackSeconds) now, InForce ends e.denom t (rate t)
  nonneg : ∀ t ∈ Ico (now - e.lookbackSeconds) now, 0 ≤ rate t
  average : e.twap.raw = (∑ t ∈ Ico (now - e.lookbackSeconds) now, rate t).tdiv e.lookbackSeconds

variable (blk) in
theorem exists_historical (hrec : Recorded s blk.time) (hpos : 0 ≤ blk.time)
    (hlast : blk.time ≤ GoTime.lastTimestamp) (hfilled : Filled s)
    (h : Remembered s blk.time ends) (hlook : lookBack < 2 ^ 62)
    (htwaps : calculateTwaps blk s lookBack = .ok twaps) (he : e ∈ twaps) :
    0 ≤ e.lookbackSeconds ∧ e.lookbackSeconds ≤ lookBack ∧
      ∃ rate, Historical ends (GoTime.unix blk.time) e rate := by
  have hkept : KeptBefore s (GoTime.unix blk.time) := fun k x hk =>
    ⟨(hrec.stamped k x hk).1, (hrec.stamped k x hk).2.2⟩
  have hlo : GoTime.unix 0 ≤ GoTime.unix blk.time := unix_mono hpos
  have hhi : GoTime.unix blk.time ≤ GoTime.unix GoTime.lastTimestamp := unix_mono hlast
  have hfirst : GoTime.unix 0 = -62135596800 := by decide
  have hend : GoTime.unix GoTime.lastTimestamp = 253402300799 := by decide
  obtain ⟨hweighted, hzero⟩ :=
    timeWeighted_of_mem hkept (by omega) (by omega) (by omega) htwaps he
  obtain ⟨x, hx, _, _, hduration⟩ := hweighted.oldest
  have hpast := hkept.past x (windowFrom_subset _ hx)
  refine ⟨by omega, by omega, ?_⟩
  obtain hnone | hsome := eq_or_ne e.lookbackSeconds 0
  · have hempty : Ico (GoTime.unix blk.time - e.lookbackSeconds) (GoTime.unix blk.time) = ∅ := by
      rw [hnone, sub_zero, Ico_self]
    refine ⟨fun _ => 0, ⟨?_, ?_, ?_⟩⟩
    · rw [hempty]
      exact fun t ht => absurd ht (notMem_empty t)
    · exact fun t _ => le_rfl
    · rw [hempty, sum_empty, hzero hnone, Int.zero_tdiv]
  · obtain ⟨rate, hrate, haverage, _⟩ := hweighted.average (by omega)
    exact ⟨rate, fun t ht => inForce_of_rateAt hrec hfilled h (hrate t ht),
      fun t ht => nonneg_of_rateAt hrec (hrate t ht), haverage⟩

end Average

section Shares

/-- Outside the disputed seconds the rate in force lies in a range, and it is never above
a cap. -/
structure Disputed (ends : List PeriodEnd) (d : String) (seconds disputed : Finset ℤ)
    (lo hi cap : ℤ) : Prop where
  settled : ∀ t ∈ seconds, t ∉ disputed → ∀ rate, InForce ends d t rate → lo ≤ rate ∧ rate ≤ hi
  capped : ∀ t ∈ seconds, ∀ rate, InForce ends d t rate → rate ≤ cap

variable {ends : List PeriodEnd} {now : ℤ} {e : OracleTwap} {rate : ℤ → ℤ} {disputed : Finset ℤ}
  {lo hi cap : ℤ}

theorem Historical.bounds (h : Historical ends now e rate) (hpos : 0 < e.lookbackSeconds)
    (hd : Disputed ends e.denom (Ico (now - e.lookbackSeconds) now) disputed lo hi cap) :
    lo * (Ico (now - e.lookbackSeconds) now \ disputed).card <
        (e.twap.raw + 1) * e.lookbackSeconds ∧
      e.twap.raw * e.lookbackSeconds ≤
        hi * (Ico (now - e.lookbackSeconds) now \ disputed).card +
          cap * (Ico (now - e.lookbackSeconds) now ∩ disputed).card := by
  have hlower := StepSums.le_sum_of_all_but
    (fun t ht hnot => (hd.settled t ht hnot _ (h.inForce t ht)).1) h.nonneg
  have hupper := StepSums.sum_le_of_all_but
    (fun t ht hnot => (hd.settled t ht hnot _ (h.inForce t ht)).2)
    (fun t ht => hd.capped t ht _ (h.inForce t ht))
  have hfloor := h.average
  rw [Int.tdiv_eq_ediv_of_nonneg (sum_nonneg h.nonneg)] at hfloor
  constructor
  · apply hlower.trans_lt
    rw [hfloor]
    exact Int.lt_ediv_add_one_mul_self _ hpos
  · apply le_trans _ hupper
    rw [hfloor]
    exact Int.ediv_mul_le _ hpos.ne'

end Shares

end Kiichain.Oracle

namespace Kiichain.FeeAbstraction
open GoExec FixedPoint Finset
open Oracle (Env OracleTwap InForce Filled Historical Disputed)

section Runs

variable {env : Env} {w : Watched}

theorem filled_step {c c' : Oracle.Chain} {e : Oracle.Event} (h : Filled c.oracle)
    (hstep : Oracle.step env c e = .ok c') : Filled c'.oracle := by
  cases e with
  | stake st =>
      cases hstep
      exact h
  | message msg =>
      obtain ⟨_, hdelivered⟩ := Oracle.delivered_message hstep
      exact fun k x hk => h k x (hdelivered.priceSnapshot ▸ hk)
  | beginBlock time =>
      simp only [Oracle.step, bind_eq_ok, pure_eq_ok, Except.ok.injEq] at hstep
      obtain ⟨_, _, ⟨st, s⟩, hbegin, rfl⟩ := hstep
      obtain ⟨_, _, hframe, _⟩ := Oracle.beginBlocker_frame hbegin
      dsimp only at hframe ⊢
      rw [hframe]
      exact h
  | endBlock o =>
      simp only [Oracle.step, bind_eq_ok, pure_eq_ok, Except.ok.injEq] at hstep
      obtain ⟨_, _, s, hend, rfl⟩ := hstep
      have hperiod := (Oracle.endBlocker_eq_ok.mp hend).2
      split_ifs at hperiod
      · obtain ⟨u, rfl, _, hsnapshot⟩ := Oracle.tallyPeriod_snapshot hperiod
        exact Oracle.filled_takePriceSnapshot c.block (fun k x hk => h k x (hsnapshot ▸ hk))
      · rw [hperiod]
        exact h

/-- A chain whose history accounts for the snapshots, none of them without items. -/
def Logged (w : Watched) : Prop := Accounted w ∧ Filled w.chain.oracle.oracle

theorem logged_step (w : Watched) (e : Event) (w' : Watched) (h : Logged w)
    (hstep : watch env w e = .ok w') : Logged w' := by
  refine ⟨accounted_step w e w' h.1 hstep, ?_⟩
  obtain ⟨hchain, _⟩ := watch_eq_ok.mp hstep
  cases e with
  | message msg =>
      rw [(message_cases hchain).1]
      exact h.2
  | oracle e => exact filled_step h.2 (oracle_of_step hchain).1

theorem historical_of_run {height : ℕ} (hheight : height < 2 ^ 63) {st : Oracle.Staking}
    {denomMetaData : SortedMap String Metadata} {gs : GenesisState} {fee : State}
    (hgs : initGenesis gs = .ok fee) {es : List Event}
    (h : Runs.run (watch env) (Watched.genesis height st denomMetaData fee) es = .ok w)
    {lookBack : ℕ} (hlook : lookBack < 2 ^ 62) {twaps : List OracleTwap}
    (htwaps : Oracle.calculateTwaps w.chain.oracle.block w.chain.oracle.oracle lookBack = .ok twaps)
    {e : OracleTwap} (he : e ∈ twaps) : 0 ≤ e.lookbackSeconds ∧ e.lookbackSeconds ≤ lookBack ∧
      ∃ rate, Historical w.ends (GoTime.unix w.chain.oracle.time) e rate := by
  have hstart : Logged (Watched.genesis height st denomMetaData fee) := by
    refine ⟨accounted_genesis hheight st denomMetaData (initGenesis_eq_ok.mp hgs).1, ?_⟩
    intro k x hk
    cases hk
  obtain ⟨haccounted, hfilled⟩ := Runs.run_invariant logged_step hstart h
  have hsound := haccounted.sound
  exact Oracle.exists_historical w.chain.oracle.block hsound.recorded hsound.time_nonneg
    hsound.time_le hfilled haccounted.remembered hlook htwaps he

variable (env)

end Runs

namespace RaisedPrice
open SameSecond (staking params vote start)

def codec : Oracle.Codec :=
  { SameSecond.codec with
    parseDecCoin := fun text =>
      if text = "100ubtc" then .ok ("ubtc", .ofInt 100)
      else if text = "130ubtc" then .ok ("ubtc", .ofInt 130)
      else fail "invalid decimal coin expression: %s"
    parse_valid := by
      intro text denom amount h
      split_ifs at h <;> cases h
      · exact ⟨by decide, by decide⟩
      · exact ⟨by decide, by decide⟩ }

def env : Env := { SameSecond.env with codec := codec }

/-- The operator votes 100, six seconds later 130, and four seconds later a block begins. -/
def blocks : List Event :=
  [.oracle (.beginBlock start), .oracle (.message (.updateParams ⟨"gov", params⟩)),
    .oracle (.endBlock .ascending),
    .oracle (.beginBlock (start + 1000000000)), vote "100ubtc", .oracle (.endBlock .ascending),
    .oracle (.beginBlock (start + 7000000000)), vote "130ubtc", .oracle (.endBlock .ascending),
    .oracle (.beginBlock (start + 11000000000))]

def reached : Exec Watched :=
  Runs.run (watch env) (Watched.genesis 0 staking ∅ ⟨defaultParams, []⟩) blocks

def second : ℤ := GoTime.unix start

def low : LegacyDec := .ofInt 100

def high : LegacyDec := .ofInt 130

def average : OracleTwap := ⟨"ubtc", .ofInt 112, 10⟩

/-- The times of the period ends, and the rates they left. -/
def left (w : Watched) : List (ℤ × Option LegacyDec) :=
  w.ends.map (fun e => (e.time, (e.rates.get? "ubtc").map (·.exchangeRate)))

set_option maxRecDepth 40000 in
theorem reached_view : reached.toOption.map (fun w => (w.chain.oracle.time,
    (Oracle.calculateTwaps w.chain.oracle.block w.chain.oracle.oracle 10).toOption, left w)) =
      some (start + 11000000000, some [average], [(second + 7, some high),
        (second + 1, some low), (second, none)]) := by
  decide

theorem exists_reached : ∃ w, reached = .ok w ∧ GoTime.unix w.chain.oracle.time = second + 11 ∧
    Oracle.calculateTwaps w.chain.oracle.block w.chain.oracle.oracle 10 = .ok [average] ∧
    left w = [(second + 7, some high), (second + 1, some low), (second, none)] := by
  obtain ⟨w, hw, hview⟩ := exists_of_toOption_map reached_view
  simp only [Prod.mk.injEq] at hview
  obtain ⟨htime, htwaps, hends⟩ := hview
  refine ⟨w, hw, ?_, toOption_eq_some.mp htwaps, hends⟩
  rw [htime]
  decide

theorem mem_left {w : Watched} {t rate : ℤ} (h : InForce w.ends "ubtc" t rate) :
    ∃ k ≤ t, (k, some ⟨rate⟩) ∈ left w := by
  obtain ⟨e, _, r, htaken, htime, hr, rfl, _⟩ := h
  refine ⟨e.time, htime, List.mem_map.mpr ⟨e, htaken.mem, ?_⟩⟩
  rw [hr]
  rfl

/-- The rate of 130 is disputed, in force for the last four seconds. -/
theorem disputed_last {w : Watched}
    (hleft : left w = [(second + 7, some high), (second + 1, some low), (second, none)]) :
    Disputed w.ends "ubtc" (Ico (second + 1) (second + 11)) (Ico (second + 7) (second + 11))
      low.raw low.raw high.raw := by
  constructor
  · intro t ht hnot rate hrate
    obtain ⟨k, hk, hmem⟩ := mem_left hrate
    rw [mem_Ico] at ht hnot
    simp only [hleft, List.mem_cons, Prod.mk.injEq, List.not_mem_nil, or_false] at hmem
    obtain ⟨rfl, _⟩ | ⟨_, hraw⟩ | ⟨_, hnone⟩ := hmem
    · omega
    · cases hraw
      exact ⟨le_rfl, le_rfl⟩
    · cases hnone
  · intro t _ rate hrate
    obtain ⟨k, _, hmem⟩ := mem_left hrate
    simp only [hleft, List.mem_cons, Prod.mk.injEq, List.not_mem_nil, or_false] at hmem
    obtain ⟨_, hraw⟩ | ⟨_, hraw⟩ | ⟨_, hnone⟩ := hmem
    · cases hraw
      exact le_rfl
    · cases hraw
      decide
    · cases hnone

end RaisedPrice

end Kiichain.FeeAbstraction
