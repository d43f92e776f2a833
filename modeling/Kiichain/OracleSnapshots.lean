import Kiichain.OracleSlash
import Kiichain.OracleTwap
import Kiichain.OracleVotes

/-!
# Snapshots over a run and the sign of an average

Stored rates are never negative, and a snapshot is stamped with the time of a
block that has ended. The times of a walk therefore do not decrease, or are all
the window itself, and no average is negative.
-/

namespace Kiichain.Oracle
open GoExec FixedPoint

section Signs

/-- The two parts of a weighed sum have one sign. -/
def SameSign (acc : ℤ × ℤ) : Prop := 0 ≤ acc.1 ∧ 0 ≤ acc.2 ∨ acc.1 ≤ 0 ∧ acc.2 ≤ 0

theorem denomTwap_nonneg {sum duration : ℤ} (h : SameSign (sum, duration)) :
    0 ≤ (denomTwap ⟨sum⟩ duration).raw := by
  unfold denomTwap
  split_ifs
  · obtain ⟨hsum, hduration⟩ | ⟨hsum, hduration⟩ := h
    · exact Int.tdiv_nonneg hsum hduration
    · exact Int.tdiv_nonneg_of_nonpos_of_nonpos hsum hduration
  · exact le_rfl

/-- Samples whose times do not decrease keep the sum and the duration from
turning negative. -/
theorem foldl_weigh_nonneg {l : List (ℤ × ℤ)} {acc : ℤ × ℤ} (hacc : 0 ≤ acc.1 ∧ 0 ≤ acc.2)
    (hfirst : ∀ e ∈ l, acc.2 ≤ e.1) (hlt : ∀ e ∈ l, e.1 < 2 ^ 63) (hrate : ∀ e ∈ l, 0 ≤ e.2)
    (hsorted : l.Pairwise (fun e f => e.1 ≤ f.1)) :
    0 ≤ (l.foldl weigh acc).1 ∧ 0 ≤ (l.foldl weigh acc).2 := by
  induction l generalizing acc with
  | nil => exact hacc
  | cons e l ih =>
      rw [List.pairwise_cons] at hsorted
      have hle := hfirst e List.mem_cons_self
      have hbound := hlt e List.mem_cons_self
      have hdiff : GoTime.int64 (e.1 - acc.2) = e.1 - acc.2 :=
        GoTime.int64_of_bounds (by omega) (by omega)
      rw [List.foldl_cons]
      apply ih
      · refine ⟨?_, hacc.2.trans hle⟩
        have hprod := mul_nonneg (hrate e List.mem_cons_self) (sub_nonneg.mpr hle)
        simp only [weigh, hdiff]
        exact add_nonneg hacc.1 hprod
      · exact hsorted.1
      · exact fun f hf => hlt f (List.mem_cons_of_mem e hf)
      · exact fun f hf => hrate f (List.mem_cons_of_mem e hf)
      · exact hsorted.2

/-- Samples of the time already spanned add nothing. -/
theorem foldl_weigh_of_same {l : List (ℤ × ℤ)} {acc : ℤ × ℤ} (h : ∀ e ∈ l, e.1 = acc.2) :
    l.foldl weigh acc = acc := by
  induction l with
  | nil => rfl
  | cons e l ih =>
      have he : weigh acc e = acc := by
        have hzero : GoTime.int64 0 = 0 := GoTime.int64_of_bounds (by norm_num) (by norm_num)
        simp [weigh, h e List.mem_cons_self, hzero]
      rw [List.foldl_cons, he]
      exact ih (fun f hf => h f (List.mem_cons_of_mem e hf))

theorem sameSign_of_constant {l : List (ℤ × ℤ)} {c : ℤ} (htime : ∀ e ∈ l, e.1 = GoTime.int64 c)
    (hrate : ∀ e ∈ l, 0 ≤ e.2) : SameSign (l.foldl weigh (0, 0)) := by
  cases l with
  | nil => exact Or.inl ⟨le_rfl, le_rfl⟩
  | cons e l =>
      have hfirst := htime e List.mem_cons_self
      obtain ⟨hlo, hhi⟩ := GoTime.int64_bounds c
      have hself : GoTime.int64 (GoTime.int64 c) = GoTime.int64 c := GoTime.int64_of_bounds hlo hhi
      have he : weigh (0, 0) e = (e.2 * GoTime.int64 c, GoTime.int64 c) := by
        simp [weigh, hfirst, hself]
      rw [List.foldl_cons, he, foldl_weigh_of_same]
      · have hpos := hrate e List.mem_cons_self
        obtain hc | hc := le_total 0 (GoTime.int64 c)
        · exact Or.inl ⟨mul_nonneg hpos hc, hc⟩
        · exact Or.inr ⟨mul_nonpos_of_nonneg_of_nonpos hpos hc, hc⟩
      · exact fun f hf => htime f (List.mem_cons_of_mem e hf)

end Signs

section Times

variable {now lookBack : ℤ}

/-- While the window starts in the past, the walk meets times from zero on that
do not decrease, and never one below a time that bounds its snapshots. -/
theorem examined_sorted (hstart : GoTime.int64 (now - lookBack) ≤ now) {l : List PriceSnapshot}
    (hpast : ∀ snapshot ∈ l,
      snapshot.snapshotTimestamp ≤ now ∧ now - snapshot.snapshotTimestamp < 2 ^ 63)
    (hsorted : l.Pairwise (fun x y => y.snapshotTimestamp ≤ x.snapshotTimestamp)) :
    (examined now lookBack l).Pairwise (fun e f => e.1 ≤ f.1) ∧
      ∀ e ∈ examined now lookBack l, (0 ≤ e.1 ∧ e.1 < 2 ^ 63) ∧
        ∀ b, b ≤ now - GoTime.int64 (now - lookBack) →
          (∀ snapshot ∈ l, b ≤ now - snapshot.snapshotTimestamp) → b ≤ e.1 := by
  induction l with
  | nil => exact ⟨List.Pairwise.nil, fun e he => absurd he List.not_mem_nil⟩
  | cons snapshot rest ih =>
      rw [List.pairwise_cons] at hsorted
      obtain ⟨hle, hlt⟩ := hpast snapshot List.mem_cons_self
      obtain ⟨hpair, hbounds⟩ := ih (fun x hx => hpast x (List.mem_cons_of_mem snapshot hx)) hsorted.2
      unfold examined
      dsimp only
      split_ifs with hstop
      · rw [GoTime.int64_of_bounds (z := now - _) (by omega) (by omega)]
        constructor
        · exact List.pairwise_map.mpr (List.pairwise_of_forall (fun _ _ => le_rfl))
        · intro e he
          obtain ⟨item, _, rfl⟩ := List.mem_map.mp he
          exact ⟨by simp only; omega, fun b hb _ => hb⟩
      · rw [GoTime.int64_of_bounds (z := now - _) (by omega) (by omega)]
        constructor
        · rw [List.pairwise_append]
          refine ⟨List.pairwise_map.mpr (List.pairwise_of_forall (fun _ _ => le_rfl)), hpair, ?_⟩
          intro e he f hf
          obtain ⟨item, _, rfl⟩ := List.mem_map.mp he
          apply (hbounds f hf).2
          · omega
          · intro x hx
            have := hsorted.1 x hx
            simp only
            omega
        · intro e he
          obtain hmem | hmem := List.mem_append.mp he
          · obtain ⟨item, _, rfl⟩ := List.mem_map.mp hmem
            exact ⟨by simp only; omega, fun b _ hall => hall snapshot List.mem_cons_self⟩
          · refine ⟨(hbounds e hmem).1, fun b hb hall => (hbounds e hmem).2 b hb ?_⟩
            exact fun x hx => hall x (List.mem_cons_of_mem snapshot hx)

/-- A window that starts in the future stops at the first snapshot. -/
theorem examined_constant (hstart : now < GoTime.int64 (now - lookBack)) {l : List PriceSnapshot}
    (hpast : ∀ snapshot ∈ l, snapshot.snapshotTimestamp ≤ now) :
    ∀ e ∈ examined now lookBack l, e.1 = GoTime.int64 (now - GoTime.int64 (now - lookBack)) := by
  cases l with
  | nil => exact fun e he => absurd he List.not_mem_nil
  | cons snapshot rest =>
      have hle := hpast snapshot List.mem_cons_self
      unfold examined
      dsimp only
      rw [if_pos (by omega)]
      intro e he
      obtain ⟨item, _, rfl⟩ := List.mem_map.mp he
      rfl

end Times

section Averages

/-- Stored rates are not negative, and a snapshot is kept under the time of a
block up to this instant. -/
structure Recorded (s : State) (time : ℤ) : Prop where
  rates : ∀ d rate, s.exchangeRate.get? d = some rate → 0 ≤ rate.exchangeRate.raw
  stamped : ∀ t snapshot, s.priceSnapshot.get? t = some snapshot →
    snapshot.snapshotTimestamp = t ∧ GoTime.unix 0 ≤ t ∧ t ≤ GoTime.unix time
  items : ∀ t snapshot, s.priceSnapshot.get? t = some snapshot →
    ∀ item ∈ snapshot.priceSnapshotItems, 0 ≤ item.oracleExchangeRate.exchangeRate.raw

theorem unix_mono {t u : ℤ} (h : t ≤ u) : GoTime.unix t ≤ GoTime.unix u := by
  unfold GoTime.unix
  omega

theorem Recorded.mono {s : State} {t u : ℤ} (h : Recorded s t) (htu : t ≤ u) : Recorded s u := by
  refine ⟨h.rates, fun k snapshot hk => ?_, h.items⟩
  obtain ⟨hstamp, hlo, hhi⟩ := h.stamped k snapshot hk
  exact ⟨hstamp, hlo, hhi.trans (unix_mono htu)⟩

variable {blk : Block} {s : State} {lookBackSeconds : ℕ}

/-- The snapshots as the walk meets them. -/
theorem mem_snapshots {x : PriceSnapshot} : x ∈ (s.priceSnapshot.entries.map Prod.snd).reverse ↔
    ∃ t, s.priceSnapshot.get? t = some x := by
  simp only [List.mem_reverse, List.mem_map, SortedMap.get?_eq_some, Prod.exists,
    exists_eq_right]

/-- Snapshots kept under their own timestamps are walked from the newest on. -/
theorem snapshots_sorted
    (h : ∀ t x, s.priceSnapshot.get? t = some x → x.snapshotTimestamp = t) :
    ((s.priceSnapshot.entries.map Prod.snd).reverse).Pairwise
      (fun x y => y.snapshotTimestamp ≤ x.snapshotTimestamp) := by
  rw [List.pairwise_reverse, List.pairwise_map]
  apply s.priceSnapshot.sorted.imp_of_mem
  rintro ⟨t, x⟩ ⟨u, y⟩ hx hy hlt
  rw [h t x (SortedMap.get?_eq_some.mpr hx), h u y (SortedMap.get?_eq_some.mpr hy)]
  exact le_of_lt hlt

theorem Recorded.sorted {time : ℤ} (h : Recorded s time) :
    ((s.priceSnapshot.entries.map Prod.snd).reverse).Pairwise
      (fun x y => y.snapshotTimestamp ≤ x.snapshotTimestamp) :=
  snapshots_sorted (fun t x hx => (h.stamped t x hx).1)

/-- An item that the walk meets is an item of a snapshot, and every later snapshot
lies in the window. -/
theorem mem_examined {now lookBack : ℤ} {l : List PriceSnapshot} {e : ℤ × PriceSnapshotItem}
    (hsorted : l.Pairwise (fun x y => y.snapshotTimestamp ≤ x.snapshotTimestamp))
    (h : e ∈ examined now lookBack l) : ∃ snapshot ∈ l, e.2 ∈ snapshot.priceSnapshotItems ∧
      ∀ x ∈ l, snapshot.snapshotTimestamp < x.snapshotTimestamp →
        GoTime.int64 (now - lookBack) ≤ x.snapshotTimestamp := by
  induction l with
  | nil => exact absurd h List.not_mem_nil
  | cons snapshot rest ih =>
      obtain ⟨hfirst, hrest⟩ := List.pairwise_cons.mp hsorted
      have hhead : ∀ x ∈ snapshot :: rest, snapshot.snapshotTimestamp < x.snapshotTimestamp →
          GoTime.int64 (now - lookBack) ≤ x.snapshotTimestamp := by
        intro x hx hlt
        obtain rfl | hx := List.mem_cons.mp hx
        · exact absurd hlt (lt_irrefl _)
        · exact absurd hlt (not_lt_of_ge (hfirst x hx))
      unfold examined at h
      dsimp only at h
      split_ifs at h with hstop
      · obtain ⟨item, hitem, rfl⟩ := List.mem_map.mp h
        exact ⟨snapshot, List.mem_cons_self, hitem, hhead⟩
      · obtain hmem | hmem := List.mem_append.mp h
        · obtain ⟨item, hitem, rfl⟩ := List.mem_map.mp hmem
          exact ⟨snapshot, List.mem_cons_self, hitem, hhead⟩
        · obtain ⟨x, hx, hitem, hlater⟩ := ih hrest hmem
          refine ⟨x, List.mem_cons_of_mem snapshot hx, hitem, ?_⟩
          exact List.forall_mem_cons.mpr ⟨fun _ => not_lt.mp hstop, hlater⟩

theorem mem_samplesOf {d : String} {items : List (ℤ × PriceSnapshotItem)} {x : ℤ × ℤ}
    (h : x ∈ samplesOf d items) :
    ∃ e ∈ items, e.2.denom = d ∧ x = (e.1, e.2.oracleExchangeRate.exchangeRate.raw) := by
  obtain ⟨e, he, rfl⟩ := List.mem_map.mp h
  obtain ⟨he, hd⟩ := List.mem_filter.mp he
  exact ⟨e, he, by simpa using hd, rfl⟩

/-- A sample of a window is the rate of an item of a stored snapshot. -/
theorem exists_item (h : Recorded s blk.time) {d : String} {x : ℤ × ℤ}
    (hx : x ∈ samplesOf d (itemsIn blk s lookBackSeconds)) :
    ∃ t snapshot, s.priceSnapshot.get? t = some snapshot ∧
      ∃ item ∈ snapshot.priceSnapshotItems, item.denom = d ∧
        item.oracleExchangeRate.exchangeRate.raw = x.2 := by
  obtain ⟨e, he, hd, rfl⟩ := mem_samplesOf hx
  obtain ⟨snapshot, hsnapshot, hitem, _⟩ := mem_examined h.sorted he
  obtain ⟨t, ht⟩ := mem_snapshots.mp hsnapshot
  exact ⟨t, snapshot, ht, e.2, hitem, hd, rfl⟩

/-- The times of the samples do not decrease, or are all the window itself. -/
theorem times_of_samples (h : Recorded s blk.time) (htime : blk.time ≤ GoTime.lastTimestamp)
    (d : String) :
    ((samplesOf d (itemsIn blk s lookBackSeconds)).Pairwise (fun e f => e.1 ≤ f.1) ∧
      ∀ x ∈ samplesOf d (itemsIn blk s lookBackSeconds), 0 ≤ x.1 ∧ x.1 < 2 ^ 63) ∨
    ∃ c, ∀ x ∈ samplesOf d (itemsIn blk s lookBackSeconds), x.1 = GoTime.int64 c := by
  have hpast : ∀ snapshot ∈ (s.priceSnapshot.entries.map Prod.snd).reverse,
      snapshot.snapshotTimestamp ≤ GoTime.unix blk.time ∧
        GoTime.unix blk.time - snapshot.snapshotTimestamp < 2 ^ 63 := by
    intro snapshot hsnapshot
    obtain ⟨t, ht⟩ := mem_snapshots.mp hsnapshot
    obtain ⟨hstamp, hlo, hhi⟩ := h.stamped t snapshot ht
    have hlast := unix_mono htime
    simp only [GoTime.unix, GoTime.lastTimestamp, GoTime.unixEpochSeconds] at *
    omega
  obtain hstart | hstart := le_or_gt
    (GoTime.int64 (GoTime.unix blk.time - GoTime.int64 lookBackSeconds)) (GoTime.unix blk.time)
  · obtain ⟨hpair, hbounds⟩ := examined_sorted hstart hpast h.sorted
    refine Or.inl ⟨List.pairwise_map.mpr (hpair.filter _), fun x hx => ?_⟩
    obtain ⟨e, he, _, rfl⟩ := mem_samplesOf hx
    exact (hbounds e he).1
  · refine Or.inr ⟨GoTime.unix blk.time -
      GoTime.int64 (GoTime.unix blk.time - GoTime.int64 lookBackSeconds), fun x hx => ?_⟩
    obtain ⟨e, he, _, rfl⟩ := mem_samplesOf hx
    exact examined_constant hstart (fun x hx => (hpast x hx).1) e he

/-- The weighed sum of a window and its seconds have one sign. -/
theorem sameSign_weighed (h : Recorded s blk.time) (htime : blk.time ≤ GoTime.lastTimestamp)
    (d : String) : SameSign (weighed blk s lookBackSeconds d) := by
  unfold weighed samplesIn
  split_ifs
  · have hrate : ∀ x ∈ samplesOf d (itemsIn blk s lookBackSeconds), 0 ≤ x.2 := by
      intro x hx
      obtain ⟨t, snapshot, ht, item, hitem, _, hrate⟩ := exists_item h hx
      exact hrate ▸ h.items t snapshot ht item hitem
    obtain ⟨hsorted, hbounds⟩ | ⟨c, htimes⟩ := times_of_samples h htime d
    · exact Or.inl (foldl_weigh_nonneg ⟨le_rfl, le_rfl⟩ (fun x hx => (hbounds x hx).1)
        (fun x hx => (hbounds x hx).2) hrate hsorted)
    · exact sameSign_of_constant htimes hrate
  · exact Or.inl ⟨le_rfl, le_rfl⟩

theorem twapIn_nonneg (h : Recorded s blk.time) (htime : blk.time ≤ GoTime.lastTimestamp)
    (d : String) : 0 ≤ (twapIn blk s lookBackSeconds d).twap.raw :=
  denomTwap_nonneg (sameSign_weighed h htime d)

/-- An average is zero without seconds, or with less than a unit a second. -/
theorem twapIn_eq_zero_iff (d : String) : (twapIn blk s lookBackSeconds d).twap.raw = 0 ↔
    (weighed blk s lookBackSeconds d).2 = 0 ∨
      (weighed blk s lookBackSeconds d).1.natAbs < (weighed blk s lookBackSeconds d).2.natAbs := by
  simp only [twapIn, denomTwap]
  split_ifs with h
  · rw [← Int.natAbs_eq_zero, Int.natAbs_tdiv]
    simp only [h, false_or]
    exact Nat.div_eq_zero_iff_lt (Int.natAbs_pos.mpr h)
  · simp [not_not.mp h]

end Averages

section Recorded

variable {rt : Runtime} {o : IterationOrder} {blk : Block} {st : Staking} {s t : State}

theorem writtenRate_nonneg (hs : AcceptedVotes s) {r d : String} (href : IsReference rt st s r)
    (hd : d ∈ passingTargets rt st s) {rate : LegacyDec}
    (h : writtenRate rt st s r d = some rate) : 0 ≤ rate.raw := by
  obtain ⟨_, hrate⟩ := writtenRate_eq_some.mp h
  have htallied := (tallied_wellFormed rt hs r (castOn_ne_nil_of_passing hd)).median_bounds.1
  by_cases hdr : d = r
  · subst hdr
    rw [baseRate_self] at hrate
    cases hrate
    exact htallied
  · have hmedian := (ballotOn_wellFormed hs rt (castOn_ne_nil_of_passing href.1)).median_bounds.1
    rw [baseRate_ne hdr] at hrate
    exact Decimal.quo_nonneg hmedian htallied hrate

theorem rates_nonneg_tallyPeriod (hs : AcceptedVotes s)
    (hrates : ∀ d rate, s.exchangeRate.get? d = some rate → 0 ≤ rate.exchangeRate.raw)
    (h : tallyPeriod rt o blk st s = .ok t) :
    ∀ d rate, t.exchangeRate.get? d = some rate → 0 ≤ rate.exchangeRate.raw := by
  obtain ⟨heq, _⟩ | ⟨r, _, href, heq, _⟩ := tallyPeriod_rates h
  · rw [heq]
    exact hrates
  · intro d rate hget
    rw [heq, get?_foldl_writeRate] at hget
    split_ifs at hget with hd
    · cases hw : writtenRate rt st s r d with
      | none =>
          rw [hw] at hget
          exact hrates d rate hget
      | some x =>
          rw [hw] at hget
          cases hget
          exact writtenRate_nonneg hs href hd hw
    · exact hrates d rate hget

/-- The last act of a period is to take a snapshot of the rates it leaves. -/
theorem tallyPeriod_snapshot (h : tallyPeriod rt o blk st s = .ok t) :
    ∃ u, t = takePriceSnapshot blk u ∧ u.exchangeRate = t.exchangeRate ∧
      u.priceSnapshot = s.priceSnapshot := by
  obtain ⟨_, _, _, _, _, rfl⟩ := tallyPeriod_touches h
  obtain ⟨_, hsnapshot⟩ := takePriceSnapshot_frame blk _
  refine ⟨_, rfl, ?_, rfl⟩
  rw [hsnapshot]

/-- A snapshot is an old one, or holds the rates under the time of the block. -/
theorem get?_takePriceSnapshot {k : ℤ} {x : PriceSnapshot}
    (h : (takePriceSnapshot blk s).priceSnapshot.get? k = some x) :
    s.priceSnapshot.get? k = some x ∨ k = GoTime.unix blk.time ∧
      x = ⟨GoTime.unix blk.time, s.exchangeRate.entries.map (fun e => ⟨e.1, e.2⟩)⟩ := by
  by_cases hnil : s.exchangeRate.entries = []
  · rw [takePriceSnapshot_of_nil blk hnil] at h
    exact Or.inl h
  · rw [takePriceSnapshot_of_ne blk hnil] at h
    have hstored := get?_of_addPriceSnapshot h
    rw [SortedMap.get?_insert] at hstored
    split_ifs at hstored with hk
    · cases hstored
      exact Or.inr ⟨hk.symm, rfl⟩
    · exact Or.inl hstored

theorem recorded_endBlocker (hs : AcceptedVotes s) (hrec : Recorded s blk.time)
    (htime : 0 ≤ blk.time) (h : endBlocker rt o blk st s = .ok t) : Recorded t blk.time := by
  have hperiod := (endBlocker_eq_ok.mp h).2
  split_ifs at hperiod
  · have hrates := rates_nonneg_tallyPeriod hs hrec.rates hperiod
    obtain ⟨u, rfl, hexchange, hsnapshot⟩ := tallyPeriod_snapshot hperiod
    rw [← hexchange] at hrates
    refine ⟨hexchange ▸ hrates, fun k x hk => ?_, fun k x hk item hitem => ?_⟩
    · obtain hold | ⟨rfl, rfl⟩ := get?_takePriceSnapshot hk
      · exact hrec.stamped k x (hsnapshot ▸ hold)
      · exact ⟨rfl, unix_mono htime, le_rfl⟩
    · obtain hold | ⟨rfl, rfl⟩ := get?_takePriceSnapshot hk
      · exact hrec.items k x (hsnapshot ▸ hold) item hitem
      · obtain ⟨⟨d, rate⟩, he, rfl⟩ := List.mem_map.mp hitem
        exact hrates d rate (SortedMap.get?_eq_some.mpr he)
  · rw [hperiod]
    exact hrec

/-- The begin blocker removes rates and adds none. -/
theorem rates_beginBlocker {slash : Slash} {st' : Staking}
    (h : beginBlocker slash blk st s = .ok (st', t)) {d : String} {rate : OracleExchangeRate}
    (hget : t.exchangeRate.get? d = some rate) : s.exchangeRate.get? d = some rate := by
  rw [beginBlocker, bind_eq_ok] at h
  obtain ⟨last, _, h⟩ := h
  split_ifs at h
  · rw [bind_eq_ok] at h
    obtain ⟨⟨st₁, s₁⟩, hreset, h⟩ := h
    rw [slashAndResetCounters, bind_eq_ok] at hreset
    obtain ⟨_, _, hreset⟩ := hreset
    cases hreset
    cases h
    exact SortedMap.get?_of_foldl_erase hget
  · cases h
    exact hget

theorem recorded_beginBlocker {slash : Slash} {st' : Staking} {time : ℤ} (hrec : Recorded s time)
    (h : beginBlocker slash blk st s = .ok (st', t)) : Recorded t time := by
  have hrates : ∀ d rate, t.exchangeRate.get? d = some rate → 0 ≤ rate.exchangeRate.raw :=
    fun d rate hget => hrec.rates d rate (rates_beginBlocker h hget)
  obtain ⟨_, _, rfl, _⟩ := beginBlocker_frame h
  exact ⟨hrates, hrec.stamped, hrec.items⟩

end Recorded

end Kiichain.Oracle
