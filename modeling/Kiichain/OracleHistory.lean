import Kiichain.OracleChain
import Kiichain.OracleSnapshots

/-!
# The vote periods behind a stored rate

A rate is written at the end of a vote period at which the ballot on its
denomination passed, and stays until it is overwritten or delisted. Each period
end that leaves rates records all of them anew, under its own time. A snapshot is
removed only with every older one.
-/

namespace Kiichain.Oracle
open GoExec FixedPoint

/-- The end of a vote period, in unix seconds: the denominations whose ballot
reached the threshold, and the rates that were left. -/
structure PeriodEnd where
  height : ℕ
  time : ℤ
  passed : List String
  rates : SortedMap String OracleExchangeRate

def itemsOf (rates : SortedMap String OracleExchangeRate) : List PriceSnapshotItem :=
  rates.entries.map (fun e => ⟨e.1, e.2⟩)

section Store

variable {blk : Block} {s : State} {snapshot : PriceSnapshot}

/-- What is later than a snapshot that stays, stays. -/
theorem mem_keys_addPriceSnapshot
    (hstamp : ∀ k x, s.priceSnapshot.get? k = some x → x.snapshotTimestamp = k) {k k' : ℤ}
    (hk : k ∈ (addPriceSnapshot blk s snapshot).priceSnapshot.keys)
    (hk' : k' ∈ (s.priceSnapshot.insert snapshot.snapshotTimestamp snapshot).keys) (hle : k ≤ k') :
    k' ∈ (addPriceSnapshot blk s snapshot).priceSnapshot.keys := by
  obtain ⟨x, hx⟩ := SortedMap.mem_keys.mp hk
  obtain ⟨y, hy⟩ := SortedMap.mem_keys.mp hk'
  have hstored := get?_of_addPriceSnapshot hx
  have hstamps : ∀ t z, (s.priceSnapshot.insert snapshot.snapshotTimestamp snapshot).get? t = some z →
      z.snapshotTimestamp = t := by
    intro t z hz
    rw [SortedMap.get?_insert] at hz
    split_ifs at hz with ht
    · cases hz
      exact ht
    · exact hstamp t z hz
  simp only [addPriceSnapshot, SortedMap.get?_foldl_erase] at hx
  split_ifs at hx with hgone
  refine SortedMap.mem_keys.mpr ⟨y, ?_⟩
  simp only [addPriceSnapshot, SortedMap.get?_foldl_erase]
  rw [if_neg, hy]
  -- were the later one removed, the walk would have passed the earlier one
  intro hmem
  apply hgone
  obtain ⟨⟨t, z⟩, hz, hzt⟩ := List.mem_map.mp hmem
  have hzstored := SortedMap.get?_eq_some.mpr ((List.takeWhile_sublist _).subset hz)
  have ht : t = k' := (hstamps t z hzstored).symm.trans hzt
  refine List.mem_map.mpr ⟨(k, x), ?_, hstamps k x hstored⟩
  exact SortedMap.mem_takeWhile_of_le (SortedMap.get?_eq_some.mp hstored) hz (ht ▸ hle)

end Store

section History

/-- The rate was written at a period end whose ballot on the denomination passed. -/
def Traced (ends : List PeriodEnd) (d : String) (rate : OracleExchangeRate) : Prop :=
  ∃ w ∈ ends, w.height = rate.lastUpdate ∧ d ∈ w.passed

/-- The last period end that left rates at or before a time, with those before it. -/
def TakenAt (ends : List PeriodEnd) (k : ℤ) (e : PeriodEnd) (earlier : List PeriodEnd) : Prop :=
  e.time = k ∧ ∃ later, ends = later ++ e :: earlier ∧
    ∀ e' ∈ later, e'.rates.entries = [] ∨ k < e'.time

/-- The period ends of a run, the latest first, account for what is stored. -/
structure Remembered (s : State) (time : ℤ) (ends : List PeriodEnd) : Prop where
  past : ∀ e ∈ ends, e.time ≤ GoTime.unix time
  rates : ∀ d rate, s.exchangeRate.get? d = some rate → Traced ends d rate
  left : ∀ e earlier, e :: earlier <:+ ends → ∀ d rate, e.rates.get? d = some rate →
    Traced (e :: earlier) d rate
  taken : ∀ k x, s.priceSnapshot.get? k = some x →
    ∃ e earlier, TakenAt ends k e earlier ∧ x.priceSnapshotItems = itemsOf e.rates
  kept : ∀ e ∈ ends, e.rates.entries ≠ [] → ∀ k ∈ s.priceSnapshot.keys, k ≤ e.time →
    e.time ∈ s.priceSnapshot.keys

variable {rt : Runtime} {o : IterationOrder} {blk : Block} {st : Staking} {s t : State}
  {ends : List PeriodEnd} {time : ℤ}

theorem Traced.cons {d : String} {rate : OracleExchangeRate} (h : Traced ends d rate)
    (e : PeriodEnd) : Traced (e :: ends) d rate := by
  obtain ⟨w, hw, hheight, hd⟩ := h
  exact ⟨w, List.mem_cons_of_mem e hw, hheight, hd⟩

theorem TakenAt.cons {k : ℤ} {e e' : PeriodEnd} {earlier : List PeriodEnd}
    (h : TakenAt ends k e earlier) (he' : e'.rates.entries = [] ∨ k < e'.time) :
    TakenAt (e' :: ends) k e earlier := by
  obtain ⟨htime, later, rfl, hlater⟩ := h
  exact ⟨htime, e' :: later, rfl, List.forall_mem_cons.mpr ⟨he', hlater⟩⟩

theorem remembered_nil {time : ℤ} (hrates : s.exchangeRate = ∅) (hsnapshots : s.priceSnapshot = ∅) :
    Remembered s time [] := by
  refine ⟨fun e he => ?_, fun d rate hd => ?_, fun e earlier h => ?_, fun k x hk => ?_,
    fun e he => ?_⟩
  · cases he
  · rw [hrates] at hd
    cases hd
  · cases List.suffix_nil.mp h
  · rw [hsnapshots] at hk
    cases hk
  · cases he

/-- Rates that are removed and time that passes leave the account as it is. -/
theorem Remembered.mono (h : Remembered s time ends) {time' : ℤ} (htime : time ≤ time')
    (hrates : ∀ d rate, t.exchangeRate.get? d = some rate → s.exchangeRate.get? d = some rate)
    (hsnapshots : t.priceSnapshot = s.priceSnapshot) : Remembered t time' ends := by
  refine ⟨fun e he => (h.past e he).trans (unix_mono htime), fun d rate hd => ?_, h.left, ?_, ?_⟩
  · exact h.rates d rate (hrates d rate hd)
  · rw [hsnapshots]
    exact h.taken
  · rw [hsnapshots]
    exact h.kept

/-- What the end of a vote period leaves in the history. -/
def ended (rt : Runtime) (blk : Block) (st : Staking) (s t : State) : PeriodEnd :=
  ⟨blk.height, GoTime.unix blk.time, passingTargets rt st s, t.exchangeRate⟩

theorem traced_tallyPeriod (h : Remembered s time ends) (ht : tallyPeriod rt o blk st s = .ok t)
    {d : String} {rate : OracleExchangeRate} (hd : t.exchangeRate.get? d = some rate) :
    Traced (ended rt blk st s t :: ends) d rate := by
  obtain ⟨heq, _⟩ | ⟨r, _, _, heq, _⟩ := tallyPeriod_rates ht
  · rw [heq] at hd
    exact (h.rates d rate hd).cons _
  · rw [heq, get?_foldl_writeRate] at hd
    split_ifs at hd with hpassed
    · cases hw : writtenRate rt st s r d with
      | none =>
          rw [hw] at hd
          exact (h.rates d rate hd).cons _
      | some written =>
          rw [hw] at hd
          cases hd
          exact ⟨_, List.mem_cons_self, rfl, hpassed⟩
    · exact (h.rates d rate hd).cons _

section Snapshot

variable {u : State} (hrec : Recorded s blk.time) (h : Remembered s blk.time ends)
  (hsnapshot : u.priceSnapshot = s.priceSnapshot) {last : PeriodEnd}
  (hrates : last.rates = u.exchangeRate) (htime : last.time = GoTime.unix blk.time)
include hrec h hsnapshot hrates htime

theorem taken_takePriceSnapshot {k : ℤ} {x : PriceSnapshot}
    (hk : (takePriceSnapshot blk u).priceSnapshot.get? k = some x) :
    ∃ e earlier, TakenAt (last :: ends) k e earlier ∧ x.priceSnapshotItems = itemsOf e.rates := by
  by_cases hnil : u.exchangeRate.entries = []
  · rw [takePriceSnapshot_of_nil blk hnil, hsnapshot] at hk
    obtain ⟨e, earlier, htaken, hitems⟩ := h.taken k x hk
    exact ⟨e, earlier, htaken.cons (Or.inl (hrates ▸ hnil)), hitems⟩
  · rw [takePriceSnapshot_of_ne blk hnil] at hk
    have hstored := get?_of_addPriceSnapshot hk
    rw [SortedMap.get?_insert, hsnapshot] at hstored
    split_ifs at hstored with hnow
    · cases hstored
      refine ⟨last, ends, ⟨htime.trans hnow, [], rfl, fun e he => absurd he List.not_mem_nil⟩, ?_⟩
      rw [hrates]
      rfl
    · obtain ⟨e, earlier, htaken, hitems⟩ := h.taken k x hstored
      have hlt : k < last.time := by
        rw [htime]
        exact lt_of_le_of_ne (hrec.stamped k x hstored).2.2 (Ne.symm hnow)
      exact ⟨e, earlier, htaken.cons (Or.inr hlt), hitems⟩

theorem kept_takePriceSnapshot {e : PeriodEnd} (he : e ∈ last :: ends) (hne : e.rates.entries ≠ [])
    {k : ℤ} (hk : k ∈ (takePriceSnapshot blk u).priceSnapshot.keys) (hle : k ≤ e.time) :
    e.time ∈ (takePriceSnapshot blk u).priceSnapshot.keys := by
  by_cases hnil : u.exchangeRate.entries = []
  · rw [takePriceSnapshot_of_nil blk hnil, hsnapshot] at hk ⊢
    obtain rfl | hold := List.mem_cons.mp he
    · exact absurd (hrates ▸ hnil) hne
    · exact h.kept e hold hne k hk hle
  · rw [takePriceSnapshot_of_ne blk hnil] at hk ⊢
    have hstamp : ∀ k x, u.priceSnapshot.get? k = some x → x.snapshotTimestamp = k := by
      rw [hsnapshot]
      exact fun k x hk => (hrec.stamped k x hk).1
    apply mem_keys_addPriceSnapshot hstamp hk _ hle
    rw [SortedMap.mem_keys_iff_isSome, SortedMap.get?_insert]
    by_cases hnow : GoTime.unix blk.time = e.time
    · rw [if_pos hnow]
      rfl
    · rw [if_neg hnow, ← SortedMap.mem_keys_iff_isSome, hsnapshot]
      have hold : e ∈ ends := by
        obtain rfl | hold := List.mem_cons.mp he
        · exact absurd htime.symm hnow
        · exact hold
      have hpast := h.past e hold
      -- a time other than now was stored before, so the period end was kept then
      obtain ⟨x, hx⟩ := SortedMap.mem_keys.mp hk
      have hstored := get?_of_addPriceSnapshot hx
      rw [SortedMap.get?_insert, hsnapshot] at hstored
      split_ifs at hstored with hknow
      · dsimp only at hknow
        omega
      · exact h.kept e hold hne k (SortedMap.mem_keys.mpr ⟨x, hstored⟩) hle

end Snapshot

variable (blk) in
theorem remembered_tallyPeriod (hrec : Recorded s blk.time) (h : Remembered s blk.time ends)
    (ht : tallyPeriod rt o blk st s = .ok t) :
    Remembered t blk.time (ended rt blk st s t :: ends) := by
  have htraced : ∀ d rate, t.exchangeRate.get? d = some rate →
      Traced (ended rt blk st s t :: ends) d rate := fun d rate => traced_tallyPeriod h ht
  obtain ⟨u, rfl, hrates, hsnapshot⟩ := tallyPeriod_snapshot ht
  refine ⟨List.forall_mem_cons.mpr ⟨le_rfl, h.past⟩, htraced, fun e earlier hsuffix => ?_,
    fun k x hk => ?_, fun e he hne k hk hle => ?_⟩
  · obtain heq | hold := List.suffix_cons_iff.mp hsuffix
    · cases heq
      exact htraced
    · exact h.left e earlier hold
  · exact taken_takePriceSnapshot hrec h hsnapshot hrates.symm rfl hk
  · exact kept_takePriceSnapshot hrec h hsnapshot hrates.symm rfl he hne hk hle

end History

section Window

variable {blk : Block} {s : State} {lookBackSeconds : ℕ} {ends : List PeriodEnd}

/-- A rate of the denomination, written where its ballot passed, was left by a
period end after which every one that left rates lies at `start` or later. -/
def StoredWithin (start : ℤ) (d : String) (ends : List PeriodEnd) : Prop :=
  ∃ later e earlier rate, ends = later ++ e :: earlier ∧
    (∀ e' ∈ later, e'.rates.entries = [] ∨ start ≤ e'.time) ∧
    e.rates.get? d = some rate ∧ Traced (e :: earlier) d rate

/-- What lies in the window as 64-bit arithmetic has it lies in the window. -/
theorem start_le {t : ℤ} (hlast : blk.time ≤ GoTime.lastTimestamp) (hpos : 0 ≤ blk.time)
    (ht : GoTime.unix 0 ≤ t)
    (h : GoTime.int64 (GoTime.unix blk.time - GoTime.int64 lookBackSeconds) ≤ t) :
    GoTime.unix blk.time - lookBackSeconds ≤ t := by
  have hhi := unix_mono hlast
  have hlo := unix_mono hpos
  simp only [GoTime.unix, GoTime.lastTimestamp, GoTime.unixEpochSeconds] at hhi hlo ht h ⊢
  by_cases hshort : (lookBackSeconds : ℤ) < 2 ^ 62
  · rw [GoTime.int64_of_bounds (z := lookBackSeconds) (by omega) (by omega),
      GoTime.int64_of_bounds (by omega) (by omega)] at h
    exact h
  · omega

variable (blk) in
/-- A denomination with samples in a window has been stored within it. -/
theorem storedWithin_of_samples (hrec : Recorded s blk.time) (hpos : 0 ≤ blk.time)
    (hlast : blk.time ≤ GoTime.lastTimestamp) (h : Remembered s blk.time ends) {d : String}
    (hsamples : samplesIn blk s lookBackSeconds d ≠ []) :
    StoredWithin (GoTime.unix blk.time - lookBackSeconds) d ends := by
  obtain ⟨sample, hsample⟩ := List.exists_mem_of_ne_nil _ hsamples
  unfold samplesIn at hsample
  split_ifs at hsample
  · obtain ⟨⟨seconds, item⟩, hitem, rfl, _⟩ := mem_samplesOf hsample
    obtain ⟨x, hx, hmem, hlater⟩ := mem_examined hrec.sorted hitem
    obtain ⟨k, hk⟩ := mem_snapshots.mp hx
    obtain ⟨e, earlier, ⟨htime, later, rfl, hafter⟩, hitems⟩ := h.taken k x hk
    rw [hitems] at hmem
    obtain ⟨⟨d, rate⟩, hrate, rfl⟩ := List.mem_map.mp hmem
    have hget := SortedMap.get?_eq_some.mpr hrate
    have hstamp := (hrec.stamped k x hk).1
    refine ⟨later, e, earlier, rate, rfl, fun e' he' => ?_, hget,
      h.left e earlier (List.suffix_append _ _) d rate hget⟩
    -- a later period end that left rates is still recorded, so the window reaches it
    obtain hempty | hlt := hafter e' he'
    · exact Or.inl hempty
    · by_cases hempty : e'.rates.entries = []
      · exact Or.inl hempty
      · apply Or.inr
        have hkept := h.kept e' (List.mem_append_left _ he') hempty k
          (SortedMap.mem_keys.mpr ⟨x, hk⟩) hlt.le
        obtain ⟨x', hx'⟩ := SortedMap.mem_keys.mp hkept
        obtain ⟨hstamp', hlo, _⟩ := hrec.stamped e'.time x' hx'
        have hstart := hlater x' (mem_snapshots.mpr ⟨_, hx'⟩) (by rw [hstamp, hstamp']; exact hlt)
        rw [hstamp'] at hstart
        exact start_le hlast hpos hlo hstart
  · exact absurd hsample List.not_mem_nil

end Window

section Runs

variable {env : Env} {c c' : Chain} {ends : List PeriodEnd}

theorem time_of_step {e : Event} (h : step env c e = .ok c') :
    c'.time = c.time ∨ e = .beginBlock c'.time := by
  cases e with
  | stake st =>
      cases h
      exact Or.inl rfl
  | message msg =>
      cases h
      exact Or.inl rfl
  | beginBlock time =>
      simp only [step, bind_eq_ok, pure_eq_ok, Except.ok.injEq] at h
      obtain ⟨_, _, _, _, rfl⟩ := h
      exact Or.inr rfl
  | endBlock o =>
      simp only [step, bind_eq_ok, pure_eq_ok, Except.ok.injEq] at h
      obtain ⟨_, _, _, _, rfl⟩ := h
      exact Or.inl rfl

/-- The vote period that a step ends, if it ends one. -/
def periodsEnded (env : Env) (c : Chain) (e : Event) (c' : Chain) : List PeriodEnd :=
  match e with
  | .endBlock _ =>
    if c.endsPeriod then [ended env.runtime c.block c.staking c.oracle c'.oracle] else []
  | _ => []

theorem remembered_endBlock (hrec : Recorded c.oracle c.time) (h : Remembered c.oracle c.time ends)
    {o : IterationOrder} (hstep : step env c (.endBlock o) = .ok c') :
    Remembered c'.oracle c'.time (periodsEnded env c (.endBlock o) c' ++ ends) := by
  simp only [step, bind_eq_ok, pure_eq_ok, Except.ok.injEq] at hstep
  obtain ⟨_, _, s, hend, rfl⟩ := hstep
  have hperiod : if c.endsPeriod then
      tallyPeriod env.runtime o c.block c.staking c.oracle = .ok s else s = c.oracle :=
    (endBlocker_eq_ok.mp hend).2
  unfold periodsEnded
  dsimp only
  split_ifs at hperiod ⊢
  · exact remembered_tallyPeriod c.block hrec h hperiod
  · rw [hperiod]
    exact h

/-- A step whose time does not go back keeps the history an account of the store. -/
theorem remembered_step (hrec : Recorded c.oracle c.time) (h : Remembered c.oracle c.time ends)
    {e : Event} (hstep : step env c e = .ok c') (htime : c.time ≤ c'.time) :
    Remembered c'.oracle c'.time (periodsEnded env c e c' ++ ends) := by
  cases e with
  | stake st =>
      cases hstep
      exact h
  | message msg =>
      obtain ⟨_, hdelivered⟩ := delivered_message hstep
      apply h.mono htime _ hdelivered.priceSnapshot
      intro d rate hd
      exact hdelivered.exchangeRate ▸ hd
  | beginBlock time =>
      simp only [step, bind_eq_ok, pure_eq_ok, Except.ok.injEq] at hstep
      obtain ⟨_, _, ⟨st, s⟩, hbegin, rfl⟩ := hstep
      obtain ⟨_, _, hframe, _⟩ := beginBlocker_frame hbegin
      apply h.mono htime (fun d rate => rates_beginBlocker hbegin)
      rw [hframe]
  | endBlock o => exact remembered_endBlock hrec h hstep

end Runs

end Kiichain.Oracle
