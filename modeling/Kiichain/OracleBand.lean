import Kiichain.OracleHonest
import Kiichain.OracleSnapshots

/-!
# Rates that stay in a band

While strangers are outvoted at the ends of the periods, what is written lies in the
band that the honest ranges allow. So does every stored rate and every rate that a
snapshot keeps, and an average of them does too.
-/

namespace Kiichain.Oracle
open GoExec FixedPoint

/-- A range of rates for each denomination, from a positive rate on. -/
structure Band where
  low : String → LegacyDec
  high : String → LegacyDec
  low_pos : ∀ denom, 0 < (low denom).raw

namespace Band

variable (b : Band) (r d : String)

def Holds (denom : String) (rate : LegacyDec) : Prop := b.low denom ≤ rate ∧ rate ≤ b.high denom

/-- The least price that submissions in the band allow against a reference. -/
def lowPriced : LegacyDec :=
  if d = r then b.low r else Decimal.quotient (b.low r) (Decimal.quotient (b.high r) (b.low d))

/-- The greatest price that submissions in the band allow against a reference. -/
def highPriced : LegacyDec :=
  if d = r then b.high r else Decimal.quotient (b.high r) (Decimal.quotient (b.low r) (b.high d))

end Band

/-- The honest submit in the ranges, the others are a minority in every ballot that
passes, and what the ranges allow lies in the band. -/
structure Outvoted (env : Env) (c : Chain) (r : String) (honest : ValAddress → Bool)
    (ranges band : Band) : Prop where
  within : ∀ denom, SubmitWithin c.staking c.oracle honest denom (ranges.low denom)
    (ranges.high denom)
  minority : ∀ d ∈ passingTargets env.runtime c.staking c.oracle,
    strangerPower honest (tallied env.runtime c.staking c.oracle r d) <
      (tallied env.runtime c.staking c.oracle r d).power / 2
  divides : ∀ d ∈ passingTargets env.runtime c.staking c.oracle,
    0 < (Decimal.quotient (ranges.low r) (ranges.high d)).raw
  allowed : ∀ d ∈ passingTargets env.runtime c.staking c.oracle,
    band.low d ≤ ranges.lowPriced r d ∧ ranges.highPriced r d ≤ band.high d

/-- At the end of a period some operators are honest, and the others outvoted. -/
def Guarded (env : Env) (band : Band) (c : Chain) : Prop :=
  c.endsPeriod → ∀ r, IsReference env.runtime c.staking c.oracle r →
    ∃ honest ranges, Outvoted env c r honest ranges band

/-- Every rate that is stored, or that a snapshot keeps, has a property. -/
structure AllRates (P : String → LegacyDec → Prop) (s : State) : Prop where
  stored : ∀ d r, s.exchangeRate.get? d = some r → P d r.exchangeRate
  kept : ∀ k x, s.priceSnapshot.get? k = some x →
    ∀ item ∈ x.priceSnapshotItems, P item.denom item.oracleExchangeRate.exchangeRate

instance (b : Band) (denom : String) (rate : LegacyDec) : Decidable (b.Holds denom rate) :=
  inferInstanceAs (Decidable (_ ∧ _))

theorem allRates_iff_entries {P : String → LegacyDec → Prop} {s : State} : AllRates P s ↔
    (∀ e ∈ s.exchangeRate.entries, P e.1 e.2.exchangeRate) ∧
      ∀ e ∈ s.priceSnapshot.entries, ∀ item ∈ e.2.priceSnapshotItems,
        P item.denom item.oracleExchangeRate.exchangeRate := by
  constructor
  · intro h
    exact ⟨fun e he => h.stored e.1 e.2 (SortedMap.get?_eq_some.mpr he),
      fun e he => h.kept e.1 e.2 (SortedMap.get?_eq_some.mpr he)⟩
  · rintro ⟨hstored, hkept⟩
    exact ⟨fun d r hd => hstored (d, r) (SortedMap.get?_eq_some.mp hd),
      fun k x hk => hkept (k, x) (SortedMap.get?_eq_some.mp hk)⟩

instance (P : String → LegacyDec → Prop) [∀ d r, Decidable (P d r)] (s : State) :
    Decidable (AllRates P s) :=
  decidable_of_iff _ allRates_iff_entries.symm

section Written

variable {env : Env} {c : Chain} {band ranges : Band} {honest : ValAddress → Bool} {r d : String}

/-- What is written while strangers are outvoted lies in the band. -/
theorem Outvoted.holds (h : Outvoted env c r honest ranges band) (hs : AcceptedVotes c.oracle)
    (href : IsReference env.runtime c.staking c.oracle r)
    (hd : d ∈ passingTargets env.runtime c.staking c.oracle) {rate : LegacyDec}
    (hrate : writtenRate env.runtime c.staking c.oracle r d = some rate) : band.Holds d rate := by
  have hminority : ∀ denom ∈ [r, d],
      strangerPower honest (tallied env.runtime c.staking c.oracle r denom) <
        (tallied env.runtime c.staking c.oracle r denom).power / 2 := by
    simp only [List.forall_mem_cons, List.not_mem_nil, false_implies, implies_true, and_true]
    exact ⟨h.minority r href.1, h.minority d hd⟩
  have hwithin := writtenRate_within hs href hd hrate ranges.low_pos h.within hminority
    (h.divides d hd)
  obtain ⟨hlow, hhigh⟩ := h.allowed d hd
  unfold Band.lowPriced at hlow
  unfold Band.highPriced at hhigh
  split_ifs at hwithin hlow hhigh
  · exact ⟨hlow.trans hwithin.1, hwithin.2.trans hhigh⟩
  · exact ⟨hlow.trans hwithin.1, hwithin.2.trans hhigh⟩

end Written

section Steps

variable {P : String → LegacyDec → Prop} {env : Env} {c c' : Chain}

theorem allRates_takePriceSnapshot {blk : Block} {s : State} (h : AllRates P s) :
    AllRates P (takePriceSnapshot blk s) := by
  obtain ⟨_, hsnapshot⟩ := takePriceSnapshot_frame blk s
  refine ⟨fun d r hd => h.stored d r ?_, fun k x hk item hitem => ?_⟩
  · rw [hsnapshot] at hd
    exact hd
  · obtain hold | ⟨_, rfl⟩ := get?_takePriceSnapshot hk
    · exact h.kept k x hold item hitem
    · obtain ⟨⟨d, rate⟩, he, rfl⟩ := List.mem_map.mp hitem
      exact h.stored d rate (SortedMap.get?_eq_some.mpr he)

/-- Rates are only written at the end of a period. -/
theorem allRates_step (h : AllRates P c.oracle) {e : Event}
    (hwritten : ∀ o, e = .endBlock o → c.endsPeriod → ∀ r,
      IsReference env.runtime c.staking c.oracle r →
      ∀ d ∈ passingTargets env.runtime c.staking c.oracle, ∀ rate,
        writtenRate env.runtime c.staking c.oracle r d = some rate → P d rate)
    (hstep : step env c e = .ok c') : AllRates P c'.oracle := by
  cases e with
  | stake st =>
      cases hstep
      exact h
  | message msg =>
      obtain ⟨_, hdelivered⟩ := delivered_message hstep
      exact ⟨fun d r hd => h.stored d r (hdelivered.exchangeRate ▸ hd),
        fun k x hk => h.kept k x (hdelivered.priceSnapshot ▸ hk)⟩
  | beginBlock time =>
      simp only [step, bind_eq_ok, pure_eq_ok, Except.ok.injEq] at hstep
      obtain ⟨_, _, ⟨st, s⟩, hbegin, rfl⟩ := hstep
      have hrates : ∀ d r, s.exchangeRate.get? d = some r → P d r.exchangeRate :=
        fun d r hd => h.stored d r (rates_beginBlocker hbegin hd)
      obtain ⟨_, _, rfl, _⟩ := beginBlocker_frame hbegin
      exact ⟨hrates, h.kept⟩
  | endBlock o =>
      simp only [step, bind_eq_ok, pure_eq_ok, Except.ok.injEq] at hstep
      obtain ⟨_, _, s, hend, rfl⟩ := hstep
      have hperiod : if c.endsPeriod then
          tallyPeriod env.runtime o c.block c.staking c.oracle = .ok s else s = c.oracle :=
        (endBlocker_eq_ok.mp hend).2
      split_ifs at hperiod with hlast
      · have hrates : ∀ d r, s.exchangeRate.get? d = some r → P d r.exchangeRate := by
          intro d r hget
          obtain ⟨r', value, _, href, hd, hw, hnew⟩ | ⟨_, hsame⟩ := get?_rates_tallyPeriod hperiod d
          · rw [hnew] at hget
            cases hget
            exact hwritten o rfl hlast r' href d hd value hw
          · exact h.stored d r (hsame ▸ hget)
        obtain ⟨u, rfl, hexchange, hsnapshot⟩ := tallyPeriod_snapshot hperiod
        apply allRates_takePriceSnapshot
        exact ⟨hexchange ▸ hrates, hsnapshot ▸ h.kept⟩
      · rw [hperiod]
        exact h

/-- In a band that the ends of the periods guard, the rates stay. -/
theorem allRates_of_guarded {band : Band} (hs : AcceptedVotes c.oracle)
    (h : AllRates band.Holds c.oracle) {e : Event}
    (hguarded : ∀ o, e = .endBlock o → Guarded env band c) (hstep : step env c e = .ok c') :
    AllRates band.Holds c'.oracle := by
  refine allRates_step h (fun o heq hlast r href d hd rate hrate => ?_) hstep
  obtain ⟨honest, ranges, houtvoted⟩ := hguarded o heq hlast r href
  exact houtvoted.holds hs href hd hrate

end Steps

section Average

variable {blk : Block} {s : State} {lookBackSeconds : ℕ} {lo hi : ℤ}

/-- Samples whose times do not decrease weigh between the ends of their range. -/
theorem foldl_weigh_between {l : List (ℤ × ℤ)} {acc : ℤ × ℤ} (hpos : 0 ≤ acc.2)
    (hacc : lo * acc.2 ≤ acc.1 ∧ acc.1 ≤ hi * acc.2) (hfirst : ∀ e ∈ l, acc.2 ≤ e.1)
    (hlt : ∀ e ∈ l, e.1 < 2 ^ 63) (hrate : ∀ e ∈ l, lo ≤ e.2 ∧ e.2 ≤ hi)
    (hsorted : l.Pairwise (fun e f => e.1 ≤ f.1)) :
    0 ≤ (l.foldl weigh acc).2 ∧ lo * (l.foldl weigh acc).2 ≤ (l.foldl weigh acc).1 ∧
      (l.foldl weigh acc).1 ≤ hi * (l.foldl weigh acc).2 := by
  induction l generalizing acc with
  | nil => exact ⟨hpos, hacc⟩
  | cons e l ih =>
      rw [List.pairwise_cons] at hsorted
      have hle := hfirst e List.mem_cons_self
      have hbound := hlt e List.mem_cons_self
      obtain ⟨hlow, hhigh⟩ := hrate e List.mem_cons_self
      have hdiff : GoTime.int64 (e.1 - acc.2) = e.1 - acc.2 :=
        GoTime.int64_of_bounds (by omega) (by omega)
      rw [List.foldl_cons]
      apply ih
      · exact hpos.trans hle
      · have hstep := sub_nonneg.mpr hle
        have hlower := mul_le_mul_of_nonneg_right hlow hstep
        have hupper := mul_le_mul_of_nonneg_right hhigh hstep
        simp only [weigh, hdiff]
        rw [mul_sub] at hlower hupper
        constructor
        · linarith [hacc.1]
        · linarith [hacc.2]
      · exact hsorted.1
      · exact fun f hf => hlt f (List.mem_cons_of_mem e hf)
      · exact fun f hf => hrate f (List.mem_cons_of_mem e hf)
      · exact hsorted.2

/-- The average of samples that span some seconds lies in their range. -/
theorem denomTwap_between {l : List (ℤ × ℤ)} (hlo : 0 ≤ lo)
    (htimes : (l.Pairwise (fun e f => e.1 ≤ f.1) ∧ ∀ e ∈ l, 0 ≤ e.1 ∧ e.1 < 2 ^ 63) ∨
      ∃ c, ∀ e ∈ l, e.1 = GoTime.int64 c)
    (hrate : ∀ e ∈ l, lo ≤ e.2 ∧ e.2 ≤ hi) (hne : (l.foldl weigh (0, 0)).2 ≠ 0) :
    lo ≤ (denomTwap ⟨(l.foldl weigh (0, 0)).1⟩ (l.foldl weigh (0, 0)).2).raw ∧
      (denomTwap ⟨(l.foldl weigh (0, 0)).1⟩ (l.foldl weigh (0, 0)).2).raw ≤ hi := by
  unfold denomTwap
  rw [if_pos hne]
  obtain ⟨hsorted, hbounds⟩ | ⟨c, htime⟩ := htimes
  · have hfirst : ∀ e ∈ l, (0 : ℤ) ≤ e.1 := fun e he => (hbounds e he).1
    have hlt : ∀ e ∈ l, e.1 < 2 ^ 63 := fun e he => (hbounds e he).2
    have hzero : lo * 0 ≤ 0 ∧ 0 ≤ hi * 0 := by simp
    obtain ⟨hnonneg, hlower, hupper⟩ :=
      @foldl_weigh_between lo hi l (0, 0) le_rfl hzero hfirst hlt hrate hsorted
    have hpos := lt_of_le_of_ne hnonneg hne.symm
    dsimp only
    rw [Int.tdiv_eq_ediv_of_nonneg ((mul_nonneg hlo hnonneg).trans hlower)]
    exact ⟨(Int.le_ediv_iff_mul_le hpos).mpr hlower, Int.ediv_le_of_le_mul hpos hupper⟩
  · -- all samples have one time, so the first one weighs alone
    cases l with
    | nil => exact absurd rfl hne
    | cons e l =>
        have hfirst := htime e List.mem_cons_self
        obtain ⟨hleast, hmost⟩ := GoTime.int64_bounds c
        have hself : GoTime.int64 (GoTime.int64 c) = GoTime.int64 c :=
          GoTime.int64_of_bounds hleast hmost
        have he : weigh (0, 0) e = (e.2 * GoTime.int64 c, GoTime.int64 c) := by
          simp [weigh, hfirst, hself]
        have hfold : (e :: l).foldl weigh (0, 0) = (e.2 * GoTime.int64 c, GoTime.int64 c) := by
          rw [List.foldl_cons, he]
          exact foldl_weigh_of_same (fun f hf => htime f (List.mem_cons_of_mem e hf))
        rw [hfold] at hne ⊢
        dsimp only
        rw [Int.mul_tdiv_cancel _ hne]
        exact hrate e List.mem_cons_self

/-- An average that is not zero lies where the rates it weighs lie. -/
theorem AllRates.twapIn {band : Band} (h : AllRates band.Holds s) (hrec : Recorded s blk.time)
    (htime : blk.time ≤ GoTime.lastTimestamp) {d : String}
    (hne : (Oracle.twapIn blk s lookBackSeconds d).twap.raw ≠ 0) :
    band.Holds d (Oracle.twapIn blk s lookBackSeconds d).twap := by
  have hsamples : samplesIn blk s lookBackSeconds d = samplesOf d (itemsIn blk s lookBackSeconds) := by
    by_contra hno
    rw [samplesIn, ite_eq_left_iff, not_forall] at hno
    obtain ⟨hinvalid, _⟩ := hno
    apply hne
    rw [Oracle.twapIn, weighed, samplesIn, if_neg hinvalid]
    rfl
  have hduration : (weighed blk s lookBackSeconds d).2 ≠ 0 :=
    fun hzero => hne ((twapIn_eq_zero_iff d).mpr (Or.inl hzero))
  have hrate : ∀ x ∈ samplesOf d (itemsIn blk s lookBackSeconds),
      (band.low d).raw ≤ x.2 ∧ x.2 ≤ (band.high d).raw := by
    intro x hx
    obtain ⟨t, snapshot, ht, item, hitem, rfl, hrate⟩ := exists_item hrec hx
    obtain ⟨hlow, hhigh⟩ := h.kept t snapshot ht item hitem
    exact ⟨hrate ▸ Decimal.le_iff.mp hlow, hrate ▸ Decimal.le_iff.mp hhigh⟩
  rw [weighed, hsamples] at hduration
  obtain ⟨hlow, hhigh⟩ := denomTwap_between (band.low_pos d).le (times_of_samples hrec htime d) hrate
    hduration
  simp only [Band.Holds, Oracle.twapIn, weighed, hsamples, Decimal.le_iff]
  exact ⟨hlow, hhigh⟩

end Average

end Kiichain.Oracle
