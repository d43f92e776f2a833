import Kiichain.FeeAccuracy
import Kiichain.FeeDrift
import Kiichain.OracleBand

/-!
# Fees that a minority cannot move

From the votes on rates to what a conversion charges: while strangers are outvoted at
the ends of the vote periods, the averages lie in a band, so the price of a fee token
stays between what it was and what the band allows, and so does what is charged.
-/

namespace Kiichain.FeeAbstraction
open GoExec FixedPoint
open Oracle (Block Env Band AllRates)

/-- The least price of a token whose averages lie in the band, where the native one does
or is the fallback. -/
def lowPrice (p : Params) (band : Band) (token : FeeTokenMetadata) : LegacyDec :=
  quotient (min (band.low p.nativeOracleDenom) p.fallbackNativePrice) (band.high token.oracleDenom)

/-- The greatest such price. -/
def highPrice (p : Params) (band : Band) (token : FeeTokenMetadata) : LegacyDec :=
  quotient (max (band.high p.nativeOracleDenom) p.fallbackNativePrice) (band.low token.oracleDenom)

/-- What price updates may make of a token: they may disable it, and an enabled one has a
price between what it was and what the band allows. -/
structure Confined (p : Params) (band : Band) (before after : FeeTokenMetadata) : Prop where
  denom : after.denom = before.denom
  oracleDenom : after.oracleDenom = before.oracleDenom
  decimals : after.decimals = before.decimals
  enabled : after.enabled = true → before.enabled = true
  price : after.enabled = true → min before.price (lowPrice p band before) ≤ after.price ∧
    after.price ≤ max before.price (highPrice p band before)

section Prices

variable {band : Band} {p : Params} {blk : Block} {oracle : Oracle.State}

/-- A clamped price lies between the one before and the new one. -/
theorem between_clamped {price target clampFactor : LegacyDec} (hprice : 0 ≤ price.raw)
    (hclamp : 0 ≤ clampFactor.raw) : min price target ≤ clamped price target clampFactor ∧
      clamped price target clampFactor ≤ max price target := by
  by_cases hskip : price.raw = 0 ∨ clampFactor.raw = 0
  · rw [clamped, if_pos hskip]
    exact ⟨min_le_right _ _, le_max_right _ _⟩
  · obtain ⟨hprice0, hclamp0⟩ := not_or.mp hskip
    have htoward : Toward price target (clamped price target clampFactor) :=
      toward_clamped (lt_of_le_of_ne hprice (Ne.symm hprice0))
        (lt_of_le_of_ne hclamp (Ne.symm hclamp0))
    obtain ⟨hlow, hhigh⟩ | ⟨hlow, hhigh⟩ := htoward
    · exact ⟨(min_le_left _ _).trans hlow, hhigh.trans (le_max_right _ _)⟩
    · exact ⟨(min_le_right _ _).trans hlow, hhigh.trans (le_max_left _ _)⟩

/-- The native price that a quotient is taken of is in the band, or the fallback. -/
theorem nativePrice_between (h : AllRates band.Holds oracle) (hrec : Oracle.Recorded oracle blk.time)
    (htime : blk.time ≤ GoTime.lastTimestamp) (hne : (nativePrice blk oracle p).raw ≠ 0) :
    min (band.low p.nativeOracleDenom) p.fallbackNativePrice ≤ nativePrice blk oracle p ∧
      nativePrice blk oracle p ≤ max (band.high p.nativeOracleDenom) p.fallbackNativePrice := by
  unfold nativePrice at hne ⊢
  split_ifs at hne ⊢
  · exact ⟨min_le_right _ _, le_max_right _ _⟩
  · obtain ⟨hlow, hhigh⟩ := h.twapIn hrec htime hne
    exact ⟨(min_le_left _ _).trans hlow, hhigh.trans (le_max_left _ _)⟩

/-- The price of a token before the clamp. -/
theorem quotient_between (hp : p.Valid) {token : FeeTokenMetadata} {base price : LegacyDec}
    (hbase : min (band.low p.nativeOracleDenom) p.fallbackNativePrice ≤ base ∧
      base ≤ max (band.high p.nativeOracleDenom) p.fallbackNativePrice)
    (hprice : band.Holds token.oracleDenom price) :
    lowPrice p band token ≤ quotient base price ∧
      quotient base price ≤ highPrice p band token := by
  have hmin : (0 : LegacyDec) < min (band.low p.nativeOracleDenom) p.fallbackNativePrice :=
    lt_min (Decimal.lt_iff.mpr (band.low_pos _)) (Decimal.lt_iff.mpr hp.fallbackNativePrice_pos)
  have hpos : 0 < price.raw := (band.low_pos _).trans_le (Decimal.le_iff.mp hprice.1)
  constructor
  · exact Decimal.quotient_mono (Decimal.le_iff.mp hmin.le) hbase.1 hpos hprice.2
  · exact Decimal.quotient_mono (Decimal.le_iff.mp (hmin.le.trans hbase.1)) hbase.2
      (band.low_pos _) hprice.1

/-- One update more. -/
theorem Confined.repriced (hp : p.Valid) {before after : FeeTokenMetadata} (h : Confined p band before after)
    (hprice : 0 ≤ after.price.raw) {base price : LegacyDec}
    (hbetween : after.enabled = true → price.raw ≠ 0 →
      lowPrice p band before ≤ quotient base price ∧ quotient base price ≤ highPrice p band before) :
    Confined p band before (repriced p base price after) := by
  unfold FeeAbstraction.repriced
  split_ifs with hoff hzero
  · exact h
  · exact ⟨h.denom, h.oracleDenom, h.decimals, by simp, by simp⟩
  · refine ⟨h.denom, h.oracleDenom, h.decimals, h.enabled, fun hon => ?_⟩
    obtain ⟨hlow, hhigh⟩ := hbetween hon hzero
    obtain ⟨hleast, hmost⟩ := h.price hon
    obtain ⟨hlower, hupper⟩ := between_clamped hprice hp.clampFactor_nonneg
    constructor
    · exact (le_min hleast ((min_le_right _ _).trans hlow)).trans hlower
    · exact hupper.trans (max_le hmost (hhigh.trans (le_max_right _ _)))

end Prices

section Runs

variable {env : Env} {band : Band} {p : Params} {tokens : List FeeTokenMetadata} {c c' : Chain}

/-- Strangers are outvoted where a period ends, and nobody governs the fee module. -/
def Guarded (env : Env) (band : Band) (c : Chain) (e : Event) : Prop :=
  (∀ o, e = .oracle (.endBlock o) → Oracle.Guarded env band c.oracle) ∧ Ungoverned env c e

/-- A reachable state with rates in the band, and the tokens that a run started from. -/
structure Banded (p : Params) (band : Band) (tokens : List FeeTokenMetadata) (c : Chain) : Prop where
  stocked : Stocked c
  rates : AllRates band.Holds c.oracle.oracle
  params : c.fee.params = p
  confined : List.Forall₂ (Confined p band) tokens c.fee.feeTokens

theorem Confined.refl (p : Params) (band : Band) (token : FeeTokenMetadata) : Confined p band token token :=
  ⟨rfl, rfl, rfl, id, fun _ => ⟨min_le_left _ _, le_max_left _ _⟩⟩

theorem rates_step (hc : Banded p band tokens c) {e : Event} (hguarded : Guarded env band c e)
    (h : step env c e = .ok c') : AllRates band.Holds c'.oracle.oracle := by
  cases e with
  | message msg =>
      rw [(message_cases h).1]
      exact hc.rates
  | oracle e =>
      refine Oracle.allRates_of_guarded hc.stocked.sound.conserved.accepted hc.rates ?_
        (oracle_of_step h).1
      rintro o rfl
      exact hguarded.1 o rfl

theorem banded_step (c : Chain) (e : Event) (c' : Chain) (hc : Banded p band tokens c)
    (hguarded : Guarded env band c e) (h : step env c e = .ok c') : Banded p band tokens c' := by
  have hstocked := stocked_step c e c' hc.stocked h
  have hrates := rates_step hc hguarded h
  obtain hfee | ⟨time, rfl⟩ := fee_of_step hguarded.2 h
  · exact ⟨hstocked, hrates, hfee ▸ hc.params, hfee ▸ hc.confined⟩
  · obtain ⟨hbegins, hfee⟩ := step_beginBlock_eq_ok.mp h
    obtain ⟨_, hrec, hblock, _⟩ := begins_frame hc.stocked.sound hbegins
    have hvalid := hc.stocked.sound.valid
    have hupdate := (beginBlocker_eq_ok hvalid).mp hfee
    split_ifs at hupdate
    · exact ⟨hstocked, hrates, hupdate ▸ hc.params, hupdate ▸ hc.confined⟩
    · obtain ⟨_, hpriceable, hset⟩ := hupdate
      have hparams := hc.params
      subst hparams
      refine ⟨hstocked, hrates, by rw [hset], ?_⟩
      rw [hset, repricedTokens]
      refine List.forall₂_map_right_iff.mpr ?_
      have hboth := (List.forall₂_and_left (p := fun y => y ∈ c.fee.feeTokens) _ _).mpr
        ⟨fun _ => id, hc.confined.flip⟩
      refine hboth.flip.imp fun x y hxy => ?_
      obtain ⟨hmem, hconfined⟩ := hxy
      have htime : c'.oracle.block.time = time := by rw [hblock]
      apply hconfined.repriced hvalid (hc.stocked.prices y hmem)
      intro hon hne
      rw [← htime] at hrec
      have hlast : c'.oracle.block.time ≤ GoTime.lastTimestamp := htime ▸ hbegins.2.1
      apply quotient_between hvalid
      · exact nativePrice_between hrates hrec hlast (hpriceable y hmem hon hne).1
      · rw [← hconfined.oracleDenom]
        exact hrates.twapIn hrec hlast hne

theorem exists_of_forall₂_right {α β : Type} {R : α → β → Prop} {l : List α} {u : List β}
    (h : List.Forall₂ R l u) {b : β} (hb : b ∈ u) : ∃ a ∈ l, R a b := by
  induction h with
  | nil => cases hb
  | cons hR _ ih =>
      obtain rfl | hb := List.mem_cons.mp hb
      · exact ⟨_, List.mem_cons_self, hR⟩
      · obtain ⟨a, ha, hab⟩ := ih hb
        exact ⟨a, List.mem_cons_of_mem _ ha, hab⟩

theorem decimals_repriced (p : Params) (base price : LegacyDec) (token : FeeTokenMetadata) :
    (repriced p base price token).decimals = token.decimals := by
  unfold FeeAbstraction.repriced
  split_ifs <;> rfl

/-- No token has more decimals than the native coin. -/
def DecimalsWithin (s : State) : Prop := ∀ token ∈ s.feeTokens, token.decimals ≤ baseDenomUnit

theorem decimalsWithin_step (c : Chain) (e : Event) (c' : Chain)
    (h : Stocked c ∧ DecimalsWithin c.fee) (hstep : step env c e = .ok c') :
    Stocked c' ∧ DecimalsWithin c'.fee := by
  obtain ⟨hstocked, hdecimals⟩ := h
  refine ⟨stocked_step c e c' hstocked hstep, ?_⟩
  cases e with
  | message msg =>
      obtain hset | ⟨_, _, hset⟩ | ⟨items, hitems, hset⟩ := (message_cases hstep).2
      · rw [hset]
        exact hdecimals
      · rw [hset]
        exact hdecimals
      · rw [hset]
        exact fun token htoken => (hitems.1 token htoken).decimals_le
  | oracle e =>
      obtain hfee | ⟨time, rfl⟩ := (oracle_of_step hstep).2
      · rw [hfee]
        exact hdecimals
      · obtain ⟨_, hfee⟩ := step_beginBlock_eq_ok.mp hstep
        have hupdate := (beginBlocker_eq_ok hstocked.sound.valid).mp hfee
        split_ifs at hupdate
        · rw [hupdate]
          exact hdecimals
        · rw [hupdate.2.2]
          intro token htoken
          obtain ⟨before, hbefore, rfl⟩ := List.mem_map.mp htoken
          rw [decimals_repriced]
          exact hdecimals before hbefore

/-- What is charged lies between the amounts at the two ends of a token's prices. -/
structure ChargedWithin (p : Params) (band : Band) (token : FeeTokenMetadata)
    (amount charged : SdkInt) : Prop where
  low : roundedAmount (min token.price (lowPrice p band token)) amount token.decimals ≤ charged.val
  high : charged.val ≤ roundedAmount (max token.price (highPrice p band token)) amount token.decimals

theorem Confined.charged {before after : FeeTokenMetadata} (h : Confined p band before after)
    (hdecimals : before.decimals ≤ baseDenomUnit) (hon : after.enabled = true)
    {amount charged : SdkInt} (hamount : 0 ≤ amount.val)
    (hcharged : amountEquivalentInt after amount = .ok charged) :
    ChargedWithin p band before amount charged := by
  have hval := charged_eq (h.decimals ▸ hdecimals) hcharged
  rw [h.decimals] at hval
  obtain ⟨hlow, hhigh⟩ := h.price hon
  constructor
  · rw [hval]
    exact roundedAmount_mono_of_le (mul_le_mul_of_nonneg_left (Decimal.le_iff.mp hlow) hamount)
  · rw [hval]
    exact roundedAmount_mono_of_le (mul_le_mul_of_nonneg_left (Decimal.le_iff.mp hhigh) hamount)

end Runs

namespace OutvotedRate
open Oracle (EntriesWithin strangerPower passingTargets tallied)
open Oracle.OneStranger (codec honest)

def env : Env := { SameSecond.env with codec := codec }

def params : Oracle.Params := { Oracle.defaultParams with votePeriod := 1, whitelist := [⟨"ubtc"⟩] }

def vote (text operator : String) : Event :=
  .oracle (.message (.aggregateExchangeRateVote ⟨text, operator, operator⟩))

def start : ℤ := SameSecond.start

def before : List Event :=
  [.oracle (.beginBlock start), .oracle (.message (.updateParams ⟨"gov", params⟩)),
    .oracle (.endBlock .ascending),
    .oracle (.beginBlock (start + 1000000000)), vote "2ubtc" "v1", vote "2ubtc" "v2",
    .message (.updateFeeTokens ⟨"gov", [SameSecond.token]⟩), .oracle (.endBlock .ascending)]

/-- The third operator votes for more than four times the rate. -/
def es : List Event :=
  [.oracle (.beginBlock (start + 11000000000)), vote "2ubtc" "v1", vote "2ubtc" "v2",
    vote "9ubtc" "v3", .oracle (.endBlock .ascending), .oracle (.beginBlock (start + 21000000000))]

def band : Band := ⟨fun _ => .ofInt 1, fun _ => .ofInt 3, fun _ => by decide⟩

def fee : State := ⟨defaultParams, []⟩

/-- The stored votes of the honest lie in the band, and at most one denomination passes,
on whose ballot the stranger is in the minority. -/
def Checks (c : Oracle.Chain) : Prop :=
  EntriesWithin c.oracle honest band.low band.high ∧
    ∀ r ∈ passingTargets env.runtime c.staking c.oracle,
      ∀ d ∈ passingTargets env.runtime c.staking c.oracle, d = r ∧
        strangerPower honest (tallied env.runtime c.staking c.oracle r d) <
          (tallied env.runtime c.staking c.oracle r d).power / 2

instance (c : Oracle.Chain) : Decidable (Checks c) := inferInstanceAs (Decidable (_ ∧ _))

def ChecksAt (c : Chain) : Event → Prop
  | .oracle (.endBlock _) => Checks c.oracle
  | .oracle _ => True
  | .message _ => False

instance (c : Chain) : ∀ e, Decidable (ChecksAt c e)
  | .oracle (.endBlock _) => inferInstanceAs (Decidable (Checks c.oracle))
  | .oracle (.beginBlock _) | .oracle (.message _) | .oracle (.stake _) =>
    inferInstanceAs (Decidable True)
  | .message _ => inferInstanceAs (Decidable False)

theorem guarded_of_checks {c : Chain} {e : Event} (h : ChecksAt c e) : Guarded env band c e := by
  constructor
  · rintro o rfl _ r href
    obtain ⟨hentries, hpassing⟩ := h
    have hdivides : 0 < (Decimal.quotient (.ofInt 1) (.ofInt 3) : LegacyDec).raw := by decide
    refine ⟨honest, band, Oracle.submitWithin_of_entries hentries,
      fun d hd => (hpassing r href.1 d hd).2, fun _ _ => hdivides, fun d hd => ?_⟩
    obtain rfl := (hpassing r href.1 d hd).1
    unfold Band.lowPriced Band.highPriced
    rw [if_pos rfl, if_pos rfl]
    exact ⟨le_rfl, le_rfl⟩
  · rintro msg rfl
    exact h.elim

def reached : Exec (Bool × List LegacyDec) := do
  let c ← Runs.run (step env) (genesis 0 .trio ∅ fee) before
  let c' ← Runs.run (step env) c es
  pure (AllRates band.Holds c.oracle.oracle ∧ Runs.Along (step env) ChecksAt c es,
    c'.fee.feeTokens.map FeeTokenMetadata.price)

set_option maxRecDepth 40000 in
theorem reached_view : reached.toOption = some (true, [⟨810000000000000000⟩]) := by decide

end OutvotedRate

end Kiichain.FeeAbstraction
