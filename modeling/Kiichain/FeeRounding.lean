import Kiichain.FeeLiveness

/-!
# Enabled tokens whose price rounds away

The update disables a token without an average, but it stores whatever the
division and the clamp leave of the price. That is zero when the quotient rounds
to zero and the lower bound is not computed or rounds to zero as well.
-/

namespace Kiichain.FeeAbstraction
open GoExec FixedPoint
open Oracle (Block Env)

section Rounding

/-- The quotient is above half a unit, or the lower clamp bound is. -/
def Survives (base other prevPrice clampFactor : LegacyDec) : Prop :=
  other.raw * 500000000000000001 ≤ base.raw * (legacyFormat.scale * legacyFormat.scale) ∨
    clampFactor.raw ≠ 0 ∧
      legacyFormat.scale < 2 * (prevPrice.raw * (legacyFormat.scale - clampFactor.raw))

variable {base other prevPrice newPrice clampFactor : LegacyDec}

theorem quotient_nonneg (hbase : 0 ≤ base.raw) (hother : 0 < other.raw) :
    0 ≤ (quotient base other).raw :=
  chop_nonneg _ (Int.tdiv_nonneg (mul_nonneg hbase (by positivity)) hother.le)

theorem quotient_pos_iff (hbase : 0 ≤ base.raw) (hother : 0 < other.raw) :
    0 < (quotient base other).raw ↔ other.raw * 500000000000000001 ≤
      base.raw * (legacyFormat.scale * legacyFormat.scale) := by
  have hscaled : 0 ≤ base.raw * (legacyFormat.scale * legacyFormat.scale : ℤ) :=
    mul_nonneg hbase (by positivity)
  have hdiv := Int.tdiv_nonneg hscaled hother.le
  rw [quotient, chop_pos_iff legacyFormat.scale_pos hdiv, Int.tdiv_eq_ediv_of_nonneg hscaled,
    mul_comm other.raw, ← Int.le_ediv_iff_mul_le hother, legacyFormat_scale]
  omega

theorem lowerBound_pos_iff (hprev : 0 ≤ prevPrice.raw)
    (hclamp1 : clampFactor.raw ≤ legacyFormat.scale) :
    0 < (lowerBound prevPrice clampFactor).raw ↔
      legacyFormat.scale < 2 * (prevPrice.raw * (legacyFormat.scale - clampFactor.raw)) :=
  chop_pos_iff legacyFormat.scale_pos (mul_nonneg hprev (sub_nonneg.mpr hclamp1))

/-- A positive price stays positive under the upper bound. -/
theorem upperBound_pos (hprev : 0 ≤ prevPrice.raw) (hclamp0 : 0 ≤ clampFactor.raw)
    (hne : prevPrice.raw ≠ 0) : 0 < (upperBound prevPrice clampFactor).raw := by
  have hpos : 1 ≤ prevPrice.raw := lt_of_le_of_ne hprev (Ne.symm hne)
  have hscale : (0 : ℤ) ≤ legacyFormat.scale := by positivity
  have hsum : (legacyFormat.scale : ℤ) ≤ legacyFormat.scale + clampFactor.raw := by omega
  have hmul : (legacyFormat.scale : ℤ) ≤
      prevPrice.raw * (legacyFormat.scale + clampFactor.raw) :=
    hsum.trans (le_mul_of_one_le_left (hscale.trans hsum) hpos)
  apply (chop_pos_iff legacyFormat.scale_pos (hscale.trans hmul)).mpr
  simp only [legacyFormat_scale] at hmul ⊢
  omega

theorem clamped_pos_iff (hprev : 0 ≤ prevPrice.raw) (hclamp0 : 0 ≤ clampFactor.raw) :
    0 < (clamped prevPrice newPrice clampFactor).raw ↔ 0 < newPrice.raw ∨
      clampFactor.raw ≠ 0 ∧ 0 < (lowerBound prevPrice clampFactor).raw := by
  unfold clamped
  by_cases hskip : prevPrice.raw = 0 ∨ clampFactor.raw = 0
  · rw [if_pos hskip]
    have hlower : clampFactor.raw ≠ 0 → ¬ 0 < (lowerBound prevPrice clampFactor).raw := by
      intro hne
      rw [lowerBound, hskip.resolve_right hne]
      simp
    tauto
  · obtain ⟨hne, hclamp⟩ := not_or.mp hskip
    have hupper := upperBound_pos hprev hclamp0 hne
    rw [if_neg hskip]
    split_ifs with hbelow habove
    · have hlt := Decimal.lt_iff.mp hbelow
      exact ⟨fun h => Or.inr ⟨hclamp, h⟩, fun h => h.elim (fun h => h.trans hlt) And.right⟩
    · have hlt := Decimal.lt_iff.mp habove
      exact iff_of_true hupper (Or.inl (hupper.trans hlt))
    · have hle := Decimal.le_iff.mp (not_lt.mp hbelow)
      exact ⟨Or.inl, fun h => h.elim id (fun h => h.2.trans_le hle)⟩

variable (hprev : 0 ≤ prevPrice.raw) (hclamp0 : 0 ≤ clampFactor.raw)
  (hclamp1 : clampFactor.raw ≤ legacyFormat.scale)
include hprev hclamp0 hclamp1

theorem clamped_nonneg (hnew : 0 ≤ newPrice.raw) :
    0 ≤ (clamped prevPrice newPrice clampFactor).raw := by
  unfold clamped
  split_ifs with hskip
  · exact hnew
  · exact chop_nonneg _ (mul_nonneg hprev (sub_nonneg.mpr hclamp1))
  · exact chop_nonneg _ (mul_nonneg hprev (by positivity))
  · exact hnew

/-- The stored price of a token with a positive average. -/
theorem clamped_quotient_pos_iff (hbase : 0 ≤ base.raw) (hother : 0 < other.raw) :
    0 < (clamped prevPrice (quotient base other) clampFactor).raw ↔
      Survives base other prevPrice clampFactor := by
  rw [clamped_pos_iff hprev hclamp0,
    quotient_pos_iff hbase hother, lowerBound_pos_iff hprev hclamp1]
  rfl

end Rounding

section Update

/-- Every enabled token has a positive price. -/
def EnabledPriced (s : State) : Prop :=
  ∀ token ∈ s.feeTokens, token.enabled = true → 0 < token.price.raw

def PricesNonneg (s : State) : Prop := ∀ token ∈ s.feeTokens, 0 ≤ token.price.raw

/-- No token to price has a price that rounds away. -/
def AllSurvive (blk : Block) (oracle : Oracle.State) (s : State) : Prop :=
  ∀ token ∈ s.feeTokens, Averaged blk oracle s token →
    Survives (nativePrice blk oracle s.params) (averageIn blk oracle s.params token.oracleDenom)
      token.price s.params.clampFactor

variable {p : Params} {base price : LegacyDec} {token : FeeTokenMetadata}

theorem repriced_price_nonneg (hp : p.Valid) (hbase : 0 ≤ base.raw) (hprice : 0 ≤ price.raw)
    (htoken : 0 ≤ token.price.raw) : 0 ≤ (repriced p base price token).price.raw := by
  unfold repriced
  split_ifs with hdisabled hzero
  · exact htoken
  · exact le_rfl
  · have hpos := lt_of_le_of_ne hprice (Ne.symm hzero)
    exact clamped_nonneg htoken hp.clampFactor_nonneg hp.clampFactor_le_one
      (quotient_nonneg hbase hpos)

theorem repriced_priced_iff (hp : p.Valid) (hbase : 0 ≤ base.raw) (hprice : 0 ≤ price.raw)
    (htoken : 0 ≤ token.price.raw) :
    ((repriced p base price token).enabled = true → 0 < (repriced p base price token).price.raw) ↔
      (token.enabled = true ∧ price.raw ≠ 0 →
        Survives base price token.price p.clampFactor) := by
  unfold repriced
  split_ifs with hdisabled hzero
  · simp [hdisabled]
  · simp [hzero]
  · have hpos := lt_of_le_of_ne hprice (Ne.symm hzero)
    have henabled : token.enabled = true := by simpa using hdisabled
    simp only [henabled, forall_const, ne_eq, hzero, not_false_eq_true, and_self]
    exact clamped_quotient_pos_iff htoken hp.clampFactor_nonneg hp.clampFactor_le_one hbase hpos

variable {blk : Block} {oracle : Oracle.State} {s : State}

theorem pricesNonneg_repricedTokens (hs : s.params.Valid)
    (hrec : Oracle.Recorded oracle blk.time) (htime : blk.time ≤ GoTime.lastTimestamp)
    (h : PricesNonneg s) : PricesNonneg { s with feeTokens := repricedTokens blk oracle s } := by
  intro token' htoken'
  obtain ⟨token, htoken, rfl⟩ := List.mem_map.mp htoken'
  exact repriced_price_nonneg hs (nativePrice_nonneg hs hrec htime)
    (Oracle.twapIn_nonneg hrec htime token.oracleDenom) (h token htoken)

theorem enabledPriced_repricedTokens_iff (hs : s.params.Valid)
    (hrec : Oracle.Recorded oracle blk.time) (htime : blk.time ≤ GoTime.lastTimestamp)
    (h : PricesNonneg s) :
    EnabledPriced { s with feeTokens := repricedTokens blk oracle s } ↔
      AllSurvive blk oracle s := by
  unfold EnabledPriced AllSurvive Averaged repricedTokens
  rw [List.forall_mem_map]
  apply forall_congr'
  intro token
  apply forall_congr'
  intro htoken
  exact repriced_priced_iff hs (nativePrice_nonneg hs hrec htime)
    (Oracle.twapIn_nonneg hrec htime token.oracleDenom) (h token htoken)

end Update

section Runs

variable (env : Env)

/-- After the price update of a block every enabled token has a positive price. -/
def StaysPriced (c : Chain) : Event → Prop
  | .oracle (.beginBlock time) => ∀ o fee, Begins env c time o → c.fee.params.enabled = true →
      beginBlocker o.block o.oracle c.fee = .ok fee → EnabledPriced fee
  | _ => True

/-- No price rounds away in the price update of a block. -/
def Survived (c : Chain) : Event → Prop
  | .oracle (.beginBlock time) =>
      (∃ o fee, Begins env c time o ∧ beginBlocker o.block o.oracle c.fee = .ok fee) →
        c.fee.params.enabled = true → AllSurvive ⟨c.oracle.height + 1, time⟩ c.oracle.oracle c.fee
  | _ => True

/-- A reachable state: no stored price is negative. -/
structure Stocked (c : Chain) : Prop where
  sound : Sound c
  prices : PricesNonneg c.fee

variable {env} {c c' : Chain}

/-- A price update over what the oracle's part of the block has left. -/
theorem update_eq_ok (h : Sound c) {time : ℤ} {o : Oracle.Chain} {fee : State}
    (ho : Begins env c time o) : beginBlocker o.block o.oracle c.fee = .ok fee ↔
      if c.fee.params.enabled = false then fee = c.fee
      else Updatable ⟨c.oracle.height + 1, time⟩ c.oracle.oracle c.fee ∧
        fee = { c.fee with
          feeTokens := repricedTokens ⟨c.oracle.height + 1, time⟩ c.oracle.oracle c.fee } := by
  obtain ⟨_, _, hblk, rfl, rates, counters, hframe⟩ := begins_frame h ho
  rw [beginBlocker_eq_ok h.valid, ← and_assoc, ← updatable_iff h.valid, hblk, hframe,
    updatable_frame]
  exact Iff.rfl

theorem stocked_genesis {height : ℕ} (hheight : height < 2 ^ 63) (st : Oracle.Staking)
    (denomMetaData : SortedMap String Metadata) {gs : GenesisState} {fee : State}
    (hgs : initGenesis gs = .ok fee) : Stocked (genesis height st denomMetaData fee) := by
  obtain ⟨hparams, hitems, _⟩ := initGenesis_eq_ok.mp hgs
  refine ⟨sound_genesis hheight st denomMetaData hparams, fun token htoken => ?_⟩
  exact (hitems.1 token htoken).price_pos.le

theorem stocked_step (c : Chain) (e : Event) (c' : Chain) (h : Stocked c)
    (hstep : step env c e = .ok c') : Stocked c' := by
  refine ⟨sound_step c e c' h.sound hstep, ?_⟩
  cases e with
  | message msg =>
      obtain hset | ⟨p, _, hset⟩ | ⟨items, hitems, hset⟩ := (message_cases hstep).2
      · rw [hset]
        exact h.prices
      · rw [hset]
        exact h.prices
      · rw [hset]
        exact fun token htoken => (hitems.1 token htoken).price_pos.le
  | oracle e =>
      obtain hfee | ⟨time, rfl⟩ := (oracle_of_step hstep).2
      · rw [hfee]
        exact h.prices
      · obtain ⟨hbegins, hfee⟩ := step_beginBlock_eq_ok.mp hstep
        have hupdate := (update_eq_ok h.sound hbegins).mp hfee
        split_ifs at hupdate
        · rw [hupdate]
          exact h.prices
        · rw [hupdate.2]
          exact pricesNonneg_repricedTokens h.sound.valid (h.sound.recorded.mono hbegins.1)
            hbegins.2.1 h.prices

theorem staysPriced_iff (c : Chain) (e : Event) (h : Stocked c) :
    StaysPriced env c e ↔ Survived env c e := by
  cases e with
  | message msg => exact Iff.rfl
  | oracle e =>
      cases e with
      | stake st => exact Iff.rfl
      | message msg => exact Iff.rfl
      | endBlock order => exact Iff.rfl
      | beginBlock time =>
          have hblock : ∀ o fee, Begins env c time o → c.fee.params.enabled = true →
              beginBlocker o.block o.oracle c.fee = .ok fee →
              (EnabledPriced fee ↔
                AllSurvive ⟨c.oracle.height + 1, time⟩ c.oracle.oracle c.fee) := by
            intro o fee ho henabled hfee
            have hupdate := (update_eq_ok h.sound ho).mp hfee
            rw [if_neg (by simp [henabled])] at hupdate
            rw [hupdate.2]
            exact enabledPriced_repricedTokens_iff h.sound.valid (h.sound.recorded.mono ho.1)
              ho.2.1 h.prices
          constructor
          · rintro hstays ⟨o, fee, ho, hfee⟩ henabled
            exact (hblock o fee ho henabled hfee).mp (hstays o fee ho henabled hfee)
          · intro hsurvived o fee ho henabled hfee
            exact (hblock o fee ho henabled hfee).mpr (hsurvived ⟨o, fee, ho, hfee⟩ henabled)

/-- In every run from an accepted fee genesis the enabled tokens have positive
prices after each update exactly when no price rounds away in any of them. -/
theorem enabled_priced_iff_survived {height : ℕ} (hheight : height < 2 ^ 63) (st : Oracle.Staking)
    (denomMetaData : SortedMap String Metadata) (gs : GenesisState) {fee : State}
    (hgs : initGenesis gs = .ok fee) (es : List Event) :
    Runs.Along (step env) (StaysPriced env) (genesis height st denomMetaData fee) es ↔
      Runs.Along (step env) (Survived env) (genesis height st denomMetaData fee) es :=
  Runs.along_congr stocked_step staysPriced_iff (stocked_genesis hheight st denomMetaData hgs) es

end Runs

namespace RoundedAway
open SameSecond

/-- The least fallback price and the widest clamp that are valid. -/
def params : Params :=
  { defaultParams with fallbackNativePrice := ⟨1⟩, clampFactor := 1 }

/-- Only ubtc is voted, so the native price is the fallback. -/
def blocks : List Event :=
  [.oracle (.beginBlock start), .oracle (.message (.updateParams ⟨"gov", SameSecond.params⟩)),
    .oracle (.endBlock .ascending),
    .oracle (.beginBlock (start + 1000000000)), vote "100ubtc",
    .message (.updateParams ⟨"gov", params⟩), .message (.updateFeeTokens ⟨"gov", [token]⟩),
    .oracle (.endBlock .ascending)]

def reached : Exec Chain := Runs.run (step env) (genesis 0 staking ∅ fee) blocks

def next : ℤ := start + 11000000000

/-- The tokens that the next block stores. -/
def update (c : Chain) : Option (List (Bool × ℤ)) :=
  (Oracle.step env c.oracle (.beginBlock next)).toOption.bind (fun o =>
    (beginBlocker o.block o.oracle c.fee).toOption.map
      (fun s => s.feeTokens.map (fun token => (token.enabled, token.price.raw))))

set_option maxRecDepth 40000 in
theorem reached_update :
    reached.toOption.map (fun c => (c.oracle.time, c.fee.params.enabled, update c)) =
      some (start + 1000000000, true, some [(true, 0)]) := by decide

/-- The token is enabled at the price zero. -/
theorem enabled_at_zero : initGenesis defaultGenesisState = .ok fee ∧
    ¬ Runs.Along (step env) (StaysPriced env) (genesis 0 staking ∅ fee)
      (blocks ++ [.oracle (.beginBlock next)]) := by
  refine ⟨by decide, fun hstays => ?_⟩
  obtain ⟨c, hc, hview⟩ := exists_of_toOption_map reached_update
  simp only [Prod.mk.injEq, update] at hview
  obtain ⟨htime, henabled, hupdate⟩ := hview
  obtain ⟨o, ho, hfee⟩ := Option.bind_eq_some_iff.mp hupdate
  obtain ⟨s, hs, htokens⟩ := Option.map_eq_some_iff.mp hfee
  have hpriced := (((Runs.along_append _ _ _ _).mp hstays).2 c hc).1 o s
    ⟨by rw [htime]; decide, by decide, toOption_eq_some.mp ho⟩ henabled (toOption_eq_some.mp hs)
  have hmem : (true, (0 : ℤ)) ∈ s.feeTokens.map (fun token => (token.enabled, token.price.raw)) := by
    rw [htokens]
    exact List.mem_singleton.mpr rfl
  obtain ⟨token, htoken, heq⟩ := List.mem_map.mp hmem
  obtain ⟨hon, hzero⟩ := Prod.mk.inj heq
  have hpos := hpriced token htoken hon
  omega

theorem survived_decides :
    Runs.Along (step env) (StaysPriced env) (genesis 0 staking ∅ fee) blocks ↔
      Runs.Along (step env) (Survived env) (genesis 0 staking ∅ fee) blocks :=
  enabled_priced_iff_survived (by norm_num) staking ∅ defaultGenesisState (by decide) blocks

end RoundedAway

end Kiichain.FeeAbstraction
