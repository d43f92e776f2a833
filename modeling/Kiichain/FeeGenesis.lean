import Kiichain.FeeRounding

/-!
# The round trip of the fee genesis

An exported state is accepted back exactly when its tokens are valid. Everything
but the prices stays valid over any run; a price of zero, as the update stores
for a token that it disables, does not.
-/

namespace Kiichain.FeeAbstraction
open GoExec FixedPoint
open Oracle (Block Env)

/-- The exported genesis passes its validation, and an empty store that starts
from it holds the same parameters and the same tokens. -/
def RoundTrips (s : State) : Prop :=
  Returns (exportGenesis s).validate ∧ initGenesis (exportGenesis s) = .ok s

theorem roundTrips_iff {s : State} : RoundTrips s ↔ s.params.Valid ∧ ValidItems s.feeTokens := by
  have hinit : initGenesis (exportGenesis s) = .ok s ↔
      s.params.Valid ∧ ValidItems s.feeTokens := by
    rw [initGenesis_eq_ok, exportGenesis]
    simp
  rw [RoundTrips, hinit]
  apply and_iff_right_of_imp
  intro h
  obtain ⟨u, hu, _⟩ := bind_eq_ok.mp (hinit.mpr h)
  exact ⟨u, hu⟩

section Update

variable {p : Params} {base price : LegacyDec} {token : FeeTokenMetadata}

/-- The update touches the price and the flag only, so the price decides. -/
theorem repriced_valid_iff_price (htoken : token.Valid) :
    (repriced p base price token).Valid ↔ 0 < (repriced p base price token).price.raw := by
  refine ⟨fun h => h.price_pos, fun hpos => ?_⟩
  have hold := htoken
  unfold repriced at hpos ⊢
  split_ifs at hpos ⊢
  · exact hold
  · exact ⟨hold.denom_valid, hold.oracleDenom_valid, hold.decimals_pos, hold.decimals_le, hpos⟩
  · exact ⟨hold.denom_valid, hold.oracleDenom_valid, hold.decimals_pos, hold.decimals_le, hpos⟩

theorem repriced_valid_iff (hp : p.Valid) (hbase : 0 ≤ base.raw) (hprice : 0 ≤ price.raw)
    (htoken : token.Valid) :
    (repriced p base price token).Valid ↔
      (token.enabled = true → price.raw ≠ 0 ∧ Survives base price token.price p.clampFactor) := by
  rw [repriced_valid_iff_price htoken]
  unfold repriced
  split_ifs with hdisabled hzero
  · simp [hdisabled, htoken.price_pos]
  · have henabled : token.enabled = true := by simpa using hdisabled
    simp [henabled, hzero]
  · have henabled : token.enabled = true := by simpa using hdisabled
    have hpos := lt_of_le_of_ne hprice (Ne.symm hzero)
    simp only [henabled, forall_const, ne_eq, hzero, not_false_eq_true, true_and]
    exact clamped_quotient_pos_iff htoken.price_pos.le hp.clampFactor_nonneg hp.clampFactor_le_one
      hbase hpos

theorem denom_repriced : (repriced p base price token).denom = token.denom := by
  unfold repriced
  split_ifs
  · rfl
  · rfl
  · rfl

/-- Every enabled token has an average, and no price rounds away. -/
def AllKept (blk : Block) (oracle : Oracle.State) (s : State) : Prop :=
  ∀ token ∈ s.feeTokens, token.enabled = true →
    (averageIn blk oracle s.params token.oracleDenom).raw ≠ 0 ∧
      Survives (nativePrice blk oracle s.params) (averageIn blk oracle s.params token.oracleDenom)
        token.price s.params.clampFactor

variable {blk : Block} {oracle : Oracle.State} {s : State}

theorem validItems_repricedTokens_iff (hs : s.params.Valid)
    (hrec : Oracle.Recorded oracle blk.time) (htime : blk.time ≤ GoTime.lastTimestamp)
    (h : ValidItems s.feeTokens) :
    ValidItems (repricedTokens blk oracle s) ↔ AllKept blk oracle s := by
  have hdistinct : (repricedTokens blk oracle s).Pairwise (fun x y => x.denom ≠ y.denom) := by
    rw [repricedTokens, List.pairwise_map]
    simp only [denom_repriced]
    exact h.2
  rw [ValidItems, and_iff_left hdistinct, repricedTokens, List.forall_mem_map]
  apply forall_congr'
  intro token
  apply forall_congr'
  intro htoken
  exact repriced_valid_iff hs (nativePrice_nonneg hs hrec htime)
    (Oracle.twapIn_nonneg hrec htime token.oracleDenom) (h.1 token htoken)

end Update

section Runs

variable (env : Env)

/-- The state after the step survives an export and an import. -/
def RoundTripsAfter (c : Chain) (e : Event) : Prop :=
  ∀ c', step env c e = .ok c' → RoundTrips c'.fee

/-- A price update disables no token and rounds no price away. -/
def Kept (c : Chain) : Event → Prop
  | .oracle (.beginBlock time) =>
      (∃ o fee, Begins env c time o ∧ beginBlocker o.block o.oracle c.fee = .ok fee) →
        c.fee.params.enabled = true → AllKept ⟨c.oracle.height + 1, time⟩ c.oracle.oracle c.fee
  | _ => True

variable {env} {c c' : Chain}

theorem fee_message (hs : c.fee.params.Valid) (hitems : ValidItems c.fee.feeTokens) (msg : Msg) :
    RoundTripsAfter env c (.message msg) := by
  intro c' hstep
  rw [roundTrips_iff]
  obtain hset | ⟨p, hp, hset⟩ | ⟨items, hvalid, hset⟩ := (message_cases hstep).2
  · rw [hset]
    exact ⟨hs, hitems⟩
  · rw [hset]
    exact ⟨hp, hitems⟩
  · rw [hset]
    exact ⟨hs, hvalid⟩

/-- Only the price update of a block can leave a state that does not come back. -/
theorem roundTripsAfter_iff (c : Chain) (e : Event)
    (h : Stocked c ∧ ValidItems c.fee.feeTokens) : RoundTripsAfter env c e ↔ Kept env c e := by
  obtain ⟨hc, hitems⟩ := h
  have hkept : RoundTrips c.fee := roundTrips_iff.mpr ⟨hc.sound.valid, hitems⟩
  cases e with
  | message msg => exact iff_of_true (fee_message hc.sound.valid hitems msg) trivial
  | oracle e =>
      cases e with
      | stake st =>
          refine iff_of_true (fun c' hstep => ?_) trivial
          cases hstep
          exact hkept
      | message msg =>
          refine iff_of_true (fun c' hstep => ?_) trivial
          cases hstep
          exact hkept
      | endBlock order =>
          refine iff_of_true (fun c' hstep => ?_) trivial
          simp only [step, bind_eq_ok, pure_eq_ok, Except.ok.injEq] at hstep
          obtain ⟨o, _, rfl⟩ := hstep
          exact hkept
      | beginBlock time =>
          have hblock : ∀ o fee, Begins env c time o → beginBlocker o.block o.oracle c.fee = .ok fee →
              (RoundTrips fee ↔ (c.fee.params.enabled = true →
                AllKept ⟨c.oracle.height + 1, time⟩ c.oracle.oracle c.fee)) := by
            intro o fee ho hfee
            have hupdate := (update_eq_ok hc.sound ho).mp hfee
            by_cases henabled : c.fee.params.enabled = false
            · rw [if_pos henabled] at hupdate
              rw [hupdate]
              exact iff_of_true hkept (by simp [henabled])
            · rw [if_neg henabled] at hupdate
              rw [hupdate.2, roundTrips_iff, and_iff_right hc.sound.valid,
                validItems_repricedTokens_iff hc.sound.valid (hc.sound.recorded.mono ho.1) ho.2.1
                  hitems]
              simp [henabled]
          constructor
          · rintro hafter ⟨o, fee, ho, hfee⟩
            apply (hblock o fee ho hfee).mp
            exact hafter ⟨o, fee⟩ (step_beginBlock_eq_ok.mpr ⟨ho, hfee⟩)
          · intro hk c' hstep
            obtain ⟨hbegins, hfee⟩ := step_beginBlock_eq_ok.mp hstep
            exact (hblock _ _ hbegins hfee).mpr (hk ⟨_, _, hbegins, hfee⟩)

/-- In every run from an accepted fee genesis each state reached survives an
export and an import exactly when each price update finds an average for all
enabled tokens and rounds no price away. -/
theorem roundTrips_iff_kept {height : ℕ} (hheight : height < 2 ^ 63) (st : Oracle.Staking)
    (denomMetaData : SortedMap String Metadata) (gs : GenesisState) {fee : State}
    (hgs : initGenesis gs = .ok fee) (es : List Event) :
    Runs.Along (step env) (RoundTripsAfter env) (genesis height st denomMetaData fee) es ↔
      Runs.Along (step env) (Kept env) (genesis height st denomMetaData fee) es := by
  apply Runs.along_congr_while (I := fun c => Stocked c ∧ ValidItems c.fee.feeTokens) _
    roundTripsAfter_iff
  · exact ⟨stocked_genesis hheight st denomMetaData hgs, (initGenesis_eq_ok.mp hgs).2.1⟩
  · rintro c e c' ⟨hc, _⟩ hafter hstep
    exact ⟨stocked_step c e c' hc hstep, (roundTrips_iff.mp (hafter c' hstep)).2⟩

end Runs

namespace Unpriced
open SameSecond

/-- The token is listed before its denomination has a rate, and the next block
disables it. -/
def blocks : List Event :=
  [.oracle (.beginBlock start), .oracle (.message (.updateParams ⟨"gov", SameSecond.params⟩)),
    .oracle (.endBlock .ascending), .message (.updateFeeTokens ⟨"gov", [token]⟩),
    .oracle (.beginBlock (start + 1000000000))]

def reached : Exec Chain := Runs.run (step env) (genesis 0 staking ∅ fee) blocks

set_option maxRecDepth 40000 in
theorem reached_export :
    reached.toOption.map (fun c => (c.fee.feeTokens, (exportGenesis c.fee).validate.toOption)) =
      some ([⟨"erc20/btc", "ubtc", 8, 0, false⟩], none) := by decide

/-- The exported genesis is refused. -/
theorem export_refused : initGenesis defaultGenesisState = .ok fee ∧
    ∃ c, Runs.run (step env) (genesis 0 staking ∅ fee) blocks = .ok c ∧ ¬ RoundTrips c.fee := by
  obtain ⟨c, hc, hview⟩ := exists_of_toOption_map reached_export
  refine ⟨by decide, c, hc, fun h => ?_⟩
  obtain ⟨u, hu⟩ := h.1
  rw [hu] at hview
  cases (Prod.mk.inj hview).2

theorem kept_decides :
    Runs.Along (step env) (RoundTripsAfter env) (genesis 0 staking ∅ fee) blocks ↔
      Runs.Along (step env) (Kept env) (genesis 0 staking ∅ fee) blocks :=
  roundTrips_iff_kept (by norm_num) staking ∅ defaultGenesisState (by decide) blocks

end Unpriced

end Kiichain.FeeAbstraction
