import Kiichain.FeePrices
import Kiichain.OracleChain
import Kiichain.OracleSnapshots

/-!
# Runs of the oracle with fee abstraction, and the price update that stops them

The fee module's begin blocker follows the oracle's, and a block's time is a
timestamp that does not go back. The price update returns in a block exactly
when its arithmetic fits and the native denomination is priced: its samples in
the window, if it has any, span at least a second and weigh at least a unit a
second. The fallback covers a missing average only, not one of zero.
-/

namespace Kiichain.FeeAbstraction
open GoExec FixedPoint
open Oracle (Block Env)

structure Chain where
  oracle : Oracle.Chain
  fee : State

inductive Event
  | oracle (e : Oracle.Event)
  | message (msg : Msg)

def genesis (height : ℕ) (st : Oracle.Staking) (denomMetaData : SortedMap String Metadata)
    (fee : State) : Chain :=
  ⟨Oracle.genesis height st denomMetaData, fee⟩

section Step

variable (env : Env)

def step (c : Chain) : Event → Exec Chain
  | .message msg =>
    pure { c with
      fee := rolledBack c.fee (deliver env.codec env.authority c.oracle.oracle c.fee msg) }
  | .oracle (.beginBlock time) => do
    ensure (c.oracle.time ≤ time ∧ time ≤ GoTime.lastTimestamp) (.panic "no next block")
    let o ← Oracle.step env c.oracle (.beginBlock time)
    let fee ← beginBlocker o.block o.oracle c.fee
    pure ⟨o, fee⟩
  | .oracle e => do
    let o ← Oracle.step env c.oracle e
    pure ⟨o, c.fee⟩

/-- The oracle's part of a block that begins has returned. -/
def Begins (c : Chain) (time : ℤ) (o : Oracle.Chain) : Prop :=
  c.oracle.time ≤ time ∧ time ≤ GoTime.lastTimestamp ∧
    Oracle.step env c.oracle (.beginBlock time) = .ok o

variable {env} {c c' : Chain}

theorem step_beginBlock_eq_ok {time : ℤ} : step env c (.oracle (.beginBlock time)) = .ok c' ↔
    Begins env c time c'.oracle ∧
      beginBlocker c'.oracle.block c'.oracle.oracle c.fee = .ok c'.fee := by
  simp only [step, bind_eq_ok, ensure_eq_ok, exists_const, pure_eq_ok, Except.ok.injEq]
  constructor
  · rintro ⟨⟨hle, hlast⟩, o, ho, fee, hfee, rfl⟩
    exact ⟨⟨hle, hlast, ho⟩, hfee⟩
  · rintro ⟨⟨hle, hlast, ho⟩, hfee⟩
    exact ⟨⟨hle, hlast⟩, c'.oracle, ho, c'.fee, hfee, rfl⟩

/-- An event of the oracle steps it, and leaves the fee module to the begin blocker. -/
theorem oracle_of_step {e : Oracle.Event} (h : step env c (.oracle e) = .ok c') :
    Oracle.step env c.oracle e = .ok c'.oracle ∧
      (c'.fee = c.fee ∨ ∃ time, e = .beginBlock time) := by
  cases e with
  | stake st =>
      cases h
      exact ⟨rfl, Or.inl rfl⟩
  | message msg =>
      cases h
      exact ⟨rfl, Or.inl rfl⟩
  | beginBlock time => exact ⟨(step_beginBlock_eq_ok.mp h).1.2.2, Or.inr ⟨time, rfl⟩⟩
  | endBlock order =>
      simp only [step, bind_eq_ok, pure_eq_ok, Except.ok.injEq] at h
      obtain ⟨o, ho, rfl⟩ := h
      exact ⟨ho, Or.inl rfl⟩

end Step

section Native

variable (blk : Block) (oracle : Oracle.State) (s : State)

/-- Every native price that is passed on to a quotient is positive. -/
def PassesPositive : Prop :=
  ∀ twaps, s.params.enabled = true →
    defaulted (Oracle.calculateTwaps blk oracle s.params.twapLookbackWindow) [] = .ok twaps →
    (∃ token ∈ s.feeTokens, token.enabled = true ∧
      (oraclePrice (twapPriceMap twaps) token).raw ≠ 0) →
    0 < (baseTokenPrice s.params (twapPriceMap twaps)).raw

/-- The native denomination has no sample in the window, or its samples span some
seconds and weigh at least a unit a second. -/
def NativePriced (p : Params) : Prop :=
  Oracle.samplesIn blk oracle p.twapLookbackWindow p.nativeOracleDenom ≠ [] →
    (Oracle.weighed blk oracle p.twapLookbackWindow p.nativeOracleDenom).2 ≠ 0 ∧
      (Oracle.weighed blk oracle p.twapLookbackWindow p.nativeOracleDenom).2.natAbs ≤
        (Oracle.weighed blk oracle p.twapLookbackWindow p.nativeOracleDenom).1.natAbs

/-- A token that the update would price. -/
def Averaged (token : FeeTokenMetadata) : Prop :=
  token.enabled = true ∧ (averageIn blk oracle s.params token.oracleDenom).raw ≠ 0

/-- The sums of the window fit, and so do the quotient and the clamp bound of
every token to price, for which the native denomination is priced. -/
structure Updatable : Prop where
  window : Oracle.WindowFits blk oracle s.params.twapLookbackWindow
  native : ∀ token ∈ s.feeTokens, Averaged blk oracle s token → NativePriced blk oracle s.params
  quotient : ∀ token ∈ s.feeTokens, Averaged blk oracle s token →
    Decimal.Fits legacyFormat (quotient (nativePrice blk oracle s.params)
      (averageIn blk oracle s.params token.oracleDenom)).raw
  bound : ∀ token ∈ s.feeTokens, Averaged blk oracle s token →
    ClampFits token.price s.params.clampFactor

variable {blk oracle s}

theorem nativePrice_ne_zero_iff {p : Params} (hp : p.Valid) :
    (nativePrice blk oracle p).raw ≠ 0 ↔ NativePriced blk oracle p := by
  unfold nativePrice NativePriced
  split_ifs with hnil
  · exact iff_of_true hp.fallbackNativePrice_pos.ne' (fun h => absurd hnil h)
  · rw [ne_eq, averageIn, Oracle.twapIn_eq_zero_iff, not_or, not_lt, forall_prop_of_true hnil]

theorem updatable_iff (hs : s.params.Valid) : Updatable blk oracle s ↔
    Oracle.WindowFits blk oracle s.params.twapLookbackWindow ∧ AllPriceable blk oracle s := by
  constructor
  · intro h
    refine ⟨h.window, fun token htoken henabled hprice => ?_⟩
    have haveraged : Averaged blk oracle s token := ⟨henabled, hprice⟩
    exact ⟨(nativePrice_ne_zero_iff hs).mpr (h.native token htoken haveraged),
      h.quotient token htoken haveraged, h.bound token htoken haveraged⟩
  · rintro ⟨hwindow, hall⟩
    refine ⟨hwindow, fun token htoken ha => ?_, fun token htoken ha => ?_, fun token htoken ha => ?_⟩
    · exact (nativePrice_ne_zero_iff hs).mp (hall token htoken ha.1 ha.2).1
    · exact (hall token htoken ha.1 ha.2).2.1
    · exact (hall token htoken ha.1 ha.2).2.2

/-- The update reads neither the exchange rates nor the counters. -/
theorem updatable_frame (rates : SortedMap String Oracle.OracleExchangeRate)
    (counters : SortedMap Oracle.ValAddress Oracle.VotePenaltyCounter) :
    Updatable blk { oracle with exchangeRate := rates, votePenaltyCounter := counters } s ↔
      Updatable blk oracle s :=
  ⟨fun h => ⟨h.window, h.native, h.quotient, h.bound⟩,
    fun h => ⟨h.window, h.native, h.quotient, h.bound⟩⟩

theorem nativePrice_nonneg {p : Params} (hp : p.Valid) (hrec : Oracle.Recorded oracle blk.time)
    (htime : blk.time ≤ GoTime.lastTimestamp) : 0 ≤ (nativePrice blk oracle p).raw := by
  unfold nativePrice
  split_ifs
  · exact hp.fallbackNativePrice_pos.le
  · exact Oracle.twapIn_nonneg hrec htime p.nativeOracleDenom

/-- The update returns, and passes positive prices on, exactly when the module
rests or the state is updatable. -/
theorem returns_passesPositive_iff (hs : s.params.Valid) (hrec : Oracle.Recorded oracle blk.time)
    (htime : blk.time ≤ GoTime.lastTimestamp) :
    Returns (beginBlocker blk oracle s) ∧ PassesPositive blk oracle s ↔
      (s.params.enabled = true → Updatable blk oracle s) := by
  rw [returns_beginBlocker_iff hs, updatable_iff hs]
  apply and_iff_left_of_imp
  rintro h twaps henabled htwaps ⟨token, htoken, hon, hprice⟩
  rw [oraclePrice_eq htwaps] at hprice
  rw [baseTokenPrice_eq htwaps]
  have hne := ((h henabled).2 token htoken hon hprice).1
  exact lt_of_le_of_ne (nativePrice_nonneg hs hrec htime) (Ne.symm hne)

end Native

section Runs

variable (env : Env)

/-- The price update of a block that begins returns, on positive native prices. -/
def Safe (c : Chain) : Event → Prop
  | .oracle (.beginBlock time) => ∀ o, Begins env c time o →
      Returns (beginBlocker o.block o.oracle c.fee) ∧ PassesPositive o.block o.oracle c.fee
  | _ => True

/-- Before a block that begins, the module is disabled or its state updatable. -/
def Priced (c : Chain) : Event → Prop
  | .oracle (.beginBlock time) => (∃ o, Begins env c time o) → c.fee.params.enabled = true →
      Updatable ⟨c.oracle.height + 1, time⟩ c.oracle.oracle c.fee
  | _ => True

/-- What holds in every reachable state. -/
structure Sound (c : Chain) : Prop where
  conserved : Oracle.Conserved c.oracle
  recorded : Oracle.Recorded c.oracle.oracle c.oracle.time
  time_nonneg : 0 ≤ c.oracle.time
  time_le : c.oracle.time ≤ GoTime.lastTimestamp
  valid : c.fee.params.Valid

variable {env} {c c' : Chain}

theorem sound_genesis {height : ℕ} (h : height < 2 ^ 63) (st : Oracle.Staking)
    (denomMetaData : SortedMap String Metadata) {fee : State} (hfee : fee.params.Valid) :
    Sound (genesis height st denomMetaData fee) := by
  refine ⟨Oracle.conserved_genesis h st denomMetaData, ⟨fun d rate hd => ?_, fun t x hx => ?_,
    fun t x hx => ?_⟩, le_rfl, ?_, hfee⟩
  · cases hd
  · cases hx
  · cases hx
  · change (0 : ℤ) ≤ GoTime.lastTimestamp
    norm_num [GoTime.lastTimestamp]

/-- A message of the fee module leaves its state, or sets valid parameters or
valid tokens. -/
theorem message_cases {msg : Msg} (h : step env c (.message msg) = .ok c') :
    c'.oracle = c.oracle ∧ (c'.fee = c.fee ∨
      (∃ p : Params, p.Valid ∧ c'.fee = { c.fee with params := p }) ∨
      ∃ items, ValidItems items ∧ c'.fee = { c.fee with feeTokens := items }) := by
  cases h
  refine ⟨rfl, ?_⟩
  obtain ⟨_, heq⟩ | heq := rolledBack_cases c.fee
    (deliver env.codec env.authority c.oracle.oracle c.fee msg)
  · exact Or.inl heq
  · obtain ⟨p, hp, _, hset⟩ | ⟨items, hitems, _, hset⟩ := deliver_cases heq
    · exact Or.inr (Or.inl ⟨p, hp, hset⟩)
    · exact Or.inr (Or.inr ⟨items, hitems, hset⟩)

theorem sound_message (h : Sound c) (msg : Msg) (hstep : step env c (.message msg) = .ok c') :
    Sound c' := by
  obtain ⟨horacle, hfee⟩ := message_cases hstep
  refine ⟨horacle ▸ h.conserved, horacle ▸ h.recorded, horacle ▸ h.time_nonneg,
    horacle ▸ h.time_le, ?_⟩
  obtain hset | ⟨p, hp, hset⟩ | ⟨items, _, hset⟩ := hfee
  · rw [hset]
    exact h.valid
  · rw [hset]
    exact hp
  · rw [hset]
    exact h.valid

theorem recorded_message (h : Sound c) {msg : Oracle.Msg} {o : Oracle.Chain}
    (hstep : Oracle.step env c.oracle (.message msg) = .ok o) :
    Oracle.Recorded o.oracle o.time := by
  obtain ⟨hframe, hdelivered⟩ := Oracle.delivered_message hstep
  rw [hframe]
  refine ⟨fun d rate hd => ?_, fun t x hx => ?_, fun t x hx => ?_⟩
  · exact h.recorded.rates d rate (hdelivered.exchangeRate ▸ hd)
  · exact h.recorded.stamped t x (hdelivered.priceSnapshot ▸ hx)
  · exact h.recorded.items t x (hdelivered.priceSnapshot ▸ hx)

/-- What the oracle's part of a beginning block leaves. -/
theorem begins_frame (h : Sound c) {time : ℤ} {o : Oracle.Chain} (hbegins : Begins env c time o) :
    Oracle.Conserved o ∧ Oracle.Recorded o.oracle time ∧ o.block = ⟨c.oracle.height + 1, time⟩ ∧
      o.time = time ∧ ∃ rates counters, o.oracle =
        { c.oracle.oracle with exchangeRate := rates, votePenaltyCounter := counters } := by
  obtain ⟨hle, _, hstep⟩ := hbegins
  have hconserved := Oracle.conserved_beginBlock h.conserved hstep
  simp only [Oracle.step, bind_eq_ok, pure_eq_ok, Except.ok.injEq] at hstep
  obtain ⟨_, _, ⟨st, s⟩, hbegin, rfl⟩ := hstep
  refine ⟨hconserved, Oracle.recorded_beginBlocker (h.recorded.mono hle) hbegin, rfl, rfl, ?_⟩
  obtain ⟨rates, counters, hframe, _⟩ := Oracle.beginBlocker_frame hbegin
  exact ⟨rates, counters, hframe⟩

theorem sound_beginBlock (h : Sound c) {time : ℤ}
    (hstep : step env c (.oracle (.beginBlock time)) = .ok c') : Sound c' := by
  obtain ⟨hbegins, hfee⟩ := step_beginBlock_eq_ok.mp hstep
  obtain ⟨hconserved, hrecorded, _, htime, _⟩ := begins_frame h hbegins
  refine ⟨hconserved, htime ▸ hrecorded, ?_, ?_, ?_⟩
  · rw [htime]
    exact h.time_nonneg.trans hbegins.1
  · rw [htime]
    exact hbegins.2.1
  · rw [params_beginBlocker h.valid hfee]
    exact h.valid

theorem sound_endBlock (h : Sound c) {order : Oracle.IterationOrder}
    (hstep : step env c (.oracle (.endBlock order)) = .ok c') : Sound c' := by
  simp only [step, bind_eq_ok, pure_eq_ok, Except.ok.injEq] at hstep
  obtain ⟨o, ho, rfl⟩ := hstep
  have hconserved := Oracle.conserved_endBlock h.conserved ho
  simp only [Oracle.step, bind_eq_ok, pure_eq_ok, Except.ok.injEq] at ho
  obtain ⟨_, _, s, hend, rfl⟩ := ho
  exact ⟨hconserved, Oracle.recorded_endBlocker h.conserved.accepted h.recorded h.time_nonneg hend,
    h.time_nonneg, h.time_le, h.valid⟩

theorem sound_step (c : Chain) (e : Event) (c' : Chain) (h : Sound c)
    (hstep : step env c e = .ok c') : Sound c' := by
  cases e with
  | message msg => exact sound_message h msg hstep
  | oracle e =>
      cases e with
      | stake st =>
          cases hstep
          have hold := h.conserved
          exact ⟨⟨hold.valid, hold.accepted, hold.counted, hold.settled, hold.bounded,
            hold.height_lt⟩, h.recorded, h.time_nonneg, h.time_le, h.valid⟩
      | message msg =>
          simp only [step, bind_eq_ok, pure_eq_ok, Except.ok.injEq] at hstep
          obtain ⟨o, ho, rfl⟩ := hstep
          have hrecorded := recorded_message h ho
          have hconserved := Oracle.conserved_message h.conserved msg ho
          cases ho
          exact ⟨hconserved, hrecorded, h.time_nonneg, h.time_le, h.valid⟩
      | beginBlock time => exact sound_beginBlock h hstep
      | endBlock order => exact sound_endBlock h hstep

theorem safe_iff (c : Chain) (e : Event) (h : Sound c) : Safe env c e ↔ Priced env c e := by
  cases e with
  | message msg => exact Iff.rfl
  | oracle e =>
      cases e with
      | stake st => exact Iff.rfl
      | message msg => exact Iff.rfl
      | endBlock order => exact Iff.rfl
      | beginBlock time =>
          have hblock : ∀ o, Begins env c time o →
              (Returns (beginBlocker o.block o.oracle c.fee) ∧
                  PassesPositive o.block o.oracle c.fee ↔
                (c.fee.params.enabled = true →
                  Updatable ⟨c.oracle.height + 1, time⟩ c.oracle.oracle c.fee)) := by
            intro o ho
            obtain ⟨_, hrecorded, hblk, rfl, rates, counters, hframe⟩ := begins_frame h ho
            rw [returns_passesPositive_iff h.valid (hblk ▸ hrecorded) (hblk ▸ ho.2.1), hblk, hframe,
              updatable_frame]
          constructor
          · rintro hsafe ⟨o, ho⟩
            exact (hblock o ho).mp (hsafe o ho)
          · intro hpriced o ho
            exact (hblock o ho).mpr (hpriced ⟨o, ho⟩)

/-- In every run from an accepted fee genesis the price updates return, on
positive native prices, exactly when each block begins in a state whose fee
module is disabled or updatable. -/
theorem update_returns_iff_priced {height : ℕ} (hheight : height < 2 ^ 63) (st : Oracle.Staking)
    (denomMetaData : SortedMap String Metadata) (gs : GenesisState) {fee : State}
    (hgs : initGenesis gs = .ok fee) (es : List Event) :
    Runs.Along (step env) (Safe env) (genesis height st denomMetaData fee) es ↔
      Runs.Along (step env) (Priced env) (genesis height st denomMetaData fee) es :=
  Runs.along_congr sound_step safe_iff
    (sound_genesis hheight st denomMetaData (initGenesis_eq_ok.mp hgs).1) es

end Runs

namespace SameSecond

/-- Addresses are their own text, and two decimal coins parse. -/
def codec : Oracle.Codec where
  valAddressFromBech32 := .ok
  accAddressFromBech32 := .ok
  accAddress a := a
  valAddress a := a
  parseDecCoin text :=
    if text = "100ubtc" then .ok ("ubtc", .ofInt 100)
    else if text = "2kii" then .ok ("kii", .ofInt 2)
    else fail "invalid decimal coin expression: %s"
  parse_valid text denom amount h := by
    split_ifs at h <;> cases h
    · exact ⟨by decide, by decide⟩
    · exact ⟨by decide, by decide⟩

def env : Env := ⟨codec, "gov", fun st _ _ _ _ => st, .insertion⟩

def staking : Oracle.Staking := .single

def params : Oracle.Params :=
  { Oracle.defaultParams with votePeriod := 1, whitelist := [⟨"kii"⟩, ⟨"ubtc"⟩] }

def token : FeeTokenMetadata := ⟨"erc20/btc", "ubtc", 8, .ofInt 1, true⟩

def vote (exchangeRates : String) : Event :=
  .oracle (.message (.aggregateExchangeRateVote ⟨exchangeRates, "v1", "v1"⟩))

/-- A second of the year 2025, in nanoseconds. -/
def start : ℤ := 63900000000 * 1000000000

/-- The native denomination gets its first rate ten seconds after ubtc. -/
def blocks : List Event :=
  [.oracle (.beginBlock start), .oracle (.message (.updateParams ⟨"gov", params⟩)),
    .oracle (.endBlock .ascending),
    .oracle (.beginBlock (start + 1000000000)), vote "100ubtc", .oracle (.endBlock .ascending),
    .oracle (.beginBlock (start + 11000000000)), vote "100ubtc,2kii",
    .message (.updateFeeTokens ⟨"gov", [token]⟩), .oracle (.endBlock .ascending)]

def fee : State := ⟨defaultParams, []⟩

def reached : Exec Chain := Runs.run (step env) (genesis 0 staking ∅ fee) blocks

/-- The next block begins within the same second. -/
def next : ℤ := start + 11500000000

def update (c : Chain) : Option (Option Bool) :=
  (Oracle.step env c.oracle (.beginBlock next)).toOption.map
    (fun o => (beginBlocker o.block o.oracle c.fee).toOption.map (fun s => s.params.enabled))

set_option maxRecDepth 40000 in
theorem reached_update : reached.toOption.map (fun c => (c.oracle.time, update c)) =
    some (start + 11000000000, some none) := by decide

/-- The average of the native denomination is zero, and the update fails on it. -/
theorem update_halts : initGenesis defaultGenesisState = .ok fee ∧
    ¬ Runs.Along (step env) (Safe env) (genesis 0 staking ∅ fee)
      (blocks ++ [.oracle (.beginBlock next)]) := by
  refine ⟨by decide, fun hsafe => ?_⟩
  obtain ⟨c, hc, hview⟩ := exists_of_toOption_map reached_update
  simp only [Prod.mk.injEq, update] at hview
  obtain ⟨htime, hupdate⟩ := hview
  obtain ⟨o, ho, hfail⟩ := Option.map_eq_some_iff.mp hupdate
  have hnext := (((Runs.along_append _ _ _ _).mp hsafe).2 c hc).1 o
    ⟨by rw [htime]; decide, by decide, toOption_eq_some.mp ho⟩
  obtain ⟨t, ht⟩ := hnext.1
  rw [ht] at hfail
  cases hfail

theorem priced_decides :
    Runs.Along (step env) (Safe env) (genesis 0 staking ∅ fee) blocks ↔
      Runs.Along (step env) (Priced env) (genesis 0 staking ∅ fee) blocks :=
  update_returns_iff_priced (by norm_num) staking ∅ defaultGenesisState (by decide) blocks

end SameSecond

end Kiichain.FeeAbstraction
