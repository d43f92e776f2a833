import Kiichain.FeeLiveness
import Kiichain.OracleHistory

/-!
# Fee tokens on rates that nobody votes on

A rate that gets no more passing ballots is not removed, and each vote period
records it anew, so the fee tokens on it stay enabled. An enabled token rests on
a rate that was still stored at a period end the lookback window reaches.
-/

namespace Kiichain.FeeAbstraction
open GoExec FixedPoint
open Oracle (Env PeriodEnd Remembered StoredWithin)

/-- A chain with the vote periods it has ended, the latest first. -/
structure Watched where
  chain : Chain
  ends : List PeriodEnd

def Watched.genesis (height : ℕ) (st : Oracle.Staking) (denomMetaData : SortedMap String Metadata)
    (fee : State) : Watched :=
  ⟨FeeAbstraction.genesis height st denomMetaData fee, []⟩

section Watch

variable (env : Env)

def periodsEnded (c : Chain) (e : Event) (c' : Chain) : List PeriodEnd :=
  match e with
  | .message _ => []
  | .oracle e => Oracle.periodsEnded env c.oracle e c'.oracle

def watch (w : Watched) (e : Event) : Exec Watched := do
  let c ← step env w.chain e
  pure ⟨c, periodsEnded env w.chain e c ++ w.ends⟩

/-- After a price update every enabled token has an oracle denomination that meets
`P` from the start of the lookback window on. -/
def EnabledOnly (P : ℤ → String → List PeriodEnd → Prop) (w : Watched) : Event → Prop
  | .oracle (.beginBlock time) => w.chain.fee.params.enabled = true →
      ∀ w', watch env w (.oracle (.beginBlock time)) = .ok w' →
        ∀ token ∈ w'.chain.fee.feeTokens, token.enabled = true →
          P (GoTime.unix time - w.chain.fee.params.twapLookbackWindow) token.oracleDenom w'.ends
  | _ => True

/-- A ballot on the denomination passed at a period end after which every one lies
at `start` or later, so at most a vote period before it. -/
def Refreshed (start : ℤ) (d : String) (ends : List PeriodEnd) : Prop :=
  ∃ later e earlier, ends = later ++ e :: earlier ∧ (∀ e' ∈ later, start ≤ e'.time) ∧ d ∈ e.passed

/-- A period end before `start` without a passing ballot leaves nothing refreshed. -/
theorem not_refreshed_cons {start : ℤ} {d : String} {e : PeriodEnd} {ends : List PeriodEnd}
    (htime : e.time < start) (hd : d ∉ e.passed) : ¬ Refreshed start d (e :: ends) := by
  rintro ⟨later, e', earlier, heq, hlater, hpassed⟩
  cases later with
  | nil =>
      cases heq
      exact hd hpassed
  | cons first later =>
      cases heq
      exact absurd (hlater e List.mem_cons_self) (not_le_of_gt htime)

end Watch

section Invariant

variable {env : Env} {w w' : Watched}

/-- The chain is sound, and its history accounts for what the oracle stores. -/
structure Accounted (w : Watched) : Prop where
  sound : Sound w.chain
  remembered : Remembered w.chain.oracle.oracle w.chain.oracle.time w.ends

theorem watch_eq_ok {e : Event} : watch env w e = .ok w' ↔
    step env w.chain e = .ok w'.chain ∧ w'.ends = periodsEnded env w.chain e w'.chain ++ w.ends := by
  simp only [watch, bind_eq_ok, pure_eq_ok, Except.ok.injEq]
  constructor
  · rintro ⟨c, hstep, rfl⟩
    exact ⟨hstep, rfl⟩
  · intro h
    refine ⟨w'.chain, h.1, ?_⟩
    rw [← h.2]

/-- The time of the oracle does not go back. -/
theorem time_le_of_step {c c' : Chain} {e : Oracle.Event} (h : step env c (.oracle e) = .ok c') :
    c.oracle.time ≤ c'.oracle.time := by
  obtain htime | rfl := Oracle.time_of_step (oracle_of_step h).1
  · exact htime.ge
  · exact (step_beginBlock_eq_ok.mp h).1.1

theorem accounted_genesis {height : ℕ} (h : height < 2 ^ 63) (st : Oracle.Staking)
    (denomMetaData : SortedMap String Metadata) {fee : State} (hfee : fee.params.Valid) :
    Accounted (Watched.genesis height st denomMetaData fee) :=
  ⟨sound_genesis h st denomMetaData hfee, Oracle.remembered_nil rfl rfl⟩

theorem accounted_step (w : Watched) (e : Event) (w' : Watched) (h : Accounted w)
    (hstep : watch env w e = .ok w') : Accounted w' := by
  obtain ⟨hchain, hends⟩ := watch_eq_ok.mp hstep
  refine ⟨sound_step w.chain e w'.chain h.sound hchain, ?_⟩
  rw [hends]
  cases e with
  | message msg =>
      rw [(message_cases hchain).1]
      exact h.remembered
  | oracle e =>
      exact Oracle.remembered_step h.sound.recorded h.remembered (oracle_of_step hchain).1
        (time_le_of_step hchain)

end Invariant

section Enabled

variable {env : Env}

/-- A token that an update leaves enabled has an average. -/
theorem enabled_repriced {p : Params} {base price : LegacyDec} {token : FeeTokenMetadata}
    (h : (repriced p base price token).enabled = true) : price.raw ≠ 0 := by
  unfold repriced at h
  split_ifs at h with hoff hzero
  · rw [hoff] at h
    cases h
  · exact hzero

theorem oracleDenom_repriced (p : Params) (base price : LegacyDec) (token : FeeTokenMetadata) :
    (repriced p base price token).oracleDenom = token.oracleDenom := by
  unfold repriced
  split_ifs <;> rfl

/-- What an update leaves enabled has samples in the window. -/
theorem samples_of_enabled {blk : Oracle.Block} {oracle : Oracle.State} {s : State}
    {token : FeeTokenMetadata} (htoken : token ∈ repricedTokens blk oracle s)
    (henabled : token.enabled = true) :
    Oracle.samplesIn blk oracle s.params.twapLookbackWindow token.oracleDenom ≠ [] := by
  obtain ⟨before, _, rfl⟩ := List.mem_map.mp htoken
  rw [oracleDenom_repriced]
  intro hnil
  apply enabled_repriced henabled
  rw [averageIn_of_nil hnil]
  rfl

theorem enabledOnly_of_accounted (w : Watched) (e : Event) (h : Accounted w) :
    EnabledOnly env StoredWithin w e := by
  cases e with
  | message msg => trivial
  | oracle e =>
      cases e with
      | stake st => trivial
      | message msg => trivial
      | endBlock order => trivial
      | beginBlock time =>
          intro hon w' hstep token htoken henabled
          have hremembered := (accounted_step w _ w' h hstep).remembered
          obtain ⟨hbegins, hfee⟩ := step_beginBlock_eq_ok.mp (watch_eq_ok.mp hstep).1
          obtain ⟨_, hrec, _, htime, _⟩ := begins_frame h.sound hbegins
          have hupdate := (beginBlocker_eq_ok h.sound.valid).mp hfee
          rw [if_neg (by rw [hon]; exact Bool.noConfusion)] at hupdate
          rw [hupdate.2.2] at htoken
          rw [← htime] at hrec hbegins ⊢
          exact Oracle.storedWithin_of_samples w'.chain.oracle.block hrec
            (h.sound.time_nonneg.trans hbegins.1) hbegins.2.1 hremembered
            (samples_of_enabled htoken henabled)

/-- In every run from an accepted fee genesis, a token that a price update leaves
enabled rests on a rate that a passing ballot wrote and that was still stored at a
period end the lookback window reaches. -/
theorem enabled_rests_on_stored {height : ℕ} (hheight : height < 2 ^ 63) (st : Oracle.Staking)
    (denomMetaData : SortedMap String Metadata) (gs : GenesisState) {fee : State}
    (hgs : initGenesis gs = .ok fee) (es : List Event) :
    Runs.Along (watch env) (EnabledOnly env StoredWithin)
      (Watched.genesis height st denomMetaData fee) es :=
  Runs.along_of_invariant accounted_step enabledOnly_of_accounted
    (accounted_genesis hheight st denomMetaData (initGenesis_eq_ok.mp hgs).1) es

end Enabled

namespace SilentOracle
open SameSecond (env staking params token vote start)

/-- The operator votes once, and the next two vote periods end without a vote. -/
def blocks : List Event :=
  [.oracle (.beginBlock start), .oracle (.message (.updateParams ⟨"gov", params⟩)),
    .oracle (.endBlock .ascending),
    .oracle (.beginBlock (start + 1000000000)), vote "100ubtc,2kii",
    .message (.updateFeeTokens ⟨"gov", [token]⟩), .oracle (.endBlock .ascending),
    .oracle (.beginBlock (start + 200000000000)), .oracle (.endBlock .ascending),
    .oracle (.beginBlock (start + 400000000000)), .oracle (.endBlock .ascending)]

def reached : Exec Watched :=
  Runs.run (watch env) (Watched.genesis 0 staking ∅ ⟨defaultParams, []⟩) blocks

/-- Ten minutes after the vote, with a window of two. -/
def next : ℤ := start + 600000000000

/-- The state and the update that the next block makes of it. -/
def outcome : Option (Watched × Watched) :=
  reached.toOption.bind (fun w =>
    (watch env w (.oracle (.beginBlock next))).toOption.map (fun w' => (w, w')))

set_option maxRecDepth 40000 in
theorem outcome_view : outcome.map (fun p => (p.1.chain.fee.params,
    p.2.chain.fee.feeTokens.map (fun t => (t.oracleDenom, t.enabled)),
    p.2.ends.map (fun e => (e.time, e.passed)))) =
      some (defaultParams, [("ubtc", true)],
        [(GoTime.unix start + 400, []), (GoTime.unix start + 200, []),
          (GoTime.unix start + 1, ["kii", "ubtc"]), (GoTime.unix start, [])]) := by
  decide

theorem exists_outcome : ∃ w w', reached = .ok w ∧ watch env w (.oracle (.beginBlock next)) = .ok w' ∧
    w.chain.fee.params = defaultParams ∧
    (∃ token ∈ w'.chain.fee.feeTokens, token.oracleDenom = "ubtc" ∧ token.enabled = true) ∧
    ∃ e ends, w'.ends = e :: ends ∧ e.time = GoTime.unix start + 400 ∧ "ubtc" ∉ e.passed := by
  obtain ⟨⟨w, w'⟩, houtcome, hview⟩ := Option.map_eq_some_iff.mp outcome_view
  simp only [Prod.mk.injEq] at hview
  obtain ⟨hparams, htokens, hends⟩ := hview
  obtain ⟨v, hv, hupdate⟩ := Option.bind_eq_some_iff.mp houtcome
  obtain ⟨v', hv', heq⟩ := Option.map_eq_some_iff.mp hupdate
  cases heq
  refine ⟨w, w', toOption_eq_some.mp hv, toOption_eq_some.mp hv', hparams, ?_, ?_⟩
  · have hmem : ("ubtc", true) ∈ w'.chain.fee.feeTokens.map (fun t => (t.oracleDenom, t.enabled)) := by
      rw [htokens]
      exact List.mem_cons_self
    obtain ⟨token, htoken, heq⟩ := List.mem_map.mp hmem
    exact ⟨token, htoken, (Prod.mk.inj heq).1, (Prod.mk.inj heq).2⟩
  · obtain ⟨e, ends, hcons, he, _⟩ := List.map_eq_cons_iff.mp hends
    refine ⟨e, ends, hcons, (Prod.mk.inj he).1, ?_⟩
    rw [(Prod.mk.inj he).2]
    exact List.not_mem_nil

/-- The token is enabled ten minutes after the only ballot that passed. -/
theorem stays_enabled : initGenesis defaultGenesisState = .ok ⟨defaultParams, []⟩ ∧
    ¬ Runs.Along (watch env) (EnabledOnly env Refreshed)
      (Watched.genesis 0 staking ∅ ⟨defaultParams, []⟩) (blocks ++ [.oracle (.beginBlock next)]) := by
  refine ⟨by decide, fun hall => ?_⟩
  obtain ⟨w, w', hw, hw', hparams, ⟨token, htoken, hd, henabled⟩, e, ends, hends, htime, hpassed⟩ :=
    exists_outcome
  have hrefreshed := (((Runs.along_append _ _ _ _).mp hall).2 w hw).1
    (by rw [hparams]; rfl) w' hw' token htoken henabled
  rw [hd, hparams, hends] at hrefreshed
  apply not_refreshed_cons _ hpassed hrefreshed
  rw [htime]
  decide

/-- The rate of that ballot is stored at the last period end before the window. -/
theorem rests_on_stored : ∃ w w', reached = .ok w ∧
    watch env w (.oracle (.beginBlock next)) = .ok w' ∧
    StoredWithin (GoTime.unix next - 120) "ubtc" w'.ends := by
  obtain ⟨w, w', hw, hw', hparams, ⟨token, htoken, hd, henabled⟩, _⟩ := exists_outcome
  have hall : Runs.Along (watch env) (EnabledOnly env StoredWithin)
      (Watched.genesis 0 staking ∅ ⟨defaultParams, []⟩) (blocks ++ [.oracle (.beginBlock next)]) :=
    enabled_rests_on_stored (by norm_num) staking ∅ defaultGenesisState (by decide) _
  have hstored := (((Runs.along_append _ _ _ _).mp hall).2 w hw).1
    (by rw [hparams]; rfl) w' hw' token htoken henabled
  rw [hd, hparams] at hstored
  exact ⟨w, w', hw, hw', hstored⟩

end SilentOracle

end Kiichain.FeeAbstraction
