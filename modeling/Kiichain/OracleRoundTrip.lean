import Kiichain.OracleGenesis
import Kiichain.OracleSnapshots

/-!
# The round trip of the oracle genesis along a run

Whatever a run stores comes under addresses that parse to themselves and
snapshots under their time, so an exported genesis always imports, and the store
comes back exactly where it has no vote targets and only fresh rates.
-/

namespace Kiichain.Oracle
open GoExec FixedPoint

/-- What the run asks of the address codec and of staking's slash: the text of a
parsed address, or of an account's operator address, parses to itself, and a
slash adds no validator. -/
structure Canonical (env : Env) : Prop where
  account : ∀ text a, env.codec.accAddressFromBech32 text = .ok a →
    env.codec.accAddressFromBech32 a = .ok a
  operator : ∀ text a, env.codec.valAddressFromBech32 text = .ok a →
    env.codec.valAddressFromBech32 a = .ok a
  owner : ∀ text a, env.codec.accAddressFromBech32 text = .ok a →
    env.codec.valAddressFromBech32 (env.codec.valAddress a) = .ok (env.codec.valAddress a)
  slash : ∀ st consAddr height power fraction, ∀ a ∈
    (env.slash st consAddr height power fraction).validators.keys, a ∈ st.validators.keys

/-- The operators of the validator set are canonical. -/
def Operators (codec : Codec) (st : Staking) : Prop :=
  ∀ a ∈ st.validators.keys, codec.valAddressFromBech32 a = .ok a

section Blocks

variable {env : Env} {blk : Block} {st st' : Staking} {s t : State}

theorem operators_slashAndReset {params : Params} (henv : Canonical env)
    {acc acc' : Staking × SortedMap ValAddress VotePenaltyCounter}
    {entry : ValAddress × VotePenaltyCounter} (hst : Operators env.codec acc.1)
    (h : slashAndReset env.slash blk params acc entry = .ok acc') :
    Operators env.codec acc'.1 := by
  unfold slashAndReset at h
  split_ifs at h
  · cases h
    exact hst
  · rw [bind_eq_ok] at h
    obtain ⟨st₁, hslash, h⟩ := h
    cases h
    rw [slashOperator, bind_eq_ok] at hslash
    obtain ⟨rate, _, hslash⟩ := hslash
    split_ifs at hslash
    · rw [bind_eq_ok] at hslash
      obtain ⟨validator, _, hslash⟩ := hslash
      split_ifs at hslash
      · rw [bind_eq_ok] at hslash
        obtain ⟨consAddr, _, hslash⟩ := hslash
        cases hslash
        exact fun a ha => hst a (henv.slash _ _ _ _ _ a ha)
      · cases hslash
        exact hst
    · cases hslash
      exact hst

theorem operators_beginBlocker (henv : Canonical env) (hst : Operators env.codec st)
    (h : beginBlocker env.slash blk st s = .ok (st', t)) : Operators env.codec st' := by
  rw [beginBlocker, bind_eq_ok] at h
  obtain ⟨last, _, h⟩ := h
  split_ifs at h
  · rw [bind_eq_ok] at h
    obtain ⟨⟨st₁, s₁⟩, hreset, h⟩ := h
    rw [slashAndResetCounters, bind_eq_ok] at hreset
    obtain ⟨⟨st₂, counters⟩, hloop, hreset⟩ := hreset
    cases hreset
    cases h
    exact foldlM_invariant (I := fun acc => Operators env.codec acc.1)
      (fun _ _ _ _ hacc hturn => operators_slashAndReset henv hacc hturn) hst hloop
  · cases h
    exact hst

theorem keyed_beginBlocker {codec : Codec} {slash : Slash} (hs : Keyed codec s)
    (h : beginBlocker slash blk st s = .ok (st', t)) : Keyed codec t := by
  obtain ⟨rates, counters, rfl, hget⟩ := beginBlocker_frame h
  refine ⟨hs.delegations, fun a counter ha => ?_, hs.votes, hs.snapshots⟩
  rw [hget] at ha
  split_ifs at ha
  exact hs.counters a counter ha

/-- A counter that is there after a count was there before, or is of a claim. -/
theorem get?_countVotes {o : IterationOrder} {targets : ℕ} {claims : ClaimMap} {u : State}
    {a : ValAddress} {x : VotePenaltyCounter}
    (h : (countVotes o targets claims u).votePenaltyCounter.get? a = some x) :
    (∃ y, u.votePenaltyCounter.get? a = some y) ∨
      ∃ b c, claims.get? b = some c ∧ c.recipient = a := by
  have hfold : ∀ (l : List ValAddress) (u : State) {x : VotePenaltyCounter},
      (l.foldl (countVote targets claims) u).votePenaltyCounter.get? a = some x →
        (∃ y, u.votePenaltyCounter.get? a = some y) ∨
          ∃ b c, claims.get? b = some c ∧ c.recipient = a := by
    intro l
    induction l with
    | nil => exact fun u x hx => Or.inl ⟨x, hx⟩
    | cons b l ih =>
        intro u x hx
        obtain ⟨y, hy⟩ | hclaim := ih _ hx
        · unfold countVote at hy
          cases hc : claims.get? b with
          | none =>
              rw [hc] at hy
              exact Or.inl ⟨y, hy⟩
          | some c =>
              simp only [hc, countOutcome_eq, setVotePenaltyCounter, SortedMap.get?_insert] at hy
              split_ifs at hy with hrecipient
              · exact Or.inr ⟨b, c, hc, hrecipient⟩
              · exact Or.inl ⟨y, hy⟩
        · exact Or.inr hclaim
  exact hfold _ u h

theorem keyed_endBlocker {codec : Codec} {rt : Runtime} {o : IterationOrder}
    (haccepted : AcceptedVotes s) (hvalid : s.params.Valid) (hs : Keyed codec s)
    (hst : Operators codec st) (h : endBlocker rt o blk st s = .ok t) : Keyed codec t := by
  have hperiod := (endBlocker_eq_ok.mp h).2
  split_ifs at hperiod
  · obtain ⟨claims, v, hclaims, hv, hcounters⟩ := exists_periodClaims haccepted hvalid hperiod
    obtain ⟨_, hclear, hdelegations⟩ := tallyPeriod_frame hperiod
    obtain ⟨u, rfl, _, hsnapshot⟩ := tallyPeriod_snapshot hperiod
    refine ⟨fun a feeder ha => ?_, fun a x ha => ?_, fun a vote ha => ?_, fun k x hk => ?_⟩
    · rw [hdelegations] at ha
      exact hs.delegations a feeder ha
    · rw [hcounters] at ha
      obtain ⟨y, hy⟩ | ⟨b, c, hc, rfl⟩ := get?_countVotes ha
      · rw [hv] at hy
        exact hs.counters a y hy
      · obtain ⟨hrecipient, hbonded⟩ := recipient_of_periodClaims haccepted hclaims hc
        obtain ⟨validator, hvalidator, _⟩ := hbonded
        rw [hrecipient]
        exact hst b (SortedMap.mem_keys.mpr ⟨validator, hvalidator⟩)
    · rw [hclear] at ha
      cases ha
    · obtain hold | ⟨rfl, rfl⟩ := get?_takePriceSnapshot hk
      · exact hs.snapshots k x (hsnapshot ▸ hold)
      · rfl
  · rw [hperiod]
    exact hs

end Blocks

section Runs

variable {env : Env} {c c' : Chain}

theorem keyed_deliver (henv : Canonical env) {st : Staking} {s t : State} (hs : Keyed env.codec s)
    {msg : Msg} (h : deliver env.codec env.authority st s msg = .ok t) : Keyed env.codec t := by
  cases msg with
  | aggregateExchangeRateVote msg =>
      obtain ⟨a, vote, haddress, haccepted, rfl⟩ := deliver_vote_eq h
      refine ⟨hs.delegations, hs.counters, fun b w hb => ?_, hs.snapshots⟩
      rw [SortedMap.get?_insert] at hb
      split_ifs at hb with hab
      · cases hb
        rw [haccepted.voter_eq, ← hab]
        exact henv.operator _ a haddress
      · exact hs.votes b w hb
  | delegateFeedConsent msg =>
      simp only [deliver, delegateFeedConsent, bind_eq_ok, ensure_eq_ok, exists_const, pure_eq_ok,
        Except.ok.injEq] at h
      obtain ⟨_, _, owner, howner, delegate, hdelegate, _, rfl⟩ := h
      refine ⟨fun b feeder hb => ?_, hs.counters, hs.votes, hs.snapshots⟩
      rw [SortedMap.get?_insert] at hb
      split_ifs at hb with hab
      · cases hb
        rw [← hab]
        exact ⟨henv.owner _ owner howner, henv.account _ delegate hdelegate⟩
      · exact hs.delegations b feeder hb
  | updateParams msg =>
      simp only [deliver, updateParams, bind_eq_ok, ensure_eq_ok, reworded_eq_ok, exists_const,
        pure_eq_ok, Except.ok.injEq] at h
      obtain ⟨_, _, _, rfl⟩ := h
      exact ⟨hs.delegations, hs.counters, hs.votes, hs.snapshots⟩

/-- What holds in every state that a run with canonical operators reaches. -/
structure Importable (env : Env) (c : Chain) : Prop where
  conserved : Conserved c
  keyed : Keyed env.codec c.oracle
  operators : Operators env.codec c.staking

theorem importable_genesis {height : ℕ} (hheight : height < 2 ^ 63) {st : Staking}
    (hst : Operators env.codec st) (denomMetaData : SortedMap String Metadata) :
    Importable env (genesis height st denomMetaData) := by
  refine ⟨conserved_genesis hheight st denomMetaData, ⟨?_, ?_, ?_, ?_⟩, hst⟩
  · exact fun _ _ h => by cases h
  · exact fun _ _ h => by cases h
  · exact fun _ _ h => by cases h
  · exact fun _ _ h => by cases h

theorem importable_step (henv : Canonical env) (c : Chain) (e : Event)
    (he : ∀ st, e = .stake st → Operators env.codec st) (c' : Chain) (h : Importable env c)
    (hstep : step env c e = .ok c') : Importable env c' := by
  have hconserved := conserved_step c e c' h.conserved hstep
  cases e with
  | stake st =>
      cases hstep
      exact ⟨hconserved, h.keyed, he st rfl⟩
  | message msg =>
      cases hstep
      refine ⟨hconserved, ?_, h.operators⟩
      obtain ⟨_, heq⟩ | heq := rolledBack_cases c.oracle
        (deliver env.codec env.authority c.staking c.oracle msg)
      · simp only [heq]
        exact h.keyed
      · exact keyed_deliver henv h.keyed heq
  | beginBlock time =>
      simp only [step, bind_eq_ok, pure_eq_ok, Except.ok.injEq] at hstep
      obtain ⟨_, _, ⟨st, s⟩, hbegin, rfl⟩ := hstep
      exact ⟨hconserved, keyed_beginBlocker h.keyed hbegin,
        operators_beginBlocker henv h.operators hbegin⟩
  | endBlock o =>
      simp only [step, bind_eq_ok, pure_eq_ok, Except.ok.injEq] at hstep
      obtain ⟨_, _, s, hend, rfl⟩ := hstep
      exact ⟨hconserved, keyed_endBlocker h.conserved.accepted h.conserved.valid h.keyed
        h.operators hend, h.operators⟩

/-- In every state that a run from the default genesis reaches, the exported
genesis imports at that block, and it restores the store exactly when no vote
target is stored, every exchange rate is of this block and the oldest snapshot
has not expired. -/
theorem round_trip_iff (henv : Canonical env) {height : ℕ} (hheight : height < 2 ^ 63)
    {st : Staking} (hst : Operators env.codec st) (denomMetaData : SortedMap String Metadata)
    (es : List Event) (hes : ∀ st', .stake st' ∈ es → Operators env.codec st')
    (h : Runs.run (step env) (genesis height st denomMetaData) es = .ok c) :
    RoundTrips env.codec c.block c.oracle ↔ Restorable c.block c.oracle := by
  have hc : Importable env c := by
    apply Runs.run_invariant_mem _ (importable_genesis hheight hst denomMetaData) h
    intro c e he c' hc hstep
    exact importable_step henv c e (fun st' heq => hes st' (heq ▸ he)) c' hc hstep
  exact roundTrips_iff_restorable hc.keyed

end Runs

namespace FirstPeriod
open BoundaryBlock

/-- The first block from height 0 ends a vote period of the default parameters. -/
def block : List Event := [.beginBlock 63900000000000000000, .endBlock .ascending]

def ended : Exec Chain := Runs.run (step env) (genesis 0 staking ∅) block

/-- The vote targets of a state, and those that an import of it has. -/
def targets (c : Chain) : ℕ × Option ℕ :=
  (c.oracle.voteTarget.size, (initGenesis codec (some (.module "oracle")) c.block
    (defaultGenesis ∅) (exportGenesis c.oracle)).toOption.map (fun t => t.voteTarget.size))

set_option maxRecDepth 20000 in
theorem ended_targets : ended.toOption.map targets = some (8, some 0) := by decide

/-- The eight vote targets do not come back. -/
theorem targets_lost : ∃ c, ended = .ok c ∧ ¬ RoundTrips env.codec c.block c.oracle := by
  obtain ⟨c, hc, hview⟩ := exists_of_toOption_map ended_targets
  obtain ⟨hstored, himported⟩ := Prod.mk.inj hview
  refine ⟨c, hc, fun h => ?_⟩
  obtain ⟨t, ht, hsame⟩ := h (defaultGenesis ∅) ⟨rfl, rfl, rfl, rfl, rfl, rfl⟩
  change initGenesis codec _ _ _ _ = _ at ht
  rw [ht] at himported
  have hsize : t.voteTarget.size = 0 := Option.some.inj himported
  rw [hsame.voteTarget, hstored] at hsize
  cases hsize

theorem canonical : Canonical env :=
  ⟨fun _ _ _ => rfl, fun _ _ _ => rfl, fun _ _ _ => rfl, fun _ _ _ _ _ _ h => h⟩

theorem round_trip_of_block : ∃ c, ended = .ok c ∧
    (RoundTrips env.codec c.block c.oracle ↔ Restorable c.block c.oracle) := by
  obtain ⟨c, hc, _⟩ := exists_of_toOption_map ended_targets
  exact ⟨c, hc, round_trip_iff canonical (by norm_num) (fun _ _ => rfl) ∅ block
    (fun st h => by simp [block] at h) hc⟩

end FirstPeriod

end Kiichain.Oracle
