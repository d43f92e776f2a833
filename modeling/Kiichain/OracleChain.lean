import Kiichain.OracleCounts
import Kiichain.OracleMsgServer
import Kiichain.OracleSlash
import Kiichain.Runs

/-!
# Runs of the oracle and the conservation of its counters

A run mixes messages, changes of the validator set and blocks. Beside the store
the chain keeps three accounts of each operator: the period ends at which it was
bonded since the last reset, all of them, and the votes that resets settled.
-/

namespace Kiichain.Oracle
open GoExec FixedPoint

/-- The wiring of the module: address codec, authority, staking's slash, Go's runtime. -/
structure Env where
  codec : Codec
  authority : String
  slash : Slash
  runtime : Runtime

structure Chain where
  height : ℕ
  time : ℤ
  inBlock : Bool
  staking : Staking
  oracle : State
  window : ValAddress → ℕ
  ends : ValAddress → ℕ
  settled : ValAddress → ℕ

inductive Event
  | stake (st : Staking)
  | message (msg : Msg)
  | beginBlock (time : ℤ)
  | endBlock (o : IterationOrder)

namespace Chain

def block (c : Chain) : Block := ⟨c.height, c.time⟩

def counter (c : Chain) (a : ValAddress) : VotePenaltyCounter :=
  getVotePenaltyCounterOrDefault c.oracle a

def endsPeriod (c : Chain) : Prop := (c.height + 1) % c.oracle.params.votePeriod = 0

instance (c : Chain) : Decidable c.endsPeriod := inferInstanceAs (Decidable (_ = _))

/-- One for a bonded operator where the block ends a period. -/
def periodEnd (c : Chain) (a : ValAddress) : ℕ :=
  if c.endsPeriod ∧ c.staking.Bonded a then 1 else 0

/-- The next block is the last of a slash window. -/
def endsWindow (c : Chain) : Prop := (c.height + 1 + 1) % c.oracle.params.slashWindow = 0

instance (c : Chain) : Decidable c.endsWindow := inferInstanceAs (Decidable (_ = _))

end Chain

def genesis (height : ℕ) (st : Staking) (denomMetaData : SortedMap String Metadata) : Chain :=
  ⟨height, 0, false, st, defaultGenesis denomMetaData, 0, 0, 0⟩

section Step

variable (env : Env)

/-- A message that fails leaves the state. A begin or end blocker that fails ends
the chain, and heights are signed 64-bit numbers. -/
def step (c : Chain) : Event → Exec Chain
  | .stake st => pure { c with staking := st }
  | .message msg =>
    pure { c with
      oracle := rolledBack c.oracle (deliver env.codec env.authority c.staking c.oracle msg) }
  | .beginBlock time => do
    ensure (c.inBlock = false ∧ c.height + 1 < 2 ^ 63) (.panic "no next block")
    let (st, s) ← beginBlocker env.slash ⟨c.height + 1, time⟩ c.staking c.oracle
    pure ⟨c.height + 1, time, true, st, s, if c.endsWindow then 0 else c.window, c.ends,
      if c.endsWindow then fun a => c.settled a + (c.counter a).sum else c.settled⟩
  | .endBlock o => do
    ensure (c.inBlock = true) (.panic "no block to end")
    let s ← endBlocker env.runtime o c.block c.staking c.oracle
    pure { c with
      inBlock := false
      oracle := s
      window := fun a => c.window a + c.periodEnd a
      ends := fun a => c.ends a + c.periodEnd a }

end Step

section Counters

/-- One more of an outcome. -/
def VotePenaltyCounter.plus (x : Outcome) (c : VotePenaltyCounter) : VotePenaltyCounter :=
  match x with
  | .success => { c with successCount := c.successCount + 1 }
  | .abstain => { c with abstainCount := c.abstainCount + 1 }
  | .miss => { c with missCount := c.missCount + 1 }

theorem sum_plus (x : Outcome) (c : VotePenaltyCounter) : (c.plus x).sum = c.sum + 1 := by
  cases x <;> simp only [VotePenaltyCounter.plus, VotePenaltyCounter.sum] <;> omega

/-- Below the range of the counters an increment does not wrap. -/
theorem bump_eq_plus {c : VotePenaltyCounter} (h : c.sum + 1 < 2 ^ 64) (x : Outcome) :
    bump x c = c.plus x := by
  unfold VotePenaltyCounter.sum at h
  cases x <;> simp only [bump, VotePenaltyCounter.plus, increment64] <;> congr 1 <;> omega

/-- A counter without votes in a 64-bit total is empty. -/
theorem eq_zero_of_totalVotes {c : VotePenaltyCounter} (h : c.sum < 2 ^ 64)
    (hzero : c.totalVotes = 0) : c = ⟨0, 0, 0⟩ := by
  unfold VotePenaltyCounter.sum at h
  unfold VotePenaltyCounter.totalVotes at hzero
  obtain ⟨miss, abstain, success⟩ := c
  simp only at h hzero
  simp only [VotePenaltyCounter.mk.injEq]
  omega

end Counters

section Frames

variable {rt : Runtime} {o : IterationOrder} {blk : Block} {st : Staking} {s t : State}

/-- A period clears the votes and keeps the parameters and the delegations. -/
theorem tallyPeriod_frame (h : tallyPeriod rt o blk st s = .ok t) :
    t.params = s.params ∧ t.aggregateExchangeRateVote = ∅ ∧
      t.feederDelegation = s.feederDelegation := by
  obtain ⟨_, _, _, _, _, rfl⟩ := tallyPeriod_touches h
  obtain ⟨_, hsnapshot⟩ := takePriceSnapshot_frame blk _
  rw [hsnapshot]
  exact ⟨rfl, rfl, rfl⟩

theorem accepted_endBlocker (hs : AcceptedVotes s) (h : endBlocker rt o blk st s = .ok t) :
    AcceptedVotes t ∧ t.params = s.params := by
  have hperiod := (endBlocker_eq_ok.mp h).2
  split_ifs at hperiod
  · obtain ⟨hparams, hclear, _⟩ := tallyPeriod_frame hperiod
    refine ⟨fun a vote hvote => ?_, hparams⟩
    rw [hclear] at hvote
    cases hvote
  · rw [hperiod]
    exact ⟨hs, rfl⟩

end Frames

section Invariant

/-- What holds in every reachable state: valid parameters, accepted votes, and
three accounts that agree with the counters. -/
structure Conserved (c : Chain) : Prop where
  valid : c.oracle.params.Valid
  accepted : AcceptedVotes c.oracle
  counted : ∀ a, (c.counter a).sum = c.window a
  settled : ∀ a, c.ends a = c.settled a + c.window a
  bounded : ∀ a, c.window a + (if c.inBlock then 1 else 0) ≤ c.height
  height_lt : c.height < 2 ^ 63

variable {env : Env} {c c' : Chain}

theorem conserved_genesis {height : ℕ} (h : height < 2 ^ 63) (st : Staking)
    (denomMetaData : SortedMap String Metadata) : Conserved (genesis height st denomMetaData) := by
  refine ⟨Params.valid_defaultParams, fun a vote hvote => ?_, fun a => rfl, fun a => rfl,
    fun a => ?_, h⟩
  · cases hvote
  · exact Nat.zero_le _

theorem Conserved.sum_lt (h : Conserved c) (a : ValAddress) : (c.counter a).sum + 1 < 2 ^ 64 := by
  have hcounted := h.counted a
  have hbounded := h.bounded a
  have hheight := h.height_lt
  omega

/-- A message, failed or not, does to the store what a delivery may do. -/
theorem delivered_message {msg : Msg} (h : step env c (.message msg) = .ok c') :
    c' = { c with oracle := c'.oracle } ∧ Delivered c.oracle c'.oracle := by
  cases h
  refine ⟨rfl, ?_⟩
  obtain ⟨_, heq⟩ | heq := rolledBack_cases c.oracle
    (deliver env.codec env.authority c.staking c.oracle msg)
  · simp only [heq]
    exact delivered_self _
  · exact delivered_of_deliver heq

theorem conserved_message (h : Conserved c) (msg : Msg)
    (hstep : step env c (.message msg) = .ok c') : Conserved c' := by
  obtain ⟨hframe, hdelivered⟩ := delivered_message hstep
  rw [hframe]
  refine ⟨hdelivered.valid h.valid, hdelivered.accepted h.accepted, fun a => ?_, h.settled,
    h.bounded, h.height_lt⟩
  rw [← h.counted a]
  simp only [Chain.counter, getVotePenaltyCounterOrDefault, hdelivered.votePenaltyCounter]

/-- A reset empties every counter, and other begin blocks keep them. -/
theorem counter_beginBlock (h : Conserved c) {time : ℤ}
    (hstep : step env c (.beginBlock time) = .ok c') (a : ValAddress) :
    c'.counter a = if c.endsWindow then ⟨0, 0, 0⟩ else c.counter a := by
  simp only [step, bind_eq_ok, pure_eq_ok, Except.ok.injEq] at hstep
  obtain ⟨_, _, ⟨st, s⟩, hbegin, rfl⟩ := hstep
  obtain ⟨rates, counters, rfl, hget⟩ := beginBlocker_frame hbegin
  have hlt := h.sum_lt a
  simp only [Chain.counter, getVotePenaltyCounterOrDefault, hget] at hlt ⊢
  change (if c.endsWindow ∧ _ then none else _ : Option VotePenaltyCounter).getD _ = _
  by_cases hwindow : c.endsWindow
  · cases hold : c.oracle.votePenaltyCounter.get? a with
    | none => simp [hwindow]
    | some k =>
        rw [hold] at hlt
        by_cases hzero : k.totalVotes = 0
        · have hk := eq_zero_of_totalVotes (c := k) (by simp only [Option.getD_some] at hlt; omega) hzero
          simp [hwindow, hk, VotePenaltyCounter.totalVotes]
        · simp [hwindow, hzero]
  · simp [hwindow]

theorem conserved_beginBlock (h : Conserved c) {time : ℤ}
    (hstep : step env c (.beginBlock time) = .ok c') : Conserved c' := by
  have hcounter := counter_beginBlock h hstep
  simp only [step, bind_eq_ok, ensure_eq_ok, exists_const, pure_eq_ok, Except.ok.injEq] at hstep
  obtain ⟨⟨houtside, hheight⟩, ⟨st, s⟩, hbegin, rfl⟩ := hstep
  obtain ⟨rates, counters, rfl, _⟩ := beginBlocker_frame hbegin
  refine ⟨h.valid, h.accepted, fun a => ?_, fun a => ?_, fun a => ?_, hheight⟩
  · rw [hcounter a]
    by_cases hwindow : c.endsWindow
    · simp only [if_pos hwindow]
      rfl
    · simp only [if_neg hwindow]
      exact h.counted a
  · have hold := h.settled a
    have hcounted := h.counted a
    by_cases hwindow : c.endsWindow
    · simp only [if_pos hwindow, Pi.zero_apply]
      omega
    · simp only [if_neg hwindow]
      exact hold
  · have hold := h.bounded a
    rw [houtside] at hold
    by_cases hwindow : c.endsWindow
    · simp only [if_pos hwindow, Pi.zero_apply, if_true]
      omega
    · simp only [if_neg hwindow, if_true]
      simpa using hold

/-- The end of a period adds one to one counter of each bonded operator. -/
theorem counter_endBlock (h : Conserved c) {o : IterationOrder}
    (hstep : step env c (.endBlock o) = .ok c') (a : ValAddress) :
    if c.endsPeriod ∧ c.staking.Bonded a then ∃ x, c'.counter a = (c.counter a).plus x
    else c'.counter a = c.counter a := by
  simp only [step, bind_eq_ok, pure_eq_ok, Except.ok.injEq] at hstep
  obtain ⟨_, _, s, hend, rfl⟩ := hstep
  have hperiod : if c.endsPeriod then
      tallyPeriod env.runtime o c.block c.staking c.oracle = .ok s else s = c.oracle :=
    (endBlocker_eq_ok.mp hend).2
  by_cases hlast : c.endsPeriod
  · rw [if_pos hlast] at hperiod
    have hcount := tallyPeriod_counts h.accepted h.valid hperiod a
    by_cases ha : c.staking.Bonded a
    · rw [if_pos ⟨hlast, ha⟩]
      rw [if_pos ha] at hcount
      exact ⟨_, hcount.trans (bump_eq_plus (h.sum_lt a) _)⟩
    · rw [if_neg (fun hc => ha hc.2)]
      rw [if_neg ha] at hcount
      exact hcount
  · rw [if_neg hlast] at hperiod
    rw [if_neg (fun hc => hlast hc.1)]
    subst hperiod
    rfl

theorem sum_endBlock (h : Conserved c) {o : IterationOrder}
    (hstep : step env c (.endBlock o) = .ok c') (a : ValAddress) :
    (c'.counter a).sum = (c.counter a).sum + c.periodEnd a := by
  have hcounter := counter_endBlock h hstep a
  unfold Chain.periodEnd
  split_ifs at hcounter ⊢
  · obtain ⟨x, hx⟩ := hcounter
    rw [hx, sum_plus]
  · rw [hcounter, add_zero]

theorem conserved_endBlock (h : Conserved c) {o : IterationOrder}
    (hstep : step env c (.endBlock o) = .ok c') : Conserved c' := by
  have hsum := sum_endBlock h hstep
  simp only [step, bind_eq_ok, ensure_eq_ok, exists_const, pure_eq_ok, Except.ok.injEq] at hstep
  obtain ⟨hinside, s, hend, rfl⟩ := hstep
  obtain ⟨haccepted, hparams⟩ := accepted_endBlocker h.accepted hend
  have hone : ∀ a, c.periodEnd a ≤ 1 := by
    intro a
    unfold Chain.periodEnd
    split_ifs <;> omega
  refine ⟨?_, haccepted, fun a => ?_, fun a => ?_, fun a => ?_, h.height_lt⟩
  · rw [hparams]
    exact h.valid
  · rw [hsum a, h.counted a]
  · have hold := h.settled a
    simp only
    omega
  · have hold := h.bounded a
    have hle := hone a
    rw [hinside] at hold
    simp only [if_true] at hold
    simp only [Bool.false_eq_true, if_false]
    omega

theorem conserved_step (c : Chain) (e : Event) (c' : Chain) (h : Conserved c)
    (hstep : step env c e = .ok c') : Conserved c' := by
  cases e with
  | stake st =>
      cases hstep
      exact ⟨h.valid, h.accepted, h.counted, h.settled, h.bounded, h.height_lt⟩
  | message msg => exact conserved_message h msg hstep
  | beginBlock time => exact conserved_beginBlock h hstep
  | endBlock o => exact conserved_endBlock h hstep

theorem conserved_of_run {height : ℕ} (hheight : height < 2 ^ 63) {st : Staking}
    {denomMetaData : SortedMap String Metadata} {es : List Event}
    (h : Runs.run (step env) (genesis height st denomMetaData) es = .ok c) : Conserved c :=
  Runs.run_invariant conserved_step (conserved_genesis hheight st denomMetaData) h

/-- In every reachable state the counters of an operator sum to the period ends
of the current window at which it was bonded, and every period end is settled by
one reset or still counted. An end block adds one to one counter of each bonded
operator where it ends a period, and changes no other counter. -/
theorem counters_conserved {height : ℕ} (hheight : height < 2 ^ 63) (st : Staking)
    (denomMetaData : SortedMap String Metadata) (es : List Event) (c : Chain)
    (h : Runs.run (step env) (genesis height st denomMetaData) es = .ok c) :
    (∀ a, (c.counter a).sum = c.window a ∧ c.ends a = c.settled a + (c.counter a).sum) ∧
      (∀ o c', step env c (.endBlock o) = .ok c' → ∀ a,
        if c.endsPeriod ∧ c.staking.Bonded a then ∃ x, c'.counter a = (c.counter a).plus x
        else c'.counter a = c.counter a) ∧
      ∀ time c', step env c (.beginBlock time) = .ok c' → ∀ a,
        c'.counter a = if c.endsWindow then ⟨0, 0, 0⟩ else c.counter a := by
  have hc := conserved_of_run hheight h
  refine ⟨fun a => ⟨hc.counted a, ?_⟩, fun o c' hstep => counter_endBlock hc hstep,
    fun time c' hstep => counter_beginBlock hc hstep⟩
  rw [hc.settled a, hc.counted a]

end Invariant

namespace BoundaryBlock

/-- Addresses are their own text, and no text is a decimal coin. -/
def codec : Codec where
  valAddressFromBech32 := .ok
  accAddressFromBech32 := .ok
  accAddress a := a
  valAddress a := a
  parseDecCoin _ := fail "invalid decimal coin expression: %s"
  parse_valid _ _ _ h := by cases h

def env : Env := ⟨codec, "gov", fun st _ _ _ _ => st, .insertion⟩

def staking : Staking := .single

/-- Three blocks, the last of which ends a slash window and a vote period. -/
def blocks : List Event :=
  [.beginBlock 0, .endBlock .ascending, .beginBlock 0, .endBlock .ascending, .beginBlock 0,
    .endBlock .ascending]

def reached : Exec Chain := Runs.run (step env) (genesis 48956 staking ∅) blocks

set_option maxRecDepth 20000 in
theorem reached_accounts : reached.toOption.map (fun c =>
    (c.window "v1", c.ends "v1", c.settled "v1", c.counter "v1")) =
      some (1, 2, 1, ⟨0, 1, 0⟩) := by decide

/-- The period end in the last block is counted after that block's reset. -/
theorem counted_once : ∃ c, reached = .ok c ∧ c.window "v1" = 1 ∧ c.ends "v1" = 2 ∧
    (∀ a, (c.counter a).sum = c.window a ∧ c.ends a = c.settled a + (c.counter a).sum) ∧
      (∀ o c', step env c (.endBlock o) = .ok c' → ∀ a,
        if c.endsPeriod ∧ c.staking.Bonded a then ∃ x, c'.counter a = (c.counter a).plus x
        else c'.counter a = c.counter a) ∧
      ∀ time c', step env c (.beginBlock time) = .ok c' → ∀ a,
        c'.counter a = if c.endsWindow then ⟨0, 0, 0⟩ else c.counter a := by
  obtain ⟨c, hc, hview⟩ := exists_of_toOption_map reached_accounts
  simp only [Prod.mk.injEq] at hview
  exact ⟨c, hc, hview.1, hview.2.1, counters_conserved (by norm_num) staking ∅ blocks c hc⟩

end BoundaryBlock

end Kiichain.Oracle
