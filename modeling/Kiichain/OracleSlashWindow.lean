import Kiichain.OracleSlashSet

/-!
# Whole slash windows

Under fixed parameters the votes that a bonded operator is counted for depend on
the height alone: a window holds the same number of period ends as its length
holds periods. So the least number of successes that saves an operator is known
in advance, and the progress that the query reports is told from the counters.
-/

namespace Kiichain.Oracle
open GoExec FixedPoint

namespace Chain

/-- The number of blocks ended so far, the one of height zero included. -/
def endedBlocks (c : Chain) : ℕ := if c.inBlock then c.height else c.height + 1

/-- The last height, up to the current one, at which the counters are reset. -/
def lastReset (window : ℕ) (c : Chain) : ℕ := (c.height + 1) / window * window - 1

end Chain

/-- The window count of `a` is that of an operator bonded at all its period ends. -/
structure FullyCounted (params : Params) (a : ValAddress) (c : Chain) : Prop where
  reset : params.slashWindow ≤ c.height + 1
  count : c.window a + c.lastReset params.slashWindow / params.votePeriod =
    c.endedBlocks / params.votePeriod

/-- The parameters stay, and `a` is bonded where a block ends. -/
def Attended (params : Params) (a : ValAddress) (c : Chain) (e : Event) : Prop :=
  c.oracle.params = params ∧ ((∃ o, e = .endBlock o) → c.staking.Bonded a)

instance (params : Params) (a : ValAddress) (c : Chain) (e : Event) :
    Decidable (Attended params a c e) :=
  match e with
  | .endBlock _ => decidable_of_iff (c.oracle.params = params ∧ c.staking.Bonded a)
      (by simp [Attended])
  | .stake _ | .message _ | .beginBlock _ => decidable_of_iff (c.oracle.params = params)
      (by simp [Attended])

section Arithmetic

variable {window : ℕ}

theorem lastReset_of_endsWindow {h : ℕ} (hwindow : (h + 1) % window = 0) :
    (h + 1) / window * window - 1 = h := by
  have hdiv := Nat.div_add_mod' (h + 1) window
  omega

theorem lastReset_succ {h : ℕ} (hwindow : (h + 1 + 1) % window ≠ 0) :
    (h + 1 + 1) / window = (h + 1) / window := by
  have hnot : ¬ window ∣ h + 1 + 1 := fun hdvd => hwindow (Nat.mod_eq_zero_of_dvd hdvd)
  rw [Nat.succ_div, if_neg hnot, add_zero]

theorem succ_div_eq (h period : ℕ) :
    (h + 1) / period = h / period + if (h + 1) % period = 0 then 1 else 0 := by
  rw [Nat.succ_div]
  simp only [Nat.dvd_iff_mod_eq_zero]

/-- Of the numbers up to one below a multiple of the period, as many are period ends. -/
theorem mul_sub_one_div {n period : ℕ} (hn : 0 < n) (hperiod : 0 < period) :
    (n * period - 1) / period = n - 1 := by
  have hpos : 0 < n * period := Nat.mul_pos hn hperiod
  have hsucc : (n - 1 + 1) * period = n * period := by rw [Nat.sub_add_cancel hn]
  have hsub : (n - 1) * period + period = n * period := by rw [← Nat.succ_mul]; exact hsucc
  apply Nat.div_eq_of_lt_le
  · omega
  · rw [hsucc]
    omega

end Arithmetic

section Count

variable {env : Env} {c c' : Chain} {params : Params} {a : ValAddress}

theorem fullyCounted_step (c : Chain) (e : Event) (c' : Chain)
    (hcounted : FullyCounted params a c) (hattended : Attended params a c e)
    (h : step env c e = .ok c') : FullyCounted params a c' := by
  obtain ⟨hreset, hcount⟩ := hcounted
  obtain ⟨rfl, hbonded⟩ := hattended
  cases e with
  | stake st =>
      cases h
      exact ⟨hreset, hcount⟩
  | message msg =>
      cases h
      exact ⟨hreset, hcount⟩
  | beginBlock time =>
      simp only [step, bind_eq_ok, ensure_eq_ok, exists_const, pure_eq_ok, Except.ok.injEq] at h
      obtain ⟨⟨houtside, _⟩, _, _, rfl⟩ := h
      refine ⟨Nat.le_succ_of_le hreset, ?_⟩
      simp only [Chain.lastReset, Chain.endedBlocks, houtside, Bool.false_eq_true, if_false,
        if_true] at hcount ⊢
      by_cases hends : c.endsWindow
      · rw [if_pos hends, lastReset_of_endsWindow hends, Pi.zero_apply, zero_add]
      · rw [if_neg hends, lastReset_succ hends, hcount]
  | endBlock o =>
      simp only [step, bind_eq_ok, ensure_eq_ok, exists_const, pure_eq_ok, Except.ok.injEq] at h
      obtain ⟨hinside, _, _, rfl⟩ := h
      refine ⟨hreset, ?_⟩
      have hone : c.periodEnd a = if c.endsPeriod then 1 else 0 := by
        simp only [Chain.periodEnd, hbonded ⟨o, rfl⟩, and_true]
      simp only [Chain.lastReset, Chain.endedBlocks, hinside, Bool.false_eq_true, if_false,
        if_true, hone] at hcount ⊢
      rw [add_right_comm, hcount, succ_div_eq]
      rfl

/-- The first block after a reset counts nobody yet. -/
theorem fullyCounted_of_reset {time : ℤ} (hends : c.endsWindow) (h : step env c (.beginBlock time) = .ok c') :
    FullyCounted c.oracle.params a c' := by
  simp only [step, bind_eq_ok, pure_eq_ok, Except.ok.injEq] at h
  obtain ⟨_, _, _, _, rfl⟩ := h
  refine ⟨Nat.le_of_dvd (Nat.succ_pos _) (Nat.dvd_of_mod_eq_zero hends), ?_⟩
  simp only [Chain.lastReset, Chain.endedBlocks, if_true, if_pos hends, Pi.zero_apply, zero_add]
  rw [lastReset_of_endsWindow hends]

theorem periods_of_validate (h : params.validate = .ok ()) :
    ∃ n, 0 < n ∧ 0 < params.votePeriod ∧ params.slashWindow = n * params.votePeriod := by
  simp only [Params.validate, bind_eq_ok, ensure_eq_ok, exists_const] at h
  obtain ⟨hperiod, _, _, _, hle, hmod, _, _⟩ := h
  have hpos := Nat.pos_of_ne_zero hperiod
  exact ⟨params.slashWindow / params.votePeriod, Nat.div_pos hle hpos, hpos,
    (Nat.div_mul_cancel (Nat.dvd_of_mod_eq_zero hmod)).symm⟩

/-- The period ends up to a reset. -/
theorem lastReset_div (hcounted : FullyCounted params a c) {n : ℕ} (hn : 0 < n)
    (hperiod : 0 < params.votePeriod) (hwindow : params.slashWindow = n * params.votePeriod) :
    c.lastReset params.slashWindow / params.votePeriod + 1 =
      (c.height + 1) / params.slashWindow * n := by
  have hpos : 0 < params.slashWindow := hwindow ▸ Nat.mul_pos hn hperiod
  have hone : 0 < (c.height + 1) / params.slashWindow := Nat.div_pos hcounted.reset hpos
  have hmul : (c.height + 1) / params.slashWindow * params.slashWindow =
      (c.height + 1) / params.slashWindow * n * params.votePeriod := by
    rw [mul_assoc, ← hwindow]
  have hn' : 0 < (c.height + 1) / params.slashWindow * n := Nat.mul_pos hone hn
  rw [Chain.lastReset, hmul, mul_sub_one_div hn' hperiod, Nat.sub_add_cancel hn']

/-- On the last block of a window a whole number of periods has been counted. -/
theorem window_eq_periods (hcounted : FullyCounted params a c) (houtside : c.inBlock = false)
    (hvalid : params.validate = .ok ()) (hends : (c.height + 1 + 1) % params.slashWindow = 0) :
    c.window a = params.slashWindow / params.votePeriod := by
  obtain ⟨n, hn, hperiod, hwindow⟩ := periods_of_validate hvalid
  have hreset := lastReset_div hcounted hn hperiod hwindow
  have hcount := hcounted.count
  have hpos : 0 < params.slashWindow := hwindow ▸ Nat.mul_pos hn hperiod
  -- the next window begins with the block after this one
  have hnext : (c.height + 1 + 1) / params.slashWindow = (c.height + 1) / params.slashWindow + 1 := by
    rw [succ_div_eq, if_pos hends]
  have hend : c.height + 1 + 1 =
      ((c.height + 1) / params.slashWindow + 1) * n * params.votePeriod := by
    rw [← hnext, mul_assoc, ← hwindow, Nat.div_mul_cancel (Nat.dvd_of_mod_eq_zero hends)]
  have hended : (c.height + 1) / params.votePeriod =
      ((c.height + 1) / params.slashWindow + 1) * n - 1 := by
    rw [← mul_sub_one_div (Nat.mul_pos (Nat.succ_pos _) hn) hperiod, ← hend]
    rfl
  simp only [Chain.endedBlocks, houtside, Bool.false_eq_true, if_false, hended] at hcount
  have hdiv : params.slashWindow / params.votePeriod = n := by
    rw [hwindow, Nat.mul_div_cancel _ hperiod]
  rw [Nat.succ_mul] at hcount
  omega

/-- Between two blocks of a window, what is counted by the place of the height in it. -/
theorem window_eq_progress (hcounted : FullyCounted params a c) (houtside : c.inBlock = false)
    (hvalid : params.validate = .ok ()) :
    c.window a = if (c.height + 1) % params.slashWindow = 0 then 1
      else c.height % params.slashWindow / params.votePeriod + 1 +
        if (c.height + 1) % params.votePeriod = 0 then 1 else 0 := by
  obtain ⟨n, hn, hperiod, hwindow⟩ := periods_of_validate hvalid
  have hreset := lastReset_div hcounted hn hperiod hwindow
  have hcount := hcounted.count
  simp only [Chain.endedBlocks, houtside, Bool.false_eq_true, if_false] at hcount
  rw [succ_div_eq] at hcount
  by_cases hlast : (c.height + 1) % params.slashWindow = 0
  · have hdvd : (c.height + 1) % params.votePeriod = 0 := by
      apply Nat.mod_eq_zero_of_dvd
      exact (Dvd.intro_left n hwindow.symm).trans (Nat.dvd_of_mod_eq_zero hlast)
    rw [Chain.lastReset, lastReset_of_endsWindow hlast, if_pos hdvd] at hcount
    rw [if_pos hlast]
    omega
  · have hsame : (c.height + 1) / params.slashWindow = c.height / params.slashWindow := by
      rw [succ_div_eq, if_neg hlast, add_zero]
    have hplace : c.height / params.votePeriod =
        c.height / params.slashWindow * n + c.height % params.slashWindow / params.votePeriod := by
      have hsplit : params.votePeriod * (c.height / params.slashWindow * n) +
          c.height % params.slashWindow = c.height := by
        rw [mul_comm, mul_assoc, ← hwindow, Nat.div_add_mod']
      rw [← Nat.mul_add_div hperiod, hsplit]
    rw [hsame] at hreset
    rw [if_neg hlast]
    omega

end Count

section Slashed

variable {slash : Slash} {blk : Block} {params : Params} {st : Staking}

theorem active_of_standing {st' : Staking} {a : ValAddress}
    (h : (st'.validators.get? a).map Validator.standing =
      (st.validators.get? a).map Validator.standing) : st'.Active a ↔ st.Active a := by
  have hactive : ∀ s : Staking, s.Active a ↔ ∃ k, (s.validators.get? a).map Validator.standing =
      some (true, false, k) := by
    intro s
    unfold Staking.Active
    cases s.validators.get? a <;> simp [Validator.standing]
  rw [hactive, hactive, h]

/-- A turn that returns asks for a slash exactly where the walk has to. -/
theorem slashCall_of_ok {a : ValAddress} {c : VotePenaltyCounter} {call : Option SlashCall}
    (htotal : c.totalVotes ≠ 0) (h : slashCall blk params st a c = .ok call) :
    if Asks params st (a, c) then ∃ x v, call = some x ∧ x.operator = a ∧
      st.validators.get? a = some v ∧ v.consAddr = some x.consAddr else call = none := by
  rw [slashCall, VotePenaltyCounter.validVoteRate_eq htotal, ok_bind] at h
  by_cases hrate : c.rate < params.minValidPerWindow
  · simp only [if_pos hrate, bind_eq_ok, require_eq_ok] at h
    obtain ⟨v, hv, h⟩ := h
    have hactive : st.Active a ↔ v.bonded ∧ ¬ v.jailed := by simp [Staking.Active, hv]
    by_cases hstanding : v.bonded ∧ ¬ v.jailed
    · simp only [if_pos hstanding, bind_eq_ok, require_eq_ok, pure_eq_ok, Except.ok.injEq] at h
      obtain ⟨k, hk, rfl⟩ := h
      rw [if_pos ⟨⟨htotal, hrate⟩, hactive.mpr hstanding⟩]
      exact ⟨_, v, rfl, rfl, hv, hk⟩
    · rw [if_neg hstanding, pure_eq_ok] at h
      cases h
      rw [if_neg (fun hasks => hstanding (hactive.mp hasks.2))]
  · rw [if_neg hrate, pure_eq_ok] at h
    cases h
    rw [if_neg (fun hasks => hrate hasks.1.2)]

/-- A walk that returns has slashed the operators that it has to, in their order. -/
theorem operators_of_walk (hslash : KeepsOthers slash) {acc w : Walked}
    {l : List (ValAddress × VotePenaltyCounter)} (hnodup : (l.map Prod.fst).Nodup)
    (hkept : ∀ e ∈ l, (acc.staking.validators.get? e.1).map Validator.standing =
      (st.validators.get? e.1).map Validator.standing)
    (h : l.foldlM (slashAndResetLogged slash blk params) acc = .ok w) :
    w.calls.map SlashCall.operator = acc.calls.map SlashCall.operator ++
      (l.filter (fun e => Asks params st e)).map Prod.fst := by
  induction l generalizing acc with
  | nil =>
      cases h
      simp
  | cons e l ih =>
      rw [List.foldlM_cons, bind_eq_ok] at h
      obtain ⟨u, hturn, hrest⟩ := h
      obtain ⟨hfresh, hnodup'⟩ := List.nodup_cons.mp hnodup
      have hasks : Asks params acc.staking e ↔ Asks params st e :=
        and_congr_right fun _ => active_of_standing (hkept e List.mem_cons_self)
      have hne : ∀ e' ∈ l, e'.1 ≠ e.1 :=
        fun e' he' heq => hfresh (heq ▸ List.mem_map_of_mem he')
      unfold slashAndResetLogged at hturn
      split_ifs at hturn with htotal
      · cases hturn
        have hnot : ¬ Asks params st e := fun hask => hask.1.1 htotal
        rw [ih hnodup' (fun e' he' => hkept e' (List.mem_cons_of_mem e he')) hrest,
          List.filter_cons_of_neg (by simpa using hnot)]
      · simp only [bind_eq_ok, pure_eq_ok, Except.ok.injEq] at hturn
        obtain ⟨call, hcall, rfl⟩ := hturn
        have hspec := slashCall_of_ok htotal hcall
        by_cases hask : Asks params st e
        · rw [if_pos (hasks.mpr hask)] at hspec
          obtain ⟨x, v, rfl, hoperator, hv, hconsAddr⟩ := hspec
          have hkept' : ∀ e' ∈ l,
              ((x.apply slash acc.staking).validators.get? e'.1).map Validator.standing =
                (st.validators.get? e'.1).map Validator.standing := by
            intro e' he'
            rw [← hkept e' (List.mem_cons_of_mem e he')]
            exact hslash acc.staking e.1 v _ _ _ _ hv hconsAddr e'.1 (hne e' he')
          rw [ih hnodup' hkept' hrest, List.filter_cons_of_pos (by simpa using hask)]
          simp [hoperator]
        · rw [if_neg (fun hask' => hask (hasks.mp hask'))] at hspec
          subst hspec
          rw [ih hnodup' ?_ hrest, List.filter_cons_of_neg (by simpa using hask)]
          · simp
          · exact fun e' he' => hkept e' (List.mem_cons_of_mem e he')

theorem slashesOf_of_beginBlocker {s t : State} {st' : Staking}
    (hwindow : (blk.height + 1) % s.params.slashWindow = 0)
    (h : beginBlocker slash blk st s = .ok (st', t)) :
    ∃ w, slashesOf slash blk st s = .ok w ∧ st' = w.staking := by
  rw [beginBlocker, bind_eq_ok] at h
  obtain ⟨last, hlast, h⟩ := h
  obtain ⟨_, rfl⟩ := isPeriodLastBlock_eq_ok.mp hlast
  rw [if_pos (decide_eq_true hwindow), slashAndResetCounters_eq, bind_eq_ok] at h
  obtain ⟨⟨st₁, s₁⟩, hwalk, h⟩ := h
  cases h
  cases hw : slashesOf slash blk st s with
  | error e =>
      rw [hw] at hwalk
      cases hwalk
  | ok w =>
      rw [hw] at hwalk
      cases hwalk
      exact ⟨w, rfl, rfl⟩

end Slashed

section Stored

variable {c : Chain} {a : ValAddress}

/-- A counter with votes is in the store. -/
theorem get?_of_counter (h : (c.counter a).sum ≠ 0) :
    c.oracle.votePenaltyCounter.get? a = some (c.counter a) := by
  unfold Chain.counter getVotePenaltyCounterOrDefault at h ⊢
  cases hget : c.oracle.votePenaltyCounter.get? a with
  | none =>
      rw [hget] at h
      exact absurd rfl h
  | some k => rfl

/-- A reachable counter with votes asks for a slash by the exact comparison. -/
theorem asks_counter_iff (hc : Conserved c) (hpos : 0 < (c.counter a).sum) :
    Asks c.oracle.params c.staking (a, c.counter a) ↔
      c.staking.Active a ∧ (c.counter a).BelowMinimum c.oracle.params := by
  have hsum : (c.counter a).sum < 2 ^ 63 := by
    have hcounted := hc.counted a
    have hbounded := hc.bounded a
    have hheight := hc.height_lt
    omega
  have hsmall : (c.counter a).Small := by
    unfold VotePenaltyCounter.sum at hsum
    exact ⟨by omega, by omega, by omega, hpos⟩
  have htotal : (c.counter a).totalVotes ≠ 0 := by
    rw [ne_eq, VotePenaltyCounter.totalVotes_eq_zero_iff hsmall]
    omega
  have hundistorted : (c.counter a).Undistorted c.oracle.params := Or.inl hsum
  have hrate :=
    (VotePenaltyCounter.rate_lt_iff_belowMinimum_iff hsmall (by omega)).mpr hundistorted
  simp only [Asks, VotePenaltyCounter.Penalized, htotal, ne_eq, not_false_eq_true, true_and, hrate]
  exact and_comm

end Stored

section Query

/-- `QueryServer.SlashWindow`. -/
def slashWindow (blk : Block) (s : State) : Exec ℕ := do
  ensure (s.params.slashWindow ≠ 0) (.panic "integer divide by zero")
  ensure (s.params.votePeriod ≠ 0) (.panic "integer divide by zero")
  pure (blk.height % s.params.slashWindow / s.params.votePeriod)

end Query

section Validated

variable {env : Env} {c : Chain}

/-- The parameters are only ever replaced by validated ones. -/
theorem validated_step (c : Chain) (e : Event) (c' : Chain)
    (hvalid : c.oracle.params.validate = .ok ()) (h : step env c e = .ok c') :
    c'.oracle.params.validate = .ok () := by
  cases e with
  | stake st =>
      cases h
      exact hvalid
  | message msg =>
      cases h
      obtain ⟨_, heq⟩ | heq := rolledBack_cases c.oracle
        (deliver env.codec env.authority c.staking c.oracle msg)
      · simp only [heq]
        exact hvalid
      · generalize rolledBack c.oracle _ = t at heq
        cases msg with
        | aggregateExchangeRateVote m =>
            obtain ⟨_, _, _, _, rfl⟩ := deliver_vote_eq heq
            exact hvalid
        | delegateFeedConsent m =>
            simp only [deliver, delegateFeedConsent, bind_eq_ok, pure_eq_ok, Except.ok.injEq] at heq
            obtain ⟨_, _, _, _, _, _, _, _, rfl⟩ := heq
            exact hvalid
        | updateParams m =>
            simp only [deliver, updateParams, bind_eq_ok, reworded_eq_ok, pure_eq_ok,
              Except.ok.injEq] at heq
            obtain ⟨_, _, _, hnew, rfl⟩ := heq
            exact hnew
  | beginBlock time =>
      simp only [step, bind_eq_ok, pure_eq_ok, Except.ok.injEq] at h
      obtain ⟨_, _, ⟨_, _⟩, hbegin, rfl⟩ := h
      obtain ⟨_, _, rfl, _⟩ := beginBlocker_frame hbegin
      exact hvalid
  | endBlock o =>
      simp only [step, bind_eq_ok, pure_eq_ok, Except.ok.injEq] at h
      obtain ⟨_, _, s, hend, rfl⟩ := h
      have hperiod := (endBlocker_eq_ok.mp hend).2
      split_ifs at hperiod
      · rw [(tallyPeriod_frame hperiod).1]
        exact hvalid
      · rw [hperiod]
        exact hvalid

theorem validated_of_run {height : ℕ} {st : Staking} {denomMetaData : SortedMap String Metadata}
    {es : List Event} (h : Runs.run (step env) (genesis height st denomMetaData) es = .ok c) :
    c.oracle.params.validate = .ok () :=
  Runs.run_invariant (I := fun c => c.oracle.params.validate = .ok ()) validated_step
    (by decide : defaultParams.validate = .ok ()) h

end Validated

section WindowEnd

variable {env : Env} {c c' : Chain} {a : ValAddress}

/-- At the end of a window in which `a` has been counted at every period end. -/
theorem slashed_iff_of_counted (hslash : KeepsOthers env.slash) (hconserved : Conserved c)
    (hcounted : FullyCounted c.oracle.params a c) (hvalid : c.oracle.params.validate = .ok ())
    (hlast : c.endsWindow) {time' : ℤ} (hnext : step env c (.beginBlock time') = .ok c') :
    (c.counter a).sum = c.oracle.params.slashWindow / c.oracle.params.votePeriod ∧
      ∃ w, slashesOf env.slash ⟨c.height + 1, time'⟩ c.staking c.oracle = .ok w ∧
        c'.staking = w.staking ∧ (w.calls.map SlashCall.operator).Nodup ∧
        (a ∈ w.calls.map SlashCall.operator ↔ c.staking.Active a ∧
          ((c.counter a).successCount : ℚ) < c.oracle.params.minValidPerWindow.raw /
            legacyFormat.scale * (c.oracle.params.slashWindow / c.oracle.params.votePeriod : ℕ)) := by
  simp only [step, bind_eq_ok, ensure_eq_ok, exists_const, pure_eq_ok, Except.ok.injEq] at hnext
  obtain ⟨⟨houtside, _⟩, ⟨st', s'⟩, hbegin, rfl⟩ := hnext
  have hsum : (c.counter a).sum = c.oracle.params.slashWindow / c.oracle.params.votePeriod := by
    rw [hconserved.counted a]
    exact window_eq_periods hcounted houtside hvalid hlast
  refine ⟨hsum, ?_⟩
  obtain ⟨n, hn, hperiod, hwindow⟩ := periods_of_validate hvalid
  have hpos : 0 < (c.counter a).sum := by
    rw [hsum, hwindow, Nat.mul_div_cancel _ hperiod]
    exact hn
  have hlast' : ((⟨c.height + 1, time'⟩ : Block).height + 1) % c.oracle.params.slashWindow = 0 :=
    hlast
  obtain ⟨w, hw, hstaking⟩ := slashesOf_of_beginBlocker hlast' hbegin
  have hnodup := c.oracle.votePenaltyCounter.keys_nodup
  have hoperators := operators_of_walk hslash hnodup (fun _ _ => rfl) hw
  rw [List.map_nil, List.nil_append] at hoperators
  refine ⟨w, hw, hstaking, ?_, ?_⟩
  · rw [hoperators]
    exact hnodup.sublist (List.filter_sublist.map _)
  · have hentry := SortedMap.get?_eq_some.mp (get?_of_counter hpos.ne')
    rw [hoperators, mem_map_filter_entries hentry, decide_eq_true_iff,
      asks_counter_iff hconserved hpos, VotePenaltyCounter.BelowMinimum, hsum]

end WindowEnd

section Runs

variable {env : Env} {height : ℕ} (hheight : height < 2 ^ 63) {st : Staking}
  {denomMetaData : SortedMap String Metadata} {before : List Event} {c₀ c₁ c : Chain} {time : ℤ}
  (hbefore : Runs.run (step env) (genesis height st denomMetaData) before = .ok c₀)
  (hends : c₀.endsWindow) (hreset : step env c₀ (.beginBlock time) = .ok c₁) {es : List Event}
  {a : ValAddress} (hattended : Runs.Along (step env) (Attended c₀.oracle.params a) c₁ es)
  (h : Runs.run (step env) c₁ es = .ok c) (hparams : c.oracle.params = c₀.oracle.params)
include hheight hbefore hends hreset hattended h hparams

theorem counted_since_reset :
    Conserved c ∧ FullyCounted c.oracle.params a c ∧ c.oracle.params.validate = .ok () := by
  have hconserved₁ := conserved_step _ _ _ (conserved_of_run hheight hbefore) hreset
  rw [hparams]
  refine ⟨Runs.run_invariant conserved_step hconserved₁ h, ?_, validated_of_run hbefore⟩
  exact Runs.run_invariant_along fullyCounted_step (fullyCounted_of_reset hends hreset) hattended h

/-- An operator that is bonded at every block end of whole slash windows under fixed
parameters has been counted once for each period when a window ends. It is slashed,
once, exactly where it is active and its successes fall short of the minimum share of
the periods of a window. -/
theorem slashed_iff_of_full_window (hslash : KeepsOthers env.slash)
    (hlast : c.endsWindow) {time' : ℤ} {c' : Chain}
    (hnext : step env c (.beginBlock time') = .ok c') :
    (c.counter a).sum = c.oracle.params.slashWindow / c.oracle.params.votePeriod ∧
      ∃ w, slashesOf env.slash ⟨c.height + 1, time'⟩ c.staking c.oracle = .ok w ∧
        c'.staking = w.staking ∧ (w.calls.map SlashCall.operator).Nodup ∧
        (a ∈ w.calls.map SlashCall.operator ↔ c.staking.Active a ∧
          ((c.counter a).successCount : ℚ) < c.oracle.params.minValidPerWindow.raw /
            legacyFormat.scale * (c.oracle.params.slashWindow / c.oracle.params.votePeriod : ℕ)) := by
  obtain ⟨hconserved, hcounted, hvalid⟩ :=
    counted_since_reset hheight hbefore hends hreset hattended h hparams
  exact slashed_iff_of_counted hslash hconserved hcounted hvalid hlast hnext

/-- The progress that the query reports, against what an operator bonded at every
block end is counted for. -/
theorem counted_eq_slashWindow (houtside : c.inBlock = false) : ∃ progress, slashWindow c.block c.oracle = .ok progress ∧
      (c.counter a).sum = if (c.height + 1) % c.oracle.params.slashWindow = 0 then 1
        else progress + 1 + if (c.height + 1) % c.oracle.params.votePeriod = 0 then 1 else 0 := by
  obtain ⟨hconserved, hcounted, hvalid⟩ :=
    counted_since_reset hheight hbefore hends hreset hattended h hparams
  obtain ⟨n, hn, hperiod, hwindow⟩ := periods_of_validate hvalid
  have hpos : 0 < c.oracle.params.slashWindow := hwindow ▸ Nat.mul_pos hn hperiod
  refine ⟨c.height % c.oracle.params.slashWindow / c.oracle.params.votePeriod, ?_, ?_⟩
  · rw [slashWindow, ensure_of hpos.ne', ok_bind, ensure_of hperiod.ne', ok_bind, pure_eq_ok]
    rfl
  · rw [hconserved.counted a]
    exact window_eq_progress hcounted houtside hvalid

end Runs

namespace ShortWindow

def env : Env := BoundaryBlock.env

/-- Every second block ends a period and a window. -/
def params : Params := { defaultParams with votePeriod := 2, slashWindow := 2 }

def start : Chain := genesis 0 .single ∅

def before : List Event :=
  [.beginBlock 0, .message (.updateParams ⟨"gov", params⟩), .endBlock .ascending, .beginBlock 0,
    .endBlock .ascending]

def window : List Event := [.endBlock .ascending, .beginBlock 0, .endBlock .ascending]

/-- The run reaches the end of a window, through one at whose blocks `v1` is bonded. -/
structure Reached (c₀ c₁ c c' : Chain) : Prop where
  before : Runs.run (step env) start before = .ok c₀
  ends : c₀.endsWindow
  reset : step env c₀ (.beginBlock 0) = .ok c₁
  attended : Runs.Along (step env) (Attended c₀.oracle.params "v1") c₁ window
  window : Runs.run (step env) c₁ window = .ok c
  params : c.oracle.params = c₀.oracle.params
  last : c.endsWindow
  next : step env c (.beginBlock 0) = .ok c'
  outside : c.inBlock = false
  counter : c.counter "v1" = ⟨0, 1, 0⟩

def checked : Exec Bool := do
  let c₀ ← Runs.run (step env) start before
  let c₁ ← step env c₀ (.beginBlock 0)
  let c ← Runs.run (step env) c₁ window
  let _ ← step env c (.beginBlock 0)
  pure (c₀.endsWindow ∧ Runs.Along (step env) (Attended c₀.oracle.params "v1") c₁ window ∧
    c.oracle.params = c₀.oracle.params ∧ c.endsWindow ∧ c.inBlock = false ∧
    c.counter "v1" = ⟨0, 1, 0⟩)

set_option maxRecDepth 20000 in
theorem checked_eq : checked.toOption = some true := by decide

theorem exists_reached : ∃ c₀ c₁ c c', Reached c₀ c₁ c c' := by
  obtain ⟨hok⟩ : Nonempty (checked = .ok true) := ⟨toOption_eq_some.mp checked_eq⟩
  simp only [checked, bind_eq_ok, pure_eq_ok, Except.ok.injEq, decide_eq_true_eq] at hok
  obtain ⟨c₀, hbefore, c₁, hreset, c, hwindow, c', hnext, hends, hattended, hparams, hlast, houtside,
    hcounter⟩ := hok
  exact ⟨c₀, c₁, c, c', hbefore, hends, hreset, hattended, hwindow, hparams, hlast, hnext, houtside,
    hcounter⟩

theorem keepsOthers : KeepsOthers env.slash := fun _ _ _ _ _ _ _ _ _ _ _ => rfl

theorem abstainer_slashed : ∃ c₀ c₁ c c', Reached c₀ c₁ c c' ∧ (c.counter "v1").sum = 1 ∧
    ∃ w, slashesOf env.slash ⟨c.height + 1, 0⟩ c.staking c.oracle = .ok w ∧
      ("v1" ∈ w.calls.map SlashCall.operator ↔ c.staking.Active "v1" ∧ ((0 : ℕ) : ℚ) <
        c.oracle.params.minValidPerWindow.raw / legacyFormat.scale *
          (c.oracle.params.slashWindow / c.oracle.params.votePeriod : ℕ)) := by
  obtain ⟨c₀, c₁, c, c', h⟩ := exists_reached
  obtain ⟨_, w, hw, _, _, hiff⟩ := slashed_iff_of_full_window (by norm_num) h.before h.ends h.reset
    h.attended h.window h.params keepsOthers h.last h.next
  rw [h.counter] at hiff
  exact ⟨c₀, c₁, c, c', h, by rw [h.counter]; rfl, w, hw, hiff⟩

theorem progress_reported : ∃ c₀ c₁ c c' progress, Reached c₀ c₁ c c' ∧
    slashWindow c.block c.oracle = .ok progress ∧
    1 = if (c.height + 1) % c.oracle.params.slashWindow = 0 then 1
      else progress + 1 + if (c.height + 1) % c.oracle.params.votePeriod = 0 then 1 else 0 := by
  obtain ⟨c₀, c₁, c, c', h⟩ := exists_reached
  obtain ⟨progress, hprogress, hsum⟩ := counted_eq_slashWindow (by norm_num) h.before h.ends h.reset
    h.attended h.window h.params h.outside
  rw [h.counter] at hsum
  exact ⟨c₀, c₁, c, c', progress, h, hprogress, hsum⟩

end ShortWindow

end Kiichain.Oracle
