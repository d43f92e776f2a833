import Kiichain.FeeLiveness

/-!
# The lookback window of the fees within that of the oracle

The fee module checks its window against the oracle's lookback duration when the
window is set. The oracle sets its duration without a look at the window.
-/

namespace Kiichain.FeeAbstraction
open GoExec
open Oracle (Env)

/-- The window is within the duration, and the lookback check accepts it. -/
def Within (oracle : Oracle.State) (fee : State) : Prop :=
  fee.params.twapLookbackWindow ≤ oracle.params.lookbackDuration ∧
    Oracle.validateLookBackSeconds oracle fee.params.twapLookbackWindow = .ok ()

theorem within_iff {oracle : Oracle.State} {fee : State} :
    Within oracle fee ↔ Oracle.LookBackValid oracle fee.params.twapLookbackWindow := by
  unfold Within Oracle.validateLookBackSeconds
  rw [ensure_eq_ok, and_iff_right_of_imp]
  unfold Oracle.LookBackValid
  omega

section Runs

variable (env : Env)

/-- The states after the step keep the window, and so does the state in which a
block that begins updates the prices. -/
def WindowKept (c : Chain) (e : Event) : Prop :=
  (∀ c', step env c e = .ok c' → Within c'.oracle.oracle c'.fee) ∧
    ∀ time o, e = .oracle (.beginBlock time) → Begins env c time o → Within o.oracle c.fee

/-- New oracle parameters that are accepted leave room for the window. -/
def LeavesRoom (c : Chain) : Event → Prop
  | .oracle (.message (.updateParams msg)) => env.authority = msg.authority →
      Returns msg.params.validate →
        c.fee.params.twapLookbackWindow ≤ msg.params.lookbackDuration
  | _ => True

variable {env} {c c' : Chain}

theorem within_message {msg : Msg} (h : Within c.oracle.oracle c.fee)
    (hstep : step env c (.message msg) = .ok c') : Within c'.oracle.oracle c'.fee := by
  cases hstep
  obtain ⟨_, heq⟩ | heq := rolledBack_cases c.fee
    (deliver env.codec env.authority c.oracle.oracle c.fee msg)
  · simpa only [heq] using h
  · obtain ⟨p, _, hlookback, hset⟩ | ⟨items, _, _, hset⟩ := deliver_cases heq
    · rw [within_iff, hset]
      exact hlookback
    · rw [within_iff] at h ⊢
      rwa [hset]

theorem within_of_params {oracle oracle' : Oracle.State} {fee fee' : State}
    (h : Within oracle fee) (horacle : oracle'.params = oracle.params)
    (hfee : fee'.params = fee.params) : Within oracle' fee' := by
  rw [within_iff] at h ⊢
  unfold Oracle.LookBackValid at h ⊢
  rwa [horacle, hfee]

theorem oracleMessage_eq_ok {msg : Oracle.Msg} : step env c (.oracle (.message msg)) = .ok c' ↔
    c' = ⟨{ c.oracle with
      oracle := rolledBack c.oracle.oracle
        (Oracle.deliver env.codec env.authority c.oracle.staking c.oracle.oracle msg) }, c.fee⟩ := by
  rw [step]
  · simp [Oracle.step, @eq_comm _ c']
  · rintro _ ⟨⟩

theorem updateParams_eq_ok {s t : Oracle.State} {msg : Oracle.MsgUpdateParams} :
    Oracle.updateParams env.authority s msg = .ok t ↔
      env.authority = msg.authority ∧ Returns msg.params.validate ∧
        t = { s with params := msg.params } := by
  simp only [Oracle.updateParams, bind_eq_ok, ensure_eq_ok, Oracle.reworded_eq_ok, exists_const,
    pure_eq_ok, Except.ok.injEq, Returns, @eq_comm _ t, exists_and_right]

/-- Votes and delegations leave the parameters. -/
theorem params_deliver {st : Oracle.Staking} {s t : Oracle.State} {msg : Oracle.Msg}
    (hmsg : ∀ m, msg ≠ .updateParams m)
    (h : Oracle.deliver env.codec env.authority st s msg = .ok t) : t.params = s.params := by
  cases msg with
  | aggregateExchangeRateVote m =>
      obtain ⟨_, _, _, _, rfl⟩ := Oracle.deliver_vote_eq h
      rfl
  | delegateFeedConsent m =>
      simp only [Oracle.deliver, Oracle.delegateFeedConsent, bind_eq_ok, ensure_eq_ok, exists_const,
        pure_eq_ok, Except.ok.injEq] at h
      obtain ⟨_, _, _, _, _, _, _, rfl⟩ := h
      rfl
  | updateParams m => exact absurd rfl (hmsg m)

theorem within_oracleMessage {msg : Oracle.Msg} (h : Within c.oracle.oracle c.fee)
    (hmsg : ∀ m, msg ≠ .updateParams m) (hstep : step env c (.oracle (.message msg)) = .ok c') :
    Within c'.oracle.oracle c'.fee := by
  rw [oracleMessage_eq_ok] at hstep
  subst hstep
  obtain ⟨_, heq⟩ | heq := rolledBack_cases c.oracle.oracle
    (Oracle.deliver env.codec env.authority c.oracle.staking c.oracle.oracle msg)
  · simpa only [heq] using h
  · exact within_of_params h (params_deliver hmsg heq) rfl

theorem windowKept_updateParams_iff {msg : Oracle.MsgUpdateParams}
    (h : Within c.oracle.oracle c.fee) :
    WindowKept env c (.oracle (.message (.updateParams msg))) ↔
      LeavesRoom env c (.oracle (.message (.updateParams msg))) := by
  have hne := within_iff.mp h
  have hkept : WindowKept env c (.oracle (.message (.updateParams msg))) ↔
      Oracle.LookBackValid (rolledBack c.oracle.oracle
        (Oracle.updateParams env.authority c.oracle.oracle msg)) c.fee.params.twapLookbackWindow := by
    unfold WindowKept
    simp only [oracleMessage_eq_ok, forall_eq, within_iff]
    refine and_iff_left fun time o he => ?_
    cases he
  rw [hkept]
  unfold LeavesRoom
  unfold Oracle.LookBackValid at hne ⊢
  obtain ⟨hfail, heq⟩ | heq := rolledBack_cases c.oracle.oracle
    (Oracle.updateParams env.authority c.oracle.oracle msg)
  · rw [heq]
    refine iff_of_true hne fun hauthority hvalid => absurd ?_ hfail
    exact ⟨_, updateParams_eq_ok.mpr ⟨hauthority, hvalid, rfl⟩⟩
  · obtain ⟨hauthority, hvalid, hset⟩ := updateParams_eq_ok.mp heq
    rw [hset]
    simp only [hauthority, hvalid, forall_const]
    omega

theorem windowKept_iff (c : Chain) (e : Event) (h : Sound c ∧ Within c.oracle.oracle c.fee) :
    WindowKept env c e ↔ LeavesRoom env c e := by
  obtain ⟨hs, h⟩ := h
  cases e with
  | message msg =>
      refine iff_of_true ⟨fun c' hstep => within_message h hstep, fun time o he => ?_⟩ trivial
      cases he
  | oracle e =>
      cases e with
      | stake st =>
          refine iff_of_true ⟨fun c' hstep => ?_, fun time o he => ?_⟩ trivial
          · cases hstep
            exact h
          · cases he
      | message msg =>
          cases msg with
          | updateParams m => exact windowKept_updateParams_iff h
          | aggregateExchangeRateVote m =>
              refine iff_of_true ⟨fun c' hstep => ?_, fun time o he => ?_⟩ trivial
              · exact within_oracleMessage h (fun _ => by simp) hstep
              · cases he
          | delegateFeedConsent m =>
              refine iff_of_true ⟨fun c' hstep => ?_, fun time o he => ?_⟩ trivial
              · exact within_oracleMessage h (fun _ => by simp) hstep
              · cases he
      | endBlock order =>
          refine iff_of_true ⟨fun c' hstep => ?_, fun time o he => ?_⟩ trivial
          · simp only [step, bind_eq_ok, pure_eq_ok, Except.ok.injEq] at hstep
            obtain ⟨o, ho, rfl⟩ := hstep
            simp only [Oracle.step, bind_eq_ok, pure_eq_ok, Except.ok.injEq] at ho
            obtain ⟨_, _, s, hend, rfl⟩ := ho
            exact within_of_params h (Oracle.accepted_endBlocker hs.conserved.accepted hend).2 rfl
          · cases he
      | beginBlock time =>
          have hbegins : ∀ o, Begins env c time o → Within o.oracle c.fee := by
            intro o ho
            obtain ⟨_, _, _, _, _, _, hframe⟩ := begins_frame hs ho
            exact within_of_params h (by rw [hframe]) rfl
          refine iff_of_true ⟨fun c' hstep => ?_, fun t o he ho => ?_⟩ trivial
          · obtain ⟨ho, hfee⟩ := step_beginBlock_eq_ok.mp hstep
            exact within_of_params (hbegins _ ho) rfl (params_beginBlocker hs.valid hfee)
          · cases he
            exact hbegins o ho

theorem within_defaults {height : ℕ} {st : Oracle.Staking}
    {denomMetaData : SortedMap String Metadata} :
    Within (genesis height st denomMetaData ⟨defaultParams, []⟩).oracle.oracle ⟨defaultParams, []⟩ := by
  rw [within_iff]
  change ¬ (120 > 3600 ∨ 120 = 0)
  omega

/-- In every run from the default genesis the window stays within the oracle's
duration, and no price update is refused for it, exactly when all accepted oracle
parameters leave room for the window of their time. -/
theorem window_kept_iff {height : ℕ} (hheight : height < 2 ^ 63) (st : Oracle.Staking)
    (denomMetaData : SortedMap String Metadata) (es : List Event) :
    Runs.Along (step env) (WindowKept env)
        (genesis height st denomMetaData ⟨defaultParams, []⟩) es ↔
      Runs.Along (step env) (LeavesRoom env)
        (genesis height st denomMetaData ⟨defaultParams, []⟩) es := by
  apply Runs.along_congr_while (I := fun c => Sound c ∧ Within c.oracle.oracle c.fee) _ windowKept_iff
  · exact ⟨sound_genesis hheight st denomMetaData Params.valid_defaultParams,
      within_defaults⟩
  · rintro c e c' ⟨hs, _⟩ hkept hstep
    exact ⟨sound_step c e c' hs hstep, hkept.1 c' hstep⟩

end Runs

namespace ShortDuration
open SameSecond (env staking)

/-- A minute, where the window is two. -/
def shortened : Event := .oracle (.message (.updateParams
  ⟨"gov", { Oracle.defaultParams with lookbackDuration := 60 }⟩))

def extended : Event := .oracle (.message (.updateParams
  ⟨"gov", { Oracle.defaultParams with lookbackDuration := 7200 }⟩))

theorem shortened_breaks_window :
    ¬ Runs.Along (step env) (WindowKept env) (genesis 0 staking ∅ ⟨defaultParams, []⟩)
      [shortened] := by
  intro h
  have hle : defaultParams.twapLookbackWindow ≤ 60 := (h.1.1 _ rfl).1
  revert hle
  decide

theorem extended_keeps_window :
    Runs.Along (step env) (WindowKept env) (genesis 0 staking ∅ ⟨defaultParams, []⟩) [extended] := by
  rw [window_kept_iff (by norm_num) staking ∅ [extended]]
  refine ⟨fun _ _ => ?_, fun _ _ => trivial⟩
  change 120 ≤ 7200
  omega

end ShortDuration

end Kiichain.FeeAbstraction
