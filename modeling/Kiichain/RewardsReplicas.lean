import Kiichain.RewardsLiveness

/-!
# Schedule changes on two replicas

Two executions of the same message in the same block differ only in their
readings of the local clock. They agree exactly when the message is refused
before the clock is read, or when the readings fall on the same sides of the
schedule's end and of its last release.
-/

namespace Kiichain.Rewards
open GoExec FixedPoint

variable (k : Keeper) (s : State) (ctx : Context) (msg : MsgChangeSchedule)

/-- The checks that come before the first use of the clock. -/
def checksBeforeClock : Exec Unit := do
  validateAuthority k msg.authority
  wrapped "invalid schedule: " do
    wrapped "invalid total amount: " (validateAmount msg.schedule.totalAmount)
    ensure (s.params.tokenDenom = msg.schedule.totalAmount.denom)
      (.error "denom %s does not match expected denom: %s")
    validateReleasedAmount msg.schedule
    ensure (msg.schedule.endTime ≠ 0) (.error "end time cannot be zero")

/-- What remains once both comparisons with the clock have passed. -/
def settled : Exec State := do
  wrapped "invalid schedule: " do
    ensure (msg.schedule.lastReleaseTime = 0 ∨ msg.schedule.lastReleaseTime ≤ msg.schedule.endTime)
      (.error "last release time %s cannot be after end time %s")
    validateActive msg.schedule
  wrapped "insufficient funds: " (fundsAvailable s msg.schedule.totalAmount)
  pure { s with releaseSchedule := msg.schedule }

def EndPassed : Prop := msg.schedule.endTime < ctx.endTimeNow

def ReleaseAhead : Prop :=
  msg.schedule.lastReleaseTime ≠ 0 ∧ ctx.currentTime < msg.schedule.lastReleaseTime

instance : Decidable (EndPassed ctx msg) := inferInstanceAs (Decidable (_ < _))

instance : Decidable (ReleaseAhead ctx msg) := inferInstanceAs (Decidable (_ ∧ _))

def SameSides (ctx₁ ctx₂ : Context) (msg : MsgChangeSchedule) : Prop :=
  (EndPassed ctx₁ msg ↔ EndPassed ctx₂ msg) ∧
    (¬ EndPassed ctx₁ msg → (ReleaseAhead ctx₁ msg ↔ ReleaseAhead ctx₂ msg))

theorem wrapped_bind {α β : Type} (lead : String) (x : Exec α) (f : α → Exec β) :
    wrapped lead (x >>= f) = wrapped lead x >>= fun a => wrapped lead (f a) := by
  cases x with
  | ok a => rfl
  | error e => cases e <;> rfl

/-- The part of the schedule's validation that follows the first use of the clock. -/
def validateFromClock (schedule : ReleaseSchedule) : Exec Unit := do
  validateEndTime ctx schedule.endTime
  validateLastReleaseTime ctx schedule
  validateActive schedule

theorem validateFromClock_bind :
    (wrapped "invalid schedule: " (validateFromClock ctx msg.schedule) >>= fun _ =>
      wrapped "insufficient funds: " (fundsAvailable s msg.schedule.totalAmount) >>= fun _ =>
        pure { s with releaseSchedule := msg.schedule }) =
      if EndPassed ctx msg then fail "invalid schedule: end time %s is not in the future"
      else if ReleaseAhead ctx msg then
        fail "invalid schedule: last release time %s cannot be in the future"
      else settled s msg := by
  unfold validateFromClock validateEndTime validateLastReleaseTime settled
  by_cases hend : msg.schedule.endTime < ctx.endTimeNow
  · rw [if_pos (show EndPassed ctx msg from hend), ensure_of_not (not_not.mpr hend)]
    rfl
  · rw [if_neg (show ¬ EndPassed ctx msg from hend), ensure_of hend, ok_bind]
    by_cases hzero : msg.schedule.lastReleaseTime = 0
    · have hahead : ¬ ReleaseAhead ctx msg := fun h => h.1 hzero
      rw [if_neg hahead, if_pos hzero, ensure_of (Or.inl hzero)]
      rfl
    · by_cases hlast : msg.schedule.lastReleaseTime ≤ ctx.currentTime
      · have hahead : ¬ ReleaseAhead ctx msg := fun h => absurd hlast (not_le.mpr h.2)
        rw [if_neg hahead, if_neg hzero, ensure_of hlast, ok_bind]
        simp only [hzero, false_or]
      · have hahead : ReleaseAhead ctx msg := ⟨hzero, not_le.mp hlast⟩
        rw [if_pos hahead, if_neg hzero, ensure_of_not hlast]
        rfl

/-- The handler as a function of the two comparisons with the clock. -/
theorem changeSchedule_eq :
    changeSchedule k ctx s msg = checksBeforeClock k s msg >>= fun _ =>
      if EndPassed ctx msg then fail "invalid schedule: end time %s is not in the future"
      else if ReleaseAhead ctx msg then
        fail "invalid schedule: last release time %s cannot be in the future"
      else settled s msg := by
  rw [← validateFromClock_bind]
  simp only [changeSchedule, validateSchedule, checksBeforeClock, validateFromClock, wrapped_bind,
    bind_assoc]

theorem ensure_cases (p : Prop) [Decidable p] (f : Fault) :
    ensure p f = .ok () ∨ ensure p f = .error f := by
  by_cases h : p
  · exact Or.inl (ensure_of h)
  · exact Or.inr (ensure_of_not h)

theorem validateActive_cases (schedule : ReleaseSchedule) :
    validateActive schedule = .ok () ∨
      validateActive schedule = fail "active schedule cannot have zero total amount" ∨
      validateActive schedule = fail "active schedule must have an end time" := by
  unfold validateActive
  split_ifs with hactive
  · obtain h | h := ensure_cases (¬ schedule.totalAmount.isZero = true)
      (.error "active schedule cannot have zero total amount")
    · rw [h, ok_bind]
      exact (ensure_cases _ _).imp_right Or.inr
    · rw [h]
      exact Or.inr (Or.inl rfl)
  · exact Or.inl rfl

/-- The remaining checks have errors of their own. -/
theorem settled_cases :
    Returns (settled s msg) ∨
      settled s msg = fail "invalid schedule: last release time %s cannot be after end time %s" ∨
      settled s msg = fail "invalid schedule: active schedule cannot have zero total amount" ∨
      settled s msg = fail "invalid schedule: active schedule must have an end time" ∨
      settled s msg =
        fail "insufficient funds: reward pool (%s) has less funds than requested (%s)" := by
  unfold settled
  obtain h | h := ensure_cases
    (msg.schedule.lastReleaseTime = 0 ∨ msg.schedule.lastReleaseTime ≤ msg.schedule.endTime)
    (.error "last release time %s cannot be after end time %s")
  · rw [h, ok_bind]
    obtain h | h | h := validateActive_cases msg.schedule
    · rw [h]
      unfold fundsAvailable
      obtain h | h := ensure_cases
        (¬ DecCoins.amountOf s.rewardPool msg.schedule.totalAmount.denom <
          Decimal.ofInt msg.schedule.totalAmount.amount.val)
        (.error "reward pool (%s) has less funds than requested (%s)")
      · rw [h]
        exact Or.inl (returns_ok _)
      · rw [h]
        exact Or.inr (Or.inr (Or.inr (Or.inr rfl)))
    · rw [h]
      exact Or.inr (Or.inr (Or.inl rfl))
    · rw [h]
      exact Or.inr (Or.inr (Or.inr (Or.inl rfl)))
  · rw [h]
    exact Or.inr (Or.inl rfl)

theorem settled_ne_endPassed :
    settled s msg ≠ fail "invalid schedule: end time %s is not in the future" := by
  intro hc
  obtain ⟨t, h⟩ | h | h | h | h := settled_cases s msg <;>
    rw [h] at hc <;> simp [fail] at hc

theorem settled_ne_releaseAhead :
    settled s msg ≠ fail "invalid schedule: last release time %s cannot be in the future" := by
  intro hc
  obtain ⟨t, h⟩ | h | h | h | h := settled_cases s msg <;>
    rw [h] at hc <;> simp [fail] at hc

/-- Replicas that process a schedule change in the same block, on the same
state, return the same result and leave the same state if and only if the
message is refused before the clock is read or the clocks are on the same sides
of its times. -/
theorem changeSchedule_agrees_iff (k : Keeper) (s : State) (msg : MsgChangeSchedule)
    (blockTime now₁ now₂ end₁ end₂ : ℤ) :
    changeSchedule k ⟨blockTime, now₁, end₁⟩ s msg = changeSchedule k ⟨blockTime, now₂, end₂⟩ s msg ↔
      ¬ Returns (checksBeforeClock k s msg) ∨
        SameSides ⟨blockTime, now₁, end₁⟩ ⟨blockTime, now₂, end₂⟩ msg := by
  rw [changeSchedule_eq, changeSchedule_eq]
  cases hpre : checksBeforeClock k s msg with
  | error f => simp
  | ok u =>
      simp only [ok_bind, returns_ok, not_true_eq_false, false_or, SameSides]
      have hne : (fail "invalid schedule: end time %s is not in the future" : Exec State) ≠
          fail "invalid schedule: last release time %s cannot be in the future" := by simp [fail]
      have hend := settled_ne_endPassed s msg
      have hahead := settled_ne_releaseAhead s msg
      by_cases h₁ : EndPassed ⟨blockTime, now₁, end₁⟩ msg <;>
        by_cases h₂ : EndPassed ⟨blockTime, now₂, end₂⟩ msg <;>
        by_cases g₁ : ReleaseAhead ⟨blockTime, now₁, end₁⟩ msg <;>
        by_cases g₂ : ReleaseAhead ⟨blockTime, now₂, end₂⟩ msg <;>
        simp [h₁, h₂, g₁, g₂, hne, hne.symm, hend, hend.symm, hahead, hahead.symm]

namespace StraddledEnd

def keeper : Keeper := ⟨"gov", "fee_collector", fun address => some (.user address)⟩

def funded : State where
  params := defaultParams
  rewardPool := .ofList [("akii", ⟨1000000000000000000000⟩)]
  releaseSchedule := initialReleaseSchedule
  bank := ⟨fun _ _ => 1000, fun _ _ => 0, fun _ => 1000⟩

def endTime : ℤ := 63900000000000000000

def message : MsgChangeSchedule :=
  ⟨"gov", ⟨⟨"akii", HaltingRun.amount⟩, ⟨"akii", 0⟩, endTime, 0, true⟩⟩

/-- A clock a second before the end accepts what a clock a second after refuses. -/
theorem clocks_fork :
    changeSchedule keeper ⟨endTime, endTime - 1000000000, endTime - 1000000000⟩ funded message ≠
      changeSchedule keeper ⟨endTime, endTime + 1000000000, endTime + 1000000000⟩ funded message := by
  intro h
  exact absurd (congrArg Except.toBool h) (by decide)

end StraddledEnd

end Kiichain.Rewards
