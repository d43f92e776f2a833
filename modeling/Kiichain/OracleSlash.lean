import Kiichain.OracleWrites

/-!
# The begin blocker

On the last block of a slash window the counters are walked: an operator whose
share of successes is too small is slashed, and its counter is removed. The
staking module's slash enters as a parameter that returns normally.
-/

namespace Kiichain.Oracle
open GoExec FixedPoint

/-- A slash by consensus address, infraction height, power and fraction. -/
abbrev Slash := Staking → String → ℤ → ℤ → LegacyDec → Staking

namespace VotePenaltyCounter

/-- The sum as the code forms it, in unsigned 64-bit numbers. -/
def totalVotes (c : VotePenaltyCounter) : ℕ :=
  (c.successCount + c.abstainCount + c.missCount) % 2 ^ 64

def sum (c : VotePenaltyCounter) : ℕ := c.successCount + c.abstainCount + c.missCount

def validVoteRate (c : VotePenaltyCounter) : Exec LegacyDec :=
  Decimal.quoInt (.ofInt (GoTime.int64 c.successCount)) (GoTime.int64 c.totalVotes)

end VotePenaltyCounter

section Slash

variable (slash : Slash) (blk : Block) (params : Params)

def validatorUpdateDelay : ℤ := 1

def slashOperator (st : Staking) (operator : ValAddress) (counter : VotePenaltyCounter) :
    Exec Staking := do
  let rate ← counter.validVoteRate
  if rate < params.minValidPerWindow then do
    let validator ← require (st.validators.get? operator) (.panic "validator does not exist")
    if validator.bonded ∧ ¬ validator.jailed then do
      let consAddr ← require validator.consAddr (.panic "expecting cryptotypes.PubKey, got %T")
      pure (slash st consAddr (blk.height - validatorUpdateDelay - 1)
        (validator.consensusPower st.powerReduction) params.slashFraction)
    else pure st
  else pure st

/-- A counter without votes stays in the store. -/
def slashAndReset (acc : Staking × SortedMap ValAddress VotePenaltyCounter)
    (entry : ValAddress × VotePenaltyCounter) :
    Exec (Staking × SortedMap ValAddress VotePenaltyCounter) :=
  if entry.2.totalVotes = 0 then pure acc
  else do
    let st ← slashOperator slash blk params acc.1 entry.1 entry.2
    pure (st, acc.2.erase entry.1)

def slashAndResetCounters (st : Staking) (s : State) : Exec (Staking × State) := do
  let (st, counters) ← s.votePenaltyCounter.entries.foldlM (slashAndReset slash blk s.params)
    (st, s.votePenaltyCounter)
  pure (st, { s with votePenaltyCounter := counters })

def removeExcessFeeds (s : State) : State :=
  let excessActives := s.exchangeRate.filter (fun denom _ => (s.voteTarget.get? denom).isNone)
  { s with exchangeRate :=
      (sortStrings excessActives.keys).foldl (fun m denom => m.erase denom) s.exchangeRate }

def beginBlocker (st : Staking) (s : State) : Exec (Staking × State) := do
  let last ← isPeriodLastBlock blk s.params.slashWindow
  if last then do
    let (st, s) ← slashAndResetCounters slash blk st s
    pure (st, removeExcessFeeds s)
  else pure (st, s)

end Slash

section Reset

variable {slash : Slash} {blk : Block} {params : Params}

def resetEntry (m : SortedMap ValAddress VotePenaltyCounter)
    (entry : ValAddress × VotePenaltyCounter) : SortedMap ValAddress VotePenaltyCounter :=
  if entry.2.totalVotes = 0 then m else m.erase entry.1

theorem slashAndReset_counters {acc acc' : Staking × SortedMap ValAddress VotePenaltyCounter}
    {entry : ValAddress × VotePenaltyCounter}
    (h : slashAndReset slash blk params acc entry = .ok acc') :
    acc'.2 = resetEntry acc.2 entry := by
  unfold slashAndReset at h
  unfold resetEntry
  split_ifs at h ⊢
  · cases h
    rfl
  · rw [bind_eq_ok] at h
    obtain ⟨st, _, h⟩ := h
    cases h
    rfl

/-- The walk removes the counters that hold votes. -/
theorem get?_foldl_resetEntry (l : List (ValAddress × VotePenaltyCounter))
    (m : SortedMap ValAddress VotePenaltyCounter) (a : ValAddress) :
    (l.foldl resetEntry m).get? a =
      if l.any (fun e => e.1 = a ∧ e.2.totalVotes ≠ 0) then none else m.get? a := by
  induction l generalizing m with
  | nil => simp
  | cons e l ih =>
      rw [List.foldl_cons, ih, resetEntry, List.any_cons]
      by_cases hzero : e.2.totalVotes = 0
      · rw [if_pos hzero, decide_eq_false (fun h => h.2 hzero), Bool.false_or]
      · rw [if_neg hzero, SortedMap.get?_erase]
        by_cases ha : e.1 = a
        · rw [if_pos ha, decide_eq_true ⟨ha, hzero⟩, Bool.true_or, if_pos rfl, ite_self]
        · rw [if_neg ha, decide_eq_false (fun h => ha h.1), Bool.false_or]

/-- The frame of a begin blocker, and what it leaves of the counters. -/
theorem beginBlocker_frame {st st' : Staking} {s t : State}
    (h : beginBlocker slash blk st s = .ok (st', t)) :
    ∃ rates counters, t = { s with exchangeRate := rates, votePenaltyCounter := counters } ∧
      ∀ a, counters.get? a =
        if (blk.height + 1) % s.params.slashWindow = 0 ∧
          ∃ c, s.votePenaltyCounter.get? a = some c ∧ c.totalVotes ≠ 0 then none
        else s.votePenaltyCounter.get? a := by
  rw [beginBlocker, bind_eq_ok] at h
  obtain ⟨last, hlast, h⟩ := h
  obtain ⟨_, rfl⟩ := isPeriodLastBlock_eq_ok.mp hlast
  by_cases hwindow : (blk.height + 1) % s.params.slashWindow = 0
  · rw [if_pos (decide_eq_true hwindow), bind_eq_ok] at h
    obtain ⟨⟨st₁, s₁⟩, hreset, h⟩ := h
    rw [slashAndResetCounters, bind_eq_ok] at hreset
    obtain ⟨⟨st₂, counters⟩, hloop, hreset⟩ := hreset
    cases hreset
    cases h
    refine ⟨_, counters, rfl, fun a => ?_⟩
    have hview := foldlM_proj Prod.snd (g := resetEntry)
      (fun _ _ _ _ hturn => slashAndReset_counters hturn) hloop
    simp only at hview
    have hiff : s.votePenaltyCounter.entries.any (fun e => e.1 = a ∧ e.2.totalVotes ≠ 0) = true ↔
        ∃ c, s.votePenaltyCounter.get? a = some c ∧ c.totalVotes ≠ 0 := by
      simp only [List.any_eq_true, decide_eq_true_eq]
      constructor
      · rintro ⟨⟨b, c⟩, he, rfl, hc⟩
        exact ⟨c, SortedMap.get?_eq_some.mpr he, hc⟩
      · rintro ⟨c, hget, hc⟩
        exact ⟨(a, c), SortedMap.get?_eq_some.mp hget, rfl, hc⟩
    rw [hview, get?_foldl_resetEntry]
    apply if_congr _ rfl rfl
    rw [hiff, and_iff_right hwindow]
  · rw [if_neg (by simpa using hwindow)] at h
    cases h
    exact ⟨_, _, rfl, fun a => by simp [hwindow]⟩

end Reset

end Kiichain.Oracle
