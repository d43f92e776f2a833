import Kiichain.OracleReference
import Kiichain.OracleRuntime

/-!
# The partition of the ballots

The selection of the reference denomination parts the ballots of the targets by
whether they pass. A ballot without power never does, also where the threshold
of a small bonded power is rounded to zero.
-/

namespace Kiichain.Oracle
open GoExec FixedPoint

/-- The outcome of the selection, for a condition on the ballots that stay. -/
structure Partition (passes : Ballot → Prop) (targets : SortedMap String Denom) (votes : VoteMap)
    (p : Pick) : Prop where
  kept : ∀ d b, p.voteMap.get? d = some b ↔
    votes.get? d = some b ∧ (targets.get? d).isSome = true ∧ passes b
  below : ∀ d b, p.belowThresholdVoteMap.get? d = some b ↔
    votes.get? d = some b ∧ (targets.get? d).isSome = true ∧ ¬ passes b
  lost : ∀ d, p.voteTargets.get? d =
    if (p.belowThresholdVoteMap.get? d).isSome then none else targets.get? d
  best : ∀ d c, p.voteMap.get? d = some c → ∃ b, p.voteMap.get? p.referenceDenom = some b ∧
    (c.power < b.power ∨ c.power = b.power ∧ p.referenceDenom ≤ d)
  empty : p.referenceDenom = "" ↔ ∀ d, p.voteMap.get? d = none

/-- The ballot has power, and reaches the threshold. -/
def Passes (threshold : ℤ) (b : Ballot) : Prop := b.power ≠ 0 ∧ threshold ≤ b.power

section Settled

variable {threshold : ℤ} {targets : SortedMap String Denom} {votes : VoteMap} {p : Pick}

theorem not_passes_iff {b : Ballot} : ballotIsPassing b threshold = false ↔ ¬ Passes threshold b := by
  rw [← Bool.not_eq_true, ballotIsPassing_iff]
  exact Iff.rfl

/-- The best denomination among those of the map is the best of what is kept. -/
theorem best_of_isBest {l : List String} (hl : ∀ d b, votes.get? d = some b → d ∈ l)
    {denom : String} {power : ℤ} (h : IsBest threshold targets votes l denom power) {d : String}
    {c : Ballot} (hc : passingBallot threshold targets votes d = some c) :
    ∃ b, passingBallot threshold targets votes denom = some b ∧
      (c.power < b.power ∨ c.power = b.power ∧ denom ≤ d) := by
  have hd : d ∈ l := hl d c (passingBallot_eq_some.mp hc).1
  obtain ⟨_, _, hnone⟩ | ⟨_, ⟨b, hb, rfl⟩, hall⟩ := h
  · rw [hnone d hd] at hc
    cases hc
  · exact ⟨b, hb, hall d hd c hc⟩

theorem partition_of_settled (hnamed : targets.get? "" = none)
    (h : Settled threshold targets votes p) : Partition (Passes threshold) targets votes p := by
  have hmem : ∀ d b, votes.get? d = some b → d ∈ votes.keys := fun d b hb =>
    SortedMap.mem_keys.mpr ⟨b, hb⟩
  refine ⟨fun d b => ?_, fun d b => ?_, fun d => ?_, fun d c hc => ?_, fun hempty d => ?_,
    fun hnone => ?_⟩
  · rw [h.voteMap, passingBallot_eq_some, ballotIsPassing_iff]
    exact Iff.rfl
  · rw [h.below, failingBallot_eq_some, not_passes_iff]
  · rw [h.voteTargets, h.below]
  · rw [h.voteMap] at hc ⊢
    exact best_of_isBest hmem h.best hc
  · -- a passing denomination would make the best one a target, and the empty name is none
    rw [h.voteMap, Option.eq_none_iff_forall_ne_some]
    intro c hc
    obtain ⟨b, hb, _⟩ := best_of_isBest hmem h.best hc
    rw [hempty] at hb
    have htarget := (passingBallot_eq_some.mp hb).2.1
    rw [hnamed] at htarget
    cases htarget
  · obtain ⟨hden, _, _⟩ | ⟨_, ⟨b, hb, _⟩, _⟩ := h.best
    · exact hden
    · have hget := hnone p.referenceDenom
      rw [h.voteMap, hb] at hget
      cases hget

end Settled

namespace SmallStake

/-- A third and a bit of one unit of power is rounded to nothing. -/
def params : Params := { defaultParams with voteThreshold := ⟨340000000000000000⟩ }

def targets : SortedMap String Denom := SortedMap.ofList [("ubtc", ⟨"ubtc"⟩), ("ueth", ⟨"ueth"⟩)]

/-- The one validator abstains on one denomination and votes on the other. -/
def votes : VoteMap :=
  SortedMap.ofList [("ubtc", [⟨"ubtc", 0, "v1", 0⟩]), ("ueth", [⟨"ueth", 1, "v1", 1⟩])]

theorem threshold_eq : thresholdVotes .single params = .ok 0 := by decide

theorem picked : (pickReferenceDenom .ascending .single params targets votes).toOption.map
    (fun p => (p.referenceDenom, p.voteMap.keys, p.belowThresholdVoteMap.keys)) =
      some ("ueth", ["ueth"], ["ubtc"]) := by decide

end SmallStake

end Kiichain.Oracle
