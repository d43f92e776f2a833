import Kiichain.OracleVoteMap

/-!
# What the selection of the reference denomination computes

Whatever the order in which the selection loop meets the ballots, it keeps the
ballots that pass, moves those that fail out of the targets, and names the
passing ballot of greatest power, the first by name among equals.
-/

namespace Kiichain.Oracle
open GoExec FixedPoint

section Selection

variable (threshold : ℤ) (targets : SortedMap String Denom) (votes : VoteMap)

def passingBallot (denom : String) : Option Ballot :=
  (votes.get? denom).filter
    (fun b => (targets.get? denom).isSome && ballotIsPassing b threshold)

def failingBallot (denom : String) : Option Ballot :=
  (votes.get? denom).filter
    (fun b => (targets.get? denom).isSome && !ballotIsPassing b threshold)

/-- The named denomination is the best among those of `l`, or there is none. -/
def IsBest (l : List String) (denom : String) (power : ℤ) : Prop :=
  (denom = "" ∧ power = 0 ∧ ∀ d ∈ l, passingBallot threshold targets votes d = none) ∨
    (denom ∈ l ∧ (∃ b, passingBallot threshold targets votes denom = some b ∧ b.power = power) ∧
      ∀ d ∈ l, ∀ b, passingBallot threshold targets votes d = some b →
        b.power < power ∨ b.power = power ∧ denom ≤ d)

/-- The loop's variables once the denominations of `l` have been met. -/
structure Selected (l : List String) (p : Pick) : Prop where
  voteMap : ∀ d, p.voteMap.get? d =
    if d ∈ l then passingBallot threshold targets votes d else votes.get? d
  below : ∀ d, p.belowThresholdVoteMap.get? d =
    if d ∈ l then failingBallot threshold targets votes d else none
  voteTargets : ∀ d, p.voteTargets.get? d =
    if d ∈ l ∧ (failingBallot threshold targets votes d).isSome then none else targets.get? d
  best : IsBest threshold targets votes l p.referenceDenom p.highestBallotPower

variable {threshold targets votes}

theorem passingBallot_eq_some {d : String} {b : Ballot} :
    passingBallot threshold targets votes d = some b ↔
      votes.get? d = some b ∧ (targets.get? d).isSome = true ∧ ballotIsPassing b threshold = true := by
  rw [passingBallot, Option.filter_eq_some_iff, Bool.and_eq_true]

theorem failingBallot_eq_some {d : String} {b : Ballot} :
    failingBallot threshold targets votes d = some b ↔
      votes.get? d = some b ∧ (targets.get? d).isSome = true ∧
        ballotIsPassing b threshold = false := by
  rw [failingBallot, Option.filter_eq_some_iff, Bool.and_eq_true, Bool.not_eq_true']

theorem ballotIsPassing_iff {b : Ballot} :
    ballotIsPassing b threshold = true ↔ b.power ≠ 0 ∧ threshold ≤ b.power := by
  simp [ballotIsPassing]

/-- A passing ballot has positive power where no ballot has a negative one. -/
theorem passing_pos_of_nonneg (hnonneg : ∀ d b, votes.get? d = some b → 0 ≤ b.power) (d : String)
    (b : Ballot) (h : passingBallot threshold targets votes d = some b) : 0 < b.power := by
  obtain ⟨hget, _, hpass⟩ := passingBallot_eq_some.mp h
  have h0 := hnonneg d b hget
  have hne := (ballotIsPassing_iff.mp hpass).1
  omega

/-- It also has where the threshold is not negative. -/
theorem passing_pos_of_threshold (hthreshold : 0 ≤ threshold) (d : String) (b : Ballot)
    (h : passingBallot threshold targets votes d = some b) : 0 < b.power := by
  obtain ⟨hne, hle⟩ := ballotIsPassing_iff.mp (passingBallot_eq_some.mp h).2.2
  omega

theorem selected_nil :
    Selected threshold targets votes [] ⟨"", 0, ∅, targets, votes⟩ :=
  ⟨fun d => by simp, fun d => by simp, fun d => by simp, Or.inl ⟨rfl, rfl, by simp⟩⟩

/-- A denomination without a passing ballot leaves the best one as it was. -/
theorem isBest_append_of_none {l : List String} {denom d : String} {power : ℤ}
    (h : IsBest threshold targets votes l denom power)
    (hd : passingBallot threshold targets votes d = none) :
    IsBest threshold targets votes (l ++ [d]) denom power := by
  have hmem : ∀ e ∈ l ++ [d], e ∈ l ∨ e = d := fun e he => by simpa using he
  obtain ⟨hden, hpow, hnone⟩ | ⟨hin, hself, hall⟩ := h
  · refine Or.inl ⟨hden, hpow, fun e he => ?_⟩
    obtain he | rfl := hmem e he
    · exact hnone e he
    · exact hd
  · refine Or.inr ⟨List.mem_append_left _ hin, hself, fun e he b hb => ?_⟩
    obtain he | rfl := hmem e he
    · exact hall e he b hb
    · rw [hd] at hb
      cases hb

theorem isBest_first {l : List String} {d : String} {b : Ballot}
    (hnone : ∀ e ∈ l, passingBallot threshold targets votes e = none)
    (hb : passingBallot threshold targets votes d = some b) :
    IsBest threshold targets votes (l ++ [d]) d b.power := by
  refine Or.inr ⟨by simp, ⟨b, hb, rfl⟩, fun e he c hc => ?_⟩
  obtain he | rfl : e ∈ l ∨ e = d := by simpa using he
  · rw [hnone e he] at hc
    cases hc
  · rw [hb] at hc
    cases hc
    exact Or.inr ⟨rfl, le_rfl⟩

/-- Against a positive best power the loop compares power first and names second. -/
theorem isBest_pickBest {l : List String} {p : Pick} {d : String} {b : Ballot}
    (hpos : ∀ d b, passingBallot threshold targets votes d = some b → 0 < b.power)
    (h : IsBest threshold targets votes l p.referenceDenom p.highestBallotPower)
    (hb : passingBallot threshold targets votes d = some b) :
    IsBest threshold targets votes (l ++ [d]) (pickBest p d b.power).referenceDenom
      (pickBest p d b.power).highestBallotPower := by
  unfold pickBest
  obtain ⟨_, hzero, hnone⟩ | ⟨hin, ⟨r, hr, hrp⟩, hall⟩ := h
  · rw [if_pos (Or.inr hzero)]
    exact isBest_first hnone hb
  · have hbest : 0 < p.highestBallotPower := hrp ▸ hpos _ r hr
    have hmem : ∀ e ∈ l ++ [d], ∀ c, passingBallot threshold targets votes e = some c →
        (c.power < p.highestBallotPower ∨
          c.power = p.highestBallotPower ∧ p.referenceDenom ≤ e) ∨ e = d ∧ c = b := by
      intro e he c hc
      obtain he | rfl : e ∈ l ∨ e = d := by simpa using he
      · exact Or.inl (hall e he c hc)
      · rw [hb] at hc
        cases hc
        exact Or.inr ⟨rfl, rfl⟩
    apply Or.inr
    by_cases hgt : b.power > p.highestBallotPower
    · rw [if_pos (Or.inl hgt)]
      refine ⟨by simp, ⟨b, hb, rfl⟩, fun e he c hc => ?_⟩
      obtain (hlt | ⟨heq, _⟩) | ⟨rfl, rfl⟩ := hmem e he c hc
      · exact Or.inl (hlt.trans hgt)
      · exact Or.inl (heq ▸ hgt)
      · exact Or.inr ⟨rfl, le_rfl⟩
    · rw [if_neg (by omega)]
      by_cases heq : b.power = p.highestBallotPower ∧ d < p.referenceDenom
      · rw [if_pos heq]
        refine ⟨by simp, ⟨b, hb, heq.1⟩, fun e he c hc => ?_⟩
        obtain (hlt | ⟨hc, hle⟩) | ⟨rfl, rfl⟩ := hmem e he c hc
        · exact Or.inl hlt
        · exact Or.inr ⟨hc, heq.2.le.trans hle⟩
        · exact Or.inr ⟨heq.1, le_rfl⟩
      · rw [if_neg heq]
        refine ⟨List.mem_append_left _ hin, ⟨r, hr, hrp⟩, fun e he c hc => ?_⟩
        obtain hold | ⟨rfl, rfl⟩ := hmem e he c hc
        · exact hold
        · rcases lt_or_eq_of_le (not_lt.mp hgt) with hlt | heq'
          · exact Or.inl hlt
          · exact Or.inr ⟨heq', not_lt.mp (fun hlt => heq ⟨heq', hlt⟩)⟩

theorem pickBest_maps (p : Pick) (d : String) (power : ℤ) :
    (pickBest p d power).voteMap = p.voteMap ∧
      (pickBest p d power).belowThresholdVoteMap = p.belowThresholdVoteMap ∧
      (pickBest p d power).voteTargets = p.voteTargets := by
  unfold pickBest
  split_ifs <;> exact ⟨rfl, rfl, rfl⟩

theorem mem_append_iff_of_ne {l : List String} {d e : String} (h : d ≠ e) :
    e ∈ l ++ [d] ↔ e ∈ l := by
  simp [Ne.symm h]

/-- A turn settles its own denomination and leaves the others. -/
theorem selected_of_turn {l : List String} {p q : Pick} {d : String}
    (h : Selected threshold targets votes l p)
    (hother : ∀ e, d ≠ e → q.voteMap.get? e = p.voteMap.get? e ∧
      q.belowThresholdVoteMap.get? e = p.belowThresholdVoteMap.get? e ∧
      q.voteTargets.get? e = p.voteTargets.get? e)
    (hvote : q.voteMap.get? d = passingBallot threshold targets votes d)
    (hbelow : q.belowThresholdVoteMap.get? d = failingBallot threshold targets votes d)
    (htarget : q.voteTargets.get? d =
      if (failingBallot threshold targets votes d).isSome then none else targets.get? d)
    (hbest : IsBest threshold targets votes (l ++ [d]) q.referenceDenom q.highestBallotPower) :
    Selected threshold targets votes (l ++ [d]) q := by
  have hmem : d ∈ l ++ [d] := by simp
  refine ⟨fun e => ?_, fun e => ?_, fun e => ?_, hbest⟩
  · by_cases he : d = e
    · subst he
      rw [if_pos hmem, hvote]
    · simp only [mem_append_iff_of_ne he]
      rw [(hother e he).1, h.voteMap]
  · by_cases he : d = e
    · subst he
      rw [if_pos hmem, hbelow]
    · simp only [mem_append_iff_of_ne he]
      rw [(hother e he).2.1, h.below]
  · by_cases he : d = e
    · subst he
      simp only [hmem, true_and]
      exact htarget
    · simp only [mem_append_iff_of_ne he]
      rw [(hother e he).2.2, h.voteTargets]

section Turn

variable {p : Pick} {d : String} {b : Ballot} {item : Denom}

theorem pickStep_of_none (hv : p.voteMap.get? d = none) : pickStep threshold p d = p := by
  simp [pickStep, hv]

theorem pickStep_of_untargeted (hv : p.voteMap.get? d = some b) (ht : p.voteTargets.get? d = none) :
    pickStep threshold p d = { p with voteMap := p.voteMap.erase d } := by
  simp [pickStep, hv, ht]

theorem pickStep_of_passing (hv : p.voteMap.get? d = some b) (ht : p.voteTargets.get? d = some item)
    (hpass : ballotIsPassing b threshold = true) : pickStep threshold p d = pickBest p d b.power := by
  simp [pickStep, hv, ht, hpass]

theorem pickStep_of_failing (hv : p.voteMap.get? d = some b) (ht : p.voteTargets.get? d = some item)
    (hpass : ballotIsPassing b threshold = false) : pickStep threshold p d = { p with
      belowThresholdVoteMap := p.belowThresholdVoteMap.insert d b
      voteTargets := p.voteTargets.erase d
      voteMap := p.voteMap.erase d } := by
  simp [pickStep, hv, ht, hpass]

end Turn

/-- One turn of the loop, on a denomination it has not met yet. -/
theorem selected_step {l : List String} {p : Pick} {d : String}
    (hpos : ∀ d b, passingBallot threshold targets votes d = some b → 0 < b.power) (hd : d ∉ l)
    (h : Selected threshold targets votes l p) :
    Selected threshold targets votes (l ++ [d]) (pickStep threshold p d) := by
  have hvote : p.voteMap.get? d = votes.get? d := by rw [h.voteMap, if_neg hd]
  have hbelow : p.belowThresholdVoteMap.get? d = none := by rw [h.below, if_neg hd]
  have htarget : p.voteTargets.get? d = targets.get? d := by
    rw [h.voteTargets, if_neg (fun hc => hd hc.1)]
  cases hv : votes.get? d with
  | none =>
      have hp : passingBallot threshold targets votes d = none := by simp [passingBallot, hv]
      have hf : failingBallot threshold targets votes d = none := by simp [failingBallot, hv]
      rw [pickStep_of_none (hvote.trans hv)]
      apply selected_of_turn h (fun e _ => ⟨rfl, rfl, rfl⟩)
      · rw [hp, hvote, hv]
      · rw [hf, hbelow]
      · rw [hf, htarget]
        rfl
      · exact isBest_append_of_none h.best hp
  | some b =>
      cases ht : targets.get? d with
      | none =>
          have hp : passingBallot threshold targets votes d = none := by
            simp [passingBallot, hv, ht]
          have hf : failingBallot threshold targets votes d = none := by
            simp [failingBallot, hv, ht]
          rw [pickStep_of_untargeted (hvote.trans hv) (htarget.trans ht)]
          apply selected_of_turn h
          · intro e he
            exact ⟨by rw [SortedMap.get?_erase, if_neg he], rfl, rfl⟩
          · rw [SortedMap.get?_erase, if_pos rfl, hp]
          · rw [hf, hbelow]
          · rw [hf, htarget, ht]
            rfl
          · exact isBest_append_of_none h.best hp
      | some item =>
          cases hpass : ballotIsPassing b threshold with
          | true =>
              have hp : passingBallot threshold targets votes d = some b :=
                passingBallot_eq_some.mpr ⟨hv, by rw [ht]; rfl, hpass⟩
              have hf : failingBallot threshold targets votes d = none := by
                simp [failingBallot, hv, hpass]
              obtain ⟨hm1, hm2, hm3⟩ := pickBest_maps p d b.power
              rw [pickStep_of_passing (hvote.trans hv) (htarget.trans ht) hpass]
              apply selected_of_turn h
              · intro e _
                rw [hm1, hm2, hm3]
                exact ⟨rfl, rfl, rfl⟩
              · rw [hm1, hvote, hv, hp]
              · rw [hm2, hbelow, hf]
              · rw [hm3, htarget, hf]
                rfl
              · exact isBest_pickBest hpos h.best hp
          | false =>
              have hp : passingBallot threshold targets votes d = none := by
                simp [passingBallot, hv, hpass]
              have hf : failingBallot threshold targets votes d = some b :=
                failingBallot_eq_some.mpr ⟨hv, by rw [ht]; rfl, hpass⟩
              rw [pickStep_of_failing (hvote.trans hv) (htarget.trans ht) hpass]
              apply selected_of_turn h
              · intro e he
                simp [SortedMap.get?_erase, SortedMap.get?_insert, he]
              · simp [SortedMap.get?_erase, hp]
              · simp [hf]
              · simp [SortedMap.get?_erase, hf]
              · exact isBest_append_of_none h.best hp

/-- The loop over any list of distinct denominations. -/
theorem selected_foldl
    (hpos : ∀ d b, passingBallot threshold targets votes d = some b → 0 < b.power)
    {l : List String} (hl : l.Nodup) :
    Selected threshold targets votes l
      (l.foldl (pickStep threshold) ⟨"", 0, ∅, targets, votes⟩) := by
  induction l using List.reverseRecOn with
  | nil => exact selected_nil
  | append_singleton l d ih =>
      rw [List.nodup_append] at hl
      have hd : d ∉ l := fun h => hl.2.2 d h d (by simp) rfl
      rw [List.foldl_append]
      exact selected_step hpos hd (ih hl.1)

/-- The loop over all ballots settles every denomination. -/
structure Settled (threshold : ℤ) (targets : SortedMap String Denom) (votes : VoteMap)
    (p : Pick) : Prop where
  voteMap : ∀ d, p.voteMap.get? d = passingBallot threshold targets votes d
  below : ∀ d, p.belowThresholdVoteMap.get? d = failingBallot threshold targets votes d
  voteTargets : ∀ d, p.voteTargets.get? d =
    if (failingBallot threshold targets votes d).isSome then none else targets.get? d
  best : IsBest threshold targets votes votes.keys p.referenceDenom p.highestBallotPower

theorem isBest_perm {l l' : List String} (h : l.Perm l') {denom : String} {power : ℤ}
    (hbest : IsBest threshold targets votes l denom power) :
    IsBest threshold targets votes l' denom power := by
  unfold IsBest at hbest ⊢
  simpa only [h.mem_iff] using hbest

theorem settled_of_selected {l : List String} (hl : l.Perm votes.keys) {p : Pick}
    (h : Selected threshold targets votes l p) : Settled threshold targets votes p := by
  have hnone : ∀ d, d ∉ l → votes.get? d = none := fun d hd =>
    SortedMap.get?_eq_none.mpr (fun hk => hd (hl.mem_iff.mpr hk))
  refine ⟨fun d => ?_, fun d => ?_, fun d => ?_, isBest_perm hl h.best⟩
  · rw [h.voteMap]
    by_cases hd : d ∈ l
    · rw [if_pos hd]
    · simp [hd, passingBallot, hnone d hd]
  · rw [h.below]
    by_cases hd : d ∈ l
    · rw [if_pos hd]
    · simp [hd, failingBallot, hnone d hd]
  · rw [h.voteTargets]
    by_cases hd : d ∈ l
    · simp [hd]
    · simp [hd, failingBallot, hnone d hd]

/-- There is at most one best denomination. -/
theorem isBest_unique {l : List String} {d d' : String} {x x' : ℤ}
    (h : IsBest threshold targets votes l d x) (h' : IsBest threshold targets votes l d' x') :
    d = d' ∧ x = x' := by
  obtain ⟨rfl, rfl, hnone⟩ | ⟨hin, ⟨b, hb, hbx⟩, hall⟩ := h
  · obtain ⟨rfl, rfl, _⟩ | ⟨hin', ⟨b', hb', _⟩, _⟩ := h'
    · exact ⟨rfl, rfl⟩
    · rw [hnone d' hin'] at hb'
      cases hb'
  · obtain ⟨_, _, hnone'⟩ | ⟨hin', ⟨b', hb', hbx'⟩, hall'⟩ := h'
    · rw [hnone' d hin] at hb
      cases hb
    · have h1 := hall d' hin' b' hb'
      have h2 := hall' d hin b hb
      rw [hbx'] at h1
      rw [hbx] at h2
      obtain hlt | ⟨heq, hle⟩ := h1
      · omega
      · obtain hlt' | ⟨_, hle'⟩ := h2
        · omega
        · exact ⟨le_antisymm hle hle', heq.symm⟩

theorem settled_unique {p q : Pick} (hp : Settled threshold targets votes p)
    (hq : Settled threshold targets votes q) : p = q := by
  obtain ⟨hd, hx⟩ := isBest_unique hp.best hq.best
  have h1 : p.voteMap = q.voteMap :=
    SortedMap.ext_get? (fun d => by rw [hp.voteMap, hq.voteMap])
  have h2 : p.belowThresholdVoteMap = q.belowThresholdVoteMap :=
    SortedMap.ext_get? (fun d => by rw [hp.below, hq.below])
  have h3 : p.voteTargets = q.voteTargets :=
    SortedMap.ext_get? (fun d => by rw [hp.voteTargets, hq.voteTargets])
  cases p
  cases q
  simp_all

end Selection

section PickReferenceDenom

variable {o o' : IterationOrder} {st : Staking} {params : Params}
  {targets : SortedMap String Denom} {votes : VoteMap}

theorem pickReferenceDenom_eq_ok {p : Pick} :
    pickReferenceDenom o st params targets votes = .ok p ↔
      ∃ threshold, thresholdVotes st params = .ok threshold ∧
        p = (o.keys .pickReference votes.keys).foldl (pickStep threshold)
          ⟨"", 0, ∅, targets, votes⟩ := by
  simp only [pickReferenceDenom, bind_eq_ok, pure_eq_ok, Except.ok.injEq, @eq_comm _ p]

theorem settled_pick {threshold : ℤ}
    (hpos : ∀ d b, passingBallot threshold targets votes d = some b → 0 < b.power) :
    Settled threshold targets votes ((o.keys .pickReference votes.keys).foldl
      (pickStep threshold) ⟨"", 0, ∅, targets, votes⟩) := by
  have hperm := o.perm .pickReference votes.keys
  apply settled_of_selected hperm
  exact selected_foldl hpos (hperm.nodup_iff.mpr (SortedMap.keys_nodup _))

theorem thresholdVotes_nonneg (hparams : 0 ≤ params.voteThreshold.raw) {threshold : ℤ}
    (h : thresholdVotes st params = .ok threshold) : 0 ≤ threshold := by
  simp only [thresholdVotes, bind_eq_ok, Decimal.mulInt_eq_ok, Decimal.roundInt, pure_eq_ok,
    Except.ok.injEq] at h
  obtain ⟨_, ⟨_, rfl⟩, rounded, hrounded, rfl⟩ := h
  rw [BoundedInt.checked_eq_ok.mp hrounded]
  exact chop_nonneg _ (mul_nonneg hparams (Int.natCast_nonneg _))

/-- With valid parameters the selection settles every denomination. -/
theorem settled_of_pickReferenceDenom (hparams : params.validate = .ok ()) {p : Pick}
    (h : pickReferenceDenom o st params targets votes = .ok p) :
    ∃ threshold, thresholdVotes st params = .ok threshold ∧
      Settled threshold targets votes p := by
  have hgt := (Params.valid_of_validate hparams).voteThreshold_gt
  obtain ⟨threshold, hthreshold, rfl⟩ := pickReferenceDenom_eq_ok.mp h
  have hnonneg := thresholdVotes_nonneg (by omega) hthreshold
  exact ⟨threshold, hthreshold, settled_pick (passing_pos_of_threshold hnonneg)⟩

variable (o') in
theorem pickReferenceDenom_order (hnonneg : ∀ d b, votes.get? d = some b → 0 ≤ b.power) :
    pickReferenceDenom o st params targets votes =
      pickReferenceDenom o' st params targets votes := by
  unfold pickReferenceDenom
  congr 1
  funext threshold
  congr 1
  exact settled_unique (settled_pick (passing_pos_of_nonneg hnonneg))
    (settled_pick (passing_pos_of_nonneg hnonneg))

end PickReferenceDenom

end Kiichain.Oracle
