import Kiichain.OracleChain

/-!
# The end of a slash window

The counters outlive the validators that they count. The walk at the end of a
window panics exactly when it is to penalize an operator without a validator
record, or a bonded one whose consensus key does not unpack. A slash enters with
what the staking module promises of it: records stay, with their status.
-/

namespace Kiichain.Oracle
open GoExec FixedPoint

namespace VotePenaltyCounter

/-- `successVotes / totalVotes` in signed 64-bit numbers, of at least one vote. -/
def rate (c : VotePenaltyCounter) : LegacyDec :=
  ⟨(Decimal.ofInt (GoTime.int64 c.successCount) : LegacyDec).raw.tdiv (GoTime.int64 c.totalVotes)⟩

/-- The operator is to be penalized under `params`. -/
def Penalized (params : Params) (c : VotePenaltyCounter) : Prop :=
  c.totalVotes ≠ 0 ∧ c.rate < params.minValidPerWindow

instance (params : Params) (c : VotePenaltyCounter) : Decidable (c.Penalized params) :=
  inferInstanceAs (Decidable (_ ∧ _))

theorem int64_totalVotes_ne_zero {c : VotePenaltyCounter} (h : c.totalVotes ≠ 0) :
    GoTime.int64 c.totalVotes ≠ 0 := by
  have hlt : c.totalVotes < 2 ^ 64 := Nat.mod_lt _ (by norm_num)
  intro hzero
  have hdvd : ((2 ^ 64 : ℕ) : ℤ) ∣ c.totalVotes := Int.dvd_of_bmod_eq_zero hzero
  have hle := Nat.le_of_dvd (Nat.pos_of_ne_zero h) (Int.natCast_dvd_natCast.mp hdvd)
  omega

theorem validVoteRate_eq {c : VotePenaltyCounter} (h : c.totalVotes ≠ 0) :
    c.validVoteRate = .ok c.rate :=
  Decimal.quoInt_eq_ok.mpr ⟨int64_totalVotes_ne_zero h, rfl⟩

end VotePenaltyCounter

namespace Validator

/-- What decides whether a validator is slashed. -/
def standing (v : Validator) : Bool × Bool × Option String := (v.bonded, v.jailed, v.consAddr)

/-- The consensus key of a validator that is to be slashed unpacks. -/
def Slashable (v : Validator) : Prop := v.bonded ∧ ¬ v.jailed → v.consAddr.isSome

end Validator

/-- The operators with their standing are those of another staking state. -/
def SameStanding (st st' : Staking) : Prop :=
  ∀ a, (st'.validators.get? a).map Validator.standing = (st.validators.get? a).map Validator.standing

/-- A slash takes tokens: it neither removes a record nor changes its status. -/
def KeepsStanding (slash : Slash) : Prop :=
  ∀ st consAddr height power fraction, SameStanding st (slash st consAddr height power fraction)

/-- What the penalty of an operator needs of the staking state. -/
def Punishable (st : Staking) (a : ValAddress) : Prop :=
  ∃ v, st.validators.get? a = some v ∧ v.Slashable

theorem SameStanding.trans {st st' st'' : Staking} (h : SameStanding st st')
    (h' : SameStanding st' st'') : SameStanding st st'' := fun a => (h' a).trans (h a)

theorem SameStanding.punishable {st st' : Staking} (h : SameStanding st st') {a : ValAddress}
    (hp : Punishable st' a) : Punishable st a := by
  obtain ⟨v, hv, hslashable⟩ := hp
  have hstanding := h a
  rw [hv, Option.map_some, eq_comm, Option.map_eq_some_iff] at hstanding
  obtain ⟨w, hw, heq⟩ := hstanding
  simp only [Validator.standing, Prod.mk.injEq] at heq
  obtain ⟨hbonded, hjailed, hconsAddr⟩ := heq
  refine ⟨w, hw, ?_⟩
  unfold Validator.Slashable at hslashable ⊢
  rwa [hbonded, hjailed, hconsAddr]

theorem SameStanding.symm {st st' : Staking} (h : SameStanding st st') : SameStanding st' st :=
  fun a => (h a).symm

section Walk

variable {slash : Slash} {blk : Block} {params : Params}

theorem returns_slashOperator_iff (st : Staking) (a : ValAddress) {c : VotePenaltyCounter}
    (h : c.totalVotes ≠ 0) : Returns (slashOperator slash blk params st a c) ↔
      (c.rate < params.minValidPerWindow → Punishable st a) := by
  rw [slashOperator, VotePenaltyCounter.validVoteRate_eq h, ok_bind]
  split_ifs with hrate
  · rw [forall_prop_of_true hrate]
    constructor
    · rintro ⟨st', hst'⟩
      obtain ⟨v, hv, hslash⟩ := bind_eq_ok.mp hst'
      refine ⟨v, require_eq_ok.mp hv, fun hstanding => ?_⟩
      rw [if_pos hstanding] at hslash
      obtain ⟨consAddr, hconsAddr, _⟩ := bind_eq_ok.mp hslash
      rw [require_eq_ok.mp hconsAddr]
      rfl
    · rintro ⟨v, hv, hslashable⟩
      rw [hv]
      by_cases hstanding : v.bonded ∧ ¬ v.jailed
      · obtain ⟨consAddr, hconsAddr⟩ := Option.isSome_iff_exists.mp (hslashable hstanding)
        simp only [require, ok_bind, if_pos hstanding, hconsAddr, pure_eq_ok, returns_ok]
      · simp only [require, ok_bind, if_neg hstanding, pure_eq_ok, returns_ok]
  · simp [hrate]

theorem slashOperator_standing (hslash : KeepsStanding slash) {st st' : Staking} {a : ValAddress}
    {c : VotePenaltyCounter} (h : slashOperator slash blk params st a c = .ok st') :
    SameStanding st st' := by
  obtain ⟨rate, _, h⟩ := bind_eq_ok.mp h
  split_ifs at h
  · obtain ⟨v, _, h⟩ := bind_eq_ok.mp h
    split_ifs at h
    · obtain ⟨consAddr, _, h⟩ := bind_eq_ok.mp h
      cases h
      exact hslash st _ _ _ _
    · cases h
      exact fun _ => rfl
  · cases h
    exact fun _ => rfl

/-- One turn of the walk. -/
theorem returns_slashAndReset_iff (acc : Staking × SortedMap ValAddress VotePenaltyCounter)
    (entry : ValAddress × VotePenaltyCounter) :
    Returns (slashAndReset slash blk params acc entry) ↔
      (entry.2.Penalized params → Punishable acc.1 entry.1) := by
  unfold slashAndReset VotePenaltyCounter.Penalized
  split_ifs with hzero
  · simp [hzero]
  · rw [returns_bind_pure, returns_slashOperator_iff acc.1 entry.1 hzero, and_imp,
      forall_prop_of_true hzero]

theorem slashAndReset_standing (hslash : KeepsStanding slash)
    {acc acc' : Staking × SortedMap ValAddress VotePenaltyCounter}
    {entry : ValAddress × VotePenaltyCounter}
    (h : slashAndReset slash blk params acc entry = .ok acc') : SameStanding acc.1 acc'.1 := by
  unfold slashAndReset at h
  split_ifs at h
  · cases h
    exact fun _ => rfl
  · obtain ⟨st, hst, h⟩ := bind_eq_ok.mp h
    cases h
    exact slashOperator_standing hslash hst

end Walk

/-- Every operator that the walk penalizes has a record that it can act on. -/
def Settleable (st : Staking) (s : State) : Prop :=
  ∀ a c, s.votePenaltyCounter.get? a = some c → c.Penalized s.params → Punishable st a

section WindowEnd

variable {slash : Slash}

theorem returns_slashAndResetCounters_iff (hslash : KeepsStanding slash) (blk : Block)
    (st : Staking) (s : State) :
    Returns (slashAndResetCounters slash blk st s) ↔ Settleable st s := by
  have hwalk := returns_foldlM_iff_of_invariant (l := s.votePenaltyCounter.entries)
    (f := slashAndReset slash blk s.params) (I := fun acc => SameStanding st acc.1)
    (C := fun entry => entry.2.Penalized s.params → Punishable st entry.1)
    (fun acc entry _ acc' hacc h => hacc.trans (slashAndReset_standing hslash h))
    (fun acc hacc entry _ => (returns_slashAndReset_iff acc entry).trans
      (imp_congr_right fun _ => ⟨hacc.punishable, hacc.symm.punishable⟩))
    (b := (st, s.votePenaltyCounter)) (fun _ => rfl)
  rw [slashAndResetCounters, returns_bind_pure, hwalk]
  constructor
  · intro h a c hc
    exact h (a, c) (SortedMap.get?_eq_some.mp hc)
  · intro h entry hentry
    exact h entry.1 entry.2 (SortedMap.get?_eq_some.mpr hentry)

end WindowEnd

namespace RemovedOperator
open BoundaryBlock

/-- Every period has to be voted. -/
def params : Params := { defaultParams with minValidPerWindow := 1 }

/-- Three operators are counted in two periods without votes. -/
def blocks : List Event :=
  [.beginBlock 0, .message (.updateParams ⟨"gov", params⟩), .endBlock .ascending,
    .beginBlock 0, .endBlock .ascending, .beginBlock 0, .endBlock .ascending,
    .beginBlock 0, .endBlock .ascending]

def counted : Exec Chain := Runs.run (step env) (genesis 48954 .trio ∅) blocks

/-- Two of them leave the staking store before the last block of the window. -/
def reached : Exec Chain := Runs.run (step env) (genesis 48954 .trio ∅) (blocks ++ [.stake .single])

/-- Whether the next begin blocker returns, and its walk. -/
def returned (c : Chain) : Bool × Bool :=
  (decide (Returns (beginBlocker env.slash ⟨c.height + 1, 0⟩ c.staking c.oracle)),
    decide (Returns (slashAndResetCounters env.slash ⟨c.height + 1, 0⟩ c.staking c.oracle)))

set_option maxRecDepth 20000 in
theorem reached_returned : reached.toOption.map
    (fun c => (c.oracle.params.validate, returned c)) = some (.ok (), false, false) := by decide

theorem keepsStanding : KeepsStanding env.slash := fun _ _ _ _ _ _ => rfl

set_option maxRecDepth 20000 in
theorem counted_returned : counted.toOption.map
    (fun c => (c.oracle.params.validate, returned c)) = some (.ok (), true, true) := by decide

end RemovedOperator

end Kiichain.Oracle
