import Kiichain.OracleWindowEnd

/-!
# Who is slashed at the end of a slash window

The walk over the counters is kept together with the slashes that it asks for.
The share of successes is truncated to 18 digits, which never changes the side of
the minimum on which it lies. What can change it is the total, which is read as a
signed 64-bit number.
-/

namespace Kiichain.Oracle
open GoExec FixedPoint

/-- A slash of the staking module, asked for by the counter of an operator. -/
structure SlashCall where
  operator : ValAddress
  consAddr : String
  infractionHeight : ℤ
  power : ℤ
  slashFraction : LegacyDec

def SlashCall.apply (slash : Slash) (st : Staking) (call : SlashCall) : Staking :=
  slash st call.consAddr call.infractionHeight call.power call.slashFraction

/-- A walk with the slashes so far. -/
structure Walked where
  staking : Staking
  calls : List SlashCall
  counters : SortedMap ValAddress VotePenaltyCounter

section Calls

variable (slash : Slash) (blk : Block) (params : Params)

/-- The slash that a counter asks for, if it asks for one. -/
def slashCall (st : Staking) (operator : ValAddress) (counter : VotePenaltyCounter) :
    Exec (Option SlashCall) := do
  let rate ← counter.validVoteRate
  if rate < params.minValidPerWindow then do
    let validator ← require (st.validators.get? operator) (.panic "validator does not exist")
    if validator.bonded ∧ ¬ validator.jailed then do
      let consAddr ← require validator.consAddr (.panic "expecting cryptotypes.PubKey, got %T")
      pure (some ⟨operator, consAddr, blk.height - validatorUpdateDelay - 1,
        validator.consensusPower st.powerReduction, params.slashFraction⟩)
    else pure none
  else pure none

def slashAndResetLogged (acc : Walked) (entry : ValAddress × VotePenaltyCounter) : Exec Walked :=
  if entry.2.totalVotes = 0 then pure acc
  else do
    let call ← slashCall blk params acc.staking entry.1 entry.2
    pure ⟨call.elim acc.staking (SlashCall.apply slash acc.staking), acc.calls ++ call.toList,
      acc.counters.erase entry.1⟩

/-- The walk with its log. -/
def slashesOf (st : Staking) (s : State) : Exec Walked :=
  s.votePenaltyCounter.entries.foldlM (slashAndResetLogged slash blk s.params)
    ⟨st, [], s.votePenaltyCounter⟩

variable {slash blk params}

theorem slashOperator_eq (st : Staking) (a : ValAddress) (c : VotePenaltyCounter) :
    slashOperator slash blk params st a c =
      (slashCall blk params st a c).map (fun call => call.elim st (SlashCall.apply slash st)) := by
  unfold slashOperator slashCall
  cases c.validVoteRate with
  | error e => rfl
  | ok rate =>
      simp only [ok_bind]
      split_ifs
      · cases st.validators.get? a with
        | none => rfl
        | some v =>
            simp only [require, ok_bind]
            split_ifs
            · cases v.consAddr <;> rfl
            · rfl
      · rfl

theorem slashAndResetLogged_eq (acc : Walked) (entry : ValAddress × VotePenaltyCounter) :
    (slashAndResetLogged slash blk params acc entry).map (fun w => (w.staking, w.counters)) =
      slashAndReset slash blk params (acc.staking, acc.counters) entry := by
  unfold slashAndResetLogged slashAndReset
  split_ifs
  · rfl
  · rw [slashOperator_eq]
    cases slashCall blk params acc.staking entry.1 entry.2 <;> rfl

/-- Without its log the walk is that of the code. -/
theorem slashAndResetCounters_eq (st : Staking) (s : State) :
    slashAndResetCounters slash blk st s = (slashesOf slash blk st s).map
      (fun w => (w.staking, { s with votePenaltyCounter := w.counters })) := by
  have hwalk : (s.votePenaltyCounter.entries.foldlM (slashAndResetLogged slash blk s.params)
      ⟨st, [], s.votePenaltyCounter⟩).map (fun w => (w.staking, w.counters)) =
        s.votePenaltyCounter.entries.foldlM (slashAndReset slash blk s.params)
          (st, s.votePenaltyCounter) :=
    map_foldlM (fun w => (w.staking, w.counters))
      (fun acc entry _ => slashAndResetLogged_eq acc entry) _
  rw [slashAndResetCounters, ← hwalk, slashesOf]
  cases s.votePenaltyCounter.entries.foldlM (slashAndResetLogged slash blk s.params)
    ⟨st, [], s.votePenaltyCounter⟩ <;> rfl

end Calls

/-- An operator that can be slashed. -/
def Staking.Active (st : Staking) (a : ValAddress) : Prop :=
  ∃ v, st.validators.get? a = some v ∧ v.bonded ∧ ¬ v.jailed

instance (st : Staking) (a : ValAddress) : Decidable (st.Active a) :=
  decidable_of_iff ((st.validators.get? a).any (fun v => v.bonded && !v.jailed) = true) <| by
    unfold Staking.Active
    cases st.validators.get? a <;> simp

namespace VotePenaltyCounter

/-- The share of successes among all votes lies below the minimum. -/
def BelowMinimum (params : Params) (c : VotePenaltyCounter) : Prop :=
  (c.successCount : ℚ) < (params.minValidPerWindow.raw : ℚ) / legacyFormat.scale * c.sum

theorem belowMinimum_iff {params : Params} {c : VotePenaltyCounter} : c.BelowMinimum params ↔
    (c.successCount : ℤ) * legacyFormat.scale < params.minValidPerWindow.raw * c.sum := by
  unfold BelowMinimum
  rw [div_mul_eq_mul_div, lt_div_iff₀ (by norm_num [legacyFormat])]
  exact_mod_cast Iff.rfl

instance (params : Params) (c : VotePenaltyCounter) : Decidable (c.BelowMinimum params) :=
  decidable_of_iff _ belowMinimum_iff.symm

/-- The three counts are signed 64-bit numbers. -/
structure Small (c : VotePenaltyCounter) : Prop where
  successCount : c.successCount < 2 ^ 63
  abstainCount : c.abstainCount < 2 ^ 63
  missCount : c.missCount < 2 ^ 63
  sum_pos : 0 < c.sum

/-- The total is a signed 64-bit number, or the one it is read as puts the share
of successes on the same side of the minimum. -/
def Undistorted (params : Params) (c : VotePenaltyCounter) : Prop :=
  c.sum < 2 ^ 63 ∨
    (c.sum < 2 ^ 64 ∧
      ((1 - params.minValidPerWindow.raw) * (2 ^ 64 - c.sum) ≤ (c.successCount : ℤ) * legacyFormat.scale ↔
        (c.successCount : ℤ) * legacyFormat.scale < params.minValidPerWindow.raw * c.sum)) ∨
    (2 ^ 64 < c.sum ∧
      ((c.successCount : ℤ) * legacyFormat.scale < params.minValidPerWindow.raw * (c.sum - 2 ^ 64) ↔
        (c.successCount : ℤ) * legacyFormat.scale < params.minValidPerWindow.raw * c.sum))

theorem sum_lt {c : VotePenaltyCounter} (h : c.Small) : c.sum < 2 ^ 64 + 2 ^ 63 := by
  obtain ⟨hsuccess, habstain, hmiss, _⟩ := h
  unfold sum
  omega

theorem totalVotes_eq_zero_iff {c : VotePenaltyCounter} (h : c.Small) :
    c.totalVotes = 0 ↔ c.sum = 2 ^ 64 := by
  have hlt := sum_lt h
  have hpos := h.sum_pos
  change c.sum % 2 ^ 64 = 0 ↔ _
  omega

/-- The total as a signed 64-bit number. -/
theorem int64_totalVotes {c : VotePenaltyCounter} (h : c.Small) :
    GoTime.int64 c.totalVotes = if c.sum < 2 ^ 63 then (c.sum : ℤ) else c.sum - 2 ^ 64 := by
  have hlt := sum_lt h
  have htotal : c.totalVotes = c.sum % 2 ^ 64 := rfl
  rw [htotal]
  split_ifs with hsum
  · rw [Nat.mod_eq_of_lt (by omega), GoTime.int64_of_bounds (by omega) (by omega)]
  · by_cases hwrap : c.sum < 2 ^ 64
    · rw [Nat.mod_eq_of_lt hwrap, ← GoTime.int64_sub_two_pow,
        GoTime.int64_of_bounds (by omega) (by omega)]
    · have hmod : ((c.sum % 2 ^ 64 : ℕ) : ℤ) = c.sum - 2 ^ 64 := by omega
      rw [hmod, GoTime.int64_of_bounds (by omega) (by omega)]

/-- A quotient truncated to an integer lies below an integer with the exact one. -/
theorem tdiv_lt_iff_of_pos {x w m : ℤ} (hx : 0 ≤ x) (hw : 0 < w) : x.tdiv w < m ↔ x < m * w := by
  rw [Int.tdiv_eq_ediv_of_nonneg hx]
  exact Int.ediv_lt_iff_lt_mul hw

theorem tdiv_lt_iff_of_neg {x w m : ℤ} (hx : 0 ≤ x) (hw : w < 0) :
    x.tdiv w < m ↔ (1 - m) * -w ≤ x := by
  have hquotient : x.tdiv w = -(x / -w) := by
    rw [← Int.tdiv_eq_ediv_of_nonneg hx, Int.tdiv_neg, neg_neg]
  have hle := Int.le_ediv_iff_mul_le (a := 1 - m) (b := x) (c := -w) (by omega)
  rw [hquotient, ← hle]
  omega

/-- What the walk decides by is the exact comparison where nothing is distorted. -/
theorem rate_lt_iff_belowMinimum_iff {params : Params} {c : VotePenaltyCounter} (h : c.Small)
    (hsum_ne : c.sum ≠ 2 ^ 64) :
    (c.rate < params.minValidPerWindow ↔ c.BelowMinimum params) ↔ c.Undistorted params := by
  have hsuccess : GoTime.int64 c.successCount = c.successCount :=
    GoTime.int64_of_bounds (by omega) (by exact_mod_cast h.successCount)
  have hpos := h.sum_pos
  have hx : (0 : ℤ) ≤ c.successCount * legacyFormat.scale :=
    mul_nonneg (Int.natCast_nonneg _) (Int.natCast_nonneg _)
  have hrate : c.rate.raw = (GoTime.int64 c.successCount * legacyFormat.scale).tdiv
      (GoTime.int64 c.totalVotes) := by
    simp only [rate, Decimal.ofInt]
  rw [belowMinimum_iff, Decimal.lt_iff, hrate, hsuccess, int64_totalVotes h, Undistorted]
  split_ifs with hsum
  · rw [tdiv_lt_iff_of_pos hx (by omega)]
    exact iff_of_true Iff.rfl (Or.inl hsum)
  · by_cases hwrap : c.sum < 2 ^ 64
    · rw [tdiv_lt_iff_of_neg hx (by omega), neg_sub]
      simp only [hsum, hwrap, false_or, true_and, not_lt_of_gt hwrap, false_and, or_false]
    · have hlt : 2 ^ 64 < c.sum := by omega
      rw [tdiv_lt_iff_of_pos hx (by omega)]
      simp only [hsum, hwrap, hlt, false_or, true_and, false_and]

end VotePenaltyCounter

/-- A slash changes the status of no operator but the one that it is about. -/
def KeepsOthers (slash : Slash) : Prop :=
  ∀ st b v consAddr height power fraction, st.validators.get? b = some v →
    v.consAddr = some consAddr → ∀ a, a ≠ b →
      ((slash st consAddr height power fraction).validators.get? a).map Validator.standing =
        (st.validators.get? a).map Validator.standing

/-- The slash is of its operator, by the fraction of the parameters. -/
def SlashCall.For (params : Params) (st : Staking) (call : SlashCall) : Prop :=
  call.slashFraction = params.slashFraction ∧
    ∃ v, st.validators.get? call.operator = some v ∧ v.consAddr = some call.consAddr

/-- The counter asks for a slash of its operator, as the walk reads it. -/
def Asks (params : Params) (st : Staking) (entry : ValAddress × VotePenaltyCounter) : Prop :=
  entry.2.Penalized params ∧ st.Active entry.1

instance (params : Params) (st : Staking) (entry : ValAddress × VotePenaltyCounter) :
    Decidable (Asks params st entry) := inferInstanceAs (Decidable (_ ∧ _))

section Walk

variable {slash : Slash} {blk : Block} {params : Params} {st : Staking}

variable (blk params) in
/-- A turn asks for the slash of an operator that has kept its standing. -/
theorem slashCall_spec {st' : Staking} {a : ValAddress} {c : VotePenaltyCounter}
    (hkept : (st'.validators.get? a).map Validator.standing =
      (st.validators.get? a).map Validator.standing) (hp : Punishable st a)
    (htotal : c.totalVotes ≠ 0) : ∃ call, slashCall blk params st' a c = .ok call ∧
      (Asks params st (a, c) → ∃ x v, call = some x ∧ x.operator = a ∧ x.For params st ∧
        st'.validators.get? a = some v ∧ v.consAddr = some x.consAddr) ∧
      (¬ Asks params st (a, c) → call = none) := by
  obtain ⟨v, hv, hslashable⟩ := hp
  have hrecord := hkept
  rw [hv, Option.map_some, Option.map_eq_some_iff] at hrecord
  obtain ⟨v', hv', heq⟩ := hrecord
  simp only [Validator.standing, Prod.mk.injEq] at heq
  obtain ⟨hbonded, hjailed, hconsAddr⟩ := heq
  have hactive : st.Active a ↔ v'.bonded ∧ ¬ v'.jailed := by
    simp [Staking.Active, hv, hbonded, hjailed]
  rw [slashCall, VotePenaltyCounter.validVoteRate_eq htotal, ok_bind, hv']
  simp only [Asks, VotePenaltyCounter.Penalized, hactive]
  by_cases hrate : c.rate < params.minValidPerWindow
  · by_cases hstanding : v'.bonded ∧ ¬ v'.jailed
    · obtain ⟨k, hk⟩ := Option.isSome_iff_exists.mp (hslashable (by rwa [← hbonded, ← hjailed]))
      have hk' := hconsAddr.trans hk
      refine ⟨some ⟨a, k, blk.height - validatorUpdateDelay - 1,
        v'.consensusPower st'.powerReduction, params.slashFraction⟩, ?_, fun _ => ?_, fun h => ?_⟩
      · simp only [if_pos hrate, require, ok_bind, if_pos hstanding, hk']
        rfl
      · exact ⟨_, v', rfl, rfl, ⟨rfl, v, hv, hk⟩, rfl, hk'⟩
      · exact absurd ⟨⟨htotal, hrate⟩, hstanding⟩ h
    · refine ⟨none, ?_, fun h => absurd h.2 hstanding, fun _ => rfl⟩
      simp only [if_pos hrate, require, ok_bind, if_neg hstanding, pure_eq_ok]
  · refine ⟨none, ?_, fun h => absurd h.1.2 hrate, fun _ => rfl⟩
    rw [if_neg hrate, pure_eq_ok]

variable (params st) in
/-- What a walk over `l` adds to what it started from. -/
structure WalkedOver (l : List (ValAddress × VotePenaltyCounter)) (acc w : Walked) : Prop where
  operators : w.calls.map SlashCall.operator =
    acc.calls.map SlashCall.operator ++ (l.filter (fun e => Asks params st e)).map Prod.fst
  slashed : ∀ call ∈ w.calls, call ∈ acc.calls ∨ call.For params st
  counters : w.counters = l.foldl resetEntry acc.counters

variable (blk params) in
theorem turn_spec (hslash : KeepsOthers slash) {acc : Walked}
    {entry : ValAddress × VotePenaltyCounter}
    (hkept : (acc.staking.validators.get? entry.1).map Validator.standing =
      (st.validators.get? entry.1).map Validator.standing) (hp : Punishable st entry.1) :
    ∃ w, slashAndResetLogged slash blk params acc entry = .ok w ∧
      WalkedOver params st [entry] acc w ∧ ∀ a, a ≠ entry.1 →
        (w.staking.validators.get? a).map Validator.standing =
          (acc.staking.validators.get? a).map Validator.standing := by
  by_cases htotal : entry.2.totalVotes = 0
  · refine ⟨acc, ?_, ⟨?_, fun call hcall => Or.inl hcall, ?_⟩, fun a _ => rfl⟩
    · rw [slashAndResetLogged, if_pos htotal, pure_eq_ok]
    · have hasks : ¬ Asks params st entry := fun h => h.1.1 htotal
      simp [hasks]
    · simp [resetEntry, htotal]
  · obtain ⟨call, hcall, hasked, hnot⟩ := slashCall_spec blk params hkept hp htotal
    refine ⟨_, by rw [slashAndResetLogged, if_neg htotal, hcall]; rfl, ⟨?_, ?_, ?_⟩, ?_⟩
    · by_cases hasks : Asks params st entry
      · obtain ⟨x, _, rfl, hoperator, _⟩ := hasked hasks
        simp [hasks, hoperator]
      · rw [hnot hasks]
        simp [hasks]
    · intro x hx
      obtain hold | hnew := List.mem_append.mp hx
      · exact Or.inl hold
      · apply Or.inr
        by_cases hasks : Asks params st entry
        · obtain ⟨y, _, rfl, _, hfor, _⟩ := hasked hasks
          obtain rfl : x = y := by simpa using hnew
          exact hfor
        · rw [hnot hasks] at hnew
          simp at hnew
    · simp [resetEntry, htotal]
    · intro a ha
      by_cases hasks : Asks params st entry
      · obtain ⟨x, v, rfl, _, _, hv, hconsAddr⟩ := hasked hasks
        exact hslash acc.staking entry.1 v _ _ _ _ hv hconsAddr a ha
      · rw [hnot hasks]
        rfl

variable (blk params) in
theorem walk_spec (hslash : KeepsOthers slash) (acc : Walked)
    {l : List (ValAddress × VotePenaltyCounter)}
    (hnodup : (l.map Prod.fst).Nodup) (hp : ∀ e ∈ l, Punishable st e.1)
    (hkept : ∀ e ∈ l, (acc.staking.validators.get? e.1).map Validator.standing =
      (st.validators.get? e.1).map Validator.standing) :
    ∃ w, l.foldlM (slashAndResetLogged slash blk params) acc = .ok w ∧
      WalkedOver params st l acc w := by
  induction l generalizing acc with
  | nil => exact ⟨acc, rfl, by simp, fun call hcall => Or.inl hcall, rfl⟩
  | cons e l ih =>
      obtain ⟨hfresh, hrest⟩ := List.nodup_cons.mp hnodup
      obtain ⟨u, hu, hturn, hothers⟩ := turn_spec blk params hslash
        (hkept e List.mem_cons_self) (hp e List.mem_cons_self)
      have hkept' : ∀ e' ∈ l, (u.staking.validators.get? e'.1).map Validator.standing =
          (st.validators.get? e'.1).map Validator.standing := by
        intro e' he'
        rw [hothers e'.1 (fun heq => hfresh (heq ▸ List.mem_map_of_mem he'))]
        exact hkept e' (List.mem_cons_of_mem e he')
      obtain ⟨w, hw, hwalk⟩ := ih u hrest (fun e' he' => hp e' (List.mem_cons_of_mem e he')) hkept'
      refine ⟨w, ?_, ?_, fun call hcall => ?_, ?_⟩
      · rw [List.foldlM_cons, hu, ok_bind, hw]
      · rw [hwalk.operators, hturn.operators, List.append_assoc, ← List.map_append,
          ← List.filter_append, List.singleton_append]
      · obtain hmid | hfor := hwalk.slashed call hcall
        · exact hturn.slashed call hmid
        · exact Or.inr hfor
      · rw [hwalk.counters, hturn.counters]
        rfl

end Walk

/-- The operator is to be slashed: it can be, and its successes are too few. -/
def Due (params : Params) (st : Staking) (entry : ValAddress × VotePenaltyCounter) : Prop :=
  entry.2.BelowMinimum params ∧ st.Active entry.1

instance (params : Params) (st : Staking) (entry : ValAddress × VotePenaltyCounter) :
    Decidable (Due params st entry) := inferInstanceAs (Decidable (_ ∧ _))

/-- The walk slashes the operators that are due, each once and nobody else, and
leaves no counter. -/
def SlashesExactly (slash : Slash) (blk : Block) (st : Staking) (s : State) : Prop :=
  ∃ w, slashesOf slash blk st s = .ok w ∧
    slashAndResetCounters slash blk st s = .ok (w.staking, { s with votePenaltyCounter := ∅ }) ∧
    w.calls.map SlashCall.operator =
      (s.votePenaltyCounter.entries.filter (fun e => Due s.params st e)).map Prod.fst ∧
    ∀ call ∈ w.calls, call.For s.params st

section SlashSet

variable {slash : Slash} {st : Staking} {s : State}

/-- An entry is among the operators of a selection exactly where it is selected. -/
theorem mem_map_filter_entries {m : SortedMap ValAddress VotePenaltyCounter}
    {e : ValAddress × VotePenaltyCounter} (he : e ∈ m.entries)
    (p : ValAddress × VotePenaltyCounter → Bool) :
    e.1 ∈ (m.entries.filter p).map Prod.fst ↔ p e = true := by
  rw [List.mem_map]
  constructor
  · rintro ⟨⟨a, c⟩, hmem, rfl⟩
    obtain ⟨hentry, hp⟩ := List.mem_filter.mp hmem
    have hsame := SortedMap.get?_eq_some.mpr he
    rw [SortedMap.get?_eq_some.mpr hentry] at hsame
    cases hsame
    exact hp
  · intro hp
    exact ⟨e, List.mem_filter.mpr ⟨he, hp⟩, rfl⟩

/-- Two selections have the same operators exactly where they select the same entries. -/
theorem map_filter_entries_eq_iff {m : SortedMap ValAddress VotePenaltyCounter}
    {p q : ValAddress × VotePenaltyCounter → Bool} :
    (m.entries.filter p).map Prod.fst = (m.entries.filter q).map Prod.fst ↔
      ∀ e ∈ m.entries, p e = q e := by
  constructor
  · intro heq e he
    rw [Bool.eq_iff_iff, ← mem_map_filter_entries he p, heq, mem_map_filter_entries he q]
  · intro hall
    rw [List.filter_congr hall]

theorem foldl_resetEntry_eq_empty_iff : s.votePenaltyCounter.entries.foldl resetEntry
    s.votePenaltyCounter = ∅ ↔ ∀ e ∈ s.votePenaltyCounter.entries, e.2.totalVotes ≠ 0 := by
  constructor
  · rintro hempty ⟨a, c⟩ he hzero
    have hget := get?_foldl_resetEntry s.votePenaltyCounter.entries s.votePenaltyCounter a
    rw [hempty, SortedMap.get?_empty, if_neg, SortedMap.get?_eq_some.mpr he] at hget
    · cases hget
    · simp only [List.any_eq_true, decide_eq_true_eq, not_exists, not_and]
      rintro ⟨b, d⟩ hd rfl
      have hsame := SortedMap.get?_eq_some.mpr hd
      rw [SortedMap.get?_eq_some.mpr he] at hsame
      cases hsame
      exact fun hne => hne hzero
  · intro hall
    apply SortedMap.ext_get?
    intro a
    rw [get?_foldl_resetEntry, SortedMap.get?_empty]
    cases hget : s.votePenaltyCounter.get? a with
    | none => rw [ite_self]
    | some c =>
        rw [if_pos]
        have he := SortedMap.get?_eq_some.mp hget
        exact List.any_eq_true.mpr ⟨(a, c), he, decide_eq_true ⟨rfl, hall _ he⟩⟩

/-- A turn asks for a slash that is due, and for no other, where the total of an active
operator is read on its own side of the minimum. -/
theorem asks_iff_due_iff {params : Params} {e : ValAddress × VotePenaltyCounter} (he : e.2.Small)
    (htotal : e.2.totalVotes ≠ 0) :
    (Asks params st e ↔ Due params st e) ↔ (st.Active e.1 → e.2.Undistorted params) := by
  rw [← VotePenaltyCounter.rate_lt_iff_belowMinimum_iff he
    (mt (VotePenaltyCounter.totalVotes_eq_zero_iff he).mpr htotal)]
  simp only [Asks, Due, VotePenaltyCounter.Penalized, htotal, ne_eq, not_false_eq_true, true_and]
  tauto

/-- The operators slashed are those whose share of successes lies below the minimum,
compared exactly, and the map is left empty, exactly where no total is read as zero
and none of an active operator is read as one on the other side of the minimum. -/
theorem slashes_exactly_iff (hslash : KeepsOthers slash) (blk : Block)
    (hsmall : ∀ a c, s.votePenaltyCounter.get? a = some c → c.Small)
    (hresolve : ∀ a c, s.votePenaltyCounter.get? a = some c → Punishable st a) :
    SlashesExactly slash blk st s ↔ ∀ a c, s.votePenaltyCounter.get? a = some c →
      c.sum ≠ 2 ^ 64 ∧ (st.Active a → c.Undistorted s.params) := by
  obtain ⟨w, hw, hwalk⟩ := walk_spec blk s.params hslash ⟨st, [], s.votePenaltyCounter⟩
    s.votePenaltyCounter.keys_nodup
    (fun e he => hresolve e.1 e.2 (SortedMap.get?_eq_some.mpr he)) (fun _ _ => rfl)
  have hreset : slashAndResetCounters slash blk st s = _ := slashAndResetCounters_eq st s
  rw [slashesOf, hw] at hreset
  have hfor : ∀ call ∈ w.calls, call.For s.params st := by
    intro call hcall
    obtain hnil | hfor := hwalk.slashed call hcall
    · cases hnil
    · exact hfor
  have hempty : w.counters = ∅ ↔ ∀ e ∈ s.votePenaltyCounter.entries, e.2.totalVotes ≠ 0 := by
    rw [hwalk.counters]
    exact foldl_resetEntry_eq_empty_iff
  have hsum : ∀ e ∈ s.votePenaltyCounter.entries, e.2.Small := fun e he =>
    hsmall e.1 e.2 (SortedMap.get?_eq_some.mpr he)
  have hcalls_iff : w.calls.map SlashCall.operator =
      (s.votePenaltyCounter.entries.filter (fun e => Due s.params st e)).map Prod.fst ↔
        ∀ e ∈ s.votePenaltyCounter.entries, Asks s.params st e ↔ Due s.params st e := by
    rw [hwalk.operators, List.map_nil, List.nil_append, map_filter_entries_eq_iff]
    simp only [decide_eq_decide]
  constructor
  · rintro ⟨w', hw', hok, hcalls, _⟩ a c hget
    obtain rfl : w = w' := by
      rw [slashesOf, hw] at hw'
      cases hw'
      rfl
    rw [hreset] at hok
    have hcounters : w.counters = ∅ := by
      simp only [Except.map, Except.ok.injEq, Prod.mk.injEq, true_and] at hok
      exact congrArg State.votePenaltyCounter hok
    have he := SortedMap.get?_eq_some.mp hget
    have htotal := hempty.mp hcounters (a, c) he
    refine ⟨mt (VotePenaltyCounter.totalVotes_eq_zero_iff (hsum _ he)).mpr htotal, ?_⟩
    exact (asks_iff_due_iff (hsum _ he) htotal).mp (hcalls_iff.mp hcalls _ he)
  · intro hall
    have hne : ∀ e ∈ s.votePenaltyCounter.entries, e.2.totalVotes ≠ 0 := by
      intro e he hzero
      apply (hall e.1 e.2 (SortedMap.get?_eq_some.mpr he)).1
      exact (VotePenaltyCounter.totalVotes_eq_zero_iff (hsum e he)).mp hzero
    refine ⟨w, hw, ?_, ?_, hfor⟩
    · rw [hreset, ← hempty.mpr hne]
      rfl
    · apply hcalls_iff.mpr
      intro e he
      have hundistorted := (hall e.1 e.2 (SortedMap.get?_eq_some.mpr he)).2
      exact (asks_iff_due_iff (hsum e he) (hne e he)).mpr hundistorted

end SlashSet

namespace BoundaryShare

/-- Five in a hundred are the least allowed share: one operator has it, one has
one success too few and one has none. -/
def counters : SortedMap ValAddress VotePenaltyCounter :=
  ⟨[("v1", ⟨95, 0, 5⟩), ("v2", ⟨96, 0, 4⟩), ("v3", ⟨0, 7, 0⟩)], by decide⟩

def store : State := { defaultGenesis ∅ with votePenaltyCounter := counters }

theorem entries_small : ∀ e ∈ counters.entries, e.2.Small ∧ Punishable .trio e.1 := by
  simp only [counters, List.forall_mem_cons, List.not_mem_nil, false_imp_iff, implies_true, and_true]
  refine ⟨⟨⟨by decide, by decide, by decide, by decide⟩, _, rfl, fun _ => rfl⟩,
    ⟨⟨by decide, by decide, by decide, by decide⟩, _, rfl, fun _ => rfl⟩,
    ⟨⟨by decide, by decide, by decide, by decide⟩, _, rfl, fun _ => rfl⟩⟩

theorem two_slashed : SlashesExactly (fun st _ _ _ _ => st) ⟨7, 0⟩ .trio store ∧
    (counters.entries.filter (fun e => Due store.params .trio e)).map Prod.fst = ["v2", "v3"] := by
  refine ⟨?_, by decide⟩
  apply (slashes_exactly_iff (fun _ _ _ _ _ _ _ _ _ _ _ => rfl) ⟨7, 0⟩ _ _).mpr
  · intro a c hget
    have hsmall : ∀ e ∈ counters.entries, e.2.sum < 2 ^ 63 := by decide
    have hlt := hsmall (a, c) (SortedMap.get?_eq_some.mp hget)
    exact ⟨by dsimp only at hlt; omega, fun _ => Or.inl hlt⟩
  · exact fun a c hget => (entries_small (a, c) (SortedMap.get?_eq_some.mp hget)).1
  · exact fun a c hget => (entries_small (a, c) (SortedMap.get?_eq_some.mp hget)).2

end BoundaryShare

namespace HugeCount

/-- All votes but one are successes, in a total that reads as negative. -/
def counter : VotePenaltyCounter := ⟨0, 1, 2 ^ 63 - 1⟩

def store : State :=
  { defaultGenesis ∅ with votePenaltyCounter := ⟨[("v1", counter)], by decide⟩ }

theorem calls_eq : (slashesOf (fun st _ _ _ _ => st) ⟨7, 0⟩ .single store).toOption.map
    (fun w => w.calls.map SlashCall.operator) = some ["v1"] := by decide

theorem successes_slashed : counter.Small ∧ ¬ counter.BelowMinimum store.params ∧
    ¬ SlashesExactly (fun st _ _ _ _ => st) ⟨7, 0⟩ .single store := by
  refine ⟨⟨by decide, by decide, by decide, by decide⟩, by decide, ?_⟩
  rintro ⟨w, hw, _, hcalls, _⟩
  have hdue : (store.votePenaltyCounter.entries.filter
    (fun e => Due store.params .single e)).map Prod.fst = [] := by decide
  obtain ⟨w', hw', hview⟩ := exists_of_toOption_map calls_eq
  rw [hw] at hw'
  cases hw'
  rw [hcalls, hdue] at hview
  cases hview

end HugeCount

end Kiichain.Oracle
