import Kiichain.FeeConvergence
import Kiichain.FeeRounding

/-!
# How far a fee price moves

Between two governance messages the only writer of the fee tokens is the price
update, and the clamp bounds what one update does. Whatever votes, prices and
averages a run brings, a price stays between the bounds that the clamp factor
allows over the blocks of the run, as long as the lower one does not round to zero.
-/

namespace Kiichain.FeeAbstraction
open GoExec FixedPoint
open Oracle (Block Env)

section Bounds

variable (clampFactor : LegacyDec)

/-- The least price that a number of updates can leave. -/
def floorAfter (price : LegacyDec) : ℕ → LegacyDec
  | 0 => price
  | n + 1 => lowerBound (floorAfter price n) clampFactor

/-- The greatest price that a number of updates can leave. -/
def ceilAfter (price : LegacyDec) : ℕ → LegacyDec
  | 0 => price
  | n + 1 => upperBound (ceilAfter price n) clampFactor

variable {clampFactor} {price : LegacyDec} (hprice : 0 ≤ price.raw)

include hprice in
theorem floorAfter_nonneg (h1 : clampFactor.raw ≤ legacyFormat.scale) (n : ℕ) :
    0 ≤ (floorAfter clampFactor price n).raw := by
  induction n with
  | zero => exact hprice
  | succ n ih => exact chop_nonneg _ (mul_nonneg ih (sub_nonneg.mpr h1))

include hprice in
theorem le_ceilAfter (h0 : 0 ≤ clampFactor.raw) (n : ℕ) : price ≤ ceilAfter clampFactor price n := by
  induction n with
  | zero => exact le_rfl
  | succ n ih => exact ih.trans (le_upperBound (hprice.trans (Decimal.le_iff.mp ih)) h0)

/-- A clamped price lies between the bounds of the one before. -/
theorem clamped_mem_bounds {prevPrice : LegacyDec} (hprev : 0 < prevPrice.raw)
    (hclamp : 0 < clampFactor.raw) (newPrice : LegacyDec) :
    lowerBound prevPrice clampFactor ≤ clamped prevPrice newPrice clampFactor ∧
      clamped prevPrice newPrice clampFactor ≤ upperBound prevPrice clampFactor := by
  have hskip : ¬ (prevPrice.raw = 0 ∨ clampFactor.raw = 0) := by omega
  have hle : lowerBound prevPrice clampFactor ≤ upperBound prevPrice clampFactor :=
    (lowerBound_le hprev.le hclamp.le).trans (le_upperBound hprev.le hclamp.le)
  unfold clamped
  rw [if_neg hskip]
  split_ifs with hlow hhigh
  · exact ⟨le_rfl, hle⟩
  · exact ⟨hle, le_rfl⟩
  · exact ⟨not_lt.mp hlow, not_lt.mp hhigh⟩

end Bounds

/-- What `n` updates can make of a token: they may disable it, and an enabled one keeps
its price within the bounds, unless the lower one has rounded to zero. -/
structure Drifted (clampFactor : LegacyDec) (n : ℕ) (before after : FeeTokenMetadata) : Prop where
  denom : after.denom = before.denom
  oracleDenom : after.oracleDenom = before.oracleDenom
  decimals : after.decimals = before.decimals
  enabled : after.enabled = true → before.enabled = true
  price : after.enabled = true → 0 < (floorAfter clampFactor before.price n).raw →
    floorAfter clampFactor before.price n ≤ after.price ∧
      after.price ≤ ceilAfter clampFactor before.price n

section Token

variable {p : Params} (hp : p.Valid) (hclamp : 0 < p.clampFactor.raw) {n : ℕ}
  {before after : FeeTokenMetadata} (hprice : 0 ≤ before.price.raw)
include hp hclamp hprice

/-- The lower bounds fall. -/
theorem floorAfter_pos_of_succ (hpos : 0 < (floorAfter p.clampFactor before.price (n + 1)).raw) :
    0 < (floorAfter p.clampFactor before.price n).raw := by
  have hnonneg := floorAfter_nonneg hprice hp.clampFactor_le_one n
  exact hpos.trans_le (Decimal.le_iff.mp (lowerBound_le hnonneg hclamp.le))

variable (h : Drifted p.clampFactor n before after)
include h

theorem Drifted.rest : Drifted p.clampFactor (n + 1) before after := by
  refine ⟨h.denom, h.oracleDenom, h.decimals, h.enabled, fun hon hpos => ?_⟩
  have hpos' := floorAfter_pos_of_succ hp hclamp hprice hpos
  obtain ⟨hlow, hhigh⟩ := h.price hon hpos'
  have hceil := Decimal.le_iff.mp (le_ceilAfter hprice hclamp.le n)
  exact ⟨(lowerBound_le hpos'.le hclamp.le).trans hlow,
    hhigh.trans (le_upperBound (hprice.trans hceil) hclamp.le)⟩

/-- One update more. -/
theorem Drifted.repriced (base price : LegacyDec) :
    Drifted p.clampFactor (n + 1) before (repriced p base price after) := by
  unfold FeeAbstraction.repriced
  split_ifs with hoff hzero
  · exact h.rest hp hclamp hprice
  · exact ⟨h.denom, h.oracleDenom, h.decimals, by simp, by simp⟩
  · refine ⟨h.denom, h.oracleDenom, h.decimals, h.enabled, fun hon hpos => ?_⟩
    have hpos' := floorAfter_pos_of_succ hp hclamp hprice hpos
    obtain ⟨hlow, hhigh⟩ := h.price hon hpos'
    obtain ⟨hlower, hupper⟩ := clamped_mem_bounds (hpos'.trans_le (Decimal.le_iff.mp hlow)) hclamp
      (quotient base price)
    exact ⟨(lowerBound_mono hp.clampFactor_le_one hlow).trans hlower,
      hupper.trans (upperBound_mono hclamp.le hhigh)⟩

end Token

section Runs

variable (env : Env)

/-- The step is no accepted message of the fee module. -/
def Ungoverned (c : Chain) (e : Event) : Prop :=
  ∀ msg, e = .message msg → ¬ Returns (deliver env.codec env.authority c.oracle.oracle c.fee msg)

/-- How many blocks an event begins. -/
def Event.begins : Event → ℕ
  | .oracle (.beginBlock _) => 1
  | _ => 0

variable {env} {c c' : Chain}

theorem fee_of_step {e : Event} (hkept : Ungoverned env c e) (h : step env c e = .ok c') :
    c'.fee = c.fee ∨ ∃ time, e = .oracle (.beginBlock time) := by
  cases e with
  | message msg =>
      cases h
      obtain ⟨_, heq⟩ | heq := rolledBack_cases c.fee
        (deliver env.codec env.authority c.oracle.oracle c.fee msg)
      · exact Or.inl heq
      · exact absurd ⟨_, heq⟩ (hkept msg rfl)
  | oracle e =>
      obtain hfee | ⟨time, rfl⟩ := (oracle_of_step h).2
      · exact Or.inl hfee
      · exact Or.inr ⟨time, rfl⟩

theorem begins_eq_zero {e : Event} (h : ∀ time, e ≠ .oracle (.beginBlock time)) : e.begins = 0 := by
  cases e with
  | message msg => rfl
  | oracle e =>
      cases e with
      | beginBlock time => exact absurd rfl (h time)
      | stake st => rfl
      | message msg => rfl
      | endBlock o => rfl

/-- The tokens that a run starts from, each with what `n` updates may make of it. -/
def AllDrifted (clampFactor : LegacyDec) (n : ℕ) (before after : List FeeTokenMetadata) : Prop :=
  List.Forall₂ (fun x y => 0 ≤ x.price.raw → Drifted clampFactor n x y) before after

theorem allDrifted_self (clampFactor : LegacyDec) (tokens : List FeeTokenMetadata) :
    AllDrifted clampFactor 0 tokens tokens := by
  apply List.forall₂_same.mpr
  intro token _ hprice
  exact ⟨rfl, rfl, rfl, id, fun _ _ => ⟨le_rfl, le_rfl⟩⟩

theorem allDrifted_step {n : ℕ} {before : List FeeTokenMetadata} {e : Event} (hs : Sound c)
    (hclamp : 0 < c.fee.params.clampFactor.raw)
    (hdrift : AllDrifted c.fee.params.clampFactor n before c.fee.feeTokens)
    (hkept : Ungoverned env c e) (h : step env c e = .ok c') :
    c'.fee.params = c.fee.params ∧
      AllDrifted c.fee.params.clampFactor (n + e.begins) before c'.fee.feeTokens := by
  by_cases hbegin : ∃ time, e = .oracle (.beginBlock time)
  · obtain ⟨time, rfl⟩ := hbegin
    obtain ⟨hbegins, hfee⟩ := step_beginBlock_eq_ok.mp h
    have hupdate := (update_eq_ok hs hbegins).mp hfee
    split_ifs at hupdate
    · rw [hupdate]
      exact ⟨rfl, hdrift.imp fun x y hxy hprice => (hxy hprice).rest hs.valid hclamp hprice⟩
    · rw [hupdate.2]
      refine ⟨rfl, List.forall₂_map_right_iff.mpr ?_⟩
      exact hdrift.imp fun x y hxy hprice => (hxy hprice).repriced hs.valid hclamp hprice _ _
  · have hzero := begins_eq_zero fun time heq => hbegin ⟨time, heq⟩
    obtain hfee | ⟨time, rfl⟩ := fee_of_step hkept h
    · rw [hfee, hzero]
      exact ⟨rfl, hdrift⟩
    · exact absurd ⟨time, rfl⟩ hbegin

theorem allDrifted_run {n : ℕ} {before : List FeeTokenMetadata} {es : List Event} (hs : Sound c)
    (hclamp : 0 < c.fee.params.clampFactor.raw)
    (hdrift : AllDrifted c.fee.params.clampFactor n before c.fee.feeTokens)
    (hkept : Runs.Along (step env) (Ungoverned env) c es) (h : Runs.run (step env) c es = .ok c') :
    c'.fee.params = c.fee.params ∧ AllDrifted c.fee.params.clampFactor
      (n + (es.map Event.begins).sum) before c'.fee.feeTokens := by
  induction es generalizing c n with
  | nil =>
      cases h
      exact ⟨rfl, hdrift⟩
  | cons e es ih =>
      obtain ⟨t, ht, hr⟩ := Runs.run_cons_eq_ok.mp h
      obtain ⟨hparams, hnext⟩ := allDrifted_step hs hclamp hdrift hkept.1 ht
      rw [← hparams] at hclamp hnext ⊢
      obtain ⟨hparams', hend⟩ := ih (sound_step c e t hs ht) hclamp hnext (hkept.2 t ht) hr
      refine ⟨hparams', ?_⟩
      rw [List.map_cons, List.sum_cons, ← add_assoc]
      exact hend

end Runs

namespace TwoUpdates
open SameSecond

def before : List Event :=
  [.oracle (.beginBlock start), .oracle (.message (.updateParams ⟨"gov", SameSecond.params⟩)),
    .oracle (.endBlock .ascending),
    .oracle (.beginBlock (start + 1000000000)), vote "100ubtc,2kii",
    .message (.updateFeeTokens ⟨"gov", [token]⟩), .oracle (.endBlock .ascending)]

def updates : List Event :=
  [.oracle (.beginBlock (start + 11000000000)), .oracle (.endBlock .ascending),
    .oracle (.beginBlock (start + 21000000000))]

def reached : Exec (Chain × Chain) := do
  let c ← Runs.run (step env) (genesis 0 staking ∅ fee) before
  let c' ← Runs.run (step env) c updates
  pure (c, c')

set_option maxRecDepth 40000 in
theorem reached_view : reached.toOption.map (fun p => (p.1.fee.params.clampFactor.raw,
    p.1.fee.feeTokens.map FeeTokenMetadata.price, p.2.fee.feeTokens.map FeeTokenMetadata.price)) =
      some (100000000000000000, [.ofInt 1], [⟨810000000000000000⟩]) := by decide

end TwoUpdates

end Kiichain.FeeAbstraction
