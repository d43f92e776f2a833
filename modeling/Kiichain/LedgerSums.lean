import Kiichain.Ledger
import Mathlib.Algebra.BigOperators.Group.Finset.Piecewise
import Mathlib.Algebra.Order.BigOperators.Group.Finset

/-!
# What the accounts of a ledger add up to

Finitely many accounts hold all coins of a denomination, and their balances add up
to its supply. Every operation keeps this: what one account gives another takes,
and what is minted or burned the supply follows.
-/

namespace Ledger
open GoExec

variable {A D : Type} {l l' : Ledger A D} {a b : A} {d e : D} {n : ℕ}

/-- The accounts in `holders` hold the denomination, and nobody else does. -/
def HeldBy (l : Ledger A D) (d : D) (holders : Finset A) : Prop :=
  ∀ c ∉ holders, l.balance c d = 0

/-- The balances in the denomination add up to its supply. -/
def AddsUp (l : Ledger A D) (d : D) : Prop :=
  ∃ holders, l.HeldBy d holders ∧ ∑ c ∈ holders, l.balance c d = l.supply d

theorem HeldBy.mono {S T : Finset A} (h : l.HeldBy d S) (hsub : S ⊆ T) : l.HeldBy d T :=
  fun c hc => h c (fun hmem => hc (hsub hmem))

theorem HeldBy.sum_eq {S T : Finset A} (h : l.HeldBy d S) (hsub : S ⊆ T) :
    ∑ c ∈ T, l.balance c d = ∑ c ∈ S, l.balance c d :=
  (Finset.sum_subset hsub (fun c _ hc => h c hc)).symm

variable [DecidableEq A]

/-- Whoever is counted, a part of the balances is at most the supply. -/
theorem AddsUp.sum_le (h : l.AddsUp d) (S : Finset A) : ∑ c ∈ S, l.balance c d ≤ l.supply d := by
  obtain ⟨holders, hheld, hsum⟩ := h
  calc ∑ c ∈ S, l.balance c d
      ≤ ∑ c ∈ holders ∪ S, l.balance c d :=
        Finset.sum_le_sum_of_subset Finset.subset_union_right
    _ = ∑ c ∈ holders, l.balance c d := hheld.sum_eq Finset.subset_union_left
    _ = l.supply d := hsum

theorem AddsUp.balance_le (h : l.AddsUp d) (c : A) : l.balance c d ≤ l.supply d := by
  have hle := h.sum_le {c}
  rwa [Finset.sum_singleton] at hle

/-- Balances still add up where one account gives `x`, another takes `y`, and the
supply moves by the difference. -/
theorem AddsUp.of_moved {x y : ℕ} (h : l.AddsUp d)
    (hbalance : ∀ c, (l'.balance c d + if c = a then x else 0) =
      l.balance c d + if c = b then y else 0)
    (hsupply : l'.supply d + x = l.supply d + y) : l'.AddsUp d := by
  obtain ⟨holders, hheld, hsum⟩ := h
  have hsub : holders ⊆ holders ∪ {a, b} := Finset.subset_union_left
  have ha : a ∈ holders ∪ {a, b} := Finset.mem_union_right _ (Finset.mem_insert_self a {b})
  have hb : b ∈ holders ∪ {a, b} :=
    Finset.mem_union_right _ (Finset.mem_insert_of_mem (Finset.mem_singleton_self b))
  refine ⟨holders ∪ {a, b}, ?_, ?_⟩
  · intro c hc
    have hmoved := hbalance c
    have hca : c ≠ a := fun heq => hc (heq ▸ ha)
    have hcb : c ≠ b := fun heq => hc (heq ▸ hb)
    rw [if_neg hca, if_neg hcb, hheld.mono hsub c hc] at hmoved
    exact hmoved
  · have hmoved := Finset.sum_congr (rfl : holders ∪ {a, b} = _) fun c _ => hbalance c
    rw [Finset.sum_add_distrib, Finset.sum_add_distrib, Finset.sum_ite_eq', Finset.sum_ite_eq',
      if_pos ha, if_pos hb, hheld.sum_eq hsub, hsum] at hmoved
    omega

variable [DecidableEq D]

theorem AddsUp.transfer (h : l.AddsUp e) (ht : l.transfer a b d n = .ok l') : l'.AddsUp e := by
  by_cases hd : e = d
  · apply h.of_moved (a := a) (b := b)
    · intro c
      have hmoved := transfer_balance ht c e
      simpa only [hd, and_true] using hmoved
    · rw [transfer_supply ht]
  · apply h.of_moved (a := a) (b := b) (x := 0) (y := 0)
    · intro c
      have hmoved := transfer_balance ht c e
      simpa only [hd, and_false, if_false, ite_self] using hmoved
    · rw [transfer_supply ht]

theorem AddsUp.send (h : l.AddsUp e) (hs : l.send a b d n = .ok l') : l'.AddsUp e :=
  h.transfer (bind_eq_ok.mp hs).choose_spec.2

theorem AddsUp.mint (h : l.AddsUp e) : (l.mint a d n).AddsUp e := by
  apply h.of_moved (a := a) (b := a) (x := 0) (y := if e = d then n else 0)
  · intro c
    rw [mint_balance]
    by_cases hc : c = a <;> by_cases hd : e = d <;> simp [hc, hd]
  · rw [mint_supply]
    split_ifs with hd
    · rw [hd, add_zero]
    · rfl

theorem AddsUp.burn (h : l.AddsUp e) (hb : l.burn a d n = .ok l') : l'.AddsUp e := by
  apply h.of_moved (a := a) (b := a) (x := if e = d then n else 0) (y := 0)
  · intro c
    rw [burn_balance hb c e]
    by_cases hc : c = a <;> by_cases hd : e = d <;> simp [hc, hd]
  · rw [burn_supply hb]
    have hle := (burn_eq_ok.mp hb).2.1
    split_ifs with hd
    · rw [hd]
      omega
    · rfl

end Ledger
