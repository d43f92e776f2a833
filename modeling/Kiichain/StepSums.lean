import Mathlib.Tactic
import Mathlib.Algebra.BigOperators.Group.Finset.Basic
import Mathlib.Data.Int.Interval
import Mathlib.Algebra.Order.BigOperators.Group.Finset

/-!
# Sums of step functions

Samples carry an age and a value, the youngest first. Weighing each value by the age it
adds gives the sum, over every unit of age, of the value of the youngest sample that is
at least that old.
-/

namespace StepSums
open Finset

variable {M : Type*}

/-- The value of the first sample that reaches an age. -/
def valueAt (samples : List (ℤ × M)) (age : ℤ) : Option M :=
  (samples.find? (fun e => age ≤ e.1)).map Prod.snd

/-- The age that the samples reach from a start. -/
def reach (start : ℤ) (samples : List (ℤ × M)) : ℤ := (samples.map Prod.fst).getLastD start

/-- The samples do not get younger, from a start on. -/
def Ages (start : ℤ) (samples : List (ℤ × M)) : Prop :=
  (start :: samples.map Prod.fst).Pairwise (· ≤ ·)

def weighedFrom [AddCommGroup M] : ℤ → List (ℤ × M) → M
  | _, [] => 0
  | start, e :: samples => (e.1 - start) • e.2 + weighedFrom e.1 samples

variable {start : ℤ} {samples : List (ℤ × M)} {e : ℤ × M}

theorem ages_cons : Ages start (e :: samples) ↔ start ≤ e.1 ∧ Ages e.1 samples := by
  unfold Ages
  rw [List.map_cons, List.pairwise_cons]
  constructor
  · rintro ⟨hle, hages⟩
    exact ⟨hle e.1 List.mem_cons_self, hages⟩
  · rintro ⟨hle, hages⟩
    refine ⟨List.forall_mem_cons.mpr ⟨hle, fun age hage => ?_⟩, hages⟩
    exact hle.trans ((List.pairwise_cons.mp hages).1 age hage)

theorem reach_cons (start : ℤ) (e : ℤ × M) (samples : List (ℤ × M)) :
    reach start (e :: samples) = reach e.1 samples := by
  rw [reach, reach, List.map_cons, List.getLastD_cons]

theorem Ages.le_reach (h : Ages start samples) :
    start ≤ reach start samples ∧ ∀ e ∈ samples, e.1 ≤ reach start samples := by
  induction samples generalizing start with
  | nil => exact ⟨le_rfl, fun e he => absurd he List.not_mem_nil⟩
  | cons e samples ih =>
      obtain ⟨hle, hages⟩ := ages_cons.mp h
      obtain ⟨hself, hall⟩ := ih hages
      rw [reach_cons]
      exact ⟨hle.trans hself, List.forall_mem_cons.mpr ⟨hself, hall⟩⟩

/-- The last of the samples has the age they reach. -/
theorem exists_reach (start : ℤ) (hne : samples ≠ []) : ∃ e ∈ samples, e.1 = reach start samples := by
  have hmem : reach start samples ∈ samples.map Prod.fst := by
    have hne' : samples.map Prod.fst ≠ [] := mt List.map_eq_nil_iff.mp hne
    rw [reach, List.getLastD_eq_getLast?, List.getLast?_eq_getLast_of_ne_nil hne', Option.getD_some]
    exact List.getLast_mem hne'
  obtain ⟨e, he, heq⟩ := List.mem_map.mp hmem
  exact ⟨e, he, heq⟩

theorem valueAt_cons_of_le {age : ℤ} (h : age ≤ e.1) : valueAt (e :: samples) age = some e.2 := by
  rw [valueAt, List.find?_cons_of_pos (by simpa using h)]
  rfl

theorem valueAt_cons_of_lt {age : ℤ} (h : e.1 < age) :
    valueAt (e :: samples) age = valueAt samples age := by
  rw [valueAt, List.find?_cons_of_neg (by simpa using h)]
  rfl

theorem isSome_valueAt (start : ℤ) {age : ℤ} (hne : samples ≠ []) (hage : age ≤ reach start samples) :
    (valueAt samples age).isSome := by
  obtain ⟨e, he, heq⟩ := exists_reach start hne
  rw [valueAt, Option.isSome_map, List.find?_isSome]
  exact ⟨e, he, by simpa [heq] using hage⟩

/-- The weighed sum is the sum of the step function. -/
theorem sum_valueAt [AddCommGroup M] (h : Ages start samples) :
    ∑ age ∈ Ioc start (reach start samples), (valueAt samples age).getD 0 =
      weighedFrom start samples := by
  induction samples generalizing start with
  | nil => simp [reach, weighedFrom]
  | cons e samples ih =>
      obtain ⟨hle, hages⟩ := ages_cons.mp h
      have hreach := hages.le_reach.1
      have hfirst : ∑ age ∈ Ioc start e.1, (valueAt (e :: samples) age).getD 0 =
          (e.1 - start) • e.2 := by
        have hconst : ∀ age ∈ Ioc start e.1, (valueAt (e :: samples) age).getD 0 = e.2 := by
          intro age hage
          rw [valueAt_cons_of_le (mem_Ioc.mp hage).2, Option.getD_some]
        rw [sum_congr rfl hconst, sum_const, ← Int.card_Ioc_of_le _ _ hle, natCast_zsmul]
      have hrest : ∑ age ∈ Ioc e.1 (reach e.1 samples), (valueAt (e :: samples) age).getD 0 =
          weighedFrom e.1 samples := by
        rw [← ih hages]
        apply sum_congr rfl
        intro age hage
        rw [valueAt_cons_of_lt (mem_Ioc.mp hage).1]
      rw [reach_cons, ← Ioc_union_Ioc_eq_Ioc hle hreach,
        sum_union (Ioc_disjoint_Ioc_of_le le_rfl), hfirst, hrest, weighedFrom]

/-- A truncated average of whole numbers lies between two of them. -/
theorem exists_le_average {s : Finset ℤ} (f : ℤ → ℤ) (hne : s.Nonempty) :
    (∃ t ∈ s, f t ≤ (∑ t ∈ s, f t).tdiv s.card) ∧ ∃ t ∈ s, (∑ t ∈ s, f t).tdiv s.card ≤ f t := by
  have hcard : (0 : ℤ) < s.card := by exact_mod_cast card_pos.mpr hne
  have hmod := Int.tmod_add_mul_tdiv (∑ t ∈ s, f t) s.card
  constructor
  · by_contra! hlt
    have hsum := card_nsmul_le_sum s f ((∑ t ∈ s, f t).tdiv s.card + 1) hlt
    rw [nsmul_eq_mul, mul_add, mul_one] at hsum
    have hrest := Int.tmod_lt_of_pos (∑ t ∈ s, f t) hcard
    linarith
  · by_contra! hlt
    have hsum := sum_le_card_nsmul s f ((∑ t ∈ s, f t).tdiv s.card - 1)
      (fun t ht => Int.le_sub_one_of_lt (hlt t ht))
    rw [nsmul_eq_mul, mul_sub, mul_one] at hsum
    have hrest := Int.lt_tmod_of_pos (∑ t ∈ s, f t) hcard
    linarith

section Exceptions

variable {s d : Finset ℤ} {f : ℤ → ℤ} {lo hi cap : ℤ}

/-- A sum of numbers of which only exceptions exceed `hi`, and none exceeds `cap`. -/
theorem sum_le_of_all_but (h : ∀ t ∈ s, t ∉ d → f t ≤ hi) (hcap : ∀ t ∈ s, f t ≤ cap) :
    ∑ t ∈ s, f t ≤ hi * (s \ d).card + cap * (s ∩ d).card := by
  have hsettled := sum_le_card_nsmul (s \ d) f hi fun t ht =>
    h t (mem_sdiff.mp ht).1 (mem_sdiff.mp ht).2
  have hother := sum_le_card_nsmul (s ∩ d) f cap fun t ht => hcap t (mem_inter.mp ht).1
  rw [nsmul_eq_mul, mul_comm] at hsettled hother
  rw [← sum_inter_add_sum_sdiff s d f]
  linarith

theorem le_sum_of_all_but (h : ∀ t ∈ s, t ∉ d → lo ≤ f t) (hnonneg : ∀ t ∈ s, 0 ≤ f t) :
    lo * (s \ d).card ≤ ∑ t ∈ s, f t := by
  have hsettled := card_nsmul_le_sum (s \ d) f lo fun t ht =>
    h t (mem_sdiff.mp ht).1 (mem_sdiff.mp ht).2
  have hother := sum_nonneg fun t (ht : t ∈ s ∩ d) => hnonneg t (mem_inter.mp ht).1
  rw [nsmul_eq_mul, mul_comm] at hsettled
  rw [← sum_inter_add_sum_sdiff s d f]
  linarith

end Exceptions

end StepSums
