import Mathlib.Algebra.BigOperators.Group.List.Lemmas
import Mathlib.Algebra.Order.BigOperators.Group.List
import Mathlib.Algebra.Order.Ring.Int
import Mathlib.Tactic.Ring

/-!
# Weighted quantiles

The entries of a list have keys in a linear order and integer weights. On a list
sorted by key, the key at which the accumulated weight first reaches a threshold
is characterised without reference to the order of the entries.
-/

namespace WeightedQuantile

variable {ι α : Type*} (key : ι → α) (weight : ι → ℤ)

def total (l : List ι) : ℤ := (l.map weight).sum

/-- The weight of the entries whose key satisfies `p`. -/
def weightOf (p : α → Prop) [DecidablePred p] (l : List ι) : ℤ :=
  total weight (l.filter fun i => p (key i))

/-- The key at which the weight accumulated from the front reaches `t`. -/
def reach (t : ℤ) : ℤ → List ι → Option α
  | _, [] => none
  | acc, i :: l => if t ≤ acc + weight i then some (key i) else reach t (acc + weight i) l

section Sides

variable [LinearOrder α]

def atMost (l : List ι) (a : α) : ℤ := weightOf key weight (· ≤ a) l

def atLeast (l : List ι) (a : α) : ℤ := weightOf key weight (a ≤ ·) l

def below (l : List ι) (a : α) : ℤ := weightOf key weight (· < a) l

def exactly (l : List ι) (a : α) : ℤ := weightOf key weight (· = a) l

def outside (l : List ι) (lo hi : α) : ℤ := weightOf key weight (fun a => ¬ (lo ≤ a ∧ a ≤ hi)) l

/-- The least key at or below which the weight reaches `t`. -/
structure IsQuantile (t : ℤ) (l : List ι) (a : α) : Prop where
  mem : ∃ i ∈ l, key i = a
  le_atMost : t ≤ atMost key weight l a
  below_lt : below key weight l a < t ∨ ∀ i ∈ l, ¬ key i < a

/-- Both sides of `a`, with `a` itself, hold at least half of the weight. -/
structure IsMedian (l : List ι) (a : α) : Prop where
  weighs : ∃ i ∈ l, key i = a ∧ 0 < weight i
  lower : total weight l ≤ 2 * atMost key weight l a
  upper : total weight l ≤ 2 * atLeast key weight l a

end Sides

variable {key weight}

@[simp] theorem total_nil : total weight ([] : List ι) = 0 := rfl

@[simp] theorem total_cons (i : ι) (l : List ι) :
    total weight (i :: l) = weight i + total weight l := by simp [total]

theorem total_nonneg {l : List ι} (h : ∀ i ∈ l, 0 ≤ weight i) : 0 ≤ total weight l := by
  apply List.sum_nonneg
  simpa using h

section WeightOf

variable {p q : α → Prop} [DecidablePred p] [DecidablePred q]

@[simp] theorem weightOf_nil : weightOf key weight p [] = 0 := rfl

theorem weightOf_cons (i : ι) (l : List ι) :
    weightOf key weight p (i :: l) =
      (if p (key i) then weight i else 0) + weightOf key weight p l := by
  by_cases h : p (key i) <;> simp [weightOf, h]

theorem weightOf_cons_of_pos {i : ι} (h : p (key i)) (l : List ι) :
    weightOf key weight p (i :: l) = weight i + weightOf key weight p l := by
  rw [weightOf_cons, if_pos h]

theorem weightOf_cons_of_neg {i : ι} (h : ¬ p (key i)) (l : List ι) :
    weightOf key weight p (i :: l) = weightOf key weight p l := by
  rw [weightOf_cons, if_neg h, zero_add]

theorem weightOf_perm {l l' : List ι} (h : l.Perm l') :
    weightOf key weight p l = weightOf key weight p l' :=
  ((h.filter _).map weight).sum_eq

theorem weightOf_eq_zero {l : List ι} (h : ∀ i ∈ l, ¬ p (key i)) :
    weightOf key weight p l = 0 := by
  have hnil : (l.filter fun i => p (key i)) = [] := by
    rw [List.filter_eq_nil_iff]
    simpa using h
  rw [weightOf, hnil, total_nil]

theorem weightOf_nonneg {l : List ι} (h : ∀ i ∈ l, 0 ≤ weight i) :
    0 ≤ weightOf key weight p l :=
  total_nonneg fun i hi => h i (List.mem_of_mem_filter hi)

theorem weightOf_mono {l : List ι} (h : ∀ i ∈ l, 0 ≤ weight i) (hpq : ∀ a, p a → q a) :
    weightOf key weight p l ≤ weightOf key weight q l := by
  induction l with
  | nil => simp
  | cons i l ih =>
      have hl := ih fun j hj => h j (List.mem_cons_of_mem i hj)
      have hi := h i List.mem_cons_self
      by_cases hp : p (key i)
      · rw [weightOf_cons_of_pos hp, weightOf_cons_of_pos (hpq _ hp)]
        omega
      · rw [weightOf_cons_of_neg hp]
        by_cases hq : q (key i)
        · rw [weightOf_cons_of_pos hq]
          omega
        · rwa [weightOf_cons_of_neg hq]

theorem exists_weighs {l : List ι} (h : 0 < weightOf key weight p l) :
    ∃ i ∈ l, p (key i) ∧ 0 < weight i := by
  induction l with
  | nil => simp at h
  | cons i l ih =>
      by_cases hi : p (key i) ∧ 0 < weight i
      · exact ⟨i, List.mem_cons_self, hi⟩
      · have hl : 0 < weightOf key weight p l := by
          rw [weightOf_cons] at h
          split_ifs at h with hp
          · have hle : ¬ 0 < weight i := fun hpos => hi ⟨hp, hpos⟩
            omega
          · omega
        obtain ⟨j, hj, hweighs⟩ := ih hl
        exact ⟨j, List.mem_cons_of_mem i hj, hweighs⟩

end WeightOf

/-- The threshold is reached on every list heavy enough. -/
theorem exists_reach {t : ℤ} {l : List ι} (hl : l ≠ []) :
    ∀ acc, t ≤ acc + total weight l → ∃ a, reach key weight t acc l = some a := by
  induction l with
  | nil => exact absurd rfl hl
  | cons i l ih =>
      intro acc h
      rw [reach]
      split_ifs with hi
      · exact ⟨_, rfl⟩
      · rw [total_cons] at h
        apply ih _ _ (by omega)
        rintro rfl
        rw [total_nil] at h
        omega

variable [LinearOrder α]

theorem below_add_atLeast (l : List ι) (a : α) :
    below key weight l a + atLeast key weight l a = total weight l := by
  induction l with
  | nil => rfl
  | cons i l ih =>
      simp only [below, atLeast, weightOf_cons, total_cons] at *
      rcases lt_or_ge (key i) a with hlt | hge
      · rw [if_pos hlt, if_neg (not_le.mpr hlt)]
        omega
      · rw [if_neg (not_lt.mpr hge), if_pos hge]
        omega

theorem below_add_exactly (l : List ι) (a : α) :
    below key weight l a + exactly key weight l a = atMost key weight l a := by
  induction l with
  | nil => rfl
  | cons i l ih =>
      simp only [below, exactly, atMost, weightOf_cons] at *
      rcases lt_trichotomy (key i) a with hlt | heq | hgt
      · rw [if_pos hlt, if_neg hlt.ne, if_pos hlt.le]
        omega
      · rw [if_neg heq.not_lt, if_pos heq, if_pos heq.le]
        omega
      · rw [if_neg hgt.not_gt, if_neg hgt.ne', if_neg hgt.not_ge]
        omega

theorem atMost_mono {l : List ι} (h : ∀ i ∈ l, 0 ≤ weight i) {a b : α} (hab : a ≤ b) :
    atMost key weight l a ≤ atMost key weight l b :=
  weightOf_mono h fun _ hc => hc.trans hab

theorem atMost_le_below {l : List ι} (h : ∀ i ∈ l, 0 ≤ weight i) {a b : α} (hab : a < b) :
    atMost key weight l a ≤ below key weight l b :=
  weightOf_mono h fun _ hc => hc.trans_lt hab

/-- Where the entries of a group lie in a range or weigh nothing, at most the others
weigh outside it. -/
theorem outside_le_of_group {l : List ι} (hw : ∀ i ∈ l, 0 ≤ weight i) {lo hi : α} (group : ι → Bool)
    (h : ∀ i ∈ l, group i = true → weight i = 0 ∨ lo ≤ key i ∧ key i ≤ hi) :
    outside key weight l lo hi ≤ total weight (l.filter fun i => !group i) := by
  induction l with
  | nil => simp [outside]
  | cons i l ih =>
      have hl := ih (fun j hj => hw j (List.mem_cons_of_mem i hj))
        (fun j hj => h j (List.mem_cons_of_mem i hj))
      have hi := hw i List.mem_cons_self
      simp only [outside] at hl ⊢
      cases hgroup : group i with
      | false =>
          rw [List.filter_cons_of_pos (by simp [hgroup]), total_cons, weightOf_cons]
          split_ifs <;> omega
      | true =>
          rw [List.filter_cons_of_neg (by simp [hgroup]), weightOf_cons]
          obtain hzero | hin := h i List.mem_cons_self hgroup
          · rw [hzero]
            split_ifs <;> omega
          · rw [if_neg (not_not.mpr hin)]
            omega

namespace IsQuantile

variable {t : ℤ} {l : List ι} {a b : α}

theorem perm {l' : List ι} (h : IsQuantile key weight t l a) (hl : l.Perm l') :
    IsQuantile key weight t l' a where
  mem := by
    obtain ⟨i, hi, ha⟩ := h.mem
    exact ⟨i, hl.mem_iff.mp hi, ha⟩
  le_atMost := by
    rw [atMost, ← weightOf_perm hl]
    exact h.le_atMost
  below_lt := by
    rw [below, ← weightOf_perm hl]
    exact h.below_lt.imp_right fun hnone i hi => hnone i (hl.mem_iff.mpr hi)

/-- A key below a quantile has less weight at or below it. -/
theorem atMost_lt (hw : ∀ i ∈ l, 0 ≤ weight i) (h : IsQuantile key weight t l a) {i : ι}
    (hi : i ∈ l) (hlt : key i < a) : atMost key weight l (key i) < t := by
  rcases h.below_lt with hbelow | hnone
  · exact (atMost_le_below hw hlt).trans_lt hbelow
  · exact absurd hlt (hnone i hi)

theorem not_quantile_lt (hw : ∀ i ∈ l, 0 ≤ weight i) (ha : IsQuantile key weight t l a)
    (hb : IsQuantile key weight t l b) : ¬ a < b := by
  intro hlt
  obtain ⟨i, hi, rfl⟩ := ha.mem
  have hless := hb.atMost_lt hw hi hlt
  have hle := ha.le_atMost
  omega

theorem unique (hw : ∀ i ∈ l, 0 ≤ weight i) (ha : IsQuantile key weight t l a)
    (hb : IsQuantile key weight t l b) : a = b :=
  le_antisymm (not_lt.mp (hb.not_quantile_lt hw ha)) (not_lt.mp (ha.not_quantile_lt hw hb))

/-- A quantile lies in every range that too little weight is outside of. -/
theorem mem_range (hw : ∀ i ∈ l, 0 ≤ weight i) (h : IsQuantile key weight t l a) {lo hi : α}
    (hlow : outside key weight l lo hi < t)
    (hhigh : outside key weight l lo hi + t ≤ total weight l) : lo ≤ a ∧ a ≤ hi := by
  constructor
  · by_contra! hlt
    have hle : atMost key weight l a ≤ outside key weight l lo hi :=
      weightOf_mono hw fun c hc hand => absurd (hand.1.trans hc) (not_le.mpr hlt)
    have hquantile := h.le_atMost
    omega
  · by_contra! hlt
    have hle : atLeast key weight l a ≤ outside key weight l lo hi :=
      weightOf_mono hw fun c hc hand => absurd (hc.trans hand.2) (not_le.mpr hlt)
    have hsplit : below key weight l a + atLeast key weight l a = total weight l :=
      below_add_atLeast l a
    have hnonneg : 0 ≤ outside key weight l lo hi := weightOf_nonneg hw
    rcases h.below_lt with hbelow | hnone
    · omega
    · have hzero : below key weight l a = 0 := weightOf_eq_zero hnone
      omega

/-- One more entry in front, below the quantile of the others. -/
theorem cons {i : ι} (h : IsQuantile key weight (t - weight i) l a) (hle : key i ≤ a)
    (hsorted : ∀ j ∈ l, key i ≤ key j) (hlt : weight i < t) :
    IsQuantile key weight t (i :: l) a where
  mem := by
    obtain ⟨j, hj, ha⟩ := h.mem
    exact ⟨j, List.mem_cons_of_mem i hj, ha⟩
  le_atMost := by
    have hl := h.le_atMost
    rw [atMost] at *
    rw [weightOf_cons_of_pos hle]
    omega
  below_lt := by
    rcases hle.lt_or_eq with hia | rfl
    · left
      rw [below, weightOf_cons_of_pos hia]
      rcases h.below_lt with hbelow | hnone
      · rw [below] at hbelow
        omega
      · rw [weightOf_eq_zero hnone]
        omega
    · right
      intro j hj
      rcases List.mem_cons.mp hj with rfl | hj
      · exact lt_irrefl _
      · exact not_lt.mpr (hsorted j hj)

end IsQuantile

theorem isQuantile_of_reach {t : ℤ} {l : List ι} {a : α}
    (hsorted : l.Pairwise fun i j => key i ≤ key j) (hw : ∀ i ∈ l, 0 ≤ weight i) :
    ∀ acc, reach key weight t acc l = some a → IsQuantile key weight (t - acc) l a := by
  induction l with
  | nil =>
      intro acc h
      simp [reach] at h
  | cons i l ih =>
      intro acc h
      obtain ⟨hhead, htail⟩ := List.pairwise_cons.mp hsorted
      have hwl : ∀ j ∈ l, 0 ≤ weight j := fun j hj => hw j (List.mem_cons_of_mem i hj)
      rw [reach] at h
      split_ifs at h with hi
      · obtain rfl := Option.some.inj h
        refine ⟨⟨i, List.mem_cons_self, rfl⟩, ?_, Or.inr fun j hj => ?_⟩
        · rw [atMost, weightOf_cons_of_pos (p := (· ≤ key i)) (le_refl (key i))]
          have hrest : 0 ≤ weightOf key weight (· ≤ key i) l := weightOf_nonneg hwl
          omega
        · rcases List.mem_cons.mp hj with rfl | hj
          · exact lt_irrefl _
          · exact not_lt.mpr (hhead j hj)
      · have hrest := ih htail hwl _ h
        rw [← sub_sub] at hrest
        obtain ⟨j, hj, rfl⟩ := hrest.mem
        exact hrest.cons (hhead j hj) hhead (by omega)

/-- With the integer half of the total as threshold the quantile is a median,
unless the weight at or below some key falls short of the exact half by one half. -/
theorem IsQuantile.isMedian_iff {l : List ι} {a : α} (hw : ∀ i ∈ l, 0 ≤ weight i)
    (hpos : 0 < total weight l) (h : IsQuantile key weight (total weight l / 2) l a) :
    IsMedian key weight l a ↔ ∀ i ∈ l, 2 * atMost key weight l (key i) + 1 ≠ total weight l := by
  have hle := h.le_atMost
  constructor
  · intro hmedian i hi hshort
    have hlower := hmedian.lower
    rcases lt_or_ge (key i) a with hlt | hge
    · have hless := h.atMost_lt hw hi hlt
      omega
    · have hmono : atMost key weight l a ≤ atMost key weight l (key i) := atMost_mono hw hge
      omega
  · intro hall
    obtain ⟨i, hi, rfl⟩ := h.mem
    have hshort := hall i hi
    have hupper : below key weight l (key i) + atLeast key weight l (key i) = total weight l :=
      below_add_atLeast l (key i)
    have hsplit : below key weight l (key i) + exactly key weight l (key i) =
        atMost key weight l (key i) := below_add_exactly l (key i)
    have hbelow : 2 * below key weight l (key i) < total weight l ∧
        below key weight l (key i) < atMost key weight l (key i) := by
      rcases h.below_lt with hlt | hnone
      · omega
      · have hzero : below key weight l (key i) = 0 := weightOf_eq_zero hnone
        omega
    obtain ⟨j, hj, hkey, hweighs⟩ :=
      exists_weighs (p := (· = key i)) (show 0 < exactly key weight l (key i) by omega)
    exact ⟨⟨j, hj, hkey, hweighs⟩, by omega, by omega⟩

end WeightedQuantile
