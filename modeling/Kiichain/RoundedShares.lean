import Mathlib.Tactic
import Mathlib.Data.Rat.Floor

/-!
# Paying a sum in rounded shares

A sum is paid along a decreasing distance to an end. Each payment is a share of what
is left, rounded down, but never nothing and never more than the rest. How far the
shares stray from the parts of the distance bounds how far the rest strays from the
straight line, and how much a finer cut of the same distance changes it.
-/

namespace RoundedShares

def payment (share : ℚ) (r : ℤ) : ℤ := min (max ⌊(r : ℚ) * share⌋ 1) r

/-- Distances that decrease and stay positive. -/
def Cuts : ℤ → List ℤ → Prop
  | u, [] => 0 < u
  | u, u' :: us => u' < u ∧ Cuts u' us

/-- The rest of a sum after the payments of a cut. -/
def remainAfter (share : ℤ → ℤ → ℚ) : ℤ → ℤ → List ℤ → ℤ
  | r, _, [] => r
  | r, u, u' :: us => remainAfter share (r - payment (share u u') r) u' us

/-- How far the shares of a cut are from the parts of the distance, in total. -/
def stray (share : ℤ → ℤ → ℚ) : ℤ → List ℤ → ℚ
  | _, [] => 0
  | u, u' :: us => |share u u' - (u - u') / u| + stray share u' us

section Payment

variable {share : ℚ} {r : ℤ}

theorem payment_bounds (share : ℚ) (hr : 0 ≤ r) : 0 ≤ payment share r ∧ payment share r ≤ r :=
  ⟨le_min (le_max_of_le_right zero_le_one) hr, min_le_right _ _⟩

theorem one_le_payment (hr : 0 < r) : 1 ≤ payment share r := le_min (le_max_right _ _) hr

theorem payment_le (share : ℚ) (r : ℤ) :
    payment share r ≤ 1 ∨ (payment share r : ℚ) ≤ r * share := by
  obtain hfloor | hone := le_total ⌊(r : ℚ) * share⌋ 1
  · left
    exact (min_le_left _ _).trans (max_le hfloor le_rfl)
  · right
    have hle : payment share r ≤ ⌊(r : ℚ) * share⌋ := (min_le_left _ _).trans (max_le le_rfl hone)
    exact (Int.cast_le.mpr hle).trans (Int.floor_le _)

theorem le_payment (hr : 0 ≤ r) (hshare : share ≤ 1) : (r * share - 1 : ℚ) ≤ payment share r := by
  have hrest : ⌊(r : ℚ) * share⌋ ≤ r := by
    have hle : (r : ℚ) * share ≤ r := mul_le_of_le_one_right (by exact_mod_cast hr) hshare
    exact_mod_cast (Int.floor_le _).trans hle
  have hle : ⌊(r : ℚ) * share⌋ ≤ payment share r := le_min (le_max_left _ _) hrest
  have hfloor := Int.sub_one_lt_floor ((r : ℚ) * share)
  exact hfloor.le.trans (by exact_mod_cast hle)

end Payment

variable {share : ℤ → ℤ → ℚ} {u u' r q R : ℤ} {us vs : List ℤ}

theorem Cuts.pos (h : Cuts u us) : 0 < u := by
  induction us generalizing u with
  | nil => exact h
  | cons u' us ih => exact (ih h.2).trans h.1

theorem remainAfter_append (share : ℤ → ℤ → ℚ) (r u : ℤ) (us vs : List ℤ) :
    remainAfter share r u (us ++ vs) =
      remainAfter share (remainAfter share r u us) (us.getLastD u) vs := by
  induction us generalizing r u with
  | nil => rfl
  | cons u' us ih =>
      rw [List.getLastD_cons]
      exact ih (r - payment (share u u') r) u'

theorem getLastD_append (u : ℤ) (us vs : List ℤ) :
    (us ++ vs).getLastD u = vs.getLastD (us.getLastD u) := by
  induction us generalizing u with
  | nil => rfl
  | cons u' us ih =>
      rw [List.cons_append, List.getLastD_cons, List.getLastD_cons]
      exact ih u'

theorem stray_append (share : ℤ → ℤ → ℚ) (u : ℤ) (us vs : List ℤ) :
    stray share u (us ++ vs) = stray share u us + stray share (us.getLastD u) vs := by
  induction us generalizing u with
  | nil => exact (zero_add _).symm
  | cons u' us ih =>
      rw [List.getLastD_cons, List.cons_append, stray, stray, ih u', add_assoc]

theorem cuts_append (h : Cuts u (us ++ vs)) : Cuts u us ∧ Cuts (us.getLastD u) vs := by
  induction us generalizing u with
  | nil => exact ⟨h.pos, h⟩
  | cons u' us ih =>
      obtain ⟨hus, hvs⟩ := ih h.2
      rw [List.getLastD_cons]
      exact ⟨⟨h.1, hus⟩, hvs⟩

theorem Cuts.getLastD_le (h : Cuts u us) : us.getLastD u ≤ u := by
  induction us generalizing u with
  | nil => exact le_rfl
  | cons u' us ih =>
      rw [List.getLastD_cons]
      exact (ih h.2).trans h.1.le

theorem Cuts.getLastD_pos (h : Cuts u us) : 0 < us.getLastD u := by
  induction us generalizing u with
  | nil => exact h
  | cons u' us ih =>
      rw [List.getLastD_cons]
      exact ih h.2

theorem Cuts.getLastD_lt (h : Cuts u us) (hne : us ≠ []) : us.getLastD u < u := by
  cases us with
  | nil => exact absurd rfl hne
  | cons u' us =>
      rw [List.getLastD_cons]
      exact h.2.getLastD_le.trans_lt h.1

theorem Cuts.eq_nil (h : Cuts u us) (hlast : us.getLastD u = u) : us = [] := by
  by_contra hne
  exact (h.getLastD_lt hne).ne hlast

theorem stray_nonneg (share : ℤ → ℤ → ℚ) (u : ℤ) (us : List ℤ) : 0 ≤ stray share u us := by
  induction us generalizing u with
  | nil => exact le_rfl
  | cons u' us ih => exact add_nonneg (abs_nonneg _) (ih u')

theorem remainAfter_bounds (share : ℤ → ℤ → ℚ) (u : ℤ) (hr : 0 ≤ r) (us : List ℤ) :
    0 ≤ remainAfter share r u us ∧ remainAfter share r u us ≤ r := by
  induction us generalizing r u with
  | nil => exact ⟨hr, le_rfl⟩
  | cons u' us ih =>
      obtain ⟨hnonneg, hle⟩ := payment_bounds (share u u') hr
      have hrec := ih u' (sub_nonneg.mpr hle)
      exact ⟨hrec.1, hrec.2.trans (sub_le_self r hnonneg)⟩

/-- A cut of at least one payment takes at least one unit. -/
theorem remainAfter_le_pred (hr : 0 ≤ r) (hne : us ≠ []) :
    remainAfter share r u us ≤ max (r - 1) 0 := by
  cases us with
  | nil => exact absurd rfl hne
  | cons u' us =>
      have hpay := payment_bounds (share u u') hr
      have hle := (remainAfter_bounds share u' (sub_nonneg.mpr hpay.2) us).2
      apply hle.trans
      obtain hpos | hzero := hr.lt_or_eq
      · exact le_max_of_le_left (sub_le_sub_left (one_le_payment hpos) r)
      · exact le_max_of_le_right (by omega)

theorem abs_mul_ratio_le (x : ℚ) {v : ℤ} (hv : 0 ≤ v) (hle : v ≤ u) : |x * (v / u)| ≤ |x| := by
  have hv0 : (0 : ℚ) ≤ v := by exact_mod_cast hv
  have hle0 : (v : ℚ) ≤ u := by exact_mod_cast hle
  rw [abs_mul, abs_of_nonneg (div_nonneg hv0 (hv0.trans hle0))]
  exact mul_le_of_le_one_right (abs_nonneg x) (div_le_one_of_le₀ hle0 (hv0.trans hle0))

/-- A unit of the rest is worth at most a unit later on. -/
theorem mul_ratio_le_add_one {r' v : ℤ} (hr' : 0 ≤ r') (hle : r - 1 ≤ r') (hv : 0 < v)
    (hvu : v ≤ u') (hlt : u' < u) : (r * (v / u) : ℚ) ≤ r' * (v / u') + 1 := by
  have hv0 : (0 : ℚ) < v := by exact_mod_cast hv
  have hu'0 : (0 : ℚ) < u' := by exact_mod_cast hv.trans_le hvu
  have hu0 : (0 : ℚ) < u := by exact_mod_cast (hv.trans_le hvu).trans hlt
  have hclose : (v / u : ℚ) ≤ v / u' :=
    div_le_div_of_nonneg_left hv0.le hu'0 (by exact_mod_cast hlt.le)
  have hone : (v / u' : ℚ) ≤ 1 := (div_le_one hu'0).mpr (by exact_mod_cast hvu)
  have hrest : (r : ℚ) ≤ r' + 1 := by exact_mod_cast sub_le_iff_le_add.mp hle
  calc (r * (v / u) : ℚ) ≤ (r' + 1) * (v / u') :=
        mul_le_mul hrest hclose (div_pos hv0 hu0).le (by exact_mod_cast (by omega : 0 ≤ r' + 1))
    _ ≤ r' * (v / u') + 1 := by linarith

/-- What a payment leaves of a line it leaves of the line to any later distance. -/
theorem share_left_le {r' v : ℤ} {error : ℚ} (herror : 0 ≤ error)
    (h : (r * (u' / u) - error : ℚ) ≤ r') (hv : 0 < v) (hvu : v ≤ u') :
    (r * (v / u) - error : ℚ) ≤ r' * (v / u') := by
  have hv0 : (0 : ℚ) < v := by exact_mod_cast hv
  have hu'0 : (0 : ℚ) < u' := by exact_mod_cast hv.trans_le hvu
  have hscaled := mul_le_mul_of_nonneg_right h (div_pos hv0 hu'0).le
  have hless := mul_le_of_le_one_right herror
    ((div_le_one hu'0).mpr (by exact_mod_cast hvu : (v : ℚ) ≤ u'))
  have hpart : (r * (u' / u) * (v / u') : ℚ) = r * (v / u) := by
    field_simp
  rw [sub_mul, hpart] at hscaled
  linarith

/-- What a share leaves is the part of the distance that is left, up to the stray. -/
theorem abs_sub_share_le (share : ℚ) (u' : ℤ) (hr : 0 ≤ r) (hR : r ≤ R) (hu : 0 < u) :
    |(r - r * share : ℚ) - r * (u' / u)| ≤ R * |share - (u - u') / u| := by
  have hu0 : (u : ℚ) ≠ 0 := by exact_mod_cast hu.ne'
  have heq : (r - r * share : ℚ) - r * (u' / u) = -(r * (share - (u - u') / u)) := by
    field_simp
    ring
  rw [heq, abs_neg, abs_mul, abs_of_nonneg (by exact_mod_cast hr)]
  exact mul_le_mul_of_nonneg_right (by exact_mod_cast hR) (abs_nonneg _)

section Straight

variable (hshare : ∀ u u' : ℤ, 0 < u' → u' < u → share u u' ≤ 1)
include hshare

theorem rest_le (hr : 0 ≤ r) (hR : r ≤ R) (hu' : 0 < u') (hlt : u' < u) :
    ((r - payment (share u u') r : ℤ) : ℚ) ≤
      r * (u' / u) + 1 + R * |share u u' - (u - u') / u| := by
  have hpay := le_payment hr (hshare u u' hu' hlt)
  have habs := (abs_le.mp (abs_sub_share_le (share u u') u' hr hR (hu'.trans hlt))).2
  push_cast
  linarith

omit hshare in
/-- A payment of more than one unit is at most the share. -/
theorem le_rest (share : ℤ → ℤ → ℚ) (hr : 0 ≤ r) (hR : r ≤ R) (hu' : 0 < u') (hlt : u' < u) :
    r - 1 ≤ r - payment (share u u') r ∨
      (r * (u' / u) - R * |share u u' - (u - u') / u| : ℚ) ≤
        ((r - payment (share u u') r : ℤ) : ℚ) := by
  obtain hone | hpay := payment_le (share u u') r
  · exact Or.inl (sub_le_sub_left hone r)
  · right
    have habs := (abs_le.mp (abs_sub_share_le (share u u') u' hr hR (hu'.trans hlt))).1
    push_cast
    linarith

theorem abs_rest_sub_le (hr : 0 ≤ r) (hR : r ≤ R) (hu' : 0 < u') (hlt : u' < u) :
    |((r - payment (share u u') r : ℤ) : ℚ) - r * (u' / u)| ≤
      1 + R * |share u u' - (u - u') / u| := by
  have hupper := rest_le hshare hr hR hu' hlt
  have hr0 : (0 : ℚ) ≤ r := by exact_mod_cast hr
  have hpart : (r * (u' / u) : ℚ) ≤ r := by
    apply mul_le_of_le_one_right hr0
    exact (div_le_one (by exact_mod_cast hu'.trans hlt)).mpr (by exact_mod_cast hlt.le)
  have herror : (0 : ℚ) ≤ R * |share u u' - (u - u') / u| :=
    mul_nonneg (by exact_mod_cast hr.trans hR) (abs_nonneg _)
  rw [abs_le]
  obtain hone | hlower := le_rest share hr hR hu' hlt
  · have hone' : (r - 1 : ℚ) ≤ ((r - payment (share u u') r : ℤ) : ℚ) := by exact_mod_cast hone
    constructor <;> linarith
  · constructor <;> linarith

/-- Along a cut the distance from a straight line grows by at most a unit a payment and
the stray. -/
theorem abs_remainAfter_sub_le (hc : Cuts u us) (hr : 0 ≤ r) (hR : r ≤ R) (c : ℚ) :
    |(remainAfter share r u us : ℚ) - c * us.getLastD u| ≤
      |r - c * u| + us.length + R * stray share u us := by
  induction us generalizing r u with
  | nil => simp [remainAfter, stray]
  | cons u' us ih =>
      obtain ⟨hlt, hrest⟩ := hc
      have hu' := hrest.pos
      obtain ⟨hnonneg, hle⟩ := payment_bounds (share u u') hr
      have hrec := ih hrest (sub_nonneg.mpr hle) ((sub_le_self r hnonneg).trans hR)
      have hstep := abs_rest_sub_le hshare hr hR hu' hlt
      have hu0 : (0 : ℚ) < u := by exact_mod_cast hu'.trans hlt
      -- the old distance shrinks with the ratio, the payment adds its own
      have hsplit : ((r - payment (share u u') r : ℤ) : ℚ) - c * u' =
          (((r - payment (share u u') r : ℤ) : ℚ) - r * (u' / u)) + (r - c * u) * (u' / u) := by
        field_simp
        ring
      have hold := abs_mul_ratio_le ((r : ℚ) - c * u) hu'.le hlt.le
      have hnext : |((r - payment (share u u') r : ℤ) : ℚ) - c * u'| ≤
          (1 + R * |share u u' - (u - u') / u|) + |(r : ℚ) - c * u| := by
        rw [hsplit]
        exact (abs_add_le _ _).trans (add_le_add hstep hold)
      rw [List.getLastD_cons, List.length_cons, stray]
      push_cast
      calc |(remainAfter share r u (u' :: us) : ℚ) - c * us.getLastD u'|
          ≤ |((r - payment (share u u') r : ℤ) : ℚ) - c * u'| + us.length +
              R * stray share u' us := hrec
        _ ≤ |(r : ℚ) - c * u| + (us.length + 1) +
              R * (|share u u' - (u - u') / u| + stray share u' us) := by linarith

theorem abs_remainAfter_sub_part_le (hc : Cuts u us) (hr : 0 ≤ r) (hR : r ≤ R) :
    |(remainAfter share r u us : ℚ) - r * (us.getLastD u / u)| ≤
      us.length + R * stray share u us := by
  have hu0 : (u : ℚ) ≠ 0 := by exact_mod_cast hc.pos.ne'
  have hline := abs_remainAfter_sub_le hshare hc hr hR (r / u)
  rw [div_mul_cancel₀ _ hu0, sub_self, abs_zero, zero_add, div_mul_eq_mul_div, mul_div_assoc] at hline
  exact hline

/-- A cut leaves the part of the distance less a unit for every payment but one, unless
every payment takes a single unit. -/
theorem le_remainAfter (hc : Cuts u us) (hr : 0 ≤ r) (hR : r ≤ R) :
    r - us.length ≤ remainAfter share r u us ∨
      (r * (us.getLastD u / u) - (us.length - 1) - R * stray share u us : ℚ) ≤
        remainAfter share r u us := by
  induction us generalizing r u with
  | nil => exact Or.inl (by simp [remainAfter])
  | cons u' us ih =>
      obtain ⟨hlt, hrest⟩ := hc
      have hu' := hrest.pos
      obtain ⟨hnonneg, hle⟩ := payment_bounds (share u u') hr
      have hr' := sub_nonneg.mpr hle
      have hR' := (sub_le_self r hnonneg).trans hR
      have hrec := ih hrest hr' hR'
      have hstep := le_rest share hr hR hu' hlt
      rw [List.getLastD_cons, List.length_cons, stray, remainAfter]
      generalize hrr : r - payment (share u u') r = r' at *
      have hlast0 := hrest.getLastD_pos
      have hlast1 := hrest.getLastD_le
      have hR0 : (0 : ℚ) ≤ R := by exact_mod_cast hr.trans hR
      have herror : (0 : ℚ) ≤ R * |share u u' - (u - u') / u| := mul_nonneg hR0 (abs_nonneg _)
      push_cast
      obtain hone | hshared := hstep
      · obtain hunits | hpart := hrec
        · left
          omega
        · right
          have hunit := mul_ratio_le_add_one hr' hone hlast0 hlast1 hlt
          linarith
      · right
        have hline := (abs_le.mp (abs_remainAfter_sub_part_le hshare hrest hr' hR')).1
        have hshared' := share_left_le herror hshared hlast0 hlast1
        linarith

/-- One payment against the payments of a cut over the same distance. -/
theorem abs_rest_sub_remainAfter_le (hc : Cuts u us) (hne : us ≠ []) (hr : 0 ≤ r) (hrR : r ≤ R)
    (hq : 0 ≤ q) (hqR : q ≤ R) :
    |((r - payment (share u (us.getLastD u)) r : ℤ) : ℚ) - remainAfter share q u us| ≤
      |(r : ℚ) - q| + us.length +
        R * (|share u (us.getLastD u) - (u - us.getLastD u) / u| + stray share u us) := by
  have hlast := hc.getLastD_pos
  have hlt := hc.getLastD_lt hne
  have hupper := rest_le hshare hr hrR hlast hlt
  have hlower := le_rest share hr hrR hlast hlt
  have hfine := le_remainAfter hshare hc hq hqR
  have hline := (abs_le.mp (abs_remainAfter_sub_part_le hshare hc hq hqR)).2
  have hshrunk := abs_le.mp (abs_mul_ratio_le ((r : ℚ) - q) hlast.le hlt.le)
  have habs := le_abs_self ((r : ℚ) - q)
  have habs' := neg_abs_le ((r : ℚ) - q)
  have hlength : (1 : ℚ) ≤ us.length := by
    exact_mod_cast List.length_pos_iff.mpr hne
  have hR0 : (0 : ℚ) ≤ R := by exact_mod_cast hr.trans hrR
  have herror := mul_nonneg hR0 (abs_nonneg (share u (us.getLastD u) - (u - us.getLastD u) / u))
  have hstray := mul_nonneg hR0 (stray_nonneg share u us)
  rw [abs_le, mul_add]
  constructor
  · obtain hone | hshared := hlower
    · -- the cut pays at least one unit where there is one
      have hunit : remainAfter share q u us ≤ max (q - 1) 0 := remainAfter_le_pred hq hne
      obtain hpos | hzero := le_total (q - 1) 0
      · rw [max_eq_right hpos] at hunit
        have hrest : (0 : ℚ) ≤ ((r - payment (share u (us.getLastD u)) r : ℤ) : ℚ) := by
          exact_mod_cast sub_nonneg.mpr (payment_bounds _ hr).2
        have hunit' : (remainAfter share q u us : ℚ) ≤ 0 := by exact_mod_cast hunit
        linarith [abs_nonneg ((r : ℚ) - q)]
      · rw [max_eq_left hzero] at hunit
        have hunit' : (remainAfter share q u us : ℚ) ≤ q - 1 := by exact_mod_cast hunit
        have hone' : (r - 1 : ℚ) ≤ ((r - payment (share u (us.getLastD u)) r : ℤ) : ℚ) := by
          exact_mod_cast hone
        linarith
    · linarith
  · obtain hunits | hpart := hfine
    · have hunits' : (q - us.length : ℚ) ≤ remainAfter share q u us := by exact_mod_cast hunits
      have hle : ((r - payment (share u (us.getLastD u)) r : ℤ) : ℚ) ≤ r := by
        exact_mod_cast sub_le_self r (payment_bounds _ hr).1
      linarith
    · linarith

/-- A finer cut of the same distance changes the rest by at most a unit a payment and the
strays of both cuts. -/
theorem abs_remainAfter_sub_refined_le (hc : Cuts u vs) (hsub : us.Sublist vs)
    (hlast : us.getLastD u = vs.getLastD u) (hr : 0 ≤ r) (hrR : r ≤ R) (hq : 0 ≤ q) (hqR : q ≤ R) :
    |(remainAfter share r u us : ℚ) - remainAfter share q u vs| ≤
      |(r : ℚ) - q| + vs.length + R * (stray share u us + stray share u vs) := by
  induction us generalizing r q u vs with
  | nil =>
      obtain rfl := hc.eq_nil hlast.symm
      simp [remainAfter, stray]
  | cons a us ih =>
      obtain ⟨front, back, rfl, ha, hback⟩ := List.cons_sublist_iff.mp hsub
      obtain ⟨pre, post, rfl⟩ := List.append_of_mem ha
      have hsplit : pre ++ a :: post ++ back = (pre ++ [a]) ++ (post ++ back) := by simp
      have hend : (pre ++ [a]).getLastD u = a := by simp
      rw [hsplit] at hc hlast ⊢
      obtain ⟨hpre, hpost⟩ := cuts_append hc
      have hfirst := abs_rest_sub_remainAfter_le hshare hpre (by simp) hr hrR hq hqR
      rw [hend] at hpost hfirst
      have hq' := remainAfter_bounds share u hq (pre ++ [a])
      have hr' := payment_bounds (share u a) hr
      have hrest := ih hpost (hback.trans (List.sublist_append_right post back)) ?_
        (sub_nonneg.mpr hr'.2) ((sub_le_self r hr'.1).trans hrR) hq'.1 (hq'.2.trans hqR)
      · rw [remainAfter_append, stray_append, hend, remainAfter, stray, List.length_append]
        push_cast at hfirst hrest ⊢
        linarith
      · rw [List.getLastD_cons, getLastD_append, hend] at hlast
        exact hlast

end Straight

end RoundedShares
