import Kiichain.FeeRounding

/-!
# Convergence of a clamped price

With one target block after block the price moves towards it, unless the step is
rounded away: the clamp bound of a small price is the price itself.
-/

namespace Kiichain.FeeAbstraction
open GoExec FixedPoint

/-- The price after some blocks with one target. -/
def clampBlocks (start target clampFactor : LegacyDec) : ℕ → Exec LegacyDec
  | 0 => pure start
  | n + 1 => do
    let price ← clampBlocks start target clampFactor n
    clampPrice price target clampFactor

/-- The next price is not farther from the target, on the same side of it. -/
def Toward (price target next : LegacyDec) : Prop :=
  price ≤ next ∧ next ≤ target ∨ target ≤ next ∧ next ≤ price

/-- Every block moves the price towards the target, and after some block it is there. -/
structure Converges (start target clampFactor : LegacyDec) : Prop where
  approaches : ∀ n price, clampBlocks start target clampFactor n = .ok price →
    ∃ next, clampPrice price target clampFactor = .ok next ∧ Toward price target next
  reaches : ∃ n, clampBlocks start target clampFactor n = .ok target

/-- A step of at most half a unit, and of less where the price is odd. -/
def Stalls (price clampFactor : LegacyDec) : Prop :=
  2 * (price.raw * clampFactor.raw) < legacyFormat.scale ∨
    2 * (price.raw * clampFactor.raw) = legacyFormat.scale ∧ Even price.raw

instance (price clampFactor : LegacyDec) : Decidable (Stalls price clampFactor) :=
  inferInstanceAs (Decidable (_ ∨ _))

/-- The upper bounds fit, and the price moves where it starts, on its way up, or just
above the target, on its way down. -/
structure Moves (start target clampFactor : LegacyDec) : Prop where
  start_fits : Decimal.Fits legacyFormat (upperBound start clampFactor).raw
  target_fits : Decimal.Fits legacyFormat (upperBound target clampFactor).raw
  up : start < target → ¬ Stalls start clampFactor
  down : target < start → ¬ Stalls ⟨target.raw + 1⟩ clampFactor

section Bounds

variable {price price' target clampFactor : LegacyDec}

theorem upperBound_le_iff (hprice : 0 ≤ price.raw) (hclamp : 0 ≤ clampFactor.raw) :
    upperBound price clampFactor ≤ price ↔ Stalls price clampFactor := by
  have hnonneg : 0 ≤ price.raw * (legacyFormat.scale + clampFactor.raw) :=
    mul_nonneg hprice (add_nonneg (Int.natCast_nonneg _) hclamp)
  have hadd : 2 * (price.raw * (legacyFormat.scale + clampFactor.raw)) =
      2 * (legacyFormat.scale * price.raw) + 2 * (price.raw * clampFactor.raw) := by ring
  have hhalf : (legacyFormat.scale : ℤ) * (2 * price.raw + 1) =
      2 * (legacyFormat.scale * price.raw) + legacyFormat.scale := by ring
  rw [Decimal.le_iff, upperBound, chop_le_iff legacyFormat.scale_pos hnonneg hprice, hadd, hhalf,
    Stalls]
  generalize price.raw * clampFactor.raw = step
  generalize (legacyFormat.scale : ℤ) * price.raw = whole
  apply or_congr
  · omega
  · exact and_congr_left' (by omega)

theorem le_lowerBound_iff (hprice : 0 < price.raw) (hclamp : clampFactor.raw ≤ legacyFormat.scale) :
    price ≤ lowerBound price clampFactor ↔ Stalls price clampFactor := by
  have hnonneg : 0 ≤ price.raw * (legacyFormat.scale - clampFactor.raw) :=
    mul_nonneg hprice.le (sub_nonneg.mpr hclamp)
  have hbelow := chop_le_iff legacyFormat.scale_pos hnonneg (by omega : 0 ≤ price.raw - 1)
  have hsub : 2 * (price.raw * (legacyFormat.scale - clampFactor.raw)) =
      2 * (legacyFormat.scale * price.raw) - 2 * (price.raw * clampFactor.raw) := by ring
  have hhalf : (legacyFormat.scale : ℤ) * (2 * (price.raw - 1) + 1) =
      2 * (legacyFormat.scale * price.raw) - legacyFormat.scale := by ring
  rw [hsub, hhalf, Int.even_sub_one] at hbelow
  rw [Decimal.le_iff, lowerBound, Stalls, ← not_iff_not, not_le, ← Int.le_sub_one_iff, hbelow]
  generalize price.raw * clampFactor.raw = step
  generalize (legacyFormat.scale : ℤ) * price.raw = whole
  constructor
  · rintro (h | ⟨h, hodd⟩) (h' | ⟨h', heven⟩)
    · omega
    · omega
    · omega
    · exact hodd heven
  · intro h
    obtain ⟨hge, htie⟩ := not_or.mp h
    rcases lt_or_eq_of_le (not_lt.mp hge) with hlt | heq
    · exact Or.inl (by omega)
    · exact Or.inr ⟨by omega, fun heven => htie ⟨heq.symm, heven⟩⟩

/-- Below a price that stalls every price does. -/
theorem Stalls.of_le (hclamp : 0 < clampFactor.raw) (hle : price ≤ price')
    (h : Stalls price' clampFactor) : Stalls price clampFactor := by
  rcases hle.lt_or_eq with hlt | rfl
  · have hmul := mul_lt_mul_of_pos_right (Decimal.lt_iff.mp hlt) hclamp
    rcases h with h | ⟨h, _⟩
    · exact Or.inl (by omega)
    · exact Or.inl (by omega)
  · exact h

theorem le_upperBound (hprice : 0 ≤ price.raw) (hclamp : 0 ≤ clampFactor.raw) :
    price ≤ upperBound price clampFactor := by
  have hle : legacyFormat.scale * price.raw ≤ price.raw * (legacyFormat.scale + clampFactor.raw) := by
    rw [mul_comm]
    exact mul_le_mul_of_nonneg_left (le_add_of_nonneg_right hclamp) hprice
  have hchop := chop_mono legacyFormat.scale_pos hle
  rwa [chop_mul_self legacyFormat.scale_pos] at hchop

theorem lowerBound_le (hprice : 0 ≤ price.raw) (hclamp : 0 ≤ clampFactor.raw) :
    lowerBound price clampFactor ≤ price := by
  have hle : price.raw * (legacyFormat.scale - clampFactor.raw) ≤ legacyFormat.scale * price.raw := by
    rw [mul_comm (legacyFormat.scale : ℤ)]
    exact mul_le_mul_of_nonneg_left (sub_le_self _ hclamp) hprice
  have hchop := chop_mono legacyFormat.scale_pos hle
  rwa [chop_mul_self legacyFormat.scale_pos] at hchop

theorem lowerBound_mono (hclamp : clampFactor.raw ≤ legacyFormat.scale) (h : price ≤ price') :
    lowerBound price clampFactor ≤ lowerBound price' clampFactor :=
  chop_mono legacyFormat.scale_pos (mul_le_mul_of_nonneg_right h (sub_nonneg.mpr hclamp))

theorem upperBound_mono (hclamp : 0 ≤ clampFactor.raw) (h : price ≤ price') :
    upperBound price clampFactor ≤ upperBound price' clampFactor :=
  chop_mono legacyFormat.scale_pos
    (mul_le_mul_of_nonneg_right h (add_nonneg (Int.natCast_nonneg _) hclamp))

end Bounds

section Step

variable {price price' target clampFactor : LegacyDec} (hprice : 0 < price.raw)
  (hclamp0 : 0 < clampFactor.raw)
include hprice hclamp0

theorem clampPrice_eq_ok_iff_fits (hclamp1 : clampFactor.raw ≤ legacyFormat.scale) {next : LegacyDec} :
    clampPrice price target clampFactor = .ok next ↔
      Decimal.Fits legacyFormat (upperBound price clampFactor).raw ∧
        next = clamped price target clampFactor := by
  rw [clampPrice_eq_ok hclamp0.le hclamp1, ClampFits]
  apply and_congr_left'
  exact ⟨fun h => h hprice.ne' hclamp0.ne', fun h _ _ => h⟩

theorem clamped_of_le (h : price ≤ target) :
    clamped price target clampFactor = min (upperBound price clampFactor) target := by
  have hlower : ¬ target < lowerBound price clampFactor :=
    not_lt.mpr ((lowerBound_le hprice.le hclamp0.le).trans h)
  rw [clamped, if_neg (not_or.mpr ⟨hprice.ne', hclamp0.ne'⟩), if_neg hlower]
  split_ifs with habove
  · exact (min_eq_left habove.le).symm
  · exact (min_eq_right (not_lt.mp habove)).symm

theorem clamped_of_ge (h : target ≤ price) :
    clamped price target clampFactor = max (lowerBound price clampFactor) target := by
  have hupper : ¬ upperBound price clampFactor < target :=
    not_lt.mpr (h.trans (le_upperBound hprice.le hclamp0.le))
  rw [clamped, if_neg (not_or.mpr ⟨hprice.ne', hclamp0.ne'⟩), if_neg hupper]
  split_ifs with hbelow
  · exact (max_eq_left hbelow.le).symm
  · exact (max_eq_right (not_lt.mp hbelow)).symm

theorem toward_clamped : Toward price target (clamped price target clampFactor) := by
  rcases le_total price target with h | h
  · rw [clamped_of_le hprice hclamp0 h]
    exact Or.inl ⟨le_min (le_upperBound hprice.le hclamp0.le) h, min_le_right _ _⟩
  · rw [clamped_of_ge hprice hclamp0 h]
    exact Or.inr ⟨le_max_right _ _, max_le (lowerBound_le hprice.le hclamp0.le) h⟩

/-- On its way up a price stays exactly where it stalls. -/
theorem clamped_le_self_iff (h : price < target) :
    clamped price target clampFactor ≤ price ↔ Stalls price clampFactor := by
  rw [clamped_of_le hprice hclamp0 h.le, min_le_iff, or_iff_left (not_le.mpr h)]
  exact upperBound_le_iff hprice.le hclamp0.le

theorem self_le_clamped_iff (hclamp1 : clampFactor.raw ≤ legacyFormat.scale) (h : target < price) :
    price ≤ clamped price target clampFactor ↔ Stalls price clampFactor := by
  rw [clamped_of_ge hprice hclamp0 h.le, le_max_iff, or_iff_left (not_le.mpr h)]
  exact le_lowerBound_iff hprice hclamp1

/-- A price that has come down to a stalled one or above it does not get below it. -/
theorem le_clamped_of_stalls (hclamp1 : clampFactor.raw ≤ legacyFormat.scale) {floor : LegacyDec}
    (hfloor : 0 < floor.raw) (hstalls : Stalls floor clampFactor) (hle : floor ≤ price)
    (htarget : target < floor) : floor ≤ clamped price target clampFactor := by
  rw [clamped_of_ge hprice hclamp0 (htarget.le.trans hle)]
  apply le_max_of_le_left
  exact ((le_lowerBound_iff hfloor hclamp1).mpr hstalls).trans (lowerBound_mono hclamp1 hle)

end Step

section Blocks

variable {start target clampFactor price : LegacyDec}

theorem clampBlocks_succ_eq_ok {n : ℕ} {next : LegacyDec} :
    clampBlocks start target clampFactor (n + 1) = .ok next ↔
      ∃ price, clampBlocks start target clampFactor n = .ok price ∧
        clampPrice price target clampFactor = .ok next := bind_eq_ok

variable (hstart : 0 < start.raw) (htarget : 0 < target.raw) (hclamp0 : 0 < clampFactor.raw)
  (hclamp1 : clampFactor.raw ≤ legacyFormat.scale)
include hstart htarget hclamp0 hclamp1

/-- Every price of the blocks lies between the start and the target. -/
theorem between_of_clampBlocks {n : ℕ} (h : clampBlocks start target clampFactor n = .ok price) :
    min start target ≤ price ∧ price ≤ max start target := by
  induction n generalizing price with
  | zero =>
      cases h
      exact ⟨min_le_left _ _, le_max_left _ _⟩
  | succ n ih =>
      obtain ⟨last, hlast, hnext⟩ := clampBlocks_succ_eq_ok.mp h
      obtain ⟨hmin, hmax⟩ := ih hlast
      have hpos : 0 < last.raw := (lt_min (a := (0 : LegacyDec)) hstart htarget).trans_le hmin
      obtain ⟨_, rfl⟩ := (clampPrice_eq_ok_iff_fits hpos hclamp0 hclamp1).mp hnext
      rcases toward_clamped hpos hclamp0 with ⟨hle, hge⟩ | ⟨hge, hle⟩
      · exact ⟨hmin.trans hle, hge.trans (le_max_right _ _)⟩
      · exact ⟨(min_le_right _ _).trans hge, hle.trans hmax⟩

theorem clampBlocks_pos {n : ℕ} (h : clampBlocks start target clampFactor n = .ok price) :
    0 < price.raw := by
  have hmin := (between_of_clampBlocks hstart htarget hclamp0 hclamp1 h).1
  exact (lt_min (a := (0 : LegacyDec)) hstart htarget).trans_le hmin

/-- A price that stalls below its target is there for ever. -/
theorem clampBlocks_le_start (hlt : start < target) (hstalls : Stalls start clampFactor) {n : ℕ}
    (h : clampBlocks start target clampFactor n = .ok price) : price ≤ start := by
  induction n generalizing price with
  | zero =>
      cases h
      exact le_rfl
  | succ n ih =>
      obtain ⟨last, hlast, hnext⟩ := clampBlocks_succ_eq_ok.mp h
      have hmin := (between_of_clampBlocks hstart htarget hclamp0 hclamp1 hlast).1
      rw [min_eq_left hlt.le] at hmin
      obtain rfl := le_antisymm (ih hlast) hmin
      obtain ⟨_, rfl⟩ := (clampPrice_eq_ok_iff_fits hstart hclamp0 hclamp1).mp hnext
      exact (clamped_le_self_iff hstart hclamp0 hlt).mpr hstalls

theorem le_clampBlocks (hlt : target < start) (hstalls : Stalls ⟨target.raw + 1⟩ clampFactor) {n : ℕ}
    (h : clampBlocks start target clampFactor n = .ok price) : (⟨target.raw + 1⟩ : LegacyDec) ≤ price := by
  induction n generalizing price with
  | zero =>
      cases h
      exact Int.add_one_le_iff.mpr hlt
  | succ n ih =>
      obtain ⟨last, hlast, hnext⟩ := clampBlocks_succ_eq_ok.mp h
      have hpos := clampBlocks_pos hstart htarget hclamp0 hclamp1 hlast
      obtain ⟨_, rfl⟩ := (clampPrice_eq_ok_iff_fits hpos hclamp0 hclamp1).mp hnext
      exact le_clamped_of_stalls hpos hclamp0 hclamp1 (by simp only; omega) hstalls (ih hlast)
        (Int.lt_succ target.raw)

theorem moves_of_converges (h : Converges start target clampFactor) :
    Moves start target clampFactor := by
  obtain ⟨n, hn⟩ := h.reaches
  obtain ⟨next, hnext, _⟩ := h.approaches 0 start rfl
  obtain ⟨next', hnext', _⟩ := h.approaches n target hn
  refine ⟨((clampPrice_eq_ok_iff_fits hstart hclamp0 hclamp1).mp hnext).1,
    ((clampPrice_eq_ok_iff_fits htarget hclamp0 hclamp1).mp hnext').1,
    fun hlt hstalls => ?_, fun hlt hstalls => ?_⟩
  · exact absurd (clampBlocks_le_start hstart htarget hclamp0 hclamp1 hlt hstalls hn) (not_le.mpr hlt)
  · exact absurd (le_clampBlocks hstart htarget hclamp0 hclamp1 hlt hstalls hn)
      (not_le.mpr (Int.lt_succ target.raw))

theorem upperBound_fits (h : Moves start target clampFactor) {n : ℕ}
    (hprice : clampBlocks start target clampFactor n = .ok price) :
    Decimal.Fits legacyFormat (upperBound price clampFactor).raw := by
  have hpos := clampBlocks_pos hstart htarget hclamp0 hclamp1 hprice
  have hmax := (between_of_clampBlocks hstart htarget hclamp0 hclamp1 hprice).2
  have hnonneg : 0 ≤ (upperBound price clampFactor).raw :=
    hpos.le.trans (le_upperBound hpos.le hclamp0.le)
  rcases le_max_iff.mp hmax with hle | hle
  · exact h.start_fits.of_le hnonneg (upperBound_mono hclamp0.le hle)
  · exact h.target_fits.of_le hnonneg (upperBound_mono hclamp0.le hle)

/-- A price short of its target has not stalled. -/
theorem not_stalls_of_moves (h : Moves start target clampFactor) {n : ℕ}
    (hprice : clampBlocks start target clampFactor n = .ok price) (hne : price ≠ target) :
    ¬ Stalls price clampFactor := by
  obtain ⟨hmin, hmax⟩ := between_of_clampBlocks hstart htarget hclamp0 hclamp1 hprice
  rcases lt_or_gt_of_ne hne with hlt | hgt
  · have hle : start ≤ price := (min_le_iff.mp hmin).resolve_right (not_le.mpr hlt)
    exact fun hstalls => h.up (hle.trans_lt hlt) (hstalls.of_le hclamp0 hle)
  · have hle : price ≤ start := (le_max_iff.mp hmax).resolve_right (not_le.mpr hgt)
    have habove : (⟨target.raw + 1⟩ : LegacyDec) ≤ price := Int.add_one_le_iff.mpr hgt
    exact fun hstalls => h.down (hgt.trans_le hle) (hstalls.of_le hclamp0 habove)

theorem closer_of_moves (h : Moves start target clampFactor) {n : ℕ}
    (hprice : clampBlocks start target clampFactor n = .ok price) (hne : price ≠ target) :
    ((clamped price target clampFactor).raw - target.raw).natAbs < (price.raw - target.raw).natAbs := by
  have hpos := clampBlocks_pos hstart htarget hclamp0 hclamp1 hprice
  have hmoves := not_stalls_of_moves hstart htarget hclamp0 hclamp1 h hprice hne
  have htoward : Toward price target (clamped price target clampFactor) :=
    toward_clamped hpos hclamp0
  simp only [Toward, Decimal.le_iff] at htoward
  rcases lt_or_gt_of_ne hne with hlt | hgt
  · have hup := mt (clamped_le_self_iff hpos hclamp0 hlt).mp hmoves
    rw [Decimal.le_iff] at hup
    rw [Decimal.lt_iff] at hlt
    omega
  · have hdown := mt (self_le_clamped_iff hpos hclamp0 hclamp1 hgt).mp hmoves
    rw [Decimal.le_iff] at hdown
    rw [Decimal.lt_iff] at hgt
    omega

theorem converges_of_moves (h : Moves start target clampFactor) :
    Converges start target clampFactor := by
  have hnext : ∀ n price, clampBlocks start target clampFactor n = .ok price →
      clampPrice price target clampFactor = .ok (clamped price target clampFactor) := by
    intro n price hprice
    have hpos := clampBlocks_pos hstart htarget hclamp0 hclamp1 hprice
    exact (clampPrice_eq_ok_iff_fits hpos hclamp0 hclamp1).mpr
      ⟨upperBound_fits hstart htarget hclamp0 hclamp1 h hprice, rfl⟩
  constructor
  · intro n price hprice
    have hpos := clampBlocks_pos hstart htarget hclamp0 hclamp1 hprice
    exact ⟨_, hnext n price hprice, toward_clamped hpos hclamp0⟩
  · obtain ⟨n, price, hprice, rfl⟩ := Runs.exists_reached (G := fun price => price = target)
      (fun price => (price.raw - target.raw).natAbs) (returns_ok start) fun n price hprice hne =>
        ⟨_, clampBlocks_succ_eq_ok.mpr ⟨price, hprice, hnext n price hprice⟩,
          closer_of_moves hstart htarget hclamp0 hclamp1 h hprice hne⟩
    exact ⟨n, hprice⟩

end Blocks

/-- The price converges exactly where the bounds fit and no step on its way is
rounded away. -/
theorem converges_iff_moves (start target clampFactor : LegacyDec) (hstart : 0 < start.raw)
    (htarget : 0 < target.raw) (hclamp0 : 0 < clampFactor.raw)
    (hclamp1 : clampFactor.raw ≤ legacyFormat.scale) :
    Converges start target clampFactor ↔ Moves start target clampFactor :=
  ⟨moves_of_converges hstart htarget hclamp0 hclamp1,
    converges_of_moves hstart htarget hclamp0 hclamp1⟩

namespace StuckPrice

/-- A tenth, as in the default parameters. -/
def clampFactor : LegacyDec := defaultParams.clampFactor

/-- Four units of the eighteenth digit: a tenth of them is rounded away. -/
def start : LegacyDec := ⟨4⟩

def target : LegacyDec := ⟨1000000⟩

/-- The price never leaves its start. -/
theorem price_stuck : 0 < start.raw ∧ 0 < target.raw ∧ 0 < clampFactor.raw ∧
    clampFactor.raw ≤ legacyFormat.scale ∧ ¬ Converges start target clampFactor := by
  refine ⟨by decide, by decide, by decide, by decide, fun h => ?_⟩
  obtain ⟨n, hn⟩ := h.reaches
  exact absurd (clampBlocks_le_start (by decide) (by decide) (by decide) (by decide) (by decide)
    (by decide) hn) (by decide)

/-- One unit more, and the tie is rounded up to the even neighbour. -/
theorem price_arrives : 0 < (⟨5⟩ : LegacyDec).raw ∧ 0 < target.raw ∧ 0 < clampFactor.raw ∧
    clampFactor.raw ≤ legacyFormat.scale ∧ Converges ⟨5⟩ target clampFactor := by
  refine ⟨by decide, by decide, by decide, by decide, ?_⟩
  apply (converges_iff_moves ⟨5⟩ target clampFactor (by decide) (by decide) (by decide)
    (by decide)).mpr
  exact ⟨by decide, by decide, by decide, by decide⟩

end StuckPrice

end Kiichain.FeeAbstraction
