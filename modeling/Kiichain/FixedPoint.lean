import Kiichain.GoExec

/-!
# Signed fixed-point decimals of bounded size

A decimal is an integer count of units of `1 / scale`. Products and quotients
are rounded half to even on the magnitude. An operation panics when its raw
result needs more than `bits` bits, or when it divides by zero.
-/

namespace FixedPoint
open GoExec

structure Format where
  scale : ℕ
  bits : ℕ
  scale_pos : 0 < scale

/-- `n / s` rounded to the nearest natural number, ties to the even one. -/
def halfEven (s n : ℕ) : ℕ :=
  if 2 * (n % s) < s then n / s
  else if s < 2 * (n % s) then n / s + 1
  else if (n / s) % 2 = 0 then n / s
  else n / s + 1

def chop (s : ℕ) (z : ℤ) : ℤ :=
  if z < 0 then -(halfEven s z.natAbs : ℤ) else halfEven s z.natAbs

theorem halfEven_cases (s n : ℕ) :
    (halfEven s n = n / s ∧ 2 * (n % s) ≤ s) ∨
      (halfEven s n = n / s + 1 ∧ s ≤ 2 * (n % s)) := by
  unfold halfEven
  split_ifs with h1 h2 h3
  · exact Or.inl ⟨rfl, h1.le⟩
  · exact Or.inr ⟨rfl, h2.le⟩
  · exact Or.inl ⟨rfl, by omega⟩
  · exact Or.inr ⟨rfl, by omega⟩

/-- Rounding moves a value by at most half a unit. -/
theorem halfEven_bounds {s : ℕ} (hs : 0 < s) (n : ℕ) :
    2 * (s * halfEven s n) ≤ 2 * n + s ∧ 2 * n ≤ 2 * (s * halfEven s n) + s := by
  have hdiv := Nat.div_add_mod n s
  rcases halfEven_cases s n with ⟨he, hr⟩ | ⟨he, hr⟩
  · rw [he]
    omega
  · rw [he, Nat.mul_add, Nat.mul_one]
    have hlt := Nat.mod_lt n hs
    omega

theorem halfEven_mono {s m n : ℕ} (hs : 0 < s) (h : m ≤ n) : halfEven s m ≤ halfEven s n := by
  have hm := Nat.mod_lt m hs
  have hn := Nat.mod_lt n hs
  have hdm := Nat.div_add_mod m s
  have hdn := Nat.div_add_mod n s
  have hle : m / s ≤ n / s := Nat.div_le_div_right h
  rcases Nat.lt_or_eq_of_le hle with hlt | heq
  · rcases halfEven_cases s m with ⟨he, _⟩ | ⟨he, _⟩ <;>
      rcases halfEven_cases s n with ⟨he', _⟩ | ⟨he', _⟩ <;> omega
  · rw [heq] at hdm
    have hr : m % s ≤ n % s := by omega
    unfold halfEven
    rw [heq]
    split_ifs <;> omega

@[simp] theorem halfEven_zero (s : ℕ) : halfEven s 0 = 0 := by
  rcases halfEven_cases s 0 with ⟨h, _⟩ | ⟨h, hs⟩
  · simpa using h
  · have : s = 0 := by simpa using hs
    subst this
    rfl

theorem halfEven_mul_self {s : ℕ} (hs : 0 < s) (n : ℕ) : halfEven s (s * n) = n := by
  have := halfEven_bounds hs (s * n)
  have h1 : halfEven s (s * n) ≤ n := by
    by_contra! hc
    have : s * (n + 1) ≤ s * halfEven s (s * n) := Nat.mul_le_mul_left s hc
    rw [Nat.mul_add, Nat.mul_one] at this
    omega
  have h2 : n ≤ halfEven s (s * n) := by
    by_contra! hc
    have : s * (halfEven s (s * n) + 1) ≤ s * n := Nat.mul_le_mul_left s hc
    rw [Nat.mul_add, Nat.mul_one] at this
    omega
  exact Nat.le_antisymm h1 h2

theorem chop_of_nonneg (s : ℕ) {z : ℤ} (h : 0 ≤ z) : chop s z = halfEven s z.natAbs :=
  if_neg (not_lt.mpr h)

theorem chop_nonneg (s : ℕ) {z : ℤ} (h : 0 ≤ z) : 0 ≤ chop s z := by
  rw [chop_of_nonneg s h]
  exact Int.natCast_nonneg _

@[simp] theorem chop_zero (s : ℕ) : chop s 0 = 0 := by simp [chop]

theorem chop_nonpos (s : ℕ) {z : ℤ} (h : z ≤ 0) : chop s z ≤ 0 := by
  obtain hz | rfl := h.lt_or_eq
  · rw [chop, if_pos hz]
    omega
  · rw [chop_zero]

theorem natAbs_chop (s : ℕ) (z : ℤ) : (chop s z).natAbs = halfEven s z.natAbs := by
  unfold chop
  split_ifs <;> simp

theorem halfEven_le_self {s : ℕ} (hs : 0 < s) (n : ℕ) : halfEven s n ≤ n := by
  rcases Nat.eq_zero_or_pos n with rfl | hn
  · simp
  · have hb := (halfEven_bounds hs n).1
    by_contra! hc
    have hmul : s * (n + 1) ≤ s * halfEven s n := Nat.mul_le_mul_left s hc
    have hsn : n ≤ s * n := Nat.le_mul_of_pos_left n hs
    rw [Nat.mul_add, Nat.mul_one] at hmul
    omega

theorem chop_mul_self {s : ℕ} (hs : 0 < s) (z : ℤ) : chop s (s * z) = z := by
  have habs : ((s : ℤ) * z).natAbs = s * z.natAbs := by rw [Int.natAbs_mul, Int.natAbs_natCast]
  have hsign : (s : ℤ) * z < 0 ↔ z < 0 := by
    rw [mul_neg_iff]
    omega
  unfold chop
  rw [habs, halfEven_mul_self hs]
  by_cases hz : z < 0
  · rw [if_pos (hsign.mpr hz)]
    omega
  · rw [if_neg (mt hsign.mp hz)]
    omega

theorem chop_mono_of_nonneg {s : ℕ} (hs : 0 < s) {y z : ℤ} (hy : 0 ≤ y) (h : y ≤ z) :
    chop s y ≤ chop s z := by
  rw [chop_of_nonneg s hy, chop_of_nonneg s (hy.trans h)]
  exact_mod_cast halfEven_mono hs (by omega)

/-- A rounded value is at most `m` where the exact one is below `m` and a half, or
just there with `m` even. -/
theorem halfEven_le_iff {s : ℕ} (hs : 0 < s) (n m : ℕ) :
    halfEven s n ≤ m ↔ 2 * n < s * (2 * m + 1) ∨ 2 * n = s * (2 * m + 1) ∧ Even m := by
  have hdiv := Nat.div_add_mod n s
  have hmod := Nat.mod_lt n hs
  have hodd : s * (2 * m + 1) = 2 * (s * m) + s := by ring
  rw [hodd]
  rcases lt_trichotomy (n / s) m with hlt | heq | hgt
  · have hle : s * (n / s + 1) ≤ s * m := Nat.mul_le_mul_left s hlt
    rw [Nat.mul_add, Nat.mul_one] at hle
    have hrounded : halfEven s n ≤ m := by
      rcases halfEven_cases s n with ⟨he, _⟩ | ⟨he, _⟩ <;> omega
    exact iff_of_true hrounded (Or.inl (by omega))
  · subst heq
    rw [Nat.even_iff]
    unfold halfEven
    split_ifs <;> omega
  · have hle : s * (m + 1) ≤ s * (n / s) := Nat.mul_le_mul_left s hgt
    rw [Nat.mul_add, Nat.mul_one] at hle
    have hrounded : ¬ halfEven s n ≤ m := by
      rcases halfEven_cases s n with ⟨he, _⟩ | ⟨he, _⟩ <;> omega
    exact iff_of_false hrounded (by omega)

theorem chop_le_iff {s : ℕ} (hs : 0 < s) {z m : ℤ} (hz : 0 ≤ z) (hm : 0 ≤ m) :
    chop s z ≤ m ↔ 2 * z < s * (2 * m + 1) ∨ 2 * z = s * (2 * m + 1) ∧ Even m := by
  obtain ⟨n, rfl⟩ := Int.eq_ofNat_of_zero_le hz
  obtain ⟨k, rfl⟩ := Int.eq_ofNat_of_zero_le hm
  rw [chop_of_nonneg s hz, Int.natAbs_natCast, Nat.cast_le, halfEven_le_iff hs, Int.even_coe_nat]
  norm_cast

@[simp] theorem chop_neg (s : ℕ) (z : ℤ) : chop s (-z) = -chop s z := by
  unfold chop
  rw [Int.natAbs_neg]
  rcases lt_trichotomy z 0 with hz | rfl | hz
  · rw [if_neg (by omega), if_pos hz, neg_neg]
  · simp
  · rw [if_pos (by omega), if_neg (by omega)]

theorem chop_mono {s : ℕ} (hs : 0 < s) {y z : ℤ} (h : y ≤ z) : chop s y ≤ chop s z := by
  rcases le_or_gt 0 y with hy | hy
  · exact chop_mono_of_nonneg hs hy h
  · rcases le_or_gt 0 z with hz | hz
    · exact (chop_nonpos s hy.le).trans (chop_nonneg s hz)
    · have hneg := chop_mono_of_nonneg hs (neg_nonneg.mpr hz.le) (neg_le_neg h)
      rw [chop_neg, chop_neg] at hneg
      exact neg_le_neg_iff.mp hneg

/-- Rounding moves a value of either sign by at most half a unit. -/
theorem abs_mul_chop_sub_le {s : ℕ} (hs : 0 < s) (z : ℤ) : 2 * |s * chop s z - z| ≤ s := by
  have hnonneg : ∀ y : ℤ, 0 ≤ y → 2 * |s * chop s y - y| ≤ s := by
    intro y hy
    have hbounds := halfEven_bounds hs y.natAbs
    rw [chop_of_nonneg s hy]
    have habs : |(s : ℤ) * halfEven s y.natAbs - y| * 2 ≤ s := by
      rw [← Int.natAbs_of_nonneg hy, Int.natAbs_natCast]
      have hle := hbounds.1
      have hge := hbounds.2
      zify at hle hge ⊢
      rcases abs_cases ((s : ℤ) * halfEven s y.natAbs - |y|) with ⟨h, _⟩ | ⟨h, _⟩ <;>
        rw [h] <;> linarith
    linarith
  rcases le_total 0 z with hz | hz
  · exact hnonneg z hz
  · have hneg := hnonneg (-z) (neg_nonneg.mpr hz)
    rw [chop_neg, show (s : ℤ) * -chop s z - -z = -(s * chop s z - z) by ring, abs_neg] at hneg
    exact hneg

/-- Rounding, scaling by at most the scale and rounding again moves a value by at
most one unit. -/
theorem abs_chop_chop_le {s u : ℕ} (hs : 0 < s) (hu : u ≤ s) (z : ℤ) :
    |s * s * chop s (chop s z * u) - z * u| ≤ s * s := by
  have hfirst := abs_mul_chop_sub_le hs z
  have hlast := abs_mul_chop_sub_le hs (chop s z * u)
  have hsplit : (s : ℤ) * s * chop s (chop s z * u) - z * u =
      s * (s * chop s (chop s z * u) - chop s z * u) + u * (s * chop s z - z) := by ring
  have hs' : (0 : ℤ) ≤ s := Int.natCast_nonneg s
  have hu' : (0 : ℤ) ≤ u := Int.natCast_nonneg u
  have hscaled := mul_le_mul_of_nonneg_left hlast hs'
  have hmagnified := mul_le_mul_of_nonneg_left hfirst hu'
  have hus : (u : ℤ) * s ≤ s * s := by exact_mod_cast Nat.mul_le_mul_right s hu
  calc |(s : ℤ) * s * chop s (chop s z * u) - z * u|
      ≤ |(s : ℤ) * (s * chop s (chop s z * u) - chop s z * u)| + |(u : ℤ) * (s * chop s z - z)| := by
        rw [hsplit]
        exact abs_add_le _ _
    _ = s * |s * chop s (chop s z * u) - chop s z * u| + u * |s * chop s z - z| := by
        rw [abs_mul, abs_mul, abs_of_nonneg hs', abs_of_nonneg hu']
    _ ≤ s * s := by linarith

/-- A rounded quotient of whole numbers is within half a unit of the exact one. -/
theorem abs_chop_tdiv_le {s : ℕ} (hs : 0 < s) {m n : ℤ} (hm : 0 ≤ m) (hn : 0 < n)
    (hsmall : 2 * n ≤ s) :
    |2 * (n * chop s ((m * (s * s)).tdiv n)) - 2 * (m * s)| ≤ n := by
  have hs' : (0 : ℤ) < s := by exact_mod_cast hs
  have hnonneg : 0 ≤ m * (s * s) := by positivity
  rw [Int.tdiv_eq_ediv_of_nonneg hnonneg]
  have hquo : 0 ≤ m * (s * s) / n := Int.ediv_nonneg hnonneg hn.le
  obtain ⟨hupper, hlower⟩ := halfEven_bounds hs (m * (s * s) / n).natAbs
  rw [chop_of_nonneg s hquo]
  generalize halfEven s (m * (s * s) / n).natAbs = c at *
  have hupper' : 2 * ((s : ℤ) * c) ≤ 2 * (m * (s * s) / n) + s := by
    rw [← Int.natAbs_of_nonneg hquo]
    exact_mod_cast hupper
  have hlower' : 2 * (m * (s * s) / n) ≤ 2 * ((s : ℤ) * c) + s := by
    rw [← Int.natAbs_of_nonneg hquo]
    exact_mod_cast hlower
  have hdown : n * (m * (s * s) / n) ≤ m * (s * s) := Int.mul_ediv_self_le hn.ne'
  have hup : m * (s * s) < n * (m * (s * s) / n) + n := Int.lt_mul_ediv_self_add hn
  have hu := mul_le_mul_of_nonneg_left hupper' hn.le
  have hl := mul_le_mul_of_nonneg_left hlower' hn.le
  rw [abs_le]
  constructor
  · -- a whole multiple of the scale that is below the scale is not positive
    have hlt : (s : ℤ) * (2 * (m * s) - 2 * (n * c) - n) < s * 1 := by
      linarith
    have := lt_of_mul_lt_mul_left hlt hs'.le
    omega
  · have hle : (s : ℤ) * (2 * (n * c) - 2 * (m * s)) ≤ s * n := by
      linarith
    exact le_of_mul_le_mul_left hle hs'

/-- Half a unit rounds to the even zero, anything above it does not. -/
theorem halfEven_pos_iff {s : ℕ} (hs : 0 < s) (n : ℕ) : 0 < halfEven s n ↔ s < 2 * n := by
  have hb := halfEven_bounds hs n
  constructor
  · intro h
    by_contra! hle
    obtain ⟨he, _⟩ | ⟨he, _⟩ := halfEven_cases s n
    · have hn : n < s := by omega
      rw [he, Nat.div_eq_of_lt hn] at h
      omega
    · have hn : n < s := by omega
      have hdiv : n / s = 0 := Nat.div_eq_of_lt hn
      have hmod : n % s = n := Nat.mod_eq_of_lt hn
      unfold halfEven at h
      rw [hdiv, hmod, if_neg (by omega : ¬ s < 2 * n), if_pos (by omega : 0 % 2 = 0)] at h
      split_ifs at h <;> omega
  · intro h
    by_contra! hle
    have hzero : halfEven s n = 0 := by omega
    rw [hzero] at hb
    omega

theorem chop_pos_iff {s : ℕ} (hs : 0 < s) {z : ℤ} (hz : 0 ≤ z) : 0 < chop s z ↔ (s : ℤ) < 2 * z := by
  have hpos := halfEven_pos_iff hs z.natAbs
  rw [chop_of_nonneg s hz]
  omega

/-- An integer of at most `w` bits of magnitude. -/
structure BoundedInt (w : ℕ) where
  val : ℤ
  fits : val.natAbs < 2 ^ w
deriving DecidableEq

namespace BoundedInt

variable {w : ℕ}

def checked (z : ℤ) : Exec (BoundedInt w) :=
  if h : z.natAbs < 2 ^ w then .ok ⟨z, h⟩ else panics "Int overflow"

instance : Zero (BoundedInt w) := ⟨⟨0, by simp⟩⟩

instance : Inhabited (BoundedInt w) := ⟨0⟩

theorem val_injective : Function.Injective (val : BoundedInt w → ℤ) := by
  rintro ⟨a, _⟩ ⟨b, _⟩ h
  cases h
  rfl

instance : LinearOrder (BoundedInt w) := LinearOrder.lift' val val_injective

theorem le_iff {a b : BoundedInt w} : a ≤ b ↔ a.val ≤ b.val := Iff.rfl

theorem val_max (a b : BoundedInt w) : (max a b).val = max a.val b.val := by
  rcases le_total a b with h | h
  · rw [max_eq_right h, max_eq_right (le_iff.mp h)]
  · rw [max_eq_left h, max_eq_left (le_iff.mp h)]

theorem val_min (a b : BoundedInt w) : (min a b).val = min a.val b.val := by
  rcases le_total a b with h | h
  · rw [min_eq_left h, min_eq_left (le_iff.mp h)]
  · rw [min_eq_right h, min_eq_right (le_iff.mp h)]

theorem ext_val {a b : BoundedInt w} (h : a.val = b.val) : a = b := val_injective h

theorem checked_eq_ok {z : ℤ} {n : BoundedInt w} : checked z = .ok n ↔ n.val = z := by
  unfold checked
  split_ifs with h
  · rw [Except.ok.injEq]
    constructor
    · rintro rfl
      rfl
    · intro hn
      exact ext_val hn.symm
  · simp only [panics, reduceCtorEq, false_iff]
    rintro rfl
    exact h n.fits

end BoundedInt

/-- A decimal of format `F`, by its raw count of units. -/
structure Decimal (F : Format) where
  raw : ℤ
deriving DecidableEq

namespace Decimal

variable {F : Format}

theorem raw_injective : Function.Injective (raw : Decimal F → ℤ) := by
  rintro ⟨a⟩ ⟨b⟩ h
  exact congrArg mk h

instance : LinearOrder (Decimal F) := LinearOrder.lift' raw raw_injective

theorem le_iff {a b : Decimal F} : a ≤ b ↔ a.raw ≤ b.raw := Iff.rfl

theorem lt_iff {a b : Decimal F} : a < b ↔ a.raw < b.raw := Iff.rfl

instance : Zero (Decimal F) := ⟨⟨0⟩⟩

instance : Inhabited (Decimal F) := ⟨0⟩

@[simp] theorem raw_zero : (0 : Decimal F).raw = 0 := rfl

def ofInt (n : ℤ) : Decimal F := ⟨n * F.scale⟩

instance : One (Decimal F) := ⟨ofInt 1⟩

theorem raw_one : (1 : Decimal F).raw = F.scale := one_mul _

def Fits (F : Format) (z : ℤ) : Prop := z.natAbs < 2 ^ F.bits

/-- Decided by the bit length, as the limit is checked. -/
instance (z : ℤ) : Decidable (Fits F z) :=
  decidable_of_iff (z.natAbs = 0 ∨ z.natAbs.log2 < F.bits) <| by
    unfold Fits
    by_cases h : z.natAbs = 0
    · simp [h]
    · simp [h, Nat.log2_lt h]

@[simp] theorem fits_zero : Fits F 0 := Nat.two_pow_pos F.bits

theorem Fits.of_le {y z : ℤ} (hz : Fits F z) (hy : 0 ≤ y) (h : y ≤ z) : Fits F y :=
  lt_of_le_of_lt (by omega) hz

def checked (z : ℤ) : Exec (Decimal F) := do
  ensure (Fits F z) (.panic "Int overflow")
  pure ⟨z⟩

def add (a b : Decimal F) : Exec (Decimal F) := checked (a.raw + b.raw)

def sub (a b : Decimal F) : Exec (Decimal F) := checked (a.raw - b.raw)

def mul (a b : Decimal F) : Exec (Decimal F) := checked (chop F.scale (a.raw * b.raw))

def mulInt (a : Decimal F) (n : ℤ) : Exec (Decimal F) := checked (a.raw * n)

/-- The dividend is scaled twice before the truncated division, and the result
rounded back by one scale. -/
def quo (a b : Decimal F) : Exec (Decimal F) := do
  ensure (b.raw ≠ 0) (.panic "division by zero")
  checked (chop F.scale ((a.raw * (F.scale * F.scale)).tdiv b.raw))

/-- Division that drops what is below one unit. -/
def quoTruncate (a b : Decimal F) : Exec (Decimal F) := do
  ensure (b.raw ≠ 0) (.panic "division by zero")
  checked ((a.raw * F.scale).tdiv b.raw)

def quoInt (a : Decimal F) (n : ℤ) : Exec (Decimal F) := do
  ensure (n ≠ 0) (.panic "division by zero")
  pure ⟨a.raw.tdiv n⟩

def roundInt (w : ℕ) (a : Decimal F) : Exec (BoundedInt w) :=
  BoundedInt.checked (chop F.scale a.raw)

def truncateInt (w : ℕ) (a : Decimal F) : Exec (BoundedInt w) :=
  BoundedInt.checked (a.raw.tdiv F.scale)

theorem checked_eq_ok {z : ℤ} {c : Decimal F} : checked z = .ok c ↔ Fits F z ∧ c = ⟨z⟩ := by
  simp only [checked, bind_eq_ok, ensure_eq_ok, pure_eq_ok, Except.ok.injEq, exists_const]
  exact and_congr_right fun _ => eq_comm

theorem noError_checked (z : ℤ) : NoError (checked z : Exec (Decimal F)) := by
  intro text
  by_cases h : Fits F z
  · simp [checked, ensure_of h]
  · simp [checked, ensure_of_not h]

theorem mul_eq_ok {a b c : Decimal F} :
    mul a b = .ok c ↔ Fits F (chop F.scale (a.raw * b.raw)) ∧ c = ⟨chop F.scale (a.raw * b.raw)⟩ :=
  checked_eq_ok

theorem mulInt_eq_ok {a c : Decimal F} {n : ℤ} :
    mulInt a n = .ok c ↔ Fits F (a.raw * n) ∧ c = ⟨a.raw * n⟩ := checked_eq_ok

theorem quo_eq_ok {a b c : Decimal F} :
    quo a b = .ok c ↔ b.raw ≠ 0 ∧
      Fits F (chop F.scale ((a.raw * (F.scale * F.scale)).tdiv b.raw)) ∧
      c = ⟨chop F.scale ((a.raw * (F.scale * F.scale)).tdiv b.raw)⟩ := by
  simp only [quo, bind_eq_ok, ensure_eq_ok, exists_and_left, checked_eq_ok]
  simp

theorem quoTruncate_eq_ok {a b c : Decimal F} :
    quoTruncate a b = .ok c ↔
      b.raw ≠ 0 ∧ Fits F ((a.raw * F.scale).tdiv b.raw) ∧ c = ⟨(a.raw * F.scale).tdiv b.raw⟩ := by
  simp only [quoTruncate, bind_eq_ok, ensure_eq_ok, exists_const, checked_eq_ok]

theorem quoInt_eq_ok {a c : Decimal F} {n : ℤ} :
    quoInt a n = .ok c ↔ n ≠ 0 ∧ c = ⟨a.raw.tdiv n⟩ := by
  simp only [quoInt, bind_eq_ok, ensure_eq_ok, pure_eq_ok, Except.ok.injEq, exists_and_left]
  simp [eq_comm]

theorem add_eq_ok {a b c : Decimal F} :
    add a b = .ok c ↔ Fits F (a.raw + b.raw) ∧ c = ⟨a.raw + b.raw⟩ := checked_eq_ok

theorem sub_eq_ok {a b c : Decimal F} :
    sub a b = .ok c ↔ Fits F (a.raw - b.raw) ∧ c = ⟨a.raw - b.raw⟩ := checked_eq_ok

theorem truncateInt_eq_ok {w : ℕ} {a : Decimal F} {n : BoundedInt w} :
    truncateInt w a = .ok n ↔ n.val = a.raw.tdiv F.scale := BoundedInt.checked_eq_ok

theorem roundInt_eq_ok {w : ℕ} {a : Decimal F} {n : BoundedInt w} :
    roundInt w a = .ok n ↔ n.val = chop F.scale a.raw := BoundedInt.checked_eq_ok

/-- A product with a whole number is exact. -/
theorem ofInt_mul_eq_ok {n : ℤ} {a c : Decimal F} :
    mul (ofInt n) a = .ok c ↔ Fits F (n * a.raw) ∧ c = ⟨n * a.raw⟩ := by
  have hexact : chop F.scale ((ofInt n : Decimal F).raw * a.raw) = n * a.raw := by
    rw [show (ofInt n : Decimal F).raw * a.raw = F.scale * (n * a.raw) by simp only [ofInt]; ring]
    exact chop_mul_self F.scale_pos _
  rw [mul, hexact]
  exact checked_eq_ok

theorem mul_ofInt_eq_ok {n : ℤ} {a c : Decimal F} :
    mul a (ofInt n) = .ok c ↔ Fits F (a.raw * n) ∧ c = ⟨a.raw * n⟩ := by
  have hcomm : mul a (ofInt n) = mul (ofInt n) a := by rw [mul, mul, mul_comm a.raw]
  rw [hcomm, ofInt_mul_eq_ok, mul_comm]

theorem ofInt_quo_ofInt_eq_ok {m n : ℤ} {c : Decimal F} :
    quo (ofInt m) (ofInt n) = .ok c ↔ n ≠ 0 ∧
      Fits F (chop F.scale ((m * (F.scale * F.scale)).tdiv n)) ∧
      c = ⟨chop F.scale ((m * (F.scale * F.scale)).tdiv n)⟩ := by
  have hs : (0 : ℤ) < F.scale := by exact_mod_cast F.scale_pos
  have hcancel : ((ofInt m : Decimal F).raw * (F.scale * F.scale)).tdiv (ofInt n : Decimal F).raw =
      (m * (F.scale * F.scale)).tdiv n := by
    rw [← Int.mul_tdiv_mul_of_pos_left (m * (F.scale * F.scale)) n hs]
    congr 1
    simp only [ofInt]
    ring
  rw [quo_eq_ok, hcancel]
  apply and_congr_left'
  exact mul_ne_zero_iff_right hs.ne'

/-- Quotients of nonnegative decimals by positive ones are nonnegative. -/
theorem quo_nonneg {a b c : Decimal F} (ha : 0 ≤ a.raw) (hb : 0 ≤ b.raw)
    (h : quo a b = .ok c) : 0 ≤ c.raw := by
  obtain ⟨_, _, rfl⟩ := quo_eq_ok.mp h
  exact chop_nonneg _ (Int.tdiv_nonneg (mul_nonneg ha (by positivity)) hb)

/-- The rounded quotient, whether or not it fits. -/
def quotient (a b : Decimal F) : Decimal F :=
  ⟨chop F.scale ((a.raw * (F.scale * F.scale)).tdiv b.raw)⟩

theorem eq_quotient_of_quo {a b c : Decimal F} (h : quo a b = .ok c) : c = quotient a b :=
  (quo_eq_ok.mp h).2.2

/-- The rounded quotient grows with the dividend and falls with the divisor. -/
theorem quotient_mono {a a' b b' : Decimal F} (ha : 0 ≤ a.raw) (haa : a ≤ a') (hb' : 0 < b'.raw)
    (hbb : b' ≤ b) : quotient a b ≤ quotient a' b' := by
  have hs : (0 : ℤ) ≤ (F.scale : ℤ) * F.scale := by positivity
  have hdividend : a.raw * (F.scale * F.scale) ≤ a'.raw * (F.scale * F.scale) :=
    mul_le_mul_of_nonneg_right (le_iff.mp haa) hs
  have hnonneg : 0 ≤ a.raw * (F.scale * F.scale) := mul_nonneg ha hs
  have hb : 0 < b.raw := hb'.trans_le (le_iff.mp hbb)
  apply le_iff.mpr
  apply chop_mono F.scale_pos
  rw [Int.tdiv_eq_ediv_of_nonneg hnonneg, Int.tdiv_eq_ediv_of_nonneg (hnonneg.trans hdividend),
    Int.le_ediv_iff_mul_le hb']
  calc a.raw * (F.scale * F.scale) / b.raw * b'.raw
      ≤ a.raw * (F.scale * F.scale) / b.raw * b.raw :=
        mul_le_mul_of_nonneg_left (le_iff.mp hbb) (Int.ediv_nonneg hnonneg hb.le)
    _ ≤ a.raw * (F.scale * F.scale) := Int.ediv_mul_le _ hb.ne'
    _ ≤ a'.raw * (F.scale * F.scale) := hdividend

end Decimal

end FixedPoint
