import Mathlib.Tactic
import Mathlib.Data.Int.Log

/-!
# Instants, durations and whole seconds

An instant counts nanoseconds since the zero time (the start of year 1), a
duration is a signed 64-bit count of nanoseconds, and the difference of two
instants saturates. `seconds` is a duration in binary64 seconds: the whole
seconds plus the binary64 quotient of the remaining nanoseconds, rounded once
more after the sum.
-/

namespace GoTime

def maxDuration : ℤ := 2 ^ 63 - 1

def minDuration : ℤ := -2 ^ 63

def sub (t u : ℤ) : ℤ := max minDuration (min maxDuration (t - u))

/-- Seconds from the zero time to the start of 1970. -/
def unixEpochSeconds : ℤ := 62135596800

def unix (t : ℤ) : ℤ := t / 1000000000 - unixEpochSeconds

/-- The last instant of year 9999, where protobuf timestamps end. -/
def lastTimestamp : ℤ := 315537897600 * 1000000000 - 1

def unixMilli (t : ℤ) : ℤ := t / 1000000 - unixEpochSeconds * 1000

/-- The value of the low 64 bits read as a signed integer. -/
def int64 (z : ℤ) : ℤ := Int.bmod z (2 ^ 64)

def halfEvenInt (x : ℚ) : ℤ :=
  if x - ⌊x⌋ < 1 / 2 then ⌊x⌋
  else if 1 / 2 < x - ⌊x⌋ then ⌊x⌋ + 1
  else if ⌊x⌋ % 2 = 0 then ⌊x⌋
  else ⌊x⌋ + 1

/-- One unit in the last of 53 significant binary digits of `q`. -/
def ulp (q : ℚ) : ℚ := (2 : ℚ) ^ (Int.log 2 |q| - 52)

/-- The nearest binary64 number, ties to even, for magnitudes away from the
overflow and subnormal ranges. -/
def roundBinary64 (q : ℚ) : ℚ := halfEvenInt (q / ulp q) * ulp q

def seconds (d : ℤ) : ℚ :=
  roundBinary64 (d.tdiv 1000000000 + roundBinary64 (d.tmod 1000000000 / 1000000000))

def truncate (q : ℚ) : ℤ := if 0 ≤ q then ⌊q⌋ else ⌈q⌉

/-- The conversion of a duration's seconds to an integer. -/
def wholeSeconds (d : ℤ) : ℤ := truncate (seconds d)

theorem halfEvenInt_cases (x : ℚ) : halfEvenInt x = ⌊x⌋ ∨ halfEvenInt x = ⌊x⌋ + 1 := by
  unfold halfEvenInt
  split_ifs <;> simp

theorem le_halfEvenInt {x : ℚ} {z : ℤ} (h : (z : ℚ) ≤ x) : z ≤ halfEvenInt x := by
  have hf : z ≤ ⌊x⌋ := Int.le_floor.mpr h
  rcases halfEvenInt_cases x with he | he <;> omega

theorem halfEvenInt_le {x : ℚ} {z : ℤ} (h : x ≤ z) : halfEvenInt x ≤ z := by
  have hf : ⌊x⌋ ≤ z := by exact_mod_cast (Int.floor_le x).trans h
  rcases Int.lt_or_eq_of_le hf with hlt | heq
  · rcases halfEvenInt_cases x with he | he <;> omega
  · have hx : x - ⌊x⌋ < 1 / 2 := by
      have : x ≤ (⌊x⌋ : ℚ) := by rw [heq]; exact h
      linarith
    rw [halfEvenInt, if_pos hx]
    exact hf

theorem ulp_pos (q : ℚ) : 0 < ulp q := zpow_pos (by norm_num) _

/-- Multiples of `2 ^ (-k)` are whole numbers of units while the magnitude stays
below `2 ^ (53 - k)`. -/
theorem exists_int_mul_ulp {q : ℚ} {k : ℕ} (hk : k ≤ 52) (hq : |q| < 2 ^ (53 - k)) (z : ℤ) :
    ∃ n : ℤ, (z : ℚ) / 2 ^ k = n * ulp q := by
  have he : Int.log 2 |q| ≤ 52 - k := by
    by_cases h0 : |q| = 0
    · rw [h0, Int.log_zero_right]
      omega
    · have hpos : 0 < |q| := lt_of_le_of_ne (abs_nonneg q) (Ne.symm h0)
      have hlt : Int.log 2 |q| < ((53 - k : ℕ) : ℤ) := by
        apply (Int.lt_zpow_iff_log_lt (by norm_num) hpos).mp
        exact_mod_cast hq
      omega
  refine ⟨z * 2 ^ (52 - k - Int.log 2 |q|).toNat, ?_⟩
  have hexp : ((52 - k - Int.log 2 |q|).toNat : ℤ) = 52 - k - Int.log 2 |q| :=
    Int.toNat_of_nonneg (by omega)
  have hsum : 52 - (k : ℤ) - Int.log 2 |q| + (Int.log 2 |q| - 52) = -k := by ring
  unfold ulp
  push_cast
  rw [mul_assoc, ← zpow_natCast (2 : ℚ) (52 - k - Int.log 2 |q|).toNat, hexp,
    ← zpow_add₀ (by norm_num), hsum, zpow_neg, zpow_natCast, div_eq_mul_inv]

/-- Rounding does not cross a multiple of the unit. -/
theorem mul_ulp_le_roundBinary64 {q : ℚ} {n : ℤ} (h : n * ulp q ≤ q) :
    n * ulp q ≤ roundBinary64 q := by
  have hround : n ≤ halfEvenInt (q / ulp q) := le_halfEvenInt ((le_div_iff₀ (ulp_pos q)).mpr h)
  exact mul_le_mul_of_nonneg_right (Int.cast_le.mpr hround) (ulp_pos q).le

theorem roundBinary64_le_mul_ulp {q : ℚ} {n : ℤ} (h : q ≤ n * ulp q) :
    roundBinary64 q ≤ n * ulp q := by
  have hround : halfEvenInt (q / ulp q) ≤ n := halfEvenInt_le ((div_le_iff₀ (ulp_pos q)).mpr h)
  exact mul_le_mul_of_nonneg_right (Int.cast_le.mpr hround) (ulp_pos q).le

theorem le_roundBinary64 {q : ℚ} {k : ℕ} (hk : k ≤ 52) (hq : |q| < 2 ^ (53 - k)) {z : ℤ}
    (h : (z : ℚ) / 2 ^ k ≤ q) : (z : ℚ) / 2 ^ k ≤ roundBinary64 q := by
  obtain ⟨n, hn⟩ := exists_int_mul_ulp hk hq z
  rw [hn] at h ⊢
  exact mul_ulp_le_roundBinary64 h

theorem roundBinary64_le {q : ℚ} {k : ℕ} (hk : k ≤ 52) (hq : |q| < 2 ^ (53 - k)) {z : ℤ}
    (h : q ≤ (z : ℚ) / 2 ^ k) : roundBinary64 q ≤ (z : ℚ) / 2 ^ k := by
  obtain ⟨n, hn⟩ := exists_int_mul_ulp hk hq z
  rw [hn] at h ⊢
  exact roundBinary64_le_mul_ulp h

/-- Rounding does not cross an integer. -/
theorem roundBinary64_between {q : ℚ} (hq : |q| < 2 ^ 53) {y z : ℤ} (hy : (y : ℚ) ≤ q)
    (hz : q ≤ z) : (y : ℚ) ≤ roundBinary64 q ∧ roundBinary64 q ≤ z := by
  constructor
  · simpa using le_roundBinary64 (k := 0) (by norm_num) (by simpa using hq) (by simpa using hy)
  · simpa using roundBinary64_le (k := 0) (by norm_num) (by simpa using hq) (by simpa using hz)

theorem tmod_nonneg_bounds {d : ℤ} (hd : 0 ≤ d) :
    d.tdiv 1000000000 = d / 1000000000 ∧ 0 ≤ d.tmod 1000000000 ∧
      d.tmod 1000000000 < 1000000000 := by
  rw [Int.tdiv_eq_ediv_of_nonneg hd, Int.tmod_eq_emod_of_nonneg hd]
  exact ⟨rfl, Int.emod_nonneg _ (by norm_num), Int.emod_lt_of_pos _ (by norm_num)⟩

theorem tmod_nonpos_bounds {d : ℤ} (hd : d ≤ 0) :
    d.tdiv 1000000000 = -(-d / 1000000000) ∧ -1000000000 < d.tmod 1000000000 ∧
      d.tmod 1000000000 ≤ 0 := by
  obtain ⟨hq, h0, h1⟩ := tmod_nonneg_bounds (d := -d) (by omega)
  rw [Int.neg_tdiv] at hq
  rw [Int.neg_tmod] at h0 h1
  omega

theorem seconds_between (lo hi : ℤ) {d : ℤ} (hd : |d| ≤ 2 ^ 63)
    (hlo : lo * 1000000000 ≤ d.tmod 1000000000) (hhi : d.tmod 1000000000 ≤ hi * 1000000000)
    (hlo1 : -1 ≤ lo) (hhi1 : hi ≤ 1) :
    ((d.tdiv 1000000000 + lo : ℤ) : ℚ) ≤ seconds d ∧
      seconds d ≤ ((d.tdiv 1000000000 + hi : ℤ) : ℚ) := by
  have hmod := Int.tmod_add_mul_tdiv d 1000000000
  have habs := abs_le.mp hd
  have hlo' : (lo : ℚ) ≤ (d.tmod 1000000000 : ℚ) / 1000000000 := by
    rw [le_div_iff₀ (by norm_num)]
    exact_mod_cast hlo
  have hhi' : (d.tmod 1000000000 : ℚ) / 1000000000 ≤ hi := by
    rw [div_le_iff₀ (by norm_num)]
    exact_mod_cast hhi
  have hloq : (-1 : ℚ) ≤ lo := by exact_mod_cast hlo1
  have hhiq : (hi : ℚ) ≤ 1 := by exact_mod_cast hhi1
  have hfrac := roundBinary64_between (q := (d.tmod 1000000000 : ℚ) / 1000000000)
    (by rw [abs_lt]; constructor <;> linarith) hlo' hhi'
  have hdiv : |((d.tdiv 1000000000 : ℤ) : ℚ)| ≤ 2 ^ 34 := by
    have : |d.tdiv 1000000000| ≤ 2 ^ 34 := by
      rw [abs_le]
      constructor <;> omega
    exact_mod_cast this
  have hdiv' := abs_le.mp hdiv
  apply roundBinary64_between
  · rw [abs_lt]
    constructor <;> linarith [hfrac.1, hfrac.2]
  · push_cast
    linarith [hfrac.1]
  · push_cast
    linarith [hfrac.2]

theorem truncate_of_nonneg_between {q : ℚ} {y : ℤ} (hy0 : 0 ≤ y) (hy : (y : ℚ) ≤ q)
    (hz : q ≤ ((y + 1 : ℤ) : ℚ)) : y ≤ truncate q ∧ truncate q ≤ y + 1 := by
  have hq : (0 : ℚ) ≤ q := le_trans (by exact_mod_cast hy0) hy
  rw [truncate, if_pos hq]
  exact ⟨Int.le_floor.mpr hy, by exact_mod_cast (Int.floor_le q).trans hz⟩

theorem truncate_of_nonpos_between {q : ℚ} {y : ℤ} (hy0 : y ≤ 0) (hy : ((y - 1 : ℤ) : ℚ) ≤ q)
    (hz : q ≤ y) : y - 1 ≤ truncate q ∧ truncate q ≤ y := by
  have hq : q ≤ 0 := le_trans hz (by exact_mod_cast hy0)
  by_cases h0 : (0 : ℚ) ≤ q
  · have hq0 : q = 0 := le_antisymm hq h0
    rw [hq0] at hz
    have : (0 : ℤ) ≤ y := by exact_mod_cast hz
    have hy' : y = 0 := by omega
    simp [truncate, hq0, hy']
  · rw [truncate, if_neg h0]
    exact ⟨by exact_mod_cast hy.trans (Int.le_ceil q), Int.ceil_le.mpr hz⟩

/-- The conversion is the whole number of seconds, or one more when the sum of
seconds and nanoseconds rounds up. -/
theorem wholeSeconds_of_nonneg {d : ℤ} (h0 : 0 ≤ d) (hd : d ≤ 2 ^ 63) :
    d / 1000000000 ≤ wholeSeconds d ∧ wholeSeconds d ≤ d / 1000000000 + 1 := by
  obtain ⟨hq, hr0, hr1⟩ := tmod_nonneg_bounds h0
  have h := seconds_between 0 1 (d := d) (by rw [abs_of_nonneg h0]; exact hd)
    (by omega) (by omega) (by norm_num) le_rfl
  rw [hq, add_zero] at h
  exact truncate_of_nonneg_between (by omega) h.1 h.2

/-- A whole number of seconds converts exactly. -/
theorem wholeSeconds_seconds {k : ℤ} (hk : 0 ≤ k) (hfits : k * 1000000000 ≤ 2 ^ 63) :
    wholeSeconds (k * 1000000000) = k := by
  have hnonneg : 0 ≤ k * 1000000000 := by positivity
  have hmod : (k * 1000000000).tmod 1000000000 = 0 := Int.mul_tmod_left k 1000000000
  have hdiv : (k * 1000000000).tdiv 1000000000 = k := Int.mul_tdiv_cancel k (by norm_num)
  have h := seconds_between 0 0 (d := k * 1000000000) (by rwa [abs_of_nonneg hnonneg])
    (by omega) (by omega) (by norm_num) (by norm_num)
  rw [hdiv, add_zero] at h
  have hexact : seconds (k * 1000000000) = k := le_antisymm h.2 h.1
  rw [wholeSeconds, hexact, truncate, if_pos (by exact_mod_cast hk), Int.floor_intCast]

theorem wholeSeconds_of_nonpos {d : ℤ} (h0 : d ≤ 0) (hd : -2 ^ 63 ≤ d) :
    -(-d / 1000000000) - 1 ≤ wholeSeconds d ∧ wholeSeconds d ≤ -(-d / 1000000000) := by
  obtain ⟨hq, hr0, hr1⟩ := tmod_nonpos_bounds h0
  have h := seconds_between (-1) 0 (d := d)
    (by rw [abs_of_nonpos h0]; omega) (by omega) (by omega) le_rfl (by norm_num)
  rw [hq, add_zero] at h
  exact truncate_of_nonpos_between (by omega) h.1 h.2

/-- Below one second the fraction stays below `1 - 2 ^ (-30)`, which both
roundings respect. -/
theorem abs_seconds_lt_one {d : ℤ} (hd : |d| < 1000000000) : |seconds d| < 1 := by
  have habs := abs_lt.mp hd
  have hdiv : d.tdiv 1000000000 = 0 := by
    rcases le_total 0 d with h0 | h0
    · rw [(tmod_nonneg_bounds h0).1]
      omega
    · rw [(tmod_nonpos_bounds h0).1]
      omega
  have hmod : d.tmod 1000000000 = d := by
    have := Int.tmod_add_mul_tdiv d 1000000000
    rw [hdiv] at this
    omega
  have hlo : (-999999999 : ℚ) ≤ d := by exact_mod_cast (by omega : -999999999 ≤ d)
  have hhi : (d : ℚ) ≤ 999999999 := by exact_mod_cast (by omega : d ≤ 999999999)
  have hround : ∀ q : ℚ, ((-1073741823 : ℤ) : ℚ) / 2 ^ 30 ≤ q →
      q ≤ ((1073741823 : ℤ) : ℚ) / 2 ^ 30 →
      ((-1073741823 : ℤ) : ℚ) / 2 ^ 30 ≤ roundBinary64 q ∧
        roundBinary64 q ≤ ((1073741823 : ℤ) : ℚ) / 2 ^ 30 := by
    intro q h1 h2
    have hq : |q| < 2 ^ (53 - 30) := by
      rw [abs_lt]
      norm_num at h1 h2 ⊢
      constructor <;> linarith
    exact ⟨le_roundBinary64 (by norm_num) hq h1, roundBinary64_le (by norm_num) hq h2⟩
  obtain ⟨h1, h2⟩ := hround ((d : ℚ) / 1000000000)
    (by rw [le_div_iff₀ (by norm_num)]; norm_num; linarith)
    (by rw [div_le_iff₀ (by norm_num)]; norm_num; linarith)
  obtain ⟨h3, h4⟩ := hround (0 + roundBinary64 ((d : ℚ) / 1000000000)) (by simpa using h1)
    (by simpa using h2)
  rw [seconds, hdiv, hmod, Int.cast_zero, abs_lt]
  norm_num at h3 h4 ⊢
  constructor <;> linarith

theorem wholeSeconds_eq_zero_iff {d : ℤ} (hd : |d| ≤ 2 ^ 63) :
    wholeSeconds d = 0 ↔ |d| < 1000000000 := by
  constructor
  · intro h
    rw [abs_le] at hd
    rw [abs_lt]
    rcases le_total 0 d with h0 | h0
    · have := (wholeSeconds_of_nonneg h0 hd.2).1
      omega
    · have := (wholeSeconds_of_nonpos h0 hd.1).2
      omega
  · intro h
    have hlt := abs_lt.mp (abs_seconds_lt_one h)
    rw [wholeSeconds, truncate]
    split_ifs with h0
    · exact Int.floor_eq_zero_iff.mpr ⟨h0, hlt.2⟩
    · exact Int.ceil_eq_zero_iff.mpr ⟨hlt.1, (not_le.mp h0).le⟩

theorem abs_wholeSeconds_le {d : ℤ} (hd : |d| ≤ 2 ^ 63) : |wholeSeconds d| ≤ 2 ^ 34 := by
  rw [abs_le] at hd ⊢
  rcases le_total 0 d with h0 | h0
  · have := wholeSeconds_of_nonneg h0 hd.2
    omega
  · have := wholeSeconds_of_nonpos h0 hd.1
    omega

theorem abs_sub_le (t u : ℤ) : |sub t u| ≤ 2 ^ 63 := by
  unfold sub maxDuration minDuration
  rw [abs_le]
  constructor <;> omega

theorem abs_sub_lt_iff (t u : ℤ) : |sub t u| < 1000000000 ↔ |t - u| < 1000000000 := by
  have hsub : sub t u = max (-2 ^ 63) (min (2 ^ 63 - 1) (t - u)) := rfl
  rw [hsub, abs_lt, abs_lt]
  omega

theorem halfEvenInt_mono {x y : ℚ} (h : x ≤ y) : halfEvenInt x ≤ halfEvenInt y := by
  have hfloor : ⌊x⌋ ≤ ⌊y⌋ := Int.floor_mono h
  obtain hlt | heq := hfloor.lt_or_eq
  · rcases halfEvenInt_cases x with hx | hx <;> rcases halfEvenInt_cases y with hy | hy <;> omega
  · unfold halfEvenInt
    rw [heq]
    split_ifs <;> first | omega | (exfalso; linarith)

theorem roundBinary64_zero : roundBinary64 0 = 0 := by
  have hzero : halfEvenInt 0 = 0 := by norm_num [halfEvenInt]
  simp [roundBinary64, hzero]

/-- A power of two is a multiple of the unit of every number of at most its size. -/
theorem exists_zpow_eq_mul_ulp {x : ℚ} {n : ℤ} (h : Int.log 2 |x| ≤ n) :
    ∃ z : ℤ, (2 : ℚ) ^ n = z * ulp x := by
  refine ⟨2 ^ (n - Int.log 2 |x| + 52).toNat, ?_⟩
  have hexp : ((n - Int.log 2 |x| + 52).toNat : ℤ) = n - Int.log 2 |x| + 52 :=
    Int.toNat_of_nonneg (by omega)
  push_cast
  rw [ulp, ← zpow_natCast, hexp, ← zpow_add₀ (by norm_num)]
  congr 1
  ring

/-- Rounding keeps the order of nonnegative numbers: within one power of two the
unit is the same, and a power of two between them is a multiple of both units. -/
theorem roundBinary64_mono {p q : ℚ} (hp : 0 ≤ p) (h : p ≤ q) :
    roundBinary64 p ≤ roundBinary64 q := by
  obtain hzero | hpos := hp.eq_or_lt
  · rw [← hzero, roundBinary64_zero]
    have hround := mul_ulp_le_roundBinary64 (q := q) (n := 0) (by simpa using hp.trans h)
    simpa using hround
  · have hqpos : 0 < q := hpos.trans_le h
    have hlog : Int.log 2 |p| ≤ Int.log 2 |q| := by
      rw [abs_of_pos hpos, abs_of_pos hqpos]
      exact Int.log_mono_right hpos h
    obtain heq | hlt := hlog.eq_or_lt
    · have hulp : ulp p = ulp q := by rw [ulp, ulp, heq]
      rw [roundBinary64, roundBinary64, hulp]
      apply mul_le_mul_of_nonneg_right _ (ulp_pos q).le
      exact_mod_cast halfEvenInt_mono (div_le_div_of_nonneg_right h (ulp_pos q).le)
    · have hple : p ≤ (2 : ℚ) ^ Int.log 2 |q| := by
        have hp' := Int.lt_zpow_succ_log_self (b := 2) (by norm_num) p
        rw [abs_of_pos hpos] at hlt
        apply hp'.le.trans
        push_cast
        exact zpow_le_zpow_right₀ (by norm_num) (by omega)
      have hleq : (2 : ℚ) ^ Int.log 2 |q| ≤ q := by
        have hq' := Int.zpow_log_le_self (b := 2) (by norm_num) hqpos
        rw [abs_of_pos hqpos]
        exact_mod_cast hq'
      obtain ⟨y, hy⟩ := exists_zpow_eq_mul_ulp hlt.le
      obtain ⟨z, hz⟩ := exists_zpow_eq_mul_ulp (x := q) le_rfl
      calc roundBinary64 p ≤ y * ulp p := roundBinary64_le_mul_ulp (hy ▸ hple)
        _ = z * ulp q := by rw [← hy, hz]
        _ ≤ roundBinary64 q := mul_ulp_le_roundBinary64 (hz ▸ hleq)

theorem seconds_nonneg {d : ℤ} (hd : 0 ≤ d) (hbound : d ≤ 2 ^ 63) : 0 ≤ seconds d := by
  obtain ⟨hqd, hd0, hd1⟩ := tmod_nonneg_bounds hd
  have hlower := (seconds_between 0 1 (d := d) (by rw [abs_of_nonneg hd]; exact hbound)
    (by omega) (by omega) (by norm_num) le_rfl).1
  apply le_trans _ hlower
  rw [hqd, add_zero]
  exact_mod_cast Int.ediv_nonneg hd (by norm_num)

/-- A longer duration is read as no fewer seconds: it has more whole seconds, or as
many and no smaller a rest. -/
theorem seconds_mono {d e : ℤ} (hd : 0 ≤ d) (h : d ≤ e) (he : e ≤ 2 ^ 63) :
    seconds d ≤ seconds e := by
  obtain ⟨hqd, hd0, hd1⟩ := tmod_nonneg_bounds hd
  obtain ⟨hqe, he0, he1⟩ := tmod_nonneg_bounds (hd.trans h)
  have hmd := Int.tmod_add_mul_tdiv d 1000000000
  have hme := Int.tmod_add_mul_tdiv e 1000000000
  have hle : d.tdiv 1000000000 ≤ e.tdiv 1000000000 := by omega
  obtain hlt | heq := hle.lt_or_eq
  · have hupper := (seconds_between 0 1 (d := d) (by rw [abs_of_nonneg hd]; omega)
      (by omega) (by omega) (by norm_num) le_rfl).2
    have hlower := (seconds_between 0 1 (d := e) (by rw [abs_of_nonneg (hd.trans h)]; exact he)
      (by omega) (by omega) (by norm_num) le_rfl).1
    apply hupper.trans (le_trans _ hlower)
    exact_mod_cast (by omega : d.tdiv 1000000000 + 1 ≤ e.tdiv 1000000000 + 0)
  · have hmod : d.tmod 1000000000 ≤ e.tmod 1000000000 := by omega
    have hfrac : (0 : ℚ) ≤ (d.tmod 1000000000 : ℚ) / 1000000000 := by
      apply div_nonneg _ (by norm_num)
      exact_mod_cast hd0
    have hround := roundBinary64_mono hfrac (div_le_div_of_nonneg_right
      (by exact_mod_cast hmod : (d.tmod 1000000000 : ℚ) ≤ (e.tmod 1000000000 : ℚ))
      (by norm_num : (0 : ℚ) ≤ 1000000000))
    have hround0 := roundBinary64_mono le_rfl hfrac
    rw [roundBinary64_zero] at hround0
    have hwhole : (0 : ℚ) ≤ (d.tdiv 1000000000 : ℚ) := by
      rw [hqd]
      exact_mod_cast Int.ediv_nonneg hd (by norm_num)
    unfold seconds
    rw [← heq]
    apply roundBinary64_mono (by linarith)
    linarith

/-- The seconds of a longer duration are not fewer. -/
theorem wholeSeconds_mono {d e : ℤ} (hd : 0 ≤ d) (h : d ≤ e) (he : e ≤ 2 ^ 63) :
    wholeSeconds d ≤ wholeSeconds e := by
  have hnonneg := seconds_nonneg hd (h.trans he)
  have hseconds := seconds_mono hd h he
  rw [wholeSeconds, wholeSeconds, truncate, truncate, if_pos hnonneg,
    if_pos (hnonneg.trans hseconds)]
  exact Int.floor_mono hseconds

theorem int64_of_bounds {z : ℤ} (hlo : -2 ^ 63 ≤ z) (hhi : z < 2 ^ 63) : int64 z = z :=
  Int.bmod_eq_of_le (by simpa using hlo) (by simpa using hhi)

theorem int64_sub_two_pow (z : ℤ) : int64 (z - 2 ^ 64) = int64 z := by
  have h := Int.sub_bmod_right z (2 ^ 64)
  push_cast at h
  exact h

theorem int64_bounds (z : ℤ) : -2 ^ 63 ≤ int64 z ∧ int64 z < 2 ^ 63 := by
  have hlo := Int.le_bmod (x := z) (m := 2 ^ 64) (by norm_num)
  have hhi := Int.bmod_lt (x := z) (m := 2 ^ 64) (by norm_num)
  unfold int64
  norm_num at hlo hhi ⊢
  exact ⟨hlo, hhi⟩

end GoTime
