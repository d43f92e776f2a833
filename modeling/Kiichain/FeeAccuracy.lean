import Kiichain.FeeConversion

/-!
# Accuracy of a converted fee

The fee is divided, priced with eighteen digits, scaled to the token's units and
rounded to a whole number. The division is exact, and so is the scaling; the two
roundings together are off by at most one unit and keep the order.
-/

namespace Kiichain.FeeAbstraction
open GoExec FixedPoint

/-- The amount without any rounding. -/
def exactAmount (price : LegacyDec) (amount : SdkInt) (decimals : ℕ) : ℚ :=
  amount.val * (price.raw / legacyFormat.scale) * 10 ^ ((decimals : ℤ) - baseDenomUnit)

/-- The amount after both roundings, were there no bound on its size. -/
def roundedAmount (price : LegacyDec) (amount : SdkInt) (decimals : ℕ) : ℤ :=
  chop legacyFormat.scale
    (chop legacyFormat.scale (amount.val * price.raw) * (10 ^ decimals : ℕ))

section Rounding

variable {price price' : LegacyDec} {amount amount' : SdkInt} {decimals : ℕ}

theorem ten_pow_le (h : decimals ≤ baseDenomUnit) : 10 ^ decimals ≤ legacyFormat.scale :=
  (Nat.pow_le_pow_right (by norm_num) h).trans_eq (by rfl)

theorem exactAmount_eq : exactAmount price amount decimals =
    (amount.val * price.raw * (10 ^ decimals : ℕ) : ℤ) /
      (legacyFormat.scale * legacyFormat.scale : ℤ) := by
  have hscale : (legacyFormat.scale : ℚ) = 10 ^ (baseDenomUnit : ℤ) := by
    rw [legacyFormat_scale, baseDenomUnit]
    norm_num
  have hpow : (10 : ℚ) ^ ((decimals : ℤ) - baseDenomUnit) = 10 ^ decimals / legacyFormat.scale := by
    rw [zpow_sub₀ (by norm_num), zpow_natCast, hscale]
  rw [exactAmount, hpow]
  push_cast
  field_simp

/-- Both roundings together move the amount by at most one unit. -/
theorem abs_roundedAmount_sub_le (h : decimals ≤ baseDenomUnit) :
    |(roundedAmount price amount decimals : ℚ) - exactAmount price amount decimals| ≤ 1 := by
  have hbound := abs_chop_chop_le legacyFormat.scale_pos (ten_pow_le h) (amount.val * price.raw)
  have hscale : (0 : ℚ) < legacyFormat.scale * legacyFormat.scale := by
    rw [legacyFormat_scale]
    norm_num
  have hdiff : (roundedAmount price amount decimals : ℚ) - exactAmount price amount decimals =
      ((legacyFormat.scale * legacyFormat.scale * roundedAmount price amount decimals -
        amount.val * price.raw * (10 ^ decimals : ℕ) : ℤ) : ℚ) /
      (legacyFormat.scale * legacyFormat.scale) := by
    rw [exactAmount_eq, eq_div_iff hscale.ne']
    push_cast
    rw [sub_mul, div_mul_cancel₀ _ hscale.ne']
    ring
  rw [hdiff, abs_div, abs_of_pos hscale, div_le_one hscale]
  exact_mod_cast hbound

theorem roundedAmount_mono_of_le (h : amount.val * price.raw ≤ amount'.val * price'.raw) :
    roundedAmount price amount decimals ≤ roundedAmount price' amount' decimals :=
  chop_mono legacyFormat.scale_pos
    (mul_le_mul_of_nonneg_right (chop_mono legacyFormat.scale_pos h) (Int.natCast_nonneg _))

end Rounding

section Conversion

variable {price equivalent : LegacyDec} {amount charged : SdkInt} {decimals : ℕ}

theorem power_ten (h : decimals ≤ baseDenomUnit) :
    power (.ofInt 10) decimals = .ok (.ofInt (10 ^ decimals : ℕ)) := by
  unfold baseDenomUnit at h
  interval_cases decimals <;> rfl

/-- Dividing by the units of the native coin is exact. -/
theorem quo_unit_eq_ok {a : ℤ} {amountFull : LegacyDec}
    (h : (Decimal.ofInt a : LegacyDec).quo (.ofInt (10 ^ baseDenomUnit : ℕ)) = .ok amountFull) :
    amountFull.raw = a := by
  obtain ⟨_, _, rfl⟩ := Decimal.ofInt_quo_ofInt_eq_ok.mp h
  have hunit : ((10 ^ baseDenomUnit : ℕ) : ℤ) = legacyFormat.scale := rfl
  have hscale : (legacyFormat.scale : ℤ) ≠ 0 := by
    rw [legacyFormat_scale]
    norm_num
  change chop legacyFormat.scale
    ((a * (legacyFormat.scale * legacyFormat.scale)).tdiv ((10 ^ baseDenomUnit : ℕ) : ℤ)) = a
  rw [hunit, ← mul_assoc, Int.mul_tdiv_cancel _ hscale, mul_comm]
  exact chop_mul_self legacyFormat.scale_pos a

/-- What is left to round of a conversion in which no decimal overflows. -/
theorem raw_of_calculateTokenAmountWithDecimals (h : decimals ≤ baseDenomUnit)
    (hresult : calculateTokenAmountWithDecimals price amount baseDenomUnit decimals =
      .ok equivalent) :
    equivalent.raw =
      chop legacyFormat.scale (amount.val * price.raw) * (10 ^ decimals : ℕ) := by
  simp only [calculateTokenAmountWithDecimals, bind_eq_ok] at hresult
  obtain ⟨_, _, hresult⟩ := hresult
  split_ifs at hresult with hzero
  · cases hresult
    rcases hzero with hzero | hzero <;> simp [hzero]
  · simp only [power_ten h, power_ten le_rfl, bind_eq_ok, Except.ok.injEq, exists_eq_left'] at hresult
    obtain ⟨amountFull, hfull, amountInOtherFull, hother, hscaled⟩ := hresult
    obtain ⟨_, rfl⟩ := Decimal.mul_ofInt_eq_ok.mp hscaled
    obtain ⟨_, rfl⟩ := Decimal.mul_eq_ok.mp hother
    rw [quo_unit_eq_ok hfull]

end Conversion

section Charge

variable {token : FeeTokenMetadata} {amount charged : SdkInt}

/-- No decimal of the conversion overflows, and none of the decimals is zero. -/
def NoOverflow (token : FeeTokenMetadata) (amount : SdkInt) : Prop :=
  Returns (calculateTokenAmountWithDecimals token.price amount baseDenomUnit token.decimals)

theorem charged_eq (h : token.decimals ≤ baseDenomUnit)
    (hcharged : amountEquivalentInt token amount = .ok charged) :
    charged.val = roundedAmount token.price amount token.decimals := by
  obtain ⟨equivalent, hequivalent, hround⟩ := bind_eq_ok.mp hcharged
  rw [Decimal.roundInt_eq_ok.mp hround, raw_of_calculateTokenAmountWithDecimals h hequivalent]
  rfl

/-- Where no decimal overflows, only the size of the rounded amount can be too large. -/
theorem returns_amountEquivalentInt (h : token.decimals ≤ baseDenomUnit)
    (hfits : NoOverflow token amount)
    (hsmall : (roundedAmount token.price amount token.decimals).natAbs < 2 ^ 256) :
    Returns (amountEquivalentInt token amount) := by
  obtain ⟨equivalent, hequivalent⟩ := hfits
  have hraw := raw_of_calculateTokenAmountWithDecimals h hequivalent
  refine ⟨⟨roundedAmount token.price amount token.decimals, hsmall⟩, ?_⟩
  refine bind_eq_ok.mpr ⟨equivalent, hequivalent, Decimal.roundInt_eq_ok.mpr ?_⟩
  rw [hraw]
  rfl

/-- A charge is within one unit of the exact amount, and a larger amount or a
higher price is not charged less. -/
structure Accurate (token : FeeTokenMetadata) (amount charged : SdkInt) : Prop where
  error : |(charged.val : ℚ) - exactAmount token.price amount token.decimals| ≤ 1
  mono_amount : ∀ amount' charged', 0 ≤ token.price.raw → amount ≤ amount' →
    amountEquivalentInt token amount' = .ok charged' → charged ≤ charged'
  mono_price : ∀ price' charged', 0 ≤ amount.val → token.price ≤ price' →
    amountEquivalentInt { token with price := price' } amount = .ok charged' → charged ≤ charged'

theorem accurate_of_charged (h : token.decimals ≤ baseDenomUnit)
    (hcharged : amountEquivalentInt token amount = .ok charged) : Accurate token amount charged := by
  have hval := charged_eq h hcharged
  refine ⟨?_, fun amount' charged' hprice hle hcharged' => ?_,
    fun price' charged' hamount hle hcharged' => ?_⟩
  · rw [hval]
    exact abs_roundedAmount_sub_le h
  · rw [BoundedInt.le_iff, hval, charged_eq h hcharged']
    exact roundedAmount_mono_of_le (mul_le_mul_of_nonneg_right hle hprice)
  · have hval' : charged'.val = roundedAmount price' amount token.decimals :=
      @charged_eq { token with price := price' } amount charged' h hcharged'
    rw [BoundedInt.le_iff, hval, hval']
    exact roundedAmount_mono_of_le (mul_le_mul_of_nonneg_left hle hamount)

/-- A conversion without overflow charges an amount, unless the exact one is beyond
the integers of the chain, and whatever it charges is accurate. -/
theorem charge_accurate (token : FeeTokenMetadata) (amount : SdkInt)
    (hdecimals : token.decimals ≤ 18) (hfits : NoOverflow token amount) :
    (Returns (amountEquivalentInt token amount) ∨
      2 ^ 256 - 1 ≤ |exactAmount token.price amount token.decimals|) ∧
      ∀ charged, amountEquivalentInt token amount = .ok charged → Accurate token amount charged := by
  refine ⟨?_, fun charged => accurate_of_charged hdecimals⟩
  by_cases hsmall : (roundedAmount token.price amount token.decimals).natAbs < 2 ^ 256
  · exact Or.inl (returns_amountEquivalentInt hdecimals hfits hsmall)
  · apply Or.inr
    have herror := @abs_roundedAmount_sub_le token.price amount token.decimals hdecimals
    have hlarge : (2 : ℚ) ^ 256 ≤ |(roundedAmount token.price amount token.decimals : ℚ)| := by
      rw [← Int.cast_abs, Int.abs_eq_natAbs]
      exact_mod_cast not_lt.mp hsmall
    have htriangle := abs_sub_abs_le_abs_sub
      (roundedAmount token.price amount token.decimals : ℚ)
      (exactAmount token.price amount token.decimals)
    linarith

variable {W : Type} {k : FeeKeepers W} {account : String} {fee : Coin} {tokens : List FeeTokenMetadata}

/-- The one coin that the search returns is a charge of an enabled token. -/
theorem charged_of_convertERC20ForFees {w w' : W} {r : List Coin × LegacyDec}
    (h : convertERC20ForFees k account fee tokens w = (.ok r, w')) :
    ∃ token ∈ tokens, token.enabled = true ∧ ∃ charged,
      amountEquivalentInt token fee.amount = .ok charged ∧ r = ([⟨token.denom, charged⟩], token.price) := by
  induction tokens generalizing w with
  | nil => cases h
  | cons token rest ih =>
      have hlater : ∀ w, convertERC20ForFees k account fee rest w = (.ok r, w') →
          ∃ token' ∈ token :: rest, token'.enabled = true ∧ ∃ charged,
            amountEquivalentInt token' fee.amount = .ok charged ∧
              r = ([⟨token'.denom, charged⟩], token'.price) := by
        intro w hrest
        obtain ⟨token', hmem, hfound⟩ := ih hrest
        exact ⟨token', List.mem_cons_of_mem token hmem, hfound⟩
      rw [convertERC20ForFees] at h
      split_ifs at h with henabled
      · exact hlater w h
      · cases hamount : amountEquivalentInt token fee.amount with
        | error e =>
            rw [hamount] at h
            cases h
        | ok charged =>
            simp only [hamount] at h
            split_ifs at h with hzero
            · exact hlater w h
            · split at h
              · cases h
              · exact hlater _ h
              · obtain ⟨hpaid, _⟩ := Prod.mk.inj h
                refine ⟨token, List.mem_cons_self, by simpa using henabled, charged, hamount, ?_⟩
                exact (payment_eq_ok.mp hpaid).2.2

end Charge

namespace SixDecimals

/-- A token of six decimals at three halves of the native coin. -/
def token : FeeTokenMetadata := ⟨"uatom", "atom", 6, ⟨1500000000000000000⟩, true⟩

/-- One native coin and one base unit. -/
def amount : SdkInt := ⟨1000000000000000001, by norm_num⟩

def charged : SdkInt := ⟨1500000, by norm_num⟩

theorem amount_accurate : token.decimals ≤ 18 ∧ NoOverflow token amount ∧
    amountEquivalentInt token amount = .ok charged ∧ Accurate token amount charged := by
  have hfits : NoOverflow token amount := by
    unfold NoOverflow
    decide
  have hcharged : amountEquivalentInt token amount = .ok charged := by decide
  exact ⟨by decide, hfits, hcharged, (charge_accurate token amount (by decide) hfits).2 _ hcharged⟩

end SixDecimals

end Kiichain.FeeAbstraction
