import Kiichain.FeeKeeper

/-!
# Fee prices in closed form

What one price update makes of each token, and exactly when it returns: the
sums of the window fit, and where a token has an average other than zero the
native price is not zero, the quotient fits and so does the upper clamp bound.
-/

namespace Kiichain.FeeAbstraction
open GoExec FixedPoint
open Oracle (OracleTwap Block)

section Clamp

/-- The raw quotient of two prices. -/
def quotient (base other : LegacyDec) : LegacyDec :=
  ⟨chop legacyFormat.scale
    ((base.raw * (legacyFormat.scale * legacyFormat.scale)).tdiv other.raw)⟩

def lowerBound (prevPrice clampFactor : LegacyDec) : LegacyDec :=
  ⟨chop legacyFormat.scale (prevPrice.raw * (legacyFormat.scale - clampFactor.raw))⟩

def upperBound (prevPrice clampFactor : LegacyDec) : LegacyDec :=
  ⟨chop legacyFormat.scale (prevPrice.raw * (legacyFormat.scale + clampFactor.raw))⟩

def clamped (prevPrice newPrice clampFactor : LegacyDec) : LegacyDec :=
  if prevPrice.raw = 0 ∨ clampFactor.raw = 0 then newPrice
  else if newPrice < lowerBound prevPrice clampFactor then lowerBound prevPrice clampFactor
  else if upperBound prevPrice clampFactor < newPrice then upperBound prevPrice clampFactor
  else newPrice

/-- The upper bound fits, where one is computed. -/
def ClampFits (prevPrice clampFactor : LegacyDec) : Prop :=
  prevPrice.raw ≠ 0 → clampFactor.raw ≠ 0 →
    Decimal.Fits legacyFormat (upperBound prevPrice clampFactor).raw

instance (prevPrice clampFactor : LegacyDec) : Decidable (ClampFits prevPrice clampFactor) :=
  inferInstanceAs (Decidable (_ → _))

theorem calculateTokenPrice_eq_ok {base other price : LegacyDec} (h : other.raw ≠ 0) :
    calculateTokenPrice base other = .ok price ↔
      base.raw ≠ 0 ∧ Decimal.Fits legacyFormat (quotient base other).raw ∧
        price = quotient base other := by
  simp only [calculateTokenPrice, bind_eq_ok, ensure_eq_ok, exists_and_left, exists_const,
    Decimal.quo_eq_ok, not_or]
  constructor
  · rintro ⟨⟨hbase, _⟩, _, hfits, rfl⟩
    exact ⟨hbase, hfits, rfl⟩
  · rintro ⟨hbase, hfits, rfl⟩
    exact ⟨⟨hbase, h⟩, h, hfits, rfl⟩

variable {clampFactor : LegacyDec} (h0 : 0 ≤ clampFactor.raw)
  (h1 : clampFactor.raw ≤ legacyFormat.scale)
include h0 h1

/-- The lower bound is not larger than the upper one, so it fits with it. -/
theorem lowerBound_fits {prevPrice : LegacyDec}
    (h : Decimal.Fits legacyFormat (upperBound prevPrice clampFactor).raw) :
    Decimal.Fits legacyFormat (lowerBound prevPrice clampFactor).raw := by
  apply lt_of_le_of_lt _ h
  simp only [lowerBound, upperBound, natAbs_chop, Int.natAbs_mul]
  apply halfEven_mono legacyFormat.scale_pos
  apply Nat.mul_le_mul_left
  omega

theorem clampPrice_eq_ok {prevPrice newPrice price : LegacyDec} :
    clampPrice prevPrice newPrice clampFactor = .ok price ↔
      ClampFits prevPrice clampFactor ∧ price = clamped prevPrice newPrice clampFactor := by
  unfold clampPrice clamped ClampFits
  by_cases hskip : prevPrice.raw = 0 ∨ clampFactor.raw = 0
  · rw [if_pos hskip, if_pos hskip, pure_eq_ok, Except.ok.injEq]
    have hvacuous : prevPrice.raw ≠ 0 → clampFactor.raw ≠ 0 →
        Decimal.Fits legacyFormat (upperBound prevPrice clampFactor).raw := by
      intro hprev hclamp
      exact absurd hskip (not_or.mpr ⟨hprev, hclamp⟩)
    rw [and_iff_right hvacuous]
    exact eq_comm
  · obtain ⟨hprev, hclamp⟩ := not_or.mp hskip
    have hbelow : (1 : LegacyDec).sub clampFactor = .ok ⟨legacyFormat.scale - clampFactor.raw⟩ := by
      apply Decimal.sub_eq_ok.mpr
      rw [Decimal.raw_one]
      refine ⟨?_, rfl⟩
      unfold Decimal.Fits
      rw [two_pow_bits]
      simp only [legacyFormat_scale] at h1 ⊢
      omega
    have habove : (1 : LegacyDec).add clampFactor = .ok ⟨legacyFormat.scale + clampFactor.raw⟩ := by
      apply Decimal.add_eq_ok.mpr
      rw [Decimal.raw_one]
      refine ⟨?_, rfl⟩
      unfold Decimal.Fits
      rw [two_pow_bits]
      simp only [legacyFormat_scale] at h1 ⊢
      omega
    have hlower : ∀ x, prevPrice.mul ⟨legacyFormat.scale - clampFactor.raw⟩ = .ok x ↔
        Decimal.Fits legacyFormat (lowerBound prevPrice clampFactor).raw ∧
          x = lowerBound prevPrice clampFactor := fun _ => Decimal.mul_eq_ok
    have hupper : ∀ x, prevPrice.mul ⟨legacyFormat.scale + clampFactor.raw⟩ = .ok x ↔
        Decimal.Fits legacyFormat (upperBound prevPrice clampFactor).raw ∧
          x = upperBound prevPrice clampFactor := fun _ => Decimal.mul_eq_ok
    rw [if_neg hskip, if_neg hskip, hbelow, ok_bind, habove]
    simp only [ok_bind, bind_eq_ok, hlower, hupper]
    constructor
    · rintro ⟨_, ⟨_, rfl⟩, _, ⟨hfits, rfl⟩, hprice⟩
      refine ⟨fun _ _ => hfits, ?_⟩
      split_ifs at hprice ⊢ <;> cases hprice <;> rfl
    · rintro ⟨hfits, rfl⟩
      have hfits := hfits hprev hclamp
      refine ⟨_, ⟨lowerBound_fits h0 h1 hfits, rfl⟩, _, ⟨hfits, rfl⟩, ?_⟩
      split_ifs <;> rfl

end Clamp

section Update

variable {p : Params} (hp : p.Valid) {prices : SortedMap String LegacyDec} {base : LegacyDec}

/-- The token that a price update leaves in place of this one. -/
def repriced (p : Params) (base price : LegacyDec) (token : FeeTokenMetadata) : FeeTokenMetadata :=
  if token.enabled = false then token
  else if price.raw = 0 then { token with enabled := false, price := 0 }
  else { token with price := clamped token.price (quotient base price) p.clampFactor }

/-- The price of an enabled token with an average other than zero can be had. -/
def Priceable (p : Params) (base price : LegacyDec) (token : FeeTokenMetadata) : Prop :=
  token.enabled = true → price.raw ≠ 0 →
    base.raw ≠ 0 ∧ Decimal.Fits legacyFormat (quotient base price).raw ∧
      ClampFits token.price p.clampFactor

include hp in
theorem updateToken_eq_ok {token token' : FeeTokenMetadata} :
    updateToken prices base p.clampFactor token = .ok token' ↔
      Priceable p base (oraclePrice prices token) token ∧
        token' = repriced p base (oraclePrice prices token) token := by
  unfold updateToken repriced Priceable
  by_cases henabled : token.enabled = false
  · rw [if_pos henabled, if_pos henabled, pure_eq_ok, Except.ok.injEq, and_iff_right]
    · exact eq_comm
    · intro hon
      rw [henabled] at hon
      cases hon
  · have hon : token.enabled = true := by simpa using henabled
    rw [if_neg henabled, if_neg henabled]
    by_cases hzero : (oraclePrice prices token).raw = 0
    · rw [if_pos hzero, if_pos hzero, pure_eq_ok, Except.ok.injEq, and_iff_right]
      · exact eq_comm
      · exact fun _ hne => absurd hzero hne
    · rw [if_neg hzero, if_neg hzero]
      simp only [bind_eq_ok, invalidRequest_eq_ok, calculateTokenPrice_eq_ok hzero,
        clampPrice_eq_ok hp.clampFactor_nonneg hp.clampFactor_le_one, pure_eq_ok, Except.ok.injEq]
      constructor
      · rintro ⟨_, ⟨hbase, hfits, rfl⟩, _, ⟨hclamp, rfl⟩, rfl⟩
        exact ⟨fun _ _ => ⟨hbase, hfits, hclamp⟩, rfl⟩
      · rintro ⟨hpriceable, rfl⟩
        obtain ⟨hbase, hfits, hclamp⟩ := hpriceable hon hzero
        exact ⟨_, ⟨hbase, hfits, rfl⟩, _, ⟨hclamp, rfl⟩, rfl⟩

include hp in
theorem foldlM_updateToken {l acc l' : List FeeTokenMetadata} :
    l.foldlM (fun updateTokens token => do
        let token ← updateToken prices base p.clampFactor token
        pure (updateTokens ++ [token])) acc = .ok l' ↔
      (∀ token ∈ l, Priceable p base (oraclePrice prices token) token) ∧
        l' = acc ++ l.map (fun token => repriced p base (oraclePrice prices token) token) := by
  induction l generalizing acc with
  | nil =>
      simp only [List.foldlM_nil, pure_eq_ok, Except.ok.injEq, List.map_nil, List.append_nil]
      simp [eq_comm]
  | cons token l ih =>
      simp only [List.foldlM_cons, bind_eq_ok, pure_eq_ok, Except.ok.injEq, updateToken_eq_ok hp]
      constructor
      · rintro ⟨_, ⟨_, ⟨hfirst, rfl⟩, rfl⟩, hrest⟩
        obtain ⟨hall, rfl⟩ := ih.mp hrest
        refine ⟨?_, by simp⟩
        simp only [List.forall_mem_cons]
        exact ⟨hfirst, hall⟩
      · rintro ⟨hall, rfl⟩
        simp only [List.forall_mem_cons] at hall
        refine ⟨_, ⟨_, ⟨hall.1, rfl⟩, rfl⟩, ih.mpr ⟨hall.2, by simp⟩⟩

include hp in
theorem calculatePriceTokens_eq_ok {l l' : List FeeTokenMetadata} :
    calculatePriceTokens prices base p.clampFactor l = .ok l' ↔
      (∀ token ∈ l, Priceable p base (oraclePrice prices token) token) ∧
        l' = l.map (fun token => repriced p base (oraclePrice prices token) token) :=
  foldlM_updateToken hp

end Update

section Window

variable (blk : Block) (oracle : Oracle.State) (p : Params)

/-- The average of a denomination over the window, zero without samples. -/
def averageIn (denom : String) : LegacyDec :=
  (Oracle.twapIn blk oracle p.twapLookbackWindow denom).twap

/-- The average of the native denomination where it has samples in the window,
and otherwise the fallback. -/
def nativePrice : LegacyDec :=
  if Oracle.samplesIn blk oracle p.twapLookbackWindow p.nativeOracleDenom = [] then
    p.fallbackNativePrice
  else averageIn blk oracle p p.nativeOracleDenom

variable {blk oracle p}

theorem averageIn_of_nil {denom : String}
    (h : Oracle.samplesIn blk oracle p.twapLookbackWindow denom = []) :
    averageIn blk oracle p denom = 0 := by
  simp [averageIn, Oracle.twapIn, Oracle.weighed, h, Oracle.denomTwap]

/-- The price map has the averages of the denominations with samples. -/
theorem get?_twapPriceMap {twaps : List OracleTwap}
    (h : defaulted (Oracle.calculateTwaps blk oracle p.twapLookbackWindow) [] = .ok twaps)
    (denom : String) : (twapPriceMap twaps).get? denom =
      if Oracle.samplesIn blk oracle p.twapLookbackWindow denom = [] then none
      else some (averageIn blk oracle p denom) := by
  obtain ⟨l, rfl, hmem⟩ := Oracle.twaps_eq h
  rw [twapPriceMap, List.foldl_map]
  change (l.foldl (fun (m : SortedMap String LegacyDec) d => m.insert d (averageIn blk oracle p d))
    ∅).get? denom = _
  rw [SortedMap.foldl_insert_get?]
  by_cases hd : Oracle.samplesIn blk oracle p.twapLookbackWindow denom = []
  · rw [if_neg (by rw [hmem]; exact not_not.mpr hd), if_pos hd]
    rfl
  · rw [if_pos ((hmem denom).mpr hd), if_neg hd]

theorem oraclePrice_eq {twaps : List OracleTwap}
    (h : defaulted (Oracle.calculateTwaps blk oracle p.twapLookbackWindow) [] = .ok twaps)
    (token : FeeTokenMetadata) :
    oraclePrice (twapPriceMap twaps) token = averageIn blk oracle p token.oracleDenom := by
  rw [oraclePrice, get?_twapPriceMap h]
  split_ifs with hnil
  · rw [averageIn_of_nil hnil]
    rfl
  · rfl

theorem baseTokenPrice_eq {twaps : List OracleTwap}
    (h : defaulted (Oracle.calculateTwaps blk oracle p.twapLookbackWindow) [] = .ok twaps) :
    baseTokenPrice p (twapPriceMap twaps) = nativePrice blk oracle p := by
  rw [baseTokenPrice, get?_twapPriceMap h, nativePrice]
  split_ifs <;> rfl

end Window

section BeginBlocker

variable {blk : Block} {oracle : Oracle.State} {s t : State} (hs : s.params.Valid)

/-- The tokens after a price update. -/
def repricedTokens (blk : Block) (oracle : Oracle.State) (s : State) : List FeeTokenMetadata :=
  s.feeTokens.map (fun token => repriced s.params (nativePrice blk oracle s.params)
    (averageIn blk oracle s.params token.oracleDenom) token)

/-- Every enabled token with an average other than zero can be priced. -/
def AllPriceable (blk : Block) (oracle : Oracle.State) (s : State) : Prop :=
  ∀ token ∈ s.feeTokens, Priceable s.params (nativePrice blk oracle s.params)
    (averageIn blk oracle s.params token.oracleDenom) token

include hs

theorem calculateFeeTokenPrices_eq_ok : calculateFeeTokenPrices blk oracle s = .ok t ↔
    Oracle.WindowFits blk oracle s.params.twapLookbackWindow ∧ AllPriceable blk oracle s ∧
      t = { s with feeTokens := repricedTokens blk oracle s } := by
  rw [← Oracle.returns_calculateTwaps_iff]
  simp only [calculateFeeTokenPrices, bind_eq_ok, calculatePriceTokens_eq_ok hs,
    pure_eq_ok, Except.ok.injEq]
  constructor
  · rintro ⟨twaps, htwaps, _, ⟨hall, rfl⟩, rfl⟩
    simp only [oraclePrice_eq htwaps, baseTokenPrice_eq htwaps] at hall ⊢
    exact ⟨⟨twaps, htwaps⟩, hall, rfl⟩
  · rintro ⟨⟨twaps, htwaps⟩, hall, rfl⟩
    refine ⟨twaps, htwaps, _, ⟨?_, rfl⟩, ?_⟩
    · simp only [oraclePrice_eq htwaps, baseTokenPrice_eq htwaps]
      exact hall
    · simp only [oraclePrice_eq htwaps, baseTokenPrice_eq htwaps]
      rfl

/-- The begin blocker rests while the module is disabled, and otherwise leaves
the repriced tokens. -/
theorem beginBlocker_eq_ok : beginBlocker blk oracle s = .ok t ↔
    if s.params.enabled = false then t = s
    else Oracle.WindowFits blk oracle s.params.twapLookbackWindow ∧ AllPriceable blk oracle s ∧
      t = { s with feeTokens := repricedTokens blk oracle s } := by
  unfold beginBlocker
  split_ifs
  · rw [pure_eq_ok, Except.ok.injEq]
    exact eq_comm
  · exact calculateFeeTokenPrices_eq_ok hs

theorem returns_beginBlocker_iff : Returns (beginBlocker blk oracle s) ↔
    (s.params.enabled = true →
      Oracle.WindowFits blk oracle s.params.twapLookbackWindow ∧ AllPriceable blk oracle s) := by
  simp only [Returns, beginBlocker_eq_ok hs]
  cases s.params.enabled <;> simp

/-- A price update keeps the parameters. -/
theorem params_beginBlocker (h : beginBlocker blk oracle s = .ok t) : t.params = s.params := by
  have hcases := (beginBlocker_eq_ok hs).mp h
  split_ifs at hcases
  · rw [hcases]
  · rw [hcases.2.2]

end BeginBlocker

end Kiichain.FeeAbstraction
