import Kiichain.FeeConversion

/-!
# Deducting a converted fee

The decorator charges an allowance with the fee as it came, converts the fee and
deducts the result. The search for a token decides on whole balances, while the
deduction spends only what is not locked, and it stops at the first token with a
balance, a failing pair or a price that does not fit.
-/

namespace Kiichain.FeeAbstraction
open GoExec FixedPoint FirstMatch

/-- A transaction with a fee, over the messages `M` of the application. -/
structure FeeTx (M : Type) where
  gas : ℕ
  fee : List Coin
  feePayer : String
  feeGranter : Option String
  msgs : List M

/-- The keepers of the decorator beside those of the conversion. The keeper of fee
grants may be missing, and an account is known by its address. -/
structure DeductKeepers (W M : Type) where
  feeCollector : W → Option String
  hasAccount : W → String → Bool
  useGrantedFees : Option (W → String → String → List Coin → List M → Exec Unit × W)
  txFeeChecker : W → FeeTx M → Exec (List Coin × ℤ)
  deductFees : W → String → List Coin → Exec Unit × W

/-- The coins charged to an allowance, if any, and those deducted from the account. -/
structure Charged where
  granted : Option (List Coin)
  account : String
  deducted : List Coin
deriving DecidableEq

variable {W M : Type}

section Decorator

variable (k : FeeKeepers W) (s : State) (d : DeductKeepers W M)

/-- The account to deduct from, after the allowance of a granter was charged. -/
def deductFeesFrom (tx : FeeTx M) (fee : List Coin) (w : W) :
    Exec (String × Option (List Coin)) × W :=
  match tx.feeGranter with
  | none => (.ok (tx.feePayer, none), w)
  | some feeGranter =>
    match d.useGrantedFees with
    | none => (fail "fee grants are not enabled: invalid request", w)
    | some useGrantedFees =>
      if feeGranter = tx.feePayer then (.ok (feeGranter, none), w)
      else
        let (result, w') := useGrantedFees w feeGranter tx.feePayer fee tx.msgs
        ((wrapped "%s does not allow to pay fees for %s: " result).map
          (fun _ => (feeGranter, some fee)), w')

def checkDeductFee (tx : FeeTx M) (fee : List Coin) (w : W) : Exec Charged × W :=
  match d.feeCollector w with
  | none => (fail "fee collector module account (%s) has not been set", w)
  | some _ =>
    match deductFeesFrom d tx fee w with
    | (.error e, w) => (.error e, w)
    | (.ok (account, granted), w) =>
      if d.hasAccount w account = false then
        (fail "fee payer address: %s does not exist: unknown address", w)
      else if ∀ coin ∈ fee, coin.isZero = true then (.ok ⟨granted, account, []⟩, w)
      else
        match convertNativeFee k s account fee w with
        | (.error e, w) => (.error e, w)
        | (.ok convertedFee, w) =>
          let (result, w') := d.deductFees w account convertedFee
          (result.map (fun _ => ⟨granted, account, convertedFee⟩), w')

/-- The fee of a simulation is the one that the transaction offers. -/
def checkedFee (simulate : Bool) (tx : FeeTx M) (w : W) : Exec (List Coin × ℤ) :=
  if simulate then .ok (tx.fee, 0) else d.txFeeChecker w tx

/-- What is charged where the decorator accepts the transaction, with its priority. -/
def deductFeeAnteHandle (blockHeight : ℕ) (simulate : Bool) (tx : FeeTx M) (w : W) :
    Exec (Charged × ℤ) × W :=
  if simulate = false ∧ 0 < blockHeight ∧ tx.gas = 0 then
    (fail "must provide positive gas: invalid gas limit", w)
  else
    match checkedFee d simulate tx w with
    | .error e => (.error e, w)
    | .ok (fee, priority) =>
      let (result, w') := checkDeductFee k s d tx fee w
      (result.map (fun charged => (charged, priority)), w')

end Decorator

section Spendable

variable (k : FeeKeepers W) (locked : W → String → String → ℕ)

/-- What an account may spend: its balance without what vesting locks. -/
def spendable (w : W) (account denom : String) : ℕ :=
  k.getBalance w account denom - locked w account denom

/-- A conversion leaves the schedule of a vesting account. -/
def KeepsLocked : Prop :=
  ∀ w msg w', k.convertERC20 w msg = (.ok (), w') →
    ∀ account denom, locked w' account denom = locked w account denom

/-- One coin is deducted exactly where the account may spend it. -/
def DeductsSpendable (d : DeductKeepers W M) : Prop :=
  ∀ w account coin, Returns (d.deductFees w account [coin]).1 ↔
    coin.amount.val ≤ spendable k locked w account coin.denom

theorem spendable_le (w : W) (account denom : String) :
    spendable k locked w account denom ≤ k.getBalance w account denom := Nat.sub_le _ _

variable (s : State) (d : DeductKeepers W M) (account : String) (w : W) (fee : Coin)

/-- The token can pay: from what the payer may spend, or by a conversion that would
succeed. -/
def Payable (token : FeeTokenMetadata) : Prop :=
  token.enabled = true ∧ ∃ amount, amountEquivalentInt token fee.amount = .ok amount ∧
    amount.val ≠ 0 ∧ (amount.val ≤ spendable k locked w account token.denom ∨
      ∃ pair w', tokenPair k token.denom w = some pair ∧
        hasErc20Balance k account pair amount w ∧
        k.convertERC20 w (newMsgConvertERC20 k account amount pair) = (.ok (), w'))

/-- The conversion of the fee succeeds, and so does the deduction of what it returns. -/
def Paid : Prop :=
  ∃ coins w', convertNativeFee k s account [fee] w = (.ok coins, w') ∧
    Returns (d.deductFees w' account coins).1

/-- A payer with a payable token pays. -/
def Complete : Prop := (∃ token ∈ s.feeTokens, Payable k locked account w fee token) →
  Paid k s d account w fee

/-- The balance on which the search ends may be spent: that of the fee itself, or of
the first token that ends the search, in the bank or after its pair was converted. -/
inductive Clear : Prop
  | native (covered : hasSufficientNativeBalance k account fee w)
      (unlocked : fee.amount.val ≤ spendable k locked w account fee.denom)
  | bank (token : FeeTokenMetadata) (amount : SdkInt)
      (short : ¬ hasSufficientNativeBalance k account fee w)
      (first : IsFirst (Stops k account w fee) s.feeTokens token)
      (amount_eq : amountEquivalentInt token fee.amount = .ok amount)
      (coin : validDenom token.denom = true ∧ 0 ≤ amount.val)
      (unlocked : amount.val ≤ spendable k locked w account token.denom)
  | erc20 (token : FeeTokenMetadata) (amount : SdkInt) (pair : TokenPair) (w' : W)
      (short : ¬ hasSufficientNativeBalance k account fee w)
      (unwraps : Unwraps k s account w fee token amount pair)
      (coin : validDenom token.denom = true ∧ 0 ≤ amount.val)
      (same : pair.denom = token.denom)
      (unlocked : locked w account token.denom ≤ k.getBalance w account token.denom)
      (converted : k.convertERC20 w (newMsgConvertERC20 k account amount pair) = (.ok (), w'))

variable {k locked s d account w fee}

/-- What is unwrapped of a pair may be spent where no coin is locked that is not
there. -/
theorem spendable_of_converted (law : ConvertsExactly k) (hlocked : KeepsLocked k locked)
    {token : FeeTokenMetadata} {amount : SdkInt} {pair : TokenPair} {w' : W}
    (hpair : tokenPair k token.denom w = some pair) (hpos : 0 < amount.val)
    (huncovered : ¬ amount.val ≤ k.getBalance w account token.denom)
    (hconvert : k.convertERC20 w (newMsgConvertERC20 k account amount pair) = (.ok (), w')) :
    amount.val ≤ spendable k locked w' account token.denom ↔
      pair.denom = token.denom ∧
        locked w account token.denom ≤ k.getBalance w account token.denom := by
  have hkept := hlocked w _ w' hconvert account token.denom
  unfold spendable
  rw [hkept]
  by_cases hsame : pair.denom = token.denom
  · have hpaid : (k.getBalance w' account pair.denom : ℤ) =
        k.getBalance w account pair.denom + amount.val := law.paid w _ w' _ pair hconvert hpair rfl
    rw [hsame] at hpaid
    rw [and_iff_right hsame]
    omega
  · have hspared : k.getBalance w' account token.denom = k.getBalance w account token.denom :=
      law.spared w _ w' _ pair hconvert hpair rfl token.denom (Ne.symm hsame)
    rw [hspared]
    constructor
    · intro h
      omega
    · exact fun h => absurd h.1 hsame

variable (k account w) in
/-- Nothing but the native balance decides whether a fee passes as it is. -/
theorem passesThrough_iff (henabled : s.params.enabled = true)
    (hdenom : fee.denom = s.params.nativeDenom) (hpos : fee.isZero = false) :
    PassesThrough k s account w [fee] ↔ hasSufficientNativeBalance k account fee w := by
  constructor
  · rintro (hdisabled | hzero | hlength | ⟨fee', hfee, hother⟩)
    · exact absurd (henabled.symm.trans hdisabled) (by decide)
    · exact absurd (hpos.symm.trans (hzero fee List.mem_cons_self)) (by decide)
    · exact absurd rfl hlength
    · obtain rfl := (List.cons.inj hfee).1
      exact hother.resolve_left (not_not.mpr hdenom)
  · exact fun h => Or.inr (Or.inr (Or.inr ⟨fee, rfl, Or.inr h⟩))

/-- A search that ends in a payment that is deducted ends on what may be spent. -/
theorem clear_of_outcome (law : ConvertsExactly k) (hlocked : KeepsLocked k locked)
    (hdeducts : DeductsSpendable k locked d) (hshort : ¬ hasSufficientNativeBalance k account fee w)
    {p : List Coin × LegacyDec} {w' : W} (h : Outcome k s account w fee (.ok p, w'))
    (hdeduct : Returns (d.deductFees w' account p.1).1) : Clear k locked s account w fee := by
  generalize hr : (Except.ok p : Exec (List Coin × LegacyDec)) = r at h
  cases h with
  | none text _ => cases hr
  | fault token e first fault => cases hr
  | failed token amount pair e w' unwraps refused => cases hr
  | bank token amount first amount_eq covered =>
      obtain ⟨hvalid, hnonneg, rfl⟩ := payment_eq_ok.mp hr.symm
      exact .bank token amount hshort first amount_eq ⟨hvalid, hnonneg⟩
        ((hdeducts w account ⟨token.denom, amount⟩).mp hdeduct)
  | unwrapped token amount pair w' unwraps converted =>
      obtain ⟨hvalid, hnonneg, rfl⟩ := payment_eq_ok.mp hr.symm
      have hzero := (unwraps.first.holds.2 amount unwraps.amount_eq).1
      obtain ⟨hsame, hunlocked⟩ := (spendable_of_converted law hlocked unwraps.pair_eq
        (lt_of_le_of_ne hnonneg (Ne.symm hzero)) unwraps.uncovered converted).mp
          ((hdeducts w' account ⟨token.denom, amount⟩).mp hdeduct)
      exact .erc20 token amount pair w' hshort unwraps ⟨hvalid, hnonneg⟩ hsame hunlocked converted

theorem search_of_bank {token : FeeTokenMetadata} {amount : SdkInt}
    (first : IsFirst (Stops k account w fee) s.feeTokens token)
    (amount_eq : amountEquivalentInt token fee.amount = .ok amount)
    (covered : amount.val ≤ k.getBalance w account token.denom) :
    convertERC20ForFees k account fee s.feeTokens w = (payment token amount, w) := by
  obtain ⟨rest, hrest⟩ := search_from_first first
  rw [hrest]
  exact search_bank rest first.holds.1 amount_eq (first.holds.2 amount amount_eq).1 covered

theorem search_of_converted {token : FeeTokenMetadata} {amount : SdkInt} {pair : TokenPair} {w' : W}
    (unwraps : Unwraps k s account w fee token amount pair)
    (converted : k.convertERC20 w (newMsgConvertERC20 k account amount pair) = (.ok (), w')) :
    convertERC20ForFees k account fee s.feeTokens w = (payment token amount, w') := by
  obtain ⟨rest, hrest⟩ := search_from_first unwraps.first
  obtain ⟨henabled, hstop⟩ := unwraps.first.holds
  rw [hrest, search_erc20 rest henabled unwraps.amount_eq (hstop amount unwraps.amount_eq).1
    unwraps.uncovered unwraps.pair_eq unwraps.held, converted]

variable (law : ConvertsExactly k) (hlocked : KeepsLocked k locked)
  (hdeducts : DeductsSpendable k locked d) (henabled : s.params.enabled = true)
  (hdenom : fee.denom = s.params.nativeDenom) (hpos : fee.isZero = false)
include law hlocked hdeducts henabled hdenom hpos

theorem clear_of_paid (h : Paid k s d account w fee) : Clear k locked s account w fee := by
  obtain ⟨coins, w', hconvert, hdeduct⟩ := h
  have hpasses := passesThrough_iff k account w henabled hdenom hpos
  by_cases hnative : hasSufficientNativeBalance k account fee w
  · rw [convertNativeFee_of_passes (hpasses.mpr hnative)] at hconvert
    cases hconvert
    exact .native hnative ((hdeducts w account fee).mp hdeduct)
  · obtain ⟨fee', r, w₁, hfee, houtcome, hresult⟩ := exists_outcome (mt hpasses.mp hnative)
    obtain rfl := (List.cons.inj hfee).1
    rw [hresult, Prod.mk.injEq, map_eq_ok] at hconvert
    obtain ⟨⟨p, rfl, rfl⟩, rfl⟩ := hconvert
    exact clear_of_outcome law hlocked hdeducts hnative houtcome hdeduct

theorem paid_of_clear (h : Clear k locked s account w fee) : Paid k s d account w fee := by
  have hpasses := passesThrough_iff k account w henabled hdenom hpos
  have hsearch : ¬ hasSufficientNativeBalance k account fee w → ∀ token amount w',
      convertERC20ForFees k account fee s.feeTokens w = (payment token amount, w') →
      validDenom token.denom = true ∧ 0 ≤ amount.val →
      amount.val ≤ spendable k locked w' account token.denom → Paid k s d account w fee := by
    intro hshort token amount w' hend hcoin hspendable
    obtain ⟨fee', hfee, hresult⟩ := convertNativeFee_of_not_passes (mt hpasses.mp hshort)
    obtain rfl := (List.cons.inj hfee).1
    rw [hend, payment_eq_ok.mpr ⟨hcoin.1, hcoin.2, rfl⟩] at hresult
    exact ⟨_, w', hresult, (hdeducts w' account ⟨token.denom, amount⟩).mpr hspendable⟩
  cases h with
  | native covered unlocked =>
      exact ⟨[fee], w, convertNativeFee_of_passes (hpasses.mpr covered),
        (hdeducts w account fee).mpr unlocked⟩
  | bank token amount short first amount_eq coin unlocked =>
      have hcovered : amount.val ≤ k.getBalance w account token.denom :=
        unlocked.trans (by exact_mod_cast spendable_le k locked w account token.denom)
      exact hsearch short token amount w (search_of_bank first amount_eq hcovered) coin unlocked
  | erc20 token amount pair w' short unwraps coin same unlocked converted =>
      have hzero := (unwraps.first.holds.2 amount unwraps.amount_eq).1
      apply hsearch short token amount w' (search_of_converted unwraps converted) coin
      exact (spendable_of_converted law hlocked unwraps.pair_eq
        (lt_of_le_of_ne coin.2 (Ne.symm hzero)) unwraps.uncovered converted).mpr ⟨same, unlocked⟩

/-- A payer with a payable token pays exactly where the balance on which the search
ends may be spent. -/
theorem complete_iff : Complete k locked s d account w fee ↔
    ((∃ token ∈ s.feeTokens, Payable k locked account w fee token) →
      Clear k locked s account w fee) :=
  imp_congr_right fun _ => ⟨clear_of_paid law hlocked hdeducts henabled hdenom hpos,
    paid_of_clear law hlocked hdeducts henabled hdenom hpos⟩

end Spendable

section Granted

/-- How much of a denomination there is among some coins. -/
def totalOf (coins : List Coin) (denom : String) : ℤ :=
  ((coins.filter (fun coin => coin.denom = denom)).map (fun coin => coin.amount.val)).sum

def SameCoins (coins coins' : List Coin) : Prop := ∀ denom, totalOf coins denom = totalOf coins' denom

/-- What is deducted is what was checked against the allowance and charged to it. -/
def GrantBounds (charged : Charged) : Prop :=
  ∃ fee, charged.granted = some fee ∧ SameCoins fee charged.deducted

variable (k : FeeKeepers W) (s : State) (d : DeductKeepers W M)

/-- The use of an allowance takes nothing from the bank and changes no ERC-20. -/
def GrantsKeep : Prop :=
  ∀ useGrantedFees ∈ d.useGrantedFees, ∀ w granter grantee fee msgs w',
    useGrantedFees w granter grantee fee msgs = (.ok (), w') →
      k.getBalance w' = k.getBalance w ∧ k.getTokenPairID w' = k.getTokenPairID w ∧
        k.getTokenPair w' = k.getTokenPair w ∧ k.balanceOf w' = k.balanceOf w

/-- The fee passes as it is, or its search ends on the same coin. -/
def Unconverted (account : String) (fees : List Coin) (w : W) : Prop :=
  PassesThrough k s account w fees ∨
    ∃ fee token, fees = [fee] ∧ IsFirst (Stops k account w fee) s.feeTokens token ∧
      token.denom = fee.denom ∧ amountEquivalentInt token fee.amount = .ok fee.amount

variable {k s d}

theorem sameCoins_nil {coins : List Coin} (h : ∀ coin ∈ coins, coin.isZero = true) :
    SameCoins coins [] := by
  intro denom
  unfold totalOf
  apply List.sum_eq_zero
  intro x hx
  obtain ⟨coin, hcoin, rfl⟩ := List.mem_map.mp hx
  simpa [Coin.isZero] using h coin (List.mem_of_mem_filter hcoin)

/-- Single coins of some amount are the same only as a whole. -/
theorem sameCoins_singleton {coin coin' : Coin} (h : coin'.amount.val ≠ 0) :
    SameCoins [coin] [coin'] ↔ coin' = coin := by
  constructor
  · intro hsame
    have htotal := hsame coin'.denom
    simp only [totalOf, List.filter_cons, List.filter_nil, decide_true, if_true, List.map_cons,
      List.map_nil, List.sum_cons, List.sum_nil, add_zero, decide_eq_true_eq] at htotal
    split_ifs at htotal with hdenom
    · obtain ⟨denom, amount⟩ := coin
      obtain ⟨denom', amount'⟩ := coin'
      simp only [List.map_cons, List.map_nil, List.sum_cons, List.sum_nil, add_zero] at hdenom htotal
      rw [hdenom, BoundedInt.ext_val htotal]
    · exact absurd htotal.symm (by simpa using h)
  · rintro rfl
    exact fun _ => rfl

/-- The search depends on balances and pairs only. -/
theorem unconverted_congr {account : String} {fees : List Coin} {w w' : W}
    (hbalance : k.getBalance w' = k.getBalance w) (hid : k.getTokenPairID w' = k.getTokenPairID w)
    (hpair : k.getTokenPair w' = k.getTokenPair w) (herc20 : k.balanceOf w' = k.balanceOf w) :
    Unconverted k s account fees w' ↔ Unconverted k s account fees w := by
  have hstops : Stops k account w' = Stops k account w := by
    funext fee token
    simp only [Stops, Held, hasErc20Balance, tokenPair, hbalance, hid, hpair, herc20]
  simp only [Unconverted, PassesThrough, hasSufficientNativeBalance, hbalance, hstops]

variable {tx : FeeTx M} {granter : String} {fee : List Coin} {w w' : W}

/-- The allowance of a granter is charged with the fee as it is. -/
theorem deductFeesFrom_of_granter (hgranter : tx.feeGranter = some granter)
    (hne : granter ≠ tx.feePayer) {r : String × Option (List Coin)}
    (h : deductFeesFrom d tx fee w = (.ok r, w')) : r = (granter, some fee) ∧
      ∃ useGrantedFees ∈ d.useGrantedFees,
        useGrantedFees w granter tx.feePayer fee tx.msgs = (.ok (), w') := by
  unfold deductFeesFrom at h
  cases hgrants : d.useGrantedFees with
  | none =>
      rw [hgranter, hgrants] at h
      cases h
  | some useGrantedFees =>
      rw [hgranter, hgrants] at h
      simp only [if_neg hne, Prod.mk.injEq, map_eq_ok, wrapped_eq_ok] at h
      obtain ⟨⟨u, hused, rfl⟩, rfl⟩ := h
      exact ⟨rfl, useGrantedFees, rfl, Prod.ext hused rfl⟩

/-- What an accepted deduction from a granter has done. -/
theorem checkDeductFee_of_granter (hgranter : tx.feeGranter = some granter)
    (hne : granter ≠ tx.feePayer) {charged : Charged}
    (h : checkDeductFee k s d tx fee w = (.ok charged, w')) : charged.granted = some fee ∧
      ∃ useGrantedFees ∈ d.useGrantedFees, ∃ w₁,
        useGrantedFees w granter tx.feePayer fee tx.msgs = (.ok (), w₁) ∧
        ((∀ coin ∈ fee, coin.isZero = true) ∧ charged.deducted = [] ∨
          ∃ w₂, convertNativeFee k s granter fee w₁ = (.ok charged.deducted, w₂)) := by
  unfold checkDeductFee at h
  cases hcollector : d.feeCollector w with
  | none =>
      rw [hcollector] at h
      cases h
  | some collector =>
      rw [hcollector] at h
      rcases hfrom : deductFeesFrom d tx fee w with ⟨result, w₁⟩
      cases result with
      | error e =>
          simp only [hfrom] at h
          cases h
      | ok r =>
          obtain ⟨rfl, useGrantedFees, hmem, hused⟩ := deductFeesFrom_of_granter hgranter hne hfrom
          simp only [hfrom] at h
          split_ifs at h with haccount hzero
          · cases h
          · cases h
            exact ⟨rfl, useGrantedFees, hmem, _, hused, Or.inl ⟨hzero, rfl⟩⟩
          · generalize hconvert : convertNativeFee k s granter fee w₁ = converted at h
            obtain ⟨coins | coins, w₂⟩ := converted
            · cases h
            · simp only [Prod.mk.injEq, map_eq_ok] at h
              obtain ⟨⟨u, _, rfl⟩, _⟩ := h
              exact ⟨rfl, useGrantedFees, hmem, w₁, hused, Or.inr ⟨w₂, hconvert⟩⟩

/-- A conversion returns the coins that it was given exactly where it lets them pass
or ends on the same coin. -/
theorem sameCoins_converted_iff {account : String} {coins : List Coin}
    (h : convertNativeFee k s account fee w = (.ok coins, w')) :
    SameCoins fee coins ↔ Unconverted k s account fee w := by
  by_cases hpass : PassesThrough k s account w fee
  · rw [convertNativeFee_of_passes hpass] at h
    cases h
    exact iff_of_true (fun _ => rfl) (Or.inl hpass)
  · obtain ⟨coin, r, w₁, rfl, houtcome, hresult⟩ := exists_outcome hpass
    rw [hresult, Prod.mk.injEq, map_eq_ok] at h
    obtain ⟨⟨p, rfl, rfl⟩, rfl⟩ := h
    obtain ⟨token, amount, hfirst, hamount, hzero, hcoins⟩ : ∃ token amount,
        IsFirst (Stops k account w coin) s.feeTokens token ∧
        amountEquivalentInt token coin.amount = .ok amount ∧ amount.val ≠ 0 ∧
        p.1 = [⟨token.denom, amount⟩] := by
      generalize hr : (Except.ok p : Exec (List Coin × LegacyDec)) = r at houtcome
      cases houtcome with
      | none text _ => cases hr
      | fault token e first fault => cases hr
      | failed token amount pair e w' unwraps refused => cases hr
      | bank token amount first amount_eq covered =>
          obtain ⟨_, _, rfl⟩ := payment_eq_ok.mp hr.symm
          exact ⟨token, amount, first, amount_eq, (first.holds.2 amount amount_eq).1, rfl⟩
      | unwrapped token amount pair w' unwraps converted =>
          obtain ⟨_, _, rfl⟩ := payment_eq_ok.mp hr.symm
          exact ⟨token, amount, unwraps.first, unwraps.amount_eq,
            (unwraps.first.holds.2 amount unwraps.amount_eq).1, rfl⟩
    rw [hcoins, sameCoins_singleton hzero]
    constructor
    · rintro rfl
      exact Or.inr ⟨_, token, rfl, hfirst, rfl, hamount⟩
    · rintro (hpasses | ⟨coin', token', hcoin', hfirst', hdenom, hamount'⟩)
      · exact absurd hpasses hpass
      · obtain rfl := (List.cons.inj hcoin').1
        obtain rfl := hfirst.unique hfirst'
        rw [hamount] at hamount'
        cases hamount'
        rw [hdenom]

/-- Of an accepted transaction with another granter than the payer, the coins deducted
are those charged to the allowance exactly where the conversion leaves them as they are. -/
theorem grantBounds_iff (hkeep : GrantsKeep k d) (hgranter : tx.feeGranter = some granter)
    (hne : granter ≠ tx.feePayer) (blockHeight : ℕ) (simulate : Bool) {priority : ℤ}
    (hfee : checkedFee d simulate tx w = .ok (fee, priority)) {charged : Charged} {p : ℤ}
    (haccepted : deductFeeAnteHandle k s d blockHeight simulate tx w = (.ok (charged, p), w')) :
    GrantBounds charged ↔ Unconverted k s granter fee w := by
  unfold deductFeeAnteHandle at haccepted
  rw [hfee] at haccepted
  split_ifs at haccepted
  · cases haccepted
  · simp only [Prod.mk.injEq, map_eq_ok] at haccepted
    obtain ⟨⟨charged', hcharged, rfl, rfl⟩, _⟩ := haccepted
    obtain ⟨hgranted, useGrantedFees, hmem, w₁, hused, hdeducted⟩ :=
      checkDeductFee_of_granter hgranter hne (Prod.ext hcharged rfl)
    obtain ⟨hbalance, hid, hpair, herc20⟩ := hkeep useGrantedFees hmem w _ _ _ _ w₁ hused
    have hbounds : GrantBounds charged' ↔ SameCoins fee charged'.deducted := by
      simp [GrantBounds, hgranted]
    rw [hbounds, ← unconverted_congr hbalance hid hpair herc20]
    obtain ⟨hzero, hnil⟩ | ⟨w₂, hconvert⟩ := hdeducted
    · rw [hnil]
      exact iff_of_true (sameCoins_nil hzero) (Or.inl (Or.inr (Or.inl hzero)))
    · exact sameCoins_converted_iff hconvert

end Granted

namespace TwoCoins

/-- An account with two coins: vesting locks some of the native one, and an allowance
on it has a limit in the native one. -/
structure Purse where
  native : ℕ
  atom : ℕ
  vesting : ℕ
  allowance : ℕ
deriving DecidableEq

/-- No token has a pair. -/
def keepers : FeeKeepers Purse where
  getBalance w _ denom := if denom = "akii" then w.native else if denom = "uatom" then w.atom else 0
  getTokenPairID _ _ := []
  getTokenPair _ _ := none
  balanceOf _ _ _ := none
  convertERC20 w _ := (fail "token pair not found", w)
  bytesToAddress a := a

def locked (w : Purse) (_ denom : String) : ℕ := if denom = "akii" then w.vesting else 0

def useGrantedFees (w : Purse) (_ _ : String) (fee : List Coin) (_ : List Unit) : Exec Unit × Purse :=
  match fee with
  | [coin] =>
    if coin.denom = "akii" ∧ coin.amount.val ≤ w.allowance then
      (.ok (), { w with allowance := w.allowance - coin.amount.val.toNat })
    else (fail "fee limit exceeded", w)
  | _ => (fail "fee limit exceeded", w)

def deductFees (w : Purse) (account : String) (coins : List Coin) : Exec Unit × Purse :=
  match coins with
  | [coin] =>
    if coin.amount.val ≤ spendable keepers locked w account coin.denom then
      (.ok (), if coin.denom = "akii" then { w with native := w.native - coin.amount.val.toNat }
        else { w with atom := w.atom - coin.amount.val.toNat })
    else (fail "insufficient funds", w)
  | _ => (fail "insufficient funds", w)

def decorator : DeductKeepers Purse Unit where
  feeCollector _ := some "fee_collector"
  hasAccount _ _ := true
  useGrantedFees := some useGrantedFees
  txFeeChecker _ tx := .ok (tx.fee, 0)
  deductFees := deductFees

theorem convertsExactly : ConvertsExactly keepers := by
  refine ⟨fun w msg e w' h => ?_, fun w msg w' id pair h => ?_, fun w msg w' id pair h => ?_⟩
  · cases h
    rfl
  · cases h
  · cases h

theorem keepsLocked : KeepsLocked keepers locked := fun _ _ _ h => by cases h

theorem deductsSpendable : DeductsSpendable keepers locked decorator := by
  intro w account coin
  simp only [decorator, deductFees]
  by_cases h : coin.amount.val ≤ spendable keepers locked w account coin.denom
  · rw [if_pos h]
    exact iff_of_true (returns_ok _) h
  · rw [if_neg h]
    exact iff_of_false (not_returns_error _) h

theorem grantsKeep : GrantsKeep keepers decorator := by
  intro use huse w granter grantee fee msgs w' h
  cases huse
  unfold useGrantedFees at h
  split at h
  · split_ifs at h
    · cases h
      exact ⟨rfl, rfl, rfl, rfl⟩
    · cases h
  · cases h

def atom : FeeTokenMetadata := ⟨"uatom", "oracleuatom", 18, 1, true⟩

def state : State := ⟨defaultParams, [atom]⟩

def fee : Coin := ⟨"akii", ⟨50, by norm_num⟩⟩

def amount : SdkInt := ⟨50, by norm_num⟩

theorem amount_eq : amountEquivalentInt atom fee.amount = .ok amount := by decide

theorem atom_payable {w : Purse} (h : 50 ≤ w.atom) :
    Payable keepers locked "kii1payer" w fee atom := by
  refine ⟨rfl, amount, amount_eq, by decide, Or.inl ?_⟩
  change (50 : ℤ) ≤ ((w.atom - 0 : ℕ) : ℤ)
  omega

/-- Vesting coins cover the fee, so that no token is looked for, and cannot pay it. -/
theorem vesting_stuck : validateItems state.feeTokens = .ok () ∧
    ¬ Complete keepers locked state decorator "kii1payer" ⟨100, 100, 100, 0⟩ fee := by
  refine ⟨by decide, fun hcomplete => ?_⟩
  obtain ⟨coins, w', hconvert, hdeduct⟩ :=
    hcomplete ⟨atom, List.mem_singleton_self atom, atom_payable (by norm_num)⟩
  have hsame : convertNativeFee keepers state "kii1payer" [fee] ⟨100, 100, 100, 0⟩ =
      (.ok [fee], ⟨100, 100, 100, 0⟩) := by decide
  rw [hsame] at hconvert
  cases hconvert
  exact absurd ((deductsSpendable _ "kii1payer" fee).mp hdeduct) (by decide)

theorem atom_stops {w : Purse} {account : String} (h : 50 ≤ w.atom) :
    IsFirst (Stops keepers account w fee) state.feeTokens atom := by
  refine (isFirst_cons_of ⟨rfl, fun amount' hamount => ?_⟩).mpr rfl
  rw [amount_eq] at hamount
  cases hamount
  refine ⟨by decide, Or.inl ?_⟩
  change (50 : ℤ) ≤ (w.atom : ℤ)
  exact_mod_cast h

/-- Without native coins the payer pays with the token. -/
theorem atom_pays : Complete keepers locked state decorator "kii1payer" ⟨0, 100, 100, 0⟩ fee :=
  (complete_iff convertsExactly keepsLocked deductsSpendable rfl rfl (by decide)).mpr fun _ =>
    .bank atom amount (by decide) (atom_stops (by norm_num)) amount_eq (by decide) (by decide)

def tx : FeeTx Unit := ⟨1, [fee], "kii1payer", some "kii1granter", [()]⟩

/-- The allowance is charged in the native coin, and the granter pays with a token. -/
theorem other_coin_deducted : (deductFeeAnteHandle keepers state decorator 1 false tx
    ⟨0, 100, 0, 50⟩).1 = .ok (⟨some [fee], "kii1granter", [⟨"uatom", amount⟩]⟩, 0) ∧
    ¬ GrantBounds ⟨some [fee], "kii1granter", [⟨"uatom", amount⟩]⟩ := by
  refine ⟨by decide, ?_⟩
  rintro ⟨coins, hgranted, hsame⟩
  cases hgranted
  exact absurd (hsame "akii") (by decide)

/-- A granter with native coins pays what the allowance is charged with. -/
theorem same_coin_deducted : GrantBounds ⟨some [fee], "kii1granter", [fee]⟩ := by
  have hgranter : tx.feeGranter = some "kii1granter" := rfl
  have hother : "kii1granter" ≠ tx.feePayer := by decide
  have hfee : checkedFee decorator false tx ⟨100, 0, 0, 50⟩ = .ok ([fee], 0) := rfl
  have haccepted : deductFeeAnteHandle keepers state decorator 1 false tx ⟨100, 0, 0, 50⟩ =
      (.ok (⟨some [fee], "kii1granter", [fee]⟩, 0), ⟨50, 0, 0, 0⟩) := by decide
  apply (grantBounds_iff grantsKeep hgranter hother 1 false hfee haccepted).mpr
  exact Or.inl (Or.inr (Or.inr (Or.inr ⟨fee, rfl, Or.inr (by decide)⟩)))

end TwoCoins

end Kiichain.FeeAbstraction
