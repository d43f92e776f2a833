import Kiichain.FeeKeeper
import Kiichain.FirstMatch

/-!
# Paying the fee with another token

A fee in the native denomination that the payer cannot cover is converted to the
first enabled token that the payer holds, in the bank or as an ERC-20. The bank
and the ERC-20 keeper enter as parameters over their own state. What is unwrapped
is a coin of the token pair, which need not be the fee token.
-/

namespace Kiichain.FeeAbstraction
open GoExec FixedPoint FirstMatch

structure TokenPair where
  erc20Address : String
  denom : String
deriving DecidableEq

structure MsgConvertERC20 where
  amount : SdkInt
  receiver : String
  contractAddress : String
  sender : String
deriving DecidableEq

/-- What the conversion uses of the bank and of the ERC-20 keeper, over their
state `W`. An address is taken for its last twenty bytes by the EVM. -/
structure FeeKeepers (W : Type) where
  getBalance : W → String → String → ℕ
  getTokenPairID : W → String → List UInt8
  getTokenPair : W → List UInt8 → Option TokenPair
  balanceOf : W → String → String → Option ℕ
  convertERC20 : W → MsgConvertERC20 → Exec Unit × W
  bytesToAddress : String → String

variable {W : Type}

section Amounts

/-- The squarings of a power from the second bit on. -/
def powerLoop : ℕ → ℕ → LegacyDec → LegacyDec → Exec LegacyDec
  | 0, _, d, tmp => d.mul tmp
  | fuel + 1, i, d, tmp =>
    if 1 < i then do
      let tmp ← if i % 2 ≠ 0 then tmp.mul d else pure tmp
      let d ← d.mul d
      powerLoop fuel (i / 2) d tmp
    else d.mul tmp

/-- The exponent bounds the number of its halvings. -/
def power (d : LegacyDec) (n : ℕ) : Exec LegacyDec :=
  if n = 0 then pure 1 else powerLoop n n d 1

def baseDenomUnit : ℕ := 18

def calculateTokenAmountWithDecimals (price : LegacyDec) (amountAtMinimal : SdkInt)
    (decimalsBase decimalsOther : ℕ) : Exec LegacyDec := do
  ensure (¬ (decimalsBase = 0 ∨ decimalsOther = 0)) (.error "invalid decimals: must be > 0")
  if amountAtMinimal.val = 0 ∨ price.raw = 0 then pure 0
  else do
    let unitBase ← power (.ofInt 10) decimalsBase
    let amountFull ← (Decimal.ofInt amountAtMinimal.val : LegacyDec).quo unitBase
    let amountInOtherFull ← amountFull.mul price
    let unitOther ← power (.ofInt 10) decimalsOther
    amountInOtherFull.mul unitOther

/-- The fee in units of a token. -/
def amountEquivalentInt (feePrice : FeeTokenMetadata) (amount : SdkInt) : Exec SdkInt := do
  let amountEquivalent ← calculateTokenAmountWithDecimals feePrice.price amount baseDenomUnit
    feePrice.decimals
  amountEquivalent.roundInt 256

end Amounts

section Conversion

variable (k : FeeKeepers W) (s : State) (account : String)

def hasSufficientNativeBalance (fee : Coin) (w : W) : Prop :=
  fee.amount.val ≤ k.getBalance w account fee.denom

instance (fee : Coin) (w : W) : Decidable (hasSufficientNativeBalance k account fee w) :=
  inferInstanceAs (Decidable (_ ≤ _))

def tokenPair (denom : String) (w : W) : Option TokenPair :=
  k.getTokenPair w (k.getTokenPairID w denom)

def newMsgConvertERC20 (amount : SdkInt) (pair : TokenPair) : MsgConvertERC20 :=
  ⟨amount, account, pair.erc20Address, k.bytesToAddress account⟩

/-- The ERC-20 balance is enough; a call that fails has none. -/
def hasErc20Balance (pair : TokenPair) (amount : SdkInt) (w : W) : Prop :=
  ∃ b ∈ k.balanceOf w pair.erc20Address (k.bytesToAddress account), amount.val ≤ (b : ℤ)

instance (pair : TokenPair) (amount : SdkInt) (w : W) :
    Decidable (hasErc20Balance k account pair amount w) :=
  decidable_of_iff ((k.balanceOf w pair.erc20Address (k.bytesToAddress account)).any
    (fun b => decide (amount.val ≤ (b : ℤ))) = true) <| by
      unfold hasErc20Balance
      cases k.balanceOf w pair.erc20Address (k.bytesToAddress account) <;> simp

/-- Whether the payer can pay, and the state after the payer's ERC-20 was unwrapped
where that was needed. -/
def convertERC20ToNative (denom : String) (amount : SdkInt) (w : W) : Exec Bool × W :=
  if amount.val ≤ k.getBalance w account denom then (.ok true, w)
  else
    match tokenPair k denom w with
    | none => (.ok false, w)
    | some pair =>
      if hasErc20Balance k account pair amount w then
        match k.convertERC20 w (newMsgConvertERC20 k account amount pair) with
        | (.ok _, w') => (.ok true, w')
        | (.error e, w') => (.error e, w')
      else (.ok false, w)

/-- The fee in the first token that can pay it, with the token's price. -/
def convertERC20ForFees (fee : Coin) :
    List FeeTokenMetadata → W → Exec (List Coin × LegacyDec) × W
  | [], w => (fail "insufficient funds for fee or no suitable pair found for amount %s", w)
  | feePrice :: rest, w =>
    if feePrice.enabled = false then convertERC20ForFees fee rest w
    else
      match amountEquivalentInt feePrice fee.amount with
      | .error e => (.error e, w)
      | .ok amount =>
        if amount.val = 0 then convertERC20ForFees fee rest w
        else
          match convertERC20ToNative k account feePrice.denom amount w with
          | (.error e, w') => (.error e, w')
          | (.ok false, w') => convertERC20ForFees fee rest w'
          | (.ok true, w') => (do
              let coin ← Coin.newCoin feePrice.denom amount
              pure ([coin], feePrice.price), w')

/-- The price goes to the event of the conversion only. -/
def convertNativeFee (fees : List Coin) (w : W) : Exec (List Coin) × W :=
  if s.params.enabled = false then (.ok fees, w)
  else if ∀ fee ∈ fees, fee.isZero = true then (.ok fees, w)
  else
    match fees with
    | [fee] =>
      if fee.denom ≠ s.params.nativeDenom then (.ok fees, w)
      else if hasSufficientNativeBalance k account fee w then (.ok fees, w)
      else
        let (newFee, w') := convertERC20ForFees k account fee s.feeTokens w
        (newFee.map Prod.fst, w')
    | _ => (.ok fees, w)

end Conversion

section Contract

variable (k : FeeKeepers W) (s : State) (account : String) (w : W)

/-- What `ConvertERC20` promises: a failed conversion changes nothing, and a
successful one pays the receiver its amount in the coin of the contract's pair,
and no other coin. -/
structure ConvertsExactly : Prop where
  failed : ∀ w msg e w', k.convertERC20 w msg = (.error e, w') → w' = w
  paid : ∀ w msg w' id pair, k.convertERC20 w msg = (.ok (), w') →
    k.getTokenPair w id = some pair → pair.erc20Address = msg.contractAddress →
    (k.getBalance w' msg.receiver pair.denom : ℤ) =
      k.getBalance w msg.receiver pair.denom + msg.amount.val
  spared : ∀ w msg w' id pair, k.convertERC20 w msg = (.ok (), w') →
    k.getTokenPair w id = some pair → pair.erc20Address = msg.contractAddress →
    ∀ denom, denom ≠ pair.denom →
      k.getBalance w' msg.receiver denom = k.getBalance w msg.receiver denom

/-- The fee is charged as it is. -/
def PassesThrough (fees : List Coin) : Prop :=
  s.params.enabled = false ∨ (∀ fee ∈ fees, fee.isZero = true) ∨ fees.length ≠ 1 ∨
    ∃ fee, fees = [fee] ∧
      (fee.denom ≠ s.params.nativeDenom ∨ hasSufficientNativeBalance k account fee w)

/-- The payer holds the amount, in the bank or as an ERC-20 of the token's pair. -/
def Held (denom : String) (amount : SdkInt) : Prop :=
  amount.val ≤ k.getBalance w account denom ∨
    ∃ pair, tokenPair k denom w = some pair ∧ hasErc20Balance k account pair amount w

def Affordable (fee : Coin) (token : FeeTokenMetadata) : Prop :=
  token.enabled = true ∧ ∃ amount, amountEquivalentInt token fee.amount = .ok amount ∧
    amount.val ≠ 0 ∧ Held k account w token.denom amount

/-- The search ends on the token: it is affordable, or its amount is a fault. -/
def Stops (fee : Coin) (token : FeeTokenMetadata) : Prop :=
  token.enabled = true ∧ ∀ amount, amountEquivalentInt token fee.amount = .ok amount →
    amount.val ≠ 0 ∧ Held k account w token.denom amount

/-- One coin of the first affordable token, which the payer can then pay from the
bank, after at most one conversion: of this token, and of this amount. -/
def Converted (fee : Coin) (coins : List Coin) (w' : W) : Prop :=
  ∃ token amount, IsFirst (Affordable k account w fee) s.feeTokens token ∧
    amountEquivalentInt token fee.amount = .ok amount ∧ coins = [⟨token.denom, amount⟩] ∧
    amount.val ≤ k.getBalance w' account token.denom ∧
    (w' = w ∨ ∃ pair, tokenPair k token.denom w = some pair ∧
      k.convertERC20 w (newMsgConvertERC20 k account amount pair) = (.ok (), w'))

/-- What a conversion of `fees` is to do. -/
structure Contract (fees : List Coin) : Prop where
  returned : ∀ coins w', convertNativeFee k s account fees w = (.ok coins, w') →
    PassesThrough k s account w fees ∧ coins = fees ∧ w' = w ∨
      ∃ fee, fees = [fee] ∧ Converted k s account w fee coins w'
  refused : ¬ PassesThrough k s account w fees →
    (∀ fee ∈ fees, ∀ token ∈ s.feeTokens, ¬ Affordable k account w fee token) →
    ∃ text, convertNativeFee k s account fees w = (fail text, w)
  undone : ∀ text w', convertNativeFee k s account fees w = (fail text, w') → w' = w

/-- The search ends on a token that the bank does not cover, but the ERC-20 of a
pair found under its denomination does. -/
structure Unwraps (fee : Coin) (token : FeeTokenMetadata) (amount : SdkInt) (pair : TokenPair) :
    Prop where
  first : IsFirst (Stops k account w fee) s.feeTokens token
  amount_eq : amountEquivalentInt token fee.amount = .ok amount
  uncovered : ¬ amount.val ≤ k.getBalance w account token.denom
  pair_eq : tokenPair k token.denom w = some pair
  held : hasErc20Balance k account pair amount w

/-- What is unwrapped is a coin of another denomination than the token's. -/
def Misdirected (fee : Coin) : Prop :=
  ∃ token amount pair w', Unwraps k s account w fee token amount pair ∧
    validDenom token.denom = true ∧ pair.denom ≠ token.denom ∧
    k.convertERC20 w (newMsgConvertERC20 k account amount pair) = (.ok (), w')

/-- No token is affordable, and the search ends on one whose amount overflows. -/
def Overflowed (fee : Coin) : Prop :=
  (∀ token ∈ s.feeTokens, ¬ Affordable k account w fee token) ∧
    ∃ token text, IsFirst (Stops k account w fee) s.feeTokens token ∧
      amountEquivalentInt token fee.amount = panics text

end Contract

section Search

variable {k : FeeKeepers W} {s : State} {account : String} {w : W} {fee : Coin}

theorem stops_of_affordable {token : FeeTokenMetadata} (h : Affordable k account w fee token) :
    Stops k account w fee token := by
  obtain ⟨henabled, amount, hamount, hheld⟩ := h
  refine ⟨henabled, fun amount' hamount' => ?_⟩
  rw [hamount] at hamount'
  obtain rfl := Except.ok.inj hamount'
  exact hheld

theorem affordable_of_stops {token : FeeTokenMetadata} (h : Stops k account w fee token)
    {amount : SdkInt} (hamount : amountEquivalentInt token fee.amount = .ok amount) :
    Affordable k account w fee token :=
  ⟨h.1, amount, hamount, h.2 amount hamount⟩

theorem convertERC20ToNative_of_not_held {denom : String} {amount : SdkInt}
    (h : ¬ Held k account w denom amount) :
    convertERC20ToNative k account denom amount w = (.ok false, w) := by
  obtain ⟨hbank, herc20⟩ := not_or.mp h
  rw [convertERC20ToNative, if_neg hbank]
  cases hpair : tokenPair k denom w with
  | none => rfl
  | some pair =>
      dsimp only
      rw [if_neg fun hheld => herc20 ⟨pair, hpair, hheld⟩]

/-- A token that does not end the search leaves it the state. -/
theorem search_skip (token : FeeTokenMetadata) (rest : List FeeTokenMetadata)
    (h : ¬ Stops k account w fee token) :
    convertERC20ForFees k account fee (token :: rest) w =
      convertERC20ForFees k account fee rest w := by
  rw [convertERC20ForFees]
  by_cases henabled : token.enabled = false
  · rw [if_pos henabled]
  · rw [if_neg henabled]
    have hstuck := not_and.mp h (by simpa using henabled)
    obtain ⟨amount, hstuck⟩ := not_forall.mp hstuck
    obtain ⟨hamount, hheld⟩ := Classical.not_imp.mp hstuck
    rw [hamount]
    dsimp only
    split_ifs with hzero
    · rfl
    · rw [convertERC20ToNative_of_not_held fun hheld' => hheld ⟨hzero, hheld'⟩]

/-- The search goes on from the token on which it ends. -/
theorem search_from_first {token : FeeTokenMetadata}
    (h : IsFirst (Stops k account w fee) s.feeTokens token) :
    ∃ rest, convertERC20ForFees k account fee s.feeTokens w =
      convertERC20ForFees k account fee (token :: rest) w :=
  h.search_eq (f := fun l => convertERC20ForFees k account fee l w) (fun a l => search_skip a l)

/-- The one coin that the search returns for a token, and the token's price. -/
def payment (token : FeeTokenMetadata) (amount : SdkInt) : Exec (List Coin × LegacyDec) := do
  let coin ← Coin.newCoin token.denom amount
  pure ([coin], token.price)

theorem payment_eq_ok {token : FeeTokenMetadata} {amount : SdkInt} {r : List Coin × LegacyDec} :
    payment token amount = .ok r ↔ validDenom token.denom = true ∧ 0 ≤ amount.val ∧
      r = ([⟨token.denom, amount⟩], token.price) := by
  simp only [payment, bind_eq_ok, Coin.newCoin_eq_ok, pure_eq_ok, Except.ok.injEq]
  constructor
  · rintro ⟨_, ⟨hvalid, hpos, rfl⟩, rfl⟩
    exact ⟨hvalid, hpos, rfl⟩
  · rintro ⟨hvalid, hpos, rfl⟩
    exact ⟨_, ⟨hvalid, hpos, rfl⟩, rfl⟩

/-- A coin that cannot be made is a panic. -/
theorem payment_ne_fail {token : FeeTokenMetadata} {amount : SdkInt} {text : String} :
    payment token amount ≠ fail text := by
  unfold payment Coin.newCoin
  by_cases hdenom : validDenom token.denom = true
  · by_cases hpos : 0 ≤ amount.val
    · rw [ensure_of hdenom, ok_bind, ensure_of hpos]
      exact fun h => by cases h
    · rw [ensure_of hdenom, ok_bind, ensure_of_not hpos]
      exact fun h => by cases h
  · rw [ensure_of_not hdenom]
    exact fun h => by cases h

variable {token : FeeTokenMetadata} {amount : SdkInt}

theorem search_fault (rest : List FeeTokenMetadata) (henabled : token.enabled = true) {e : Fault}
    (hamount : amountEquivalentInt token fee.amount = .error e) :
    convertERC20ForFees k account fee (token :: rest) w = (.error e, w) := by
  rw [convertERC20ForFees, if_neg (by simp [henabled]), hamount]

theorem search_bank (rest : List FeeTokenMetadata) (henabled : token.enabled = true)
    (hamount : amountEquivalentInt token fee.amount = .ok amount) (hzero : amount.val ≠ 0)
    (hbank : amount.val ≤ k.getBalance w account token.denom) :
    convertERC20ForFees k account fee (token :: rest) w = (payment token amount, w) := by
  rw [convertERC20ForFees, if_neg (by simp [henabled]), hamount]
  dsimp only
  rw [if_neg hzero, convertERC20ToNative, if_pos hbank]
  rfl

/-- A token that is held as an ERC-20 only ends the search with a conversion. -/
theorem search_erc20 (rest : List FeeTokenMetadata) (henabled : token.enabled = true)
    (hamount : amountEquivalentInt token fee.amount = .ok amount) (hzero : amount.val ≠ 0)
    (hbank : ¬ amount.val ≤ k.getBalance w account token.denom) {pair : TokenPair}
    (hpair : tokenPair k token.denom w = some pair)
    (herc20 : hasErc20Balance k account pair amount w) :
    convertERC20ForFees k account fee (token :: rest) w =
      match k.convertERC20 w (newMsgConvertERC20 k account amount pair) with
      | (.ok _, w') => (payment token amount, w')
      | (.error e, w') => (.error e, w') := by
  rw [convertERC20ForFees, if_neg (by simp [henabled]), hamount]
  dsimp only
  rw [if_neg hzero, convertERC20ToNative, if_neg hbank, hpair]
  dsimp only
  rw [if_pos herc20]
  cases k.convertERC20 w (newMsgConvertERC20 k account amount pair) with
  | mk result w' => cases result <;> rfl

variable (k s account w fee) in
/-- How the search ends: on no token, on one whose amount is a fault, on one that
the bank covers, or on one whose ERC-20 is unwrapped, or fails to be. -/
inductive Outcome : Exec (List Coin × LegacyDec) × W → Prop
  | none (text : String) (h : ∀ token ∈ s.feeTokens, ¬ Stops k account w fee token) :
      Outcome (fail text, w)
  | fault (token : FeeTokenMetadata) (e : Fault)
      (first : IsFirst (Stops k account w fee) s.feeTokens token)
      (fault : amountEquivalentInt token fee.amount = .error e) : Outcome (.error e, w)
  | bank (token : FeeTokenMetadata) (amount : SdkInt)
      (first : IsFirst (Stops k account w fee) s.feeTokens token)
      (amount_eq : amountEquivalentInt token fee.amount = .ok amount)
      (covered : amount.val ≤ k.getBalance w account token.denom) :
      Outcome (payment token amount, w)
  | unwrapped (token : FeeTokenMetadata) (amount : SdkInt) (pair : TokenPair) (w' : W)
      (unwraps : Unwraps k s account w fee token amount pair)
      (converted : k.convertERC20 w (newMsgConvertERC20 k account amount pair) = (.ok (), w')) :
      Outcome (payment token amount, w')
  | failed (token : FeeTokenMetadata) (amount : SdkInt) (pair : TokenPair) (e : Fault) (w' : W)
      (unwraps : Unwraps k s account w fee token amount pair)
      (refused : k.convertERC20 w (newMsgConvertERC20 k account amount pair) = (.error e, w')) :
      Outcome (.error e, w')

variable (k s account w fee) in
theorem search_outcome :
    Outcome k s account w fee (convertERC20ForFees k account fee s.feeTokens w) := by
  by_cases hstops : ∃ token ∈ s.feeTokens, Stops k account w fee token
  · obtain ⟨token, hfirst⟩ := exists_isFirst hstops
    obtain ⟨rest, hrest⟩ := search_from_first hfirst
    rw [hrest]
    obtain ⟨henabled, hstop⟩ := hfirst.holds
    cases hamount : amountEquivalentInt token fee.amount with
    | error e =>
        rw [search_fault rest henabled hamount]
        exact .fault token e hfirst hamount
    | ok amount =>
        obtain ⟨hzero, hheld⟩ := hstop amount hamount
        by_cases hbank : amount.val ≤ k.getBalance w account token.denom
        · rw [search_bank rest henabled hamount hzero hbank]
          exact .bank token amount hfirst hamount hbank
        · obtain ⟨pair, hpair, herc20⟩ := hheld.resolve_left hbank
          rw [search_erc20 rest henabled hamount hzero hbank hpair herc20]
          have hunwraps : Unwraps k s account w fee token amount pair :=
            ⟨hfirst, hamount, hbank, hpair, herc20⟩
          cases hconvert : k.convertERC20 w (newMsgConvertERC20 k account amount pair) with
          | mk result w' =>
              cases result with
              | ok u => exact .unwrapped token amount pair w' hunwraps hconvert
              | error e => exact .failed token amount pair e w' hunwraps hconvert
  · have hnone : ∀ token ∈ s.feeTokens, ¬ Stops k account w fee token :=
      fun token hmem hstop => hstops ⟨token, hmem, hstop⟩
    rw [search_eq_nil (f := fun l => convertERC20ForFees k account fee l w)
      (fun a l => search_skip a l) hnone]
    exact .none _ hnone

end Search

section Passing

variable {k : FeeKeepers W} {s : State} {account : String} {w : W} {fees : List Coin}

theorem convertNativeFee_of_passes (h : PassesThrough k s account w fees) :
    convertNativeFee k s account fees w = (.ok fees, w) := by
  unfold convertNativeFee
  split_ifs with henabled hzero
  · rfl
  · rfl
  · obtain hdisabled | hnothing | hlength | ⟨fee, rfl, hfee⟩ := h
    · exact absurd hdisabled henabled
    · exact absurd hnothing hzero
    · match fees, hlength with
      | [], _ => rfl
      | [fee], hlength => exact absurd rfl hlength
      | _ :: _ :: _, _ => rfl
    · dsimp only
      by_cases hdenom : fee.denom ≠ s.params.nativeDenom
      · rw [if_pos hdenom]
      · rw [if_neg hdenom, if_pos (hfee.resolve_left hdenom)]

theorem convertNativeFee_of_not_passes (h : ¬ PassesThrough k s account w fees) :
    ∃ fee, fees = [fee] ∧ convertNativeFee k s account fees w =
      ((convertERC20ForFees k account fee s.feeTokens w).1.map Prod.fst,
        (convertERC20ForFees k account fee s.feeTokens w).2) := by
  simp only [PassesThrough, not_or] at h
  obtain ⟨henabled, hzero, hlength, hfee⟩ := h
  obtain ⟨fee, rfl⟩ := List.length_eq_one_iff.mp (not_not.mp hlength)
  have hdenom : ¬ fee.denom ≠ s.params.nativeDenom := fun hd => hfee ⟨fee, rfl, Or.inl hd⟩
  have hbalance : ¬ hasSufficientNativeBalance k account fee w :=
    fun hb => hfee ⟨fee, rfl, Or.inr hb⟩
  refine ⟨fee, rfl, ?_⟩
  rw [convertNativeFee, if_neg henabled, if_neg hzero]
  dsimp only
  rw [if_neg hdenom, if_neg hbalance]

/-- The conversion of a fee that does not pass ends as its search does. -/
theorem exists_outcome (h : ¬ PassesThrough k s account w fees) :
    ∃ fee r w', fees = [fee] ∧ Outcome k s account w fee (r, w') ∧
      convertNativeFee k s account fees w = (r.map Prod.fst, w') := by
  obtain ⟨fee, hfees, hconvert⟩ := convertNativeFee_of_not_passes h
  exact ⟨fee, _, _, hfees, search_outcome k s account w fee, hconvert⟩

end Passing

section Settlement

variable {k : FeeKeepers W} {s : State} {account : String} {w : W} {fees : List Coin} {fee : Coin}

/-- The coin of a pair with another denomination does not cover the returned one. -/
theorem not_misdirected (law : ConvertsExactly k) (h : Contract k s account w [fee])
    (hpass : ¬ PassesThrough k s account w [fee]) : ¬ Misdirected k s account w fee := by
  rintro ⟨token, amount, pair, w', hunwraps, hdenom, hother, hconvert⟩
  obtain ⟨henabled, hstop⟩ := hunwraps.first.holds
  obtain ⟨rest, hrest⟩ := search_from_first hunwraps.first
  have hzero := (hstop amount hunwraps.amount_eq).1
  have huncovered := hunwraps.uncovered
  rw [search_erc20 rest henabled hunwraps.amount_eq hzero huncovered hunwraps.pair_eq hunwraps.held,
    hconvert] at hrest
  have hpayment : payment token amount = .ok ([⟨token.denom, amount⟩], token.price) :=
    payment_eq_ok.mpr ⟨hdenom, by omega, rfl⟩
  obtain ⟨fee', hfee, hresult⟩ := convertNativeFee_of_not_passes hpass
  obtain rfl := (List.cons.inj hfee).1
  rw [hrest] at hresult
  simp only [hpayment, Except.map] at hresult
  obtain ⟨hpasses, _⟩ | ⟨fee', hfee, token', amount', _, _, hcoins, hcovers, _⟩ :=
    h.returned _ _ hresult
  · exact hpass hpasses
  · obtain ⟨htoken, hamounts⟩ := Coin.mk.inj (List.cons.inj hcoins).1
    have hspared : k.getBalance w' account token.denom = k.getBalance w account token.denom :=
      law.spared w _ w' _ pair hconvert hunwraps.pair_eq rfl token.denom (Ne.symm hother)
    rw [← htoken, ← hamounts, hspared] at hcovers
    exact huncovered hcovers

theorem not_overflowed (h : Contract k s account w [fee])
    (hpass : ¬ PassesThrough k s account w [fee]) : ¬ Overflowed k s account w fee := by
  rintro ⟨hnone, token, text, hfirst, hamount⟩
  obtain ⟨rest, hrest⟩ := search_from_first hfirst
  rw [search_fault rest hfirst.holds.1 hamount] at hrest
  obtain ⟨fee', hfee, hresult⟩ := convertNativeFee_of_not_passes hpass
  obtain rfl := (List.cons.inj hfee).1
  obtain ⟨text', hrefused⟩ := h.refused hpass fun fee' hfee' => by
    rw [List.mem_singleton.mp hfee']
    exact hnone
  rw [hrest, hrefused] at hresult
  cases hresult

/-- Where the search unwraps a pair of the token itself, its payment is covered. -/
theorem converted_of_outcome (law : ConvertsExactly k) (hmis : ¬ Misdirected k s account w fee)
    {p : List Coin × LegacyDec} {w' : W} (h : Outcome k s account w fee (.ok p, w')) :
    Converted k s account w fee p.1 w' := by
  generalize hr : (Except.ok p : Exec (List Coin × LegacyDec)) = r at h
  cases h with
  | none text hnone => cases hr
  | fault token e first fault => cases hr
  | failed token amount pair e w' unwraps refused => cases hr
  | bank token amount first amount_eq covered =>
      obtain ⟨_, _, rfl⟩ := payment_eq_ok.mp hr.symm
      exact ⟨token, amount, first.narrow (fun _ => stops_of_affordable)
        (affordable_of_stops first.holds amount_eq), amount_eq, rfl, covered, Or.inl rfl⟩
  | unwrapped token amount pair w' unwraps converted =>
      obtain ⟨hdenom, _, rfl⟩ := payment_eq_ok.mp hr.symm
      have hsame : pair.denom = token.denom := by
        by_contra hother
        exact hmis ⟨token, amount, pair, w', unwraps, hdenom, hother, converted⟩
      have hpaid : (k.getBalance w' account pair.denom : ℤ) =
          k.getBalance w account pair.denom + amount.val :=
        law.paid w _ w' _ pair converted unwraps.pair_eq rfl
      rw [hsame] at hpaid
      exact ⟨token, amount, unwraps.first.narrow (fun _ => stops_of_affordable)
        (affordable_of_stops unwraps.first.holds unwraps.amount_eq), unwraps.amount_eq, rfl,
        by omega, Or.inr ⟨pair, unwraps.pair_eq, converted⟩⟩

/-- Without an affordable token, and without an overflow, the search fails with an
error and converts nothing. -/
theorem refused_of_outcome (hnone : ∀ token ∈ s.feeTokens, ¬ Affordable k account w fee token)
    (hover : ¬ Overflowed k s account w fee) {r : Exec (List Coin × LegacyDec)} {w' : W}
    (h : Outcome k s account w fee (r, w')) : ∃ text, r = fail text ∧ w' = w := by
  cases h with
  | none text _ => exact ⟨text, rfl, rfl⟩
  | fault token e first fault =>
      cases e with
      | error text => exact ⟨text, rfl, rfl⟩
      | panic text => exact absurd ⟨hnone, token, text, first, fault⟩ hover
  | bank token amount first amount_eq covered =>
      exact absurd (affordable_of_stops first.holds amount_eq) (hnone token first.mem)
  | unwrapped token amount pair w' unwraps converted =>
      exact absurd (affordable_of_stops unwraps.first.holds unwraps.amount_eq)
        (hnone token unwraps.first.mem)
  | failed token amount pair e w' unwraps refused =>
      exact absurd (affordable_of_stops unwraps.first.holds unwraps.amount_eq)
        (hnone token unwraps.first.mem)

/-- An error of the search leaves the state. -/
theorem undone_of_outcome (law : ConvertsExactly k) {text : String} {w' : W}
    (h : Outcome k s account w fee (fail text, w')) : w' = w := by
  generalize hr : (fail text : Exec (List Coin × LegacyDec)) = r at h
  cases h with
  | none text _ => rfl
  | fault token e first fault => rfl
  | bank token amount first amount_eq covered => rfl
  | unwrapped token amount pair w' unwraps converted => exact absurd hr.symm payment_ne_fail
  | failed token amount pair e w' unwraps refused => exact law.failed w _ e w' refused

/-- The conversion keeps its contract exactly where nothing of another denomination
is unwrapped and where, with no token affordable, no amount overflows. -/
theorem contract_iff (law : ConvertsExactly k) (s : State) (account : String) (w : W)
    (fees : List Coin) : Contract k s account w fees ↔
      ∀ fee, fees = [fee] → ¬ PassesThrough k s account w fees →
        ¬ Misdirected k s account w fee ∧ ¬ Overflowed k s account w fee := by
  constructor
  · rintro h fee rfl hpass
    exact ⟨not_misdirected law h hpass, not_overflowed h hpass⟩
  · intro h
    by_cases hpass : PassesThrough k s account w fees
    · have hsame := convertNativeFee_of_passes hpass
      refine ⟨fun coins w' hresult => ?_, fun hno => absurd hpass hno, fun text w' hresult => ?_⟩
      · rw [hsame] at hresult
        cases hresult
        exact Or.inl ⟨hpass, rfl, rfl⟩
      · rw [hsame] at hresult
        cases hresult
    · obtain ⟨fee, r, w₁, rfl, houtcome, hconvert⟩ := exists_outcome hpass
      obtain ⟨hmis, hover⟩ := h fee rfl hpass
      refine ⟨fun coins w' hresult => ?_, fun _ hnone => ?_, fun text w' hresult => ?_⟩
      · rw [hconvert, Prod.mk.injEq, map_eq_ok] at hresult
        obtain ⟨⟨p, rfl, rfl⟩, rfl⟩ := hresult
        exact Or.inr ⟨fee, rfl, converted_of_outcome law hmis houtcome⟩
      · obtain ⟨text, rfl, rfl⟩ :=
          refused_of_outcome (hnone fee (List.mem_singleton_self fee)) hover houtcome
        exact ⟨text, hconvert⟩
      · rw [hconvert, Prod.mk.injEq, fail, map_eq_error] at hresult
        obtain ⟨rfl, rfl⟩ := hresult
        exact undone_of_outcome law houtcome

end Settlement

namespace HexDenom

/-- The payer's coins under the text of an address and under the denomination of
the pair, and the payer's ERC-20. -/
structure Wallet where
  plain : ℕ
  wrapped : ℕ
  erc20 : ℕ
deriving DecidableEq

def contract : String := "0xf39Fd6e51aad88F6F4ce6aB8827279cffFb92266"

/-- The address without its prefix: forty digits, and a valid denomination. -/
def hexDenom : String := "f39Fd6e51aad88F6F4ce6aB8827279cffFb92266"

def pair : TokenPair := ⟨contract, "erc20:0xf39Fd6e51aad88F6F4ce6aB8827279cffFb92266"⟩

def payer : String := "kii1payer"

/-- A pair is found by its denomination, or by the address of its contract. -/
def keepers : FeeKeepers Wallet where
  getBalance w a denom :=
    if a = payer then
      if denom = hexDenom then w.plain else if denom = pair.denom then w.wrapped else 0
    else 0
  getTokenPairID _ token := if token = hexDenom ∨ token = pair.denom then [1] else []
  getTokenPair _ id := if id = [1] then some pair else none
  balanceOf w address _ := if address = contract then some w.erc20 else none
  convertERC20 w msg :=
    if msg.receiver = payer ∧ msg.contractAddress = contract ∧ 0 ≤ msg.amount.val ∧
        msg.amount.val ≤ w.erc20 then
      (.ok (), { w with
        wrapped := w.wrapped + msg.amount.val.toNat
        erc20 := w.erc20 - msg.amount.val.toNat })
    else (fail "failed to convert", w)
  bytesToAddress a := a

theorem convertsExactly : ConvertsExactly keepers := by
  refine ⟨fun w msg e w' h => ?_, fun w msg w' id p h hpair _ => ?_,
    fun w msg w' id p h hpair _ denom hdenom => ?_⟩
  · simp only [keepers] at h
    split_ifs at h
    · cases h
    · cases h
      rfl
  · simp only [keepers, Option.ite_none_right_eq_some, Option.some.injEq] at h hpair ⊢
    obtain ⟨_, rfl⟩ := hpair
    split_ifs at h with hmsg
    · cases h
      obtain ⟨hreceiver, _, hpos, _⟩ := hmsg
      simp only [if_pos hreceiver, if_neg (by decide : pair.denom ≠ hexDenom), if_true]
      omega
    · cases h
  · simp only [keepers, Option.ite_none_right_eq_some, Option.some.injEq] at h hpair ⊢
    obtain ⟨_, rfl⟩ := hpair
    split_ifs at h
    · cases h
      rw [if_neg hdenom, if_neg hdenom]
    · cases h

def token (denom : String) : FeeTokenMetadata := ⟨denom, "oracleerc20", 6, 1, true⟩

def state (denom : String) : State := ⟨defaultParams, [token denom]⟩

def wallet : Wallet := ⟨0, 0, 50000⟩

/-- Two hundredths of a native coin. -/
def fees : List Coin := [⟨"akii", ⟨20000000000000000, by norm_num⟩⟩]

def amount : SdkInt := ⟨20000, by norm_num⟩

theorem state_valid : validateItems (state hexDenom).feeTokens = .ok () := by decide

theorem fee_returned : convertNativeFee keepers (state hexDenom) payer fees wallet =
    (.ok [⟨hexDenom, amount⟩], ⟨0, 20000, 30000⟩) := by decide

/-- The payer holds nothing of the coin that is to pay the fee. -/
theorem fee_uncovered : ¬ Contract keepers (state hexDenom) payer wallet fees := by
  intro h
  obtain ⟨_, hfees, _⟩ | ⟨fee, _, token, amount', _, _, hcoins, hcovers, _⟩ :=
    h.returned _ _ fee_returned
  · exact absurd hfees (by decide)
  · obtain ⟨hdenom, hamount⟩ := Coin.mk.inj (List.cons.inj hcoins).1
    rw [← hdenom, ← hamount] at hcovers
    exact absurd hcovers (by decide)

/-- A fee that a transaction may offer, of more than any balance. -/
def hugeFees : List Coin := [⟨"akii", ⟨2 ^ 255, by norm_num⟩⟩]

def dear : FeeTokenMetadata := ⟨"uatom", "atom", 18, .ofInt 10, true⟩

def dearState : State := ⟨defaultParams, [dear]⟩

theorem dear_amount : ∀ fee ∈ hugeFees,
    amountEquivalentInt dear fee.amount = panics "Int overflow" := by decide

theorem huge_fee_panics : convertNativeFee keepers dearState payer hugeFees wallet =
    (panics "Int overflow", wallet) := by decide

/-- No token is affordable, and the call panics in the place of an error. -/
theorem huge_fee_unrefused : ¬ Contract keepers dearState payer wallet hugeFees := by
  intro h
  have hpass : ¬ PassesThrough keepers dearState payer wallet hugeFees := by
    intro hpass
    have hsame := (convertNativeFee_of_passes hpass).symm.trans huge_fee_panics
    cases hsame
  obtain ⟨text, hrefused⟩ := h.refused hpass fun fee hfee t ht => by
    rintro ⟨_, amount, hamount, _⟩
    rw [List.mem_singleton.mp ht, dear_amount fee hfee] at hamount
    cases hamount
  cases hrefused.symm.trans huge_fee_panics

theorem contract_broken : validateItems (state hexDenom).feeTokens = .ok () ∧
    validateItems dearState.feeTokens = .ok () ∧ ConvertsExactly keepers ∧
    ¬ Contract keepers (state hexDenom) payer wallet fees ∧
    ¬ Contract keepers dearState payer wallet hugeFees :=
  ⟨state_valid, by decide, convertsExactly, fee_uncovered, huge_fee_unrefused⟩

theorem amount_eq : ∀ fee ∈ fees,
    amountEquivalentInt (token pair.denom) fee.amount = .ok amount := by decide

/-- Under the denomination of the pair the payer can pay. -/
theorem fee_covered : Contract keepers (state pair.denom) payer wallet fees := by
  apply (contract_iff convertsExactly (state pair.denom) payer wallet fees).mpr
  intro fee hfees _
  constructor
  · rintro ⟨t, amount, p, w', hunwraps, _, hother, _⟩
    obtain rfl := List.mem_singleton.mp hunwraps.first.mem
    have hpair : tokenPair keepers pair.denom wallet = some pair := by decide
    obtain rfl := Option.some.inj (hpair.symm.trans hunwraps.pair_eq)
    exact hother rfl
  · rintro ⟨_, t, text, hfirst, hamount⟩
    obtain rfl := List.mem_singleton.mp hfirst.mem
    rw [amount_eq fee (hfees ▸ List.mem_singleton_self fee)] at hamount
    cases hamount

end HexDenom

end Kiichain.FeeAbstraction
