import Kiichain.OracleMsgServer
import Kiichain.OracleTwap

/-!
# The fee abstraction keeper

At the start of a block every enabled fee token gets the quotient of the native
price and its own average, kept within a factor of its last price. A token
without an average is disabled. The native price is the average of the native
denomination, or a fallback where the averages have no entry for it.
-/

namespace Kiichain.FeeAbstraction
open GoExec FixedPoint
open Oracle (OracleTwap Block Codec)

structure Params where
  nativeDenom : String
  nativeOracleDenom : String
  clampFactor : LegacyDec
  fallbackNativePrice : LegacyDec
  twapLookbackWindow : ℕ
  enabled : Bool
deriving DecidableEq

structure FeeTokenMetadata where
  denom : String
  oracleDenom : String
  decimals : ℕ
  price : LegacyDec
  enabled : Bool
deriving DecidableEq

/-- The parameters and the fee tokens of the store. -/
structure State where
  params : Params
  feeTokens : List FeeTokenMetadata
deriving DecidableEq

structure GenesisState where
  params : Params
  feeTokens : Option (List FeeTokenMetadata)
deriving DecidableEq

def defaultParams : Params where
  nativeDenom := "akii"
  nativeOracleDenom := "kii"
  clampFactor := ⟨100000000000000000⟩
  fallbackNativePrice := ⟨10000000000000000⟩
  twapLookbackWindow := 120
  enabled := true

def defaultGenesisState : GenesisState := ⟨defaultParams, some []⟩

namespace Params

def validate (p : Params) : Exec Unit := do
  ensure (validDenom p.nativeDenom = true)
    (.error "native denom is invalid: invalid fee abstraction params")
  ensure (validDenom p.nativeOracleDenom = true)
    (.error "native oracle denom is invalid: invalid fee abstraction params")
  ensure (¬ (p.clampFactor < 0 ∨ 1 < p.clampFactor))
    (.error "clamp factor must be between 0 and 1: invalid fee abstraction params")
  ensure (¬ (p.fallbackNativePrice < 0 ∨ p.fallbackNativePrice.raw = 0))
    (.error "fallback native price must be greater than 0: invalid fee abstraction params")
  ensure (p.twapLookbackWindow ≠ 0)
    (.error "twap lookback window must be greater than 0: invalid fee abstraction params")

/-- What the validation promises. -/
structure Valid (p : Params) : Prop where
  nativeDenom_valid : validDenom p.nativeDenom = true
  nativeOracleDenom_valid : validDenom p.nativeOracleDenom = true
  clampFactor_nonneg : 0 ≤ p.clampFactor.raw
  clampFactor_le_one : p.clampFactor.raw ≤ legacyFormat.scale
  fallbackNativePrice_pos : 0 < p.fallbackNativePrice.raw
  twapLookbackWindow_ne_zero : p.twapLookbackWindow ≠ 0

theorem validate_eq_ok {p : Params} {u : Unit} : p.validate = .ok u ↔ p.Valid := by
  simp only [validate, bind_eq_ok, ensure_eq_ok, exists_const, Decimal.lt_iff, Decimal.raw_zero,
    Decimal.raw_one, not_or, not_lt]
  constructor
  · rintro ⟨hdenom, horacle, ⟨hclamp0, hclamp1⟩, ⟨hprice0, hprice⟩, hwindow⟩
    exact ⟨hdenom, horacle, hclamp0, hclamp1, lt_of_le_of_ne hprice0 (Ne.symm hprice), hwindow⟩
  · intro h
    exact ⟨h.nativeDenom_valid, h.nativeOracleDenom_valid,
      ⟨h.clampFactor_nonneg, h.clampFactor_le_one⟩,
      ⟨h.fallbackNativePrice_pos.le, h.fallbackNativePrice_pos.ne'⟩, h.twapLookbackWindow_ne_zero⟩

theorem valid_defaultParams : defaultParams.Valid := by
  apply validate_eq_ok (u := ()).mp
  decide

end Params

namespace FeeTokenMetadata

def validate (f : FeeTokenMetadata) : Exec Unit := do
  ensure (validDenom f.denom = true) (.error "denom is invalid: invalid fee token metadata")
  ensure (validDenom f.oracleDenom = true)
    (.error "oracle denom is invalid: invalid fee token metadata")
  ensure (¬ (f.decimals < 1 ∨ 18 < f.decimals))
    (.error "decimals must be between 1 and 18: invalid fee token metadata")
  ensure (¬ (f.price < 0 ∨ f.price.raw = 0))
    (.error "price must be greater than 0: invalid fee token metadata")

/-- What the validation promises. -/
structure Valid (f : FeeTokenMetadata) : Prop where
  denom_valid : validDenom f.denom = true
  oracleDenom_valid : validDenom f.oracleDenom = true
  decimals_pos : 1 ≤ f.decimals
  decimals_le : f.decimals ≤ 18
  price_pos : 0 < f.price.raw

theorem validate_eq_ok {f : FeeTokenMetadata} {u : Unit} : f.validate = .ok u ↔ f.Valid := by
  simp only [validate, bind_eq_ok, ensure_eq_ok, exists_const, Decimal.lt_iff, Decimal.raw_zero,
    not_or, not_lt]
  constructor
  · rintro ⟨hdenom, horacle, ⟨hpos, hle⟩, hprice0, hprice⟩
    exact ⟨hdenom, horacle, hpos, hle, lt_of_le_of_ne hprice0 (Ne.symm hprice)⟩
  · intro h
    exact ⟨h.denom_valid, h.oracleDenom_valid, ⟨h.decimals_pos, h.decimals_le⟩, h.price_pos.le,
      h.price_pos.ne'⟩

end FeeTokenMetadata

section Collections

/-- One turn of the check of a collection, over the denominations it has seen. -/
def validateToken (denomSet : List String) (token : FeeTokenMetadata) : Exec (List String) := do
  token.validate
  ensure (token.denom ∉ denomSet)
    (.error ("duplicate denom found: " ++ token.denom ++ ": invalid fee token metadata"))
  pure (token.denom :: denomSet)

def validateItems (items : List FeeTokenMetadata) : Exec Unit := do
  let _ ← items.foldlM validateToken []
  pure ()

def GenesisState.validate (gs : GenesisState) : Exec Unit := do
  gs.params.validate
  let feeTokens ← require gs.feeTokens (.panic "invalid memory address or nil pointer dereference")
  validateItems feeTokens

def initGenesis (gs : GenesisState) : Exec State := do
  gs.validate
  let feeTokens ← require gs.feeTokens (.panic "invalid memory address or nil pointer dereference")
  pure ⟨gs.params, feeTokens⟩

/-- The store has both from the genesis on, so the reads return. -/
def exportGenesis (s : State) : GenesisState := ⟨s.params, some s.feeTokens⟩

/-- Valid tokens with distinct denominations. -/
def ValidItems (items : List FeeTokenMetadata) : Prop :=
  (∀ token ∈ items, token.Valid) ∧ items.Pairwise (fun x y => x.denom ≠ y.denom)

theorem foldlM_validateToken {items : List FeeTokenMetadata} {seen : List String} :
    Returns (items.foldlM validateToken seen) ↔
      ValidItems items ∧ ∀ token ∈ items, token.denom ∉ seen := by
  induction items generalizing seen with
  | nil => simp [ValidItems]
  | cons token items ih =>
      have hturn : ∀ seen', validateToken seen token = .ok seen' ↔
          token.Valid ∧ token.denom ∉ seen ∧ seen' = token.denom :: seen := by
        intro seen'
        simp only [validateToken, bind_eq_ok, FeeTokenMetadata.validate_eq_ok, ensure_eq_ok,
          exists_const, pure_eq_ok, Except.ok.injEq, @eq_comm _ seen']
      simp only [List.foldlM_cons, returns_bind, hturn, ih, ValidItems, List.forall_mem_cons,
        List.pairwise_cons]
      constructor
      · rintro ⟨_, ⟨hvalid, hfresh, rfl⟩, ⟨hall, hpair⟩, hseen⟩
        simp only [List.mem_cons, not_or] at hseen
        exact ⟨⟨⟨hvalid, hall⟩, fun t ht => Ne.symm (hseen t ht).1, hpair⟩, hfresh,
          fun t ht => (hseen t ht).2⟩
      · rintro ⟨⟨⟨hvalid, hall⟩, hne, hpair⟩, hfresh, hseen⟩
        refine ⟨_, ⟨hvalid, hfresh, rfl⟩, ⟨hall, hpair⟩, fun t ht => ?_⟩
        simp only [List.mem_cons, not_or]
        exact ⟨Ne.symm (hne t ht), hseen t ht⟩

theorem validateItems_eq_ok {items : List FeeTokenMetadata} {u : Unit} :
    validateItems items = .ok u ↔ ValidItems items := by
  have hreturns : validateItems items = .ok u ↔ Returns (items.foldlM validateToken []) := by
    simp only [validateItems, bind_eq_ok, pure_eq_ok, and_true, Returns]
  rw [hreturns, foldlM_validateToken]
  simp

end Collections

section Prices

def calculateTokenPrice (base other : LegacyDec) : Exec LegacyDec := do
  ensure (¬ (base.raw = 0 ∨ other.raw = 0)) (.error "invalid input: base or other is zero")
  base.quo other

/-- The new price within the clamp factor of the last one, unless that is zero. -/
def clampPrice (prevPrice newPrice clampFactor : LegacyDec) : Exec LegacyDec :=
  if prevPrice.raw = 0 ∨ clampFactor.raw = 0 then pure newPrice
  else do
    let below ← (1 : LegacyDec).sub clampFactor
    let min ← prevPrice.mul below
    let above ← (1 : LegacyDec).add clampFactor
    let max ← prevPrice.mul above
    if newPrice < min then pure min
    else if max < newPrice then pure max
    else pure newPrice

/-- An error of a request, under a lead. -/
def invalidRequest {α : Type} (lead : String) (x : Exec α) : Exec α :=
  match x with
  | .error (.error text) => .error (.error (lead ++ text ++ ": invalid request"))
  | y => y

@[simp] theorem invalidRequest_eq_ok {α : Type} {lead : String} {x : Exec α} {a : α} :
    invalidRequest lead x = .ok a ↔ x = .ok a := by
  cases x with
  | ok b => rfl
  | error e => cases e <;> simp [invalidRequest]

def twapPriceMap (twaps : List OracleTwap) : SortedMap String LegacyDec :=
  twaps.foldl (fun m twap => m.insert twap.denom twap.twap) ∅

def baseTokenPrice (p : Params) (prices : SortedMap String LegacyDec) : LegacyDec :=
  (prices.get? p.nativeOracleDenom).getD p.fallbackNativePrice

/-- The price of a token in the averages, zero where they have none. -/
def oraclePrice (prices : SortedMap String LegacyDec) (token : FeeTokenMetadata) : LegacyDec :=
  (prices.get? token.oracleDenom).getD 0

def updateToken (prices : SortedMap String LegacyDec) (base clampFactor : LegacyDec)
    (token : FeeTokenMetadata) : Exec FeeTokenMetadata :=
  if token.enabled = false then pure token
  else if (oraclePrice prices token).raw = 0 then pure { token with enabled := false, price := 0 }
  else do
    let price ← invalidRequest ("error calculating token price for denom " ++ token.denom ++ ": ")
      (calculateTokenPrice base (oraclePrice prices token))
    let price ← clampPrice token.price price clampFactor
    pure { token with price := price }

def calculatePriceTokens (prices : SortedMap String LegacyDec) (base clampFactor : LegacyDec)
    (feeTokens : List FeeTokenMetadata) : Exec (List FeeTokenMetadata) :=
  feeTokens.foldlM (fun updateTokens token => do
    let token ← updateToken prices base clampFactor token
    pure (updateTokens ++ [token])) []

variable (blk : Block) (oracle : Oracle.State) (s : State)

/-- An error of the averages counts as no averages. -/
def calculateFeeTokenPrices : Exec State := do
  let twaps ← defaulted (Oracle.calculateTwaps blk oracle s.params.twapLookbackWindow) []
  let prices := twapPriceMap twaps
  let updateTokens ← calculatePriceTokens prices (baseTokenPrice s.params prices)
    s.params.clampFactor s.feeTokens
  pure { s with feeTokens := updateTokens }

def beginBlocker : Exec State :=
  if s.params.enabled = false then pure s else calculateFeeTokenPrices blk oracle s

end Prices

section Messages

structure MsgUpdateParams where
  authority : String
  params : Params

structure MsgUpdateFeeTokens where
  authority : String
  feeTokens : List FeeTokenMetadata

inductive Msg
  | updateParams (msg : MsgUpdateParams)
  | updateFeeTokens (msg : MsgUpdateFeeTokens)

variable (codec : Codec) (authority : String) (oracle : Oracle.State) (s : State)

def MsgUpdateParams.validate (msg : MsgUpdateParams) : Exec Unit := do
  let _ ← codec.accAddressFromBech32 msg.authority
  msg.params.validate

def MsgUpdateFeeTokens.validate (msg : MsgUpdateFeeTokens) : Exec Unit := do
  let _ ← codec.accAddressFromBech32 msg.authority
  validateItems msg.feeTokens

def validateAuthority (sender : String) : Exec Unit := do
  let _ ← Oracle.reworded "invalid authority address: %s: invalid address"
    (codec.accAddressFromBech32 sender)
  ensure (authority = sender) (.error ("invalid authority; expected " ++ authority ++ ", got " ++
    sender ++ ": expected gov account as only signer for proposal message"))

def updateParams (msg : MsgUpdateParams) : Exec State := do
  validateAuthority codec authority msg.authority
  invalidRequest "invalid message: " (msg.validate codec)
  invalidRequest "invalid twap lookback window: "
    (Oracle.validateLookBackSeconds oracle msg.params.twapLookbackWindow)
  pure { s with params := msg.params }

/-- The first token whose oracle denomination is no vote target. -/
def unregistered (items : List FeeTokenMetadata) : Option FeeTokenMetadata :=
  items.find? (fun token => (oracle.voteTarget.get? token.oracleDenom).isNone)

def updateFeeTokens (msg : MsgUpdateFeeTokens) : Exec State := do
  validateAuthority codec authority msg.authority
  invalidRequest "invalid message: " (msg.validate codec)
  match unregistered oracle msg.feeTokens with
  | some token => fail ("fee token denom " ++ token.oracleDenom ++
      " is not registered on the oracle module: invalid request")
  | none => pure { s with feeTokens := msg.feeTokens }

def deliver : Msg → Exec State
  | .updateParams msg => updateParams codec authority oracle s msg
  | .updateFeeTokens msg => updateFeeTokens codec authority oracle s msg

end Messages

section Effects

variable {codec : Codec} {authority : String} {oracle : Oracle.State} {s t : State}

/-- An accepted message sets valid parameters, or valid tokens of vote targets. -/
theorem deliver_cases {msg : Msg} (h : deliver codec authority oracle s msg = .ok t) :
    (∃ p : Params, p.Valid ∧ Oracle.LookBackValid oracle p.twapLookbackWindow ∧
        t = { s with params := p }) ∨
      ∃ items, ValidItems items ∧
        (∀ token ∈ items, (oracle.voteTarget.get? token.oracleDenom).isSome) ∧
        t = { s with feeTokens := items } := by
  cases msg with
  | updateParams msg =>
      simp only [deliver, updateParams, MsgUpdateParams.validate, bind_eq_ok, invalidRequest_eq_ok,
        exists_const, Oracle.validateLookBackSeconds, ensure_eq_ok, pure_eq_ok, Except.ok.injEq] at h
      obtain ⟨_, _, _, ⟨_, _, hvalid⟩, hlookback, rfl⟩ := h
      exact Or.inl ⟨msg.params, Params.validate_eq_ok.mp hvalid, hlookback, rfl⟩
  | updateFeeTokens msg =>
      simp only [deliver, updateFeeTokens, MsgUpdateFeeTokens.validate, bind_eq_ok,
        invalidRequest_eq_ok] at h
      obtain ⟨_, _, _, ⟨_, _, hvalid⟩, h⟩ := h
      cases hunregistered : unregistered oracle msg.feeTokens with
      | some token =>
          rw [hunregistered] at h
          cases h
      | none =>
          rw [hunregistered] at h
          cases h
          refine Or.inr ⟨msg.feeTokens, validateItems_eq_ok.mp hvalid, fun token htoken => ?_, rfl⟩
          have hnone := List.find?_eq_none.mp hunregistered token htoken
          simpa [Option.isSome_iff_ne_none] using hnone

theorem initGenesis_eq_ok {gs : GenesisState} : initGenesis gs = .ok s ↔
    s.params.Valid ∧ ValidItems s.feeTokens ∧ gs = ⟨s.params, some s.feeTokens⟩ := by
  simp only [initGenesis, GenesisState.validate, bind_eq_ok, Params.validate_eq_ok, require_eq_ok,
    validateItems_eq_ok, exists_const, pure_eq_ok, Except.ok.injEq]
  obtain ⟨params, feeTokens⟩ := gs
  constructor
  · rintro ⟨⟨hparams, items, rfl, hitems⟩, items', heq, rfl⟩
    cases heq
    exact ⟨hparams, hitems, rfl⟩
  · rintro ⟨hparams, hitems, heq⟩
    cases heq
    exact ⟨⟨hparams, _, rfl, hitems⟩, _, rfl, rfl⟩

end Effects

end Kiichain.FeeAbstraction
