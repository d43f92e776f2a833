import Kiichain.FixedPoint
import Kiichain.SortedMap
import Mathlib.Data.String.Basic

/-!
# Coins, decimal coins and account names

Amounts are the chain's 256-bit integers and 18-digit decimals of at most 316
bits. A set of decimal coins never holds a zero entry.
-/

namespace Kiichain
open GoExec FixedPoint

def legacyFormat : Format := ⟨1000000000000000000, 316, by norm_num⟩

@[simp] theorem legacyFormat_scale : legacyFormat.scale = 1000000000000000000 := rfl

theorem two_pow_bits : (2 : ℕ) ^ legacyFormat.bits = 2 ^ 256 * 2 ^ 60 := by
  have hbits : legacyFormat.bits = 256 + 60 := rfl
  rw [hbits, pow_add]

abbrev LegacyDec := Decimal legacyFormat

abbrev SdkInt := BoundedInt 256

instance : One SdkInt := ⟨1, by norm_num⟩

@[simp] theorem SdkInt.val_one : (1 : SdkInt).val = 1 := rfl

/-- An account of the chain: one that a key controls, or a module's. -/
inductive Account
  | user (address : String)
  | module (name : String)
deriving DecidableEq, Repr

/-- A denomination is a letter followed by 2 to 127 letters, digits or one of `/:._-`. -/
def validDenom (denom : String) : Bool :=
  match denom.toList with
  | [] => false
  | c :: cs => c.isAlpha && decide (2 ≤ cs.length) && decide (cs.length ≤ 127) &&
      cs.all (fun x => x.isAlphanum || x ∈ ['/', ':', '.', '_', '-'])

structure Coin where
  denom : String
  amount : SdkInt
deriving DecidableEq

namespace Coin

def isZero (c : Coin) : Bool := c.amount.val = 0

def validate (c : Coin) : Exec Unit := do
  ensure (validDenom c.denom) (.error "invalid denom: %s")
  ensure (0 ≤ c.amount.val) (.error "negative coin amount: %v")

def add (c d : Coin) : Exec Coin := do
  ensure (c.denom = d.denom) (.panic "invalid coin denominations; %s, %s")
  let sum ← BoundedInt.checked (c.amount.val + d.amount.val)
  pure ⟨c.denom, sum⟩

def sub (c d : Coin) : Exec Coin := do
  ensure (c.denom = d.denom) (.panic "invalid coin denoms; expected: %s, got: %s")
  let diff ← BoundedInt.checked (c.amount.val - d.amount.val)
  ensure (0 ≤ diff.val) (.panic "negative coin amount: %s")
  pure ⟨c.denom, diff⟩

/-- `NewCoin` panics on what `validate` rejects. -/
def newCoin (denom : String) (amount : SdkInt) : Exec Coin := do
  ensure (validDenom denom) (.panic "invalid denom: %s")
  ensure (0 ≤ amount.val) (.panic "negative coin amount: %v")
  pure ⟨denom, amount⟩

theorem validate_eq_ok {c : Coin} {u : Unit} :
    c.validate = .ok u ↔ validDenom c.denom = true ∧ 0 ≤ c.amount.val := by
  simp only [validate, bind_eq_ok, ensure_eq_ok, exists_const]

theorem add_eq_ok {c d e : Coin} :
    c.add d = .ok e ↔ c.denom = d.denom ∧ e.denom = c.denom ∧
      e.amount.val = c.amount.val + d.amount.val := by
  simp only [add, bind_eq_ok, ensure_eq_ok, exists_const, pure_eq_ok, Except.ok.injEq,
    BoundedInt.checked_eq_ok]
  constructor
  · rintro ⟨h, n, hn, rfl⟩
    exact ⟨h, rfl, hn⟩
  · rintro ⟨h, hd, hn⟩
    exact ⟨h, e.amount, hn, by rw [← hd]⟩

theorem sub_eq_ok {c d e : Coin} :
    c.sub d = .ok e ↔ c.denom = d.denom ∧ d.amount.val ≤ c.amount.val ∧ e.denom = c.denom ∧
      e.amount.val = c.amount.val - d.amount.val := by
  simp only [sub, bind_eq_ok, ensure_eq_ok, exists_const, pure_eq_ok, Except.ok.injEq,
    BoundedInt.checked_eq_ok]
  constructor
  · rintro ⟨h, n, hn, hpos, rfl⟩
    exact ⟨h, by omega, rfl, hn⟩
  · rintro ⟨h, hle, hd, hn⟩
    exact ⟨h, e.amount, hn, by omega, by rw [← hd]⟩

theorem newCoin_eq_ok {denom : String} {amount : SdkInt} {c : Coin} :
    newCoin denom amount = .ok c ↔ validDenom denom = true ∧ 0 ≤ amount.val ∧
      c = ⟨denom, amount⟩ := by
  simp only [newCoin, bind_eq_ok, ensure_eq_ok, exists_const, pure_eq_ok, Except.ok.injEq]
  exact and_congr_right fun _ => and_congr_right fun _ => eq_comm

end Coin

structure DenomUnit where
  denom : String
  exponent : ℕ
  aliases : List String
deriving DecidableEq

/-- The bank's metadata of a denomination. -/
structure Metadata where
  description : String
  denomUnits : List DenomUnit
  base : String
  display : String
  name : String
  symbol : String
deriving DecidableEq

abbrev DecCoins := SortedMap String LegacyDec

namespace DecCoins

def amountOf (m : DecCoins) (denom : String) : LegacyDec := (m.get? denom).getD 0

def put (m : DecCoins) (denom : String) (x : LegacyDec) : DecCoins :=
  if x.raw = 0 then m.erase denom else m.insert denom x

def add (m : DecCoins) (c : Coin) : Exec DecCoins := do
  let sum ← (amountOf m c.denom).add (.ofInt c.amount.val)
  pure (put m c.denom sum)

def sub (m : DecCoins) (c : Coin) : Exec DecCoins := do
  let diff ← (amountOf m c.denom).sub (.ofInt c.amount.val)
  ensure (0 ≤ diff.raw) (.panic "negative coin amount")
  pure (put m c.denom diff)

theorem add_eq_ok {m m' : DecCoins} {c : Coin} :
    add m c = .ok m' ↔
      Decimal.Fits legacyFormat ((amountOf m c.denom).raw + c.amount.val * legacyFormat.scale) ∧
      m' = put m c.denom ⟨(amountOf m c.denom).raw + c.amount.val * legacyFormat.scale⟩ := by
  simp only [add, bind_eq_ok, Decimal.add_eq_ok, pure_eq_ok, Except.ok.injEq]
  constructor
  · rintro ⟨_, ⟨h, rfl⟩, rfl⟩
    exact ⟨h, rfl⟩
  · rintro ⟨h, rfl⟩
    exact ⟨_, ⟨h, rfl⟩, rfl⟩

theorem sub_eq_ok {m m' : DecCoins} {c : Coin} :
    sub m c = .ok m' ↔
      Decimal.Fits legacyFormat ((amountOf m c.denom).raw - c.amount.val * legacyFormat.scale) ∧
      0 ≤ (amountOf m c.denom).raw - c.amount.val * legacyFormat.scale ∧
      m' = put m c.denom ⟨(amountOf m c.denom).raw - c.amount.val * legacyFormat.scale⟩ := by
  simp only [sub, bind_eq_ok, Decimal.sub_eq_ok, ensure_eq_ok, exists_const, pure_eq_ok,
    Except.ok.injEq]
  constructor
  · rintro ⟨_, ⟨h, rfl⟩, h0, rfl⟩
    exact ⟨h, h0, rfl⟩
  · rintro ⟨h, h0, rfl⟩
    exact ⟨_, ⟨h, rfl⟩, h0, rfl⟩

theorem amountOf_put (m : DecCoins) (denom denom' : String) (x : LegacyDec) :
    amountOf (put m denom x) denom' = if denom = denom' then x else amountOf m denom' := by
  unfold amountOf put
  by_cases hx : x.raw = 0
  · rw [if_pos hx, SortedMap.get?_erase]
    split_ifs
    · exact Decimal.raw_injective hx.symm
    · rfl
  · rw [if_neg hx, SortedMap.get?_insert]
    split_ifs <;> rfl

end DecCoins

end Kiichain
