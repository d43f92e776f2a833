import Kiichain.GoExec

/-!
# Arguments of precompile methods

A call of a precompile comes with the values that the ABI decodes of its input.
An assertion of the type of a value fails on a value of another type.
-/

namespace Kiichain.Precompile
open GoExec

inductive Arg
  | string (text : String)
  | bigInt (n : ℕ)
  | uint64 (n : ℕ)
deriving DecidableEq

namespace Arg

def asString : Arg → Option String
  | string text => some text
  | _ => none

def asBigInt : Arg → Option ℕ
  | bigInt n => some n
  | _ => none

def asUint64 : Arg → Option ℕ
  | uint64 n => some n
  | _ => none

end Arg

/-- `Uint64` of a big integer: the low 64 bits of its magnitude. -/
def lowUint64 (n : ℕ) : ℕ := n % 2 ^ 64

theorem lowUint64_of_lt {n : ℕ} (h : n < 2 ^ 64) : lowUint64 n = n := Nat.mod_eq_of_lt h

end Kiichain.Precompile
