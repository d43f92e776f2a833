import Kiichain.OracleRuntime
import Kiichain.OracleTwap
import Kiichain.PrecompileArgs

/-!
# The oracle precompile

`getTwaps` takes an unsigned 256-bit lookback and asks the keeper with the low
64 bits of it. A lookback beyond 64 bits that the keeper is bound to refuse is
answered where the reduced lookback is.
-/

namespace Kiichain.OraclePrecompile
open GoExec FixedPoint Oracle Precompile

section Methods

variable (blk : Block) (s : State)

/-- The decimal text of a rate, with its eighteen places. -/
def decimalText (x : LegacyDec) : String :=
  let digits := Nat.toDigits 10 x.raw.natAbs
  let places := 18
  let text :=
    if digits.length ≤ places then
      '0' :: '.' :: (List.replicate (places - digits.length) '0' ++ digits)
    else digits.take (digits.length - places) ++ '.' :: digits.drop (digits.length - places)
  String.ofList (if x.raw < 0 then '-' :: text else text)

def parseGetTwapsArgs (args : List Arg) : Exec ℕ := do
  ensure (args.length = 1) (.error "invalid number of arguments; expected %d; got: %d")
  let lookbackPeriod ← require (args.head?.bind Arg.asBigInt) (.error "invalid lookback period")
  pure (lowUint64 lookbackPeriod)

/-- The `Twaps` query of the module. -/
def twaps (lookbackSeconds : ℕ) : Exec (List OracleTwap) := calculateTwaps blk s lookbackSeconds

/-- What the method packs. -/
structure TwapsOutput where
  denoms : List String
  twaps : List String
deriving DecidableEq

def packTwaps (oracleTwap : List OracleTwap) : TwapsOutput :=
  ⟨oracleTwap.map (fun twap => twap.denom), oracleTwap.map (fun twap => decimalText twap.twap)⟩

def getTwaps (args : List Arg) : Exec TwapsOutput := do
  let lookbackSeconds ← parseGetTwapsArgs args
  let oracleTwap ← twaps blk s lookbackSeconds
  pure (packTwaps oracleTwap)

end Methods

section Agreement

variable {blk : Block} {s : State}

variable (blk s) in
/-- The call answers a lookback of any size as the keeper would. -/
structure Agrees (lookback : ℕ) : Prop where
  returns_iff : Returns (getTwaps blk s [.bigInt lookback]) ↔
    0 < lookback ∧ lookback ≤ s.params.lookbackDuration ∧ Returns (calculateTwaps blk s lookback)
  output_eq : ∀ out, getTwaps blk s [.bigInt lookback] = .ok out →
    ∃ oracleTwaps, calculateTwaps blk s lookback = .ok oracleTwaps ∧ out = packTwaps oracleTwaps

variable (blk s) in
/-- The lookback is in range, some target has a snapshot in its window, and no
weighed sum over the window overflows. -/
def Answered (lookBackSeconds : ℕ) : Prop :=
  LookBackValid s lookBackSeconds ∧ WindowFits blk s lookBackSeconds ∧
    ∃ denom, samplesIn blk s lookBackSeconds denom ≠ []

theorem getTwaps_eq (lookback : ℕ) : getTwaps blk s [.bigInt lookback] =
    calculateTwaps blk s (lowUint64 lookback) >>= fun oracleTwaps => pure (packTwaps oracleTwaps) :=
  rfl

theorem lookBackValid_iff {lookBackSeconds : ℕ} : LookBackValid s lookBackSeconds ↔
    0 < lookBackSeconds ∧ lookBackSeconds ≤ s.params.lookbackDuration := by
  unfold LookBackValid
  omega

theorem valid_of_returns {lookBackSeconds : ℕ} (h : Returns (calculateTwaps blk s lookBackSeconds)) :
    LookBackValid s lookBackSeconds := by
  obtain ⟨oracleTwaps, h⟩ := h
  obtain ⟨_, hvalid, _⟩ := bind_eq_ok.mp h
  exact ensure_eq_ok.mp hvalid

theorem returns_calculateTwaps_iff_answered {lookBackSeconds : ℕ} :
    Returns (calculateTwaps blk s lookBackSeconds) ↔ Answered blk s lookBackSeconds := by
  constructor
  · intro h
    have hvalid := valid_of_returns h
    rw [calculateTwaps_eq_of_valid hvalid, returns_bind] at h
    obtain ⟨acc, hwalk, haverages⟩ := h
    obtain ⟨d, hd⟩ := (returns_averages_iff acc).mp haverages
    exact ⟨hvalid, (returns_walk_iff hvalid).mp ⟨acc, hwalk⟩, d,
      (mem_keys_walk hvalid hwalk d).mp hd⟩
  · rintro ⟨hvalid, hfits, d, hd⟩
    obtain ⟨acc, hwalk⟩ := (returns_walk_iff hvalid).mpr hfits
    rw [calculateTwaps_eq_of_valid hvalid, hwalk, ok_bind]
    exact (returns_averages_iff acc).mpr ⟨d, (mem_keys_walk hvalid hwalk d).mpr hd⟩

theorem returns_getTwaps_iff (lookback : ℕ) : Returns (getTwaps blk s [.bigInt lookback]) ↔
    Answered blk s (lowUint64 lookback) := by
  rw [getTwaps_eq, returns_bind_pure, returns_calculateTwaps_iff_answered]

/-- A lookback of 64 bits reaches the keeper as it is. -/
theorem agrees_of_lt {lookback : ℕ} (h : lookback < 2 ^ 64) : Agrees blk s lookback := by
  constructor
  · rw [getTwaps_eq, lowUint64_of_lt h, returns_bind_pure]
    constructor
    · intro hreturns
      obtain ⟨hpos, hle⟩ := lookBackValid_iff.mp (valid_of_returns hreturns)
      exact ⟨hpos, hle, hreturns⟩
    · exact fun hreturns => hreturns.2.2
  · intro out hout
    rw [getTwaps_eq, lowUint64_of_lt h, bind_eq_ok] at hout
    obtain ⟨oracleTwaps, htwaps, hpack⟩ := hout
    cases hpack
    exact ⟨oracleTwaps, htwaps, rfl⟩

/-- The call agrees with the keeper exactly where the lookback fits 64 bits, or
the keeper refuses what is left of it. -/
theorem getTwaps_agrees_iff (hduration : s.params.lookbackDuration < 2 ^ 64) (lookback : ℕ) :
    Agrees blk s lookback ↔ lookback < 2 ^ 64 ∨ ¬ Answered blk s (lowUint64 lookback) := by
  constructor
  · intro h
    by_contra! hbeyond
    obtain ⟨hlarge, hanswered⟩ := hbeyond
    obtain ⟨_, hle, _⟩ := h.returns_iff.mp ((returns_getTwaps_iff lookback).mpr hanswered)
    omega
  · rintro (hfits | hrefused)
    · exact agrees_of_lt hfits
    · have hfails : ¬ Returns (getTwaps blk s [.bigInt lookback]) :=
        mt (returns_getTwaps_iff lookback).mp hrefused
      obtain hlt | hlarge := lt_or_ge lookback (2 ^ 64)
      · exact agrees_of_lt hlt
      · refine ⟨iff_of_false hfails ?_, fun out hout => absurd ⟨out, hout⟩ hfails⟩
        rintro ⟨_, hle, _⟩
        omega

end Agreement

namespace WrappedLookback

def block : Block := ⟨10, 90 * 1000000000⟩

/-- Ninety seconds in, with one snapshot at thirty. -/
def state : State :=
  { defaultGenesis ∅ with
    voteTarget := twoTargets
    priceSnapshot := (∅ : SortedMap ℤ PriceSnapshot).insert 30
      ⟨30, [⟨"uatom", ⟨.ofInt 2, 5, 30⟩⟩]⟩ }

def lookback : ℕ := 2 ^ 64 + 60

theorem answered_as_sixty : getTwaps block state [.bigInt lookback] =
    .ok ⟨["uatom"], ["2.000000000000000000"]⟩ := by decide

/-- The call answers a lookback of more than half a trillion years. -/
theorem wrapped_answered : state.params.lookbackDuration < 2 ^ 64 ∧
    ¬ Agrees block state lookback := by
  refine ⟨by decide, fun h => ?_⟩
  obtain ⟨_, hle, _⟩ := h.returns_iff.mp ⟨_, answered_as_sixty⟩
  exact absurd hle (by decide)

theorem sixty_agrees : Agrees block state 60 :=
  (getTwaps_agrees_iff (by decide) 60).mpr (Or.inl (by norm_num))

end WrappedLookback

end Kiichain.OraclePrecompile
