import Kiichain.OracleRounds
import Kiichain.PrecompileOracle

/-!
# What the oracle reports

Clients ask the query server, contracts ask it through the wasm bindings or through the
precompile. The precompile answers with texts, from which every price is read back as it
was stored.
-/

namespace Kiichain.OraclePrecompile
open GoExec FixedPoint Oracle Precompile

section QueryServer

variable (s : State)

def exchangeRate (denom : String) : Exec OracleExchangeRate := do
  ensure (denom ≠ "") (.error "empty denom")
  require (s.exchangeRate.get? denom) (.error "collections: not found")

def exchangeRates : List (String × OracleExchangeRate) := s.exchangeRate.entries

def actives : List String := s.exchangeRate.keys

end QueryServer

section Wasm

/-- A query of a contract; at most one of its fields is looked at. -/
structure OracleQuery where
  exchangeRate : Option String
  exchangeRates : Bool
  twaps : Option ℕ

/-- What is marshalled for the contract. -/
inductive OracleResponse
  | exchangeRate (rate : OracleExchangeRate)
  | exchangeRates (rates : List (String × OracleExchangeRate))
  | twaps (twaps : List OracleTwap)
deriving DecidableEq

variable (blk : Block) (s : State)

def handleExchangeRate (denom : String) : Exec OracleExchangeRate := do
  ensure (denom ≠ "") (.error "invalid request: empty denom - original request: ")
  exchangeRate s denom

def handleOracleQuery (query : OracleQuery) : Exec OracleResponse :=
  match query.exchangeRate with
  | some denom => (handleExchangeRate s denom).map .exchangeRate
  | none =>
    if query.exchangeRates then pure (.exchangeRates (exchangeRates s))
    else
      match query.twaps with
      | some lookbackSeconds => (twaps blk s lookbackSeconds).map .twaps
      | none => fail "unsupported request: unknown oracle query variant"

end Wasm

section Methods

variable (blk : Block) (s : State)

def parseGetExchangeRateArgs (args : List Arg) : Exec String := do
  ensure (args.length = 1) (.error "invalid number of arguments; expected %d; got: %d")
  let denom ← require (args.head?.bind Arg.asString) (.error "invalid denom")
  ensure (denom ≠ "") (.error "invalid denom")
  pure denom

/-- What the method packs of a rate: two texts and a time in milliseconds. -/
structure RateOutput where
  rate : String
  lastUpdate : String
  lastUpdateTimestamp : ℤ
deriving DecidableEq

def packRate (rate : OracleExchangeRate) : RateOutput :=
  ⟨decimalText rate.exchangeRate, toString rate.lastUpdate, rate.lastUpdateTimestamp⟩

def getExchangeRate (args : List Arg) : Exec RateOutput := do
  let denom ← parseGetExchangeRateArgs args
  let rate ← exchangeRate s denom
  pure (packRate rate)

structure RatesOutput where
  denoms : List String
  rates : List String
  lastUpdate : List String
  lastUpdateTimestamps : List ℤ
deriving DecidableEq

def packRates (rates : List (String × OracleExchangeRate)) : RatesOutput where
  denoms := rates.map Prod.fst
  rates := rates.map fun r => decimalText r.2.exchangeRate
  lastUpdate := rates.map fun r => toString r.2.lastUpdate
  lastUpdateTimestamps := rates.map fun r => r.2.lastUpdateTimestamp

def getExchangeRates (args : List Arg) : Exec RatesOutput := do
  ensure (args.length = 0) (.error "invalid number of arguments; expected %d; got: %d")
  pure (packRates (exchangeRates s))

inductive OracleOutput
  | rate (out : RateOutput)
  | rates (out : RatesOutput)
  | twaps (out : TwapsOutput)
deriving DecidableEq

/-- The method of the call by its name. -/
def run (method : String) (args : List Arg) : Exec OracleOutput :=
  if method = "getExchangeRate" then (getExchangeRate s args).map .rate
  else if method = "getExchangeRates" then (getExchangeRates s args).map .rates
  else if method = "getTwaps" then (getTwaps blk s args).map .twaps
  else fail "unknown method: %s"

end Methods

section Texts

/-- The places of a decimal text as a whole number. -/
def readPlaces (digits : List Char) : ℕ := Nat.ofDigitChars 10 (digits.filter (· ≠ '.')) 0

/-- A decimal text in units of its last place. -/
def readDecimal (text : String) : ℤ :=
  match text.toList with
  | '-' :: digits => -readPlaces digits
  | digits => readPlaces digits

/-- The digits of a number with a point before the last eighteen places. -/
def pointed (digits : List Char) : List Char :=
  if digits.length ≤ 18 then '0' :: '.' :: (List.replicate (18 - digits.length) '0' ++ digits)
  else digits.take (digits.length - 18) ++ '.' :: digits.drop (digits.length - 18)

theorem decimalText_eq (x : LegacyDec) : decimalText x = String.ofList
    (if x.raw < 0 then '-' :: pointed (Nat.toDigits 10 x.raw.natAbs)
      else pointed (Nat.toDigits 10 x.raw.natAbs)) := rfl

theorem ne_of_mem_toDigits {n : ℕ} {c d : Char} (hc : c ∈ Nat.toDigits 10 n)
    (hd : d.isDigit = false) : c ≠ d := by
  rintro rfl
  have hdigit := Nat.isDigit_of_mem_toDigits (by norm_num) (by norm_num) hc
  rw [hd] at hdigit
  cases hdigit

theorem filter_toDigits {n : ℕ} : (Nat.toDigits 10 n).filter (· ≠ '.') = Nat.toDigits 10 n := by
  rw [List.filter_eq_self]
  intro c hc
  simpa using ne_of_mem_toDigits hc (d := '.') (by decide)

theorem readPlaces_pointed (n : ℕ) : readPlaces (pointed (Nat.toDigits 10 n)) = n := by
  unfold readPlaces pointed
  split_ifs with hlength
  · have hzeros : ∀ m, (List.replicate m '0').filter (· ≠ '.') = List.replicate m '0' := by
      intro m
      rw [List.filter_eq_self]
      intro c hc
      rw [List.eq_of_mem_replicate hc]
      decide
    simp only [List.filter_cons, List.filter_append, hzeros, filter_toDigits]
    simp [Nat.ofDigitChars_cons, Nat.ofDigitChars_append, Nat.ofDigitChars_replicate_zero]
  · have hsame : ((Nat.toDigits 10 n).take ((Nat.toDigits 10 n).length - 18) ++
        '.' :: (Nat.toDigits 10 n).drop ((Nat.toDigits 10 n).length - 18)).filter (· ≠ '.') =
          Nat.toDigits 10 n := by
      rw [List.filter_append, List.filter_cons, if_neg (by decide), ← List.filter_append,
        List.take_append_drop, filter_toDigits]
    rw [hsame, Nat.ofDigitChars_ten_toDigits]

/-- The digits of a text start with no sign. -/
theorem head?_pointed (n : ℕ) : (pointed (Nat.toDigits 10 n)).head? ≠ some '-' := by
  unfold pointed
  split_ifs with hlength
  · simp
  · intro h
    have hmem : '-' ∈ (Nat.toDigits 10 n).take ((Nat.toDigits 10 n).length - 18) := by
      rw [List.head?_append] at h
      cases htake : (Nat.toDigits 10 n).take ((Nat.toDigits 10 n).length - 18) with
      | nil =>
          have hzero := congrArg List.length htake
          rw [List.length_take, List.length_nil] at hzero
          omega
      | cons c cs =>
          rw [htake] at h
          obtain rfl := Option.some.inj h
          exact List.mem_cons_self
    exact ne_of_mem_toDigits (List.mem_of_mem_take hmem) (d := '-') (by decide) rfl

/-- Every price is read back from its text. -/
theorem readDecimal_decimalText (x : LegacyDec) : readDecimal (decimalText x) = x.raw := by
  rw [decimalText_eq, readDecimal, String.toList_ofList]
  split_ifs with hneg
  · simp only [readPlaces_pointed]
    omega
  · have hhead := head?_pointed x.raw.natAbs
    generalize hdigits : pointed (Nat.toDigits 10 x.raw.natAbs) = digits at hhead
    have hplaces : readPlaces digits = x.raw.natAbs := by rw [← hdigits, readPlaces_pointed]
    split
    · exact absurd rfl hhead
    · rw [hplaces]
      omega

end Texts

section Reports

/-- A contract that reads what the precompile answers sees this rate. -/
def Reads (out : RateOutput) (rate : OracleExchangeRate) : Prop :=
  readDecimal out.rate = rate.exchangeRate.raw ∧ out.lastUpdate = toString rate.lastUpdate ∧
    out.lastUpdateTimestamp = rate.lastUpdateTimestamp

/-- The rate stands in the lists of the precompile, all at one place. -/
def ReadsAt (out : RatesOutput) (i : ℕ) (denom : String) (rate : OracleExchangeRate) : Prop :=
  out.denoms[i]? = some denom ∧ (∃ text ∈ out.rates[i]?, readDecimal text = rate.exchangeRate.raw) ∧
    out.lastUpdate[i]? = some (toString rate.lastUpdate) ∧
    out.lastUpdateTimestamps[i]? = some rate.lastUpdateTimestamp

/-- The rate of a denomination as every front end reports it: the query server and the wasm
bindings as it is, the precompile in what it packs, and each list in its place. -/
structure Reported (blk : Block) (s : State) (denom : String) (rate : OracleExchangeRate) : Prop where
  server : exchangeRate s denom = .ok rate
  wasm : ∀ rates twaps, handleOracleQuery blk s ⟨some denom, rates, twaps⟩ = .ok (.exchangeRate rate)
  precompile : ∃ out, run blk s "getExchangeRate" [.string denom] = .ok (.rate out) ∧ Reads out rate
  listed : (denom, rate) ∈ exchangeRates s
  packed : ∃ out i, run blk s "getExchangeRates" [] = .ok (.rates out) ∧ ReadsAt out i denom rate
  active : denom ∈ actives s

variable {blk : Block} {s : State} {denom : String} {rate : OracleExchangeRate}

theorem exchangeRate_eq_ok : exchangeRate s denom = .ok rate ↔
    denom ≠ "" ∧ s.exchangeRate.get? denom = some rate := by
  simp only [exchangeRate, bind_eq_ok, ensure_eq_ok, require_eq_ok, exists_const]

theorem handleExchangeRate_eq : handleExchangeRate s denom = .ok rate ↔
    exchangeRate s denom = .ok rate := by
  simp only [handleExchangeRate, exchangeRate_eq_ok, bind_eq_ok, ensure_eq_ok, exists_const,
    and_self_left]

theorem getExchangeRate_eq_ok {out : RateOutput} : getExchangeRate s [.string denom] = .ok out ↔
    ∃ rate, exchangeRate s denom = .ok rate ∧ packRate rate = out := by
  simp only [getExchangeRate, parseGetExchangeRateArgs, exchangeRate_eq_ok, bind_eq_ok,
    ensure_eq_ok, require_eq_ok, pure_eq_ok, Except.ok.injEq, List.length_singleton, exists_const,
    true_and, List.head?_cons, Option.bind_some, Arg.asString, Option.some.injEq]
  constructor
  · rintro ⟨_, ⟨_, rfl, hne, rfl⟩, rate, ⟨_, hget⟩, rfl⟩
    exact ⟨rate, ⟨hne, hget⟩, rfl⟩
  · rintro ⟨rate, ⟨hne, hget⟩, rfl⟩
    exact ⟨denom, ⟨denom, rfl, hne, rfl⟩, rate, ⟨hne, hget⟩, rfl⟩

theorem exists_readsAt {rates : List (String × OracleExchangeRate)} (h : (denom, rate) ∈ rates) :
    ∃ i, ReadsAt (packRates rates) i denom rate := by
  obtain ⟨i, hi⟩ := List.mem_iff_getElem?.mp h
  refine ⟨i, ?_, ⟨decimalText rate.exchangeRate, ?_, readDecimal_decimalText _⟩, ?_, ?_⟩
  all_goals simp [packRates, List.getElem?_map, hi]

theorem reported_iff (hne : denom ≠ "") :
    Reported blk s denom rate ↔ s.exchangeRate.get? denom = some rate := by
  constructor
  · intro h
    exact (exchangeRate_eq_ok.mp h.server).2
  · intro h
    have hserver := exchangeRate_eq_ok.mpr ⟨hne, h⟩
    have hlisted : (denom, rate) ∈ exchangeRates s := SortedMap.get?_eq_some.mp h
    have hpacked := getExchangeRate_eq_ok.mpr ⟨rate, hserver, rfl⟩
    obtain ⟨i, hi⟩ := exists_readsAt hlisted
    refine ⟨hserver, fun _ _ => ?_, ⟨packRate rate, ?_, readDecimal_decimalText _, rfl, rfl⟩,
      hlisted, ⟨packRates (exchangeRates s), i, rfl, hi⟩, SortedMap.mem_keys.mpr ⟨rate, h⟩⟩
    · simp only [handleOracleQuery, handleExchangeRate_eq.mpr hserver]
      rfl
    · rw [run, if_pos rfl, hpacked]
      rfl

/-- Where there is no rate, every front end fails, or leaves the denomination out. -/
theorem unreported (h : s.exchangeRate.get? denom = none) :
    ¬ Returns (exchangeRate s denom) ∧ ¬ Returns (handleExchangeRate s denom) ∧
      ¬ Returns (getExchangeRate s [.string denom]) ∧ denom ∉ actives s := by
  have hserver : ∀ rate, exchangeRate s denom ≠ .ok rate := by
    intro rate hrate
    rw [(exchangeRate_eq_ok.mp hrate).2] at h
    cases h
  refine ⟨fun ⟨rate, hrate⟩ => hserver rate hrate,
    fun ⟨rate, hrate⟩ => hserver rate (handleExchangeRate_eq.mp hrate), ?_, ?_⟩
  · rintro ⟨out, hout⟩
    obtain ⟨rate, hrate, _⟩ := getExchangeRate_eq_ok.mp hout
    exact hserver rate hrate
  · intro hactive
    obtain ⟨rate, hrate⟩ := SortedMap.mem_keys.mp hactive
    rw [h] at hrate
    cases hrate

end Reports

namespace TwoBitcoins
open ThirdBlock (env start priced priced_rate)

def rate : OracleExchangeRate := ⟨.ofInt 2, 3, GoTime.unixMilli 0⟩

example : packRate rate = ⟨"2.000000000000000000", "3", GoTime.unixMilli 0⟩ := by decide

end TwoBitcoins

end Kiichain.OraclePrecompile
