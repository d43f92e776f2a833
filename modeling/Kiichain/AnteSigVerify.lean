import Kiichain.GoExec
import Mathlib.Algebra.Order.BigOperators.Group.List

/-!
# Gas for signatures

Verifying a multisignature costs what the signatures in it cost, down to the keys at
the leaves. The bits of a multisignature say which of the keys have signed, and its
signatures are those of the set bits in order.
-/

namespace Kiichain.Ante
open GoExec

/-- A key of the chain. The type of an `other` key is not supported. -/
inductive PubKey
  | secp256k1
  | ethsecp256k1
  | ed25519
  | multisig (pubKeys : List PubKey)
  | other

inductive SignatureData
  | single
  | multi (bitArray : List Bool) (signatures : List SignatureData)

/-- A meter without a limit has the largest one, which is where its count overflows. -/
@[ext] structure GasMeter where
  limit : ℕ
  consumed : ℕ
  within : consumed ≤ limit

/-- The parameters of the account module that price a signature. -/
structure SigParams where
  sigVerifyCostSecp256k1 : ℕ
  sigVerifyCostED25519 : ℕ

def secp256k1VerifyCost : ℕ := 21000

section Consumer

def GasMeter.consumeGas (meter : GasMeter) (amount : ℕ) (descriptor : String) : Exec GasMeter :=
  if h : meter.consumed + amount ≤ meter.limit then .ok ⟨meter.limit, meter.consumed + amount, h⟩
  else .error (.panic descriptor)

/-- The bits are gone through with the consumers of the keys; one without its key or
its signature is an index out of range. -/
def consumeMultisignatureVerificationGas :
    List (SignatureData → GasMeter → Exec GasMeter) → List Bool → List SignatureData → GasMeter →
      Exec GasMeter
  | _, [], _, meter => pure meter
  | consumers, false :: bitArray, signatures, meter =>
    consumeMultisignatureVerificationGas consumers.tail bitArray signatures meter
  | consumer :: consumers, true :: bitArray, sig :: signatures, meter => do
    let meter ← consumer sig meter
    consumeMultisignatureVerificationGas consumers bitArray signatures meter
  | _, true :: _, _, _ => .error (.panic "index out of range")

variable (params : SigParams)

mutual

def sigVerificationGasConsumer : PubKey → SignatureData → GasMeter → Exec GasMeter
  | .secp256k1, _, meter =>
    meter.consumeGas params.sigVerifyCostSecp256k1 "ante verify: secp256k1"
  | .ethsecp256k1, _, meter => meter.consumeGas secp256k1VerifyCost "ante verify: eth_secp256k1"
  | .ed25519, _, meter => do
    let _ ← meter.consumeGas params.sigVerifyCostED25519 "ante verify: ed25519"
    fail "ED25519 public keys are unsupported: invalid pubkey"
  | .multisig pubKeys, .multi bitArray signatures, meter =>
    consumeMultisignatureVerificationGas (gasConsumers pubKeys) bitArray signatures meter
  | .multisig _, .single, _ => fail "expected %T, got, %T"
  | .other, _, _ => fail "unrecognized/unsupported public key type: %T: invalid pubkey"

/-- The consumer of each key of a multisignature. -/
def gasConsumers : List PubKey → List (SignatureData → GasMeter → Exec GasMeter)
  | [] => []
  | pubKey :: pubKeys => sigVerificationGasConsumer pubKey :: gasConsumers pubKeys

end

end Consumer

section Leaves

/-- What the set bits select, put together; none where a key or a signature is missing. -/
def selected {α : Type} : List (SignatureData → Option (List α)) → List Bool → List SignatureData →
    Option (List α)
  | _, [], _ => some []
  | fs, false :: bitArray, signatures => selected fs.tail bitArray signatures
  | f :: fs, true :: bitArray, sig :: signatures => do
    let first ← f sig
    let rest ← selected fs bitArray signatures
    some (first ++ rest)
  | _, true :: _, _ => none

mutual

/-- The keys whose single signatures a signature consists of; none where its shape is
not that of the key. -/
def leaves? : PubKey → SignatureData → Option (List PubKey)
  | .multisig pubKeys, .multi bitArray signatures =>
    selected (allLeaves pubKeys) bitArray signatures
  | .multisig _, .single => none
  | .secp256k1, _ => some [.secp256k1]
  | .ethsecp256k1, _ => some [.ethsecp256k1]
  | .ed25519, _ => some [.ed25519]
  | .other, _ => some [.other]

def allLeaves : List PubKey → List (SignatureData → Option (List PubKey))
  | [] => []
  | pubKey :: pubKeys => leaves? pubKey :: allLeaves pubKeys

end

/-- The price of one signature of a key; keys of other types are refused. -/
def PubKey.cost (params : SigParams) : PubKey → ℕ
  | .secp256k1 => params.sigVerifyCostSecp256k1
  | .ethsecp256k1 => secp256k1VerifyCost
  | _ => 0

def totalCost (params : SigParams) (leaves : List PubKey) : ℕ :=
  (leaves.map (PubKey.cost params)).sum

def Supported (leaves : List PubKey) : Prop :=
  ∀ leaf ∈ leaves, leaf = .secp256k1 ∨ leaf = .ethsecp256k1

/-- The meter pays for the signatures of keys that are all supported. -/
structure Pays (params : SigParams) (leaves : List PubKey) (meter meter' : GasMeter) : Prop where
  supported : Supported leaves
  limit : meter'.limit = meter.limit
  consumed : meter'.consumed = meter.consumed + totalCost params leaves

variable {params : SigParams} {meter meter' : GasMeter} {leaves leaves' : List PubKey}

theorem consumeGas_eq_ok {amount : ℕ} {descriptor : String} :
    meter.consumeGas amount descriptor = .ok meter' ↔
      meter'.limit = meter.limit ∧ meter'.consumed = meter.consumed + amount := by
  unfold GasMeter.consumeGas
  constructor
  · intro h
    split_ifs at h
    cases h
    exact ⟨rfl, rfl⟩
  · rintro ⟨hlimit, hconsumed⟩
    have hwithin := meter'.within
    rw [dif_pos (by omega)]
    exact congrArg Except.ok (GasMeter.ext hlimit.symm hconsumed.symm)

theorem pays_nil : Pays params [] meter meter' ↔ meter' = meter := by
  constructor
  · rintro ⟨_, hlimit, hconsumed⟩
    exact GasMeter.ext hlimit hconsumed
  · rintro rfl
    exact ⟨by simp [Supported], rfl, rfl⟩

theorem pays_singleton {leaf : PubKey} (h : leaf = .secp256k1 ∨ leaf = .ethsecp256k1) :
    Pays params [leaf] meter meter' ↔
      meter'.limit = meter.limit ∧ meter'.consumed = meter.consumed + leaf.cost params := by
  have htotal : totalCost params [leaf] = leaf.cost params := by simp [totalCost]
  constructor
  · rintro ⟨_, hlimit, hconsumed⟩
    rw [htotal] at hconsumed
    exact ⟨hlimit, hconsumed⟩
  · rintro ⟨hlimit, hconsumed⟩
    refine ⟨?_, hlimit, by rw [htotal, hconsumed]⟩
    intro l hl
    rw [List.mem_singleton.mp hl]
    exact h

theorem pays_append : Pays params (leaves ++ leaves') meter meter' ↔
    ∃ between, Pays params leaves meter between ∧ Pays params leaves' between meter' := by
  have htotal : totalCost params (leaves ++ leaves') =
      totalCost params leaves + totalCost params leaves' := by
    simp [totalCost]
  constructor
  · rintro ⟨hsupported, hlimit, hconsumed⟩
    have hwithin := meter'.within
    refine ⟨⟨meter.limit, meter.consumed + totalCost params leaves, by omega⟩,
      ⟨fun l hl => hsupported l (List.mem_append_left _ hl), rfl, rfl⟩,
      ⟨fun l hl => hsupported l (List.mem_append_right _ hl), hlimit, ?_⟩⟩
    dsimp only
    omega
  · rintro ⟨between, ⟨hsupported, hlimit, hconsumed⟩, ⟨hsupported', hlimit', hconsumed'⟩⟩
    refine ⟨?_, hlimit'.trans hlimit, by omega⟩
    intro l hl
    exact (List.mem_append.mp hl).elim (hsupported l) (hsupported' l)

end Leaves

section Spec

variable (params : SigParams)

/-- A consumer charges for the leaves, where there are any, and refuses otherwise. -/
def Charges (consumer : SignatureData → GasMeter → Exec GasMeter)
    (leaves : SignatureData → Option (List PubKey)) : Prop :=
  ∀ sig meter meter', consumer sig meter = .ok meter' ↔
    ∃ l, leaves sig = some l ∧ Pays params l meter meter'

variable {params}

theorem selected_cons_eq_some {α : Type} {f : SignatureData → Option (List α)}
    {fs : List (SignatureData → Option (List α))} {bitArray : List Bool} {sig : SignatureData}
    {signatures : List SignatureData} {l : List α} :
    selected (f :: fs) (true :: bitArray) (sig :: signatures) = some l ↔
      ∃ first rest, f sig = some first ∧ selected fs bitArray signatures = some rest ∧
        l = first ++ rest := by
  simp only [selected, Option.bind_eq_bind, Option.bind_eq_some_iff, Option.some.injEq]
  constructor
  · rintro ⟨first, hfirst, rest, hrest, rfl⟩
    exact ⟨first, rest, hfirst, hrest, rfl⟩
  · rintro ⟨first, rest, hfirst, hrest, rfl⟩
    exact ⟨first, hfirst, rest, hrest, rfl⟩

/-- The loop over the bits charges for what they select. -/
theorem charges_loop {consumers : List (SignatureData → GasMeter → Exec GasMeter)}
    {fs : List (SignatureData → Option (List PubKey))} (h : List.Forall₂ (Charges params) consumers fs)
    (bitArray : List Bool) (signatures : List SignatureData) (meter meter' : GasMeter) :
    consumeMultisignatureVerificationGas consumers bitArray signatures meter = .ok meter' ↔
      ∃ l, selected fs bitArray signatures = some l ∧ Pays params l meter meter' := by
  induction bitArray generalizing consumers fs signatures meter with
  | nil => simp [consumeMultisignatureVerificationGas, selected, pays_nil, pure_eq_ok, eq_comm]
  | cons bit bitArray ih =>
      cases bit with
      | false =>
          have htail : List.Forall₂ (Charges params) consumers.tail fs.tail := by
            cases h with
            | nil => exact .nil
            | cons _ hrest => exact hrest
          simp only [consumeMultisignatureVerificationGas, selected]
          exact ih htail signatures meter
      | true =>
          cases h with
          | nil => simp [consumeMultisignatureVerificationGas, selected]
          | cons hfirst hrest =>
              cases signatures with
              | nil => simp [consumeMultisignatureVerificationGas, selected]
              | cons sig signatures =>
                  simp only [consumeMultisignatureVerificationGas, bind_eq_ok, hfirst sig, ih hrest,
                    selected_cons_eq_some]
                  constructor
                  · rintro ⟨between, ⟨first, hf, hpays⟩, rest, hr, hpays'⟩
                    exact ⟨_, ⟨first, rest, hf, hr, rfl⟩, pays_append.mpr ⟨between, hpays, hpays'⟩⟩
                  · rintro ⟨_, ⟨first, rest, hf, hr, rfl⟩, hpays⟩
                    obtain ⟨between, hpays, hpays'⟩ := pays_append.mp hpays
                    exact ⟨between, ⟨first, hf, hpays⟩, rest, hr, hpays'⟩

theorem charges_supported {key : PubKey} (h : key = .secp256k1 ∨ key = .ethsecp256k1)
    {descriptor : String} : Charges params
      (fun _ meter => meter.consumeGas (key.cost params) descriptor) (fun _ => some [key]) := by
  intro sig meter meter'
  rw [consumeGas_eq_ok, ← pays_singleton h]
  simp

/-- A key whose consumer never returns is no leaf that the meter can pay for. -/
theorem charges_refused {key : PubKey} (h : ¬ (key = .secp256k1 ∨ key = .ethsecp256k1))
    {consumer : SignatureData → GasMeter → Exec GasMeter}
    (hrefused : ∀ sig meter meter', consumer sig meter ≠ .ok meter') :
    Charges params consumer (fun _ => some [key]) := by
  intro sig meter meter'
  constructor
  · exact fun heq => absurd heq (hrefused sig meter meter')
  · rintro ⟨l, hl, hpays⟩
    obtain rfl := Option.some.inj hl
    exact absurd (hpays.supported key (List.mem_singleton_self key)) h

mutual

theorem charges_key : ∀ key : PubKey,
    Charges params (sigVerificationGasConsumer params key) (leaves? key)
  | .secp256k1 => charges_supported (Or.inl rfl)
  | .ethsecp256k1 => charges_supported (Or.inr rfl)
  | .ed25519 => charges_refused (by simp) fun sig meter meter' h => by
      simp [sigVerificationGasConsumer, bind_eq_ok, fail] at h
  | .other => charges_refused (by simp) fun sig meter meter' h => by
      simp [sigVerificationGasConsumer, fail] at h
  | .multisig pubKeys => fun sig meter meter' => by
      cases sig with
      | single => simp [sigVerificationGasConsumer, leaves?, fail]
      | multi bitArray signatures =>
          simp only [sigVerificationGasConsumer, leaves?]
          exact charges_loop (charges_keys pubKeys) bitArray signatures meter meter'

theorem charges_keys : ∀ keys : List PubKey,
    List.Forall₂ (Charges params) (gasConsumers params keys) (allLeaves keys)
  | [] => .nil
  | key :: keys => .cons (charges_key key) (charges_keys keys)

end

/-- Signatures cost no less than the cheaper kind of supported key does. -/
theorem Supported.length_mul_le {leaves : List PubKey} (h : Supported leaves) :
    leaves.length * min params.sigVerifyCostSecp256k1 secp256k1VerifyCost ≤
      totalCost params leaves := by
  have hcost : ∀ n ∈ leaves.map (PubKey.cost params),
      min params.sigVerifyCostSecp256k1 secp256k1VerifyCost ≤ n := by
    intro n hn
    obtain ⟨leaf, hleaf, rfl⟩ := List.mem_map.mp hn
    obtain rfl | rfl := h leaf hleaf
    · exact min_le_left _ _
    · exact min_le_right _ _
  have hsum := List.card_nsmul_le_sum _ _ hcost
  rwa [List.length_map, smul_eq_mul] at hsum

end Spec

namespace NestedMultisig

def key : PubKey := .multisig [.secp256k1, .ed25519, .multisig [.other, .ethsecp256k1]]

/-- Two of three keys sign, one of them with one of its two keys. -/
def sig : SignatureData := .multi [true, false, true] [.single, .multi [false, true] [.single]]

def params : SigParams := ⟨1000, 590⟩

theorem leaves_eq : leaves? key sig = some [.secp256k1, .ethsecp256k1] := by rfl

end NestedMultisig

end Kiichain.Ante
