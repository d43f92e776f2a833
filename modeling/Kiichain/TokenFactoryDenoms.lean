import Kiichain.Bech32
import Kiichain.TokenFactoryFrontEnds

/-!
# Denominations of the factory and their parts

A denomination joins the module's prefix, the creator's text and the subdenom by
slashes. No creator's text has a slash, so the parts can be told from it; but the
creator is given back as the text of its account, which is in lower case.
-/

namespace Kiichain.TokenFactory
open GoExec

section Codec

variable {k : Keeper} {creator creator' subdenom subdenom' denom : String}

/-- The text of an account is the lower case of every text that stands for it. -/
def StringsLower (k : Keeper) : Prop :=
  ∀ s a, k.accAddressFromBech32 s = some a → k.addressString a = Bech32.toLower s

/-- The denomination of a creator and a subdenom is there, it is taken apart into the
same two, and no other two that are accepted share it. -/
structure Coded (k : Keeper) (creator subdenom denom : String) : Prop where
  encoded : getTokenDenom creator subdenom = .ok denom
  decoded : deconstructDenom k denom = .ok (creator, subdenom)
  unshared : ∀ creator' subdenom',
    MsgServer.validateCreateDenomMsg k ⟨creator', subdenom'⟩ = .ok () →
      getTokenDenom creator' subdenom' = .ok denom → creator' = creator ∧ subdenom' = subdenom

theorem validateCreateDenomMsg_eq_ok : MsgServer.validateCreateDenomMsg k ⟨creator, subdenom⟩ = .ok () ↔
    (k.accAddressFromBech32 creator).isSome = true ∧
      getTokenDenom creator subdenom = .ok (tokenDenom creator subdenom) := by
  simp only [MsgServer.validateCreateDenomMsg, bind_eq_ok, ensure_eq_ok, exists_const]
  apply and_congr_right'
  cases h : getTokenDenom creator subdenom with
  | error e => simp [fail]
  | ok denom =>
      simp only [getTokenDenom, bind_eq_ok, pure_eq_ok, Except.ok.injEq] at h
      obtain ⟨_, _, _, _, _, _, _, _, rfl⟩ := h
      simp

theorem slash_not_mem_of_getTokenDenom (h : getTokenDenom creator subdenom = .ok denom) :
    '/' ∉ creator.toList ∧ denom = tokenDenom creator subdenom := by
  simp only [getTokenDenom, bind_eq_ok, ensure_eq_ok, pure_eq_ok, Except.ok.injEq] at h
  obtain ⟨_, _, _, _, _, hslash, _, _, rfl⟩ := h
  exact ⟨hslash, rfl⟩

/-- The first slash after the prefix ends the creator. -/
theorem getTokenDenom_injective (h : getTokenDenom creator subdenom = .ok denom)
    (h' : getTokenDenom creator' subdenom' = .ok denom) :
    creator' = creator ∧ subdenom' = subdenom := by
  obtain ⟨hslash, rfl⟩ := slash_not_mem_of_getTokenDenom h
  obtain ⟨hslash', heq⟩ := slash_not_mem_of_getTokenDenom h'
  have hparts := congrArg (fun s : String => GoStrings.split '/' s.toList) heq
  simp only [split_tokenDenom hslash, split_tokenDenom hslash'] at hparts
  simp only [List.cons.injEq, true_and] at hparts
  obtain ⟨hcreator, hsubdenom⟩ := hparts
  have hjoined := congrArg (List.intercalate ['/']) hsubdenom
  rw [GoStrings.intercalate_split, GoStrings.intercalate_split] at hjoined
  exact ⟨(String.toList_inj.mp hcreator).symm, (String.toList_inj.mp hjoined).symm⟩

/-- The parts of every accepted pair come back from its denomination, and the pair is
the only one of it, exactly where the creator is written in lower case. -/
theorem coded_iff_lower (hk : StringsLower k) (msg : MsgCreateDenom)
    (h : MsgServer.validateCreateDenomMsg k msg = .ok ()) :
    (∃ denom, Coded k msg.sender msg.subdenom denom) ↔ Bech32.toLower msg.sender = msg.sender := by
  obtain ⟨hsome, hdenom⟩ := validateCreateDenomMsg_eq_ok.mp h
  obtain ⟨a, ha⟩ := Option.isSome_iff_exists.mp hsome
  have hdecoded := deconstructDenom_tokenDenom hdenom ha
  rw [hk _ _ ha] at hdecoded
  constructor
  · rintro ⟨denom, hcoded⟩
    obtain ⟨_, rfl⟩ := slash_not_mem_of_getTokenDenom hcoded.encoded
    have hparts := hdecoded.symm.trans hcoded.decoded
    exact (Prod.mk.inj (Except.ok.inj hparts)).1
  · intro hlower
    rw [hlower] at hdecoded
    exact ⟨_, hdenom, hdecoded, fun creator' subdenom' _ h' => getTokenDenom_injective hdenom h'⟩

end Codec

namespace UpperCaseCreator

/-- Accounts of the chain are the lower-case texts with its prefix. -/
def accAddressFromBech32 (s : String) : Option Account :=
  match Bech32.decode s with
  | some (hrp, bz) =>
    if hrp = "kii" ∧ bz ≠ [] ∧ bz.length ≤ 255 then some (.user (Bech32.toLower s)) else none
  | none => none

def keeper : Keeper where
  enabledCapabilities := []
  permAddrs := [moduleName]
  accAddressFromBech32 := accAddressFromBech32
  addressString
    | .user address => address
    | .module name => name
  blockedAddr _ := false
  metadataValid _ := true
  empty_address := by decide

def creator : String := "KII10JMP6SGH4CC6ZT3E8GW05WAVVEJGR5PWFE2U6N"

def creatorLower : String := "kii10jmp6sgh4cc6zt3e8gw05wavvejgr5pwfe2u6n"

def bytes : List UInt8 := (Bech32.contentOf creatorLower).2

set_option maxRecDepth 20000 in
theorem written : Bech32.encode "kii" bytes = creatorLower ∧ bytes.length = 20 := by decide

/-- Both ways of writing the creator stand for one account. -/
theorem account_of_toLower {s : String} (hcase : Bech32.toLower s = s ∨ Bech32.toUpper s = s)
    (hlower : Bech32.toLower s = creatorLower) (hlength : s.length ≤ Bech32.maxLength) :
    keeper.accAddressFromBech32 s = some (.user creatorLower) := by
  obtain ⟨hwritten, hbytes⟩ := written
  have hdecode : Bech32.decode s = some ("kii", bytes) :=
    Bech32.decode_of_toLower hcase (hlower.trans hwritten.symm) (by decide) hlength
  have hne : bytes ≠ [] := fun hnil => by simp [hnil] at hbytes
  have hle : bytes.length ≤ 255 := by omega
  change accAddressFromBech32 s = _
  simp only [accAddressFromBech32, hdecode, hlower]
  exact if_pos ⟨trivial, hne, hle⟩

set_option maxRecDepth 4000 in
theorem accounts : keeper.accAddressFromBech32 creator = some (.user creatorLower) ∧
    keeper.accAddressFromBech32 creatorLower = some (.user creatorLower) :=
  ⟨account_of_toLower (Or.inr (by decide)) (by decide) (by decide),
    account_of_toLower (Or.inl (by decide)) (by decide) (by decide)⟩

set_option maxRecDepth 40000 in
theorem denoms : getTokenDenom creator "gold" = .ok (tokenDenom creator "gold") ∧
    getTokenDenom creatorLower "gold//bars/" = .ok (tokenDenom creatorLower "gold//bars/") := by
  decide

set_option maxRecDepth 4000 in
theorem creator_ne : creatorLower ≠ creator := by decide

theorem stringsLower : StringsLower keeper := by
  intro s a h
  simp only [keeper, accAddressFromBech32] at h ⊢
  split at h
  · split_ifs at h
    cases h
    rfl
  · cases h

theorem accepted {sender subdenom : String} {a : Account}
    (hsender : keeper.accAddressFromBech32 sender = some a)
    (hdenom : getTokenDenom sender subdenom = .ok (tokenDenom sender subdenom)) :
    MsgServer.validateCreateDenomMsg keeper ⟨sender, subdenom⟩ = .ok () :=
  validateCreateDenomMsg_eq_ok.mpr ⟨by rw [hsender]; rfl, hdenom⟩

/-- The creator comes back in lower case. -/
theorem creator_lost : StringsLower keeper ∧
    MsgServer.validateCreateDenomMsg keeper ⟨creator, "gold"⟩ = .ok () ∧
    ¬ ∃ denom, Coded keeper creator "gold" denom := by
  refine ⟨stringsLower, accepted accounts.1 denoms.1, ?_⟩
  rintro ⟨denom, h⟩
  have hdecoded := deconstructDenom_tokenDenom (k := keeper) h.encoded accounts.1
  rw [h.decoded, Except.ok.injEq, Prod.mk.injEq] at hdecoded
  exact creator_ne hdecoded.1.symm

def msg : MsgCreateDenom := ⟨creatorLower, "gold//bars/"⟩

theorem lower_coded : StringsLower keeper ∧ MsgServer.validateCreateDenomMsg keeper msg = .ok () ∧
    ∃ denom, Coded keeper msg.sender msg.subdenom denom := by
  have hvalid : MsgServer.validateCreateDenomMsg keeper msg = .ok () :=
    accepted accounts.2 denoms.2
  exact ⟨stringsLower, hvalid, (coded_iff_lower stringsLower msg hvalid).mpr (by decide)⟩

end UpperCaseCreator

end Kiichain.TokenFactory
