import Kiichain.Bech32
import Kiichain.GoExec

/-!
# The bech32 queries of contracts

A contract asks for the bech32 text of a hex address under some prefix, or for the
hex address of a bech32 text. The addresses and their codecs are those of the SDK
and of the EVM library; the prefix of a text is what stands before its first `1`.
-/

namespace Kiichain.WasmBech32
open GoExec

/-- An EVM address has twenty bytes. -/
abbrev Address := {bz : List UInt8 // bz.length = 20}

structure HexToBech32 where
  address : String
  bech32Prefix : String

structure Bech32ToHex where
  address : String

structure HexToBech32Response where
  address : String
deriving DecidableEq

structure Bech32ToHexResponse where
  address : String
deriving DecidableEq

structure Query where
  hexToBech32 : Option HexToBech32
  bech32ToHex : Option Bech32ToHex

inductive Response
  | hexToBech32 (address : HexToBech32Response)
  | bech32ToHex (address : Bech32ToHexResponse)

/-- The functions of the SDK and of the EVM library that the queries call. -/
structure Codecs where
  hexToAddress : String → Address
  bytesToAddress : List UInt8 → Address
  addressString : Address → String
  bech32ifyAddressBytes : String → List UInt8 → Exec String
  getFromBech32 : String → String → Exec (List UInt8)
  verifyAddressFormat : List UInt8 → Exec Unit

section Queries

variable (c : Codecs)

/-- The text before the first separator, or the whole text without one. -/
def prefixOf (address : String) : String := String.ofList (address.toList.takeWhile (· ≠ '1'))

def handleHexToBech32 (req : HexToBech32) : Exec HexToBech32Response := do
  let address := c.hexToAddress req.address
  let bech32Address ← c.bech32ifyAddressBytes req.bech32Prefix address.val
  pure ⟨bech32Address⟩

def handleBech32ToHex (req : Bech32ToHex) : Exec Bech32ToHexResponse := do
  let bech32Prefix := prefixOf req.address
  ensure (bech32Prefix ≠ req.address) (.error "invalid bech32 address: %s")
  let addressBz ← c.getFromBech32 req.address bech32Prefix
  c.verifyAddressFormat addressBz
  pure ⟨c.addressString (c.bytesToAddress addressBz)⟩

def handleBech32Query (bech32Query : Query) : Exec Response :=
  match bech32Query.hexToBech32, bech32Query.bech32ToHex with
  | some req, _ => (handleHexToBech32 c req).map .hexToBech32
  | none, some req => (handleBech32ToHex c req).map .bech32ToHex
  | none, none => fail "unknown bech32 query variant"

end Queries

section Contract

variable (c : Codecs)

/-- A human-readable part: one to 83 printable characters, in either case. -/
def AcceptedHrp (hrp : String) : Prop := Bech32.ValidHrp hrp ∧ hrp.length ≤ 83

/-- What is documented of the codecs: a text is its prefix, the separator and a data
part without one, of six characters more than the groups of five bits; the text of a
prefix in lower case is read back, and what is read is, in lower case, what it is
written as. -/
structure Documented : Prop where
  encodes : ∀ hrp bz, AcceptedHrp hrp → bz.length = 20 → Returns (c.bech32ifyAddressBytes hrp bz)
  shape : ∀ hrp bz text, bz ≠ [] → c.bech32ifyAddressBytes hrp bz = .ok text →
    ∃ data, text.toList = hrp.toList ++ '1' :: data ∧ '1' ∉ data ∧
      data.length = Bech32.groupCount bz.length + 6
  decodes : ∀ hrp bz text, AcceptedHrp hrp → Bech32.toLower hrp = hrp → bz.length = 20 →
    c.bech32ifyAddressBytes hrp bz = .ok text → c.getFromBech32 text hrp = .ok bz
  encoded : ∀ text hrp bz, bz ≠ [] → c.getFromBech32 text hrp = .ok bz →
    c.bech32ifyAddressBytes hrp bz = .ok (Bech32.toLower text)
  verifies : ∀ bz, bz.length = 20 → c.verifyAddressFormat bz = .ok ()
  nonempty : ∀ bz, c.verifyAddressFormat bz = .ok () → bz ≠ []
  bytes : ∀ address : Address, c.bytesToAddress address.val = address
  hex : ∀ address, c.hexToAddress (c.addressString address) = address

/-- The bech32 text of an address is taken back to the address. -/
def AddressReturns (hrp address : String) : Prop :=
  ∃ text, handleHexToBech32 c ⟨address, hrp⟩ = .ok ⟨text⟩ ∧
    handleBech32ToHex c ⟨text⟩ = .ok ⟨c.addressString (c.hexToAddress address)⟩

/-- The hex address of a text is taken back to the text, up to its case. -/
def TextReturns (text address : String) : Prop :=
  ∃ text', handleHexToBech32 c ⟨address, prefixOf text⟩ = .ok ⟨text'⟩ ∧
    Bech32.toLower text' = Bech32.toLower text

/-- The characters of a text after its first separator. -/
def dataLength (text : String) : ℕ := text.length - (prefixOf text).length - 1

end Contract

section Texts

theorem takeWhile_separator {hrp data : List Char} (h : '1' ∉ hrp) :
    (hrp ++ '1' :: data).takeWhile (· ≠ '1') = hrp := by
  have hhrp : ∀ x ∈ hrp, (!decide (x = '1')) = true := by
    intro x hx
    have hne : x ≠ '1' := fun heq => h (heq ▸ hx)
    simp [hne]
  simp [List.takeWhile_append_of_pos hhrp]

/-- The last separator of a text is in one place. -/
theorem parts_unique {hrp hrp' data data' : List Char} (h : '1' ∉ data) (h' : '1' ∉ data')
    (heq : hrp ++ '1' :: data = hrp' ++ '1' :: data') : hrp = hrp' ∧ data = data' := by
  have hfirst := congrArg Bech32.hrpOf heq
  have hrest := congrArg Bech32.dataOf heq
  rw [Bech32.hrpOf_append h, Bech32.hrpOf_append h'] at hfirst
  rw [Bech32.dataOf_append h, Bech32.dataOf_append h'] at hrest
  exact ⟨hfirst, hrest⟩

theorem separator_not_mem_prefixOf (text : String) : '1' ∉ (prefixOf text).toList := by
  rw [prefixOf, String.toList_ofList]
  intro h
  have hall := List.all_takeWhile (p := fun c => decide (c ≠ '1')) (l := text.toList)
  exact absurd (List.all_eq_true.mp hall '1' h) (by decide)

theorem prefixOf_eq {text hrp : String} {data : List Char} (h : '1' ∉ hrp.toList)
    (htext : text.toList = hrp.toList ++ '1' :: data) : prefixOf text = hrp := by
  rw [prefixOf, htext, takeWhile_separator h, String.ofList_toList]

theorem address_ne_nil (a : Address) : a.val ≠ [] := by
  intro hnil
  have hlength := a.property
  rw [hnil] at hlength
  cases hlength

end Texts

section Handlers

variable {c : Codecs} {text hrp address : String}

theorem handleHexToBech32_eq_ok {r : HexToBech32Response} :
    handleHexToBech32 c ⟨address, hrp⟩ = .ok r ↔
      c.bech32ifyAddressBytes hrp (c.hexToAddress address).val = .ok r.address := by
  simp only [handleHexToBech32, bind_eq_ok, pure_eq_ok, Except.ok.injEq]
  constructor
  · rintro ⟨_, htext, rfl⟩
    exact htext
  · exact fun h => ⟨_, h, rfl⟩

theorem handleBech32ToHex_eq_ok {r : Bech32ToHexResponse} :
    handleBech32ToHex c ⟨text⟩ = .ok r ↔ prefixOf text ≠ text ∧
      ∃ bz, c.getFromBech32 text (prefixOf text) = .ok bz ∧ c.verifyAddressFormat bz = .ok () ∧
        r = ⟨c.addressString (c.bytesToAddress bz)⟩ := by
  simp only [handleBech32ToHex, bind_eq_ok, ensure_eq_ok, pure_eq_ok, Except.ok.injEq]
  constructor
  · rintro ⟨_, hne, bz, hread, _, hverified, rfl⟩
    exact ⟨hne, bz, hread, hverified, rfl⟩
  · rintro ⟨hne, bz, hread, hverified, rfl⟩
    exact ⟨(), hne, bz, hread, (), hverified, rfl⟩

theorem dataLength_eq {data : List Char} (hdata : (Bech32.toLower text).toList =
    (prefixOf text).toList ++ '1' :: data) : dataLength text = data.length := by
  have hlength := congrArg List.length hdata
  rw [String.length_toList, Bech32.length_toLower, List.length_append, List.length_cons,
    String.length_toList] at hlength
  unfold dataLength
  omega

variable (h : Documented c)
include h

/-- What a text that is accepted is made of. -/
theorem accepted_shape {r : Bech32ToHexResponse} (haccepted : handleBech32ToHex c ⟨text⟩ = .ok r) :
    ∃ bz data, c.bech32ifyAddressBytes (prefixOf text) bz = .ok (Bech32.toLower text) ∧
      r = ⟨c.addressString (c.bytesToAddress bz)⟩ ∧
      (Bech32.toLower text).toList = (prefixOf text).toList ++ '1' :: data ∧ '1' ∉ data ∧
      data.length = Bech32.groupCount bz.length + 6 := by
  obtain ⟨_, bz, hread, hverified, rfl⟩ := handleBech32ToHex_eq_ok.mp haccepted
  have hne := h.nonempty bz hverified
  have hwritten := h.encoded text (prefixOf text) bz hne hread
  obtain ⟨data, hdata, hsep, hlength⟩ := h.shape _ bz _ hne hwritten
  exact ⟨bz, data, hwritten, rfl, hdata, hsep, hlength⟩

theorem addressReturns_of_plain (hhrp : AcceptedHrp hrp) (hlower : Bech32.toLower hrp = hrp)
    (hsep : '1' ∉ hrp.toList) : AddressReturns c hrp address := by
  have hlength := (c.hexToAddress address).property
  obtain ⟨text, htext⟩ := h.encodes hrp _ hhrp hlength
  obtain ⟨data, hdata, _, _⟩ := h.shape hrp _ text (address_ne_nil _) htext
  have hfront := prefixOf_eq hsep hdata
  have hne : prefixOf text ≠ text := by
    intro heq
    apply separator_not_mem_prefixOf text
    rw [heq, hdata]
    simp
  refine ⟨text, handleHexToBech32_eq_ok.mpr htext, handleBech32ToHex_eq_ok.mpr
    ⟨hne, (c.hexToAddress address).val, ?_, ?_, ?_⟩⟩
  · rw [hfront]
    exact h.decodes hrp _ text hhrp hlower hlength htext
  · exact h.verifies _ hlength
  · rw [h.bytes]

/-- The prefix that is read off a text is what the library reads before the last
separator. -/
theorem plain_of_addressReturns (hreturns : AddressReturns c hrp address) :
    Bech32.toLower hrp = hrp ∧ '1' ∉ hrp.toList := by
  obtain ⟨text, htext, haccepted⟩ := hreturns
  obtain ⟨data, hdata, hsep, _⟩ :=
    h.shape hrp _ text (address_ne_nil _) (handleHexToBech32_eq_ok.mp htext)
  obtain ⟨bz, data', _, _, hdata', hsep', _⟩ := accepted_shape h haccepted
  have hlower : (Bech32.toLower text).toList =
      hrp.toList.map Char.toLower ++ '1' :: data.map Char.toLower := by
    rw [Bech32.toList_toLower, hdata, List.map_append, List.map_cons]
    rfl
  have hparts := parts_unique (mt Bech32.separator_mem_toLower.mp hsep) hsep'
    (hlower.symm.trans hdata')
  have hplain : '1' ∉ hrp.toList := by
    intro hmem
    apply separator_not_mem_prefixOf text
    rw [← hparts.1]
    exact Bech32.separator_mem_toLower.mpr hmem
  refine ⟨?_, hplain⟩
  rw [← String.toList_inj, Bech32.toList_toLower, hparts.1, prefixOf_eq hplain hdata]

theorem textReturns_iff {r : Bech32ToHexResponse} (haccepted : handleBech32ToHex c ⟨text⟩ = .ok r) :
    TextReturns c text r.address ↔ dataLength text = 38 := by
  obtain ⟨bz, data, hwritten, rfl, hdata, _, hlength⟩ := accepted_shape h haccepted
  rw [dataLength_eq hdata, hlength]
  have htwenty : Bech32.groupCount bz.length + 6 = 38 ↔ bz.length = 20 :=
    Nat.add_right_cancel_iff.trans (Bech32.groupCount_injective.eq_iff' (by decide))
  rw [htwenty, TextReturns]
  simp only [handleHexToBech32_eq_ok, h.hex]
  constructor
  · rintro ⟨text', htext', hcase⟩
    obtain ⟨data', hdata', _, hlength'⟩ := h.shape _ _ text' (address_ne_nil _) htext'
    have hsame := congrArg String.length hcase
    have hlen := congrArg List.length hdata
    have hlen' := congrArg List.length hdata'
    simp only [String.length_toList, Bech32.length_toLower, List.length_append,
      List.length_cons] at hsame hlen hlen'
    rw [(c.bytesToAddress bz).property] at hlength'
    apply Bech32.groupCount_injective
    omega
  · intro hbytes
    have hback := h.bytes ⟨bz, hbytes⟩
    refine ⟨Bech32.toLower text, ?_, Bech32.toLower_toLower text⟩
    rw [hback]
    exact hwritten

/-- An address comes back from its text exactly where the prefix is in lower case and
has no separator in it, and a text from its address exactly where its data part is
that of twenty bytes; texts of that kind under one prefix do not share an address. -/
theorem inverse_iff :
    (∀ hrp address, AcceptedHrp hrp →
      (AddressReturns c hrp address ↔ Bech32.toLower hrp = hrp ∧ '1' ∉ hrp.toList)) ∧
    (∀ text r, handleBech32ToHex c ⟨text⟩ = .ok r →
      (TextReturns c text r.address ↔ dataLength text = 38)) ∧
    ∀ text text' r, handleBech32ToHex c ⟨text⟩ = .ok r → handleBech32ToHex c ⟨text'⟩ = .ok r →
      prefixOf text = prefixOf text' → dataLength text = 38 → dataLength text' = 38 →
        Bech32.toLower text = Bech32.toLower text' := by
  refine ⟨fun hrp address hhrp => ⟨plain_of_addressReturns h, fun hplain => ?_⟩,
    fun text r => textReturns_iff h, ?_⟩
  · exact addressReturns_of_plain h hhrp hplain.1 hplain.2
  · intro text text' r haccepted haccepted' hfront hlength hlength'
    obtain ⟨back, hback, hcase⟩ := (textReturns_iff h haccepted).mpr hlength
    obtain ⟨back', hback', hcase'⟩ := (textReturns_iff h haccepted').mpr hlength'
    rw [← hfront, hback] at hback'
    cases hback'
    exact hcase.symm.trans hcase'

end Handlers

namespace LongPayload

def bytes : List UInt8 :=
  [0x7c, 0xb6, 0x1d, 0x41, 0x17, 0xae, 0x31, 0xa1, 0x2e, 0x39, 0x3a, 0x1c, 0xfa, 0x3b, 0xac, 0x66,
    0x64, 0x81, 0xd0, 0x2e]

/-- The text of the bytes with its checksum in the case of the letters. -/
def hexText : String := "0x7cB61D4117AE31a12E393a1Cfa3BaC666481D02E"

def hexDigits : List Char := "0123456789abcdef".toList

def hexChar (digit : ℕ) : Char := hexDigits.getD digit '0'

def hexValue (c : Char) : ℕ := hexDigits.idxOf c.toLower

def hexToAddress (s : String) : Address :=
  ⟨(Bech32.toDigits 256 20 (Bech32.fromDigits 16 ((s.toList.drop 2).map hexValue))).map UInt8.ofNat,
    by simp⟩

/-- The letters are in lower case, but for the one address whose text is known. -/
def addressString (address : Address) : String :=
  if address.val = bytes then hexText
  else String.ofList ('0' :: 'x' ::
    (Bech32.toDigits 16 40 (Bech32.fromDigits 256 (address.val.map UInt8.toNat))).map hexChar)

def bytesToAddress (bz : List UInt8) : Address :=
  ⟨(List.replicate (20 - bz.length) 0 ++ bz).drop (bz.length - 20), by
    rw [List.length_drop, List.length_append, List.length_replicate]
    omega⟩

def codecs : Codecs where
  hexToAddress := hexToAddress
  bytesToAddress := bytesToAddress
  addressString := addressString
  bech32ifyAddressBytes hrp bz := do
    if bz = [] then pure ""
    else do
      ensure (hrp ≠ "") (.error "prefix cannot be empty")
      pure (Bech32.encode hrp bz)
  getFromBech32 text hrp := do
    let (hrp', bz) ← require (Bech32.decode text) (.error "decoding bech32 failed: %s")
    ensure (hrp' = hrp) (.error "invalid Bech32 prefix; expected %s, got %s")
    pure bz
  verifyAddressFormat bz := do
    ensure (bz ≠ []) (.error "addresses cannot be empty: unknown address")
    ensure (bz.length ≤ 255) (.error "address max length is %d, got %d: unknown address")

theorem hexValue_hexChar {digit : ℕ} (h : digit < 16) : hexValue (hexChar digit) = digit := by
  interval_cases digit <;> rfl

set_option maxRecDepth 4000 in
theorem hexToAddress_hexText : (hexToAddress hexText).val = bytes := by decide

theorem hexToAddress_addressString (address : Address) :
    hexToAddress (addressString address) = address := by
  apply Subtype.ext
  unfold addressString
  split_ifs with hknown
  · rw [hexToAddress_hexText, hknown]
  · have hlt := Bech32.fromDigits_bytes_lt address.val
    rw [address.property, show 256 ^ 20 = 16 ^ 40 by norm_num] at hlt
    have hback := Bech32.toDigits_bytes address.val
    rw [address.property] at hback
    have hdigits : ∀ digit ∈ Bech32.toDigits 16 40 (Bech32.fromDigits 256 (address.val.map UInt8.toNat)),
        hexValue (hexChar digit) = digit := fun digit hdigit =>
      hexValue_hexChar (Bech32.lt_of_mem_toDigits (by norm_num) hdigit)
    simp only [hexToAddress, String.toList_ofList, List.drop_succ_cons, List.drop_zero, List.map_map]
    rw [(Bech32.map_eq_self_iff (f := hexValue ∘ hexChar)).mpr hdigits,
      Bech32.fromDigits_toDigits hlt, hback]

theorem bech32ifyAddressBytes_eq_ok {hrp text : String} {bz : List UInt8} (hbz : bz ≠ []) :
    codecs.bech32ifyAddressBytes hrp bz = .ok text ↔ hrp ≠ "" ∧ text = Bech32.encode hrp bz := by
  simp only [codecs, if_neg hbz, bind_eq_ok, ensure_eq_ok, pure_eq_ok, Except.ok.injEq,
    exists_const]
  exact and_congr_right' eq_comm

theorem getFromBech32_eq_ok {hrp text : String} {bz : List UInt8} :
    codecs.getFromBech32 text hrp = .ok bz ↔ Bech32.decode text = some (hrp, bz) := by
  simp only [codecs, bind_eq_ok, require_eq_ok, ensure_eq_ok, pure_eq_ok, Except.ok.injEq]
  constructor
  · rintro ⟨⟨_, _⟩, hdecode, _, rfl, rfl⟩
    exact hdecode
  · exact fun hdecode => ⟨(hrp, bz), hdecode, (), rfl, rfl⟩

theorem ne_nil_of_length {bz : List UInt8} (h : bz.length = 20) : bz ≠ [] := by
  rintro rfl
  cases h

theorem documented : Documented codecs where
  encodes hrp bz hhrp hlength :=
    ⟨_, (bech32ifyAddressBytes_eq_ok (ne_nil_of_length hlength)).mpr ⟨hhrp.1.1, rfl⟩⟩
  shape hrp bz text hbz htext := by
    obtain ⟨_, rfl⟩ := (bech32ifyAddressBytes_eq_ok hbz).mp htext
    exact ⟨_, String.toList_ofList, Bech32.separator_not_mem_dataPart _ _,
      Bech32.length_dataPart _ _⟩
  decodes hrp bz text hhrp hlower hlength htext := by
    obtain ⟨_, rfl⟩ := (bech32ifyAddressBytes_eq_ok (ne_nil_of_length hlength)).mp htext
    apply getFromBech32_eq_ok.mpr
    apply Bech32.decode_encode hlower hhrp.1
    have hshort := hhrp.2
    rw [Bech32.length_encode, hlength, Bech32.maxLength]
    change hrp.length + 32 + 7 ≤ 1023
    omega
  encoded text hrp bz hbz hread := by
    have hdecode := getFromBech32_eq_ok.mp hread
    exact (bech32ifyAddressBytes_eq_ok hbz).mpr
      ⟨(Bech32.validHrp_of_decode hdecode).1, (Bech32.encode_of_decode hdecode).symm⟩
  verifies bz hlength := by
    have hne := ne_nil_of_length hlength
    have hle : bz.length ≤ 255 := by omega
    simp only [codecs, ensure_of hne, ensure_of hle, ok_bind]
  nonempty bz hverified := by
    simp only [codecs, bind_eq_ok, ensure_eq_ok] at hverified
    exact hverified.choose_spec.1
  bytes address := by
    apply Subtype.ext
    simp [codecs, bytesToAddress, address.property]
  hex := hexToAddress_addressString

/-- The text of the bytes with one more in front of them. -/
def text (lead : UInt8) : String := Bech32.encode "kii" (lead :: bytes)

theorem length_text (lead : UInt8) : (text lead).length = 44 := by
  rw [text, Bech32.length_encode, List.length_cons]
  decide

theorem decode_text (lead : UInt8) : Bech32.decode (text lead) = some ("kii", lead :: bytes) := by
  apply Bech32.decode_encode (by decide) (by decide)
  exact (length_text lead).le.trans (by decide)

theorem prefixOf_text (lead : UInt8) : prefixOf (text lead) = "kii" :=
  prefixOf_eq (by decide) (String.toList_ofList)

/-- The byte in front is cut off. -/
theorem text_accepted (lead : UInt8) : handleBech32ToHex codecs ⟨text lead⟩ = .ok ⟨hexText⟩ := by
  apply handleBech32ToHex_eq_ok.mpr
  rw [prefixOf_text]
  refine ⟨fun heq => ?_, lead :: bytes, getFromBech32_eq_ok.mpr (decode_text lead), rfl, rfl⟩
  have hlength := congrArg String.length heq
  rw [length_text] at hlength
  exact absurd hlength (by decide)

theorem dataLength_text (lead : UInt8) : dataLength (text lead) = 40 := by
  rw [dataLength, prefixOf_text, length_text]
  rfl

theorem text_injective : Function.Injective text := by
  intro lead lead' h
  have hcontent := congrArg Bech32.contentOf h
  rw [text, text, Bech32.contentOf_encode, Bech32.contentOf_encode] at hcontent
  exact (List.cons.inj (Prod.mk.inj hcontent).2).1

/-- An address does not come back under a prefix with a separator in it, and two
texts of 21 bytes share an address and do not come back from it. -/
theorem not_inverse : Documented codecs ∧ AcceptedHrp "a1b" ∧
    ¬ AddressReturns codecs "a1b" hexText ∧
    handleBech32ToHex codecs ⟨text 0⟩ = .ok ⟨hexText⟩ ∧
    handleBech32ToHex codecs ⟨text 1⟩ = .ok ⟨hexText⟩ ∧
    Bech32.toLower (text 0) ≠ Bech32.toLower (text 1) ∧ ¬ TextReturns codecs (text 0) hexText := by
  refine ⟨documented, ⟨by decide, by decide⟩, fun h => ?_, text_accepted 0, text_accepted 1, ?_, ?_⟩
  · exact absurd (plain_of_addressReturns documented h).2 (by decide)
  · rw [text, text, Bech32.toLower_encode (by decide), Bech32.toLower_encode (by decide)]
    exact text_injective.ne (by decide)
  · rw [textReturns_iff documented (text_accepted 0), dataLength_text]
    decide

/-- The address of twenty bytes and the text under the chain's prefix. -/
theorem kii_inverse : Documented codecs ∧ AddressReturns codecs "kii" hexText ∧
    handleBech32ToHex codecs ⟨Bech32.encode "kii" bytes⟩ = .ok ⟨hexText⟩ ∧
    TextReturns codecs (Bech32.encode "kii" bytes) hexText := by
  obtain ⟨haddress, htext, _⟩ := inverse_iff documented
  have hreturns : AddressReturns codecs "kii" hexText :=
    (haddress "kii" hexText ⟨by decide, by decide⟩).mpr ⟨by decide, by decide⟩
  have hfront : prefixOf (Bech32.encode "kii" bytes) = "kii" :=
    prefixOf_eq (by decide) String.toList_ofList
  have hlength : (Bech32.encode "kii" bytes).length = 42 := Bech32.length_encode "kii" bytes
  have haccepted : handleBech32ToHex codecs ⟨Bech32.encode "kii" bytes⟩ = .ok ⟨hexText⟩ := by
    apply handleBech32ToHex_eq_ok.mpr
    rw [hfront]
    refine ⟨fun heq => ?_, bytes, getFromBech32_eq_ok.mpr ?_, rfl, rfl⟩
    · rw [← heq] at hlength
      exact absurd hlength (by decide)
    · exact Bech32.decode_encode (by decide) (by decide) (by rw [hlength]; decide)
  refine ⟨documented, hreturns, haccepted, (htext _ _ haccepted).mpr ?_⟩
  rw [dataLength, hlength, hfront]
  rfl

set_option maxRecDepth 4000 in
example : Bech32.encode "kii" bytes = "kii10jmp6sgh4cc6zt3e8gw05wavvejgr5pwfe2u6n" := by decide

end LongPayload

end Kiichain.WasmBech32
