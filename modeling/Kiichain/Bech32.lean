import Mathlib.Data.Nat.Digits.Defs
import Mathlib.Tactic

/-!
# Bech32 texts

A text is a human-readable part, the separator `1` and a data part: the bytes in
groups of five bits and a checksum of six groups, each written as one character.
A text is read back from its last separator, and compared with what its content
is written as.
-/

namespace Bech32

section Digits

/-- The last `k` digits of a number, least significant first. -/
def digitsIn (b : ℕ) : ℕ → ℕ → List ℕ
  | 0, _ => []
  | k + 1, n => n % b :: digitsIn b k (n / b)

@[simp] theorem length_digitsIn (b k n : ℕ) : (digitsIn b k n).length = k := by
  induction k generalizing n with
  | zero => rfl
  | succ k ih => rw [digitsIn, List.length_cons, ih]

theorem lt_of_mem_digitsIn {b k n d : ℕ} (hb : 0 < b) (h : d ∈ digitsIn b k n) : d < b := by
  induction k generalizing n with
  | zero => cases h
  | succ k ih =>
      rcases List.mem_cons.mp h with rfl | h
      · exact Nat.mod_lt n hb
      · exact ih h

theorem ofDigits_digitsIn (b k n : ℕ) : Nat.ofDigits b (digitsIn b k n) = n % b ^ k := by
  induction k generalizing n with
  | zero => simp [digitsIn, Nat.mod_one]
  | succ k ih => rw [digitsIn, Nat.ofDigits_cons, ih, pow_succ', Nat.mod_mul]

theorem digitsIn_ofDigits {b : ℕ} {l : List ℕ} (h : ∀ d ∈ l, d < b) :
    digitsIn b l.length (Nat.ofDigits b l) = l := by
  induction l with
  | nil => rfl
  | cons d l ih =>
      obtain ⟨hd, hl⟩ := List.forall_mem_cons.mp h
      have hb : 0 < b := by omega
      rw [List.length_cons, digitsIn, Nat.ofDigits_cons, Nat.add_mul_mod_self_left,
        Nat.mod_eq_of_lt hd, Nat.add_mul_div_left _ _ hb, Nat.div_eq_of_lt hd, zero_add, ih hl]

/-- A number from its digits, most significant first. -/
def fromDigits (b : ℕ) (l : List ℕ) : ℕ := Nat.ofDigits b l.reverse

def toDigits (b k n : ℕ) : List ℕ := (digitsIn b k n).reverse

@[simp] theorem length_toDigits (b k n : ℕ) : (toDigits b k n).length = k := by simp [toDigits]

theorem lt_of_mem_toDigits {b k n d : ℕ} (hb : 0 < b) (h : d ∈ toDigits b k n) : d < b :=
  lt_of_mem_digitsIn hb (List.mem_reverse.mp h)

theorem fromDigits_toDigits {b k n : ℕ} (h : n < b ^ k) : fromDigits b (toDigits b k n) = n := by
  rw [fromDigits, toDigits, List.reverse_reverse, ofDigits_digitsIn, Nat.mod_eq_of_lt h]

theorem toDigits_fromDigits {b : ℕ} {l : List ℕ} (h : ∀ d ∈ l, d < b) :
    toDigits b l.length (fromDigits b l) = l := by
  have hrev : ∀ d ∈ l.reverse, d < b := fun d hd => h d (List.mem_reverse.mp hd)
  rw [toDigits, fromDigits, ← List.length_reverse, digitsIn_ofDigits hrev, List.reverse_reverse]

theorem fromDigits_lt {b : ℕ} (hb : 1 < b) {l : List ℕ} (h : ∀ d ∈ l, d < b) :
    fromDigits b l < b ^ l.length := by
  rw [fromDigits, ← List.length_reverse]
  exact Nat.ofDigits_lt_base_pow_length hb fun d hd => h d (List.mem_reverse.mp hd)

end Digits

section Groups

/-- The number of groups of five bits that hold some bytes. -/
def groupCount (bytes : ℕ) : ℕ := (8 * bytes + 4) / 5

def padding (bytes : ℕ) : ℕ := 5 * groupCount bytes - 8 * bytes

theorem groupCount_injective : Function.Injective groupCount := by
  intro m n h
  unfold groupCount at h
  omega

def toGroups (bz : List UInt8) : List ℕ :=
  toDigits 32 (groupCount bz.length)
    (fromDigits 256 (bz.map UInt8.toNat) * 2 ^ padding bz.length)

/-- The bytes of some groups, without the bits that are left over. -/
def ofGroups (groups : List ℕ) : List UInt8 :=
  let bytes := 5 * groups.length / 8
  (toDigits 256 bytes (fromDigits 32 groups / 2 ^ (5 * groups.length - 8 * bytes))).map UInt8.ofNat

@[simp] theorem length_toGroups (bz : List UInt8) : (toGroups bz).length = groupCount bz.length :=
  length_toDigits _ _ _

theorem lt_of_mem_bytes {bz : List UInt8} : ∀ d ∈ bz.map UInt8.toNat, d < 256 := by
  intro d hd
  obtain ⟨b, _, rfl⟩ := List.mem_map.mp hd
  exact b.toNat_lt

theorem fromDigits_bytes_lt (bz : List UInt8) :
    fromDigits 256 (bz.map UInt8.toNat) < 256 ^ bz.length := by
  have hlt := fromDigits_lt (by norm_num) (@lt_of_mem_bytes bz)
  rwa [List.length_map] at hlt

theorem toDigits_bytes (bz : List UInt8) :
    (toDigits 256 bz.length (fromDigits 256 (bz.map UInt8.toNat))).map UInt8.ofNat = bz := by
  have hback := toDigits_fromDigits (@lt_of_mem_bytes bz)
  rw [List.length_map] at hback
  rw [hback, List.map_map]
  simp [Function.comp_def]

theorem ofGroups_toGroups (bz : List UInt8) : ofGroups (toGroups bz) = bz := by
  have hpow : 256 ^ bz.length * 2 ^ padding bz.length = 32 ^ groupCount bz.length := by
    rw [show 256 = 2 ^ 8 by norm_num, show 32 = 2 ^ 5 by norm_num, ← pow_mul, ← pow_mul, ← pow_add]
    congr 1
    unfold padding groupCount
    omega
  have hvalue : fromDigits 256 (bz.map UInt8.toNat) * 2 ^ padding bz.length <
      32 ^ groupCount bz.length := by
    rw [← hpow]
    exact Nat.mul_lt_mul_of_pos_right (fromDigits_bytes_lt bz) (Nat.two_pow_pos _)
  have hcount : 5 * groupCount bz.length / 8 = bz.length := by
    unfold groupCount
    omega
  unfold ofGroups
  rw [length_toGroups, hcount, toGroups, fromDigits_toDigits hvalue]
  change (toDigits 256 bz.length (_ / 2 ^ padding bz.length)).map UInt8.ofNat = bz
  rw [Nat.mul_div_cancel _ (Nat.two_pow_pos _)]
  exact toDigits_bytes bz

end Groups

section Text

def charset : List Char := "qpzry9x8gf2tvdw0s3jn54khce6mua7l".toList

def toChar (group : ℕ) : Char := charset.getD group 'q'

def fromChar (c : Char) : ℕ := charset.idxOf c

theorem fromChar_toChar {group : ℕ} (h : group < 32) : fromChar (toChar group) = group := by
  interval_cases group <;> rfl

theorem toChar_mem (group : ℕ) : toChar group ∈ charset := by
  unfold toChar
  rw [List.getD_eq_getElem?_getD]
  rcases lt_or_ge group charset.length with h | h
  · rw [List.getElem?_eq_getElem h]
    exact List.getElem_mem h
  · rw [List.getElem?_eq_none h]
    decide

def generator : List ℕ := [0x3b6a57b2, 0x26508e6d, 0x1ea119fa, 0x3d4233dd, 0x2a1462b3]

def polymodStep (checksum group : ℕ) : ℕ :=
  (generator.zipIdx.foldl (fun c g => if (checksum >>> 25).testBit g.2 then c ^^^ g.1 else c))
    (((checksum &&& 0x1ffffff) <<< 5) ^^^ group)

def polymod (groups : List ℕ) : ℕ := groups.foldl polymodStep 1

def expand (hrp : List Char) : List ℕ :=
  hrp.map (fun c => c.toNat >>> 5) ++ 0 :: hrp.map (fun c => c.toNat &&& 31)

def checksum (hrp : List Char) (groups : List ℕ) : List ℕ :=
  toDigits 32 6 (polymod (expand hrp ++ groups ++ List.replicate 6 0) ^^^ 1)

def dataPart (hrp : List Char) (bz : List UInt8) : List Char :=
  (toGroups bz ++ checksum hrp (toGroups bz)).map toChar

def encode (hrp : String) (bz : List UInt8) : String :=
  String.ofList (hrp.toList ++ '1' :: dataPart hrp.toList bz)

theorem length_dataPart (hrp : List Char) (bz : List UInt8) :
    (dataPart hrp bz).length = groupCount bz.length + 6 := by
  simp [dataPart, checksum]

theorem mem_charset_of_mem_dataPart {hrp : List Char} {bz : List UInt8} {c : Char}
    (h : c ∈ dataPart hrp bz) : c ∈ charset := by
  obtain ⟨group, _, rfl⟩ := List.mem_map.mp h
  exact toChar_mem group

theorem separator_not_mem_dataPart (hrp : List Char) (bz : List UInt8) : '1' ∉ dataPart hrp bz :=
  fun h => absurd (mem_charset_of_mem_dataPart h) (by decide)

end Text

section Case

/-- The letters of the alphabet `A` to `Z` in lower case. -/
def toLower (s : String) : String := String.ofList (s.toList.map Char.toLower)

def toUpper (s : String) : String := String.ofList (s.toList.map Char.toUpper)

@[simp] theorem toList_toLower (s : String) : (toLower s).toList = s.toList.map Char.toLower :=
  String.toList_ofList

theorem map_eq_self_iff {α : Type} {f : α → α} {l : List α} : l.map f = l ↔ ∀ a ∈ l, f a = a := by
  simpa using List.map_eq_map_iff (f := f) (g := id) (l := l)

theorem toLower_eq_self_iff {s : String} : toLower s = s ↔ ∀ c ∈ s.toList, c.toLower = c := by
  rw [← String.toList_inj, toList_toLower]
  exact map_eq_self_iff

theorem toLower_toLower (s : String) : toLower (toLower s) = toLower s := by
  rw [toLower_eq_self_iff, toList_toLower]
  intro c hc
  obtain ⟨d, _, rfl⟩ := List.mem_map.mp hc
  unfold Char.toLower
  split_ifs with hupper hagain
  · have hle : d.val.toNat ≤ 90 := UInt32.le_iff_toNat_le.mp hupper.2
    have hge : 65 ≤ d.val.toNat := UInt32.le_iff_toNat_le.mp hupper.1
    have hlow : (d.val + 32).toNat ≤ 90 := UInt32.le_iff_toNat_le.mp hagain.2
    rw [UInt32.toNat_add] at hlow
    change (d.val.toNat + 32) % 2 ^ 32 ≤ 90 at hlow
    omega
  · rfl
  · rfl

@[simp] theorem length_toLower (s : String) : (toLower s).length = s.length := by
  rw [← String.length_toList, toList_toLower, List.length_map, String.length_toList]

theorem toLower_charset {c : Char} (h : c ∈ charset) : c.toLower = c := by
  have hlower : charset.all (fun c => c.toLower = c) = true := by decide
  exact of_decide_eq_true (List.all_eq_true.mp hlower c h)

theorem toLower_eq_separator {c : Char} (h : c.toLower = '1') : c = '1' := by
  unfold Char.toLower at h
  split at h
  · rename_i hupper
    have hge : 65 ≤ c.val.toNat := UInt32.le_iff_toNat_le.mp hupper.1
    have hle : c.val.toNat ≤ 90 := UInt32.le_iff_toNat_le.mp hupper.2
    have hval : (c.val + 32).toNat = 49 := congrArg (fun d : Char => d.val.toNat) h
    rw [UInt32.toNat_add] at hval
    change (c.val.toNat + 32) % 2 ^ 32 = 49 at hval
    omega
  · exact h

theorem separator_mem_toLower {l : List Char} : '1' ∈ l.map Char.toLower ↔ '1' ∈ l := by
  constructor
  · intro h
    obtain ⟨c, hc, heq⟩ := List.mem_map.mp h
    rwa [toLower_eq_separator heq] at hc
  · exact fun h => List.mem_map.mpr ⟨'1', h, rfl⟩

end Case

section Decode

/-- What stands before the last separator. -/
def hrpOf (text : List Char) : List Char := (text.reverse.dropWhile (· ≠ '1')).tail.reverse

/-- What stands after the last separator. -/
def dataOf (text : List Char) : List Char := (text.reverse.takeWhile (· ≠ '1')).reverse

theorem ne_separator {data : List Char} (h : '1' ∉ data) :
    ∀ c ∈ data.reverse, (!decide (c = '1')) = true := by
  intro c hc
  have hne : c ≠ '1' := fun heq => h (heq ▸ List.mem_reverse.mp hc)
  simp [hne]

theorem hrpOf_append {hrp data : List Char} (h : '1' ∉ data) : hrpOf (hrp ++ '1' :: data) = hrp := by
  simp [hrpOf, List.dropWhile_append_of_pos (ne_separator h)]

theorem dataOf_append {hrp data : List Char} (h : '1' ∉ data) :
    dataOf (hrp ++ '1' :: data) = data := by
  simp [dataOf, List.takeWhile_append_of_pos (ne_separator h)]

/-- Printable characters, and at least one of them. -/
def ValidHrp (hrp : String) : Prop := hrp ≠ "" ∧ ∀ c ∈ hrp.toList, 33 ≤ c.toNat ∧ c.toNat ≤ 126

instance (hrp : String) : Decidable (ValidHrp hrp) :=
  @instDecidableAnd _ _ _ (List.decidableBAll _ _)

def maxLength : ℕ := 1023

def contentOf (text : String) : String × List UInt8 :=
  let data := dataOf text.toList
  (String.ofList (hrpOf text.toList), ofGroups ((data.take (data.length - 6)).map fromChar))

/-- A text in one case of at most the largest length, with its checksum. -/
structure Valid (text : String) : Prop where
  one_case : toLower text = text ∨ toUpper text = text
  length_le : text.length ≤ maxLength
  hrp_valid : ValidHrp (contentOf (toLower text)).1
  encoded : encode (contentOf (toLower text)).1 (contentOf (toLower text)).2 = toLower text

instance (text : String) : Decidable (Valid text) :=
  decidable_of_iff ((toLower text = text ∨ toUpper text = text) ∧ text.length ≤ maxLength ∧
    ValidHrp (contentOf (toLower text)).1 ∧
    encode (contentOf (toLower text)).1 (contentOf (toLower text)).2 = toLower text)
    ⟨fun ⟨h1, h2, h3, h4⟩ => ⟨h1, h2, h3, h4⟩, fun ⟨h1, h2, h3, h4⟩ => ⟨h1, h2, h3, h4⟩⟩

def decode (text : String) : Option (String × List UInt8) :=
  if Valid text then some (contentOf (toLower text)) else none

theorem contentOf_encode (hrp : String) (bz : List UInt8) : contentOf (encode hrp bz) = (hrp, bz) := by
  have hsep := separator_not_mem_dataPart hrp.toList bz
  have hgroups : ((dataPart hrp.toList bz).take (groupCount bz.length)).map fromChar = toGroups bz := by
    have hlt : ∀ group ∈ toGroups bz, fromChar (toChar group) = group := fun group h =>
      fromChar_toChar (lt_of_mem_toDigits (by norm_num) h)
    rw [dataPart, List.map_append, List.take_left' (by simp), List.map_map]
    exact map_eq_self_iff.mpr hlt
  simp only [contentOf, encode, String.toList_ofList, hrpOf_append hsep, dataOf_append hsep,
    length_dataPart, Nat.add_sub_cancel, hgroups, ofGroups_toGroups, String.ofList_toList]

theorem toLower_encode {hrp : String} (h : toLower hrp = hrp) (bz : List UInt8) :
    toLower (encode hrp bz) = encode hrp bz := by
  rw [toLower_eq_self_iff] at h ⊢
  intro c hc
  simp only [encode, String.toList_ofList, List.mem_append, List.mem_cons] at hc
  rcases hc with hc | rfl | hc
  · exact h c hc
  · rfl
  · exact toLower_charset (mem_charset_of_mem_dataPart hc)

theorem length_encode (hrp : String) (bz : List UInt8) :
    (encode hrp bz).length = hrp.length + groupCount bz.length + 7 := by
  rw [← String.length_toList, encode, String.toList_ofList, List.length_append, List.length_cons,
    length_dataPart, String.length_toList]
  omega

/-- A text in one case is read as what its lower case is written from. -/
theorem decode_of_toLower {text hrp : String} {bz : List UInt8}
    (hcase : toLower text = text ∨ toUpper text = text) (htext : toLower text = encode hrp bz)
    (hvalid : ValidHrp hrp) (hlength : text.length ≤ maxLength) :
    decode text = some (hrp, bz) := by
  have hcontent := contentOf_encode hrp bz
  have hok : Valid text := by
    refine ⟨hcase, hlength, ?_, ?_⟩
    · rw [htext, hcontent]
      exact hvalid
    · rw [htext, hcontent]
  rw [decode, if_pos hok, htext, hcontent]

/-- A text is read back as what it was written from. -/
theorem decode_encode {hrp : String} (hlower : toLower hrp = hrp) (hvalid : ValidHrp hrp)
    {bz : List UInt8} (hlength : (encode hrp bz).length ≤ maxLength) :
    decode (encode hrp bz) = some (hrp, bz) :=
  decode_of_toLower (Or.inl (toLower_encode hlower bz)) (toLower_encode hlower bz) hvalid hlength

theorem validHrp_of_decode {text hrp : String} {bz : List UInt8}
    (h : decode text = some (hrp, bz)) : ValidHrp hrp := by
  unfold decode at h
  split_ifs at h with hok
  have hvalid := hok.hrp_valid
  rwa [Option.some.inj h] at hvalid

/-- A text that is read is, in lower case, what its content is written as. -/
theorem encode_of_decode {text hrp : String} {bz : List UInt8} (h : decode text = some (hrp, bz)) :
    encode hrp bz = toLower text := by
  unfold decode at h
  split_ifs at h with hok
  have hcontent := Option.some.inj h
  have hencoded := hok.encoded
  rwa [hcontent] at hencoded

end Decode

end Bech32
