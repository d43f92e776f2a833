import Mathlib.Tactic

/-!
# Splitting and trimming text

`split` cuts at every separator and `trimSpace` drops the white space at both
ends, on lists of characters.
-/

namespace GoStrings

def split (sep : Char) : List Char → List (List Char)
  | [] => [[]]
  | c :: cs =>
    if c = sep then [] :: split sep cs
    else match split sep cs with
      | [] => [[c]]
      | part :: parts => (c :: part) :: parts

theorem split_ne_nil (sep : Char) (cs : List Char) : split sep cs ≠ [] := by
  cases cs with
  | nil => exact List.cons_ne_nil _ _
  | cons c cs =>
      unfold split
      split_ifs
      · exact List.cons_ne_nil _ _
      · split <;> exact List.cons_ne_nil _ _

/-- The first part ends at the first separator. -/
theorem split_append {sep : Char} {cs : List Char} (h : sep ∉ cs) (ds : List Char) :
    split sep (cs ++ sep :: ds) = cs :: split sep ds := by
  induction cs with
  | nil => simp [split]
  | cons c cs ih =>
      have hc : c ≠ sep := fun hc => h (hc ▸ List.mem_cons_self)
      rw [List.cons_append, split, if_neg hc, ih (fun hmem => h (List.mem_cons_of_mem c hmem))]

def splitString (sep : Char) (s : String) : List String :=
  (split sep s.toList).map String.ofList

/-- Joining the parts gives the text back. -/
theorem intercalate_split (sep : Char) (cs : List Char) : [sep].intercalate (split sep cs) = cs := by
  induction cs with
  | nil => rfl
  | cons c cs ih =>
      obtain ⟨part, parts, hparts⟩ := List.exists_cons_of_ne_nil (split_ne_nil sep cs)
      rw [hparts] at ih
      unfold split
      rw [hparts]
      split_ifs with hc
      · rw [List.intercalate_cons_cons, ih, hc]
        rfl
      · cases parts with
        | nil => simpa using ih
        | cons part' parts => simpa [List.intercalate_cons_cons] using ih

theorem intercalate_splitString (sep : Char) (s : String) :
    (String.singleton sep).intercalate (splitString sep s) = s := by
  rw [← String.toList_inj, String.toList_intercalate, splitString, List.map_map]
  simpa [Function.comp_def] using intercalate_split sep s.toList

/-- White space of the Unicode standard. -/
def isSpace (c : Char) : Bool :=
  (9 ≤ c.toNat && c.toNat ≤ 13) || c.toNat ∈ [0x20, 0x85, 0xA0, 0x1680, 0x2028, 0x2029, 0x202F,
    0x205F, 0x3000] || (0x2000 ≤ c.toNat && c.toNat ≤ 0x200A)

def trimSpace (s : String) : String :=
  String.ofList (((s.toList.dropWhile isSpace).reverse.dropWhile isSpace).reverse)

end GoStrings
