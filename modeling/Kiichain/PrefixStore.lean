import Kiichain.SortedMap
import Mathlib.Data.String.Basic

/-!
# Iteration under a prefix

A store maps text keys to values. The view under a prefix is what a prefix store
iterates: the entries whose key starts with it, without the prefix. Sections that
end in a separator are told apart by their names when these do not contain it.
-/

namespace PrefixStore

variable {V : Type}

/-- The rest of a key after a prefix. -/
def strip (p key : List Char) : Option (List Char) :=
  if p <+: key then some (key.drop p.length) else none

theorem strip_eq_some {p key rest : List Char} : strip p key = some rest ↔ key = p ++ rest := by
  unfold strip
  split_ifs with h
  · obtain ⟨tail, rfl⟩ := h
    simp
  · simp only [false_iff]
    rintro rfl
    exact h (List.prefix_append p rest)

def view (p : String) (m : SortedMap String V) : List (String × V) :=
  m.entries.filterMap fun e =>
    (strip p.toList e.1.toList).map fun rest => (String.ofList rest, e.2)

theorem mem_view {p : String} {m : SortedMap String V} {k : String} {v : V} :
    (k, v) ∈ view p m ↔ m.get? (p ++ k) = some v := by
  simp only [view, List.mem_filterMap, Option.map_eq_some_iff, strip_eq_some, Prod.mk.injEq,
    SortedMap.get?_eq_some]
  constructor
  · rintro ⟨⟨key, value⟩, hmem, rest, hkey, rfl, rfl⟩
    have heq : key = p ++ String.ofList rest := by
      apply String.toList_injective
      simpa using hkey
    exact heq ▸ hmem
  · intro hmem
    exact ⟨(p ++ k, v), hmem, k.toList, by simp, by simp, rfl⟩

theorem nodup_view (p : String) (m : SortedMap String V) : (view p m).Nodup := by
  have hkeys : m.entries.Nodup := List.Nodup.of_map Prod.fst m.keys_nodup
  refine hkeys.filterMap ?_
  intro e e' x he he'
  have hmem : ∀ f : String × V, x ∈ (strip p.toList f.1.toList).map (fun rest =>
      (String.ofList rest, f.2)) → f = (p ++ x.1, x.2) := by
    intro f hf
    simp only [Option.mem_def, Option.map_eq_some_iff, strip_eq_some] at hf
    obtain ⟨rest, hkey, rfl⟩ := hf
    refine Prod.ext ?_ rfl
    apply String.toList_injective
    simpa using hkey
  rw [hmem e he, hmem e' he']

theorem nodup_keys_view (p : String) (m : SortedMap String V) :
    ((view p m).map Prod.fst).Nodup := by
  apply List.Nodup.map_on _ (nodup_view p m)
  rintro ⟨k, v⟩ hv ⟨k', v'⟩ hv' rfl
  rw [mem_view] at hv hv'
  rw [hv] at hv'
  rw [Option.some.inj hv']

section Separator

variable {sep : Char} {a b c d : List Char}

/-- A text with one separator is cut in one way only. -/
theorem cut_unique (ha : sep ∉ a) (hb : sep ∉ b) (h : a ++ sep :: b = c ++ sep :: d) :
    a = c ∧ b = d := by
  obtain ⟨e, rfl, he⟩ | ⟨e, rfl, he⟩ := List.append_eq_append_iff.mp h
  · cases e with
    | nil =>
        obtain ⟨_, rfl⟩ := List.cons.inj he
        exact ⟨(List.append_nil a).symm, rfl⟩
    | cons x e =>
        obtain ⟨_, rfl⟩ := List.cons.inj he
        exact absurd (List.mem_append_right e List.mem_cons_self) hb
  · cases e with
    | nil =>
        obtain ⟨_, rfl⟩ := List.cons.inj he
        exact ⟨List.append_nil c, rfl⟩
    | cons x e =>
        obtain ⟨rfl, _⟩ := List.cons.inj he
        exact absurd (List.mem_append_right c List.mem_cons_self) ha

/-- Among names without the separator, the section of one name holds no text of
the section of another. -/
theorem eq_of_section_prefix (ha : sep ∉ a) (hb : sep ∉ b)
    (h : a ++ [sep] <+: b ++ sep :: d) : a = b := by
  obtain ⟨rest, hrest⟩ := h
  rw [List.append_assoc, List.singleton_append] at hrest
  obtain ⟨e, rfl, he⟩ | ⟨e, rfl, he⟩ := List.append_eq_append_iff.mp hrest
  · cases e with
    | nil => exact (List.append_nil a).symm
    | cons x e =>
        obtain ⟨rfl, _⟩ := List.cons.inj he
        exact absurd (List.mem_append_right a List.mem_cons_self) hb
  · cases e with
    | nil => exact List.append_nil b
    | cons x e =>
        obtain ⟨rfl, _⟩ := List.cons.inj he
        exact absurd (List.mem_append_right b List.mem_cons_self) ha

end Separator

end PrefixStore
