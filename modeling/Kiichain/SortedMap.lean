import Mathlib.Tactic
import Mathlib.Data.List.Sort

/-!
# Finite maps as key-sorted entry lists

The entries of a `SortedMap` are strictly increasing in the key, so a map is
determined by its lookups and its entry list is the ascending walk of a
key-value store. A hash map is the same object walked in another order.
-/

structure SortedMap (K V : Type*) [LinearOrder K] where
  entries : List (K × V)
  sorted : entries.Pairwise (fun a b => a.1 < b.1)
deriving DecidableEq

namespace SortedMap

variable {K V W : Type*} [LinearOrder K]

def empty : SortedMap K V := ⟨[], List.Pairwise.nil⟩

instance : EmptyCollection (SortedMap K V) := ⟨empty⟩

instance : Inhabited (SortedMap K V) := ⟨empty⟩

def lookup (k : K) : List (K × V) → Option V
  | [] => none
  | e :: l => if e.1 = k then some e.2 else lookup k l

def get? (m : SortedMap K V) (k : K) : Option V := lookup k m.entries

def keys (m : SortedMap K V) : List K := m.entries.map Prod.fst

def size (m : SortedMap K V) : ℕ := m.entries.length

def insertEntry (k : K) (v : V) : List (K × V) → List (K × V)
  | [] => [(k, v)]
  | e :: l =>
    if k < e.1 then (k, v) :: e :: l
    else if e.1 = k then (k, v) :: l
    else e :: insertEntry k v l

theorem mem_insertEntry {k : K} {v : V} {l : List (K × V)} {e : K × V}
    (h : e ∈ insertEntry k v l) : e = (k, v) ∨ e ∈ l := by
  induction l with
  | nil => simpa [insertEntry] using h
  | cons a l ih =>
      unfold insertEntry at h
      split_ifs at h with h1 h2
      · simpa using h
      · rcases List.mem_cons.mp h with h | h
        · exact Or.inl h
        · exact Or.inr (List.mem_cons_of_mem _ h)
      · rcases List.mem_cons.mp h with h | h
        · exact Or.inr (h ▸ List.mem_cons_self)
        · exact (ih h).imp_right (List.mem_cons_of_mem _)

theorem insertEntry_sorted (k : K) (v : V) {l : List (K × V)}
    (h : l.Pairwise (fun a b => a.1 < b.1)) :
    (insertEntry k v l).Pairwise (fun a b => a.1 < b.1) := by
  induction l with
  | nil => exact List.pairwise_singleton _ _
  | cons a l ih =>
      obtain ⟨ha, hl⟩ := List.pairwise_cons.mp h
      unfold insertEntry
      split_ifs with h1 h2
      · refine List.pairwise_cons.mpr ⟨?_, h⟩
        intro b hb
        rcases List.mem_cons.mp hb with rfl | hb
        · exact h1
        · exact h1.trans (ha b hb)
      · subst h2
        exact List.pairwise_cons.mpr ⟨ha, hl⟩
      · refine List.pairwise_cons.mpr ⟨?_, ih hl⟩
        intro b hb
        rcases mem_insertEntry hb with rfl | hb
        · exact lt_of_le_of_ne (not_lt.mp h1) h2
        · exact ha b hb

def insert (m : SortedMap K V) (k : K) (v : V) : SortedMap K V :=
  ⟨insertEntry k v m.entries, insertEntry_sorted k v m.sorted⟩

def filter (m : SortedMap K V) (p : K → V → Bool) : SortedMap K V :=
  ⟨m.entries.filter (fun e => p e.1 e.2), m.sorted.filter _⟩

def erase (m : SortedMap K V) (k : K) : SortedMap K V := m.filter (fun k' _ => k' ≠ k)

def mapValues (m : SortedMap K V) (f : K → V → W) : SortedMap K W :=
  ⟨m.entries.map (fun e => (e.1, f e.1 e.2)), by
    rw [List.pairwise_map]
    exact m.sorted⟩

/-- The entries of a Go map or store built by assigning a list in order. -/
def ofList (l : List (K × V)) : SortedMap K V :=
  l.foldl (fun m e => m.insert e.1 e.2) empty

theorem lookup_eq_some {k : K} {v : V} {l : List (K × V)}
    (h : l.Pairwise (fun a b => a.1 < b.1)) : lookup k l = some v ↔ (k, v) ∈ l := by
  induction l with
  | nil => simp [lookup]
  | cons a l ih =>
      obtain ⟨ha, hl⟩ := List.pairwise_cons.mp h
      unfold lookup
      split_ifs with hk
      · subst hk
        constructor
        · intro hv
          cases hv
          exact List.mem_cons_self
        · intro hv
          rcases List.mem_cons.mp hv with hv | hv
          · rw [← hv]
          · exact absurd (ha _ hv) (lt_irrefl _)
      · rw [ih hl, List.mem_cons]
        constructor
        · exact Or.inr
        · rintro (hv | hv)
          · exact absurd (congrArg Prod.fst hv).symm hk
          · exact hv

theorem get?_eq_some {m : SortedMap K V} {k : K} {v : V} :
    m.get? k = some v ↔ (k, v) ∈ m.entries := lookup_eq_some m.sorted

theorem mem_keys {m : SortedMap K V} {k : K} : k ∈ m.keys ↔ ∃ v, m.get? k = some v := by
  simp only [keys, List.mem_map, get?_eq_some]
  constructor
  · rintro ⟨⟨a, v⟩, h, rfl⟩
    exact ⟨v, h⟩
  · rintro ⟨v, h⟩
    exact ⟨(k, v), h, rfl⟩

theorem mem_keys_iff_isSome {m : SortedMap K V} {k : K} : k ∈ m.keys ↔ (m.get? k).isSome := by
  rw [mem_keys, Option.isSome_iff_exists]

theorem get?_eq_none {m : SortedMap K V} {k : K} : m.get? k = none ↔ k ∉ m.keys := by
  rw [mem_keys_iff_isSome, Option.not_isSome_iff_eq_none]

theorem keys_sorted (m : SortedMap K V) : m.keys.Pairwise (· < ·) :=
  List.pairwise_map.mpr m.sorted

theorem keys_nodup (m : SortedMap K V) : m.keys.Nodup :=
  m.keys_sorted.imp (fun h => ne_of_lt h)

@[simp] theorem length_keys (m : SortedMap K V) : m.keys.length = m.size := by
  simp [keys, size]

theorem ext_entries {m m' : SortedMap K V} (h : m.entries = m'.entries) : m = m' := by
  cases m
  cases m'
  cases h
  rfl

/-- A map is determined by its lookups. -/
theorem ext_get? {m m' : SortedMap K V} (h : ∀ k, m.get? k = m'.get? k) : m = m' := by
  have hperm : m.entries.Perm m'.entries := by
    refine (List.perm_ext_iff_of_nodup ?_ ?_).mpr ?_
    · exact m.sorted.imp (fun hab he => by rw [he] at hab; exact lt_irrefl _ hab)
    · exact m'.sorted.imp (fun hab he => by rw [he] at hab; exact lt_irrefl _ hab)
    · rintro ⟨k, v⟩
      rw [← get?_eq_some, ← get?_eq_some, h]
  exact ext_entries (hperm.eq_of_pairwise (fun a b _ _ hab hba => absurd hab (not_lt_of_gt hba))
    m.sorted m'.sorted)

theorem lookup_insertEntry (k k' : K) (v : V) (l : List (K × V)) :
    lookup k' (insertEntry k v l) = if k = k' then some v else lookup k' l := by
  induction l with
  | nil => rfl
  | cons a l ih =>
      by_cases h1 : k < a.1
      · rw [insertEntry, if_pos h1]
        rfl
      · by_cases h2 : a.1 = k
        · subst h2
          rw [insertEntry, if_neg h1, if_pos rfl]
          by_cases hk : a.1 = k' <;> simp [lookup, hk]
        · rw [insertEntry, if_neg h1, if_neg h2]
          by_cases hk : k = k'
          · simp only [lookup, if_neg (hk ▸ h2), ih, if_pos hk]
          · simp only [lookup, ih, if_neg hk]

@[simp] theorem get?_empty (k : K) : (∅ : SortedMap K V).get? k = none := rfl

theorem get?_insert (m : SortedMap K V) (k k' : K) (v : V) :
    (m.insert k v).get? k' = if k = k' then some v else m.get? k' :=
  lookup_insertEntry k k' v m.entries

@[simp] theorem get?_insert_self (m : SortedMap K V) (k : K) (v : V) :
    (m.insert k v).get? k = some v := by rw [get?_insert, if_pos rfl]

theorem get?_insert_ne (m : SortedMap K V) {k k' : K} (v : V) (h : k ≠ k') :
    (m.insert k v).get? k' = m.get? k' := by rw [get?_insert, if_neg h]

theorem get?_filter (m : SortedMap K V) (p : K → V → Bool) (k : K) :
    (m.filter p).get? k = (m.get? k).filter (p k) := by
  cases hm : m.get? k with
  | none =>
      rw [Option.filter_none, get?_eq_none, mem_keys]
      rintro ⟨v, hv⟩
      rw [get?_eq_some] at hv
      have := get?_eq_some.mpr (List.mem_of_mem_filter hv)
      rw [hm] at this
      cases this
  | some v =>
      by_cases hp : p k v
      · rw [Option.filter_some, if_pos hp, get?_eq_some]
        exact List.mem_filter.mpr ⟨get?_eq_some.mp hm, hp⟩
      · rw [Option.filter_some, if_neg hp, get?_eq_none, mem_keys]
        rintro ⟨w, hw⟩
        obtain ⟨hw, hpw⟩ := List.mem_filter.mp (get?_eq_some.mp hw)
        have hvw := get?_eq_some.mpr hw
        rw [hm] at hvw
        cases hvw
        exact hp hpw

theorem get?_erase (m : SortedMap K V) (k k' : K) :
    (m.erase k).get? k' = if k = k' then none else m.get? k' := by
  rw [erase, get?_filter]
  split_ifs with h
  · subst h
    cases m.get? k <;> simp
  · cases hm : m.get? k' with
    | none => rfl
    | some v => simp [Option.filter_some, Ne.symm h]

theorem get?_foldl_erase (l : List K) (m : SortedMap K V) (k : K) :
    (l.foldl (fun m k => m.erase k) m).get? k = if k ∈ l then none else m.get? k := by
  induction l generalizing m with
  | nil => simp
  | cons a l ih =>
      rw [List.foldl_cons, ih, get?_erase]
      by_cases hl : k ∈ l
      · rw [if_pos hl, if_pos (List.mem_cons_of_mem a hl)]
      · by_cases ha : a = k
        · subst ha
          simp [hl]
        · simp [hl, ha, Ne.symm ha]

theorem get?_of_foldl_erase {l : List K} {m : SortedMap K V} {k : K} {v : V}
    (h : (l.foldl (fun m k => m.erase k) m).get? k = some v) : m.get? k = some v := by
  rw [get?_foldl_erase] at h
  split_ifs at h
  exact h

/-- A condition that stops at the first entry without it has reached every entry
of a smaller key than one it has reached. -/
theorem mem_takeWhile_of_le {m : SortedMap K V} {p : K × V → Bool} {e e' : K × V}
    (he : e ∈ m.entries) (he' : e' ∈ m.entries.takeWhile p) (hle : e.1 ≤ e'.1) :
    e ∈ m.entries.takeWhile p := by
  obtain ⟨l, hsorted⟩ := m
  induction l with
  | nil => exact absurd he List.not_mem_nil
  | cons a l ih =>
      obtain ⟨hfirst, hrest⟩ := List.pairwise_cons.mp hsorted
      dsimp only at he he' ⊢
      rw [List.takeWhile_cons] at he' ⊢
      split_ifs at he' ⊢
      · obtain rfl | hmem := List.mem_cons.mp he
        · exact List.mem_cons_self
        · obtain rfl | hmem' := List.mem_cons.mp he'
          · exact absurd (hfirst e hmem) (not_lt_of_ge hle)
          · exact List.mem_cons_of_mem a (ih hrest hmem hmem')
      · exact absurd he' List.not_mem_nil

/-- An entry is reached exactly where the condition holds of every entry up to it. -/
theorem mem_takeWhile_iff {m : SortedMap K V} {p : K × V → Bool} {e : K × V} (he : e ∈ m.entries) :
    e ∈ m.entries.takeWhile p ↔ ∀ e' ∈ m.entries, e'.1 ≤ e.1 → p e' = true := by
  constructor
  · intro hmem e' he' hle
    exact List.all_eq_true.mp List.all_takeWhile e' (mem_takeWhile_of_le he' hmem hle)
  · obtain ⟨l, hsorted⟩ := m
    intro hall
    induction l with
    | nil => exact absurd he List.not_mem_nil
    | cons a l ih =>
        obtain ⟨hfirst, hrest⟩ := List.pairwise_cons.mp hsorted
        dsimp only at he hall ⊢
        obtain rfl | hmem := List.mem_cons.mp he
        · rw [List.takeWhile_cons_of_pos (hall e List.mem_cons_self le_rfl)]
          exact List.mem_cons_self
        · rw [List.takeWhile_cons_of_pos (hall a List.mem_cons_self (hfirst e hmem).le)]
          apply List.mem_cons_of_mem
          exact ih hrest hmem fun e' he' => hall e' (List.mem_cons_of_mem a he')

theorem insertEntry_of_lt {k : K} (v : V) {l : List (K × V)} (h : ∀ e ∈ l, e.1 < k) :
    insertEntry k v l = l ++ [(k, v)] := by
  induction l with
  | nil => rfl
  | cons a l ih =>
      obtain ⟨ha, hl⟩ := List.forall_mem_cons.mp h
      rw [insertEntry, if_neg (not_lt_of_gt ha), if_neg ha.ne, ih hl, List.cons_append]

/-- Assigning the entries of a map in order gives the map back. -/
theorem foldl_insert_entries (m : SortedMap K V) :
    m.entries.foldl (fun m e => m.insert e.1 e.2) ∅ = m := by
  have hentries : ∀ (l : List (K × V)) (acc : SortedMap K V),
      (acc.entries ++ l).Pairwise (fun a b => a.1 < b.1) →
        (l.foldl (fun m e => m.insert e.1 e.2) acc).entries = acc.entries ++ l := by
    intro l
    induction l with
    | nil => simp
    | cons a l ih =>
        intro acc h
        have hlast : (acc.insert a.1 a.2).entries = acc.entries ++ [a] := by
          apply insertEntry_of_lt
          intro e he
          exact (List.pairwise_append.mp h).2.2 e he a List.mem_cons_self
        rw [List.foldl_cons, ih _ (by rw [hlast]; simpa using h), hlast, List.append_assoc]
        rfl
  exact ext_entries (hentries m.entries ∅ m.sorted)

theorem get?_mapValues (m : SortedMap K V) (f : K → V → W) (k : K) :
    (m.mapValues f).get? k = (m.get? k).map (f k) := by
  change lookup k (m.entries.map (fun e => (e.1, f e.1 e.2))) = (lookup k m.entries).map (f k)
  induction m.entries with
  | nil => rfl
  | cons a l ih =>
      simp only [List.map_cons, lookup]
      split_ifs with h
      · subst h
        rfl
      · exact ih

@[simp] theorem keys_mapValues (m : SortedMap K V) (f : K → V → W) :
    (m.mapValues f).keys = m.keys := by
  simp [keys, mapValues, Function.comp_def]

theorem keys_filter (m : SortedMap K V) (p : K → Bool) :
    (m.filter (fun k _ => p k)).keys = m.keys.filter p := by
  simp only [keys, filter, List.filter_map]
  rfl

/-- Assigning keys in any order gives the same map when the last value assigned
to a key depends on the key only. -/
theorem foldl_insert_get? (f : K → V) (l : List K) (m : SortedMap K V) (k : K) :
    (l.foldl (fun m k => m.insert k (f k)) m).get? k = if k ∈ l then some (f k) else m.get? k := by
  induction l generalizing m with
  | nil => simp
  | cons a l ih =>
      rw [List.foldl_cons, ih]
      by_cases hl : k ∈ l
      · simp [hl]
      · by_cases ha : a = k
        · subst ha
          simp [hl]
        · simp [hl, Ne.symm ha, get?_insert_ne _ _ ha]

/-- A key after a loop of assignments, of which no two to one key disagree. -/
theorem get?_foldl_insert {α : Type*} {key : α → K} {val : α → V} {l : List α}
    (h : ∀ a ∈ l, ∀ b ∈ l, key a = key b → val a = val b) (m : SortedMap K V) (k : K) (v : V) :
    (l.foldl (fun m a => m.insert (key a) (val a)) m).get? k = some v ↔
      (∃ a ∈ l, key a = k ∧ val a = v) ∨ (∀ a ∈ l, key a ≠ k) ∧ m.get? k = some v := by
  induction l generalizing m with
  | nil => simp
  | cons a l ih =>
      have hl : ∀ b ∈ l, ∀ c ∈ l, key b = key c → val b = val c := fun b hb c hc =>
        h b (List.mem_cons_of_mem a hb) c (List.mem_cons_of_mem a hc)
      rw [List.foldl_cons, ih hl, get?_insert]
      by_cases ha : key a = k
      · simp only [ha, if_true, List.mem_cons, exists_eq_or_imp, forall_eq_or_imp, true_and,
          not_true_eq_false, false_and, or_false, ne_eq, Option.some.injEq]
        constructor
        · rintro (hb | ⟨_, hv⟩)
          · exact Or.inr hb
          · exact Or.inl hv
        · rintro (hv | hb)
          · by_cases hmem : ∃ b ∈ l, key b = k
            · obtain ⟨b, hb, hbk⟩ := hmem
              refine Or.inl ⟨b, hb, hbk, ?_⟩
              rw [← hv]
              exact h b (List.mem_cons_of_mem a hb) a List.mem_cons_self (hbk.trans ha.symm)
            · exact Or.inr ⟨fun b hb hbk => hmem ⟨b, hb, hbk⟩, hv⟩
          · exact Or.inl hb
      · simp only [ha, if_false, List.mem_cons, exists_eq_or_imp, forall_eq_or_imp, false_and,
          false_or, ne_eq, not_false_eq_true, true_and]

end SortedMap
