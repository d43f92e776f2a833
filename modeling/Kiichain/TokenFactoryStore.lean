import Kiichain.PrefixStore
import Kiichain.TokenFactoryActions

/-!
# The store layout of the token factory

The module keeps its authority entries and its creator lists in one store of text
keys. The lookups of the source are stated on that store, and shown to return
what the state holds.
-/

namespace Kiichain.TokenFactory
open GoExec PrefixStore

def keySeparator : String := "|"

def paramsKey : String := String.ofList [Char.ofNat 0]

def denomAuthorityMetadataKey : String := "authoritymetadata"

def denomsPrefixKey : String := "denoms"

def creatorPrefixKey : String := "creator"

def getDenomPrefixStore (denom : String) : String :=
  keySeparator.intercalate [denomsPrefixKey, denom, ""]

def getCreatorPrefix (creator : String) : String :=
  keySeparator.intercalate [creatorPrefixKey, creator, ""]

def getCreatorsPrefix : String := keySeparator.intercalate [creatorPrefixKey, ""]

def authorityKey (denom : String) : String := getDenomPrefixStore denom ++ denomAuthorityMetadataKey

def creatorKey (creator denom : String) : String := getCreatorPrefix creator ++ denom

inductive Value
  | params (params : Params)
  | authority (metadata : DenomAuthorityMetadata)
  | denom (name : String)

/-- The bytes of a value as text; only denominations are read so. -/
def Value.text : Value → String
  | .denom name => name
  | _ => ""

abbrev KVStore := SortedMap String Value

namespace KVStore

variable (kv : KVStore)

def getAuthorityMetadata (denom : String) : DenomAuthorityMetadata :=
  match kv.get? (authorityKey denom) with
  | some (.authority metadata) => metadata
  | _ => ⟨""⟩

def setAuthorityMetadata (denom : String) (metadata : DenomAuthorityMetadata) : KVStore :=
  kv.insert (authorityKey denom) (.authority metadata)

def addDenomFromCreator (creator denom : String) : KVStore :=
  kv.insert (creatorKey creator denom) (.denom denom)

def getDenomsFromCreator (creator : String) : List String :=
  (view (getCreatorPrefix creator) kv).map Prod.fst

def getAllDenoms : List String := (view getCreatorsPrefix kv).map fun e => e.2.text

def getDenomsFromAdmin (admin : String) : List String :=
  (getAllDenoms kv).filter fun denom => (getAuthorityMetadata kv denom).admin = admin

end KVStore

def creatorEntries (s : State) : List (String × String) :=
  ((s.creatorDenoms.image toLex).sort (· ≤ ·)).map ofLex

/-- The store that holds a state. -/
def kvStore (s : State) : KVStore :=
  (creatorEntries s).foldl (fun kv e => kv.insert (creatorKey e.1 e.2) (.denom e.2))
    (s.authorityMetadata.entries.foldl (fun kv e => kv.insert (authorityKey e.1) (.authority e.2))
      (SortedMap.insert ∅ paramsKey (.params s.params)))

section Keys

theorem getDenomPrefixStore_toList (denom : String) : (getDenomPrefixStore denom).toList =
    denomsPrefixKey.toList ++ '|' :: (denom.toList ++ ['|']) := by
  simp [getDenomPrefixStore, keySeparator]

theorem getCreatorPrefix_toList (creator : String) : (getCreatorPrefix creator).toList =
    creatorPrefixKey.toList ++ '|' :: (creator.toList ++ ['|']) := by
  simp [getCreatorPrefix, keySeparator]

theorem authorityKey_toList (denom : String) : (authorityKey denom).toList =
    denomsPrefixKey.toList ++ '|' :: (denom.toList ++ '|' :: denomAuthorityMetadataKey.toList) := by
  simp [authorityKey, getDenomPrefixStore_toList]

theorem creatorKey_toList (creator denom : String) : (creatorKey creator denom).toList =
    creatorPrefixKey.toList ++ '|' :: (creator.toList ++ '|' :: denom.toList) := by
  simp [creatorKey, getCreatorPrefix_toList]

theorem creatorKey_eq (creator denom : String) :
    creatorKey creator denom = getCreatorsPrefix ++ (creator ++ keySeparator ++ denom) := by
  apply String.toList_injective
  simp [creatorKey_toList, getCreatorsPrefix, keySeparator]

theorem authorityKey_injective {d d' : String} (h : authorityKey d = authorityKey d') : d = d' := by
  have hkeys := congrArg String.toList h
  simp only [authorityKey_toList, List.append_cancel_left_eq, List.cons.injEq, true_and] at hkeys
  exact String.toList_injective (List.append_cancel_right hkeys)

theorem creatorKey_injective {c c' d d' : String} (hc : '|' ∉ c.toList) (hd : '|' ∉ d.toList)
    (h : creatorKey c d = creatorKey c' d') : c = c' ∧ d = d' := by
  have hkeys := congrArg String.toList h
  simp only [creatorKey_toList, List.append_cancel_left_eq, List.cons.injEq, true_and] at hkeys
  obtain ⟨hcreator, hdenom⟩ := cut_unique hc hd hkeys
  exact ⟨String.toList_injective hcreator, String.toList_injective hdenom⟩

theorem creatorKey_ne_authorityKey (c d d' : String) : creatorKey c d ≠ authorityKey d' := by
  intro h
  have hhead := congrArg (fun x : String => x.toList.head?) h
  simp [creatorKey_toList, authorityKey_toList, creatorPrefixKey, denomsPrefixKey] at hhead

theorem creatorKey_ne_paramsKey (c d : String) : creatorKey c d ≠ paramsKey := by
  intro h
  have hhead := congrArg (fun x : String => x.toList.head?) h
  simp [creatorKey_toList, creatorPrefixKey, paramsKey] at hhead

theorem authorityKey_ne_paramsKey (d : String) : authorityKey d ≠ paramsKey := by
  intro h
  have hhead := congrArg (fun x : String => x.toList.head?) h
  simp [authorityKey_toList, denomsPrefixKey, paramsKey] at hhead

end Keys

/-- No name in the creator lists contains the separator of the keys. -/
def Separated (s : State) : Prop :=
  ∀ creator denom, (creator, denom) ∈ s.creatorDenoms →
    '|' ∉ creator.toList ∧ '|' ∉ denom.toList

section Separated

variable {k : Keeper} {s : State}

theorem bar_notMem_of_validDenom {denom : String} (h : validDenom denom = true) :
    '|' ∉ denom.toList := by
  unfold validDenom at h
  split at h
  · cases h
  · rename_i c cs hchars
    rw [hchars]
    simp only [Bool.and_eq_true, List.all_eq_true] at h
    obtain ⟨⟨⟨hfirst, _⟩, _⟩, hrest⟩ := h
    intro hmem
    obtain rfl | hmem := List.mem_cons.mp hmem
    · revert hfirst
      decide
    · have hbar := hrest '|' hmem
      revert hbar
      decide

theorem getTokenDenom_separated {creator subdenom denom : String}
    (h : getTokenDenom creator subdenom = .ok denom) :
    '/' ∉ creator.toList ∧ '|' ∉ creator.toList ∧ '|' ∉ denom.toList := by
  simp only [getTokenDenom, bind_eq_ok, ensure_eq_ok, exists_const, pure_eq_ok,
    Except.ok.injEq] at h
  obtain ⟨_, _, hslash, hvalid, rfl⟩ := h
  have hbar := bar_notMem_of_validDenom hvalid
  refine ⟨hslash, fun hmem => hbar ?_, hbar⟩
  rw [tokenDenom_toList]
  simp [hmem]

theorem Indexed.separated (hs : Indexed k s) : Separated s := by
  intro creator denom hmem
  obtain ⟨subdenom, hdenom⟩ := hs.named creator denom hmem
  exact (getTokenDenom_separated hdenom).2

/-- The creator of a denomination is read off its name. -/
theorem Indexed.creator_unique (hs : Indexed k s) {c c' denom : String}
    (h : (c, denom) ∈ s.creatorDenoms) (h' : (c', denom) ∈ s.creatorDenoms) : c = c' := by
  obtain ⟨subdenom, hdenom⟩ := hs.named c denom h
  obtain ⟨subdenom', hdenom'⟩ := hs.named c' denom h'
  have hname : tokenDenom c subdenom = tokenDenom c' subdenom' :=
    (getTokenDenom_eq_ok hdenom).symm.trans (getTokenDenom_eq_ok hdenom')
  have hchars := congrArg String.toList hname
  simp only [tokenDenom_toList, List.append_cancel_left_eq, List.cons.injEq, true_and] at hchars
  have hparts := congrArg (fun x => (GoStrings.split '/' x).head?) hchars
  rw [GoStrings.split_append (getTokenDenom_separated hdenom).1,
    GoStrings.split_append (getTokenDenom_separated hdenom').1] at hparts
  exact String.toList_injective (Option.some.inj hparts)

theorem mem_creatorEntries {creator denom : String} :
    (creator, denom) ∈ creatorEntries s ↔ (creator, denom) ∈ s.creatorDenoms := by
  simp [creatorEntries]

/-- What the store holds, key by key. -/
theorem get?_kvStore (hs : Separated s) {key : String} {v : Value} :
    (kvStore s).get? key = some v ↔
      (∃ creator denom, (creator, denom) ∈ s.creatorDenoms ∧ creatorKey creator denom = key ∧
        .denom denom = v) ∨
      (∃ denom metadata, s.authorityMetadata.get? denom = some metadata ∧
        authorityKey denom = key ∧ .authority metadata = v) ∨
      paramsKey = key ∧ .params s.params = v := by
  have hlists : ∀ e ∈ creatorEntries s, ∀ e' ∈ creatorEntries s,
      creatorKey e.1 e.2 = creatorKey e'.1 e'.2 → Value.denom e.2 = .denom e'.2 := by
    intro e he e' _ hkey
    obtain ⟨hc, hd⟩ := hs e.1 e.2 (mem_creatorEntries.mp he)
    rw [(creatorKey_injective hc hd hkey).2]
  have hentries : ∀ e ∈ s.authorityMetadata.entries, ∀ e' ∈ s.authorityMetadata.entries,
      authorityKey e.1 = authorityKey e'.1 → Value.authority e.2 = .authority e'.2 := by
    intro e he e' he' hkey
    have hget : s.authorityMetadata.get? e.1 = some e.2 := SortedMap.get?_eq_some.mpr he
    have hget' : s.authorityMetadata.get? e'.1 = some e'.2 := SortedMap.get?_eq_some.mpr he'
    rw [authorityKey_injective hkey, hget'] at hget
    rw [Option.some.inj hget]
  rw [kvStore, SortedMap.get?_foldl_insert hlists, SortedMap.get?_foldl_insert hentries,
    SortedMap.get?_insert]
  constructor
  · rintro (⟨e, he, rfl, rfl⟩ | ⟨_, ⟨e, he, rfl, rfl⟩ | ⟨_, hparams⟩⟩)
    · exact Or.inl ⟨e.1, e.2, mem_creatorEntries.mp he, rfl, rfl⟩
    · exact Or.inr (Or.inl ⟨e.1, e.2, SortedMap.get?_eq_some.mpr he, rfl, rfl⟩)
    · split_ifs at hparams with hkey
      · exact Or.inr (Or.inr ⟨hkey, Option.some.inj hparams⟩)
      · cases hparams
  · rintro (⟨c, d, hmem, rfl, rfl⟩ | ⟨d, m, hmem, rfl, rfl⟩ | ⟨rfl, rfl⟩)
    · exact Or.inl ⟨(c, d), mem_creatorEntries.mpr hmem, rfl, rfl⟩
    · refine Or.inr ⟨fun e _ => creatorKey_ne_authorityKey _ _ _, Or.inl ?_⟩
      exact ⟨(d, m), SortedMap.get?_eq_some.mp hmem, rfl, rfl⟩
    · refine Or.inr ⟨fun e _ => creatorKey_ne_paramsKey _ _, Or.inr ?_⟩
      exact ⟨fun e _ => authorityKey_ne_paramsKey _, if_pos rfl⟩

end Separated

section Lookups

variable {s : State} (hs : Separated s)
include hs

theorem get?_authorityKey (denom : String) :
    (kvStore s).get? (authorityKey denom) =
      (s.authorityMetadata.get? denom).map Value.authority := by
  apply Option.ext
  intro v
  rw [get?_kvStore hs, Option.map_eq_some_iff]
  constructor
  · rintro (⟨c, d, _, hkey, _⟩ | ⟨d, m, hget, hkey, rfl⟩ | ⟨hkey, _⟩)
    · exact absurd hkey (creatorKey_ne_authorityKey _ _ _)
    · exact ⟨m, authorityKey_injective hkey ▸ hget, rfl⟩
    · exact absurd hkey.symm (authorityKey_ne_paramsKey _)
  · rintro ⟨m, hget, rfl⟩
    exact Or.inr (Or.inl ⟨denom, m, hget, rfl, rfl⟩)

theorem kvStore_getAuthorityMetadata (denom : String) :
    (kvStore s).getAuthorityMetadata denom = getAuthorityMetadata s denom := by
  rw [KVStore.getAuthorityMetadata, get?_authorityKey hs, getAuthorityMetadata]
  cases s.authorityMetadata.get? denom <;> rfl

/-- Only names without the separator have a list. -/
theorem mem_getDenomsFromCreator {creator denom : String} :
    denom ∈ (kvStore s).getDenomsFromCreator creator ↔ (creator, denom) ∈ s.creatorDenoms := by
  simp only [KVStore.getDenomsFromCreator, List.mem_map, Prod.exists, exists_and_right,
    exists_eq_right, mem_view, get?_kvStore hs]
  constructor
  · rintro ⟨v, ⟨c, d, hmem, hkey, _⟩ | ⟨d, m, _, hkey, _⟩ | ⟨hkey, _⟩⟩
    · obtain ⟨hc, hd⟩ := hs c d hmem
      obtain ⟨rfl, rfl⟩ := creatorKey_injective hc hd hkey
      exact hmem
    · exact absurd hkey.symm (creatorKey_ne_authorityKey _ _ _)
    · exact absurd hkey.symm (creatorKey_ne_paramsKey _ _)
  · intro hmem
    exact ⟨_, Or.inl ⟨creator, denom, hmem, rfl, rfl⟩⟩

theorem mem_creators_view {key : String} {v : Value} :
    (key, v) ∈ view getCreatorsPrefix (kvStore s) ↔
      ∃ creator denom, (creator, denom) ∈ s.creatorDenoms ∧
        key = creator ++ keySeparator ++ denom ∧ v = .denom denom := by
  rw [mem_view, get?_kvStore hs]
  constructor
  · rintro (⟨c, d, hmem, hkey, rfl⟩ | ⟨d, m, _, hkey, _⟩ | ⟨hkey, _⟩)
    · refine ⟨c, d, hmem, ?_, rfl⟩
      rw [creatorKey_eq] at hkey
      have hchars := congrArg String.toList hkey
      simp only [String.toList_append, List.append_cancel_left_eq] at hchars
      apply String.toList_injective
      simpa using hchars.symm
    · have hhead := congrArg (fun x : String => x.toList.head?) hkey
      simp [authorityKey_toList, denomsPrefixKey, getCreatorsPrefix, creatorPrefixKey] at hhead
    · have hhead := congrArg (fun x : String => x.toList.head?) hkey
      simp [paramsKey, getCreatorsPrefix, creatorPrefixKey] at hhead
  · rintro ⟨c, d, hmem, rfl, rfl⟩
    exact Or.inl ⟨c, d, hmem, creatorKey_eq c d, rfl⟩

theorem mem_getAllDenoms {denom : String} :
    denom ∈ (kvStore s).getAllDenoms ↔ ∃ creator, (creator, denom) ∈ s.creatorDenoms := by
  simp only [KVStore.getAllDenoms, List.mem_map, Prod.exists, mem_creators_view hs]
  constructor
  · rintro ⟨_, _, ⟨c, d, hmem, rfl, rfl⟩, rfl⟩
    exact ⟨c, hmem⟩
  · rintro ⟨c, hmem⟩
    exact ⟨_, _, ⟨c, denom, hmem, rfl, rfl⟩, rfl⟩

end Lookups

section Writes

variable {s : State} (hs : Separated s)
include hs

/-- The two writes of the module to its store. -/
theorem kvStore_setAuthorityMetadata (denom : String) (metadata : DenomAuthorityMetadata) :
    kvStore { s with authorityMetadata := s.authorityMetadata.insert denom metadata } =
      (kvStore s).setAuthorityMetadata denom metadata := by
  apply SortedMap.ext_get?
  intro key
  apply Option.ext
  intro v
  rw [KVStore.setAuthorityMetadata, SortedMap.get?_insert,
    get?_kvStore (s := { s with authorityMetadata := s.authorityMetadata.insert denom metadata }) hs]
  dsimp only
  split_ifs with hkey
  · subst hkey
    constructor
    · rintro (⟨c, d, _, h, _⟩ | ⟨d, m, hget, h, rfl⟩ | ⟨h, _⟩)
      · exact absurd h (creatorKey_ne_authorityKey _ _ _)
      · rw [authorityKey_injective h, SortedMap.get?_insert_self] at hget
        rw [Option.some.inj hget]
      · exact absurd h.symm (authorityKey_ne_paramsKey _)
    · intro hv
      obtain rfl := Option.some.inj hv
      exact Or.inr (Or.inl ⟨denom, metadata, SortedMap.get?_insert_self _ _ _, rfl, rfl⟩)
  · rw [get?_kvStore hs]
    apply or_congr_right
    apply or_congr_left
    constructor
    · rintro ⟨d, m, hget, rfl, rfl⟩
      have hne : denom ≠ d := fun h => hkey (congrArg authorityKey h)
      exact ⟨d, m, (SortedMap.get?_insert_ne _ _ hne).symm.trans hget, rfl, rfl⟩
    · rintro ⟨d, m, hget, rfl, rfl⟩
      have hne : denom ≠ d := fun h => hkey (congrArg authorityKey h)
      exact ⟨d, m, (SortedMap.get?_insert_ne _ _ hne).trans hget, rfl, rfl⟩

theorem kvStore_addDenomFromCreator {creator denom : String} (hc : '|' ∉ creator.toList)
    (hd : '|' ∉ denom.toList) :
    kvStore (addDenomFromCreator s creator denom) =
      (kvStore s).addDenomFromCreator creator denom := by
  have hadded : Separated (addDenomFromCreator s creator denom) := by
    intro c d hmem
    obtain heq | hmem := Finset.mem_insert.mp hmem
    · obtain ⟨rfl, rfl⟩ := Prod.mk.inj heq
      exact ⟨hc, hd⟩
    · exact hs c d hmem
  apply SortedMap.ext_get?
  intro key
  apply Option.ext
  intro v
  rw [KVStore.addDenomFromCreator, SortedMap.get?_insert, get?_kvStore hadded]
  simp only [addDenomFromCreator, Finset.mem_insert]
  split_ifs with hkey
  · subst hkey
    constructor
    · rintro (⟨c, d, _, h, rfl⟩ | ⟨d, m, _, h, _⟩ | ⟨h, _⟩)
      · rw [(creatorKey_injective hc hd h.symm).2]
      · exact absurd h.symm (creatorKey_ne_authorityKey _ _ _)
      · exact absurd h.symm (creatorKey_ne_paramsKey _ _)
    · intro hv
      exact Or.inl ⟨creator, denom, Or.inl rfl, rfl, Option.some.inj hv⟩
  · rw [get?_kvStore hs]
    apply or_congr_left
    constructor
    · rintro ⟨c, d, heq | hmem, rfl, rfl⟩
      · obtain ⟨rfl, rfl⟩ := Prod.mk.inj heq
        exact absurd rfl hkey
      · exact ⟨c, d, hmem, rfl, rfl⟩
    · rintro ⟨c, d, hmem, rfl, rfl⟩
      exact ⟨c, d, Or.inr hmem, rfl, rfl⟩

end Writes

end Kiichain.TokenFactory
