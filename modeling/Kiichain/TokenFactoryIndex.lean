import Kiichain.TokenFactoryStore

/-!
# The indexes of the token factory stay in step

In every state that messages reach, the authority entries, the creator lists, the
admin lookup and the bank metadata speak of the same denominations, and no key of
one denomination or creator is confused with a key of another.
-/

namespace Kiichain.TokenFactory
open GoExec PrefixStore

/-- What keys belong to: a denomination, or the creator of a list. -/
inductive Owner
  | denom (name : String)
  | creator (name : String)

namespace Owner

def root : Owner → String
  | .denom _ => denomsPrefixKey
  | .creator _ => creatorPrefixKey

def name : Owner → String
  | .denom name => name
  | .creator name => name

def Stored (s : State) : Owner → Prop
  | .denom name => (s.authorityMetadata.get? name).isSome = true
  | .creator name => ∃ d, (name, d) ∈ s.creatorDenoms

/-- The keys of an owner, and the prefix under which they are looked up. -/
inductive Holds (s : State) : Owner → String → Prop
  | denomPrefix (d : String) : Holds s (.denom d) (getDenomPrefixStore d)
  | authority (d : String) : Holds s (.denom d) (authorityKey d)
  | creatorPrefix (c : String) : Holds s (.creator c) (getCreatorPrefix c)
  | listed {c d : String} (h : (c, d) ∈ s.creatorDenoms) : Holds s (.creator c) (creatorKey c d)

variable {s : State} {o o' : Owner} {x y : String}

theorem Holds.toList (h : Holds s o x) :
    ∃ rest, x.toList = o.root.toList ++ '|' :: (o.name.toList ++ '|' :: rest) := by
  cases h with
  | denomPrefix d => exact ⟨[], getDenomPrefixStore_toList d⟩
  | authority d => exact ⟨_, authorityKey_toList d⟩
  | creatorPrefix c => exact ⟨[], getCreatorPrefix_toList c⟩
  | listed h => exact ⟨_, creatorKey_toList _ _⟩

theorem bar_notMem_root (o : Owner) : '|' ∉ o.root.toList := by
  cases o with
  | denom d => exact show '|' ∉ denomsPrefixKey.toList by decide
  | creator c => exact show '|' ∉ creatorPrefixKey.toList by decide

theorem eq_of_root_of_name (hroot : o.root = o'.root) (hname : o.name = o'.name) : o = o' := by
  have hne : denomsPrefixKey ≠ creatorPrefixKey := by decide
  cases o with
  | denom d =>
      cases o' with
      | denom d' => exact congrArg denom hname
      | creator c' => exact absurd hroot hne
  | creator c =>
      cases o' with
      | denom d' => exact absurd hroot.symm hne
      | creator c' => exact congrArg creator hname

/-- A key that starts with a key of an owner belongs to the same owner. -/
theorem eq_of_prefix (hname : '|' ∉ o.name.toList) (hname' : '|' ∉ o'.name.toList)
    (hx : Holds s o x) (hy : Holds s o' y) (h : x.toList <+: y.toList) : o = o' := by
  obtain ⟨rest, hx⟩ := hx.toList
  obtain ⟨rest', hy⟩ := hy.toList
  rw [hx, hy] at h
  have hroot : o.root.toList = o'.root.toList := by
    apply eq_of_section_prefix o.bar_notMem_root o'.bar_notMem_root
    apply List.IsPrefix.trans _ h
    exact ⟨_, by rw [List.append_assoc, List.singleton_append]⟩
  rw [hroot, List.prefix_append_right_inj, List.prefix_cons_inj] at h
  have hname : o.name.toList = o'.name.toList := by
    apply eq_of_section_prefix hname hname'
    apply List.IsPrefix.trans _ h
    exact ⟨_, by rw [List.append_assoc, List.singleton_append]⟩
  exact eq_of_root_of_name (String.toList_injective hroot) (String.toList_injective hname)

end Owner

section Lookups

variable {k : Keeper} {s : State}

/-- Where no denomination is in two lists, all denominations are listed once each. -/
theorem nodup_getAllDenoms_of_unique (hsep : Separated s)
    (hunique : ∀ c c' d, (c, d) ∈ s.creatorDenoms → (c', d) ∈ s.creatorDenoms → c = c') :
    (kvStore s).getAllDenoms.Nodup := by
  apply List.Nodup.map_on _ (nodup_view _ _)
  intro e he e' he' htext
  obtain ⟨c, d, hmem, hkey, hval⟩ := (mem_creators_view hsep).mp he
  obtain ⟨c', d', hmem', hkey', hval'⟩ := (mem_creators_view hsep).mp he'
  have hd : d = d' := by
    rw [hval, hval'] at htext
    exact htext
  subst hd
  obtain rfl := hunique c c' d hmem hmem'
  exact Prod.ext (hkey.trans hkey'.symm) (hval.trans hval'.symm)

variable (hs : Indexed k s)
include hs

theorem Owner.Stored.bar_notMem {o : Owner} (h : o.Stored s) : '|' ∉ o.name.toList := by
  cases o with
  | denom denom =>
      obtain ⟨creator, hmem⟩ := hs.listed denom h
      exact (hs.separated creator denom hmem).2
  | creator creator =>
      obtain ⟨denom, hmem⟩ := h
      exact (hs.separated creator denom hmem).1

theorem nodup_getAllDenoms : (kvStore s).getAllDenoms.Nodup :=
  nodup_getAllDenoms_of_unique hs.separated fun _ _ _ hc hc' => hs.creator_unique hc hc'

theorem mem_getDenomsFromAdmin {admin denom : String} :
    denom ∈ (kvStore s).getDenomsFromAdmin admin ↔
      s.authorityMetadata.get? denom = some ⟨admin⟩ := by
  rw [KVStore.getDenomsFromAdmin, List.mem_filter, mem_getAllDenoms hs.separated,
    kvStore_getAuthorityMetadata hs.separated, getAuthorityMetadata, decide_eq_true_eq]
  constructor
  · rintro ⟨⟨creator, hmem⟩, hadmin⟩
    obtain ⟨metadata, hget⟩ := Option.isSome_iff_exists.mp (hs.entry creator denom hmem)
    rw [hget, Option.getD_some] at hadmin
    rw [hget, ← hadmin]
  · intro hget
    refine ⟨hs.listed denom (by rw [hget]; rfl), ?_⟩
    rw [hget, Option.getD_some]

theorem mem_getDenomsFromCreator_iff_eq {denom : String}
    (h : (s.authorityMetadata.get? denom).isSome = true) :
    ∃ creator subdenom, getTokenDenom creator subdenom = .ok denom ∧
      ∀ c, denom ∈ (kvStore s).getDenomsFromCreator c ↔ c = creator := by
  obtain ⟨creator, hmem⟩ := hs.listed denom h
  obtain ⟨subdenom, hdenom⟩ := hs.named creator denom hmem
  refine ⟨creator, subdenom, hdenom, fun c => ?_⟩
  rw [mem_getDenomsFromCreator hs.separated]
  constructor
  · intro hc
    exact hs.creator_unique hc hmem
  · rintro rfl
    exact hmem

end Lookups

/-- In every state reached from the default genesis: a denomination with an
authority entry is in the list of the creator in its name, in no other list, and
has bank metadata; the lookup by admin returns once each the denominations whose
admin is the given one; and no key of a stored denomination or creator is a prefix
of a key of another. -/
theorem reachable_indexes (k : Keeper) (authority : String)
    (denomMetaData : SortedMap String Metadata) (bank : Ledger Account String)
    (actions : List Action) {s : State}
    (h : Runs.run (stepAction k authority) (defaultGenesis denomMetaData bank) actions = .ok s) :
    (∀ denom, (s.authorityMetadata.get? denom).isSome = true →
      (∃ creator subdenom, denom = tokenDenom creator subdenom ∧ '/' ∉ creator.toList ∧
        ∀ c, denom ∈ (kvStore s).getDenomsFromCreator c ↔ c = creator) ∧
      (s.denomMetaData.get? denom).isSome = true) ∧
    (∀ admin, ((kvStore s).getDenomsFromAdmin admin).Nodup ∧
      ∀ denom, denom ∈ (kvStore s).getDenomsFromAdmin admin ↔
        s.authorityMetadata.get? denom = some ⟨admin⟩) ∧
    ∀ o o' : Owner, o.Stored s → o'.Stored s → o ≠ o' →
      ∀ x y, o.Holds s x → o'.Holds s y → ¬ x.toList <+: y.toList := by
  have hs : Indexed k s :=
    Runs.run_invariant (fun _ _ _ hi ht => indexed_writes hi (writes_stepAction ht))
      (indexed_defaultGenesis denomMetaData bank) h
  have hdescribed : Described s :=
    Runs.run_invariant (fun _ _ _ hi ht => described_writes hi (writes_stepAction ht))
      (described_defaultGenesis denomMetaData bank) h
  refine ⟨fun denom hd => ⟨?_, hdescribed denom hd⟩, fun admin => ⟨?_, fun denom => ?_⟩, ?_⟩
  · obtain ⟨creator, subdenom, hdenom, hlists⟩ := mem_getDenomsFromCreator_iff_eq hs hd
    exact ⟨creator, subdenom, getTokenDenom_eq_ok hdenom, (getTokenDenom_separated hdenom).1, hlists⟩
  · exact (nodup_getAllDenoms hs).filter _
  · exact mem_getDenomsFromAdmin hs
  · intro o o' ho ho' hne x y hx hy hprefix
    exact hne (Owner.eq_of_prefix (ho.bar_notMem hs) (ho'.bar_notMem hs) hx hy hprefix)

namespace RenouncedGold

/-- Gold that its creator renounces through a message of another module. -/
def renounced : List Action :=
  [.delivered (.createDenom 2000000 ⟨"alice", "gold"⟩),
    .nested (.changeAdmin ⟨"alice", "factory/alice/gold", ""⟩)]

theorem renounced_runs : (Runs.run (stepAction keeper "gov") (defaultGenesis ∅ bank) renounced).toOption.map
    (fun s => s.authorityMetadata.get? "factory/alice/gold") = some (some ⟨""⟩) := by decide

/-- Renounced gold is listed under the empty admin and under no other. -/
theorem gold_listed : ∃ s, Runs.run (stepAction keeper "gov") (defaultGenesis ∅ bank) renounced = .ok s ∧
    "factory/alice/gold" ∈ (kvStore s).getDenomsFromAdmin "" ∧
    "factory/alice/gold" ∉ (kvStore s).getDenomsFromAdmin "alice" := by
  obtain ⟨s, hrun, hgold⟩ := exists_of_toOption_map renounced_runs
  have hadmins := (reachable_indexes keeper "gov" ∅ bank renounced hrun).2.1
  refine ⟨s, hrun, ((hadmins "").2 _).mpr hgold, fun hmem => ?_⟩
  have halice := ((hadmins "alice").2 _).mp hmem
  rw [hgold] at halice
  revert halice
  decide

end RenouncedGold

end Kiichain.TokenFactory
