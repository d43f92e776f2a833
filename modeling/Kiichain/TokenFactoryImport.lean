import Kiichain.TokenFactoryGenesis
import Kiichain.TokenFactoryIndex

/-!
# Which genesis states start the token factory

The check of a genesis state and its import agree: the import panics exactly where
the check finds more to say than that a denomination is listed twice. What a checked
genesis state starts exports it again, and every reachable state exports a checked one.
-/

namespace Kiichain.TokenFactory
open GoExec PrefixStore

section Validate

variable (k : Keeper)

def validateFactoryDenom (seenDenoms : List String) (denom : GenesisDenom) :
    Exec (List String) := do
  ensure (denom.denom ∉ seenDenoms) (.error "duplicate denom: %s: invalid genesis")
  let _ ← deconstructDenom k denom.denom
  ensure (denom.authorityMetadata.admin = "" ∨
      (k.accAddressFromBech32 denom.authorityMetadata.admin).isSome = true)
    (.error "Invalid admin address (%s): invalid authority metadata")
  pure (denom.denom :: seenDenoms)

def GenesisState.validate (gs : GenesisState) : Exec Unit := do
  validateDenomCreationFee gs.params.denomCreationFee
  let _ ← gs.factoryDenoms.foldlM (validateFactoryDenom k) []

/-- The denomination is one of the module, and its admin an account or nobody. -/
structure GenesisDenom.Valid (genDenom : GenesisDenom) : Prop where
  denom : Returns (deconstructDenom k genDenom.denom)
  admin : validateAuthorityMetadata k genDenom.authorityMetadata = .ok ()

/-- What the chain writes for an account stands for it and does not hold the
separator of the store's keys. -/
structure WritesAddresses : Prop where
  decodes : Decodes k
  bare : ∀ text a, k.accAddressFromBech32 text = some a → '|' ∉ (k.addressString a).toList

variable {k} {s t : State} {gs : GenesisState}

theorem validateAuthorityMetadata_iff {metadata : DenomAuthorityMetadata} :
    validateAuthorityMetadata k metadata = .ok () ↔
      metadata.admin = "" ∨ (k.accAddressFromBech32 metadata.admin).isSome = true := by
  rw [validateAuthorityMetadata]
  split_ifs with hempty
  · simp [hempty, pure_eq_ok]
  · simp only [ensure_eq_ok, hempty, false_or]

theorem validateFactoryDenom_eq_ok {seen seen' : List String} {genDenom : GenesisDenom} :
    validateFactoryDenom k seen genDenom = .ok seen' ↔
      genDenom.denom ∉ seen ∧ genDenom.Valid k ∧ seen' = genDenom.denom :: seen := by
  simp only [validateFactoryDenom, bind_eq_ok, ensure_eq_ok, exists_const, pure_eq_ok,
    Except.ok.injEq]
  constructor
  · rintro ⟨hseen, parts, hparts, hadmin, rfl⟩
    exact ⟨hseen, ⟨⟨parts, hparts⟩, validateAuthorityMetadata_iff.mpr hadmin⟩, rfl⟩
  · rintro ⟨hseen, ⟨⟨parts, hparts⟩, hadmin⟩, rfl⟩
    exact ⟨hseen, parts, hparts, validateAuthorityMetadata_iff.mp hadmin, rfl⟩

theorem returns_foldlM_validate {denoms : List GenesisDenom} (seen : List String) :
    Returns (denoms.foldlM (validateFactoryDenom k) seen) ↔
      (denoms.map GenesisDenom.denom).Nodup ∧ (∀ d ∈ denoms, d.denom ∉ seen) ∧
        ∀ d ∈ denoms, d.Valid k := by
  induction denoms generalizing seen with
  | nil => simp
  | cons d denoms ih =>
      rw [List.foldlM_cons, returns_bind]
      simp only [validateFactoryDenom_eq_ok, List.map_cons, List.nodup_cons, List.forall_mem_cons,
        List.mem_map, not_exists, not_and]
      constructor
      · rintro ⟨_, ⟨hseen, hvalid, rfl⟩, hrest⟩
        obtain ⟨hnodup, hfresh, hall⟩ := (ih _).mp hrest
        simp only [List.mem_cons, not_or] at hfresh
        exact ⟨⟨fun e he => (hfresh e he).1, hnodup⟩, ⟨hseen, fun e he => (hfresh e he).2⟩, hvalid,
          hall⟩
      · rintro ⟨⟨hne, hnodup⟩, ⟨hseen, hfresh⟩, hvalid, hall⟩
        refine ⟨_, ⟨hseen, hvalid, rfl⟩, (ih _).mpr ⟨hnodup, fun e he => ?_, hall⟩⟩
        simp only [List.mem_cons, not_or]
        exact ⟨hne e he, hfresh e he⟩

theorem validate_eq_ok : gs.validate k = .ok () ↔
    validateDenomCreationFee gs.params.denomCreationFee = .ok () ∧
      (gs.factoryDenoms.map GenesisDenom.denom).Nodup ∧ ∀ d ∈ gs.factoryDenoms, d.Valid k := by
  have hloop : Returns (gs.factoryDenoms.foldlM (validateFactoryDenom k) []) ↔ _ :=
    returns_foldlM_validate []
  simp only [List.not_mem_nil, not_false_eq_true, implies_true, true_and] at hloop
  rw [← hloop, GenesisState.validate]
  simp only [bind_eq_ok, pure_eq_ok, and_true, Returns]
  constructor
  · rintro ⟨_, hfee, hdenoms⟩
    exact ⟨hfee, hdenoms⟩
  · rintro ⟨hfee, hdenoms⟩
    exact ⟨_, hfee, hdenoms⟩

end Validate

section Import

variable {k : Keeper} {s t : State} {gs : GenesisState}

/-- The creator that the chain reads off a denomination is an account as it writes it. -/
theorem creatorOf_of_returns {denom : String} (h : Returns (deconstructDenom k denom)) :
    ∃ text a rest, k.accAddressFromBech32 text = some a ∧ creatorOf k denom = k.addressString a ∧
      deconstructDenom k denom = .ok (k.addressString a, rest) ∧ validDenom denom = true := by
  obtain ⟨⟨creator, rest⟩, hparts⟩ := h
  have hread := hparts
  simp only [deconstructDenom, bind_eq_ok, ensure_eq_ok, exists_const] at hread
  obtain ⟨hvalid, hread⟩ := hread
  split at hread
  · rename_i text _ _ _
    simp only [bind_eq_ok, ensure_eq_ok, exists_const, require_eq_ok, pure_eq_ok, Except.ok.injEq,
      Prod.mk.injEq] at hread
    obtain ⟨_, a, ha, rfl, rfl⟩ := hread
    refine ⟨text, a, _, ha, ?_, hparts, hvalid⟩
    rw [creatorOf, hparts]
    rfl
  · cases hread

/-- One turn of the import. -/
def importDenom (k : Keeper) (t : State) (genDenom : GenesisDenom) : State :=
  let t := recordDenom t (creatorOf k genDenom.denom) genDenom.denom
  { t with
    authorityMetadata := t.authorityMetadata.insert genDenom.denom genDenom.authorityMetadata }

theorem initGenesisDenom_of_valid (hk : Decodes k) {genDenom : GenesisDenom}
    (h : genDenom.Valid k) (t : State) :
    initGenesisDenom k t genDenom = .ok (importDenom k t genDenom) := by
  obtain ⟨text, a, rest, ha, hcreator, hparts, _⟩ := creatorOf_of_returns h.denom
  have haddress : (k.accAddressFromBech32 (k.addressString a)).isSome = true := by
    rw [hk text a ha]
    rfl
  have hcreate : createDenomAfterValidation k t (k.addressString a) genDenom.denom =
      .ok (recordDenom t (k.addressString a) genDenom.denom) :=
    createDenomAfterValidation_eq_ok.mpr ⟨validateAuthorityMetadata_of_address haddress, rfl⟩
  rw [initGenesisDenom, escalated_eq_ok.mpr hparts, ok_bind]
  dsimp only
  rw [escalated_eq_ok.mpr hcreate, ok_bind, escalated_eq_ok, setAuthorityMetadata, h.admin,
    ok_bind, importDenom, hcreator]
  rfl

theorem returns_initGenesisDenom_iff (hk : Decodes k) (t : State) {genDenom : GenesisDenom} :
    Returns (initGenesisDenom k t genDenom) ↔ genDenom.Valid k := by
  constructor
  · rintro ⟨u, hu⟩
    simp only [initGenesisDenom, setAuthorityMetadata, bind_eq_ok, escalated_eq_ok] at hu
    obtain ⟨parts, hparts, _, _, _, hadmin, _⟩ := hu
    exact ⟨⟨parts, hparts⟩, hadmin⟩
  · intro h
    exact ⟨_, initGenesisDenom_of_valid hk h t⟩

theorem returns_initGenesis_iff (hk : Decodes k) : Returns (initGenesis k s gs) ↔
    validateDenomCreationFee gs.params.denomCreationFee = .ok () ∧
      ∀ d ∈ gs.factoryDenoms, d.Valid k := by
  rw [initGenesis, returns_bind, ← returns_foldlM_iff
    (fun t (d : GenesisDenom) _ => (returns_initGenesisDenom_iff hk t : _ ↔ d.Valid k))
    { s with params := gs.params }]
  simp only [escalated_eq_ok]
  constructor
  · rintro ⟨_, hfee, hdenoms⟩
    exact ⟨hfee, hdenoms⟩
  · rintro ⟨hfee, hdenoms⟩
    exact ⟨_, hfee, hdenoms⟩

/-- The state after the import of denominations of which none is listed twice. -/
structure Imported (k : Keeper) (start : State) (denoms : List GenesisDenom) (t : State) :
    Prop where
  params : t.params = start.params
  bank : t.bank = start.bank
  authority : ∀ d ∈ denoms, t.authorityMetadata.get? d.denom = some d.authorityMetadata
  untouched : ∀ name ∉ denoms.map GenesisDenom.denom,
    t.authorityMetadata.get? name = start.authorityMetadata.get? name ∧
      t.denomMetaData.get? name = start.denomMetaData.get? name
  metadata : ∀ d ∈ denoms, t.denomMetaData.get? d.denom = some (initialMetadata d.denom)
  listed : ∀ creator name, (creator, name) ∈ t.creatorDenoms ↔
    (creator, name) ∈ start.creatorDenoms ∨
      name ∈ denoms.map GenesisDenom.denom ∧ creator = creatorOf k name

theorem imported_importDenom (start : State) (d : GenesisDenom) :
    Imported k start [d] (importDenom k start d) where
  params := rfl
  bank := rfl
  authority e he := by
    obtain rfl := List.mem_singleton.mp he
    exact SortedMap.get?_insert_self _ _ _
  untouched name hname := by
    have hne : d.denom ≠ name := fun heq => hname (List.mem_singleton.mpr heq.symm)
    simp only [importDenom, recordDenom, SortedMap.get?_insert_ne _ _ hne, and_self]
  metadata e he := by
    obtain rfl := List.mem_singleton.mp he
    exact SortedMap.get?_insert_self _ _ _
  listed creator name := by
    simp only [importDenom, recordDenom, Finset.mem_insert, Prod.mk.injEq, List.map_cons,
      List.map_nil, List.mem_singleton]
    constructor
    · rintro (⟨rfl, rfl⟩ | hmem)
      · exact Or.inr ⟨rfl, rfl⟩
      · exact Or.inl hmem
    · rintro (hmem | ⟨rfl, rfl⟩)
      · exact Or.inr hmem
      · exact Or.inl ⟨rfl, rfl⟩

theorem imported_foldl {denoms : List GenesisDenom}
    (hnodup : (denoms.map GenesisDenom.denom).Nodup) (start : State) :
    Imported k start denoms (denoms.foldl (importDenom k) start) := by
  induction denoms generalizing start with
  | nil => exact ⟨rfl, rfl, by simp, fun _ _ => ⟨rfl, rfl⟩, by simp, by simp⟩
  | cons d denoms ih =>
      obtain ⟨hnot, hnodup⟩ := List.nodup_cons.mp hnodup
      have hfirst := imported_importDenom (k := k) start d
      have hrest := ih hnodup (importDenom k start d)
      obtain ⟨hauthority, hmetadata⟩ := hrest.untouched d.denom hnot
      constructor
      · rw [List.foldl_cons, hrest.params, hfirst.params]
      · rw [List.foldl_cons, hrest.bank, hfirst.bank]
      · rw [List.forall_mem_cons]
        exact ⟨hauthority.trans (hfirst.authority d (List.mem_singleton_self d)), hrest.authority⟩
      · intro name hname
        rw [List.map_cons, List.mem_cons, not_or] at hname
        obtain ⟨ha, hm⟩ := hrest.untouched name hname.2
        obtain ⟨ha', hm'⟩ := hfirst.untouched name (by simpa using hname.1)
        exact ⟨ha.trans ha', hm.trans hm'⟩
      · rw [List.forall_mem_cons]
        exact ⟨hmetadata.trans (hfirst.metadata d (List.mem_singleton_self d)), hrest.metadata⟩
      · intro creator name
        rw [List.foldl_cons, hrest.listed, hfirst.listed]
        simp only [List.map_cons, List.map_nil, List.mem_cons, List.not_mem_nil, or_false,
          or_and_right, or_assoc]

/-- The import of a checked genesis state returns, and what it returns. -/
theorem imported_of_validate (hk : Decodes k) (h : gs.validate k = .ok ()) (start : State) :
    ∃ t, initGenesis k start gs = .ok t ∧
      Imported k { start with params := gs.params } gs.factoryDenoms t := by
  obtain ⟨hfee, hnodup, hvalid⟩ := validate_eq_ok.mp h
  refine ⟨_, ?_, imported_foldl hnodup _⟩
  rw [initGenesis, escalated_eq_ok.mpr hfee, ok_bind]
  exact foldlM_eq_ok_foldl (fun t d hd => initGenesisDenom_of_valid hk (hvalid d hd) t) _

variable {start : State} {denoms : List GenesisDenom}

theorem Imported.separated (hk : WritesAddresses k) (hstart : start.creatorDenoms = ∅)
    (hvalid : ∀ d ∈ denoms, d.Valid k) (h : Imported k start denoms t) : Separated t := by
  intro creator name hmem
  rw [h.listed, hstart] at hmem
  obtain hnone | ⟨hname, rfl⟩ := hmem
  · exact absurd hnone (Finset.notMem_empty _)
  · obtain ⟨d, hd, rfl⟩ := List.mem_map.mp hname
    obtain ⟨text, a, _, ha, hcreator, _, hdenom⟩ := creatorOf_of_returns (hvalid d hd).denom
    rw [hcreator]
    exact ⟨hk.bare text a ha, bar_notMem_of_validDenom hdenom⟩

/-- What a checked genesis state starts has just its denominations, each once. -/
theorem Imported.perm_getAllDenoms (hsep : Separated t) (hstart : start.creatorDenoms = ∅)
    (hnodup : (denoms.map GenesisDenom.denom).Nodup) (h : Imported k start denoms t) :
    (kvStore t).getAllDenoms.Perm (denoms.map GenesisDenom.denom) := by
  have hlisted : ∀ creator name, (creator, name) ∈ t.creatorDenoms ↔
      name ∈ denoms.map GenesisDenom.denom ∧ creator = creatorOf k name := by
    intro creator name
    rw [h.listed, hstart]
    simp only [Finset.notMem_empty, false_or]
  have hall : (kvStore t).getAllDenoms.Nodup := by
    apply nodup_getAllDenoms_of_unique hsep
    intro c c' d hc hc'
    rw [((hlisted c d).mp hc).2, ((hlisted c' d).mp hc').2]
  rw [List.perm_ext_iff_of_nodup hall hnodup]
  intro name
  rw [mem_getAllDenoms hsep]
  constructor
  · rintro ⟨creator, hmem⟩
    exact ((hlisted creator name).mp hmem).1
  · intro hname
    exact ⟨_, (hlisted _ name).mpr ⟨hname, rfl⟩⟩

theorem Imported.perm_exportGenesis (hsep : Separated t) (hstart : start.creatorDenoms = ∅)
    (hnodup : (denoms.map GenesisDenom.denom).Nodup) (h : Imported k start denoms t) :
    (exportGenesis t).factoryDenoms.Perm denoms := by
  have hexported : (denoms.map GenesisDenom.denom).map
      (fun name => (⟨name, (kvStore t).getAuthorityMetadata name⟩ : GenesisDenom)) = denoms := by
    rw [List.map_map]
    conv_rhs => rw [← List.map_id denoms]
    apply List.map_congr_left
    intro d hd
    rw [Function.comp_apply, kvStore_getAuthorityMetadata hsep, getAuthorityMetadata,
      h.authority d hd, Option.getD_some]
    rfl
  have hperm := (h.perm_getAllDenoms hsep hstart hnodup).map fun name =>
    (⟨name, (kvStore t).getAuthorityMetadata name⟩ : GenesisDenom)
  rwa [hexported] at hperm

end Import

section Export

variable {k : Keeper} {s : State}

theorem validate_exportGenesis (hs : Indexed k s) : (exportGenesis s).validate k = .ok () := by
  refine validate_eq_ok.mpr ⟨hs.params, ?_, ?_⟩
  · have hnames : (exportGenesis s).factoryDenoms.map GenesisDenom.denom =
        (kvStore s).getAllDenoms := by
      rw [exportGenesis, List.map_map]
      exact List.map_id _
    rw [hnames]
    exact nodup_getAllDenoms hs
  · intro d hd
    obtain ⟨denom, hdenom, rfl⟩ := List.mem_map.mp hd
    obtain ⟨creator, hmem⟩ := (mem_getAllDenoms hs.separated).mp hdenom
    obtain ⟨a, rest, _, _, hparts⟩ := creatorOf_eq hs hmem
    obtain ⟨metadata, hget⟩ := Option.isSome_iff_exists.mp (hs.entry creator denom hmem)
    refine ⟨⟨_, hparts⟩, ?_⟩
    rw [kvStore_getAuthorityMetadata hs.separated, getAuthorityMetadata, hget, Option.getD_some]
    exact hs.admin denom metadata hget

/-- Every state that messages, contracts and the other modules lead to from the default
genesis exports a genesis state that passes the check and that an empty module imports. -/
theorem reachable_validates (k : Keeper) (hk : Decodes k) (authority : String)
    (denomMetaData : SortedMap String Metadata) (bank : Ledger Account String)
    (es : List ChainEvent)
    (h : Runs.run (stepChain k authority) (defaultGenesis denomMetaData bank) es = .ok s) :
    (exportGenesis s).validate k = .ok () ∧
      ∀ start, Returns (initGenesis k start (exportGenesis s)) := by
  have hs : Indexed k s :=
    Runs.run_invariant (fun _ _ _ hi ht => indexed_stepChain hi ht)
      (indexed_defaultGenesis denomMetaData bank) h
  have hvalid := validate_exportGenesis hs
  refine ⟨hvalid, fun start => ?_⟩
  obtain ⟨t, ht, _⟩ := imported_of_validate hk hvalid start
  exact ⟨t, ht⟩

end Export

namespace TwoCoins
open RenouncedGold (bank)

/-- Texts with the separator of the store's keys stand for nobody. -/
def keeper : Keeper where
  enabledCapabilities := []
  permAddrs := [moduleName]
  accAddressFromBech32 address :=
    if address = "" ∨ '|' ∈ address.toList then none else some (.user address)
  addressString
    | .user address => address
    | .module name => name
  blockedAddr _ := false
  metadataValid _ := true
  empty_address := rfl

theorem accAddressFromBech32_eq_some {text : String} {a : Account}
    (h : keeper.accAddressFromBech32 text = some a) :
    '|' ∉ text.toList ∧ a = .user text := by
  simp only [keeper, Option.ite_none_left_eq_some, not_or, Option.some.injEq] at h
  exact ⟨h.1.2, h.2.symm⟩

theorem writesAddresses : WritesAddresses keeper where
  decodes text a h := by
    obtain ⟨_, rfl⟩ := accAddressFromBech32_eq_some h
    exact h
  bare text a h := by
    obtain ⟨hbare, rfl⟩ := accAddressFromBech32_eq_some h
    exact hbare

/-- Gold that bob holds the keys to, and silver that nobody does. -/
def coins : GenesisState :=
  ⟨defaultParams, [⟨"factory/bob/silver", ⟨""⟩⟩, ⟨"factory/alice/gold", ⟨"bob"⟩⟩]⟩

def start : State := defaultGenesis ∅ bank

theorem coins_validate : coins.validate keeper = .ok () := by decide

def created : List ChainEvent := [.action (.delivered (.createDenom 2000000 ⟨"alice", "gold"⟩)),
  .action (.nested (.changeAdmin ⟨"alice", "factory/alice/gold", "bob"⟩))]

def reached : Exec State :=
  Runs.run (stepChain { keeper with enabledCapabilities := [enableCommunityPoolFeeFunding] } "gov")
    start created

theorem created_runs : reached.toOption.map (fun s => admin s "factory/alice/gold") =
    some "bob" := by decide

theorem created_validates : ∃ s, reached = .ok s ∧ admin s "factory/alice/gold" = "bob" ∧
    (exportGenesis s).validate keeper = .ok () := by
  obtain ⟨s, hs, hadmin⟩ := exists_of_toOption_map created_runs
  exact ⟨s, hs, hadmin, (reachable_validates
    { keeper with enabledCapabilities := [enableCommunityPoolFeeFunding] }
    writesAddresses.decodes "gov" ∅ bank created hs).1⟩

end TwoCoins

end Kiichain.TokenFactory
