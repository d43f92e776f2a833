import Kiichain.TokenFactoryStore

/-!
# Export and import of the token factory

The bank is imported first, with the metadata it exported. The import of the
token factory then creates every denomination anew, which writes the metadata of
a new denomination over the imported one, and restores the admin.
-/

namespace Kiichain.TokenFactory
open GoExec

structure GenesisDenom where
  denom : String
  authorityMetadata : DenomAuthorityMetadata

structure GenesisState where
  params : Params
  factoryDenoms : List GenesisDenom

section Genesis

variable (k : Keeper)

def initGenesisDenom (s : State) (genDenom : GenesisDenom) : Exec State := do
  let (creator, _) ← escalated (deconstructDenom k genDenom.denom)
  let s ← escalated (createDenomAfterValidation k s creator genDenom.denom)
  escalated (setAuthorityMetadata k s genDenom.denom genDenom.authorityMetadata)

def initGenesis (s : State) (genState : GenesisState) : Exec State := do
  escalated (validateDenomCreationFee genState.params.denomCreationFee)
  genState.factoryDenoms.foldlM (initGenesisDenom k) { s with params := genState.params }

end Genesis

def exportGenesis (s : State) : GenesisState where
  params := s.params
  factoryDenoms := (kvStore s).getAllDenoms.map fun denom =>
    ⟨denom, (kvStore s).getAuthorityMetadata denom⟩

/-- A chain that has imported the bank of `s` and nothing of the token factory. -/
def importBank (s : State) : State := { s with authorityMetadata := ∅, creatorDenoms := ∅ }

/-- A call of the module, or whatever other modules do to the bank. -/
inductive ChainEvent
  | action (a : Action)
  | external (bank : Ledger Account String) (denomMetaData : SortedMap String Metadata)

def stepChain (k : Keeper) (authority : String) (s : State) : ChainEvent → Exec State
  | .action a => stepAction k authority s a
  | .external bank denomMetaData => pure { s with bank := bank, denomMetaData := denomMetaData }

/-- The import restores the admin, the creator and the metadata of every
denomination of the module. -/
def RoundTrips (k : Keeper) (s : State) : Prop :=
  ∃ t, initGenesis k (importBank s) (exportGenesis s) = .ok t ∧
    ∀ denom, (s.authorityMetadata.get? denom).isSome = true →
      t.authorityMetadata.get? denom = s.authorityMetadata.get? denom ∧
      (∀ creator, (creator, denom) ∈ t.creatorDenoms ↔ (creator, denom) ∈ s.creatorDenoms) ∧
      t.denomMetaData.get? denom = s.denomMetaData.get? denom

/-- The text of an address decodes to the address. -/
def Decodes (k : Keeper) : Prop :=
  ∀ text a, k.accAddressFromBech32 text = some a →
    k.accAddressFromBech32 (k.addressString a) = some a

section Import

variable {k : Keeper} {s t : State} {creator denom : String}

/-- The creator that the import reads off a denomination. -/
def creatorOf (k : Keeper) (denom : String) : String :=
  ((deconstructDenom k denom).toOption.map Prod.fst).getD ""

theorem creatorOf_eq (hs : Indexed k s) (hmem : (creator, denom) ∈ s.creatorDenoms) :
    ∃ a rest, k.accAddressFromBech32 creator = some a ∧ creatorOf k denom = k.addressString a ∧
      deconstructDenom k denom = .ok (k.addressString a, rest) := by
  obtain ⟨a, ha⟩ := Option.isSome_iff_exists.mp (hs.address creator denom hmem)
  obtain ⟨subdenom, hdenom⟩ := hs.named creator denom hmem
  have hrest := deconstructDenom_tokenDenom hdenom ha
  refine ⟨a, _, ha, ?_, hrest⟩
  rw [creatorOf, hrest]
  rfl

/-- One turn of the import of the exported denominations of `s`. -/
def restoreDenom (k : Keeper) (s t : State) (denom : String) : State :=
  let t := recordDenom t (creatorOf k denom) denom
  { t with authorityMetadata := t.authorityMetadata.insert denom (getAuthorityMetadata s denom) }

theorem initGenesisDenom_eq (hk : Decodes k) (hs : Indexed k s)
    (h : (s.authorityMetadata.get? denom).isSome = true) (t : State) :
    initGenesisDenom k t ⟨denom, getAuthorityMetadata s denom⟩ = .ok (restoreDenom k s t denom) := by
  obtain ⟨creator, hmem⟩ := hs.listed denom h
  obtain ⟨a, rest, ha, hcreator, hparts⟩ := creatorOf_eq hs hmem
  have haddress : (k.accAddressFromBech32 (k.addressString a)).isSome = true := by
    rw [hk creator a ha]
    rfl
  have hcreate : createDenomAfterValidation k t (k.addressString a) denom =
      .ok (recordDenom t (k.addressString a) denom) :=
    createDenomAfterValidation_eq_ok.mpr ⟨validateAuthorityMetadata_of_address haddress, rfl⟩
  obtain ⟨metadata, hget⟩ := Option.isSome_iff_exists.mp h
  have hadmin : validateAuthorityMetadata k (getAuthorityMetadata s denom) = .ok () := by
    rw [getAuthorityMetadata, hget, Option.getD_some]
    exact hs.admin denom metadata hget
  rw [initGenesisDenom, escalated_eq_ok.mpr hparts, ok_bind]
  dsimp only
  rw [escalated_eq_ok.mpr hcreate, ok_bind, escalated_eq_ok, setAuthorityMetadata, hadmin, ok_bind,
    restoreDenom, hcreator]
  rfl

/-- The state after the import of some of the denominations of `s`. -/
structure Restored (k : Keeper) (s start : State) (denoms : List String) (t : State) : Prop where
  authority : ∀ d, t.authorityMetadata.get? d =
    if d ∈ denoms then some (getAuthorityMetadata s d) else start.authorityMetadata.get? d
  metadata : ∀ d, t.denomMetaData.get? d =
    if d ∈ denoms then some (initialMetadata d) else start.denomMetaData.get? d
  listed : ∀ c d, (c, d) ∈ t.creatorDenoms ↔
    (c, d) ∈ start.creatorDenoms ∨ d ∈ denoms ∧ c = creatorOf k d

theorem restored_restoreDenom (s start : State) (denom : String) :
    Restored k s start [denom] (restoreDenom k s start denom) where
  authority d := by
    simp only [restoreDenom, recordDenom, SortedMap.get?_insert, List.mem_singleton]
    by_cases h : denom = d
    · rw [if_pos h, if_pos h.symm, h]
    · rw [if_neg h, if_neg h, if_neg (Ne.symm h)]
  metadata d := by
    simp only [restoreDenom, recordDenom, SortedMap.get?_insert, List.mem_singleton]
    by_cases h : denom = d
    · rw [if_pos h, if_pos h.symm, h]
    · rw [if_neg h, if_neg (Ne.symm h)]
  listed c d := by
    simp only [restoreDenom, recordDenom, Finset.mem_insert, Prod.mk.injEq, List.mem_singleton]
    constructor
    · rintro (⟨rfl, rfl⟩ | hmem)
      · exact Or.inr ⟨rfl, rfl⟩
      · exact Or.inl hmem
    · rintro (hmem | ⟨rfl, rfl⟩)
      · exact Or.inr hmem
      · exact Or.inl ⟨rfl, rfl⟩

theorem Restored.cons {start t u : State} {denoms : List String}
    (h : Restored k s start [denom] t) (h' : Restored k s t denoms u) :
    Restored k s start (denom :: denoms) u where
  authority d := by
    rw [h'.authority, h.authority]
    by_cases hd : d ∈ denoms <;> simp [hd]
  metadata d := by
    rw [h'.metadata, h.metadata]
    by_cases hd : d ∈ denoms <;> simp [hd]
  listed c d := by
    rw [h'.listed, h.listed, List.mem_singleton, List.mem_cons, or_and_right, or_assoc]

theorem restored_foldl (s : State) (denoms : List String) (start : State) :
    Restored k s start denoms (denoms.foldl (restoreDenom k s) start) := by
  induction denoms generalizing start with
  | nil => exact ⟨fun d => by simp, fun d => by simp, fun c d => by simp⟩
  | cons denom denoms ih => exact (restored_restoreDenom s start denom).cons (ih _)

/-- The import of an exported state returns, and what it returns. -/
theorem initGenesis_exportGenesis (hk : Decodes k) (hs : Indexed k s) :
    ∃ t, initGenesis k (importBank s) (exportGenesis s) = .ok t ∧
      Restored k s (importBank s) (kvStore s).getAllDenoms t := by
  refine ⟨_, ?_, restored_foldl s _ (importBank s)⟩
  rw [initGenesis, exportGenesis, hs.params, show escalated (.ok ()) = Except.ok () from rfl,
    ok_bind, List.foldlM_map]
  apply foldlM_eq_ok_foldl
  intro t denom hmem
  obtain ⟨creator, hcreator⟩ := (mem_getAllDenoms hs.separated).mp hmem
  rw [kvStore_getAuthorityMetadata hs.separated]
  exact initGenesisDenom_eq hk hs (hs.entry creator denom hcreator) t

end Import

/-- Creators are written as the chain writes addresses, and the bank has what it
has for a new denomination. -/
def plain (k : Keeper) : Terms where
  creator creator := (k.accAddressFromBech32 creator).map k.addressString = some creator
  metadata metadata := metadata = initialMetadata metadata.base

def Restorable (k : Keeper) (s : State) : Prop :=
  ∀ creator denom, (creator, denom) ∈ s.creatorDenoms →
    (plain k).creator creator ∧ s.denomMetaData.get? denom = some (initialMetadata denom)

/-- Only plain creators and metadata are written, and other modules leave the
metadata of the denominations as it is for a new one. -/
def ChainEvent.Plain (k : Keeper) (s : State) : ChainEvent → Prop
  | .action a => a.Within k (plain k)
  | .external _ denomMetaData => ∀ creator denom, (creator, denom) ∈ s.creatorDenoms →
      denomMetaData.get? denom = some (initialMetadata denom)

section RoundTrip

variable {k : Keeper} {authority : String} {s t : State} {creator denom : String}

theorem restorable_of_roundTrips (hk : Decodes k) (hs : Indexed k s) (h : RoundTrips k s) :
    Restorable k s := by
  obtain ⟨t, ht, hall⟩ := h
  obtain ⟨u, hu, hrestored⟩ := initGenesis_exportGenesis hk hs
  obtain rfl := Except.ok.inj (ht.symm.trans hu)
  intro creator denom hmem
  obtain ⟨_, hcreators, hmetadata⟩ := hall denom (hs.entry creator denom hmem)
  have hlisted : denom ∈ (kvStore s).getAllDenoms := (mem_getAllDenoms hs.separated).mpr ⟨_, hmem⟩
  obtain ⟨a, rest, ha, hcreator, _⟩ := creatorOf_eq hs hmem
  constructor
  · have himported := (hrestored.listed creator denom).mp ((hcreators creator).mpr hmem)
    obtain hnone | ⟨_, heq⟩ := himported
    · exact absurd hnone (Finset.notMem_empty _)
    · rw [hcreator] at heq
      change (k.accAddressFromBech32 creator).map k.addressString = some creator
      rw [ha, Option.map_some, ← heq]
  · rw [← hmetadata, hrestored.metadata, if_pos hlisted]

theorem roundTrips_of_restorable (hk : Decodes k) (hs : Indexed k s) (h : Restorable k s) :
    RoundTrips k s := by
  obtain ⟨t, ht, hrestored⟩ := initGenesis_exportGenesis hk hs
  refine ⟨t, ht, fun denom hentry => ?_⟩
  obtain ⟨creator, hmem⟩ := hs.listed denom hentry
  have hlisted : denom ∈ (kvStore s).getAllDenoms := (mem_getAllDenoms hs.separated).mpr ⟨_, hmem⟩
  obtain ⟨hplain, hmetadata⟩ := h creator denom hmem
  obtain ⟨a, rest, ha, hcreator, _⟩ := creatorOf_eq hs hmem
  have hcanonical : creatorOf k denom = creator := by
    change (k.accAddressFromBech32 creator).map k.addressString = some creator at hplain
    rw [ha, Option.map_some] at hplain
    rw [hcreator, Option.some.inj hplain]
  refine ⟨?_, fun c => ?_, ?_⟩
  · obtain ⟨metadata, hget⟩ := Option.isSome_iff_exists.mp hentry
    rw [hrestored.authority, if_pos hlisted, getAuthorityMetadata, hget, Option.getD_some]
  · rw [hrestored.listed, hcanonical]
    constructor
    · rintro (hnone | ⟨_, rfl⟩)
      · exact absurd hnone (Finset.notMem_empty _)
      · exact hmem
    · intro hc
      exact Or.inr ⟨hlisted, hs.creator_unique hc hmem⟩
  · rw [hrestored.metadata, if_pos hlisted, hmetadata]

theorem restorable_writes (hs : Restorable k s) (h : Writes k (plain k) s t) : Restorable k t := by
  induction h with
  | idle s => exact hs
  | bank s bank => exact hs
  | params s params _ => exact hs
  | admin s _ _ => exact hs
  | @record s creator denom _ hcreator =>
      intro c d hmem
      rw [recordDenom, SortedMap.get?_insert]
      obtain heq | hmem := Finset.mem_insert.mp hmem
      · obtain ⟨rfl, rfl⟩ := Prod.mk.inj heq
        exact ⟨hcreator, if_pos rfl⟩
      · obtain ⟨hc, hd⟩ := hs c d hmem
        refine ⟨hc, ?_⟩
        split_ifs with he
        · rw [he]
        · exact hd
  | @metadata s metadata hmetadata =>
      intro c d hmem
      obtain ⟨hc, hd⟩ := hs c d hmem
      refine ⟨hc, ?_⟩
      rw [setDenomMetaData, SortedMap.get?_insert]
      split_ifs with he
      · change metadata = initialMetadata metadata.base at hmetadata
        rw [hmetadata, he]
      · exact hd
  | trans _ _ ih ih' => exact ih' (ih hs)

theorem indexed_stepChain {e : ChainEvent} (hs : Indexed k s)
    (h : stepChain k authority s e = .ok t) : Indexed k t := by
  cases e with
  | action a => exact indexed_writes hs (writes_stepAction h)
  | external bank denomMetaData =>
      cases h
      exact ⟨hs.params, hs.listed, hs.entry, hs.named, hs.address, hs.admin⟩

theorem restorable_stepChain {e : ChainEvent} (hs : Restorable k s) (he : e.Plain k s)
    (h : stepChain k authority s e = .ok t) : Restorable k t := by
  cases e with
  | action a => exact restorable_writes hs (writes_stepAction_within he h)
  | external bank denomMetaData =>
      cases h
      exact fun creator denom hmem => ⟨(hs creator denom hmem).1, he creator denom hmem⟩

end RoundTrip

/-- In every run from the default genesis, the state reached survives an export
and an import exactly when the bank has the metadata of a new denomination for
each of the module and their creators are written as the chain writes addresses;
and it does when every event of the run was plain. -/
theorem factory_roundTrips_iff (k : Keeper) (hk : Decodes k) (authority : String)
    (denomMetaData : SortedMap String Metadata) (bank : Ledger Account String)
    (es : List ChainEvent) {s : State}
    (h : Runs.run (stepChain k authority) (defaultGenesis denomMetaData bank) es = .ok s) :
    (RoundTrips k s ↔ Restorable k s) ∧
      (Runs.Along (stepChain k authority) (ChainEvent.Plain k) (defaultGenesis denomMetaData bank) es →
        RoundTrips k s) := by
  have hs : Indexed k s :=
    Runs.run_invariant (fun _ _ _ hi ht => indexed_stepChain hi ht)
      (indexed_defaultGenesis denomMetaData bank) h
  refine ⟨⟨restorable_of_roundTrips hk hs, roundTrips_of_restorable hk hs⟩, fun hplain => ?_⟩
  apply roundTrips_of_restorable hk hs
  refine Runs.run_invariant_along (fun _ _ _ hi he ht => restorable_stepChain hi he ht) ?_ hplain h
  exact fun creator denom hmem => absurd hmem (Finset.notMem_empty _)

namespace RenouncedGold

theorem decodes : Decodes keeper := by
  intro text a h
  have htext : text ≠ "" := by
    rintro rfl
    cases h
  have ha : a = .user text := by
    simpa [keeper, htext, eq_comm] using h
  subst ha
  exact if_neg htext

def goldMetadata : Metadata :=
  ⟨"backed by gold", [⟨"factory/alice/gold", 0, []⟩], "factory/alice/gold", "factory/alice/gold",
    "Gold", "GLD"⟩

/-- Alice creates gold and describes it. -/
def described : List ChainEvent :=
  [.action (.delivered (.createDenom 2000000 ⟨"alice", "gold"⟩)),
    .action (.delivered (.setDenomMetadata ⟨"alice", goldMetadata⟩))]

def reached (es : List ChainEvent) : Exec State :=
  Runs.run (stepChain keeper "gov") (defaultGenesis ∅ bank) es

def goldOf (s : State) : Finset (String × String) × Option Metadata :=
  (s.creatorDenoms, s.denomMetaData.get? "factory/alice/gold")

theorem described_gold : (reached described).toOption.map goldOf =
    some ({("alice", "factory/alice/gold")}, some goldMetadata) := by decide

/-- The import takes the description of gold away. -/
theorem description_lost :
    ¬ ∀ (k : Keeper), Decodes k → ∀ (authority : String) (denomMetaData : SortedMap String Metadata)
      (bank : Ledger Account String) (es : List ChainEvent) (s : State),
        Runs.run (stepChain k authority) (defaultGenesis denomMetaData bank) es = .ok s →
          RoundTrips k s := by
  intro h
  obtain ⟨s, hrun, hgold⟩ := exists_of_toOption_map described_gold
  obtain ⟨hcreators, hmetadata⟩ := Prod.mk.inj hgold
  have hs : Indexed keeper s :=
    Runs.run_invariant (fun _ _ _ hi ht => indexed_stepChain hi ht) (indexed_defaultGenesis ∅ bank)
      hrun
  have hrestorable := restorable_of_roundTrips decodes hs (h keeper decodes "gov" ∅ bank described s hrun)
  have hinitial := (hrestorable "alice" "factory/alice/gold" (by rw [hcreators]; decide)).2
  rw [hmetadata] at hinitial
  revert hinitial
  decide

def undescribed : List ChainEvent := [.action (.nested (.createDenom 2000000 ⟨"alice", "gold"⟩)),
    .action (.nested (.changeAdmin ⟨"alice", "factory/alice/gold", ""⟩))]

theorem undescribed_gold : (reached undescribed).toOption.map goldOf =
    some ({("alice", "factory/alice/gold")}, some (initialMetadata "factory/alice/gold")) := by
  decide

/-- Renounced gold without a description comes back. -/
theorem undescribed_restored : ∃ s, reached undescribed = .ok s ∧ RoundTrips keeper s := by
  obtain ⟨s, hrun, hgold⟩ := exists_of_toOption_map undescribed_gold
  obtain ⟨hcreators, hmetadata⟩ := Prod.mk.inj hgold
  refine ⟨s, hrun, ?_⟩
  rw [(factory_roundTrips_iff keeper decodes "gov" ∅ bank undescribed hrun).1]
  intro creator denom hmem
  rw [hcreators, Finset.mem_singleton, Prod.mk.injEq] at hmem
  obtain ⟨rfl, rfl⟩ := hmem
  exact ⟨rfl, hmetadata⟩

end RenouncedGold

end Kiichain.TokenFactory
