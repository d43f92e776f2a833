import Kiichain.TokenFactoryAdmins
import Kiichain.TokenFactoryIndex

/-!
# Queries that tell the history

The query server and the bindings of contracts answer from the stores of the module and
of the bank. In a reachable state their answers are what the actions of the run did: who
was last named admin, what metadata was last set, and which denominations a creator has
created.
-/

namespace Kiichain.TokenFactory
open GoExec

namespace QueryServer

variable (s : State)

def params : Params := s.params

def denomAuthorityMetadata (denom : String) : DenomAuthorityMetadata :=
  (kvStore s).getAuthorityMetadata denom

def denomsFromCreator (creator : String) : List String := (kvStore s).getDenomsFromCreator creator

def denomsFromAdmin (admin : String) : List String := (kvStore s).getDenomsFromAdmin admin

end QueryServer

namespace Plugin

structure FullDenom where
  creatorAddr : String
  subdenom : String

/-- The query of a contract; the first field that is set decides. -/
structure Query where
  fullDenom : Option FullDenom
  admin : Option String
  metadata : Option String
  denomsByCreator : Option String
  params : Option Unit

inductive QueryVariant
  | fullDenom (fullDenom : FullDenom)
  | admin (denom : String)
  | metadata (denom : String)
  | denomsByCreator (creator : String)
  | params

def Query.variant? (query : Query) : Option QueryVariant :=
  (query.fullDenom.map .fullDenom).or <|
  (query.admin.map .admin).or <|
  (query.metadata.map .metadata).or <|
  (query.denomsByCreator.map .denomsByCreator).or <|
  query.params.map fun _ => .params

def QueryVariant.query : QueryVariant → Query
  | .fullDenom q => ⟨some q, none, none, none, none⟩
  | .admin denom => ⟨none, some denom, none, none, none⟩
  | .metadata denom => ⟨none, none, some denom, none, none⟩
  | .denomsByCreator creator => ⟨none, none, none, some creator, none⟩
  | .params => ⟨none, none, none, none, some ()⟩

/-- A coin of a contract, its amount a decimal text. -/
structure WasmCoin where
  denom : String
  amount : String
deriving DecidableEq

inductive Response
  | fullDenom (denom : String)
  | admin (admin : String)
  | metadata (metadata : Option Metadata)
  | denomsByCreator (denoms : List String)
  | params (denomCreationFee : List WasmCoin)
deriving DecidableEq

def convertSdkCoinToWasmCoin (coin : Coin) : WasmCoin := ⟨coin.denom, toString coin.amount.val⟩

def convertSdkCoinsToWasmCoins (coins : List Coin) : List WasmCoin :=
  coins.map convertSdkCoinToWasmCoin

/-- Unit by unit; the metadata of a contract has the fields of the bank's. -/
def sdkMetadataToWasm (metadata : Metadata) : Metadata :=
  let denoms := metadata.denomUnits.foldl
    (fun denoms unit => denoms ++ [⟨unit.denom, unit.exponent, unit.aliases⟩]) []
  { description := metadata.description, display := metadata.display, base := metadata.base,
    name := metadata.name, symbol := metadata.symbol, denomUnits := denoms }

section Handlers

variable (k : Keeper) (s : State)

def getFullDenom (contract subDenom : String) : Exec String := do
  let _ ← parseAddress k contract
  wrapped "validate sub-denom: " (getTokenDenom contract subDenom)

def getTokenfactoryDenomAdmin (denom : String) : String :=
  ((kvStore s).getAuthorityMetadata denom).admin

def getTokenfactoryMetadata (denom : String) : Option Metadata :=
  (s.denomMetaData.get? denom).map sdkMetadataToWasm

def getTokenfactoryDenomsByCreator (creator : String) : Exec (List String) := do
  let creator := GoStrings.trimSpace creator
  ensure ((k.accAddressFromBech32 creator).isSome)
    (.error "invalid creator address %q: %v: invalid address")
  pure ((kvStore s).getDenomsFromCreator creator)

def getTokenfactoryParams : List WasmCoin := convertSdkCoinsToWasmCoins s.params.denomCreationFee

def handleTokenFactoryQuery (query : Query) : Exec Response :=
  match query.variant? with
  | some (.fullDenom q) => do
    let denom ← wrapped "kii full denom query: " (getFullDenom k q.creatorAddr q.subdenom)
    pure (.fullDenom denom)
  | some (.admin denom) => pure (.admin (getTokenfactoryDenomAdmin s denom))
  | some (.metadata denom) => pure (.metadata (getTokenfactoryMetadata s denom))
  | some (.denomsByCreator creator) => do
    let denoms ← getTokenfactoryDenomsByCreator k s creator
    pure (.denomsByCreator denoms)
  | some .params => pure (.params (getTokenfactoryParams s))
  | none => fail "unknown token factory query variant"

end Handlers

/-- What a contract reads is the metadata of the bank. -/
theorem sdkMetadataToWasm_eq (metadata : Metadata) : sdkMetadataToWasm metadata = metadata := by
  have hunits : ∀ l units : List DenomUnit, units.foldl
      (fun denoms unit => denoms ++ [⟨unit.denom, unit.exponent, unit.aliases⟩]) l = l ++ units := by
    intro l units
    induction units generalizing l with
    | nil => exact (List.append_nil l).symm
    | cons unit units ih => rw [List.foldl_cons, ih, List.append_assoc, List.singleton_append]
  unfold sdkMetadataToWasm
  rw [hunits, List.nil_append]

end Plugin

/-- The metadata that a message sets, under its base. -/
def Msg.describes? : Msg → Option Metadata
  | .createDenom _ msg => some (initialMetadata (tokenDenom msg.sender msg.subdenom))
  | .setDenomMetadata msg => some msg.metadata
  | _ => none

/-- The creator and the denomination of a message that creates one. -/
def Msg.creates? : Msg → Option (String × String)
  | .createDenom _ msg => some (msg.sender, tokenDenom msg.sender msg.subdenom)
  | _ => none

/-- Metadata that comes with a new denomination replaces what the bank has for it. -/
def Plugin.Variant.describes? (k : Keeper) (contractAddr : Account) :
    Plugin.Variant → Option Metadata
  | .createDenom m =>
    let denom := tokenDenom (k.addressString contractAddr) m.subdenom
    some (match m.metadata with
      | some metadata => { metadata with base := denom }
      | none => initialMetadata denom)
  | .setMetadata m => some { m.metadata with base := m.denom }
  | _ => none

def Action.describes? (k : Keeper) : Action → Option Metadata
  | .delivered msg => msg.describes?
  | .nested msg => msg.describes?
  | .updateParams _ => none
  | .custom contractAddr _ msg => msg.variant?.bind fun variant => variant.describes? k contractAddr

def Action.creates? (k : Keeper) (a : Action) : Option (String × String) :=
  (a.message? k).bind Msg.creates?

/-- What a step leaves of the metadata and of the creator lists. -/
structure Leaves (described : Option Metadata) (created : Option (String × String)) (s t : State) :
    Prop where
  metadata : ∀ denom, t.denomMetaData.get? denom =
    (described.filter (·.base = denom)).or (s.denomMetaData.get? denom)
  creators : ∀ creator denom, (creator, denom) ∈ t.creatorDenoms ↔
    created = some (creator, denom) ∨ (creator, denom) ∈ s.creatorDenoms

section Leaves

variable {k : Keeper} {authority : String} {s t u : State} {described : Option Metadata}
  {created : Option (String × String)}

theorem Leaves.of_eq (hmetadata : t.denomMetaData = s.denomMetaData)
    (hcreators : t.creatorDenoms = s.creatorDenoms) : Leaves none none s t := by
  refine ⟨fun denom => ?_, fun creator denom => ?_⟩
  · rw [hmetadata]
    rfl
  · rw [hcreators]
    simp

/-- Metadata set once more for the same denomination. -/
theorem Leaves.describe (h : Leaves described created s u) {metadata : Metadata}
    (hbase : ∀ m, described = some m → m.base = metadata.base) :
    Leaves (some metadata) created s (setDenomMetaData u metadata) := by
  refine ⟨fun denom => ?_, h.creators⟩
  rw [setDenomMetaData, SortedMap.get?_insert, h.metadata]
  by_cases hd : metadata.base = denom
  · simp [Option.filter, hd]
  · rw [if_neg hd]
    cases described with
    | none => simp [Option.filter, hd]
    | some m => simp [Option.filter, hd, hbase m rfl]

theorem leaves_execute {msg : Msg} (h : execute k s msg = .ok t) :
    Leaves msg.describes? msg.creates? s t := by
  obtain ⟨_, hhandle⟩ := execute_eq_ok.mp h
  cases msg with
  | createDenom gasLeft m =>
      obtain ⟨newDenom, hcreate⟩ := handle_createDenom hhandle
      obtain ⟨rfl, _, a, bank, _, rfl⟩ := createDenom_effect hcreate
      refine ⟨fun denom => ?_, fun creator denom => ?_⟩
      · rw [SortedMap.get?_insert, Msg.describes?]
        by_cases hd : tokenDenom m.sender m.subdenom = denom
        · simp [Option.filter, initialMetadata, hd]
        · simp [Option.filter, initialMetadata, hd]
      · simp only [Msg.creates?, Finset.mem_insert, Option.some.injEq]
        exact or_congr_left eq_comm
  | mint m =>
      obtain ⟨_, _, bank, rfl, _⟩ := mint_effect hhandle
      exact .of_eq rfl rfl
  | burn m =>
      obtain ⟨_, address, hburn⟩ := burn_effect hhandle
      obtain ⟨_, _, bank, rfl, _⟩ := burnFrom_effect hburn
      exact .of_eq rfl rfl
  | forceTransfer m =>
      obtain ⟨bank, rfl, _⟩ := forceTransfer_effect hhandle
      exact .of_eq rfl rfl
  | changeAdmin m =>
      obtain ⟨_, rfl⟩ := changeAdmin_effect hhandle
      exact .of_eq rfl rfl
  | setDenomMetadata m =>
      obtain ⟨_, rfl⟩ := setDenomMetadata_effect hhandle
      exact (Leaves.of_eq rfl rfl).describe (by simp)

theorem leaves_variant {contractAddr : Account} {gasLeft : ℕ} {variant : Plugin.Variant}
    (h : Plugin.perform k s contractAddr gasLeft variant = .ok t) :
    Leaves (variant.describes? k contractAddr)
      ((variant.message? k contractAddr gasLeft).bind Msg.creates?) s t := by
  cases variant with
  | createDenom m =>
      obtain ⟨u, hdeliver, hset⟩ := perform_createDenom_eq_ok.mp h
      have hcreated := leaves_execute (execute_of_deliver hdeliver)
      obtain ⟨hnone, rfl⟩ | ⟨metadata, hsome, hset⟩ := hset
      · simp only [Plugin.Variant.describes?, hnone]
        exact hcreated
      · obtain ⟨_, _, _, rfl⟩ := performSetMetadata_eq_ok.mp hset
        simp only [Plugin.Variant.describes?, hsome]
        exact hcreated.describe (by simp [Msg.describes?, initialMetadata])
  | mintTokens m =>
      simp only [Plugin.perform, wrapped_eq_ok, performMint_eq_ok] at h
      obtain ⟨rcpt, u, _, hmint, h⟩ := h
      have hminted := leaves_execute (execute_of_deliver hmint)
      obtain ⟨_, rfl⟩ | ⟨_, _, bank, _, rfl⟩ := h
      · exact hminted
      · exact ⟨hminted.metadata, hminted.creators⟩
  | changeAdmin m =>
      obtain ⟨a, ha, hdeliver⟩ := perform_changeAdmin_eq_ok.mp h
      rw [Plugin.Variant.message?, ha]
      exact leaves_execute (execute_of_deliver hdeliver)
  | burnTokens m => exact leaves_execute (execute_of_deliver (perform_burnTokens_iff.mp h))
  | setMetadata m =>
      simp only [Plugin.perform, wrapped_eq_ok, performSetMetadata_eq_ok] at h
      obtain ⟨_, _, _, rfl⟩ := h
      exact (Leaves.of_eq rfl rfl).describe (by simp)
  | forceTransfer m => exact leaves_execute (execute_of_deliver (perform_forceTransfer_iff.mp h))

theorem leaves_perform {a : Action} (h : perform k authority s a = .ok t) :
    Leaves (a.describes? k) (a.creates? k) s t := by
  cases a with
  | delivered msg => exact leaves_execute (execute_of_deliver h)
  | nested msg => exact leaves_execute h
  | updateParams msg =>
      simp only [perform, updateParams, bind_eq_ok, pure_eq_ok, Except.ok.injEq] at h
      obtain ⟨_, _, _, _, rfl⟩ := h
      exact .of_eq rfl rfl
  | custom contractAddr gasLeft msg =>
      simp only [perform, Plugin.dispatchMsg] at h
      cases hvariant : msg.variant? with
      | none =>
          rw [hvariant] at h
          cases h
      | some variant =>
          rw [hvariant] at h
          simp only [Action.describes?, Action.creates?, Action.message?, hvariant, Option.bind_some]
          exact leaves_variant h

end Leaves

section Cells

variable (k : Keeper) (authority : String)

/-- The action passes and sets the metadata of the denomination. -/
def Describes (denom : String) (metadata : Metadata) (s : State) (a : Action) : Prop :=
  Returns (perform k authority s a) ∧ a.describes? k = some metadata ∧ metadata.base = denom

/-- The action passes and creates the denomination. -/
def Lists (creator denom : String) (s : State) (a : Action) : Prop :=
  Returns (perform k authority s a) ∧ a.creates? k = some (creator, denom)

variable {k authority} {s t : State} {a : Action}

theorem leaves_stepAction (h : stepAction k authority s a = .ok t) :
    ¬ Returns (perform k authority s a) ∧ t = s ∨
      Returns (perform k authority s a) ∧ Leaves (a.describes? k) (a.creates? k) s t := by
  cases h
  obtain hrefused | hperformed := rolledBack_cases s (perform k authority s a)
  · exact Or.inl hrefused
  · exact Or.inr ⟨⟨_, hperformed⟩, leaves_perform hperformed⟩

variable (k authority)

/-- The bank's metadata of a denomination, which no action removes. -/
def metadataCell (denom : String) : Runs.Cell (stepAction k authority) Metadata where
  read s := s.denomMetaData.get? denom
  Writes metadata s a := Describes k authority denom metadata s a
  Empties _ _ := False
  read_of_writes h hdescribes := by
    obtain ⟨hreturns, hdescribed, rfl⟩ := hdescribes
    obtain ⟨hrefused, _⟩ | ⟨_, hleaves⟩ := leaves_stepAction h
    · exact absurd hreturns hrefused
    · rw [hleaves.metadata, hdescribed]
      simp [Option.filter]
  read_of_empties _ h := h.elim
  read_of_untouched {s a t} h hnone _ := by
    obtain ⟨_, rfl⟩ | ⟨hreturns, hleaves⟩ := leaves_stepAction h
    · rfl
    · rw [hleaves.metadata]
      cases hdescribed : a.describes? k with
      | none => rfl
      | some metadata =>
          have hother : metadata.base ≠ denom := fun hd => hnone metadata ⟨hreturns, hdescribed, hd⟩
          simp [Option.filter, hother]

/-- Whether a creator has created a denomination, which stays so. -/
def listCell (creator denom : String) : Runs.Cell (stepAction k authority) Unit where
  read s := if (creator, denom) ∈ s.creatorDenoms then some () else none
  Writes _ s a := Lists k authority creator denom s a
  Empties _ _ := False
  read_of_writes h hlists := by
    obtain ⟨hreturns, hcreated⟩ := hlists
    obtain ⟨hrefused, _⟩ | ⟨_, hleaves⟩ := leaves_stepAction h
    · exact absurd hreturns hrefused
    · exact if_pos ((hleaves.creators creator denom).mpr (Or.inl hcreated))
  read_of_empties _ h := h.elim
  read_of_untouched h hnone _ := by
    obtain ⟨_, rfl⟩ | ⟨hreturns, hleaves⟩ := leaves_stepAction h
    · rfl
    · have hsame := hleaves.creators creator denom
      rw [or_iff_right fun hcreated => hnone () ⟨hreturns, hcreated⟩] at hsame
      exact if_congr hsame rfl rfl

end Cells

section History

open Plugin (handleTokenFactoryQuery QueryVariant)

/-- The answers of a state, told from the actions of the run that led to it. -/
structure Tells (k : Keeper) (authority : String) (start : State) (actions : List Action)
    (s : State) : Prop where
  admin : ∀ denom name, name ≠ "" →
    (handleTokenFactoryQuery k s (QueryVariant.admin denom).query = .ok (.admin name) ↔
      (adminCell k authority denom).LastWrote name start actions) ∧
    (QueryServer.denomAuthorityMetadata s denom = ⟨name⟩ ↔
      (adminCell k authority denom).LastWrote name start actions)
  administered : ∀ name denom, denom ∈ QueryServer.denomsFromAdmin s name ↔
    (adminCell k authority denom).LastWrote name start actions
  metadata : ∀ denom metadata,
    handleTokenFactoryQuery k s (QueryVariant.metadata denom).query =
        .ok (.metadata (some metadata)) ↔
      (metadataCell k authority denom).LastWrote metadata start actions ∨
        start.denomMetaData.get? denom = some metadata ∧
          (metadataCell k authority denom).Untouched start actions
  created : ∀ creator, (k.accAddressFromBech32 (GoStrings.trimSpace creator)).isSome = true →
    handleTokenFactoryQuery k s (QueryVariant.denomsByCreator creator).query =
        .ok (.denomsByCreator (QueryServer.denomsFromCreator s (GoStrings.trimSpace creator)))
  listed : ∀ creator, (QueryServer.denomsFromCreator s creator).Nodup ∧
    ∀ denom, denom ∈ QueryServer.denomsFromCreator s creator ↔
      (listCell k authority creator denom).LastWrote () start actions
  named : ∀ a gasLeft creator subdenom, Returns (perform k authority s a) →
    a.message? k = some (.createDenom gasLeft ⟨creator, subdenom⟩) →
    handleTokenFactoryQuery k s (QueryVariant.fullDenom ⟨creator, subdenom⟩).query =
      .ok (.fullDenom (tokenDenom creator subdenom))

variable {k : Keeper} {authority : String} {s : State}

/-- The full denomination is known before it is created. -/
theorem fullDenom_of_createDenom {gasLeft : ℕ} {creator subdenom : String}
    (h : Returns (execute k s (.createDenom gasLeft ⟨creator, subdenom⟩))) :
    Plugin.getFullDenom k creator subdenom = .ok (tokenDenom creator subdenom) := by
  obtain ⟨t, ht⟩ := h
  obtain ⟨hsender, hhandle⟩ := execute_eq_ok.mp ht
  obtain ⟨denom, hcreate⟩ := handle_createDenom hhandle
  obtain ⟨a, ha⟩ := Option.isSome_iff_exists.mp hsender
  simp only [MsgServer.createDenom, validateCreateDenom, bind_eq_ok] at hcreate
  obtain ⟨_, _, _, ⟨named, hnamed, _⟩, _⟩ := hcreate
  rw [getTokenDenom_eq_ok hnamed] at hnamed
  simp only [Plugin.getFullDenom, Plugin.parseAddress, bind_eq_ok, require_eq_ok, wrapped_eq_ok]
  exact ⟨a, ha, hnamed⟩

/-- From the default genesis, over messages, parameter changes and contract calls: the
queries answer with the admin that was last named, the metadata that was last set, and
once each the denominations that a creator has created. -/
theorem queries_tell_history (k : Keeper) (authority : String)
    (denomMetaData : SortedMap String Metadata) (bank : Ledger Account String)
    (actions : List Action) {s : State}
    (h : Runs.run (stepAction k authority) (defaultGenesis denomMetaData bank) actions = .ok s) :
    Tells k authority (defaultGenesis denomMetaData bank) actions s := by
  have hs : Indexed k s :=
    Runs.run_invariant (fun _ _ _ hi ht => indexed_writes hi (writes_stepAction ht))
      (indexed_defaultGenesis denomMetaData bank) h
  have hadmin : ∀ denom name, name ≠ "" → (TokenFactory.admin s denom = name ↔
      (adminCell k authority denom).LastWrote name (defaultGenesis denomMetaData bank) actions) := by
    intro denom name hname
    rw [admin_eq_iff hname]
    exact Runs.Cell.read_eq_some_iff_of_empty (k := adminCell k authority denom) rfl h
  have hread : ∀ denom, (kvStore s).getAuthorityMetadata denom = ⟨TokenFactory.admin s denom⟩ :=
    fun denom => kvStore_getAuthorityMetadata hs.separated denom
  refine ⟨fun denom name hname => ⟨?_, ?_⟩, fun name denom => ?_, fun denom metadata => ?_,
    fun creator hcreator => ?_, fun creator => ⟨?_, fun denom => ?_⟩, ?_⟩
  · rw [← hadmin denom name hname]
    change Except.ok (Plugin.Response.admin ((kvStore s).getAuthorityMetadata denom).admin) =
      .ok (.admin name) ↔ _
    rw [hread, Except.ok.injEq, Plugin.Response.admin.injEq]
  · rw [← hadmin denom name hname, QueryServer.denomAuthorityMetadata, hread,
      DenomAuthorityMetadata.mk.injEq]
  · rw [QueryServer.denomsFromAdmin, mem_getDenomsFromAdmin hs,
      ← Runs.Cell.read_eq_some_iff_of_empty (k := adminCell k authority denom) rfl h]
    change s.authorityMetadata.get? denom = some ⟨name⟩ ↔
      (s.authorityMetadata.get? denom).map DenomAuthorityMetadata.admin = some name
    cases s.authorityMetadata.get? denom with
    | none => simp
    | some authority =>
        obtain ⟨current⟩ := authority
        simp
  · refine Iff.trans ?_ (Runs.Cell.read_eq_some_iff (k := metadataCell k authority denom) h)
    change Except.ok (Plugin.Response.metadata
      ((s.denomMetaData.get? denom).map Plugin.sdkMetadataToWasm)) = .ok (.metadata (some metadata)) ↔
      s.denomMetaData.get? denom = some metadata
    rw [Except.ok.injEq, Plugin.Response.metadata.injEq, funext Plugin.sdkMetadataToWasm_eq]
    simp
  · change (do
      let denoms ← Plugin.getTokenfactoryDenomsByCreator k s creator
      pure (Plugin.Response.denomsByCreator denoms)) = _
    rw [Plugin.getTokenfactoryDenomsByCreator, ensure_of hcreator]
    rfl
  · exact PrefixStore.nodup_keys_view _ _
  · rw [QueryServer.denomsFromCreator, mem_getDenomsFromCreator hs.separated,
      ← Runs.Cell.read_eq_some_iff_of_empty (k := listCell k authority creator denom) rfl h]
    simp [listCell]
  · intro a gasLeft creator subdenom hreturns hmessage
    obtain ⟨t, ht⟩ := hreturns
    obtain ⟨hnone, _⟩ | ⟨msg, u, hmsg, hexecute, _⟩ := perform_cases ht
    · rw [hmessage] at hnone
      cases hnone
    · rw [hmessage] at hmsg
      cases hmsg
      change (do
        let denom ← wrapped "kii full denom query: " (Plugin.getFullDenom k creator subdenom)
        pure (Plugin.Response.fullDenom denom)) = _
      rw [fullDenom_of_createDenom ⟨u, hexecute⟩]
      rfl

end History

namespace DescribedGold
open RenouncedGold (keeper bank)
open Plugin (handleTokenFactoryQuery QueryVariant)

def described : Metadata :=
  ⟨"gold of alice", [⟨"factory/alice/gold", 0, []⟩], "factory/alice/gold", "factory/alice/gold",
    "Gold", "GLD"⟩

/-- Alice creates gold and hands it over to bob, whose contract describes it; she has
nothing left for the fee of silver. -/
def describing : List Action :=
  [.delivered (.createDenom 2000000 ⟨"alice", "gold"⟩),
    .nested (.createDenom 2000000 ⟨"alice", "silver"⟩),
    .nested (.changeAdmin ⟨"alice", "factory/alice/gold", "bob"⟩),
    .custom (.user "bob") 0
      ⟨none, none, none, none, some ⟨"factory/alice/gold", described⟩, none⟩]

def start : State := defaultGenesis ∅ bank

def reached : Exec State := Runs.run (stepAction keeper "gov") start describing

theorem describing_runs : reached.toOption.map (fun s =>
    ((adminCell keeper "gov" "factory/alice/gold").read s,
      (listCell keeper "gov" "alice" "factory/alice/gold").read s,
      (listCell keeper "gov" "alice" "factory/alice/silver").read s,
      (handleTokenFactoryQuery keeper s (QueryVariant.metadata "factory/alice/gold").query).toOption)) =
    some (some "bob", some (), none, some (.metadata (some described))) := by
  decide

theorem gold_is_told : ∃ s, reached = .ok s ∧
    "factory/alice/gold" ∈ QueryServer.denomsFromAdmin s "bob" ∧
    "factory/alice/gold" ∈ QueryServer.denomsFromCreator s "alice" ∧
    "factory/alice/silver" ∉ QueryServer.denomsFromCreator s "alice" ∧
    (metadataCell keeper "gov" "factory/alice/gold").LastWrote described start describing := by
  obtain ⟨s, hs, hview⟩ := exists_of_toOption_map describing_runs
  simp only [Prod.mk.injEq] at hview
  obtain ⟨hadmin, hgold, hsilver, hmetadata⟩ := hview
  have tells := queries_tell_history keeper "gov" ∅ bank describing hs
  refine ⟨s, hs, ?_, ?_, ?_, ?_⟩
  · rw [tells.administered]
    exact (Runs.Cell.read_eq_some_iff_of_empty rfl hs).mp hadmin
  · rw [(tells.listed _).2]
    exact (Runs.Cell.read_eq_some_iff_of_empty rfl hs).mp hgold
  · rw [(tells.listed _).2]
    intro hlast
    have hread := (Runs.Cell.read_eq_some_iff_of_empty rfl hs).mpr hlast
    rw [hsilver] at hread
    cases hread
  · obtain hlast | ⟨hgenesis, _⟩ := (tells.metadata _ _).mp (toOption_eq_some.mp hmetadata)
    · exact hlast
    · cases hgenesis

end DescribedGold

end Kiichain.TokenFactory
