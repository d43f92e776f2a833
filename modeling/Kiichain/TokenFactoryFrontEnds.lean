import Kiichain.TokenFactoryPlugin

/-!
# Agreement of the two front ends

A custom message of a contract is compared with the message it stands for, sent
by the contract. They differ in one place: metadata through the plugin needs no
capability. The plugin also leaves out the check that the denomination is one of
the module, which holds of every denomination that has an admin.
-/

namespace Kiichain.TokenFactory
open GoExec FixedPoint

section Denoms

variable {k : Keeper} {s t : State} {creator subdenom denom : String}

theorem tokenDenom_toList (creator subdenom : String) : (tokenDenom creator subdenom).toList =
    moduleDenomPrefix.toList ++ '/' :: (creator.toList ++ '/' :: subdenom.toList) := by
  simp [tokenDenom]

theorem split_tokenDenom (hslash : '/' ∉ creator.toList) (subdenom : String) :
    GoStrings.split '/' (tokenDenom creator subdenom).toList =
      moduleDenomPrefix.toList :: creator.toList :: GoStrings.split '/' subdenom.toList := by
  have hlead : '/' ∉ moduleDenomPrefix.toList := by decide
  rw [tokenDenom_toList, GoStrings.split_append hlead, GoStrings.split_append hslash]

/-- What the module builds it takes apart into the creator's account and the subdenom. -/
theorem deconstructDenom_tokenDenom {a : Account} (hdenom : getTokenDenom creator subdenom = .ok denom)
    (hcreator : k.accAddressFromBech32 creator = some a) :
    deconstructDenom k denom = .ok (k.addressString a, subdenom) := by
  simp only [getTokenDenom, bind_eq_ok, ensure_eq_ok, pure_eq_ok, Except.ok.injEq] at hdenom
  obtain ⟨_, _, _, _, _, hslash, _, hvalid, rfl⟩ := hdenom
  have hsplit : GoStrings.splitString '/' (tokenDenom creator subdenom) =
      moduleDenomPrefix :: creator :: GoStrings.splitString '/' subdenom := by
    rw [GoStrings.splitString, split_tokenDenom hslash]
    simp [GoStrings.splitString]
  have hjoin : "/".intercalate (GoStrings.splitString '/' subdenom) = subdenom :=
    GoStrings.intercalate_splitString '/' subdenom
  have hparts : GoStrings.splitString '/' subdenom ≠ [] := by
    rw [GoStrings.splitString]
    exact mt List.map_eq_nil_iff.mp (GoStrings.split_ne_nil '/' _)
  obtain ⟨part, parts, hparts⟩ := List.exists_cons_of_ne_nil hparts
  rw [hparts] at hsplit hjoin
  simp only [deconstructDenom, hsplit, ensure_of hvalid, ok_bind, ensure_of, hcreator, require, hjoin]
  rfl

end Denoms

section Reachable

variable {k : Keeper} {authority : String} {s t : State} {denom : String}

/-- A call, or whatever other modules do to the bank. -/
inductive Event
  | call (c : Call)
  | external (bank : Ledger Account String) (denomMetaData : SortedMap String Metadata)

def stepEvent (k : Keeper) (authority : String) (s : State) : Event → Exec State
  | .call c => stepCall k authority s c
  | .external bank denomMetaData => pure { s with bank := bank, denomMetaData := denomMetaData }

/-- A denomination with an admin is one of the module. -/
def Deconstructs (k : Keeper) (s : State) : Prop :=
  ∀ denom, admin s denom ≠ "" → Returns (deconstructDenom k denom)

theorem execute_of_deliver {msg : Msg} (h : deliver k s msg = .ok t) : execute k s msg = .ok t := by
  obtain ⟨hbasic, hh⟩ := deliver_eq_ok.mp h
  refine execute_eq_ok.mpr ⟨?_, hh⟩
  cases msg with
  | createDenom gasLeft m =>
      simp only [Msg.validateBasic, MsgServer.validateCreateDenomMsg, bind_eq_ok,
        ensure_eq_ok] at hbasic
      exact hbasic.choose_spec.1
  | mint m =>
      simp only [Msg.validateBasic, MsgMint.validateBasic, validateSender, bind_eq_ok,
        ensure_eq_ok] at hbasic
      exact hbasic.choose_spec.1
  | burn m =>
      simp only [Msg.validateBasic, MsgBurn.validateBasic, validateSender, bind_eq_ok,
        ensure_eq_ok] at hbasic
      exact hbasic.choose_spec.1
  | forceTransfer m =>
      simp only [Msg.validateBasic, MsgForceTransfer.validateBasic, validateSender, bind_eq_ok,
        ensure_eq_ok] at hbasic
      exact hbasic.choose_spec.1
  | changeAdmin m =>
      simp only [Msg.validateBasic, MsgChangeAdmin.validateBasic, validateSender, bind_eq_ok,
        ensure_eq_ok] at hbasic
      exact hbasic.choose_spec.1
  | setDenomMetadata m =>
      simp only [Msg.validateBasic, MsgSetDenomMetadata.validateBasic, validateSender, bind_eq_ok,
        ensure_eq_ok] at hbasic
      exact hbasic.choose_spec.1

theorem deconstructs_of_creates {msg : Msg} (h : Creates k denom s msg) :
    Returns (deconstructDenom k denom) := by
  obtain ⟨gasLeft, m, t, rfl, hexecute, hcreate⟩ := h
  have hsender := (execute_eq_ok.mp hexecute).1
  simp only [MsgServer.createDenom, validateCreateDenom, bind_eq_ok, pure_eq_ok, Except.ok.injEq,
    Prod.mk.injEq] at hcreate
  obtain ⟨_, _, _, ⟨_, hdenom, _, _, rfl⟩, _, _, _, _, _, rfl⟩ := hcreate
  obtain ⟨a, ha⟩ := Option.isSome_iff_exists.mp hsender
  exact ⟨_, deconstructDenom_tokenDenom hdenom ha⟩

theorem deconstructs_deliver {msg : Msg} (hs : Deconstructs k s) (h : deliver k s msg = .ok t) :
    Deconstructs k t := by
  have hexecute := execute_of_deliver h
  intro denom hadmin
  obtain hkept | ⟨hcreates, _⟩ | ⟨m, rfl, _, hsender, _⟩ := authority_cases hexecute denom
  · apply hs denom
    simpa only [admin, getAuthorityMetadata, hkept] using hadmin
  · exact deconstructs_of_creates hcreates
  · apply hs denom
    rw [← hsender]
    exact sender_ne_empty hexecute

theorem deconstructs_executeCall {c : Call} (hs : Deconstructs k s)
    (h : executeCall k authority s c = .ok t) : Deconstructs k t := by
  cases c with
  | msg msg => exact deconstructs_deliver hs h
  | updateParams msg =>
      simp only [executeCall, updateParams, bind_eq_ok, pure_eq_ok, Except.ok.injEq] at h
      obtain ⟨_, _, _, _, rfl⟩ := h
      exact hs
  | contract contractAddr gasLeft msg =>
      simp only [executeCall, Plugin.dispatchMsg] at h
      split at h
      · have hperforms := performs_of_perform h
        clear h
        induction hperforms with
        | idle => exact hs
        | delivered msg _ h => exact deconstructs_deliver hs h
        | metadata _ ih => exact ih
        | paid _ _ ih => exact ih
      · cases h

theorem deconstructs_step (s : State) (e : Event) (t : State) (hs : Deconstructs k s)
    (h : stepEvent k authority s e = .ok t) : Deconstructs k t := by
  cases e with
  | call c =>
      cases h
      obtain ⟨_, heq⟩ | heq := rolledBack_cases s (executeCall k authority s c)
      · rw [heq]
        exact hs
      · exact deconstructs_executeCall hs heq
  | external bank denomMetaData =>
      cases h
      exact hs

theorem deconstructs_defaultGenesis (denomMetaData : SortedMap String Metadata)
    (bank : Ledger Account String) : Deconstructs k (defaultGenesis denomMetaData bank) :=
  fun _ hadmin => absurd rfl hadmin

end Reachable

section Agreement

/-- The message that a custom message of a contract stands for. Metadata whose base
is another denomination than the one it is for stands for none; a mint that sends
on and a creation with metadata are more than one message. -/
def Plugin.Variant.toMsg (k : Keeper) (contractAddr : Account) (gasLeft : ℕ) :
    Plugin.Variant → Option TokenFactory.Msg
  | .createDenom m => match m.metadata with
    | none => some (.createDenom gasLeft ⟨k.addressString contractAddr, m.subdenom⟩)
    | some _ => none
  | .mintTokens _ => none
  | .changeAdmin m =>
    some (.changeAdmin ⟨k.addressString contractAddr, m.denom, m.newAdminAddress⟩)
  | .burnTokens m =>
    some (.burn ⟨k.addressString contractAddr, ⟨m.denom, m.amount⟩, m.burnFromAddress⟩)
  | .setMetadata m =>
    if m.metadata.base = "" ∨ m.metadata.base = m.denom then
      some (.setDenomMetadata ⟨k.addressString contractAddr, { m.metadata with base := m.denom }⟩)
    else none
  | .forceTransfer m => some (.forceTransfer
      ⟨k.addressString contractAddr, ⟨m.denom, m.amount⟩, m.fromAddress, m.toAddress⟩)

/-- Everything but mints and creations with metadata is compared. -/
def Plugin.Variant.Compared : Plugin.Variant → Prop
  | .createDenom m => m.metadata = none
  | .mintTokens _ => False
  | _ => True

/-- The plugin accepts exactly what the message server accepts of the message it
stands for, and leaves the same state. -/
def Agrees (k : Keeper) (s : State) (contractAddr : Account) (gasLeft : ℕ) (msg : Plugin.Msg) :
    Prop :=
  ∀ t, Plugin.dispatchMsg k s contractAddr gasLeft msg = .ok t ↔
    ∃ variant m, msg.variant? = some variant ∧ variant.toMsg k contractAddr gasLeft = some m ∧
      deliver k s m = .ok t

/-- The contract is the admin of the denomination and its metadata is valid for it. -/
structure AdminSets (k : Keeper) (s : State) (contractAddr : Account) (m : Plugin.SetMetadata) :
    Prop where
  admin : admin s m.denom = k.addressString contractAddr
  base : m.metadata.base = "" ∨ m.metadata.base = m.denom
  valid : k.metadataValid { m.metadata with base := m.denom } = true

variable {k : Keeper} {authority : String} {s t : State} {contractAddr : Account} {gasLeft : ℕ}

theorem perform_createDenom_iff {m : Plugin.CreateDenom} (hm : m.metadata = none) :
    Plugin.perform k s contractAddr gasLeft (.createDenom m) = .ok t ↔
      deliver k s (.createDenom gasLeft ⟨k.addressString contractAddr, m.subdenom⟩) = .ok t := by
  rw [perform_createDenom_eq_ok]
  constructor
  · rintro ⟨u, h, ⟨_, rfl⟩ | ⟨metadata, hsome, _⟩⟩
    · exact h
    · cases hm.symm.trans hsome
  · intro h
    exact ⟨t, h, Or.inl ⟨hm, rfl⟩⟩

/-- The new admin goes through the account that its text stands for. -/
theorem perform_changeAdmin_iff {m : Plugin.ChangeAdmin}
    (hm : ∀ a, k.accAddressFromBech32 m.newAdminAddress = some a →
      k.addressString a = m.newAdminAddress) :
    Plugin.perform k s contractAddr gasLeft (.changeAdmin m) = .ok t ↔
      deliver k s (.changeAdmin ⟨k.addressString contractAddr, m.denom, m.newAdminAddress⟩) =
        .ok t := by
  rw [perform_changeAdmin_eq_ok]
  constructor
  · rintro ⟨a, ha, h⟩
    rwa [hm a ha] at h
  · intro h
    have hbasic := (deliver_eq_ok.mp h).1
    simp only [Msg.validateBasic, MsgChangeAdmin.validateBasic, bind_eq_ok, ensure_eq_ok] at hbasic
    obtain ⟨a, ha⟩ := Option.isSome_iff_exists.mp hbasic.choose_spec.2.choose_spec.1
    exact ⟨a, ha, by rwa [hm a ha]⟩

theorem perform_setMetadata_iff {m : Plugin.SetMetadata} :
    Plugin.perform k s contractAddr gasLeft (.setMetadata m) = .ok t ↔
      AdminSets k s contractAddr m ∧ t = setDenomMetaData s { m.metadata with base := m.denom } := by
  simp only [Plugin.perform, wrapped_eq_ok, performSetMetadata_eq_ok]
  constructor
  · rintro ⟨hadmin, hbase, hvalid, rfl⟩
    exact ⟨⟨hadmin, hbase, hvalid⟩, rfl⟩
  · rintro ⟨⟨hadmin, hbase, hvalid⟩, rfl⟩
    exact ⟨hadmin, hbase, hvalid, rfl⟩

/-- The message server asks for the capability on top of what the plugin asks for. -/
theorem deliver_setMetadata_iff {m : Plugin.SetMetadata} (hs : Deconstructs k s)
    (hcanonical : k.accAddressFromBech32 (k.addressString contractAddr) = some contractAddr)
    (hbase : m.metadata.base = "" ∨ m.metadata.base = m.denom) :
    deliver k s (.setDenomMetadata
        ⟨k.addressString contractAddr, { m.metadata with base := m.denom }⟩) = .ok t ↔
      (AdminSets k s contractAddr m ∧ isCapabilityEnabled k.enabledCapabilities enableSetMetadata) ∧
        t = setDenomMetaData s { m.metadata with base := m.denom } := by
  simp only [deliver, Msg.validateBasic, MsgSetDenomMetadata.validateBasic, validateSender, handle,
    MsgServer.setDenomMetadata, MsgServer.checkCapability, bind_eq_ok, ensure_eq_ok, exists_const,
    checkAdmin_eq_ok, pure_eq_ok, Except.ok.injEq]
  constructor
  · rintro ⟨⟨_, hvalid, _⟩, hcap, _, hadmin, rfl⟩
    exact ⟨⟨⟨hadmin.symm, hbase, hvalid⟩, hcap⟩, rfl⟩
  · rintro ⟨⟨hsets, hcap⟩, rfl⟩
    have hne : admin s m.denom ≠ "" := by
      intro hempty
      rw [← hsets.admin, hempty, k.empty_address] at hcanonical
      cases hcanonical
    obtain ⟨parts, hparts⟩ := hs m.denom hne
    exact ⟨⟨by rw [hcanonical]; rfl, hsets.valid, parts, hparts, trivial⟩, hcap, hsets.valid,
      hsets.admin.symm, rfl⟩

theorem agrees_variant_iff {msg : Plugin.Msg} {variant : Plugin.Variant}
    (hvariant : msg.variant? = some variant) :
    Agrees k s contractAddr gasLeft msg ↔ ∀ t, Plugin.perform k s contractAddr gasLeft variant = .ok t ↔
      ∃ m, variant.toMsg k contractAddr gasLeft = some m ∧ deliver k s m = .ok t := by
  simp only [Agrees, Plugin.dispatchMsg, hvariant, Option.some.injEq]
  apply forall_congr'
  intro t
  apply iff_congr Iff.rfl
  constructor
  · rintro ⟨_, m, rfl, h⟩
    exact ⟨m, h⟩
  · rintro ⟨m, h⟩
    exact ⟨variant, m, rfl, h⟩

theorem agrees_setMetadata_iff {msg : Plugin.Msg} {m : Plugin.SetMetadata} (hs : Deconstructs k s)
    (hcanonical : k.accAddressFromBech32 (k.addressString contractAddr) = some contractAddr)
    (hvariant : msg.variant? = some (.setMetadata m)) :
    Agrees k s contractAddr gasLeft msg ↔ (AdminSets k s contractAddr m →
      isCapabilityEnabled k.enabledCapabilities enableSetMetadata = true) := by
  rw [agrees_variant_iff hvariant]
  simp only [perform_setMetadata_iff, Plugin.Variant.toMsg]
  by_cases hbase : m.metadata.base = "" ∨ m.metadata.base = m.denom
  · simp only [if_pos hbase, Option.some.injEq, exists_eq_left',
      deliver_setMetadata_iff hs hcanonical hbase]
    constructor
    · intro h hsets
      exact ((h _).mp ⟨hsets, rfl⟩).1.2
    · intro hcap t
      constructor
      · rintro ⟨hsets, ht⟩
        exact ⟨⟨hsets, hcap hsets⟩, ht⟩
      · rintro ⟨⟨hsets, _⟩, ht⟩
        exact ⟨hsets, ht⟩
  · have hnot : ¬ AdminSets k s contractAddr m := fun hsets => hbase hsets.base
    simp [if_neg hbase, hnot]

/-- In every reachable state the plugin and the message server agree on a custom
message of a contract, exactly where the message is no metadata that the contract
may set as the admin, or the capability to set metadata is enabled. -/
theorem agrees_iff (k : Keeper) (authority : String) (denomMetaData : SortedMap String Metadata)
    (bank : Ledger Account String) (es : List Event)
    (h : Runs.run (stepEvent k authority) (defaultGenesis denomMetaData bank) es = .ok s)
    (contractAddr : Account)
    (hcanonical : k.accAddressFromBech32 (k.addressString contractAddr) = some contractAddr)
    (gasLeft : ℕ) (msg : Plugin.Msg)
    (hcompared : ∀ variant, msg.variant? = some variant → variant.Compared)
    (hadmin : ∀ m, msg.variant? = some (.changeAdmin m) → ∀ a,
      k.accAddressFromBech32 m.newAdminAddress = some a → k.addressString a = m.newAdminAddress) :
    Agrees k s contractAddr gasLeft msg ↔
      ∀ m, msg.variant? = some (.setMetadata m) → AdminSets k s contractAddr m →
        isCapabilityEnabled k.enabledCapabilities enableSetMetadata = true := by
  have hs : Deconstructs k s :=
    Runs.run_invariant deconstructs_step (deconstructs_defaultGenesis denomMetaData bank) h
  cases hvariant : msg.variant? with
  | none => simp [Agrees, Plugin.dispatchMsg, hvariant, fail]
  | some variant =>
      cases variant with
      | setMetadata m =>
          rw [agrees_setMetadata_iff hs hcanonical hvariant]
          simp only [Option.some.injEq, Plugin.Variant.setMetadata.injEq, forall_eq']
      | createDenom m =>
          have hm : m.metadata = none := hcompared _ hvariant
          rw [agrees_variant_iff hvariant]
          simp [perform_createDenom_iff hm, Plugin.Variant.toMsg, hm]
      | mintTokens m => exact (hcompared _ hvariant).elim
      | changeAdmin m =>
          rw [agrees_variant_iff hvariant]
          simp [perform_changeAdmin_iff (hadmin m hvariant), Plugin.Variant.toMsg]
      | burnTokens m =>
          rw [agrees_variant_iff hvariant]
          simp [perform_burnTokens_iff, Plugin.Variant.toMsg]
      | forceTransfer m =>
          rw [agrees_variant_iff hvariant]
          simp [perform_forceTransfer_iff, Plugin.Variant.toMsg]

end Agreement

namespace ContractGold
open RenouncedGold (bank)

/-- The same chain with other capabilities. -/
def keeper (enabledCapabilities : List String) : Keeper :=
  { RenouncedGold.keeper with enabledCapabilities := enabledCapabilities }

def contractAddr : Account := .user "alice"

/-- The contract creates gold. -/
def history : List Event :=
  [.call (.contract contractAddr 2000000 ⟨some ⟨"gold", none⟩, none, none, none, none, none⟩)]

def created (enabledCapabilities : List String) : Exec State :=
  Runs.run (stepEvent (keeper enabledCapabilities) "gov") (defaultGenesis ∅ bank) history

def named : Plugin.SetMetadata := ⟨"factory/alice/gold", ⟨"", [], "", "gold", "Gold", "GLD"⟩⟩

def setMetadata : Plugin.Msg := ⟨none, none, none, none, some named, none⟩

theorem created_admin : (created []).toOption.map (fun s => admin s "factory/alice/gold") =
    some "alice" := by decide

/-- Without the capability the plugin still sets metadata. -/
theorem plugin_sets_metadata : ∃ s, created [] = .ok s ∧
    ¬ Agrees (keeper []) s contractAddr 0 setMetadata := by
  obtain ⟨s, hs, hadmin⟩ := exists_of_toOption_map created_admin
  refine ⟨s, hs, fun h => ?_⟩
  have hsets : AdminSets (keeper []) s contractAddr named := ⟨hadmin, Or.inl rfl, rfl⟩
  have hperform : Plugin.perform (keeper []) s contractAddr 0 (.setMetadata named) =
      .ok (setDenomMetaData s { named.metadata with base := named.denom }) :=
    perform_setMetadata_iff.mpr ⟨hsets, rfl⟩
  obtain ⟨_, m, hvariant, hm, hdeliver⟩ := (h _).mp hperform
  cases hvariant
  cases hm
  simp only [deliver, handle, MsgServer.setDenomMetadata, bind_eq_ok] at hdeliver
  obtain ⟨_, _, _, hcap, _⟩ := hdeliver
  cases hcap

theorem created_returns : (created [enableSetMetadata]).toOption.isSome = true := by decide

theorem agrees_with_capability : ∃ s, created [enableSetMetadata] = .ok s ∧
    Agrees (keeper [enableSetMetadata]) s contractAddr 0 setMetadata := by
  obtain ⟨s, hs⟩ := Option.isSome_iff_exists.mp created_returns
  have hrun := toOption_eq_some.mp hs
  refine ⟨s, hrun, (agrees_iff _ "gov" ∅ bank history hrun contractAddr rfl 0 setMetadata ?_ ?_).mpr ?_⟩
  · intro variant hvariant
    cases hvariant
    trivial
  · intro m hvariant
    cases hvariant
  · intro _ _ _
    decide

end ContractGold

end Kiichain.TokenFactory
