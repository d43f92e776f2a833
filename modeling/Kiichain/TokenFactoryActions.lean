import Kiichain.TokenFactoryFrontEnds

/-!
# What an action writes

A message reaches the message server from a transaction, which runs its
stateless checks, or wrapped in a message of another module, which does not.
Whatever reaches the module is a sequence of a few elementary writes, and every
invariant of the stores is checked against these.
-/

namespace Kiichain.TokenFactory
open GoExec

/-- `nested` messages are executed by other modules, without stateless checks. -/
inductive Action
  | delivered (msg : Msg)
  | nested (msg : Msg)
  | updateParams (msg : MsgUpdateParams)
  | custom (contractAddr : Account) (gasLeft : ℕ) (msg : Plugin.Msg)

def perform (k : Keeper) (authority : String) (s : State) : Action → Exec State
  | .delivered msg => deliver k s msg
  | .nested msg => execute k s msg
  | .updateParams msg => updateParams authority s msg
  | .custom contractAddr gasLeft msg => Plugin.dispatchMsg k s contractAddr gasLeft msg

def stepAction (k : Keeper) (authority : String) (s : State) (a : Action) : Exec State :=
  pure (rolledBack s (perform k authority s a))

/-- What the bank has for a new denomination. -/
def initialMetadata (denom : String) : Metadata :=
  ⟨"", [⟨denom, 0, []⟩], denom, denom, denom, denom⟩

def recordDenom (s : State) (creator denom : String) : State :=
  { s with
    denomMetaData := s.denomMetaData.insert denom (initialMetadata denom)
    authorityMetadata := s.authorityMetadata.insert denom ⟨creator⟩
    creatorDenoms := insert (creator, denom) s.creatorDenoms }

/-- A denomination that `creator` may create. -/
structure Creatable (k : Keeper) (s : State) (creator denom : String) : Prop where
  named : ∃ subdenom, getTokenDenom creator subdenom = .ok denom
  free : s.denomMetaData.get? denom = none
  address : (k.accAddressFromBech32 creator).isSome = true

/-- Conditions on the creators and on the metadata that an action names. -/
structure Terms where
  creator : String → Prop
  metadata : Metadata → Prop

def Terms.any : Terms := ⟨fun _ => True, fun _ => True⟩

def Msg.Within (terms : Terms) : Msg → Prop
  | .createDenom _ msg => terms.creator msg.sender
  | .setDenomMetadata msg => terms.metadata msg.metadata
  | _ => True

def Plugin.Variant.Within (k : Keeper) (terms : Terms) (contractAddr : Account) :
    Plugin.Variant → Prop
  | .createDenom m => terms.creator (k.addressString contractAddr) ∧
      ∀ metadata, m.metadata = some metadata →
        terms.metadata { metadata with base := tokenDenom (k.addressString contractAddr) m.subdenom }
  | .setMetadata m => terms.metadata { m.metadata with base := m.denom }
  | _ => True

def Action.Within (k : Keeper) (terms : Terms) : Action → Prop
  | .delivered msg => msg.Within terms
  | .nested msg => msg.Within terms
  | .updateParams _ => True
  | .custom contractAddr _ msg =>
      ∀ variant, msg.variant? = some variant → variant.Within k terms contractAddr

/-- The elementary writes, and what follows from them. -/
inductive Writes (k : Keeper) (terms : Terms) : State → State → Prop
  | idle (s : State) : Writes k terms s s
  | bank (s : State) (bank : Ledger Account String) : Writes k terms s { s with bank := bank }
  | params (s : State) (params : Params)
      (h : validateDenomCreationFee params.denomCreationFee = .ok ()) :
      Writes k terms s { s with params := params }
  | record (s : State) {creator denom : String} (h : Creatable k s creator denom)
      (hcreator : terms.creator creator) : Writes k terms s (recordDenom s creator denom)
  | admin (s : State) {denom : String} {metadata : DenomAuthorityMetadata}
      (hentry : (s.authorityMetadata.get? denom).isSome = true)
      (hvalid : validateAuthorityMetadata k metadata = .ok ()) :
      Writes k terms s { s with authorityMetadata := s.authorityMetadata.insert denom metadata }
  | metadata (s : State) {metadata : Metadata} (h : terms.metadata metadata) :
      Writes k terms s (setDenomMetaData s metadata)
  | trans {s t u : State} (h : Writes k terms s t) (h' : Writes k terms t u) : Writes k terms s u

section Inversion

variable {k : Keeper} {terms : Terms} {authority : String} {s t : State}

theorem createDenomAfterValidation_eq_ok {creator denom : String} :
    createDenomAfterValidation k s creator denom = .ok t ↔
      validateAuthorityMetadata k ⟨creator⟩ = .ok () ∧ t = recordDenom s creator denom := by
  simp only [createDenomAfterValidation, setAuthorityMetadata, bind_eq_ok, pure_eq_ok,
    Except.ok.injEq]
  constructor
  · rintro ⟨_, ⟨_, hvalid, rfl⟩, rfl⟩
    exact ⟨hvalid, rfl⟩
  · rintro ⟨hvalid, rfl⟩
    exact ⟨_, ⟨_, hvalid, rfl⟩, rfl⟩

theorem writes_createDenom {gasLeft : ℕ} {msg : MsgCreateDenom} {denom : String}
    (hterms : terms.creator msg.sender)
    (hsender : (k.accAddressFromBech32 msg.sender).isSome = true)
    (h : MsgServer.createDenom k s gasLeft msg = .ok (t, denom)) : Writes k terms s t := by
  simp only [MsgServer.createDenom, validateCreateDenom, chargeForCreateDenom, bind_eq_ok,
    ensure_eq_ok, require_eq_ok, exists_const, pure_eq_ok, Except.ok.injEq, Prod.mk.injEq,
    createDenomAfterValidation_eq_ok] at h
  obtain ⟨_, _, _, ⟨_, hdenom, hfree, rfl⟩, _, ⟨_, _, bank, _, _, rfl⟩, _, ⟨_, rfl⟩, rfl, rfl⟩ := h
  exact .trans (.bank s bank) (.record _ ⟨⟨_, hdenom⟩, hfree, hsender⟩ hterms)

theorem writes_changeAdmin {msg : MsgChangeAdmin}
    (hsender : (k.accAddressFromBech32 msg.sender).isSome = true)
    (h : MsgServer.changeAdmin k s msg = .ok t) : Writes k terms s t := by
  have hadmin := (changeAdmin_effect h).1
  simp only [MsgServer.changeAdmin, setAdmin, setAuthorityMetadata, bind_eq_ok, pure_eq_ok,
    Except.ok.injEq] at h
  obtain ⟨_, _, _, hvalid, rfl⟩ := h
  refine .admin s (isSome_of_admin_ne_empty ?_) hvalid
  rw [← hadmin]
  intro hempty
  rw [hempty, k.empty_address] at hsender
  cases hsender

theorem writes_execute {msg : Msg} (hterms : msg.Within terms) (h : execute k s msg = .ok t) :
    Writes k terms s t := by
  obtain ⟨hsender, hhandle⟩ := execute_eq_ok.mp h
  cases msg with
  | createDenom gasLeft m =>
      obtain ⟨denom, hcreate⟩ := handle_createDenom hhandle
      exact writes_createDenom hterms hsender hcreate
  | mint m =>
      obtain ⟨_, _, bank, rfl, _⟩ := mint_effect hhandle
      exact .bank s bank
  | burn m =>
      obtain ⟨_, address, hburn⟩ := burn_effect hhandle
      obtain ⟨_, _, bank, rfl, _⟩ := burnFrom_effect hburn
      exact .bank s bank
  | forceTransfer m =>
      obtain ⟨bank, rfl, _⟩ := forceTransfer_effect hhandle
      exact .bank s bank
  | changeAdmin m => exact writes_changeAdmin hsender hhandle
  | setDenomMetadata m =>
      obtain ⟨_, rfl⟩ := setDenomMetadata_effect hhandle
      exact .metadata s hterms

theorem writes_deliver {m : Msg} (hterms : m.Within terms) (h : deliver k s m = .ok t) :
    Writes k terms s t :=
  writes_execute hterms (execute_of_deliver h)

theorem writes_plugin {contractAddr : Account} {gasLeft : ℕ} {variant : Plugin.Variant}
    (hterms : variant.Within k terms contractAddr)
    (h : Plugin.perform k s contractAddr gasLeft variant = .ok t) : Writes k terms s t := by
  cases variant with
  | createDenom m =>
      obtain ⟨hcreator, hmetadata⟩ := hterms
      obtain ⟨u, hdeliver, hset⟩ := perform_createDenom_eq_ok.mp h
      have hcreated : Writes k terms s u :=
        writes_deliver (m := .createDenom gasLeft ⟨_, m.subdenom⟩) hcreator hdeliver
      obtain ⟨_, rfl⟩ | ⟨metadata, hm, hset⟩ := hset
      · exact hcreated
      · obtain ⟨_, _, _, rfl⟩ := performSetMetadata_eq_ok.mp hset
        exact hcreated.trans (.metadata u (hmetadata metadata hm))
  | mintTokens m =>
      simp only [Plugin.perform, wrapped_eq_ok, performMint_eq_ok] at h
      obtain ⟨rcpt, u, _, hmint, h⟩ := h
      have hminted : Writes k terms s u := writes_deliver (m := .mint _) trivial hmint
      obtain ⟨_, rfl⟩ | ⟨_, _, bank, _, rfl⟩ := h
      · exact hminted
      · exact hminted.trans (.bank u bank)
  | changeAdmin m =>
      obtain ⟨_, _, hdeliver⟩ := perform_changeAdmin_eq_ok.mp h
      exact writes_deliver (m := .changeAdmin _) trivial hdeliver
  | burnTokens m =>
      exact writes_deliver (m := .burn _) trivial (perform_burnTokens_iff.mp h)
  | setMetadata m =>
      simp only [Plugin.perform, wrapped_eq_ok, performSetMetadata_eq_ok] at h
      obtain ⟨_, _, _, rfl⟩ := h
      exact .metadata s hterms
  | forceTransfer m =>
      exact writes_deliver (m := .forceTransfer _) trivial (perform_forceTransfer_iff.mp h)

theorem writes_perform {a : Action} (hterms : a.Within k terms)
    (h : perform k authority s a = .ok t) : Writes k terms s t := by
  cases a with
  | delivered msg => exact writes_deliver hterms h
  | nested msg => exact writes_execute hterms h
  | updateParams msg =>
      simp only [perform, updateParams, bind_eq_ok, pure_eq_ok, Except.ok.injEq] at h
      obtain ⟨_, _, _, hfee, rfl⟩ := h
      exact .params s msg.params hfee
  | custom contractAddr gasLeft msg =>
      simp only [perform, Plugin.dispatchMsg] at h
      cases hvariant : msg.variant? with
      | none =>
          rw [hvariant] at h
          cases h
      | some variant =>
          rw [hvariant] at h
          exact writes_plugin (hterms variant hvariant) h

theorem writes_stepAction_within {a : Action} (hterms : a.Within k terms)
    (h : stepAction k authority s a = .ok t) : Writes k terms s t := by
  cases h
  obtain ⟨_, hrefused⟩ | hperformed := rolledBack_cases s (perform k authority s a)
  · rw [hrefused]
    exact .idle s
  · exact writes_perform hterms hperformed

theorem Msg.within_any (msg : Msg) : msg.Within .any := by
  cases msg <;> trivial

theorem Action.within_any (a : Action) : a.Within k .any := by
  cases a with
  | delivered msg => exact msg.within_any
  | nested msg => exact msg.within_any
  | updateParams msg => trivial
  | custom contractAddr gasLeft msg =>
      intro variant _
      cases variant with
      | createDenom m => exact ⟨trivial, fun _ _ => trivial⟩
      | _ => trivial

theorem writes_stepAction {a : Action} (h : stepAction k authority s a = .ok t) :
    Writes k .any s t :=
  writes_stepAction_within a.within_any h

end Inversion

/-- The authority entries and the creator lists have the same denominations, each
under the creator in its name; admins are addresses or empty. -/
structure Indexed (k : Keeper) (s : State) : Prop where
  params : validateDenomCreationFee s.params.denomCreationFee = .ok ()
  listed : ∀ denom, (s.authorityMetadata.get? denom).isSome = true →
    ∃ creator, (creator, denom) ∈ s.creatorDenoms
  entry : ∀ creator denom, (creator, denom) ∈ s.creatorDenoms →
    (s.authorityMetadata.get? denom).isSome = true
  named : ∀ creator denom, (creator, denom) ∈ s.creatorDenoms →
    ∃ subdenom, getTokenDenom creator subdenom = .ok denom
  address : ∀ creator denom, (creator, denom) ∈ s.creatorDenoms →
    (k.accAddressFromBech32 creator).isSome = true
  admin : ∀ denom metadata, s.authorityMetadata.get? denom = some metadata →
    validateAuthorityMetadata k metadata = .ok ()

section Indexed

variable {k : Keeper} {terms : Terms} {s t : State} {creator denom : String}

theorem indexed_defaultGenesis (denomMetaData : SortedMap String Metadata)
    (bank : Ledger Account String) : Indexed k (defaultGenesis denomMetaData bank) where
  params := show validateDenomCreationFee defaultParams.denomCreationFee = .ok () by decide
  listed denom h := absurd h Bool.false_ne_true
  entry creator denom h := absurd h (Finset.notMem_empty _)
  named creator denom h := absurd h (Finset.notMem_empty _)
  address creator denom h := absurd h (Finset.notMem_empty _)
  admin denom metadata h := by cases h

theorem validateAuthorityMetadata_of_address
    (h : (k.accAddressFromBech32 creator).isSome = true) :
    validateAuthorityMetadata k ⟨creator⟩ = .ok () := by
  rw [validateAuthorityMetadata]
  split_ifs
  · rfl
  · exact ensure_of h

theorem indexed_record (hs : Indexed k s) (h : Creatable k s creator denom) :
    Indexed k (recordDenom s creator denom) where
  params := hs.params
  listed d hd := by
    by_cases he : denom = d
    · exact ⟨creator, he ▸ Finset.mem_insert_self _ _⟩
    · rw [recordDenom, SortedMap.get?_insert_ne _ _ he] at hd
      obtain ⟨c, hc⟩ := hs.listed d hd
      exact ⟨c, Finset.mem_insert_of_mem hc⟩
  entry c d hd := by
    rw [recordDenom, SortedMap.get?_insert]
    split_ifs with he
    · rfl
    · obtain heq | hd := Finset.mem_insert.mp hd
      · exact absurd (congrArg Prod.snd heq).symm he
      · exact hs.entry c d hd
  named c d hd := by
    obtain heq | hd := Finset.mem_insert.mp hd
    · obtain ⟨rfl, rfl⟩ := Prod.mk.inj heq
      exact h.named
    · exact hs.named c d hd
  address c d hd := by
    obtain heq | hd := Finset.mem_insert.mp hd
    · obtain ⟨rfl, rfl⟩ := Prod.mk.inj heq
      exact h.address
    · exact hs.address c d hd
  admin d metadata hd := by
    rw [recordDenom, SortedMap.get?_insert] at hd
    split_ifs at hd with he
    · obtain rfl := Option.some.inj hd
      exact validateAuthorityMetadata_of_address h.address
    · exact hs.admin d metadata hd

theorem indexed_admin {metadata : DenomAuthorityMetadata} (hs : Indexed k s)
    (hentry : (s.authorityMetadata.get? denom).isSome = true)
    (hvalid : validateAuthorityMetadata k metadata = .ok ()) :
    Indexed k { s with authorityMetadata := s.authorityMetadata.insert denom metadata } where
  params := hs.params
  listed d hd := by
    by_cases he : denom = d
    · exact hs.listed d (he ▸ hentry)
    · rw [SortedMap.get?_insert_ne _ _ he] at hd
      exact hs.listed d hd
  entry c d hd := by
    rw [SortedMap.get?_insert]
    split_ifs
    · rfl
    · exact hs.entry c d hd
  named := hs.named
  address := hs.address
  admin d m hd := by
    rw [SortedMap.get?_insert] at hd
    split_ifs at hd
    · obtain rfl := Option.some.inj hd
      exact hvalid
    · exact hs.admin d m hd

theorem indexed_writes (hs : Indexed k s) (h : Writes k terms s t) : Indexed k t := by
  induction h with
  | idle s => exact hs
  | bank s bank => exact ⟨hs.params, hs.listed, hs.entry, hs.named, hs.address, hs.admin⟩
  | params s params h => exact ⟨h, hs.listed, hs.entry, hs.named, hs.address, hs.admin⟩
  | record s h _ => exact indexed_record hs h
  | admin s hentry hvalid => exact indexed_admin hs hentry hvalid
  | metadata s _ => exact ⟨hs.params, hs.listed, hs.entry, hs.named, hs.address, hs.admin⟩
  | trans _ _ ih ih' => exact ih' (ih hs)

/-- Every denomination with an authority entry has bank metadata. -/
def Described (s : State) : Prop :=
  ∀ denom, (s.authorityMetadata.get? denom).isSome = true →
    (s.denomMetaData.get? denom).isSome = true

theorem described_defaultGenesis (denomMetaData : SortedMap String Metadata)
    (bank : Ledger Account String) : Described (defaultGenesis denomMetaData bank) :=
  fun _ h => absurd h Bool.false_ne_true

theorem described_writes (hs : Described s) (h : Writes k terms s t) : Described t := by
  induction h with
  | idle s => exact hs
  | bank s bank => exact hs
  | params s params h => exact hs
  | @record s _ denom h _ =>
      intro d hd
      rw [recordDenom, SortedMap.get?_insert] at hd ⊢
      split_ifs with he
      · rfl
      · rw [if_neg he] at hd
        exact hs d hd
  | @admin s denom _ hentry hvalid =>
      intro d hd
      apply hs d
      by_cases he : denom = d
      · exact he ▸ hentry
      · rwa [SortedMap.get?_insert_ne _ _ he] at hd
  | metadata s _ =>
      intro d hd
      rw [setDenomMetaData, SortedMap.get?_insert]
      split_ifs
      · rfl
      · exact hs d hd
  | trans _ _ ih ih' => exact ih' (ih hs)

end Indexed

end Kiichain.TokenFactory
