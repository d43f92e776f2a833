import Kiichain.Cells
import Kiichain.TokenFactorySupply

/-!
# Who is admin, told from the actions

The admin of a denomination is a cell of the module that creating the denomination
and changing its admin write. From the default genesis it holds whom the last such
action named, and every action on the denomination is by that account.
-/

namespace Kiichain.TokenFactory
open GoExec FixedPoint

/-- The denomination that a message names an admin of, and the admin. -/
def Msg.names? : Msg → Option (String × String)
  | .createDenom _ msg => some (tokenDenom msg.sender msg.subdenom, msg.sender)
  | .changeAdmin msg => some (msg.denom, msg.newAdmin)
  | _ => none

/-- Who acts on an existing denomination, and the denomination. -/
def Msg.controls? : Msg → Option (String × String)
  | .createDenom _ _ => none
  | .mint msg => some (msg.sender, msg.amount.denom)
  | .burn msg => some (msg.sender, msg.amount.denom)
  | .forceTransfer msg => some (msg.sender, msg.amount.denom)
  | .changeAdmin msg => some (msg.sender, msg.denom)
  | .setDenomMetadata msg => some (msg.sender, msg.metadata.base)

/-- A contract sets metadata without a message, and is checked for it all the same. -/
def Plugin.Variant.controls? (k : Keeper) (contractAddr : Account) (gasLeft : ℕ) :
    Plugin.Variant → Option (String × String)
  | .setMetadata m => some (k.addressString contractAddr, m.denom)
  | variant => (variant.message? k contractAddr gasLeft).bind Msg.controls?

def Action.controls? (k : Keeper) : Action → Option (String × String)
  | .delivered msg => msg.controls?
  | .nested msg => msg.controls?
  | .updateParams _ => none
  | .custom contractAddr gasLeft msg =>
    msg.variant?.bind (fun variant => variant.controls? k contractAddr gasLeft)

section Execute

variable {k : Keeper} {authority : String} {s t : State} {denom : String}

/-- The admins after a message: with the one it names, where it names one. -/
theorem authorityMetadata_of_execute {msg : Msg} (h : execute k s msg = .ok t) :
    t.authorityMetadata = match msg.names? with
      | some (denom, name) => s.authorityMetadata.insert denom ⟨name⟩
      | none => s.authorityMetadata := by
  obtain ⟨_, hhandle⟩ := execute_eq_ok.mp h
  cases msg with
  | createDenom gasLeft m =>
      obtain ⟨newDenom, hcreate⟩ := handle_createDenom hhandle
      obtain ⟨rfl, _, a, bank, _, rfl⟩ := createDenom_effect hcreate
      rfl
  | mint m =>
      obtain ⟨_, _, bank, rfl, _⟩ := mint_effect hhandle
      rfl
  | burn m =>
      obtain ⟨_, address, hburn⟩ := burn_effect hhandle
      obtain ⟨_, _, bank, rfl, _⟩ := burnFrom_effect hburn
      rfl
  | forceTransfer m =>
      obtain ⟨bank, rfl, _⟩ := forceTransfer_effect hhandle
      rfl
  | changeAdmin m =>
      obtain ⟨_, rfl⟩ := changeAdmin_effect hhandle
      rfl
  | setDenomMetadata m =>
      obtain ⟨_, rfl⟩ := setDenomMetadata_effect hhandle
      rfl

theorem admin_of_execute {msg : Msg} {sender : String} (h : execute k s msg = .ok t)
    (hcontrols : msg.controls? = some (sender, denom)) : admin s denom = sender := by
  obtain ⟨_, hhandle⟩ := execute_eq_ok.mp h
  cases msg with
  | createDenom gasLeft m => cases hcontrols
  | mint m =>
      cases hcontrols
      exact (mint_effect hhandle).1.symm
  | burn m =>
      cases hcontrols
      exact (burn_effect hhandle).1.symm
  | forceTransfer m =>
      cases hcontrols
      simp only [handle, MsgServer.forceTransfer, bind_eq_ok, checkAdmin_eq_ok] at hhandle
      obtain ⟨_, _, _, hadmin, _⟩ := hhandle
      exact hadmin.symm
  | changeAdmin m =>
      cases hcontrols
      exact (changeAdmin_effect hhandle).1.symm
  | setDenomMetadata m =>
      cases hcontrols
      exact (setDenomMetadata_effect hhandle).1.symm

/-- The message of a custom message runs from the state that the custom message does. -/
theorem execute_of_message {contractAddr : Account} {gasLeft : ℕ} {variant : Plugin.Variant}
    {msg : Msg} (hmsg : variant.message? k contractAddr gasLeft = some msg)
    (h : Plugin.perform k s contractAddr gasLeft variant = .ok t) :
    ∃ u, execute k s msg = .ok u := by
  obtain ⟨hnone, _⟩ | ⟨msg', u, hmsg', hexecute, _⟩ := perform_variant_cases h
  · rw [hmsg] at hnone
    cases hnone
  · rw [hmsg] at hmsg'
    cases hmsg'
    exact ⟨u, hexecute⟩

theorem admin_of_perform_variant {contractAddr : Account} {gasLeft : ℕ} {variant : Plugin.Variant}
    {sender : String} (h : Plugin.perform k s contractAddr gasLeft variant = .ok t)
    (hcontrols : variant.controls? k contractAddr gasLeft = some (sender, denom)) :
    admin s denom = sender := by
  cases variant with
  | setMetadata m =>
      cases hcontrols
      simp only [Plugin.perform, wrapped_eq_ok, performSetMetadata_eq_ok] at h
      exact h.1
  | createDenom _ | mintTokens _ | changeAdmin _ | burnTokens _ | forceTransfer _ =>
      simp only [Plugin.Variant.controls?, Option.bind_eq_some_iff] at hcontrols
      obtain ⟨msg, hmsg, hcontrols⟩ := hcontrols
      obtain ⟨u, hexecute⟩ := execute_of_message hmsg h
      exact admin_of_execute hexecute hcontrols

/-- Whoever acts on a denomination is its admin. -/
theorem admin_of_perform {a : Action} {sender : String} (h : perform k authority s a = .ok t)
    (hcontrols : a.controls? k = some (sender, denom)) : admin s denom = sender := by
  cases a with
  | delivered msg => exact admin_of_execute (execute_of_deliver h) hcontrols
  | nested msg => exact admin_of_execute h hcontrols
  | updateParams msg => cases hcontrols
  | custom contractAddr gasLeft msg =>
      simp only [perform, Plugin.dispatchMsg] at h
      obtain ⟨variant, hvariant, hcontrols⟩ := Option.bind_eq_some_iff.mp hcontrols
      rw [hvariant] at h
      exact admin_of_perform_variant h hcontrols

end Execute

section Runs

variable (k : Keeper) (authority : String)

/-- The action passes and its message names the admin of the denomination. -/
def Names (denom name : String) (s : State) (a : Action) : Prop :=
  Returns (perform k authority s a) ∧
    ∃ msg, a.message? k = some msg ∧ msg.names? = some (denom, name)

variable {k authority}

theorem admin?_of_perform {s t : State} {a : Action} (h : perform k authority s a = .ok t)
    (denom : String) : (∃ name, Names k authority denom name s a ∧
        t.authorityMetadata.get? denom = some ⟨name⟩) ∨
      (∀ name, ¬ Names k authority denom name s a) ∧
        t.authorityMetadata.get? denom = s.authorityMetadata.get? denom := by
  obtain ⟨hnone, hsettled⟩ | ⟨msg, u, hmsg, hexecute, hsettled⟩ := perform_cases h
  · refine Or.inr ⟨?_, by rw [hsettled.authority]⟩
    rintro name ⟨_, msg, hmsg, _⟩
    rw [hnone] at hmsg
    cases hmsg
  · rw [hsettled.authority, authorityMetadata_of_execute hexecute]
    have hunique : ∀ name, Names k authority denom name s a → msg.names? = some (denom, name) := by
      rintro name ⟨_, msg', hmsg', hnames⟩
      rw [hmsg] at hmsg'
      cases hmsg'
      exact hnames
    cases hnames : msg.names? with
    | none =>
        refine Or.inr ⟨fun name hname => ?_, rfl⟩
        rw [hunique name hname] at hnames
        cases hnames
    | some named =>
        obtain ⟨d, name⟩ := named
        by_cases hd : d = denom
        · subst hd
          exact Or.inl ⟨name, ⟨⟨t, h⟩, msg, hmsg, hnames⟩, SortedMap.get?_insert_self _ _ _⟩
        · refine Or.inr ⟨fun name' hname => ?_, SortedMap.get?_insert_ne _ _ hd⟩
          rw [hunique name' hname] at hnames
          exact hd (congrArg Prod.fst (Option.some.inj hnames)).symm

theorem admin?_of_stepAction {s t : State} {a : Action} (h : stepAction k authority s a = .ok t)
    (denom : String) : (∃ name, Names k authority denom name s a ∧
        t.authorityMetadata.get? denom = some ⟨name⟩) ∨
      (∀ name, ¬ Names k authority denom name s a) ∧
        t.authorityMetadata.get? denom = s.authorityMetadata.get? denom := by
  cases h
  obtain ⟨hrefused, hsame⟩ | hperformed := rolledBack_cases s (perform k authority s a)
  · exact Or.inr ⟨fun name hname => hrefused hname.1, by rw [hsame]⟩
  · exact admin?_of_perform hperformed denom

theorem names_unique {s : State} {a : Action} {denom name name' : String}
    (h : Names k authority denom name s a) (h' : Names k authority denom name' s a) :
    name = name' := by
  obtain ⟨_, msg, hmsg, hnames⟩ := h
  obtain ⟨_, msg', hmsg', hnames'⟩ := h'
  rw [hmsg] at hmsg'
  cases hmsg'
  rw [hnames] at hnames'
  exact congrArg Prod.snd (Option.some.inj hnames')

variable (k authority) in
/-- The admin entry of a denomination, which no action removes. -/
def adminCell (denom : String) : Runs.Cell (stepAction k authority) String where
  read s := (s.authorityMetadata.get? denom).map DenomAuthorityMetadata.admin
  Writes name s a := Names k authority denom name s a
  Empties _ _ := False
  read_of_writes h hname := by
    obtain ⟨name, hname', hget⟩ | ⟨hnone, _⟩ := admin?_of_stepAction h denom
    · rw [hget, names_unique hname hname']
      rfl
    · exact absurd hname (hnone _)
  read_of_empties _ h := h.elim
  read_of_untouched h hnone _ := by
    obtain ⟨name, hname, _⟩ | ⟨_, hget⟩ := admin?_of_stepAction h denom
    · exact absurd hname (hnone name)
    · rw [hget]

theorem admin_eq_iff {s : State} {denom name : String} (hname : name ≠ "") :
    admin s denom = name ↔
      (s.authorityMetadata.get? denom).map DenomAuthorityMetadata.admin = some name := by
  rw [admin, getAuthorityMetadata]
  cases s.authorityMetadata.get? denom with
  | none => simp [eq_comm, hname]
  | some metadata => simp

/-- From the default genesis, over messages, parameter changes and contract calls, the
admin of a denomination is the account that the last action to create it or to change
its admin named, and an action on the denomination passes from that account only. -/
theorem admin_iff_last_named (k : Keeper) (authority : String)
    (denomMetaData : SortedMap String Metadata) (bank : Ledger Account String)
    (actions : List Action) {s : State}
    (h : Runs.run (stepAction k authority) (defaultGenesis denomMetaData bank) actions = .ok s)
    {name : String} (hname : name ≠ "") (denom : String) :
    (admin s denom = name ↔ (adminCell k authority denom).LastWrote name
        (defaultGenesis denomMetaData bank) actions) ∧
      ∀ a t, perform k authority s a = .ok t → a.controls? k = some (name, denom) →
        (adminCell k authority denom).LastWrote name (defaultGenesis denomMetaData bank)
          actions := by
  have hcell : admin s denom = name ↔ (adminCell k authority denom).LastWrote name
      (defaultGenesis denomMetaData bank) actions := by
    rw [admin_eq_iff hname]
    exact Runs.Cell.read_eq_some_iff_of_empty (k := adminCell k authority denom) rfl h
  exact ⟨hcell, fun a t hperform hcontrols => hcell.mp (admin_of_perform hperform hcontrols)⟩

end Runs

namespace HandedOver
open RenouncedGold (keeper bank five)

/-- Alice creates gold and hands it over to bob, whose contract mints. -/
def handed : List Action :=
  [.delivered (.createDenom 2000000 ⟨"alice", "gold"⟩),
    .nested (.changeAdmin ⟨"alice", "factory/alice/gold", "bob"⟩)]

def minting : Action :=
  .custom (.user "bob") 0 ⟨none, some ⟨"factory/alice/gold", five, "bob"⟩, none, none, none, none⟩

def start : State := defaultGenesis ∅ bank

def reached : Exec State := Runs.run (stepAction keeper "gov") start handed

theorem handed_runs : reached.toOption.map (fun s => (admin s "factory/alice/gold",
    (perform keeper "gov" s minting).toOption.isSome)) = some ("bob", true) := by decide

theorem bob_is_last : ∃ s, reached = .ok s ∧ admin s "factory/alice/gold" = "bob" ∧
    (adminCell keeper "gov" "factory/alice/gold").LastWrote "bob" start handed := by
  obtain ⟨s, hs, hview⟩ := exists_of_toOption_map handed_runs
  simp only [Prod.mk.injEq] at hview
  obtain ⟨t, ht⟩ := Option.isSome_iff_exists.mp hview.2
  exact ⟨s, hs, hview.1, (admin_iff_last_named keeper "gov" ∅ bank handed hs (by decide)
    "factory/alice/gold").2 minting t (toOption_eq_some.mp ht) rfl⟩

end HandedOver

end Kiichain.TokenFactory
