import Kiichain.Envelope
import Kiichain.GoExec

/-!
# The gate on expedited governance proposals

Only proposals that upgrade the chain or cancel an upgrade may be expedited. The
decorator looks at the messages of a transaction but not into an `authz.MsgExec`,
so a wrapper of any depth takes every expedited proposal past it.
-/

namespace Kiichain.Ante
open GoExec

/-- A packed message of a proposal; content that is legacy comes with its own type. -/
inductive ProposalMessage
  | execLegacyContent (content : Option String)
  | other (typeUrl : String)
deriving DecidableEq

structure MsgSubmitProposal where
  messages : List ProposalMessage
  expedited : Bool
deriving DecidableEq

/-- A message that wraps no others; an envelope of them is a wrapper. -/
inductive UnwrappedMsg
  | submitProposal (prop : MsgSubmitProposal)
  | other
deriving DecidableEq

def ProposalMessage.typeUrl : ProposalMessage → String
  | .execLegacyContent _ => "/cosmos.gov.v1.MsgExecLegacyContent"
  | .other typeUrl => typeUrl

def expeditedPropDecoratorEnabled : Bool := true

def expeditedPropsWhitelist : List String :=
  ["/cosmos.upgrade.v1beta1.MsgSoftwareUpgrade", "/cosmos.upgrade.v1beta1.MsgCancelUpgrade"]

namespace GovExpeditedProposalsDecorator

def isWhitelisted (msgType : String) : Bool := msgType ∈ expeditedPropsWhitelist

def validateMessage : ProposalMessage → Exec Unit
  | .execLegacyContent none => panics "invalid memory address or nil pointer dereference"
  | .execLegacyContent (some typeUrl) =>
    ensure (isWhitelisted typeUrl) (.error "invalid Msg type: %s: unsupported expedited proposal type")
  | .other typeUrl =>
    ensure (isWhitelisted typeUrl) (.error "invalid Msg type: %s: unsupported expedited proposal type")

def validateExpeditedGovProp (prop : MsgSubmitProposal) : Exec Unit := do
  ensure (prop.messages ≠ []) (.error "unsupported expedited proposal type")
  prop.messages.forM validateMessage

def validateMsg : Envelope UnwrappedMsg → Exec Unit
  | .leaf (.submitProposal prop) =>
    if prop.expedited then validateExpeditedGovProp prop else pure ()
  | _ => pure ()

/-- A transaction that passes goes to the next decorator. -/
def anteHandle (msgs : List (Envelope UnwrappedMsg)) : Exec Unit :=
  if expeditedPropDecoratorEnabled then msgs.forM validateMsg else pure ()

end GovExpeditedProposalsDecorator

section Gate
open GovExpeditedProposalsDecorator

/-- The proposal has messages and all are of whitelisted types. -/
def MsgSubmitProposal.complies (prop : MsgSubmitProposal) : Bool :=
  prop.messages ≠ [] ∧ ∀ message ∈ prop.messages, isWhitelisted message.typeUrl = true

def UnwrappedMsg.complies : UnwrappedMsg → Bool
  | .submitProposal prop => !prop.expedited || prop.complies
  | .other => true

/-- Every expedited proposal below wrappers of the given depths complies. -/
def Complies (depths : Set ℕ) (msgs : List (Envelope UnwrappedMsg)) : Prop :=
  ∀ e ∈ msgs, e.Below depths (fun msg => msg.complies = true)

/-- The type that the decorator looks up: the content's, where the message is legacy. -/
def ProposalMessage.checkedType? : ProposalMessage → Option String
  | .execLegacyContent content => content
  | .other typeUrl => some typeUrl

/-- An expedited proposal without wrapper is empty, or has a message whose type is
not in the whitelist or missing. -/
def RefusesUnwrapped (msgs : List (Envelope UnwrappedMsg)) : Prop :=
  ∃ prop, .leaf (.submitProposal prop) ∈ msgs ∧ prop.expedited = true ∧ (prop.messages = [] ∨
    ∃ message ∈ prop.messages, ¬ ∃ typeUrl ∈ expeditedPropsWhitelist,
      message.checkedType? = some typeUrl)

/-- No expedited proposal without wrapper holds legacy content. -/
def NoLegacyContent (msgs : List (Envelope UnwrappedMsg)) : Prop :=
  ∀ prop, .leaf (.submitProposal prop) ∈ msgs → prop.expedited = true →
    ∀ content, .execLegacyContent content ∉ prop.messages

theorem complies_iff {prop : MsgSubmitProposal} : prop.complies = true ↔
    prop.messages ≠ [] ∧ ∀ message ∈ prop.messages, isWhitelisted message.typeUrl = true := by
  simp [MsgSubmitProposal.complies]

theorem returns_validateMessage_iff {message : ProposalMessage} :
    Returns (validateMessage message) ↔
      ∃ typeUrl ∈ expeditedPropsWhitelist, message.checkedType? = some typeUrl := by
  cases message with
  | other typeUrl =>
      simp [validateMessage, isWhitelisted, ProposalMessage.checkedType?, Returns]
  | execLegacyContent content =>
      cases content with
      | none => simp [validateMessage, ProposalMessage.checkedType?, Returns, panics]
      | some typeUrl =>
          simp [validateMessage, isWhitelisted, ProposalMessage.checkedType?, Returns]

theorem returns_validateExpeditedGovProp_iff {prop : MsgSubmitProposal} :
    Returns (validateExpeditedGovProp prop) ↔ prop.messages ≠ [] ∧
      ∀ message ∈ prop.messages, ∃ typeUrl ∈ expeditedPropsWhitelist,
        message.checkedType? = some typeUrl := by
  simp only [validateExpeditedGovProp, returns_bind, ensure_eq_ok, returns_forM_iff,
    returns_validateMessage_iff, exists_const]

theorem returns_anteHandle_unwrapped_iff {msgs : List (Envelope UnwrappedMsg)} :
    Returns (anteHandle msgs) ↔ ¬ RefusesUnwrapped msgs := by
  simp only [anteHandle, expeditedPropDecoratorEnabled, if_true, returns_forM_iff]
  constructor
  · rintro h ⟨prop, hprop, hexpedited, hrefused⟩
    have hvalid := h _ hprop
    rw [validateMsg, if_pos hexpedited, returns_validateExpeditedGovProp_iff] at hvalid
    obtain hempty | ⟨message, hmessage, htype⟩ := hrefused
    · exact hvalid.1 hempty
    · exact htype (hvalid.2 message hmessage)
  · intro h e he
    cases e with
    | wrap es => exact ⟨(), rfl⟩
    | leaf msg =>
        cases msg with
        | other => exact ⟨(), rfl⟩
        | submitProposal prop =>
            rw [validateMsg]
            split_ifs with hexpedited
            · rw [returns_validateExpeditedGovProp_iff]
              constructor
              · intro hempty
                exact h ⟨prop, he, hexpedited, Or.inl hempty⟩
              · intro message hmessage
                by_contra htype
                exact h ⟨prop, he, hexpedited, Or.inr ⟨message, hmessage, htype⟩⟩
            · exact ⟨(), rfl⟩

/-- What a passing transaction has checked of an expedited proposal makes it comply,
unless it holds legacy content. -/
theorem complies_unwrapped_iff {msgs : List (Envelope UnwrappedMsg)} (h : ¬ RefusesUnwrapped msgs) :
    (∀ e ∈ msgs, ∀ msg, e = .leaf msg → msg.complies = true) ↔ NoLegacyContent msgs := by
  constructor
  · intro hcomplies prop hprop hexpedited content hcontent
    have hprops := hcomplies _ hprop _ rfl
    simp only [UnwrappedMsg.complies, hexpedited, Bool.not_true, Bool.false_or,
      complies_iff] at hprops
    have hlisted : isWhitelisted "/cosmos.gov.v1.MsgExecLegacyContent" = true :=
      hprops.2 _ hcontent
    exact absurd hlisted (by decide)
  · rintro hlegacy _ he msg rfl
    cases msg with
    | other => rfl
    | submitProposal prop =>
        cases hexpedited : prop.expedited with
        | false => simp [UnwrappedMsg.complies, hexpedited]
        | true =>
            simp only [UnwrappedMsg.complies, hexpedited, Bool.not_true, Bool.false_or,
              complies_iff]
            refine ⟨fun hempty => h ⟨prop, he, hexpedited, Or.inl hempty⟩, ?_⟩
            intro message hmessage
            by_contra hother
            refine h ⟨prop, he, hexpedited, Or.inr ⟨message, hmessage, ?_⟩⟩
            rintro ⟨typeUrl, hmem, htype⟩
            cases message with
            | execLegacyContent content => exact hlegacy prop he hexpedited content hmessage
            | other other =>
                cases htype
                exact hother (decide_eq_true hmem)

/-- A transaction that passes holds only complying expedited proposals, exactly where
it is refused for one without wrapper, or all below wrappers comply and none without
holds legacy content. -/
theorem complies_iff_nested (msgs : List (Envelope UnwrappedMsg)) :
    (Returns (anteHandle msgs) → Complies Set.univ msgs) ↔
      RefusesUnwrapped msgs ∨ (Complies {k | 1 ≤ k} msgs ∧ NoLegacyContent msgs) := by
  have hsplit : Complies Set.univ msgs ↔
      (∀ e ∈ msgs, ∀ msg, e = .leaf msg → msg.complies = true) ∧ Complies {k | 1 ≤ k} msgs := by
    simp only [Complies, Envelope.below_univ_iff, ← forall₂_and]
  rw [returns_anteHandle_unwrapped_iff, hsplit]
  by_cases h : RefusesUnwrapped msgs
  · simp [h]
  · simp only [h, not_false_iff, true_implies, false_or, complies_unwrapped_iff h]
    exact and_comm

end Gate

namespace WrappedProposal
open GovExpeditedProposalsDecorator

/-- An expedited proposal to change the parameters of the bank, in one wrapper. -/
def wrapped : List (Envelope UnwrappedMsg) :=
  [.wrap [.leaf (.submitProposal ⟨[.other "/cosmos.bank.v1beta1.MsgUpdateParams"], true⟩)]]

/-- The wrapper takes it past the decorator. -/
theorem proposal_escapes : ¬ ∀ msgs, Returns (anteHandle msgs) → Complies Set.univ msgs := by
  intro h
  have hcomplies := h wrapped ⟨(), by decide⟩ _ (List.mem_singleton.mpr rfl)
  rw [← Envelope.all_eq_true] at hcomplies
  exact absurd hcomplies (by decide)

end WrappedProposal

end Kiichain.Ante
