import Kiichain.Coins
import Kiichain.SortedMap

/-!
# The stake check on governance votes

The decorator looks for votes among the messages of a transaction and among the
messages that an `authz.MsgExec` wraps, one wrapper deep. Messages are trees, and
`Within v k m` says that `v` is a node of the tree `m` below `k` wrappers.
-/

namespace Kiichain.Ante
open GoExec FixedPoint

/-- A message as far as the decorator looks at it; `garbled` stands for a wrapped
message that does not unpack. -/
inductive SdkMsg
  | voteV1Beta1 (voter : String)
  | voteV1 (voter : String)
  | exec (msgs : List SdkMsg)
  | garbled
  | other

/-- Staking keeps tokens and shares that are not negative. -/
structure Validator where
  tokens : ℕ
  delegatorShares : LegacyDec
  shares_nonneg : 0 ≤ delegatorShares.raw

structure Delegation where
  validatorAddress : String
  shares : LegacyDec
  shares_nonneg : 0 ≤ shares.raw

/-- What the decorator reads of the chain: validators by their address, and the
delegations of an account in the order of the store. -/
structure StakingView where
  validators : SortedMap String Validator
  delegations : String → List Delegation

structure GovVoteDecorator where
  minStakedTokens : LegacyDec
  valAddressFromBech32 : String → Exec String
  accAddressFromBech32 : String → Exec String

def maxDelegationsChecked : ℕ := 100

/-- The voter of a vote in either version. -/
def SdkMsg.voter? : SdkMsg → Option String
  | .voteV1Beta1 voter => some voter
  | .voteV1 voter => some voter
  | _ => none

def Validator.tokensFromSharesTruncated (v : Validator) (shares : LegacyDec) : Exec LegacyDec := do
  let scaled ← shares.mulInt v.tokens
  scaled.quoTruncate v.delegatorShares

namespace GovVoteDecorator

variable (g : GovVoteDecorator) (st : StakingView)

/-- The tokens of a delegation, or nothing where its validator is gone. -/
def delegationTokens (delegation : Delegation) : Exec (Option LegacyDec) := do
  match g.valAddressFromBech32 delegation.validatorAddress with
  | .error _ => panics "invalid validator address"
  | .ok validatorAddr =>
    match st.validators.get? validatorAddr with
    | none => pure none
    | some validator => do
      let tokens ← validator.tokensFromSharesTruncated delegation.shares
      pure (some tokens)

/-- The iteration stops at enough stake, or at the last delegation that is checked. -/
def iterateDelegations : List Delegation → LegacyDec → ℕ → Exec Bool
  | [], _, _ => pure false
  | delegation :: rest, stakedTokens, delegationCount => do
    match ← g.delegationTokens st delegation with
    | some tokens => do
      let staked ← stakedTokens.add tokens
      if g.minStakedTokens ≤ staked then pure true
      else if maxDelegationsChecked ≤ delegationCount + 1 then pure false
      else iterateDelegations rest staked (delegationCount + 1)
    | none =>
      if maxDelegationsChecked ≤ delegationCount + 1 then pure false
      else iterateDelegations rest stakedTokens (delegationCount + 1)

def checkVoter (voter : String) : Exec Unit := do
  let accAddr ← g.accAddressFromBech32 voter
  if g.minStakedTokens = 0 then pure ()
  else do
    let enoughStake ← g.iterateDelegations st (st.delegations accAddr) 0 0
    ensure (enoughStake = true) (.error "insufficient stake for voting - min required %v")

def validMsg (m : SdkMsg) : Exec Unit :=
  match m.voter? with
  | some voter => g.checkVoter st voter
  | none => pure ()

def unpackAny : SdkMsg → Exec SdkMsg
  | .garbled => fail "cannot unmarshal authz exec msgs"
  | m => pure m

def validAuthz (msgs : List SdkMsg) : Exec Unit :=
  msgs.forM (fun v => do
    let innerMsg ← unpackAny v
    g.validMsg st innerMsg)

def validateVoteMsg : SdkMsg → Exec Unit
  | .exec msgs => g.validAuthz st msgs
  | m => g.validMsg st m

def validateVoteMsgs (msgs : List SdkMsg) : Exec Unit := msgs.forM (g.validateVoteMsg st)

/-- A transaction that passes goes to the next decorator. -/
def anteHandle (simulate : Bool) (msgs : List SdkMsg) : Exec Unit :=
  if simulate then pure () else g.validateVoteMsgs st msgs

end GovVoteDecorator

section Gate

/-- `v` is a node of the tree `m` below `k` wrappers. -/
inductive Within (v : SdkMsg) : ℕ → SdkMsg → Prop
  | here : Within v 0 v
  | wrapped {msgs : List SdkMsg} {m : SdkMsg} {k : ℕ} (hm : m ∈ msgs) (h : Within v k m) :
      Within v (k + 1) (.exec msgs)

namespace GovVoteDecorator

variable (g : GovVoteDecorator) (st : StakingView)

/-- What a delegation is worth, in units of the decimal format. -/
def worth (delegation : Delegation) : ℤ :=
  match g.valAddressFromBech32 delegation.validatorAddress with
  | .error _ => 0
  | .ok validatorAddr =>
    match st.validators.get? validatorAddr with
    | none => 0
    | some validator => (delegation.shares.raw * validator.tokens * legacyFormat.scale).tdiv
        validator.delegatorShares.raw

/-- The stake of an account over its first delegations. -/
def stake (accAddr : String) : ℤ :=
  (((st.delegations accAddr).take maxDelegationsChecked).map (g.worth st)).sum

def HasStake (voter : String) : Prop :=
  ∃ accAddr, g.accAddressFromBech32 voter = .ok accAddr ∧ g.minStakedTokens.raw ≤ g.stake st accAddr

/-- Every vote below wrappers of the given depths has enough stake. -/
def Gated (depths : Set ℕ) (msgs : List SdkMsg) : Prop :=
  ∀ m ∈ msgs, ∀ k ∈ depths, ∀ v, Within v k m → ∀ voter, v.voter? = some voter → g.HasStake st voter

/-- A vote below at most one wrapper fails its check, or a wrapped message does not
unpack. -/
def Refused (msgs : List SdkMsg) : Prop :=
  ∃ m ∈ msgs, Within .garbled 1 m ∨
    ∃ k ≤ 1, ∃ v, Within v k m ∧ ∃ voter, v.voter? = some voter ∧ ¬ Returns (g.checkVoter st voter)

end GovVoteDecorator

end Gate

namespace GovVoteDecorator

variable {g : GovVoteDecorator} {st : StakingView}

theorem worth_nonneg (delegation : Delegation) : 0 ≤ g.worth st delegation := by
  unfold worth
  split
  · exact le_rfl
  · split
    · exact le_rfl
    · rename_i validator _
      apply Int.tdiv_nonneg _ validator.shares_nonneg
      have hshares := delegation.shares_nonneg
      positivity

/-- What the check adds for a delegation is its worth. -/
theorem worth_of_delegationTokens {delegation : Delegation} {tokens : Option LegacyDec}
    (h : g.delegationTokens st delegation = .ok tokens) :
    g.worth st delegation = (tokens.map Decimal.raw).getD 0 := by
  unfold delegationTokens at h
  unfold worth
  cases hparse : g.valAddressFromBech32 delegation.validatorAddress with
  | error f =>
      rw [hparse] at h
      cases h
  | ok validatorAddr =>
      simp only [hparse] at h ⊢
      cases hvalidator : st.validators.get? validatorAddr with
      | none =>
          rw [hvalidator] at h
          cases h
          rfl
      | some validator =>
          simp only [hvalidator, Validator.tokensFromSharesTruncated, bind_eq_ok,
            Decimal.mulInt_eq_ok, Decimal.quoTruncate_eq_ok, pure_eq_ok, Except.ok.injEq] at h
          obtain ⟨_, ⟨_, ⟨_, rfl⟩, _, _, rfl⟩, rfl⟩ := h
          rfl

/-- Enough stake is found only where the delegations that are checked hold it. -/
theorem le_of_iterateDelegations {delegations : List Delegation} {stakedTokens : LegacyDec}
    {delegationCount : ℕ} (hcount : delegationCount < maxDelegationsChecked)
    (h : g.iterateDelegations st delegations stakedTokens delegationCount = .ok true) :
    g.minStakedTokens.raw ≤ stakedTokens.raw +
      ((delegations.take (maxDelegationsChecked - delegationCount)).map (g.worth st)).sum := by
  induction delegations generalizing stakedTokens delegationCount with
  | nil => cases h
  | cons delegation rest ih =>
      obtain ⟨k, hk⟩ : ∃ k, maxDelegationsChecked - delegationCount = k + 1 :=
        ⟨maxDelegationsChecked - delegationCount - 1, by omega⟩
      have hrest : 0 ≤ ((rest.take k).map (g.worth st)).sum := by
        apply List.sum_nonneg
        intro z hz
        obtain ⟨d, _, rfl⟩ := List.mem_map.mp hz
        exact worth_nonneg d
      rw [hk, List.take_succ_cons, List.map_cons, List.sum_cons]
      simp only [iterateDelegations, bind_eq_ok] at h
      obtain ⟨tokens, htokens, h⟩ := h
      have hworth := worth_of_delegationTokens htokens
      cases tokens with
      | none =>
          simp only [Option.map_none, Option.getD_none] at hworth
          simp only at h
          split_ifs at h with hlast
          · cases h
          · have hle := ih (by omega) h
            have hturn : maxDelegationsChecked - (delegationCount + 1) = k := by omega
            rw [hturn] at hle
            omega
      | some tokens =>
          simp only [Option.map_some, Option.getD_some] at hworth
          simp only [bind_eq_ok, Decimal.add_eq_ok] at h
          obtain ⟨staked, ⟨_, rfl⟩, h⟩ := h
          split_ifs at h with henough hlast
          · have hmin : g.minStakedTokens.raw ≤ stakedTokens.raw + tokens.raw := henough
            omega
          · cases h
          · have hle := ih (by omega) h
            have hturn : maxDelegationsChecked - (delegationCount + 1) = k := by omega
            rw [hturn] at hle
            simp only at hle
            omega

theorem hasStake_of_checkVoter {voter : String} (h : Returns (g.checkVoter st voter)) :
    g.HasStake st voter := by
  obtain ⟨_, h⟩ := h
  simp only [checkVoter, bind_eq_ok] at h
  obtain ⟨accAddr, hparse, h⟩ := h
  refine ⟨accAddr, hparse, ?_⟩
  split_ifs at h with hzero
  · rw [hzero]
    apply List.sum_nonneg
    intro z hz
    obtain ⟨d, _, rfl⟩ := List.mem_map.mp hz
    exact worth_nonneg d
  · simp only [bind_eq_ok, ensure_eq_ok] at h
    obtain ⟨_, henough, rfl⟩ := h
    have hle := le_of_iterateDelegations (by decide) henough
    simpa [stake] using hle

theorem returns_validMsg_iff {m : SdkMsg} :
    Returns (g.validMsg st m) ↔ ∀ voter, m.voter? = some voter → Returns (g.checkVoter st voter) := by
  unfold validMsg
  cases m.voter? with
  | none => simp
  | some voter => simp

theorem returns_unpacked_iff {m : SdkMsg} :
    Returns (unpackAny m >>= fun innerMsg => g.validMsg st innerMsg) ↔
      m ≠ .garbled ∧ Returns (g.validMsg st m) := by
  cases m <;> simp [unpackAny, fail]

/-- A transaction passes exactly where nothing in it is refused. -/
theorem returns_anteHandle_iff {msgs : List SdkMsg} :
    Returns (g.anteHandle st false msgs) ↔ ¬ g.Refused st msgs := by
  simp only [anteHandle, Bool.false_eq_true, if_false, validateVoteMsgs, returns_forM_iff]
  constructor
  · intro h hrefused
    obtain ⟨m, hm, hrefused⟩ := hrefused
    have hchecked := h m hm
    obtain hgarbled | ⟨k, hk, v, hwithin, voter, hvoter, hfails⟩ := hrefused
    · cases hgarbled with
      | wrapped hinner hhere =>
          cases hhere
          simp only [validateVoteMsg, validAuthz, returns_forM_iff] at hchecked
          exact (returns_unpacked_iff.mp (hchecked _ hinner)).1 rfl
    · cases hwithin with
      | here =>
          have hvalid : Returns (g.validMsg st m) := by
            cases m with
            | exec msgs => cases hvoter
            | voteV1Beta1 _ | voteV1 _ | garbled | other => exact hchecked
          exact hfails (returns_validMsg_iff.mp hvalid voter hvoter)
      | wrapped hinner hhere =>
          cases hhere with
          | here =>
              simp only [validateVoteMsg, validAuthz, returns_forM_iff] at hchecked
              exact hfails (returns_validMsg_iff.mp
                (returns_unpacked_iff.mp (hchecked _ hinner)).2 voter hvoter)
          | wrapped _ _ => omega
  · intro hclear m hm
    have hvotes : ∀ k ≤ 1, ∀ v, Within v k m → Returns (g.validMsg st v) := by
      intro k hk v hwithin
      rw [returns_validMsg_iff]
      intro voter hvoter
      by_contra hfails
      exact hclear ⟨m, hm, Or.inr ⟨k, hk, v, hwithin, voter, hvoter, hfails⟩⟩
    cases m with
    | exec msgs =>
        simp only [validateVoteMsg, validAuthz, returns_forM_iff]
        intro v hv
        rw [returns_unpacked_iff]
        refine ⟨?_, hvotes 1 le_rfl v (.wrapped hv .here)⟩
        intro hgarbled
        exact hclear ⟨_, hm, Or.inl (hgarbled ▸ .wrapped hv .here)⟩
    | voteV1Beta1 _ | voteV1 _ | garbled | other => exact hvotes 0 (by omega) _ .here

/-- An accepted transaction holds only votes with enough stake, exactly where it is
refused for a message below at most one wrapper or every vote below two or more
wrappers has enough stake. -/
theorem gated_iff (g : GovVoteDecorator) (st : StakingView) (msgs : List SdkMsg) :
    (Returns (g.anteHandle st false msgs) → g.Gated st Set.univ msgs) ↔
      g.Refused st msgs ∨ g.Gated st {k | 2 ≤ k} msgs := by
  rw [returns_anteHandle_iff]
  constructor
  · intro h
    by_cases hrefused : g.Refused st msgs
    · exact Or.inl hrefused
    · exact Or.inr fun m hm k _ => h hrefused m hm k (Set.mem_univ k)
  · intro h hclear m hm k _ v hwithin voter hvoter
    by_cases hdeep : 2 ≤ k
    · exact (h.resolve_left hclear) m hm k hdeep v hwithin voter hvoter
    · apply hasStake_of_checkVoter
      by_contra hfails
      exact hclear ⟨m, hm, Or.inr ⟨k, by omega, v, hwithin, voter, hvoter, hfails⟩⟩

end GovVoteDecorator

namespace WrappedTwice

/-- No account has a delegation, and a vote needs a million base units. -/
def decorator : GovVoteDecorator := ⟨.ofInt 1000000, .ok, .ok⟩

def view : StakingView := ⟨∅, fun _ => []⟩

def twice : List SdkMsg := [.exec [.exec [.voteV1 "alice"]]]

/-- A vote without stake passes below two wrappers. -/
theorem vote_escapes : Returns (decorator.anteHandle view false twice) ∧
    ¬ decorator.Gated view Set.univ twice := by
  refine ⟨⟨(), by decide⟩, ?_⟩
  intro h
  obtain ⟨accAddr, _, hle⟩ := h (.exec [.exec [.voteV1 "alice"]]) (by simp [twice]) 2
    (Set.mem_univ 2) (.voteV1 "alice")
    (.wrapped (List.mem_singleton.mpr rfl) (.wrapped (List.mem_singleton.mpr rfl) .here)) "alice" rfl
  have hmin : ¬ decorator.minStakedTokens.raw ≤ 0 := by decide
  exact hmin hle

end WrappedTwice

end Kiichain.Ante
