import Kiichain.AnteFeeless

/-!
# The decorators of the oracle module

One keeps oracle votes apart from other messages. The other counts, in `CheckTx`, the
height of the last vote of each validator, and looks at the messages up to the first that
is no vote. It refuses a validator that has no height yet, and only a vote that passes
writes one.
-/

namespace Kiichain.Ante
open GoExec Oracle

section Decorators

variable (codec : Codec) (st : Staking) (s : State)

/-- The check ends at the first message that is no vote. -/
def checkOracleSpamming (currentHeight : ℕ) :
    List TxMsg → SortedMap ValAddress ℕ → Exec (SortedMap ValAddress ℕ)
  | .aggregateExchangeRateVote msg :: msgs, counter => do
    let feederAddr ← codec.accAddressFromBech32 msg.feeder
    let valAddr ← codec.valAddressFromBech32 msg.validator
    validateFeeder codec st s feederAddr valAddr
    let spamPreventionHeight ← require (counter.get? valAddr) (.error "collections: not found")
    ensure (spamPreventionHeight ≠ currentHeight)
      (.error "the validator has already submitted a vote at the current height=%d: conflict")
    checkOracleSpamming currentHeight msgs (counter.insert valAddr currentHeight)
  | _, counter => pure counter

def spammingAnteHandle (isReCheckTx isCheckTx simulate : Bool) (currentHeight : ℕ)
    (msgs : List TxMsg) (counter : SortedMap ValAddress ℕ) : Exec (SortedMap ValAddress ℕ) :=
  if isReCheckTx then pure counter
  else if simulate = false ∧ isCheckTx = true then
    checkOracleSpamming codec st s currentHeight msgs counter
  else pure counter

def TxMsg.isVote : TxMsg → Bool
  | .aggregateExchangeRateVote _ => true
  | .other _ _ => false

def voteAloneAnteHandle (msgs : List TxMsg) : Exec Unit := do
  let (oracleVote, otherMsg) := msgs.foldl
    (fun (found : Bool × Bool) msg => if msg.isVote then (true, found.2) else (found.1, true))
    (false, false)
  ensure (¬ (oracleVote = true ∧ otherMsg = true))
    (.error "oracle votes cannot be in the same tx as other messages: invalid request")

/-- Votes pass alone, and so do other messages. -/
theorem returns_voteAloneAnteHandle_iff {msgs : List TxMsg} : Returns (voteAloneAnteHandle msgs) ↔
    (∀ msg ∈ msgs, msg.isVote = true) ∨ ∀ msg ∈ msgs, msg.isVote = false := by
  have hfound : ∀ found : Bool × Bool, msgs.foldl
      (fun found msg => if msg.isVote then (true, found.2) else (found.1, true)) found =
        (found.1 || msgs.any TxMsg.isVote, found.2 || msgs.any fun msg => !msg.isVote) := by
    induction msgs with
    | nil => simp
    | cons msg msgs ih =>
        intro found
        rw [List.foldl_cons, ih]
        cases hvote : msg.isVote <;> simp [hvote]
  simp only [voteAloneAnteHandle, hfound, Returns, ensure_eq_ok, exists_const, Bool.false_or,
    not_and_or, Bool.not_eq_true]
  rw [or_comm]
  simp [List.any_eq_false]

end Decorators

/-- What `CheckTx` runs on, with the validators and heights of the votes that passed.
Its writes last until the next block, which starts from what was committed. -/
structure CheckState where
  staking : Staking
  oracle : State
  height : ℕ
  committed : SortedMap ValAddress ℕ
  counter : SortedMap ValAddress ℕ
  passed : List (ValAddress × ℕ)

/-- A transaction to check, anything else that happens to the chain, or the next block. -/
inductive CheckEvent
  | checkTx (msgs : List TxMsg)
  | chain (staking : Staking) (oracle : State)
  | nextBlock

section Runs

variable (codec : Codec)

/-- The validators of the votes before the first other message. -/
def checkedVoters : List TxMsg → List ValAddress
  | .aggregateExchangeRateVote msg :: msgs =>
    (codec.valAddressFromBech32 msg.validator).toOption.toList ++ checkedVoters msgs
  | _ => []

/-- The writes of a transaction that is refused are dropped. -/
def stepCheck (c : CheckState) : CheckEvent → Exec CheckState
  | .checkTx msgs =>
    match spammingAnteHandle codec c.staking c.oracle false true false c.height msgs c.counter with
    | .error _ => pure c
    | .ok counter => pure { c with
        counter := counter
        passed := c.passed ++ (checkedVoters codec msgs).map fun voter => (voter, c.height) }
  | .chain staking oracle => pure { c with staking := staking, oracle := oracle }
  | .nextBlock => pure { c with height := c.height + 1, counter := c.committed }

variable {codec} {st : Staking} {s : State} {height : ℕ} {counter counter' : SortedMap ValAddress ℕ}

/-- What a check that passed has seen: distinct validators, each with an older height. -/
theorem checkOracleSpamming_effect {msgs : List TxMsg}
    (h : checkOracleSpamming codec st s height msgs counter = .ok counter') :
    (checkedVoters codec msgs).Nodup ∧
      (∀ voter ∈ checkedVoters codec msgs, ∃ last, counter.get? voter = some last ∧ last ≠ height) ∧
      ∀ voter, counter'.get? voter =
        if voter ∈ checkedVoters codec msgs then some height else counter.get? voter := by
  induction msgs generalizing counter with
  | nil =>
      cases h
      simp [checkedVoters]
  | cons msg msgs ih =>
      cases msg with
      | other staking inner =>
          cases h
          simp [checkedVoters]
      | aggregateExchangeRateVote msg =>
          simp only [checkOracleSpamming, bind_eq_ok, require_eq_ok, ensure_eq_ok] at h
          obtain ⟨_, _, valAddr, hvalidator, _, _, last, hlast, _, hne, hrest⟩ := h
          obtain ⟨hnodup, holder, hcounter⟩ := ih hrest
          have hvoters : checkedVoters codec (.aggregateExchangeRateVote msg :: msgs) =
              valAddr :: checkedVoters codec msgs := by
            simp [checkedVoters, hvalidator, Except.toOption]
          have hfresh : valAddr ∉ checkedVoters codec msgs := by
            intro hmem
            obtain ⟨last', hlast', hne'⟩ := holder valAddr hmem
            rw [SortedMap.get?_insert_self] at hlast'
            exact hne' (Option.some.inj hlast').symm
          rw [hvoters]
          refine ⟨List.nodup_cons.mpr ⟨hfresh, hnodup⟩, fun voter hvoter => ?_, fun voter => ?_⟩
          · obtain rfl | hmem := List.mem_cons.mp hvoter
            · exact ⟨last, hlast, hne⟩
            · obtain ⟨last', hlast', hne'⟩ := holder voter hmem
              have hother : valAddr ≠ voter := fun heq => hfresh (heq ▸ hmem)
              rw [SortedMap.get?_insert_ne _ _ hother] at hlast'
              exact ⟨last', hlast', hne'⟩
          · rw [hcounter voter]
            by_cases hmem : voter ∈ checkedVoters codec msgs
            · simp [hmem]
            · by_cases heq : valAddr = voter
              · simp [heq, SortedMap.get?_insert_self]
              · simp [hmem, Ne.symm heq, SortedMap.get?_insert_ne counter height heq]

/-- No vote has passed twice at a height, those of this height are counted, and only
validators with a committed height have any. -/
structure Limits (committed : SortedMap ValAddress ℕ) (c : CheckState) : Prop where
  same : c.committed = committed
  once : c.passed.Nodup
  counted : ∀ p ∈ c.passed, p.2 ≤ c.height ∧ (p.2 = c.height → c.counter.get? p.1 = some c.height)
  known : ∀ voter, (c.counter.get? voter).isSome = true → (committed.get? voter).isSome = true
  passed_known : ∀ p ∈ c.passed, (committed.get? p.1).isSome = true

theorem limits_step (committed : SortedMap ValAddress ℕ) (c : CheckState) (e : CheckEvent)
    (c' : CheckState) (hc : Limits committed c) (h : stepCheck codec c e = .ok c') :
    Limits committed c' := by
  cases e with
  | chain staking oracle =>
      cases h
      exact ⟨hc.same, hc.once, hc.counted, hc.known, hc.passed_known⟩
  | nextBlock =>
      cases h
      refine ⟨hc.same, hc.once, fun p hp => ⟨?_, fun heq => ?_⟩, fun voter => ?_, hc.passed_known⟩
      · exact (hc.counted p hp).1.trans (Nat.le_succ _)
      · have hle := (hc.counted p hp).1
        dsimp only at heq
        omega
      · dsimp only
        rw [hc.same]
        exact id
  | checkTx msgs =>
      simp only [stepCheck, spammingAnteHandle, Bool.false_eq_true, if_false, and_self,
        if_true] at h
      cases hcheck : checkOracleSpamming codec c.staking c.oracle c.height msgs c.counter with
      | error f =>
          rw [hcheck] at h
          cases h
          exact hc
      | ok counter =>
          rw [hcheck] at h
          cases h
          obtain ⟨hnodup, holder, hcounter⟩ := checkOracleSpamming_effect hcheck
          have hknown : ∀ voter ∈ checkedVoters codec msgs, (committed.get? voter).isSome = true := by
            intro voter hvoter
            obtain ⟨last, hlast, _⟩ := holder voter hvoter
            exact hc.known voter (by rw [hlast]; rfl)
          refine ⟨hc.same, ?_, fun p hp => ?_, fun voter hvoter => ?_, fun p hp => ?_⟩
          · refine List.nodup_append.mpr ⟨hc.once, hnodup.map fun a b hab => (Prod.mk.inj hab).1, ?_⟩
            rintro p hp q hq rfl
            obtain ⟨voter, hvoter, rfl⟩ := List.mem_map.mp hq
            obtain ⟨last, hlast, hne⟩ := holder voter hvoter
            have hsame := (hc.counted _ hp).2 rfl
            rw [hlast] at hsame
            exact hne (Option.some.inj hsame)
          · obtain hp | hp := List.mem_append.mp hp
            · obtain ⟨hle, hsame⟩ := hc.counted p hp
              refine ⟨hle, fun heq => ?_⟩
              rw [hcounter]
              split_ifs
              · rfl
              · exact hsame heq
            · obtain ⟨voter, hvoter, rfl⟩ := List.mem_map.mp hp
              exact ⟨le_rfl, fun _ => by rw [hcounter, if_pos hvoter]⟩
          · rw [hcounter] at hvoter
            split_ifs at hvoter with hmem
            · exact hknown voter hmem
            · exact hc.known voter hvoter
          · obtain hp | hp := List.mem_append.mp hp
            · exact hc.passed_known p hp
            · obtain ⟨voter, hvoter, rfl⟩ := List.mem_map.mp hp
              exact hknown voter hvoter

/-- Over every run of checks, blocks and other changes, a validator's vote passes at most
once at each height, and only where a height was committed for the validator, which no
check does. -/
theorem passed_once (c : CheckState) (hempty : c.passed = []) (hfresh : c.counter = c.committed)
    (es : List CheckEvent) {c' : CheckState} (h : Runs.run (stepCheck codec) c es = .ok c') :
    c'.passed.Nodup ∧ (∀ p ∈ c'.passed, (c.committed.get? p.1).isSome = true) ∧
      c'.committed = c.committed := by
  have hstart : Limits c.committed c := by
    refine ⟨rfl, ?_, ?_, fun voter hvoter => hfresh ▸ hvoter, ?_⟩
    all_goals simp [hempty]
  have hlimits := Runs.run_invariant (limits_step c.committed) hstart h
  exact ⟨hlimits.once, hlimits.passed_known, hlimits.same⟩

end Runs

namespace CountedVote
open UnknownDenom (codec)
open BoundaryBlock (staking)

/-- At height five, where the validator's last height is three. -/
def start (committed : SortedMap ValAddress ℕ) : CheckState :=
  ⟨staking, defaultGenesis ∅, 5, committed, committed, []⟩

def vote : TxMsg := .aggregateExchangeRateVote ⟨"ubtc", "v1", "v1"⟩

def votes : List CheckEvent := [.checkTx [vote], .checkTx [vote], .nextBlock, .checkTx [vote]]

def checked (committed : SortedMap ValAddress ℕ) : Exec CheckState :=
  Runs.run (stepCheck codec) (start committed) votes

theorem checked_passed : (checked ((∅ : SortedMap ValAddress ℕ).insert "v1" 3)).toOption.map
    (fun c => c.passed) = some [("v1", 5), ("v1", 6)] := by decide

/-- Of two votes at a height one passes. -/
theorem one_a_height : ∃ c, checked ((∅ : SortedMap ValAddress ℕ).insert "v1" 3) = .ok c ∧
    c.passed = [("v1", 5), ("v1", 6)] ∧ c.passed.Nodup := by
  obtain ⟨c, hc, hpassed⟩ := exists_of_toOption_map checked_passed
  exact ⟨c, hc, hpassed, (passed_once _ rfl rfl votes hc).1⟩

/-- Without a height no vote passes. -/
example : (checked ∅).toOption.map (fun c => c.passed) = some [] := by decide

end CountedVote

end Kiichain.Ante
