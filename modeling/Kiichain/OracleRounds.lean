import Kiichain.Cells
import Kiichain.OracleStoredVotes

/-!
# What the tally reads, told from the messages

The vote and the delegation of an operator and the price of a denomination are
cells of the chain. From the default genesis each holds what the last step that
touched it wrote, so a ballot consists of the votes cast last in its period.
-/

namespace Kiichain.Oracle
open GoExec FixedPoint

section Cells

variable (env : Env)

/-- The step ends a vote period. -/
def ClosesPeriod (c : Chain) (e : Event) : Prop := (∃ o, e = .endBlock o) ∧ c.endsPeriod

/-- The step is a consent of the operator's own account that names `delegate`. -/
def Delegates (a : ValAddress) (delegate : AccAddress) (c : Chain) (e : Event) : Prop :=
  ∃ msg owner, e = .message (.delegateFeedConsent msg) ∧
    env.codec.accAddressFromBech32 msg.validatorOwner = .ok owner ∧
    env.codec.valAddress owner = a ∧
    env.codec.accAddressFromBech32 msg.delegate = .ok delegate ∧
    (c.staking.validators.get? a).isSome

/-- The step ends a period in which the ballot of `d` passes with this rate. -/
def Prices (d : String) (rate : OracleExchangeRate) (c : Chain) (e : Event) : Prop :=
  ClosesPeriod c e ∧ ∃ r value, r ≠ "" ∧ IsReference env.runtime c.staking c.oracle r ∧
    d ∈ passingTargets env.runtime c.staking c.oracle ∧
    writtenRate env.runtime c.staking c.oracle r d = some value ∧
    rate = ⟨value, c.height, GoTime.unixMilli c.time⟩

/-- The step opens the last block of a slash window while `d` is no target. -/
def Retires (d : String) (c : Chain) (e : Event) : Prop :=
  (∃ time, e = .beginBlock time) ∧ c.endsWindow ∧ c.oracle.voteTarget.get? d = none

end Cells

section Frames

variable {slash : Slash} {blk : Block} {st st' : Staking} {s t : State}

/-- The begin blocker removes the rates without a target at the end of a window. -/
theorem get?_rates_beginBlocker (h : beginBlocker slash blk st s = .ok (st', t)) (d : String) :
    t.exchangeRate.get? d =
      if (blk.height + 1) % s.params.slashWindow = 0 ∧ s.voteTarget.get? d = none then none
      else s.exchangeRate.get? d := by
  rw [beginBlocker, bind_eq_ok] at h
  obtain ⟨last, hlast, h⟩ := h
  obtain ⟨_, rfl⟩ := isPeriodLastBlock_eq_ok.mp hlast
  by_cases hwindow : (blk.height + 1) % s.params.slashWindow = 0
  · rw [if_pos (decide_eq_true hwindow), bind_eq_ok] at h
    obtain ⟨⟨st₁, s₁⟩, hreset, h⟩ := h
    rw [slashAndResetCounters, bind_eq_ok] at hreset
    obtain ⟨_, _, hreset⟩ := hreset
    cases hreset
    cases h
    simp only [removeExcessFeeds, SortedMap.get?_foldl_erase, sortStrings_keys,
      SortedMap.mem_keys_iff_isSome, SortedMap.get?_filter, hwindow, true_and]
    cases s.voteTarget.get? d <;> cases s.exchangeRate.get? d <;> simp [Option.filter_some]
  · rw [if_neg (by simpa using hwindow)] at h
    cases h
    rw [if_neg (fun hand => hwindow hand.1)]

/-- A period writes the rates that it has for passing targets and leaves the others. -/
theorem get?_rates_tallyPeriod {rt : Runtime} {o : IterationOrder}
    (h : tallyPeriod rt o blk st s = .ok t) (d : String) :
    (∃ r value, r ≠ "" ∧ IsReference rt st s r ∧ d ∈ passingTargets rt st s ∧
        writtenRate rt st s r d = some value ∧
        t.exchangeRate.get? d = some ⟨value, blk.height, GoTime.unixMilli blk.time⟩) ∨
      (∀ r, r ≠ "" → IsReference rt st s r → d ∈ passingTargets rt st s →
        writtenRate rt st s r d = none) ∧ t.exchangeRate.get? d = s.exchangeRate.get? d := by
  obtain ⟨hrates, _, hnone⟩ | ⟨r, hr, href, hrates, _, _⟩ := tallyPeriod_rates h
  · exact Or.inr ⟨fun r hr href => absurd href (hnone r hr), by rw [hrates]⟩
  · rw [hrates, get?_foldl_writeRate]
    by_cases hd : d ∈ passingTargets rt st s
    · rw [if_pos hd]
      cases hw : writtenRate rt st s r d with
      | some value => exact Or.inl ⟨r, value, hr, href, hd, hw, rfl⟩
      | none =>
          refine Or.inr ⟨fun r' _ href' _ => ?_, rfl⟩
          rw [isReference_unique href' href]
          exact hw
    · rw [if_neg hd]
      exact Or.inr ⟨fun _ _ _ hd' => absurd hd' hd, rfl⟩

/-- The delegations after a message: one more, where it is a consent that passes. -/
theorem delegation_of_deliver {codec : Codec} {authority : String} {msg : Msg}
    (h : deliver codec authority st s msg = .ok t) :
    t.feederDelegation = s.feederDelegation ∧ (∀ m, msg ≠ .delegateFeedConsent m) ∨
      ∃ m owner delegate, msg = .delegateFeedConsent m ∧
        codec.accAddressFromBech32 m.validatorOwner = .ok owner ∧
        codec.accAddressFromBech32 m.delegate = .ok delegate ∧
        (st.validators.get? (codec.valAddress owner)).isSome ∧
        t = { s with
          feederDelegation := s.feederDelegation.insert (codec.valAddress owner) delegate } := by
  cases msg with
  | aggregateExchangeRateVote m =>
      obtain ⟨_, _, _, _, rfl⟩ := deliver_vote_eq h
      exact Or.inl ⟨rfl, by simp⟩
  | delegateFeedConsent m =>
      simp only [deliver, delegateFeedConsent, bind_eq_ok, ensure_eq_ok, exists_const, pure_eq_ok,
        Except.ok.injEq] at h
      obtain ⟨_, _, owner, howner, delegate, hdelegate, hsome, rfl⟩ := h
      exact Or.inr ⟨m, owner, delegate, rfl, howner, hdelegate, hsome, rfl⟩
  | updateParams m =>
      simp only [deliver, updateParams, bind_eq_ok, pure_eq_ok, Except.ok.injEq] at h
      obtain ⟨_, _, _, _, rfl⟩ := h
      exact Or.inl ⟨rfl, by simp⟩

/-- A consent between valid addresses for a known validator is delivered. -/
theorem deliver_consent {codec : Codec} {authority : String} {m : MsgDelegateFeedConsent}
    {owner delegate : AccAddress} (howner : codec.accAddressFromBech32 m.validatorOwner = .ok owner)
    (hdelegate : codec.accAddressFromBech32 m.delegate = .ok delegate)
    (hsome : (st.validators.get? (codec.valAddress owner)).isSome) :
    deliver codec authority st s (.delegateFeedConsent m) = .ok { s with
      feederDelegation := s.feederDelegation.insert (codec.valAddress owner) delegate } := by
  simp only [deliver, MsgDelegateFeedConsent.validateBasic, delegateFeedConsent, howner, hdelegate,
    reworded, ok_bind, ensure_of hsome]
  rfl

end Frames

section Steps

variable {env : Env} {c c' : Chain} {e : Event}

/-- What a step makes of the votes: nothing, a vote more, or no votes at all. -/
theorem step_votes (h : step env c e = .ok c') :
    (∃ a vote, Casts env a vote c e ∧ ¬ ClosesPeriod c e ∧ c'.oracle.aggregateExchangeRateVote =
        c.oracle.aggregateExchangeRateVote.insert a vote) ∨
      (∀ a vote, ¬ Casts env a vote c e) ∧ (ClosesPeriod c e ∧
          c'.oracle.aggregateExchangeRateVote = ∅ ∨ ¬ ClosesPeriod c e ∧
          c'.oracle.aggregateExchangeRateVote = c.oracle.aggregateExchangeRateVote) := by
  have hother : (∀ msg, e ≠ .message msg) → ∀ a vote, ¬ Casts env a vote c e := by
    rintro hne a vote ⟨msg, _, he, _⟩
    exact hne _ he
  cases e with
  | stake st =>
      cases h
      exact Or.inr ⟨hother (by simp), Or.inr ⟨by simp [ClosesPeriod], rfl⟩⟩
  | message msg =>
      have hopen : ¬ ClosesPeriod c (.message msg) := by simp [ClosesPeriod]
      cases h
      obtain ⟨hfail, heq⟩ | heq := rolledBack_cases c.oracle
        (deliver env.codec env.authority c.staking c.oracle msg)
      · refine Or.inr ⟨?_, Or.inr ⟨hopen, by simp only [heq]⟩⟩
        rintro a vote ⟨m, feeder, hmsg, _, _, _, hdeliver⟩
        cases hmsg
        exact hfail ⟨_, hdeliver⟩
      · cases msg with
        | aggregateExchangeRateVote m =>
            obtain ⟨_, _, hm⟩ := bind_eq_ok.mp heq
            obtain ⟨a, feeder, vote, ha, hfeeder, hmay, _, hset⟩ := storedVote_of_message hm
            refine Or.inl ⟨a, vote, ⟨m, feeder, rfl, ha, hfeeder, hmay, ?_⟩, hopen, ?_⟩
            · rw [← hset]
              exact heq
            · simp only [hset]
        | delegateFeedConsent m | updateParams m =>
            obtain ⟨hvotes, _⟩ | ⟨_, hmsg, _⟩ := deliver_cases heq
            · refine Or.inr ⟨?_, Or.inr ⟨hopen, hvotes⟩⟩
              rintro a vote ⟨_, _, hmsg, _⟩
              cases hmsg
            · cases hmsg
  | beginBlock time =>
      simp only [step, bind_eq_ok, pure_eq_ok, Except.ok.injEq] at h
      obtain ⟨_, _, ⟨st, s⟩, hbegin, rfl⟩ := h
      obtain ⟨rates, counters, rfl, _⟩ := beginBlocker_frame hbegin
      exact Or.inr ⟨hother (by simp), Or.inr ⟨by simp [ClosesPeriod], rfl⟩⟩
  | endBlock o =>
      simp only [step, bind_eq_ok, pure_eq_ok, Except.ok.injEq] at h
      obtain ⟨_, _, s, hend, rfl⟩ := h
      refine Or.inr ⟨hother (by simp), ?_⟩
      have hperiod := (endBlocker_eq_ok.mp hend).2
      split_ifs at hperiod with hlast
      · exact Or.inl ⟨⟨⟨o, rfl⟩, hlast⟩, (tallyPeriod_frame hperiod).2.1⟩
      · exact Or.inr ⟨fun hcloses => hlast hcloses.2, by rw [hperiod]⟩

theorem get?_of_casts {a : ValAddress} {vote : AggregateExchangeRateVote}
    (h : step env c e = .ok c') (hcasts : Casts env a vote c e) :
    c'.oracle.aggregateExchangeRateVote.get? a = some vote := by
  obtain ⟨msg, feeder, rfl, _, _, _, hdeliver⟩ := hcasts
  simp only [step, hdeliver, rolledBack, pure_eq_ok, Except.ok.injEq] at h
  rw [← h]
  exact SortedMap.get?_insert_self _ _ _

/-- What a step makes of the delegations: nothing, or what a consent says. -/
theorem step_delegations (h : step env c e = .ok c') :
    (∃ a delegate, Delegates env a delegate c e ∧
        c'.oracle.feederDelegation = c.oracle.feederDelegation.insert a delegate) ∨
      (∀ a delegate, ¬ Delegates env a delegate c e) ∧
        c'.oracle.feederDelegation = c.oracle.feederDelegation := by
  have hother : (∀ m, e ≠ .message (.delegateFeedConsent m)) →
      ∀ a delegate, ¬ Delegates env a delegate c e := by
    rintro hne a delegate ⟨msg, _, he, _⟩
    exact hne _ he
  cases e with
  | stake st =>
      cases h
      exact Or.inr ⟨hother (by simp), rfl⟩
  | message msg =>
      cases h
      obtain ⟨hfail, heq⟩ | heq := rolledBack_cases c.oracle
        (deliver env.codec env.authority c.staking c.oracle msg)
      · refine Or.inr ⟨?_, by simp only [heq]⟩
        rintro a delegate ⟨m, owner, hmsg, howner, rfl, hdelegate, hsome⟩
        cases hmsg
        exact hfail ⟨_, deliver_consent howner hdelegate hsome⟩
      · obtain ⟨hsame, hne⟩ | ⟨m, owner, delegate, rfl, howner, hdelegate, hsome, hset⟩ :=
          delegation_of_deliver heq
        · exact Or.inr ⟨hother (by simpa using hne), hsame⟩
        · exact Or.inl ⟨_, delegate, ⟨m, owner, rfl, howner, rfl, hdelegate, hsome⟩,
            by simp only [hset]⟩
  | beginBlock time =>
      simp only [step, bind_eq_ok, pure_eq_ok, Except.ok.injEq] at h
      obtain ⟨_, _, ⟨st, s⟩, hbegin, rfl⟩ := h
      obtain ⟨rates, counters, rfl, _⟩ := beginBlocker_frame hbegin
      exact Or.inr ⟨hother (by simp), rfl⟩
  | endBlock o =>
      simp only [step, bind_eq_ok, pure_eq_ok, Except.ok.injEq] at h
      obtain ⟨_, _, s, hend, rfl⟩ := h
      refine Or.inr ⟨hother (by simp), ?_⟩
      have hperiod := (endBlocker_eq_ok.mp hend).2
      split_ifs at hperiod
      · exact (tallyPeriod_frame hperiod).2.2
      · rw [hperiod]

/-- What a step makes of the rate of a denomination. -/
theorem step_rate (h : step env c e = .ok c') (d : String) :
    (∃ rate, Prices env d rate c e ∧ ¬ Retires d c e ∧ c'.oracle.exchangeRate.get? d = some rate) ∨
      (∀ rate, ¬ Prices env d rate c e) ∧ (Retires d c e ∧ c'.oracle.exchangeRate.get? d = none ∨
        ¬ Retires d c e ∧ c'.oracle.exchangeRate.get? d = c.oracle.exchangeRate.get? d) := by
  have hopen : (∀ o, e ≠ .endBlock o) → ∀ rate, ¬ Prices env d rate c e := by
    rintro hne rate ⟨⟨⟨o, he⟩, _⟩, _⟩
    exact hne o he
  have hkeep : (∀ time, e ≠ .beginBlock time) → ¬ Retires d c e := by
    rintro hne ⟨⟨time, he⟩, _⟩
    exact hne time he
  cases e with
  | stake st =>
      cases h
      exact Or.inr ⟨hopen (by simp), Or.inr ⟨hkeep (by simp), rfl⟩⟩
  | message msg =>
      obtain ⟨_, hdelivered⟩ := delivered_message h
      exact Or.inr ⟨hopen (by simp), Or.inr ⟨hkeep (by simp), by rw [hdelivered.exchangeRate]⟩⟩
  | beginBlock time =>
      simp only [step, bind_eq_ok, pure_eq_ok, Except.ok.injEq] at h
      obtain ⟨_, _, ⟨st, s⟩, hbegin, rfl⟩ := h
      refine Or.inr ⟨hopen (by simp), ?_⟩
      have hget := get?_rates_beginBlocker hbegin d
      split_ifs at hget with hretires
      · exact Or.inl ⟨⟨⟨time, rfl⟩, hretires⟩, hget⟩
      · exact Or.inr ⟨fun hr => hretires hr.2, hget⟩
  | endBlock o =>
      simp only [step, bind_eq_ok, pure_eq_ok, Except.ok.injEq] at h
      obtain ⟨_, _, s, hend, rfl⟩ := h
      have hperiod := (endBlocker_eq_ok.mp hend).2
      split_ifs at hperiod with hlast
      · obtain ⟨r, value, hr, href, hd, hw, hget⟩ | ⟨hnone, hsame⟩ := get?_rates_tallyPeriod hperiod d
        · exact Or.inl ⟨_, ⟨⟨⟨o, rfl⟩, hlast⟩, r, value, hr, href, hd, hw, rfl⟩, hkeep (by simp), hget⟩
        · refine Or.inr ⟨?_, Or.inr ⟨hkeep (by simp), hsame⟩⟩
          rintro rate ⟨_, r, value, hr, href, hd, hw, _⟩
          rw [hnone r hr href hd] at hw
          cases hw
      · refine Or.inr ⟨fun rate hrate => hlast hrate.1.2, Or.inr ⟨hkeep (by simp), by rw [hperiod]⟩⟩

theorem prices_unique {d : String} {rate rate' : OracleExchangeRate} (h : Prices env d rate c e)
    (h' : Prices env d rate' c e) : rate = rate' := by
  obtain ⟨_, r, value, _, href, _, hw, rfl⟩ := h
  obtain ⟨_, r', value', _, href', _, hw', rfl⟩ := h'
  obtain rfl := isReference_unique href href'
  obtain rfl := Option.some.inj (hw.symm.trans hw')
  rfl

end Steps

section Cells

variable (env : Env)

/-- The stored vote of an operator: votes write it, and a period end empties it. -/
def voteCell (a : ValAddress) : Runs.Cell (step env) AggregateExchangeRateVote where
  read c := c.oracle.aggregateExchangeRateVote.get? a
  Writes := Casts env a
  Empties := ClosesPeriod
  read_of_writes h hcasts := get?_of_casts h hcasts
  read_of_empties h hcloses := by
    obtain ⟨_, _, _, hopen, _⟩ | ⟨_, ⟨_, hclear⟩ | ⟨hopen, _⟩⟩ := step_votes h
    · exact absurd hcloses hopen
    · rw [hclear]
      rfl
    · exact absurd hcloses hopen
  read_of_untouched h hwrites hopen := by
    obtain ⟨b, w, hcasts, _, hvotes⟩ | ⟨_, ⟨hcloses, _⟩ | ⟨_, hvotes⟩⟩ := step_votes h
    · have hne : b ≠ a := fun heq => hwrites w (heq ▸ hcasts)
      rw [hvotes, SortedMap.get?_insert_ne _ _ hne]
    · exact absurd hcloses hopen
    · rw [hvotes]

/-- The delegation of an operator: consents write it, and nothing empties it. -/
def delegationCell (a : ValAddress) : Runs.Cell (step env) AccAddress where
  read c := c.oracle.feederDelegation.get? a
  Writes := Delegates env a
  Empties _ _ := False
  read_of_writes := by
    rintro delegate c e c' h ⟨msg, owner, rfl, howner, rfl, hdelegate, hsome⟩
    simp only [step, deliver_consent howner hdelegate hsome, rolledBack, pure_eq_ok,
      Except.ok.injEq] at h
    rw [← h]
    exact SortedMap.get?_insert_self _ _ _
  read_of_empties _ hfalse := hfalse.elim
  read_of_untouched h hwrites _ := by
    obtain ⟨b, delegate, hdelegates, hset⟩ | ⟨_, hsame⟩ := step_delegations h
    · have hne : b ≠ a := fun heq => hwrites delegate (heq ▸ hdelegates)
      rw [hset, SortedMap.get?_insert_ne _ _ hne]
    · rw [hsame]

/-- The stored rate of a denomination: a period in which its ballot passes writes it,
and a window end empties it when it is no target. -/
def rateCell (d : String) : Runs.Cell (step env) OracleExchangeRate where
  read c := c.oracle.exchangeRate.get? d
  Writes := Prices env d
  Empties := Retires d
  read_of_writes h hprices := by
    obtain ⟨rate, hrate, _, hget⟩ | ⟨hnone, _⟩ := step_rate h d
    · rw [hget, prices_unique hrate hprices]
    · exact absurd hprices (hnone _)
  read_of_empties h hretires := by
    obtain ⟨_, _, hkeep, _⟩ | ⟨_, ⟨_, hget⟩ | ⟨hkeep, _⟩⟩ := step_rate h d
    · exact absurd hretires hkeep
    · exact hget
    · exact absurd hretires hkeep
  read_of_untouched h hwrites hkeep := by
    obtain ⟨rate, hrate, _⟩ | ⟨_, ⟨hretires, _⟩ | ⟨_, hsame⟩⟩ := step_rate h d
    · exact absurd hrate (hwrites rate)
    · exact absurd hretires hkeep
    · exact hsame

end Cells

section Runs

variable (env : Env) {height : ℕ} (hheight : height < 2 ^ 63) (st : Staking)
  (denomMetaData : SortedMap String Metadata) (es : List Event) {c : Chain}
  (h : Runs.run (step env) (genesis height st denomMetaData) es = .ok c)

include hheight h in
/-- The ballots of a reachable state: on `d` there is a vote of `a` exactly where `a`
is bonded and the vote it cast last, since the last period end, has that rate for
`d`. Its power is that of now, and no operator has two votes. -/
theorem ballot_of_last_votes (o : IterationOrder) {claims : ClaimMap}
    (hclaims : validatorClaimMap c.staking = .ok claims) {d : String} {b : Ballot}
    (hb : ((organizeBallotByDenom env.runtime o c.oracle claims).get? d).getD [] = b) :
    b.Pairwise (fun v w => v.voter ≠ w.voter) ∧ ∀ v, v ∈ b ↔
      v.denom = d ∧ v.power = c.staking.power v.voter ∧ c.staking.Bonded v.voter ∧
        ∃ vote, (voteCell env v.voter).LastWrote vote (genesis height st denomMetaData) es ∧
          ⟨d, v.exchangeRate⟩ ∈ vote.exchangeRateTuples := by
  rw [validatorClaimMap_eq] at hclaims
  cases hclaims
  have haccepted := (conserved_of_run hheight h).accepted
  have hperm : b.Perm (castOn (claimsOf c.staking) c.oracle d) := by
    rw [← hb, get?_organizeBallotByDenom]
    split_ifs with hnil
    · rw [hnil]
      exact List.Perm.refl _
    · exact env.runtime.sort_perm _
  have hcell : ∀ a vote, c.oracle.aggregateExchangeRateVote.get? a = some vote ↔
      (voteCell env a).LastWrote vote (genesis height st denomMetaData) es :=
    fun a vote => Runs.Cell.read_eq_some_iff_of_empty (k := voteCell env a) rfl h
  refine ⟨?_, fun v => ?_⟩
  · exact hperm.symm.pairwise (castOn_distinct haccepted d) (fun hne => hne.symm)
  · rw [hperm.mem_iff, mem_castOn haccepted, Submitted]
    simp only [hcell]

include h in
/-- The stored rate of a denomination is the one of the last period in which its
ballot passed, unless a window ended after it while the denomination was no target. -/
theorem stored_rate_iff_last_priced (d : String) (rate : OracleExchangeRate) :
    c.oracle.exchangeRate.get? d = some rate ↔
      (rateCell env d).LastWrote rate (genesis height st denomMetaData) es :=
  Runs.Cell.read_eq_some_iff_of_empty (k := rateCell env d) rfl h

end Runs

namespace ThirdBlock

/-- The operator names a delegate, votes in the second block, and the third prices. -/
def voted : List Event :=
  [.beginBlock 0, .message (.delegateFeedConsent ⟨"v1", "f1"⟩), .endBlock .ascending, .beginBlock 0,
    .message (.aggregateExchangeRateVote ⟨"2ubtc", "f1", "v1"⟩)]

def priced : List Event := voted ++ [.endBlock .ascending, .beginBlock 0, .endBlock .ascending]

def env : Env := SecondBlock.env

def start : Chain := SecondBlock.start

def ballot (c : Chain) : Ballot :=
  ((organizeBallotByDenom env.runtime .ascending c.oracle (claimsOf c.staking)).get? "ubtc").getD []

set_option maxRecDepth 20000 in
theorem voted_ballot : (Runs.run (step env) start voted).toOption.map
    (fun c => (ballot c).any (fun v => v.voter = "v1" ∧ v.exchangeRate = .ofInt 2)) =
      some true := by decide

theorem vote_is_last : ∃ c vote, Runs.run (step env) start voted = .ok c ∧
    (voteCell env "v1").LastWrote vote start voted ∧ ⟨"ubtc", .ofInt 2⟩ ∈ vote.exchangeRateTuples := by
  obtain ⟨c, hc, hany⟩ := exists_of_toOption_map voted_ballot
  obtain ⟨v, hv, heq⟩ := List.any_eq_true.mp hany
  obtain ⟨hvoter, hrate⟩ := of_decide_eq_true heq
  obtain ⟨_, hmem⟩ := ballot_of_last_votes env (show 0 < 2 ^ 63 by norm_num) .single ∅ voted hc
    .ascending (validatorClaimMap_eq c.staking) (d := "ubtc") (b := ballot c) rfl
  obtain ⟨_, _, _, vote, hlast, htuple⟩ := (hmem v).mp hv
  rw [hvoter] at hlast
  rw [hrate] at htuple
  exact ⟨c, vote, hc, hlast, htuple⟩

set_option maxRecDepth 20000 in
theorem voted_delegate : (Runs.run (step env) start voted).toOption.map
    (fun c => (c.oracle.feederDelegation.get? "v1", decide (c.staking.Bonded "v1"))) =
      some (some "f1", true) := by decide

set_option maxRecDepth 20000 in
theorem priced_rate : (Runs.run (step env) start priced).toOption.map
    (fun c => c.oracle.exchangeRate.get? "ubtc") = some (some ⟨.ofInt 2, 3, GoTime.unixMilli 0⟩) := by decide

theorem price_is_last : ∃ c, Runs.run (step env) start priced = .ok c ∧
    (rateCell env "ubtc").LastWrote ⟨.ofInt 2, 3, GoTime.unixMilli 0⟩ start priced := by
  obtain ⟨c, hc, hrate⟩ := exists_of_toOption_map priced_rate
  exact ⟨c, hc, (stored_rate_iff_last_priced env .single ∅ priced hc "ubtc" _).mp hrate⟩

end ThirdBlock

end Kiichain.Oracle
