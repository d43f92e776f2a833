import Kiichain.OraclePeriod

/-!
# The rates a period writes

A period that ends normally writes the rate of every passing target whose
tallied median is not zero, and announces each of them with an event.
-/

namespace Kiichain.Oracle
open GoExec FixedPoint

theorem tally_rate {rt : Runtime} {rewardBand : LegacyDec} {b : Ballot} {claims claims' : ClaimMap}
    {rate : LegacyDec} (hb : b.IsSorted) (h : tally rt rewardBand b claims = .ok (rate, claims')) :
    rate = b.median := by
  rw [tally, Ballot.weightedMedianWithAssertion_eq hb, ok_bind] at h
  simp only [bind_eq_ok, pure_eq_ok, Except.ok.injEq, Prod.mk.injEq] at h
  obtain ⟨_, _, _, _, rfl, _⟩ := h
  rfl

section Written

variable (rt : Runtime) (blk : Block) (st : Staking) (s : State)

/-- The rate that a passing denomination gets, if it is written. -/
def writtenRate (r denom : String) : Option LegacyDec :=
  if (tallied rt st s r denom).median.raw = 0 then none
  else (baseRate (referenceOf rt st s r) denom (tallied rt st s r denom).median).toOption

variable {rt blk st s}

theorem baseRate_self (r : String) (x : LegacyDec) :
    baseRate (referenceOf rt st s r) r x = .ok x := if_neg (not_not.mpr rfl)

theorem baseRate_ne {r d : String} (h : d ≠ r) (x : LegacyDec) :
    baseRate (referenceOf rt st s r) d x = (ballotOn rt st s r).median.quo x := if_pos h

theorem tallied_self (r : String) : tallied rt st s r r = ballotOn rt st s r :=
  if_neg (not_not.mpr rfl)

theorem tallied_ne {r d : String} (h : d ≠ r) : tallied rt st s r d =
    (ballotOn rt st s d).toCrossRateWithSort rt (ballotOn rt st s r).toMap := if_pos h

theorem tallied_sorted (r d : String) : (tallied rt st s r d).IsSorted := by
  unfold tallied
  split_ifs
  · exact rt.sort_sorted _
  · exact rt.sort_sorted _

theorem writtenRate_eq_some {r d : String} {rate : LegacyDec} :
    writtenRate rt st s r d = some rate ↔ (tallied rt st s r d).median.raw ≠ 0 ∧
      baseRate (referenceOf rt st s r) d (tallied rt st s r d).median = .ok rate := by
  unfold writtenRate
  split_ifs with h
  · simp [h]
  · cases baseRate (referenceOf rt st s r) d (tallied rt st s r d).median <;>
      simp [Except.toOption, h]

variable (rt blk st s)

/-- The state after a denomination's turn. -/
def writeRate (r : String) (t : State) (denom : String) : State :=
  (writtenRate rt st s r denom).elim t (setBaseExchangeRateWithEvent blk t denom)

def writtenEvents (r : String) (l : List String) : List (String × LegacyDec) :=
  l.filterMap (fun d => (writtenRate rt st s r d).map (fun rate => (d, rate)))

variable {rt blk st s}

theorem tallyDenom_state {p : Pick} (hp : Picked rt st s p) {r d : String}
    (hd : d ∈ passingTargets rt st s) {rewardBand : LegacyDec} {acc acc' : ClaimMap × State}
    (h : tallyDenom rt blk rewardBand (referenceOf rt st s r) p.voteMap acc d = .ok acc') :
    acc'.2 = writeRate rt blk st s r acc.2 d := by
  rw [tallyDenom, votingTally_eq hp hd, bind_eq_ok] at h
  obtain ⟨⟨rate, claims⟩, htally, hrest⟩ := h
  obtain rfl := tally_rate (tallied_sorted r d) htally
  dsimp only at hrest
  split_ifs at hrest with hzero
  · cases hrest
    rw [writeRate, writtenRate, if_pos hzero]
    rfl
  · rw [bind_eq_ok] at hrest
    obtain ⟨rate, hrate, hrest⟩ := hrest
    cases hrest
    rw [writeRate, writtenRate_eq_some.mpr ⟨hzero, hrate⟩]
    rfl

/-- A turn that returned divided by its median, unless that is zero. -/
theorem exists_writtenRate {p : Pick} (hp : Picked rt st s p) {r d : String}
    (hd : d ∈ passingTargets rt st s) {rewardBand : LegacyDec} {acc acc' : ClaimMap × State}
    (h : tallyDenom rt blk rewardBand (referenceOf rt st s r) p.voteMap acc d = .ok acc')
    (hzero : (tallied rt st s r d).median.raw ≠ 0) : ∃ rate, writtenRate rt st s r d = some rate := by
  rw [tallyDenom, votingTally_eq hp hd, bind_eq_ok] at h
  obtain ⟨⟨rate, claims⟩, htally, hrest⟩ := h
  obtain rfl := tally_rate (tallied_sorted r d) htally
  dsimp only at hrest
  rw [if_neg hzero, bind_eq_ok] at hrest
  obtain ⟨rate, hrate, _⟩ := hrest
  exact ⟨rate, writtenRate_eq_some.mpr ⟨hzero, hrate⟩⟩

theorem foldlM_tallyDenom_state {p : Pick} (hp : Picked rt st s p) {r : String}
    {rewardBand : LegacyDec} {acc acc' : ClaimMap × State}
    (h : (passingTargets rt st s).foldlM
      (tallyDenom rt blk rewardBand (referenceOf rt st s r) p.voteMap) acc = .ok acc') :
    acc'.2 = (passingTargets rt st s).foldl (writeRate rt blk st s r) acc.2 :=
  foldlM_proj Prod.snd (fun _ _ hd _ hstep => tallyDenom_state hp hd hstep) h

theorem writeRate_of_none {r d : String} (h : writtenRate rt st s r d = none) (t : State) :
    writeRate rt blk st s r t d = t := by
  rw [writeRate, h]
  rfl

theorem writeRate_of_some {r d : String} {rate : LegacyDec}
    (h : writtenRate rt st s r d = some rate) (t : State) :
    writeRate rt blk st s r t d = setBaseExchangeRateWithEvent blk t d rate := by
  rw [writeRate, h]
  rfl

variable (rt blk st s) in
/-- The loop writes into the exchange rates, and announces in the order of the
denominations. -/
theorem foldl_writeRate_frame (r : String) (l : List String) (t : State) :
    ∃ rates, l.foldl (writeRate rt blk st s r) t = { t with
      exchangeRate := rates
      events := t.events ++ writtenEvents rt st s r l } := by
  induction l generalizing t with
  | nil => exact ⟨t.exchangeRate, by simp [writtenEvents]⟩
  | cons d l ih =>
      rw [List.foldl_cons]
      obtain ⟨rates, heq⟩ := ih (writeRate rt blk st s r t d)
      rw [heq]
      cases hw : writtenRate rt st s r d with
      | none =>
          rw [writeRate_of_none hw]
          exact ⟨rates, by simp [writtenEvents, hw]⟩
      | some rate =>
          rw [writeRate_of_some hw]
          exact ⟨rates, by simp [writtenEvents, hw, setBaseExchangeRateWithEvent,
            setBaseExchangeRateWithDefault]⟩

theorem tallyPassing_frame {p : Pick} (hp : Picked rt st s p) {rewardBand : LegacyDec}
    {claims claims' : ClaimMap} {t : State}
    (h : tallyPassing rt .ascending blk rewardBand p claims s = .ok (claims', t)) :
    ∃ rates events, t = { s with exchangeRate := rates, events := events } := by
  rw [tallyPassing_eq hp] at h
  split_ifs at h
  · have hstate := foldlM_tallyDenom_state hp h
    obtain ⟨rates, hframe⟩ := foldl_writeRate_frame rt blk st s
      p.referenceDenom (passingTargets rt st s) s
    exact ⟨rates, _, hstate.trans hframe⟩
  · cases h
    exact ⟨_, _, rfl⟩

/-- A period touches the rates with their events, the counters and the targets,
clears the votes, and takes a snapshot of what it leaves. -/
theorem tallyPeriod_touches {o : IterationOrder} {t : State} (h : tallyPeriod rt o blk st s = .ok t) :
    ∃ rates events counters voteTarget denomMetaData, t = takePriceSnapshot blk { s with
      exchangeRate := rates
      events := events
      votePenaltyCounter := counters
      aggregateExchangeRateVote := ∅
      voteTarget := voteTarget
      denomMetaData := denomMetaData } := by
  obtain ⟨p, hpick, claims, t₁, hpassing, claims₁, _, t₂, hwhitelist, rfl⟩ :=
    (tallyPeriod_eq_ok rt blk st s o).mp h
  obtain ⟨_, _, rfl⟩ := applyWhitelist_frame hwhitelist
  obtain ⟨_, _, rfl⟩ := tallyPassing_frame (picked_of_pick hpick) hpassing
  obtain ⟨_, hcount⟩ := countVotes_frame .ascending p.voteTargets.size claims₁ _
  rw [clearVotes, hcount]
  exact ⟨_, _, _, _, _, rfl⟩

theorem get?_foldl_writeRate (r : String) (l : List String) (t : State) (d : String) :
    (l.foldl (writeRate rt blk st s r) t).exchangeRate.get? d =
      if d ∈ l then
        (writtenRate rt st s r d).elim (t.exchangeRate.get? d)
          (fun rate => some ⟨rate, blk.height, GoTime.unixMilli blk.time⟩)
      else t.exchangeRate.get? d := by
  induction l generalizing t with
  | nil => rfl
  | cons e l ih =>
      have hfirst : (writeRate rt blk st s r t e).exchangeRate.get? d =
          if d = e then
            (writtenRate rt st s r d).elim (t.exchangeRate.get? d)
              (fun rate => some ⟨rate, blk.height, GoTime.unixMilli blk.time⟩)
          else t.exchangeRate.get? d := by
        cases hw : writtenRate rt st s r e with
        | none =>
            rw [writeRate_of_none hw]
            split_ifs with hde
            · rw [hde, hw]
              rfl
            · rfl
        | some rate =>
            rw [writeRate_of_some hw]
            change (t.exchangeRate.insert e ⟨rate, blk.height, GoTime.unixMilli blk.time⟩).get? d = _
            rw [SortedMap.get?_insert]
            by_cases hde : d = e
            · subst hde
              rw [if_pos rfl, if_pos rfl, hw]
              rfl
            · rw [if_neg hde, if_neg (Ne.symm hde)]
      rw [List.foldl_cons, ih, hfirst]
      by_cases hde : d = e
      · subst hde
        cases writtenRate rt st s r d <;> simp
      · simp [hde]

end Written

section Writes

variable {rt : Runtime} {o : IterationOrder} {blk : Block} {st : Staking} {s t : State}

/-- The step from `s` to `t` announced this rate. -/
def Writes (s t : State) (denom : String) (rate : LegacyDec) : Prop :=
  ∃ new, t.events = s.events ++ new ∧ (denom, rate) ∈ new

theorem writes_iff_mem {new : List (String × LegacyDec)} (h : t.events = s.events ++ new)
    {d : String} {rate : LegacyDec} : Writes s t d rate ↔ (d, rate) ∈ new := by
  constructor
  · rintro ⟨new', h', hmem⟩
    rw [h] at h'
    rwa [List.append_cancel_left h']
  · exact fun hmem => ⟨new, h, hmem⟩

theorem mem_writtenEvents {r d : String} {l : List String} {rate : LegacyDec} :
    (d, rate) ∈ writtenEvents rt st s r l ↔ d ∈ l ∧ writtenRate rt st s r d = some rate := by
  simp only [writtenEvents, List.mem_filterMap, Option.map_eq_some_iff, Prod.mk.injEq]
  constructor
  · rintro ⟨e, he, rate', hw, rfl, rfl⟩
    exact ⟨he, hw⟩
  · rintro ⟨hd, hw⟩
    exact ⟨d, hd, rate, hw, rfl, rfl⟩

/-- What a period changes: the rates of the passing targets when there is a
reference denomination, and otherwise no rate. -/
theorem tallyPeriod_rates (h : tallyPeriod rt o blk st s = .ok t) :
    (t.exchangeRate = s.exchangeRate ∧ t.events = s.events ∧
        ∀ r, r ≠ "" → ¬ IsReference rt st s r) ∨
      ∃ r, r ≠ "" ∧ IsReference rt st s r ∧
        t.exchangeRate =
          ((passingTargets rt st s).foldl (writeRate rt blk st s r) s).exchangeRate ∧
        t.events = s.events ++ writtenEvents rt st s r (passingTargets rt st s) ∧
        ∀ d ∈ passingTargets rt st s, (tallied rt st s r d).median.raw ≠ 0 →
          ∃ rate, writtenRate rt st s r d = some rate := by
  obtain ⟨p, hpick, claims, t₁, hpassing, claims₁, _, t₂, hwhitelist, rfl⟩ :=
    (tallyPeriod_eq_ok rt blk st s o).mp h
  have hp := picked_of_pick hpick
  obtain ⟨_, hsnapshot⟩ := takePriceSnapshot_frame blk t₂
  obtain ⟨_, _, rfl⟩ := applyWhitelist_frame hwhitelist
  obtain ⟨_, hcount⟩ := countVotes_frame .ascending p.voteTargets.size claims₁ t₁
  rw [hsnapshot, clearVotes, hcount]
  rw [tallyPassing_eq hp] at hpassing
  split_ifs at hpassing with hr
  · apply Or.inr
    have hstate := foldlM_tallyDenom_state hp hpassing
    obtain ⟨rates, hframe⟩ := foldl_writeRate_frame rt blk st s
      p.referenceDenom (passingTargets rt st s) s
    dsimp only at hstate
    obtain ⟨hnone, _⟩ | href := hp.reference
    · exact absurd hnone hr
    · refine ⟨p.referenceDenom, hr, href, ?_, ?_, fun d hd hzero => ?_⟩
      · rw [hstate]
      · rw [hstate, hframe]
      · obtain ⟨_, _, hturn⟩ := exists_turn_of_foldlM hpassing hd
        exact exists_writtenRate hp hd hturn hzero
  · cases hpassing
    refine Or.inl ⟨rfl, rfl, fun r hr' href => ?_⟩
    obtain ⟨_, hnil⟩ | href' := hp.reference
    · rw [IsReference, hnil] at href
      exact List.not_mem_nil href.1
    · exact hr (isReference_unique href' href ▸ hr')

/-- A rate is written exactly for the passing targets whose tallied median is
not zero. -/
theorem writes_iff (h : tallyPeriod rt o blk st s = .ok t) {d : String} {rate : LegacyDec} :
    Writes s t d rate ↔ ∃ r, r ≠ "" ∧ IsReference rt st s r ∧ d ∈ passingTargets rt st s ∧
      writtenRate rt st s r d = some rate := by
  obtain ⟨_, hevents, hnone⟩ | ⟨r, hr, href, _, hevents, _⟩ := tallyPeriod_rates h
  · rw [writes_iff_mem (hevents.trans (List.append_nil _).symm)]
    constructor
    · exact fun hmem => absurd hmem List.not_mem_nil
    · rintro ⟨r, hr, href, _⟩
      exact absurd href (hnone r hr)
  · rw [writes_iff_mem hevents, mem_writtenEvents]
    constructor
    · rintro ⟨hd, hw⟩
      exact ⟨r, hr, href, hd, hw⟩
    · rintro ⟨r', _, href', hd, hw⟩
      rw [isReference_unique href href']
      exact ⟨hd, hw⟩

/-- What is announced is what the store holds afterwards. -/
theorem stored_of_writes (h : tallyPeriod rt o blk st s = .ok t) {d : String} {rate : LegacyDec}
    (hw : Writes s t d rate) :
    t.exchangeRate.get? d = some ⟨rate, blk.height, GoTime.unixMilli blk.time⟩ := by
  obtain ⟨r, hr, href, hd, hrate⟩ := (writes_iff h).mp hw
  obtain ⟨_, _, hnone⟩ | ⟨r', _, href', hstore, _, _⟩ := tallyPeriod_rates h
  · exact absurd href (hnone r hr)
  · rw [hstore, get?_foldl_writeRate, if_pos hd, isReference_unique href' href, hrate]
    rfl

theorem isPeriodLastBlock_eq_ok {period : ℕ} {last : Bool} :
    isPeriodLastBlock blk period = .ok last ↔
      period ≠ 0 ∧ last = decide ((blk.height + 1) % period = 0) := by
  simp only [isPeriodLastBlock, bind_eq_ok, ensure_eq_ok, pure_eq_ok, Except.ok.injEq,
    exists_const, @eq_comm _ last]

/-- The end blocker works on the last block of a period and rests otherwise. -/
theorem endBlocker_eq_ok : endBlocker rt o blk st s = .ok t ↔ s.params.votePeriod ≠ 0 ∧
    if (blk.height + 1) % s.params.votePeriod = 0 then tallyPeriod rt o blk st s = .ok t
    else t = s := by
  simp only [endBlocker, bind_eq_ok, isPeriodLastBlock_eq_ok]
  constructor
  · rintro ⟨last, ⟨hperiod, rfl⟩, h⟩
    refine ⟨hperiod, ?_⟩
    by_cases hlast : (blk.height + 1) % s.params.votePeriod = 0
    · rw [if_pos hlast]
      rwa [if_pos (decide_eq_true hlast)] at h
    · rw [if_neg hlast]
      rw [if_neg (by simpa using hlast)] at h
      cases h
      rfl
  · rintro ⟨hperiod, h⟩
    refine ⟨_, ⟨hperiod, rfl⟩, ?_⟩
    by_cases hlast : (blk.height + 1) % s.params.votePeriod = 0
    · rw [if_pos hlast] at h
      rwa [if_pos (decide_eq_true hlast)]
    · rw [if_neg hlast] at h
      rw [if_neg (by simpa using hlast), h, pure_eq_ok]

/-- A period that ends normally writes every rate it has a median for. -/
theorem exists_writes (h : tallyPeriod rt o blk st s = .ok t) {r d : String} (hr : r ≠ "")
    (href : IsReference rt st s r) (hd : d ∈ passingTargets rt st s)
    (hzero : (tallied rt st s r d).median.raw ≠ 0) : ∃ rate, Writes s t d rate := by
  obtain ⟨_, _, hnone⟩ | ⟨r', _, href', _, _, hwritten⟩ := tallyPeriod_rates h
  · exact absurd href (hnone r hr)
  · rw [isReference_unique href' href] at hwritten
    obtain ⟨rate, hrate⟩ := hwritten d hd hzero
    exact ⟨rate, (writes_iff h).mpr ⟨r, hr, href, hd, hrate⟩⟩

theorem not_writes_self {d : String} {rate : LegacyDec} : ¬ Writes s s d rate := by
  rintro ⟨new, heq, hmem⟩
  rw [List.self_eq_append_right.mp heq] at hmem
  exact List.not_mem_nil hmem

theorem writes_endBlocker_iff (h : endBlocker rt o blk st s = .ok t) {d : String}
    {rate : LegacyDec} : Writes s t d rate ↔ (blk.height + 1) % s.params.votePeriod = 0 ∧
      ∃ r, r ≠ "" ∧ IsReference rt st s r ∧ d ∈ passingTargets rt st s ∧
        writtenRate rt st s r d = some rate := by
  have hperiod := (endBlocker_eq_ok.mp h).2
  split_ifs at hperiod with hlast
  · rw [writes_iff hperiod]
    simp [hlast]
  · subst hperiod
    simp [hlast, not_writes_self]

end Writes

end Kiichain.Oracle
