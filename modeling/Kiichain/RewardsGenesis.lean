import Kiichain.RewardsLiveness

/-!
# Export and import of the rewards state

The import restores what was exported. The validation of an exported state reads
the local clock and refuses an end time that lies before it, also that of a
schedule which is paid out.
-/

namespace Kiichain.Rewards
open GoExec FixedPoint

structure GenesisState where
  params : Params
  rewardPool : DecCoins
  releaseSchedule : ReleaseSchedule

/-- The two readings of the local clock that a validation takes. -/
structure GenesisClock where
  endTimeNow : ℤ
  lastReleaseTimeNow : ℤ

namespace DecCoins

def isAnyNegative (m : DecCoins) : Bool := m.entries.any fun e => decide (e.2 < 0)

theorem isAnyNegative_eq_false {m : DecCoins} (h : ∀ d, 0 ≤ (DecCoins.amountOf m d).raw) :
    isAnyNegative m = false := by
  rw [isAnyNegative, List.any_eq_false]
  intro e he hneg
  have hget : m.get? e.1 = some e.2 := SortedMap.get?_eq_some.mpr he
  have hnonneg := h e.1
  rw [DecCoins.amountOf, hget, Option.getD_some] at hnonneg
  have hlt : e.2.raw < (0 : LegacyDec).raw := Decimal.lt_iff.mp (of_decide_eq_true hneg)
  rw [Decimal.raw_zero] at hlt
  omega

end DecCoins

section Validation

variable (clock : GenesisClock)

def validatePool (pool : DecCoins) : Exec Unit :=
  ensure (¬ DecCoins.isAnyNegative pool = true)
    (.error "negative CommunityPool in distribution fee pool, is %v")

namespace ReleaseSchedule

variable (sch : ReleaseSchedule)

def validateGenesisReleased : Exec Unit :=
  if sch.releasedAmount.isZero then pure ()
  else do
    wrapped "invalid released amount: " sch.releasedAmount.validate
    ensure (sch.releasedAmount.denom = sch.totalAmount.denom)
      (.error "released amount denom %s doesn't match total amount denom %s")
    ensure (sch.releasedAmount.amount ≤ sch.totalAmount.amount)
      (.error "released amount %s cannot be greater than total amount %s")

def validateGenesis : Exec Unit := do
  ensure (sch.endTime = 0 ∨ ¬ sch.endTime < clock.endTimeNow)
    (.error "end time %s cannot be in the past")
  ensure (¬ clock.lastReleaseTimeNow < sch.lastReleaseTime)
    (.error "last release time %s cannot be in the future")
  if sch.active then do
    wrapped "invalid total amount: " sch.totalAmount.validate
    ensure (¬ sch.totalAmount.isZero)
      (.error "active reward releaser cannot have zero total amount")
    ensure (sch.endTime ≠ 0) (.error "active reward releaser must have an end time")
    sch.validateGenesisReleased
  else pure ()

end ReleaseSchedule

def GenesisState.validate (gs : GenesisState) : Exec Unit := do
  gs.params.validateBasic
  validatePool gs.rewardPool
  gs.releaseSchedule.validateGenesis clock

end Validation

def defaultGenesisState : GenesisState := ⟨defaultParams, ∅, initialReleaseSchedule⟩

def initGenesis (s : State) (data : GenesisState) : State :=
  { s with
    params := data.params
    rewardPool := data.rewardPool
    releaseSchedule := data.releaseSchedule }

def exportGenesis (s : State) : GenesisState := ⟨s.params, s.rewardPool, s.releaseSchedule⟩

/-- The exported state passes the validation, and a chain that imports it has the
same parameters, pool and schedule. -/
def RoundTrips (clock : GenesisClock) (s : State) : Prop :=
  (exportGenesis s).validate clock = .ok () ∧ ∀ t : State,
    (initGenesis t (exportGenesis s)).params = s.params ∧
    (initGenesis t (exportGenesis s)).rewardPool = s.rewardPool ∧
    (initGenesis t (exportGenesis s)).releaseSchedule = s.releaseSchedule

/-- What the validation asks beyond the soundness of the state and the end time. -/
structure Importable (now : ℤ) (s : State) : Prop where
  named : s.params.tokenDenom ≠ ""
  released_by : s.releaseSchedule.lastReleaseTime ≤ now
  scheduled : s.releaseSchedule.active = true →
    ¬ s.releaseSchedule.totalAmount.isZero = true ∧ s.releaseSchedule.endTime ≠ 0

/-- No time that the event reads is after `now`. -/
def Event.NotAfter (now : ℤ) : Event → Prop
  | .beginBlock blockTime => blockTime ≤ now
  | .changeSchedule ctx _ => ctx.endTimeNow ≤ now ∧ ctx.currentTime ≤ now
  | _ => True

def GenesisClock.NotBefore (now : ℤ) (clock : GenesisClock) : Prop :=
  now ≤ clock.endTimeNow ∧ now ≤ clock.lastReleaseTimeNow

section Invariant

variable {now : ℤ} {k : Keeper} {s s' : State}

theorem importable_defaultGenesis (hnow : 0 ≤ now) (bank : Ledger Account String) :
    Importable now (defaultGenesis bank) where
  named := show ("akii" : String) ≠ "" by decide
  released_by := hnow
  scheduled h := absurd h Bool.false_ne_true

theorem importable_fundPool {msg : MsgFundPool} (hs : Importable now s)
    (h : fundPool k s msg = .ok s') : Importable now s' := by
  simp only [fundPool, fundCommunityPool, bind_eq_ok, pure_eq_ok, Except.ok.injEq] at h
  obtain ⟨_, _, _, _, _, _, _, _, _, _, _, _, rfl⟩ := h
  exact ⟨hs.named, hs.released_by, hs.scheduled⟩

theorem importable_updateParams {msg : MsgUpdateParams} (hs : Importable now s)
    (h : updateParams k s msg = .ok s') : Importable now s' := by
  simp only [updateParams, Params.validateBasic, bind_eq_ok, ensure_eq_ok, pure_eq_ok,
    Except.ok.injEq] at h
  obtain ⟨_, _, _, hnamed, rfl⟩ := h
  exact ⟨hnamed, hs.released_by, hs.scheduled⟩

/-- The checks of a new schedule that its times and its activity pass. -/
theorem validateSchedule_times {ctx : Context} {sch : ReleaseSchedule} {u : Unit}
    (h : validateSchedule ctx s sch = .ok u) :
    sch.endTime ≠ 0 ∧ Returns (validateLastReleaseTime ctx sch) ∧ Returns (validateActive sch) := by
  simp only [validateSchedule, bind_eq_ok, wrapped_eq_ok, ensure_eq_ok, exists_const] at h
  obtain ⟨_, _, _, _, _, hend, _, _, _, hlast, hactive⟩ := h
  exact ⟨hend, ⟨_, hlast⟩, ⟨_, hactive⟩⟩

theorem importable_changeSchedule {ctx : Context} {msg : MsgChangeSchedule} (hnow : 0 ≤ now)
    (hctx : ctx.currentTime ≤ now) (hs : Importable now s)
    (h : changeSchedule k ctx s msg = .ok s') : Importable now s' := by
  simp only [changeSchedule, bind_eq_ok, wrapped_eq_ok, pure_eq_ok, Except.ok.injEq] at h
  obtain ⟨_, _, _, hvalid, _, _, rfl⟩ := h
  obtain ⟨hend, ⟨_, hlast⟩, ⟨_, hactive⟩⟩ := validateSchedule_times hvalid
  refine ⟨hs.named, ?_, fun hrunning => ?_⟩
  · by_cases hzero : msg.schedule.lastReleaseTime = 0
    · exact hzero.trans_le hnow
    · rw [validateLastReleaseTime, if_neg hzero, bind_eq_ok] at hlast
      obtain ⟨_, hpast, _⟩ := hlast
      exact (ensure_eq_ok.mp hpast).trans hctx
  · rw [validateActive, if_pos hrunning, bind_eq_ok] at hactive
    obtain ⟨_, htotal, _⟩ := hactive
    exact ⟨ensure_eq_ok.mp htotal, hend⟩

theorem importable_beginBlocker {blockTime : ℤ} (htime : blockTime ≤ now)
    (hs : Importable now s) (h : beginBlocker k blockTime s = .ok s') : Importable now s' := by
  obtain ⟨sent, sch, t, hadvances, hpaid, rfl⟩ := beginBlocker_advances h
  have hparams : t.params = s.params := by
    cases sent with
    | none => rw [show t = s from hpaid]
    | some c =>
        obtain ⟨_, _, _, _, _, rfl⟩ := release_eq_ok.mp hpaid
        rfl
  have hnamed : t.params.tokenDenom ≠ "" := hparams ▸ hs.named
  cases hadvances with
  | idle _ => exact ⟨hnamed, hs.released_by, hs.scheduled⟩
  | started _ _ => exact ⟨hnamed, htime, hs.scheduled⟩
  | exhausted _ _ _ _ => exact ⟨hnamed, hs.released_by, fun h => absurd h Bool.false_ne_true⟩
  | paid _ _ _ _ _ => exact ⟨hnamed, htime, hs.scheduled⟩

theorem importable_rolledBack {x : Exec State} (hs : Importable now s)
    (h : ∀ t, x = .ok t → Importable now t) : Importable now (rolledBack s x) := by
  obtain ⟨_, hr⟩ | hr := rolledBack_cases s x
  · rw [hr]
    exact hs
  · exact h _ hr

theorem importable_step (hnow : 0 ≤ now) {e : Event} (he : e.NotAfter now)
    (hs : Importable now s) (h : step k s e = .ok s') : Importable now s' := by
  cases e with
  | fundPool msg =>
      cases h
      split_ifs
      · exact importable_rolledBack hs fun _ ht => importable_fundPool hs ht
      · exact hs
  | changeSchedule ctx msg =>
      cases h
      exact importable_rolledBack hs fun _ ht => importable_changeSchedule hnow he.2 hs ht
  | updateParams msg =>
      cases h
      exact importable_rolledBack hs fun _ ht => importable_updateParams hs ht
  | beginBlock blockTime => exact importable_beginBlocker he hs h

end Invariant

section RoundTrip

variable {now : ℤ} {clock : GenesisClock} {s : State}

theorem validateGenesisReleased_returns {sch : ReleaseSchedule} (hw : sch.WellFormed)
    (hactive : sch.active = true) : sch.validateGenesisReleased = .ok () := by
  rw [ReleaseSchedule.validateGenesisReleased]
  split_ifs with hzero
  · rfl
  · have hvalid : sch.releasedAmount.validate = .ok () :=
      Coin.validate_eq_ok.mpr ⟨hw.denom_eq ▸ hw.denom_valid hactive, hw.released_nonneg⟩
    rw [hvalid, show wrapped _ (Except.ok ()) = .ok () from wrapped_eq_ok.mpr rfl, ok_bind,
      ensure_of hw.denom_eq, ok_bind, ensure_of (BoundedInt.le_iff.mpr hw.released_le)]

/-- Of the checks only the one on the end time can refuse an exported schedule. -/
theorem validateGenesis_iff (hs : Sound s) (hi : Importable now s)
    (hclock : now ≤ clock.lastReleaseTimeNow) :
    s.releaseSchedule.validateGenesis clock = .ok () ↔
      s.releaseSchedule.endTime = 0 ∨ ¬ s.releaseSchedule.endTime < clock.endTimeNow := by
  have hlast : ¬ clock.lastReleaseTimeNow < s.releaseSchedule.lastReleaseTime := by
    have hby := hi.released_by
    omega
  rw [ReleaseSchedule.validateGenesis, ensure_of hlast, ok_bind]
  constructor
  · intro h
    obtain ⟨_, hend, _⟩ := bind_eq_ok.mp h
    exact ensure_eq_ok.mp hend
  · intro hend
    rw [ensure_of hend, ok_bind]
    split_ifs with hactive
    · obtain ⟨htotal, hne⟩ := hi.scheduled hactive
      have hw := hs.schedule
      have hvalid : s.releaseSchedule.totalAmount.validate = .ok () :=
        Coin.validate_eq_ok.mpr
          ⟨hw.denom_valid hactive, hw.released_nonneg.trans hw.released_le⟩
      rw [hvalid, show wrapped _ (Except.ok ()) = .ok () from wrapped_eq_ok.mpr rfl, ok_bind,
        ensure_of htotal, ok_bind, ensure_of hne, ok_bind]
      exact validateGenesisReleased_returns hw hactive
    · rfl

theorem roundTrips_iff (hs : Sound s) (hi : Importable now s)
    (hclock : now ≤ clock.lastReleaseTimeNow) :
    RoundTrips clock s ↔
      s.releaseSchedule.endTime = 0 ∨ ¬ s.releaseSchedule.endTime < clock.endTimeNow := by
  have hpool : ¬ DecCoins.isAnyNegative s.rewardPool = true := by
    rw [DecCoins.isAnyNegative_eq_false hs.pool_nonneg]
    exact Bool.false_ne_true
  have hvalidate : (exportGenesis s).validate clock = s.releaseSchedule.validateGenesis clock := by
    rw [GenesisState.validate, exportGenesis, Params.validateBasic, ensure_of hi.named, ok_bind,
      validatePool, ensure_of hpool, ok_bind]
  rw [RoundTrips, hvalidate, validateGenesis_iff hs hi hclock]
  exact and_iff_left fun t => ⟨rfl, rfl, rfl⟩

end RoundTrip

/-- A state exported at `now` round-trips at a later reading of the clock exactly
when its end time is unset or not before that reading. -/
theorem export_roundTrips_iff_not_ended (k : Keeper) (bank : Ledger Account String)
    {es : List Event} {s : State} (h : Runs.run (step k) (defaultGenesis bank) es = .ok s)
    {now : ℤ} (hnow : 0 ≤ now) (hexport : ∀ e ∈ es, e.NotAfter now) {clock : GenesisClock}
    (hclock : clock.NotBefore now) :
    RoundTrips clock s ↔
      s.releaseSchedule.endTime = 0 ∨ ¬ s.releaseSchedule.endTime < clock.endTimeNow := by
  have hsound : Sound s := Runs.run_invariant sound_step (sound_defaultGenesis bank) h
  have himportable : Importable now s :=
    Runs.run_invariant_mem (fun _ e he _ hs ht => importable_step hnow (hexport e he) hs ht)
      (importable_defaultGenesis hnow bank) h
  exact roundTrips_iff hsound himportable hclock.2

namespace FinishedSchedule
open HaltingRun

/-- A schedule with nothing left to release, which the next block deactivates. -/
def events : List Event :=
  [.fundPool ⟨"alice", ⟨"akii", amount⟩⟩,
    .changeSchedule ⟨start - 2000000000, start - 1000000000, start - 1000000000⟩
      ⟨"gov", ⟨⟨"akii", amount⟩, ⟨"akii", amount⟩, start, start - 2000000000, true⟩⟩,
    .beginBlock start]

def clockAt (now : ℤ) : GenesisClock := ⟨now, now⟩

theorem finishes : ∃ s, Runs.run (step keeper) (defaultGenesis bank) events = .ok s ∧
    s.releaseSchedule =
      ⟨⟨"akii", amount⟩, ⟨"akii", amount⟩, start, start - 2000000000, false⟩ := by
  apply exists_of_toOption_map (f := fun s : State => s.releaseSchedule)
  decide

theorem not_after : ∀ e ∈ events, e.NotAfter start := by
  intro e he
  simp only [events, List.mem_cons, List.not_mem_nil, or_false] at he
  obtain rfl | rfl | rfl := he
  · trivial
  · constructor <;> decide
  · exact le_refl start

/-- A second after the end the finished schedule is refused. -/
theorem export_refused_after_end :
    ¬ ∀ (k : Keeper) (bank : Ledger Account String) (es : List Event) (s : State),
      Runs.run (step k) (defaultGenesis bank) es = .ok s → ∀ now : ℤ, 0 ≤ now →
        (∀ e ∈ es, e.NotAfter now) → ∀ clock : GenesisClock, clock.NotBefore now →
          RoundTrips clock s := by
  intro h
  obtain ⟨s, hrun, hsch⟩ := finishes
  have hvalid := (h keeper bank events s hrun start (by decide) not_after
    (clockAt (start + 1000000000)) (by constructor <;> decide)).1
  simp only [GenesisState.validate, exportGenesis, hsch, ReleaseSchedule.validateGenesis,
    bind_eq_ok, ensure_eq_ok] at hvalid
  obtain ⟨_, _, _, _, _, hend, _⟩ := hvalid
  revert hend
  decide

/-- At the end itself it still passes. -/
theorem passes_at_end : ∃ s, Runs.run (step keeper) (defaultGenesis bank) events = .ok s ∧
    RoundTrips (clockAt start) s := by
  obtain ⟨s, hrun, hsch⟩ := finishes
  refine ⟨s, hrun, ?_⟩
  have hclock : (clockAt start).NotBefore start := ⟨le_refl start, le_refl start⟩
  have hiff := export_roundTrips_iff_not_ended keeper bank hrun (by decide : (0 : ℤ) ≤ start)
    not_after hclock
  rw [hiff, hsch]
  exact Or.inr (lt_irrefl start)

end FinishedSchedule

end Kiichain.Rewards
