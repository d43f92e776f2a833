import Kiichain.OracleGenesis
import Kiichain.OracleSnapshots

/-!
# The pruning of price snapshots

Timestamps and the lookback duration are added in 64 bits with a sign. A sum that
leaves them reads as long past, so a snapshot that is still live is removed, with
every older one, when no live snapshot before it stops the walk.
-/

namespace Kiichain.Oracle
open GoExec FixedPoint

section Pruning

variable (blk : Block) (s : State) (snapshot : PriceSnapshot)

/-- The snapshot of a timestamp is not yet older than the lookback duration. -/
def Live (timestamp : ℤ) : Prop :=
  ¬ timestamp + s.params.lookbackDuration < GoTime.unix blk.time

instance (timestamp : ℤ) : Decidable (Live blk s timestamp) := inferInstanceAs (Decidable (¬ _))

/-- The store with the new snapshot, restricted to what is live. -/
def PrunedExactly : Prop :=
  (addPriceSnapshot blk s snapshot).priceSnapshot =
    (s.priceSnapshot.insert snapshot.snapshotTimestamp snapshot).filter
      (fun timestamp _ => decide (Live blk s timestamp))

/-- The sum leaves the signed 64-bit numbers and comes back before the block. -/
def Wraps (timestamp : ℤ) : Prop :=
  2 ^ 63 ≤ timestamp + s.params.lookbackDuration ∧
    timestamp + s.params.lookbackDuration - 2 ^ 64 < GoTime.unix blk.time

/-- The oldest live snapshot, the new one included, is taken for what it is. -/
def OldestLiveFits : Prop :=
  ∀ t ∈ (s.priceSnapshot.insert snapshot.snapshotTimestamp snapshot).keys, Live blk s t →
    (∀ t' ∈ (s.priceSnapshot.insert snapshot.snapshotTimestamp snapshot).keys,
      Live blk s t' → t ≤ t') → ¬ Wraps blk s t

/-- A snapshot is kept under its timestamp, which is a signed 64-bit number. -/
def Stamped (m : SortedMap ℤ PriceSnapshot) : Prop :=
  ∀ t x, m.get? t = some x → x.snapshotTimestamp = t ∧ -2 ^ 63 ≤ t ∧ t < 2 ^ 63

end Pruning

section Walk

variable {blk : Block} {s : State} {snapshot x : PriceSnapshot}

theorem Stamped.insert {m : SortedMap ℤ PriceSnapshot} (h : Stamped m)
    (hlo : -2 ^ 63 ≤ snapshot.snapshotTimestamp) (hhi : snapshot.snapshotTimestamp < 2 ^ 63) :
    Stamped (m.insert snapshot.snapshotTimestamp snapshot) := by
  intro t x hx
  rw [SortedMap.get?_insert] at hx
  split_ifs at hx with ht
  · cases hx
    exact ⟨ht, ht ▸ hlo, ht ▸ hhi⟩
  · exact h t x hx

/-- What the walk takes for expired is expired, or live with a sum that wraps. -/
theorem expired_iff (hlookback : s.params.lookbackDuration < 2 ^ 64)
    (hlo : -2 ^ 63 ≤ x.snapshotTimestamp) (hhi : x.snapshotTimestamp < 2 ^ 63) :
    expired blk s x = true ↔ ¬ Live blk s x.snapshotTimestamp ∨ Wraps blk s x.snapshotTimestamp := by
  have hsum : GoTime.int64 (x.snapshotTimestamp + GoTime.int64 s.params.lookbackDuration) =
      GoTime.int64 (x.snapshotTimestamp + s.params.lookbackDuration) := Int.add_bmod_bmod
  rw [expired, decide_eq_true_eq, hsum, Live, not_not, Wraps]
  by_cases hfits : x.snapshotTimestamp + s.params.lookbackDuration < 2 ^ 63
  · rw [GoTime.int64_of_bounds (by omega) hfits]
    omega
  · rw [← GoTime.int64_sub_two_pow, GoTime.int64_of_bounds (by omega) (by omega)]
    omega

variable (hstored : Stamped (s.priceSnapshot.insert snapshot.snapshotTimestamp snapshot))
  (hlookback : s.params.lookbackDuration < 2 ^ 64)
include hstored

/-- A snapshot leaves the store where the walk finds every one up to it expired. -/
theorem removed_iff {t : ℤ}
    (hx : (s.priceSnapshot.insert snapshot.snapshotTimestamp snapshot).get? t = some x) :
    (addPriceSnapshot blk s snapshot).priceSnapshot.get? t = none ↔
      ∀ t' x', (s.priceSnapshot.insert snapshot.snapshotTimestamp snapshot).get? t' = some x' →
        t' ≤ t → expired blk s x' = true := by
  have hmem := SortedMap.mem_takeWhile_iff (p := fun e => expired blk s e.2)
    (SortedMap.get?_eq_some.mp hx)
  simp only [Prod.forall, ← SortedMap.get?_eq_some] at hmem
  rw [← hmem]
  simp only [addPriceSnapshot, SortedMap.get?_foldl_erase, hx, ite_eq_left_iff, reduceCtorEq,
    imp_false, not_not, List.mem_map]
  constructor
  · rintro ⟨⟨t', x'⟩, he, htime⟩
    have hget := SortedMap.get?_eq_some.mpr ((List.takeWhile_sublist _).subset he)
    obtain rfl : t' = t := (hstored t' x' hget).1.symm.trans htime
    rw [hx] at hget
    cases hget
    exact he
  · intro he
    exact ⟨(t, x), he, (hstored t x hx).1⟩

include hlookback

/-- A snapshot leaves the store where every live one up to it wraps. -/
theorem removed_iff_wraps {t : ℤ}
    (ht : t ∈ (s.priceSnapshot.insert snapshot.snapshotTimestamp snapshot).keys) :
    (addPriceSnapshot blk s snapshot).priceSnapshot.get? t = none ↔
      ∀ t' ∈ (s.priceSnapshot.insert snapshot.snapshotTimestamp snapshot).keys,
        t' ≤ t → Live blk s t' → Wraps blk s t' := by
  obtain ⟨x, hx⟩ := SortedMap.mem_keys.mp ht
  rw [removed_iff hstored hx]
  simp only [SortedMap.mem_keys, forall_exists_index]
  apply forall_congr'
  intro t'
  apply forall_congr'
  intro x'
  apply forall_congr'
  intro hx'
  obtain ⟨rfl, hlo, hhi⟩ := hstored t' x' hx'
  rw [expired_iff hlookback hlo hhi]
  tauto

theorem removed_of_not_live {t : ℤ} (hdead : ¬ Live blk s t)
    (ht : t ∈ (s.priceSnapshot.insert snapshot.snapshotTimestamp snapshot).keys) :
    (addPriceSnapshot blk s snapshot).priceSnapshot.get? t = none := by
  rw [removed_iff_wraps hstored hlookback ht]
  intro t' _ hle hlive
  unfold Live at hdead hlive
  omega

theorem kept_of_oldest_fits (hfits : OldestLiveFits blk s snapshot) {t : ℤ} (hlive : Live blk s t)
    (ht : t ∈ (s.priceSnapshot.insert snapshot.snapshotTimestamp snapshot).keys) :
    (addPriceSnapshot blk s snapshot).priceSnapshot.get? t ≠ none := by
  rw [Ne, removed_iff_wraps hstored hlookback ht]
  intro hwraps
  obtain ⟨t₀, ht₀, hmin⟩ := Finset.exists_min_image
    ((s.priceSnapshot.insert snapshot.snapshotTimestamp snapshot).keys.toFinset.filter
      (fun t => Live blk s t)) id ⟨t, by simp [ht, hlive]⟩
  simp only [Finset.mem_filter, List.mem_toFinset, id_eq, and_imp] at ht₀ hmin
  exact hfits t₀ ht₀.1 ht₀.2 hmin (hwraps t₀ ht₀.1 (hmin t ht hlive) ht₀.2)

theorem prunedExactly_iff : PrunedExactly blk s snapshot ↔ OldestLiveFits blk s snapshot := by
  constructor
  · intro hexact t ht hlive hmin hwraps
    obtain ⟨x, hx⟩ := SortedMap.mem_keys.mp ht
    have hgone := (removed_iff_wraps hstored hlookback ht).mpr
      (fun t' ht' hle hlive' => le_antisymm hle (hmin t' ht' hlive') ▸ hwraps)
    rw [hexact, SortedMap.get?_filter, hx, Option.filter_some, if_pos (by simpa using hlive)] at hgone
    cases hgone
  · intro hfits
    apply SortedMap.ext_get?
    intro t
    rw [SortedMap.get?_filter]
    cases hx : (s.priceSnapshot.insert snapshot.snapshotTimestamp snapshot).get? t with
    | none =>
        rw [Option.filter_none, Option.eq_none_iff_forall_ne_some]
        intro x hkept
        rw [get?_of_addPriceSnapshot hkept] at hx
        cases hx
    | some x =>
        have ht := SortedMap.mem_keys.mpr ⟨x, hx⟩
        rw [Option.filter_some]
        split_ifs with hlive
        · have hkept := kept_of_oldest_fits hstored hlookback hfits (by simpa using hlive) ht
          obtain ⟨y, hy⟩ := Option.ne_none_iff_exists'.mp hkept
          rw [hy, ← get?_of_addPriceSnapshot hy]
          exact hx
        · exact removed_of_not_live hstored hlookback (by simpa using hlive) ht

end Walk

section Reachable

variable {blk : Block} {s t : State} {snapshot : PriceSnapshot}

theorem Stamped.addPriceSnapshot (h : Stamped s.priceSnapshot)
    (hlo : -2 ^ 63 ≤ snapshot.snapshotTimestamp) (hhi : snapshot.snapshotTimestamp < 2 ^ 63) :
    Stamped (addPriceSnapshot blk s snapshot).priceSnapshot :=
  fun t x hx => h.insert hlo hhi t x (get?_of_addPriceSnapshot hx)

/-- The time of a block that a protobuf timestamp can hold. -/
def Representable (time : ℤ) : Prop := 0 ≤ time ∧ time ≤ GoTime.lastTimestamp

instance (time : ℤ) : Decidable (Representable time) := inferInstanceAs (Decidable (_ ∧ _))

theorem representable_zero : Representable 0 := by decide

theorem Representable.unix_bounds {time : ℤ} (h : Representable time) :
    -2 ^ 63 ≤ GoTime.unix time ∧ GoTime.unix time < 2 ^ 63 := by
  obtain ⟨hlo, hhi⟩ := h
  simp only [GoTime.unix, GoTime.lastTimestamp, GoTime.unixEpochSeconds] at *
  omega

theorem Stamped.endBlocker {rt : Runtime} {o : IterationOrder} {st : Staking}
    (hs : Stamped s.priceSnapshot) (htime : Representable blk.time)
    (h : endBlocker rt o blk st s = .ok t) : Stamped t.priceSnapshot := by
  have hperiod := (endBlocker_eq_ok.mp h).2
  split_ifs at hperiod
  · obtain ⟨u, rfl, _, hsnapshot⟩ := tallyPeriod_snapshot hperiod
    intro k x hk
    obtain hold | ⟨rfl, rfl⟩ := get?_takePriceSnapshot hk
    · exact hs k x (hsnapshot ▸ hold)
    · exact ⟨rfl, htime.unix_bounds⟩
  · rw [hperiod]
    exact hs

/-- What a chain starts from: the default store, or an import into an empty one. -/
inductive Started (codec : Codec) : State → Prop
  | default (denomMetaData : SortedMap String Metadata) : Started codec (defaultGenesis denomMetaData)
  | imported (moduleAccount : Option Account) (blk : Block) (s₀ s : State) (data : GenesisState)
      (hempty : EmptyStore s₀)
      (hstamps : ∀ x ∈ data.priceSnapshots,
        -2 ^ 63 ≤ x.snapshotTimestamp ∧ x.snapshotTimestamp < 2 ^ 63)
      (himport : initGenesis codec moduleAccount blk s₀ data = .ok s) : Started codec s

theorem stamped_foldl_addPriceSnapshot {l : List PriceSnapshot} (hs : Stamped s.priceSnapshot)
    (hl : ∀ x ∈ l, -2 ^ 63 ≤ x.snapshotTimestamp ∧ x.snapshotTimestamp < 2 ^ 63) :
    Stamped (l.foldl (Oracle.addPriceSnapshot blk) s).priceSnapshot := by
  apply List.foldlRecOn (motive := fun u : State => Stamped u.priceSnapshot)
  · exact hs
  · intro u hu x hx
    exact hu.addPriceSnapshot (hl x hx).1 (hl x hx).2

theorem foldl_setBaseExchangeRate_priceSnapshot (l : List ExchangeRateTuple) :
    (l.foldl (fun s rate => setBaseExchangeRateWithDefault blk s rate.denom rate.exchangeRate)
      s).priceSnapshot = s.priceSnapshot := by
  apply List.foldlRecOn (motive := fun u : State => u.priceSnapshot = s.priceSnapshot)
  · rfl
  · exact fun u hu _ _ => hu

theorem stamped_of_started {codec : Codec} (h : Started codec s) : Stamped s.priceSnapshot := by
  cases h with
  | default denomMetaData =>
      intro t x hx
      cases hx
  | imported moduleAccount blk s₀ s data hempty hstamps himport =>
      simp only [initGenesis, bind_eq_ok, pure_eq_ok, Except.ok.injEq] at himport
      obtain ⟨_, _, _, _, _, _, _, _, rfl⟩ := himport
      apply stamped_foldl_addPriceSnapshot _ hstamps
      rw [foldl_setBaseExchangeRate_priceSnapshot]
      intro t x hx
      rw [hempty.priceSnapshot] at hx
      cases hx

variable {env : Env} {c c' : Chain}

/-- Snapshots are kept under their timestamps, in a block of a representable time. -/
def Stamps (c : Chain) : Prop := Stamped c.oracle.priceSnapshot ∧ Representable c.time

theorem stamps_step (e : Event) (htimes : ∀ time, e = .beginBlock time → Representable time)
    (h : Stamps c) (hstep : step env c e = .ok c') : Stamps c' := by
  cases e with
  | stake st =>
      cases hstep
      exact h
  | message msg =>
      obtain ⟨hframe, hdelivered⟩ := delivered_message hstep
      rw [hframe, Stamps, hdelivered.priceSnapshot]
      exact h
  | beginBlock time =>
      simp only [step, bind_eq_ok, pure_eq_ok, Except.ok.injEq] at hstep
      obtain ⟨_, _, ⟨st, s⟩, hbegin, rfl⟩ := hstep
      obtain ⟨_, _, rfl, _⟩ := beginBlocker_frame hbegin
      exact ⟨h.1, htimes time rfl⟩
  | endBlock o =>
      simp only [step, bind_eq_ok, pure_eq_ok, Except.ok.injEq] at hstep
      obtain ⟨_, _, s, hend, rfl⟩ := hstep
      exact ⟨h.1.endBlocker h.2 hend, h.2⟩

/-- After a snapshot is added to a reachable store, under any parameters, the store is
the old one with the new snapshot, restricted to what is live, exactly where the oldest
live snapshot plus the lookback duration does not wrap to before the block. -/
theorem pruning_exact_iff {s₀ : State} (hstart : Started env.codec s₀) (height : ℕ) (st : Staking)
    (es : List Event) (htimes : ∀ time, .beginBlock time ∈ es → Representable time)
    (h : Runs.run (step env) { genesis height st ∅ with oracle := s₀ } es = .ok c) (p : Params)
    (hlookback : p.lookbackDuration < 2 ^ 64) (blk : Block) (snapshot : PriceSnapshot)
    (hlo : -2 ^ 63 ≤ snapshot.snapshotTimestamp) (hhi : snapshot.snapshotTimestamp < 2 ^ 63) :
    PrunedExactly blk { c.oracle with params := p } snapshot ↔
      OldestLiveFits blk { c.oracle with params := p } snapshot := by
  have hreached : Stamps c := by
    apply Runs.run_invariant_mem _ _ h
    · intro s e he s' hs hstep
      exact stamps_step e (fun time htime => htimes time (htime ▸ he)) hs hstep
    · exact ⟨stamped_of_started hstart, representable_zero⟩
  exact prunedExactly_iff (hreached.1.insert hlo hhi) hlookback

end Reachable

namespace ShortLookback

def params : Params := { defaultParams with lookbackDuration := 50 }

/-- The instant of a number of unix seconds. -/
def instant (seconds : ℤ) : ℤ := (GoTime.unixEpochSeconds + seconds) * 1000000000

def data : GenesisState := ⟨params, [], [], [], [], [⟨100, []⟩, ⟨160, []⟩], []⟩

def imported : State :=
  { defaultGenesis ∅ with
    params := params
    priceSnapshot := ⟨[(100, ⟨100, []⟩), (160, ⟨160, []⟩)], by decide⟩ }

theorem started : Started BoundaryBlock.codec imported :=
  .imported (some (.module "oracle")) ⟨0, instant 100⟩ (defaultGenesis ∅) imported data
    ⟨rfl, rfl, rfl, rfl, rfl, rfl⟩ (by decide) rfl

/-- A snapshot of 200 seconds removes that of 100 and keeps that of 160. -/
theorem oldest_removed :
    PrunedExactly ⟨1, instant 200⟩ imported ⟨200, []⟩ ∧
      (addPriceSnapshot ⟨1, instant 200⟩ imported ⟨200, []⟩).priceSnapshot.keys = [160, 200] := by
  refine ⟨?_, by decide⟩
  apply (@pruning_exact_iff BoundaryBlock.env _ _ started 0 BoundaryBlock.staking []
    (fun _ h => absurd h List.not_mem_nil) rfl params (by decide) ⟨1, instant 200⟩ ⟨200, []⟩
    (by decide) (by decide)).mpr
  intro t ht _ _ hwraps
  have hsmall : ∀ t ∈ (imported.priceSnapshot.insert 200 ⟨200, []⟩).keys, t + 50 < 2 ^ 63 := by
    decide
  exact absurd hwraps.1 (not_le.mpr (hsmall t ht))

end ShortLookback

namespace LongLookback

/-- Half of what 64 bits without a sign hold. -/
def params : Params := { defaultParams with lookbackDuration := 2 ^ 63 }

def updates : List Event := [.message (.updateParams ⟨"gov", params⟩)]

/-- The new snapshot is removed from an empty store in the block that adds it. -/
theorem new_removed : ∃ c, Runs.run (step BoundaryBlock.env)
    (genesis 0 BoundaryBlock.staking ∅) updates = .ok c ∧ c.oracle.params.validate = .ok () ∧
      Live ⟨1, ShortLookback.instant 100⟩ c.oracle 100 ∧
      (addPriceSnapshot ⟨1, ShortLookback.instant 100⟩ c.oracle ⟨100, []⟩).priceSnapshot = ∅ ∧
      ¬ PrunedExactly ⟨1, ShortLookback.instant 100⟩ c.oracle ⟨100, []⟩ := by
  refine ⟨_, rfl, by decide, by decide, rfl, ?_⟩
  intro hexact
  have hkeys := congrArg SortedMap.keys hexact
  revert hkeys
  decide

end LongLookback

end Kiichain.Oracle
