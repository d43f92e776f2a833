import Kiichain.OraclePeriod

/-!
# Time-weighted average prices

The snapshots are walked from the latest back to the first one outside the
lookback window, and each target's rate is weighed by the seconds since the
snapshot before. The walk touches one denomination an item, so it returns
exactly when the running sum of every target fits.
-/

namespace Kiichain.Oracle
open GoExec FixedPoint

structure OracleTwap where
  denom : String
  twap : LegacyDec
  lookbackSeconds : ℤ
deriving DecidableEq

/-- The maps of the walk: sums of weighed rates, and seconds analysed. -/
structure Weighed where
  twapByDenom : SortedMap String LegacyDec
  durationByDenom : SortedMap String ℤ

section Twaps

variable (targets : SortedMap String Denom) (currentTime lookBack : ℤ)

def weighItem (timeTraversed : ℤ) (acc : Weighed) (item : PriceSnapshotItem) : Exec Weighed :=
  match targets.get? item.denom with
  | none => pure acc
  | some _ => do
    let denomDuration := (acc.durationByDenom.get? item.denom).getD 0
    let weighed ← item.oracleExchangeRate.exchangeRate.mulInt
      (GoTime.int64 (timeTraversed - denomDuration))
    let sum ← ((acc.twapByDenom.get? item.denom).getD 0).add weighed
    pure ⟨acc.twapByDenom.insert item.denom sum,
      acc.durationByDenom.insert item.denom timeTraversed⟩

/-- The walk ends with the first snapshot before the window, which counts from
the start of the window. -/
def weighSnapshots : List PriceSnapshot → Weighed → Exec Weighed
  | [], acc => pure acc
  | snapshot :: rest, acc => do
    let windowStart := GoTime.int64 (currentTime - lookBack)
    if windowStart > snapshot.snapshotTimestamp then
      snapshot.priceSnapshotItems.foldlM
        (weighItem targets (GoTime.int64 (currentTime - windowStart))) acc
    else do
      let acc ← snapshot.priceSnapshotItems.foldlM
        (weighItem targets (GoTime.int64 (currentTime - snapshot.snapshotTimestamp))) acc
      weighSnapshots rest acc

/-- A duration of zero gives zero. -/
def denomTwap (sum : LegacyDec) (duration : ℤ) : LegacyDec :=
  if duration ≠ 0 then ⟨sum.raw.tdiv duration⟩ else 0

def twapOf (acc : Weighed) (denom : String) : OracleTwap :=
  let duration := (acc.durationByDenom.get? denom).getD 0
  ⟨denom, denomTwap ((acc.twapByDenom.get? denom).getD 0) duration, duration⟩

end Twaps

def LookBackValid (s : State) (lookBackSeconds : ℕ) : Prop :=
  ¬ (lookBackSeconds > s.params.lookbackDuration ∨ lookBackSeconds = 0)

instance (s : State) (lookBackSeconds : ℕ) : Decidable (LookBackValid s lookBackSeconds) :=
  inferInstanceAs (Decidable (¬ _))

def validateLookBackSeconds (s : State) (lookBackSeconds : ℕ) : Exec Unit :=
  ensure (LookBackValid s lookBackSeconds)
    (.error "Twap lookback seconds is greater than max lookback duration or less than or equal to 0")

def calculateTwaps (blk : Block) (s : State) (lookBackSeconds : ℕ) : Exec (List OracleTwap) := do
  validateLookBackSeconds s lookBackSeconds
  let acc ← weighSnapshots s.voteTarget (GoTime.unix blk.time) (GoTime.int64 lookBackSeconds)
    (s.priceSnapshot.entries.map Prod.snd).reverse ⟨∅, ∅⟩
  let oracleTwaps := (sortStrings acc.twapByDenom.keys).map (twapOf acc)
  ensure (oracleTwaps ≠ []) (.error "No data for the twap calculation")
  pure oracleTwaps

section Samples

variable (targets : SortedMap String Denom) (currentTime lookBack : ℤ)

/-- The items that the walk meets, each with the seconds to its snapshot. -/
def examined : List PriceSnapshot → List (ℤ × PriceSnapshotItem)
  | [] => []
  | snapshot :: rest =>
    let windowStart := GoTime.int64 (currentTime - lookBack)
    if windowStart > snapshot.snapshotTimestamp then
      snapshot.priceSnapshotItems.map (fun item => (GoTime.int64 (currentTime - windowStart), item))
    else
      snapshot.priceSnapshotItems.map
        (fun item => (GoTime.int64 (currentTime - snapshot.snapshotTimestamp), item)) ++ examined rest

/-- The seconds and rates of one denomination among the items met. -/
def samplesOf (denom : String) (items : List (ℤ × PriceSnapshotItem)) : List (ℤ × ℤ) :=
  (items.filter (fun e => e.2.denom = denom)).map
    (fun e => (e.1, e.2.oracleExchangeRate.exchangeRate.raw))

/-- The weighed sum and the duration after one more sample. -/
def weigh (acc sample : ℤ × ℤ) : ℤ × ℤ :=
  (acc.1 + sample.2 * GoTime.int64 (sample.1 - acc.2), sample.1)

def Weighs (acc sample : ℤ × ℤ) : Prop :=
  Decimal.Fits legacyFormat (sample.2 * GoTime.int64 (sample.1 - acc.2)) ∧
    Decimal.Fits legacyFormat (weigh acc sample).1

instance (acc sample : ℤ × ℤ) : Decidable (Weighs acc sample) :=
  inferInstanceAs (Decidable (_ ∧ _))

/-- No product and no running sum of the samples needs more bits than there are. -/
def SumsFit : ℤ × ℤ → List (ℤ × ℤ) → Prop
  | _, [] => True
  | acc, sample :: rest => Weighs acc sample ∧ SumsFit (weigh acc sample) rest

/-- What the maps hold of one denomination. -/
def Weighed.at (acc : Weighed) (denom : String) : ℤ × ℤ :=
  (((acc.twapByDenom.get? denom).getD 0).raw, (acc.durationByDenom.get? denom).getD 0)

variable {targets currentTime lookBack}

theorem weighSnapshots_eq (l : List PriceSnapshot) (acc : Weighed) :
    weighSnapshots targets currentTime lookBack l acc =
      (examined currentTime lookBack l).foldlM (fun acc e => weighItem targets e.1 acc e.2) acc := by
  induction l generalizing acc with
  | nil => rfl
  | cons snapshot rest ih =>
      unfold weighSnapshots examined
      dsimp only
      split_ifs
      · rw [List.foldlM_map]
      · rw [List.foldlM_append, List.foldlM_map]
        congr 1
        funext acc'
        exact ih acc'

theorem weighItem_of_not_target {item : PriceSnapshotItem} (h : targets.get? item.denom = none)
    (time : ℤ) (acc : Weighed) : weighItem targets time acc item = .ok acc := by
  rw [weighItem, h]
  rfl

/-- On a target, an item returns when its product and sum fit, and weighs in. -/
theorem weighItem_eq_ok {item : PriceSnapshotItem} (h : (targets.get? item.denom).isSome) {time : ℤ}
    {acc acc' : Weighed} : weighItem targets time acc item = .ok acc' ↔
      Weighs (acc.at item.denom) (time, item.oracleExchangeRate.exchangeRate.raw) ∧
      acc' = ⟨acc.twapByDenom.insert item.denom
          ⟨(weigh (acc.at item.denom) (time, item.oracleExchangeRate.exchangeRate.raw)).1⟩,
        acc.durationByDenom.insert item.denom time⟩ := by
  obtain ⟨target, htarget⟩ := Option.isSome_iff_exists.mp h
  rw [weighItem, htarget]
  simp only [bind_eq_ok, Decimal.mulInt_eq_ok, Decimal.add_eq_ok, pure_eq_ok, Except.ok.injEq]
  constructor
  · rintro ⟨_, ⟨hprod, rfl⟩, _, ⟨hsum, rfl⟩, rfl⟩
    exact ⟨⟨hprod, hsum⟩, rfl⟩
  · rintro ⟨⟨hprod, hsum⟩, rfl⟩
    exact ⟨_, ⟨hprod, rfl⟩, _, ⟨hsum, rfl⟩, rfl⟩

theorem at_insert {acc : Weighed} (denom denom' : String) (sum : LegacyDec) (duration : ℤ) :
    Weighed.at ⟨acc.twapByDenom.insert denom sum, acc.durationByDenom.insert denom duration⟩ denom' =
      if denom = denom' then (sum.raw, duration) else acc.at denom' := by
  simp only [Weighed.at, SortedMap.get?_insert]
  split_ifs <;> rfl

theorem samplesOf_cons (denom : String) (e : ℤ × PriceSnapshotItem)
    (items : List (ℤ × PriceSnapshotItem)) : samplesOf denom (e :: items) =
      if e.2.denom = denom then
        (e.1, e.2.oracleExchangeRate.exchangeRate.raw) :: samplesOf denom items
      else samplesOf denom items := by
  unfold samplesOf
  by_cases h : e.2.denom = denom
  · simp [h]
  · simp [h]

/-- The sums of a denomination fit where the first sample weighs in, if it is one of
the denomination, and the sums of the rest fit. -/
theorem sumsFit_cons_iff (acc : Weighed) (e : ℤ × PriceSnapshotItem)
    (items : List (ℤ × PriceSnapshotItem)) (denom : String) :
    SumsFit (acc.at denom) (samplesOf denom (e :: items)) ↔
      (e.2.denom = denom → Weighs (acc.at e.2.denom) (e.1, e.2.oracleExchangeRate.exchangeRate.raw)) ∧
      SumsFit (Weighed.at ⟨acc.twapByDenom.insert e.2.denom
          ⟨(weigh (acc.at e.2.denom) (e.1, e.2.oracleExchangeRate.exchangeRate.raw)).1⟩,
        acc.durationByDenom.insert e.2.denom e.1⟩ denom) (samplesOf denom items) := by
  rw [samplesOf_cons, at_insert]
  by_cases h : e.2.denom = denom
  · subst h
    simp only [if_true, true_implies]
    exact Iff.rfl
  · simp only [h, if_false, false_implies, true_and]

/-- The walk returns exactly when the sums of every target fit. -/
theorem returns_foldlM_weighItem (items : List (ℤ × PriceSnapshotItem)) (acc : Weighed) :
    Returns (items.foldlM (fun acc e => weighItem targets e.1 acc e.2) acc) ↔
      ∀ d, (targets.get? d).isSome → SumsFit (acc.at d) (samplesOf d items) := by
  induction items generalizing acc with
  | nil => simp [samplesOf, SumsFit]
  | cons e items ih =>
      rw [List.foldlM_cons, returns_bind]
      cases htarget : targets.get? e.2.denom with
      | none =>
          have hskip : ∀ d, (targets.get? d).isSome → samplesOf d (e :: items) = samplesOf d items := by
            intro d hd
            rw [samplesOf_cons, if_neg]
            intro heq
            rw [← heq, htarget] at hd
            cases hd
          rw [weighItem_of_not_target htarget]
          simp only [Except.ok.injEq, exists_eq_left', ih acc]
          apply forall_congr'
          intro d
          apply forall_congr'
          intro hd
          rw [hskip d hd]
      | some target =>
          have hsome : (targets.get? e.2.denom).isSome := by rw [htarget]; rfl
          simp only [weighItem_eq_ok hsome, sumsFit_cons_iff]
          constructor
          · rintro ⟨_, ⟨hfits, rfl⟩, hrest⟩ d hd
            exact ⟨fun _ => hfits, (ih _).mp hrest d hd⟩
          · intro hall
            have hself := (hall _ hsome).1 rfl
            exact ⟨_, ⟨hself, rfl⟩, (ih _).mpr fun d hd => (hall d hd).2⟩

/-- A denomination has an entry after the walk when it had one before it, or is
a target with samples. -/
theorem keys_foldlM_weighItem {items : List (ℤ × PriceSnapshotItem)} {acc acc' : Weighed}
    (h : items.foldlM (fun acc e => weighItem targets e.1 acc e.2) acc = .ok acc') (d : String) :
    (acc'.twapByDenom.get? d).isSome ↔ (acc.twapByDenom.get? d).isSome ∨
      (targets.get? d).isSome ∧ samplesOf d items ≠ [] := by
  induction items generalizing acc with
  | nil =>
      cases h
      simp [samplesOf]
  | cons e items ih =>
      rw [List.foldlM_cons, bind_eq_ok] at h
      obtain ⟨acc₁, hturn, hrest⟩ := h
      rw [ih hrest, samplesOf_cons]
      cases htarget : targets.get? e.2.denom with
      | none =>
          rw [weighItem_of_not_target htarget] at hturn
          cases hturn
          by_cases hde : e.2.denom = d
          · subst hde
            simp [htarget]
          · rw [if_neg hde]
      | some target =>
          obtain ⟨_, rfl⟩ := (weighItem_eq_ok (by rw [htarget]; rfl)).mp hturn
          rw [SortedMap.get?_insert]
          by_cases hde : e.2.denom = d
          · subst hde
            simp [htarget]
          · rw [if_neg hde, if_neg hde]

/-- The walk leaves for a target the weighed sum and the duration of its samples. -/
theorem at_foldlM_weighItem {items : List (ℤ × PriceSnapshotItem)} {acc acc' : Weighed}
    (h : items.foldlM (fun acc e => weighItem targets e.1 acc e.2) acc = .ok acc') {d : String}
    (hd : (targets.get? d).isSome) :
    acc'.at d = (samplesOf d items).foldl weigh (acc.at d) := by
  induction items generalizing acc with
  | nil =>
      cases h
      rfl
  | cons e items ih =>
      rw [List.foldlM_cons, bind_eq_ok] at h
      obtain ⟨acc₁, hturn, hrest⟩ := h
      rw [ih hrest, samplesOf_cons]
      by_cases hde : e.2.denom = d
      · subst hde
        obtain ⟨_, rfl⟩ := (weighItem_eq_ok hd).mp hturn
        rw [at_insert, if_pos rfl, if_pos rfl]
        rfl
      · rw [if_neg hde]
        congr 1
        cases htarget : targets.get? e.2.denom with
        | none =>
            rw [weighItem_of_not_target htarget] at hturn
            cases hturn
            rfl
        | some target =>
            obtain ⟨_, rfl⟩ := (weighItem_eq_ok (by rw [htarget]; rfl)).mp hturn
            rw [at_insert, if_neg hde]

variable (targets) in
/-- The walk overflows, or returns: it reports no error. -/
theorem noError_foldlM_weighItem (items : List (ℤ × PriceSnapshotItem)) (acc : Weighed) :
    NoError (items.foldlM (fun acc e => weighItem targets e.1 acc e.2) acc) := by
  apply noError_foldlM
  intro acc e
  unfold weighItem
  split
  · exact noError_pure _
  · apply noError_bind (Decimal.noError_checked _)
    intro weighed
    apply noError_bind (Decimal.noError_checked _)
    intro sum
    exact noError_pure _

end Samples

section Window

variable (blk : Block) (s : State) (lookBackSeconds : ℕ)

def itemsIn : List (ℤ × PriceSnapshotItem) :=
  examined (GoTime.unix blk.time) (GoTime.int64 lookBackSeconds)
    (s.priceSnapshot.entries.map Prod.snd).reverse

/-- The samples of the lookback window: none for a denomination that is not a
target, and none at all for a window that is refused. -/
def samplesIn (denom : String) : List (ℤ × ℤ) :=
  if LookBackValid s lookBackSeconds ∧ (s.voteTarget.get? denom).isSome then
    samplesOf denom (itemsIn blk s lookBackSeconds)
  else []

/-- The weighed sum of the samples of a window, and the seconds they span. -/
def weighed (denom : String) : ℤ × ℤ :=
  (samplesIn blk s lookBackSeconds denom).foldl weigh (0, 0)

def twapIn (denom : String) : OracleTwap :=
  let sum := weighed blk s lookBackSeconds denom
  ⟨denom, denomTwap ⟨sum.1⟩ sum.2, sum.2⟩

/-- No sum over the window overflows. -/
def WindowFits : Prop := ∀ d, SumsFit (0, 0) (samplesIn blk s lookBackSeconds d)

def walk : Exec Weighed :=
  (itemsIn blk s lookBackSeconds).foldlM (fun acc e => weighItem s.voteTarget e.1 acc e.2) ⟨∅, ∅⟩

variable {blk s lookBackSeconds}

theorem samplesIn_of_refused (h : ¬ LookBackValid s lookBackSeconds) (d : String) :
    samplesIn blk s lookBackSeconds d = [] := if_neg (mt And.left h)

theorem samplesIn_of_valid (h : LookBackValid s lookBackSeconds) {d : String}
    (hd : (s.voteTarget.get? d).isSome) :
    samplesIn blk s lookBackSeconds d = samplesOf d (itemsIn blk s lookBackSeconds) :=
  if_pos ⟨h, hd⟩

theorem calculateTwaps_of_refused (h : ¬ LookBackValid s lookBackSeconds) :
    defaulted (calculateTwaps blk s lookBackSeconds) [] = .ok [] := by
  rw [calculateTwaps, validateLookBackSeconds, ensure_of_not h, error_bind]
  rfl

/-- The averages of a walk; that there are none is an error. -/
def averages (acc : Weighed) : Exec (List OracleTwap) := do
  let oracleTwaps := (sortStrings acc.twapByDenom.keys).map (twapOf acc)
  ensure (oracleTwaps ≠ []) (.error "No data for the twap calculation")
  pure oracleTwaps

theorem calculateTwaps_eq_of_valid (h : LookBackValid s lookBackSeconds) :
    calculateTwaps blk s lookBackSeconds = walk blk s lookBackSeconds >>= averages := by
  rw [calculateTwaps, validateLookBackSeconds, ensure_of h, ok_bind, weighSnapshots_eq]
  rfl

theorem defaulted_averages (acc : Weighed) :
    defaulted (averages acc) [] = .ok ((sortStrings acc.twapByDenom.keys).map (twapOf acc)) := by
  unfold averages
  dsimp only
  by_cases hnil : (sortStrings acc.twapByDenom.keys).map (twapOf acc) = []
  · rw [ensure_of_not (not_not.mpr hnil), hnil]
    rfl
  · rw [ensure_of hnil, ok_bind]
    rfl

theorem returns_averages_iff (acc : Weighed) :
    Returns (averages acc) ↔ ∃ d, d ∈ acc.twapByDenom.keys := by
  rw [averages, sortStrings_keys]
  constructor
  · rintro ⟨oracleTwaps, h⟩
    obtain ⟨_, hsome, _⟩ := bind_eq_ok.mp h
    exact List.exists_mem_of_ne_nil _ (mt List.map_eq_nil_iff.mpr (ensure_eq_ok.mp hsome))
  · rintro ⟨d, hd⟩
    have hsome : acc.twapByDenom.keys.map (twapOf acc) ≠ [] :=
      List.ne_nil_of_mem (List.mem_map_of_mem hd)
    rw [ensure_of hsome, ok_bind]
    exact returns_ok _

theorem calculateTwaps_of_valid (h : LookBackValid s lookBackSeconds) :
    defaulted (calculateTwaps blk s lookBackSeconds) [] =
      walk blk s lookBackSeconds >>= fun acc =>
        pure ((sortStrings acc.twapByDenom.keys).map (twapOf acc)) := by
  rw [calculateTwaps_eq_of_valid h]
  have hnoerror := noError_foldlM_weighItem s.voteTarget (itemsIn blk s lookBackSeconds) ⟨∅, ∅⟩
  cases hwalk : walk blk s lookBackSeconds with
  | error e =>
      cases e with
      | error text => exact absurd hwalk (hnoerror text)
      | panic text => rfl
  | ok acc => exact defaulted_averages acc

theorem returns_walk_iff (h : LookBackValid s lookBackSeconds) :
    Returns (walk blk s lookBackSeconds) ↔ WindowFits blk s lookBackSeconds := by
  rw [walk, returns_foldlM_weighItem]
  apply forall_congr'
  intro d
  by_cases hd : (s.voteTarget.get? d).isSome
  · rw [samplesIn_of_valid h hd, forall_prop_of_true hd]
    rfl
  · rw [forall_prop_of_false hd, samplesIn, if_neg (mt And.right hd)]
    rfl

theorem mem_keys_walk (h : LookBackValid s lookBackSeconds) {acc : Weighed}
    (hwalk : walk blk s lookBackSeconds = .ok acc) (d : String) :
    d ∈ acc.twapByDenom.keys ↔ samplesIn blk s lookBackSeconds d ≠ [] := by
  rw [SortedMap.mem_keys, ← Option.isSome_iff_exists, keys_foldlM_weighItem hwalk]
  by_cases hd : (s.voteTarget.get? d).isSome
  · simp [samplesIn_of_valid h hd, hd]
  · simp [samplesIn, hd]

theorem twapOf_walk (h : LookBackValid s lookBackSeconds) {acc : Weighed}
    (hwalk : walk blk s lookBackSeconds = .ok acc) {d : String} (hd : d ∈ acc.twapByDenom.keys) :
    twapOf acc d = twapIn blk s lookBackSeconds d := by
  have htarget : (s.voteTarget.get? d).isSome := by
    by_contra hno
    apply (mem_keys_walk h hwalk d).mp hd
    exact if_neg (mt And.right hno)
  have hat : acc.at d = weighed blk s lookBackSeconds d := by
    rw [at_foldlM_weighItem hwalk htarget, weighed, samplesIn_of_valid h htarget]
    rfl
  have hsum : (acc.twapByDenom.get? d).getD 0 = ⟨(weighed blk s lookBackSeconds d).1⟩ := by
    rw [← hat]
    rfl
  have hduration : (acc.durationByDenom.get? d).getD 0 = (weighed blk s lookBackSeconds d).2 := by
    rw [← hat]
    rfl
  simp only [twapOf, twapIn, hsum, hduration]

/-- With errors taken for an empty list, the call returns exactly when no sum
overflows. -/
theorem returns_calculateTwaps_iff :
    Returns (defaulted (calculateTwaps blk s lookBackSeconds) []) ↔
      WindowFits blk s lookBackSeconds := by
  by_cases h : LookBackValid s lookBackSeconds
  · rw [calculateTwaps_of_valid h, returns_bind_pure, returns_walk_iff h]
  · rw [calculateTwaps_of_refused h]
    apply iff_of_true (returns_ok _)
    intro d
    rw [samplesIn_of_refused h]
    trivial

/-- The averages are those of the denominations that have samples. -/
theorem twaps_eq {twaps : List OracleTwap}
    (h : defaulted (calculateTwaps blk s lookBackSeconds) [] = .ok twaps) :
    ∃ l : List String, twaps = l.map (twapIn blk s lookBackSeconds) ∧
      ∀ d, d ∈ l ↔ samplesIn blk s lookBackSeconds d ≠ [] := by
  by_cases hvalid : LookBackValid s lookBackSeconds
  · rw [calculateTwaps_of_valid hvalid, bind_eq_ok] at h
    obtain ⟨acc, hwalk, hmap⟩ := h
    cases hmap
    refine ⟨acc.twapByDenom.keys, ?_, mem_keys_walk hvalid hwalk⟩
    rw [sortStrings_keys]
    apply List.map_congr_left
    intro d hd
    exact twapOf_walk hvalid hwalk hd
  · rw [calculateTwaps_of_refused hvalid] at h
    cases h
    exact ⟨[], rfl, fun d => by simp [samplesIn_of_refused hvalid]⟩

end Window

end Kiichain.Oracle
