import Kiichain.OracleChain

/-!
# The genesis of the oracle

An import rebuilds the delegations, the counters and the votes as they were
exported. The exchange rates come back with the stamp of the importing block,
the vote targets are in no genesis, and the walk that stores the snapshots drops
the ones that have expired.
-/

namespace Kiichain.Oracle
open GoExec FixedPoint

structure FeederDelegation where
  feederAddress : String
  validatorAddress : String
deriving DecidableEq

/-- The counter is a pointer in the source. -/
structure PenaltyCounter where
  validatorAddress : String
  votePenaltyCounter : Option VotePenaltyCounter
deriving DecidableEq

structure GenesisState where
  params : Params
  exchangeRates : List ExchangeRateTuple
  feederDelegations : List FeederDelegation
  penaltyCounters : List PenaltyCounter
  aggregateExchangeRateVotes : List AggregateExchangeRateVote
  priceSnapshots : List PriceSnapshot
  votePenaltyCounters : List VotePenaltyCounter
deriving DecidableEq

section Import

variable (codec : Codec)

def initFeederDelegation (m : SortedMap ValAddress AccAddress)
    (feederDelegation : FeederDelegation) : Exec (SortedMap ValAddress AccAddress) := do
  let valAddress ← codec.valAddressFromBech32 feederDelegation.validatorAddress
  let feederAddress ← codec.accAddressFromBech32 feederDelegation.feederAddress
  pure (m.insert valAddress feederAddress)

def initPenaltyCounter (m : SortedMap ValAddress VotePenaltyCounter)
    (penaltyCounter : PenaltyCounter) : Exec (SortedMap ValAddress VotePenaltyCounter) := do
  let operator ← codec.valAddressFromBech32 penaltyCounter.validatorAddress
  let counter ← require penaltyCounter.votePenaltyCounter
    (.panic "invalid memory address or nil pointer dereference")
  pure (m.insert operator counter)

def initAggregateExchangeRateVote (m : SortedMap ValAddress AggregateExchangeRateVote)
    (aggregateExchange : AggregateExchangeRateVote) :
    Exec (SortedMap ValAddress AggregateExchangeRateVote) := do
  let valAddress ← codec.valAddressFromBech32 aggregateExchange.voter
  pure (m.insert valAddress aggregateExchange)

/-- The `moduleAccount` is what the account keeper has for the module. -/
def initGenesis (moduleAccount : Option Account) (blk : Block) (s : State) (data : GenesisState) :
    Exec State := do
  let s := { s with params := data.params }
  let feederDelegation ← data.feederDelegations.foldlM (initFeederDelegation codec)
    s.feederDelegation
  let s := { s with feederDelegation := feederDelegation }
  let s := data.exchangeRates.foldl
    (fun s rate => setBaseExchangeRateWithDefault blk s rate.denom rate.exchangeRate) s
  let votePenaltyCounter ← data.penaltyCounters.foldlM (initPenaltyCounter codec)
    s.votePenaltyCounter
  let s := { s with votePenaltyCounter := votePenaltyCounter }
  let votes ← data.aggregateExchangeRateVotes.foldlM (initAggregateExchangeRateVote codec)
    s.aggregateExchangeRateVote
  let s := { s with aggregateExchangeRateVote := votes }
  let s := data.priceSnapshots.foldl (addPriceSnapshot blk) s
  let _ ← require moduleAccount (.panic "oracle module account has not been set")
  pure s

end Import

/-- The counters are exported twice, the second time without their operators. -/
def exportGenesis (s : State) : GenesisState where
  params := s.params
  exchangeRates := s.exchangeRate.entries.map (fun e => ⟨e.1, e.2.exchangeRate⟩)
  feederDelegations := s.feederDelegation.entries.map (fun e => ⟨e.2, e.1⟩)
  penaltyCounters := s.votePenaltyCounter.entries.map (fun e => ⟨e.1, some e.2⟩)
  aggregateExchangeRateVotes := s.aggregateExchangeRateVote.entries.map Prod.snd
  priceSnapshots := s.priceSnapshot.entries.map Prod.snd
  votePenaltyCounters := s.votePenaltyCounter.entries.map Prod.snd

/-- The collections of the module's store. -/
structure SameStore (s t : State) : Prop where
  params : t.params = s.params
  exchangeRate : t.exchangeRate = s.exchangeRate
  feederDelegation : t.feederDelegation = s.feederDelegation
  votePenaltyCounter : t.votePenaltyCounter = s.votePenaltyCounter
  aggregateExchangeRateVote : t.aggregateExchangeRateVote = s.aggregateExchangeRateVote
  voteTarget : t.voteTarget = s.voteTarget
  priceSnapshot : t.priceSnapshot = s.priceSnapshot

structure EmptyStore (s : State) : Prop where
  exchangeRate : s.exchangeRate = ∅
  feederDelegation : s.feederDelegation = ∅
  votePenaltyCounter : s.votePenaltyCounter = ∅
  aggregateExchangeRateVote : s.aggregateExchangeRateVote = ∅
  voteTarget : s.voteTarget = ∅
  priceSnapshot : s.priceSnapshot = ∅

/-- An empty store that imports the exported state at the same block holds it. -/
def RoundTrips (codec : Codec) (blk : Block) (s : State) : Prop :=
  ∀ s₀, EmptyStore s₀ → ∃ t, initGenesis codec (some (.module "oracle")) blk s₀ (exportGenesis s) =
    .ok t ∧ SameStore s t

section Rebuild

variable {codec : Codec} {blk : Block} {s : State}

/-- A loop over exported entries rebuilds the map, where each of its turns
stores the entry. -/
theorem foldlM_rebuild {K V X : Type} [LinearOrder K] (m : SortedMap K V) {g : K × V → X}
    {f : SortedMap K V → X → Exec (SortedMap K V)}
    (h : ∀ acc, ∀ e ∈ m.entries, f acc (g e) = .ok (acc.insert e.1 e.2)) :
    (m.entries.map g).foldlM f ∅ = .ok m := by
  rw [List.foldlM_map]
  have hloop := foldlM_eq_ok_foldl (f := fun acc e => f acc (g e))
    (g := fun (acc : SortedMap K V) e => acc.insert e.1 e.2) h ∅
  rw [hloop, SortedMap.foldl_insert_entries]

/-- What the stored keys and texts are: addresses that parse to themselves, and
snapshots under their time. -/
structure Keyed (codec : Codec) (s : State) : Prop where
  delegations : ∀ a feeder, s.feederDelegation.get? a = some feeder →
    codec.valAddressFromBech32 a = .ok a ∧ codec.accAddressFromBech32 feeder = .ok feeder
  counters : ∀ a counter, s.votePenaltyCounter.get? a = some counter →
    codec.valAddressFromBech32 a = .ok a
  votes : ∀ a vote, s.aggregateExchangeRateVote.get? a = some vote →
    codec.valAddressFromBech32 vote.voter = .ok a
  snapshots : ∀ t snapshot, s.priceSnapshot.get? t = some snapshot →
    snapshot.snapshotTimestamp = t

def restamp (blk : Block) (rate : OracleExchangeRate) : OracleExchangeRate :=
  ⟨rate.exchangeRate, blk.height, GoTime.unixMilli blk.time⟩

theorem foldl_setBaseExchangeRate (l : List (String × OracleExchangeRate)) (u : State) :
    (l.map (fun e => (⟨e.1, e.2.exchangeRate⟩ : ExchangeRateTuple))).foldl
        (fun s rate => setBaseExchangeRateWithDefault blk s rate.denom rate.exchangeRate) u =
      { u with
        exchangeRate := (l.map (fun e => (e.1, restamp blk e.2))).foldl
          (fun m e => m.insert e.1 e.2) u.exchangeRate } := by
  induction l generalizing u with
  | nil => rfl
  | cons e l ih =>
      rw [List.map_cons, List.foldl_cons, ih]
      rfl

/-- What the import leaves before the snapshots. -/
def importCollections (blk : Block) (s s₀ : State) : State :=
  { s₀ with
    params := s.params
    exchangeRate := s.exchangeRate.mapValues (fun _ rate => restamp blk rate)
    feederDelegation := s.feederDelegation
    votePenaltyCounter := s.votePenaltyCounter
    aggregateExchangeRateVote := s.aggregateExchangeRateVote }

def importSnapshots (blk : Block) (s u : State) : State :=
  (s.priceSnapshot.entries.map Prod.snd).foldl (addPriceSnapshot blk) u

theorem initGenesis_exportGenesis (hs : Keyed codec s) {s₀ : State} (h₀ : EmptyStore s₀)
    (moduleAccount : Account) :
    initGenesis codec (some moduleAccount) blk s₀ (exportGenesis s) =
      .ok (importSnapshots blk s (importCollections blk s s₀)) := by
  have hfeeders : (s.feederDelegation.entries.map
      (fun e => (⟨e.2, e.1⟩ : FeederDelegation))).foldlM (initFeederDelegation codec) ∅ =
        .ok s.feederDelegation := by
    apply foldlM_rebuild
    intro acc e he
    obtain ⟨hval, hacc⟩ := hs.delegations e.1 e.2 (SortedMap.get?_eq_some.mpr he)
    rw [initFeederDelegation, hval, ok_bind, hacc]
    rfl
  have hcounters : (s.votePenaltyCounter.entries.map
      (fun e => (⟨e.1, some e.2⟩ : PenaltyCounter))).foldlM (initPenaltyCounter codec) ∅ =
        .ok s.votePenaltyCounter := by
    apply foldlM_rebuild
    intro acc e he
    rw [initPenaltyCounter, hs.counters e.1 e.2 (SortedMap.get?_eq_some.mpr he)]
    rfl
  have hvotes : (s.aggregateExchangeRateVote.entries.map Prod.snd).foldlM
      (initAggregateExchangeRateVote codec) ∅ = .ok s.aggregateExchangeRateVote := by
    apply foldlM_rebuild
    intro acc e he
    rw [initAggregateExchangeRateVote, hs.votes e.1 e.2 (SortedMap.get?_eq_some.mpr he)]
    rfl
  have hrates : (s.exchangeRate.entries.map (fun e => (e.1, restamp blk e.2))).foldl
      (fun m e => m.insert e.1 e.2) ∅ = s.exchangeRate.mapValues (fun _ rate => restamp blk rate) :=
    SortedMap.foldl_insert_entries (s.exchangeRate.mapValues (fun _ rate => restamp blk rate))
  simp only [initGenesis, exportGenesis, h₀.feederDelegation, hfeeders, ok_bind,
    foldl_setBaseExchangeRate, h₀.votePenaltyCounter, hcounters, h₀.aggregateExchangeRateVote,
    hvotes, h₀.exchangeRate, hrates]
  rfl

end Rebuild

section Snapshots

variable {blk : Block} {s u : State}

/-- Nothing is dropped while the oldest snapshot has not expired. -/
theorem addPriceSnapshot_of_oldest {x : PriceSnapshot}
    (h : ∀ e ∈ (u.priceSnapshot.insert x.snapshotTimestamp x).entries.head?,
      expired blk u e.2 = false) :
    addPriceSnapshot blk u x =
      { u with priceSnapshot := u.priceSnapshot.insert x.snapshotTimestamp x } := by
  have hnone : (u.priceSnapshot.insert x.snapshotTimestamp x).entries.takeWhile
      (fun e => expired blk u e.2) = [] := by
    cases hentries : (u.priceSnapshot.insert x.snapshotTimestamp x).entries with
    | nil => rfl
    | cons e l =>
        rw [hentries] at h
        rw [List.takeWhile_cons, h e rfl]
        rfl
  simp only [addPriceSnapshot, hnone]
  rfl

variable (blk s u) in
theorem importSnapshots_frame :
    ∃ priceSnapshot, importSnapshots blk s u = { u with priceSnapshot := priceSnapshot } := by
  have hframe : ∀ (l : List PriceSnapshot) (u : State), ∃ priceSnapshot,
      l.foldl (addPriceSnapshot blk) u = { u with priceSnapshot := priceSnapshot } := by
    intro l
    induction l with
    | nil => exact fun u => ⟨_, rfl⟩
    | cons x l ih =>
        intro u
        obtain ⟨m, hm⟩ := ih (addPriceSnapshot blk u x)
        exact ⟨m, hm⟩
  exact hframe _ u

theorem foldl_addPriceSnapshot_of_oldest {l : List (ℤ × PriceSnapshot)}
    (hkeys : ∀ e ∈ l, e.2.snapshotTimestamp = e.1)
    (hsorted : (u.priceSnapshot.entries ++ l).Pairwise (fun a b => a.1 < b.1))
    (h : ∀ e ∈ (u.priceSnapshot.entries ++ l).head?, expired blk u e.2 = false) :
    ((l.map Prod.snd).foldl (addPriceSnapshot blk) u).priceSnapshot.entries =
      u.priceSnapshot.entries ++ l := by
  induction l generalizing u with
  | nil => simp
  | cons a l ih =>
      obtain ⟨ha, hkeys'⟩ := List.forall_mem_cons.mp hkeys
      have hlast : (u.priceSnapshot.insert a.1 a.2).entries = u.priceSnapshot.entries ++ [a] := by
        apply SortedMap.insertEntry_of_lt
        intro e he
        exact (List.pairwise_append.mp hsorted).2.2 e he a List.mem_cons_self
      have hfirst : addPriceSnapshot blk u a.2 =
          { u with priceSnapshot := u.priceSnapshot.insert a.1 a.2 } := by
        rw [← ha]
        apply addPriceSnapshot_of_oldest
        rw [ha, hlast]
        intro e he
        apply h e
        cases hentries : u.priceSnapshot.entries with
        | nil =>
            rw [hentries] at he
            exact he
        | cons b l' =>
            rw [hentries] at he
            exact he
      rw [List.map_cons, List.foldl_cons, hfirst, ih hkeys']
      · rw [hlast, List.append_assoc]
        rfl
      · rw [hlast]
        simpa using hsorted
      · intro e he
        apply h e
        rw [hlast] at he
        simpa using he

theorem get?_foldl_addPriceSnapshot {l : List PriceSnapshot} {k : ℤ}
    (h : u.priceSnapshot.get? k = none) (hl : ∀ x ∈ l, x.snapshotTimestamp ≠ k) :
    (l.foldl (addPriceSnapshot blk) u).priceSnapshot.get? k = none := by
  induction l generalizing u with
  | nil => exact h
  | cons x l ih =>
      obtain ⟨hx, hl'⟩ := List.forall_mem_cons.mp hl
      refine ih ?_ hl'
      rw [Option.eq_none_iff_forall_not_mem]
      intro y hy
      have hstored := get?_of_addPriceSnapshot hy
      rw [SortedMap.get?_insert, if_neg hx, h] at hstored
      cases hstored

/-- An expired snapshot is dropped right away from a store that has no other. -/
theorem addPriceSnapshot_of_expired {x : PriceSnapshot} (hu : u.priceSnapshot = ∅)
    (h : expired blk u x = true) :
    (addPriceSnapshot blk u x).priceSnapshot.get? x.snapshotTimestamp = none := by
  have hentries : (u.priceSnapshot.insert x.snapshotTimestamp x).entries =
      [(x.snapshotTimestamp, x)] := by
    rw [hu]
    rfl
  simp only [addPriceSnapshot, hentries, List.takeWhile_cons, h, if_true, List.takeWhile_nil,
    List.map_cons, List.map_nil, List.foldl_cons, List.foldl_nil]
  rw [SortedMap.get?_erase, if_pos rfl]

/-- The import keeps the snapshots exactly when the oldest has not expired. -/
theorem importSnapshots_iff (hu : u.priceSnapshot = ∅)
    (hkeys : ∀ t x, s.priceSnapshot.get? t = some x → x.snapshotTimestamp = t) :
    (importSnapshots blk s u).priceSnapshot = s.priceSnapshot ↔
      ∀ e ∈ s.priceSnapshot.entries.head?, expired blk u e.2 = false := by
  have hkeys' : ∀ e ∈ s.priceSnapshot.entries, e.2.snapshotTimestamp = e.1 :=
    fun e he => hkeys e.1 e.2 (SortedMap.get?_eq_some.mpr he)
  have hsorted := s.priceSnapshot.sorted
  have hnil : u.priceSnapshot.entries = [] := by
    rw [hu]
    rfl
  constructor
  · intro heq e he
    by_contra hexpired
    rw [Bool.not_eq_false] at hexpired
    obtain ⟨l, hl⟩ := List.head?_eq_some_iff.mp he
    have hmem : e ∈ s.priceSnapshot.entries := by
      rw [hl]
      exact List.mem_cons_self
    have hgone : (importSnapshots blk s u).priceSnapshot.get? e.1 = none := by
      rw [importSnapshots, hl, List.map_cons, List.foldl_cons]
      apply get?_foldl_addPriceSnapshot
      · rw [← hkeys' e hmem]
        exact addPriceSnapshot_of_expired hu hexpired
      · intro x hx hxe
        obtain ⟨e', he', rfl⟩ := List.mem_map.mp hx
        rw [hl] at hsorted hkeys'
        rw [hkeys' e' (List.mem_cons_of_mem e he')] at hxe
        have hlt := (List.pairwise_cons.mp hsorted).1 e' he'
        omega
    rw [heq, SortedMap.get?_eq_some.mpr hmem] at hgone
    cases hgone
  · intro h
    apply SortedMap.ext_entries
    rw [importSnapshots, foldl_addPriceSnapshot_of_oldest hkeys']
    · rw [hnil, List.nil_append]
    · rw [hnil]
      exact hsorted
    · rw [hnil]
      exact h

end Snapshots

section RoundTrip

variable {codec : Codec} {blk : Block} {s : State}

/-- What the round trip takes of a state: no vote target, every rate written in
this very block, and an oldest snapshot that has not expired. -/
structure Restorable (blk : Block) (s : State) : Prop where
  voteTarget : s.voteTarget = ∅
  exchangeRate : ∀ d rate, s.exchangeRate.get? d = some rate →
    rate.lastUpdate = blk.height ∧ rate.lastUpdateTimestamp = GoTime.unixMilli blk.time
  priceSnapshot : ∀ e ∈ s.priceSnapshot.entries.head?, expired blk s e.2 = false

theorem mapValues_restamp_iff :
    s.exchangeRate.mapValues (fun _ rate => restamp blk rate) = s.exchangeRate ↔
      ∀ d rate, s.exchangeRate.get? d = some rate →
        rate.lastUpdate = blk.height ∧ rate.lastUpdateTimestamp = GoTime.unixMilli blk.time := by
  constructor
  · intro h d rate hd
    have hget := SortedMap.get?_mapValues s.exchangeRate (fun _ rate => restamp blk rate) d
    rw [h, hd, Option.map_some, Option.some.injEq] at hget
    rw [hget]
    exact ⟨rfl, rfl⟩
  · intro h
    apply SortedMap.ext_get?
    intro d
    rw [SortedMap.get?_mapValues]
    cases hd : s.exchangeRate.get? d with
    | none => rfl
    | some rate =>
        obtain ⟨hheight, htime⟩ := h d rate hd
        rw [Option.map_some, restamp, ← hheight, ← htime]

theorem roundTrips_iff_restorable (hs : Keyed codec s) :
    RoundTrips codec blk s ↔ Restorable blk s := by
  have hsame : ∀ s₀, EmptyStore s₀ →
      ((∃ t, initGenesis codec (some (.module "oracle")) blk s₀ (exportGenesis s) = .ok t ∧
        SameStore s t) ↔ Restorable blk s) := by
    intro s₀ h₀
    rw [initGenesis_exportGenesis hs h₀]
    obtain ⟨priceSnapshot, hframe⟩ := importSnapshots_frame blk s (importCollections blk s s₀)
    have hsnapshots : (importSnapshots blk s (importCollections blk s s₀)).priceSnapshot =
        s.priceSnapshot ↔ ∀ e ∈ s.priceSnapshot.entries.head?, expired blk s e.2 = false :=
      importSnapshots_iff h₀.priceSnapshot hs.snapshots
    rw [hframe] at hsnapshots ⊢
    constructor
    · rintro ⟨t, ht, hsame⟩
      cases ht
      exact ⟨hsame.voteTarget.symm.trans h₀.voteTarget, mapValues_restamp_iff.mp hsame.exchangeRate,
        hsnapshots.mp hsame.priceSnapshot⟩
    · intro h
      exact ⟨_, rfl, rfl, mapValues_restamp_iff.mpr h.exchangeRate, rfl, rfl, rfl,
        h₀.voteTarget.trans h.voteTarget.symm, hsnapshots.mpr h.priceSnapshot⟩
  constructor
  · intro h
    have hempty : EmptyStore (defaultGenesis ∅) := ⟨rfl, rfl, rfl, rfl, rfl, rfl⟩
    exact (hsame _ hempty).mp (h _ hempty)
  · exact fun h s₀ h₀ => (hsame s₀ h₀).mpr h

end RoundTrip

end Kiichain.Oracle
