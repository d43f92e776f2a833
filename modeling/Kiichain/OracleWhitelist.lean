import Kiichain.OraclePeriod
import Kiichain.OracleRuntime

/-!
# The whitelist step

The targets are rewritten where their number or a missing name tells them from
the whitelist. What is compared are the targets without a failed ballot, against
the whitelist with its repetitions, so a removed denomination can stay a target.
-/

namespace Kiichain.Oracle
open GoExec FixedPoint

def names (whitelist : List Denom) : List String := whitelist.map Denom.name

/-- The targets are the denominations of the whitelist. -/
def TargetsAre (whitelist : List Denom) (s : State) : Prop :=
  ∀ d, d ∈ s.voteTarget.keys ↔ d ∈ names whitelist

section Update

variable {whitelist : List Denom} {targets : SortedMap String Denom}

theorem updateRequired_eq_false : updateRequired whitelist targets = false ↔
    targets.size = whitelist.length ∧ names whitelist ⊆ targets.keys := by
  simp only [updateRequired, Bool.or_eq_false_iff, decide_eq_false_iff_not, ne_eq, not_not,
    List.any_eq_false, Option.isNone_iff_eq_none, SortedMap.get?_eq_none, names,
    List.subset_def, List.forall_mem_map]

/-- The rewritten targets are those of the whitelist. -/
theorem targetsAre_of_foldlM {s t : State}
    (h : whitelist.foldlM setVoteTarget { s with voteTarget := ∅ } = .ok t) :
    TargetsAre whitelist t := by
  have hview := foldlM_proj State.voteTarget (g := fun m item => m.insert item.name item)
    (fun u item _ v hv => by
      obtain ⟨_, rfl⟩ := setVoteTarget_frame hv
      rfl) h
  intro d
  rw [SortedMap.mem_keys_iff_isSome, hview]
  clear hview h
  induction whitelist using List.reverseRecOn with
  | nil => simp [names]
  | append_singleton l item ih =>
      rw [List.foldl_append, List.foldl_cons, List.foldl_nil, SortedMap.get?_insert]
      by_cases hd : item.name = d
      · simp [names, hd]
      · rw [if_neg hd, ih]
        simp [names, Ne.symm hd]

end Update

/-- A list that has the elements of one without repetitions, and no more of them,
repeats none either. -/
theorem nodup_of_subset_of_length_le {α : Type*} {l l' : List α} (hl : l.Nodup) (hsub : l ⊆ l')
    (hlen : l'.length ≤ l.length) : l'.Nodup :=
  ((hl.subperm hsub).perm_of_length_le hlen).nodup_iff.mp hl

section Step

variable {threshold : ℤ} {s : State} {votes : VoteMap} {p : Pick}

/-- The targets that the selection leaves are targets. -/
theorem keys_subset_of_settled (h : Settled threshold s.voteTarget votes p) :
    p.voteTargets.keys ⊆ s.voteTarget.keys := by
  intro d hd
  rw [SortedMap.mem_keys_iff_isSome, h.voteTargets] at hd
  split_ifs at hd
  · cases hd
  · exact SortedMap.mem_keys_iff_isSome.mpr hd

/-- The selection leaves all targets exactly where no ballot failed. -/
theorem subset_keys_iff_of_settled (h : Settled threshold s.voteTarget votes p) :
    s.voteTarget.keys ⊆ p.voteTargets.keys ↔ ∀ d, p.belowThresholdVoteMap.get? d = none := by
  constructor
  · intro hsub d
    rw [Option.eq_none_iff_forall_ne_some]
    intro b hb
    rw [h.below] at hb
    have htarget := (failingBallot_eq_some.mp hb).2.1
    have hkept := hsub (SortedMap.mem_keys_iff_isSome.mpr htarget)
    rw [SortedMap.mem_keys_iff_isSome, h.voteTargets, hb] at hkept
    cases hkept
  · intro hnone d hd
    have hbelow := hnone d
    rw [h.below] at hbelow
    rw [SortedMap.mem_keys_iff_isSome, h.voteTargets, hbelow]
    exact SortedMap.mem_keys_iff_isSome.mp hd

/-- Without a rewrite the stored targets are those of the whitelist exactly where
no ballot failed and the whitelist repeats no name. -/
theorem targetsAre_iff_of_kept {whitelist : List Denom}
    (h : Settled threshold s.voteTarget votes p)
    (hkept : updateRequired whitelist p.voteTargets = false) :
    TargetsAre whitelist s ↔
      (∀ d, p.belowThresholdVoteMap.get? d = none) ∧ (names whitelist).Nodup := by
  obtain ⟨hsize, hnames⟩ := updateRequired_eq_false.mp hkept
  have hlen : (names whitelist).length = p.voteTargets.keys.length := by
    rw [SortedMap.length_keys, hsize, names, List.length_map]
  have hleft := keys_subset_of_settled h
  rw [← subset_keys_iff_of_settled h]
  constructor
  · intro hall
    have hstored : s.voteTarget.keys ⊆ names whitelist := fun d hd => (hall d).mp hd
    refine ⟨fun d hd => hnames (hstored hd), ?_⟩
    exact nodup_of_subset_of_length_le (SortedMap.keys_nodup p.voteTargets)
      (fun d hd => hstored (hleft hd)) hlen.le
  · rintro ⟨hstored, hnodup⟩ d
    have hperm := (hnodup.subperm hnames).perm_of_length_le hlen.ge
    rw [hperm.mem_iff]
    exact ⟨fun hd => hstored hd, fun hd => hleft hd⟩

end Step

/-- After the whitelist step the targets are those of the whitelist exactly where
the targets without a failed ballot call for a rewrite, or no ballot of a target
failed and the whitelist repeats no name. -/
theorem whitelist_applied_iff (o : IterationOrder) (st : Staking) {s : State}
    (hparams : s.params.validate = .ok ()) (votes : VoteMap) {p : Pick}
    (hpick : pickReferenceDenom o st s.params s.voteTarget votes = .ok p) {u : State}
    (hu : u.voteTarget = s.voteTarget) :
    ∃ t, applyWhitelist s.params.whitelist p.voteTargets u = .ok t ∧
      (TargetsAre s.params.whitelist t ↔
        updateRequired s.params.whitelist p.voteTargets = true ∨
          (∀ d, p.belowThresholdVoteMap.get? d = none) ∧ (names s.params.whitelist).Nodup) := by
  have hvalid := Params.valid_of_validate hparams
  obtain ⟨threshold, _, hsettled⟩ := settled_of_pickReferenceDenom hparams hpick
  obtain ⟨t, ht⟩ := returns_applyWhitelist p.voteTargets u hvalid.whitelist_named
  refine ⟨t, ht, ?_⟩
  unfold applyWhitelist at ht
  by_cases hupdate : updateRequired s.params.whitelist p.voteTargets = true
  · rw [if_pos hupdate] at ht
    exact iff_of_true (targetsAre_of_foldlM ht) (Or.inl hupdate)
  · rw [if_neg hupdate] at ht
    cases ht
    rw [← hu] at hsettled
    rw [or_iff_right hupdate]
    exact targetsAre_iff_of_kept hsettled (by simpa using hupdate)

namespace RemovedTarget

def targets : SortedMap String Denom := SortedMap.ofList [("ubtc", ⟨"ubtc"⟩), ("ueth", ⟨"ueth"⟩)]

def state (whitelist : List Denom) : State :=
  { defaultGenesis ∅ with
    params := { defaultParams with whitelist := whitelist }
    voteTarget := targets }

def vote (denom voter : String) : VoteForTally := ⟨denom, 1, voter, 2⟩

/-- All three validators vote on one denomination, and one of them on the other. -/
def votes : VoteMap :=
  SortedMap.ofList [("ubtc", [vote "ubtc" "v1", vote "ubtc" "v2", vote "ubtc" "v3"]),
    ("ueth", [vote "ueth" "v1"])]

def picked (votes : VoteMap) (whitelist : List Denom) : Exec Pick :=
  pickReferenceDenom .ascending .trio (state whitelist).params targets votes

def applied (votes : VoteMap) (whitelist : List Denom) : Exec State := do
  let p ← picked votes whitelist
  applyWhitelist whitelist p.voteTargets (state whitelist)

/-- The step returns, and a denomination that is not on the whitelist is a target. -/
def Stale (votes : VoteMap) (whitelist : List Denom) : Prop :=
  (state whitelist).params.validate = .ok () ∧ ∃ p t, picked votes whitelist = .ok p ∧
    applyWhitelist whitelist p.voteTargets (state whitelist) = .ok t ∧ ¬ TargetsAre whitelist t

theorem stale_of_view {votes : VoteMap} {whitelist : List Denom}
    (hvalid : (state whitelist).params.validate = .ok ()) (hnames : "ueth" ∉ names whitelist)
    (hview : (applied votes whitelist).toOption.map (fun t => t.voteTarget) = some targets) :
    Stale votes whitelist := by
  obtain ⟨t, happlied, htargets⟩ := exists_of_toOption_map hview
  obtain ⟨p, hp, ht⟩ := bind_eq_ok.mp happlied
  refine ⟨hvalid, p, t, hp, ht, fun h => hnames ((h "ueth").mp ?_)⟩
  rw [htargets]
  decide

/-- The denomination whose ballot failed is off the whitelist and stays a target, and
so does one that a repeated name stands in for. -/
theorem removed_name_stays : Stale votes [⟨"ubtc"⟩] ∧ Stale ∅ [⟨"ubtc"⟩, ⟨"ubtc"⟩] :=
  ⟨stale_of_view (by decide) (by decide) (by decide),
    stale_of_view (by decide) (by decide) (by decide)⟩

/-- Without the failed ballot the name goes. -/
theorem removed_name_goes : ∃ p, picked ∅ [⟨"ubtc"⟩] = .ok p ∧ ∃ t,
    applyWhitelist [⟨"ubtc"⟩] p.voteTargets (state [⟨"ubtc"⟩]) = .ok t ∧
      TargetsAre [⟨"ubtc"⟩] t := by
  have hview : (picked ∅ [⟨"ubtc"⟩]).toOption.map
      (fun p => updateRequired [⟨"ubtc"⟩] p.voteTargets) = some true := by decide
  obtain ⟨p, hp, hupdate⟩ := exists_of_toOption_map hview
  obtain ⟨t, ht, hiff⟩ := whitelist_applied_iff .ascending .trio (s := state [⟨"ubtc"⟩]) (by decide)
    ∅ hp (u := state [⟨"ubtc"⟩]) rfl
  exact ⟨p, hp, t, ht, hiff.mpr (Or.inl hupdate)⟩

end RemovedTarget

end Kiichain.Oracle
