import Kiichain.TokenFactoryKeeper

/-!
# Who can do what to a factory denomination

Each handler is inverted once into its effect on the state. Over runs from the
default genesis, supply moves only by the admin's mints and burns, the admin
changes only by its own message, and an empty admin freezes the denomination.
-/

namespace Kiichain.TokenFactory
open GoExec FixedPoint

def admin (s : State) (denom : String) : String := (getAuthorityMetadata s denom).admin

def FactoryDenom (denom : String) : Prop := ∃ creator subdenom, denom = tokenDenom creator subdenom

/-- What the coins of a list hold of a denomination. -/
def total (coins : List Coin) (denom : String) : ℕ :=
  (coins.map (fun c => if c.denom = denom then c.amount.val.toNat else 0)).sum

theorem total_cons (c : Coin) (coins : List Coin) (denom : String) :
    total (c :: coins) denom =
      (if c.denom = denom then c.amount.val.toNat else 0) + total coins denom := rfl

theorem total_singleton (c : Coin) (denom : String) :
    total [c] denom = if c.denom = denom then c.amount.val.toNat else 0 := total_cons c [] denom

section Bank

variable {l l' : Ledger Account String} {a b : Account} {coins : List Coin}

theorem total_eq_zero {denom : String} (h : ∀ c ∈ coins, c.denom ≠ denom) :
    total coins denom = 0 := by
  apply List.sum_eq_zero
  intro n hn
  obtain ⟨c, hc, rfl⟩ := List.mem_map.mp hn
  exact if_neg (h c hc)

theorem sendCoins_supply (h : sendCoins l a b coins = .ok l') : l'.supply = l.supply := by
  induction coins generalizing l with
  | nil =>
      cases h
      rfl
  | cons c coins ih =>
      rw [sendCoins, List.foldlM_cons, bind_eq_ok] at h
      obtain ⟨m, hm, h⟩ := h
      rw [ih h, Ledger.send_supply hm]

theorem sendCoins_singleton (x : Coin) :
    sendCoins l a b [x] = l.send a b x.denom x.amount.val.toNat := by
  rw [sendCoins, List.foldlM_cons]
  exact bind_pure _

theorem burnCoins_singleton (x : Coin) :
    burnCoins l a [x] = l.burn a x.denom x.amount.val.toNat := by
  rw [burnCoins, List.foldlM_cons]
  exact bind_pure _

theorem burnCoins_supply (h : burnCoins l a coins = .ok l') (denom : String) :
    l'.supply denom + total coins denom = l.supply denom := by
  induction coins generalizing l with
  | nil =>
      cases h
      rfl
  | cons x coins ih =>
      rw [burnCoins, List.foldlM_cons, bind_eq_ok] at h
      obtain ⟨m, hm, h⟩ := h
      have hrest := ih h
      obtain ⟨_, hle, rfl⟩ := Ledger.burn_eq_ok.mp hm
      rw [total_cons]
      by_cases hd : x.denom = denom
      · subst hd
        simp only [Function.update_self, if_true] at hrest ⊢
        omega
      · simp only [Function.update_of_ne (Ne.symm hd), if_neg hd] at hrest ⊢
        omega

theorem newCoins_eq_ok {c : Coin} {u : Unit} :
    newCoins c = .ok u ↔ validDenom c.denom = true ∧ 0 ≤ c.amount.val := by
  simp only [newCoins, bind_eq_ok, Coin.newCoin_eq_ok, pure_eq_ok]
  simp

theorem mintCoins_eq_ok {c : Coin} :
    mintCoins l a c = .ok l' ↔ l.supply c.denom + c.amount.val.toNat < 2 ^ 256 ∧
      l' = l.mint a c.denom c.amount.val.toNat := by
  simp only [mintCoins, bind_eq_ok, ensure_eq_ok, exists_const, pure_eq_ok, Except.ok.injEq]
  exact and_congr_right fun _ => eq_comm

end Bank

section Effects

variable {k : Keeper} {s t : State}

theorem checkAdmin_eq_ok {sender denom : String} {u : Unit} :
    MsgServer.checkAdmin s sender denom = .ok u ↔ sender = admin s denom := ensure_eq_ok

theorem mint_effect {msg : MsgMint} (h : MsgServer.mint k s msg = .ok t) :
    msg.sender = admin s msg.amount.denom ∧ 0 ≤ msg.amount.amount.val ∧
      ∃ bank, t = { s with bank := bank } ∧ ∀ e, bank.supply e =
        if e = msg.amount.denom then
          s.bank.supply msg.amount.denom + msg.amount.amount.val.toNat
        else s.bank.supply e := by
  simp only [MsgServer.mint, mintTo, bind_eq_ok, ensure_eq_ok, checkAdmin_eq_ok, newCoins_eq_ok,
    mintCoins_eq_ok, exists_const, pure_eq_ok, Except.ok.injEq] at h
  obtain ⟨_, hadmin, _, _, ⟨_, hnonneg⟩, _, ⟨_, rfl⟩, _, _, _, bank, hbank, rfl⟩ := h
  refine ⟨hadmin, hnonneg, bank, rfl, fun e => ?_⟩
  rw [Ledger.transfer_supply hbank]
  exact Ledger.mint_supply _ _ _ _ _

theorem burnFrom_effect {amount : Coin} {address : String}
    (h : burnFrom k s amount address = .ok t) :
    0 ≤ amount.amount.val ∧ amount.amount.val.toNat ≤ s.bank.supply amount.denom ∧
      ∃ bank, t = { s with bank := bank } ∧ ∀ e, bank.supply e =
        if e = amount.denom then s.bank.supply amount.denom - amount.amount.val.toNat
        else s.bank.supply e := by
  simp only [burnFrom, bind_eq_ok, ensure_eq_ok, newCoins_eq_ok, exists_const, pure_eq_ok,
    Except.ok.injEq] at h
  obtain ⟨_, _, _, _, _, ⟨_, hnonneg⟩, sent, hsent, bank, hbank, rfl⟩ := h
  have hburned : ∀ e, bank.supply e + total [amount] e = s.bank.supply e := by
    intro e
    rw [burnCoins_supply hbank, sendCoins_supply hsent]
  have hown := hburned amount.denom
  rw [total_singleton, if_pos rfl] at hown
  refine ⟨hnonneg, by omega, bank, rfl, fun e => ?_⟩
  by_cases he : e = amount.denom
  · rw [if_pos he, he]
    omega
  · have hother := hburned e
    rw [total_singleton, if_neg (Ne.symm he)] at hother
    rw [if_neg he]
    exact hother

theorem burn_effect {msg : MsgBurn} (h : MsgServer.burn k s msg = .ok t) :
    msg.sender = admin s msg.amount.denom ∧ ∃ address, burnFrom k s msg.amount address = .ok t := by
  obtain ⟨_, hadmin, h⟩ := bind_eq_ok.mp h
  refine ⟨checkAdmin_eq_ok.mp hadmin, ?_⟩
  by_cases hfrom : msg.burnFromAddress = ""
  · rw [if_pos hfrom] at h
    exact ⟨_, h⟩
  · rw [if_neg hfrom] at h
    obtain ⟨_, _, h⟩ := bind_eq_ok.mp h
    exact ⟨_, h⟩

theorem forceTransfer_effect {msg : MsgForceTransfer}
    (h : MsgServer.forceTransfer k s msg = .ok t) :
    ∃ bank, t = { s with bank := bank } ∧ bank.supply = s.bank.supply := by
  simp only [MsgServer.forceTransfer, forceTransfer, bind_eq_ok, pure_eq_ok, Except.ok.injEq] at h
  obtain ⟨_, _, _, _, _, _, _, _, _, _, _, _, _, _, _, _, bank, hbank, rfl⟩ := h
  exact ⟨bank, rfl, sendCoins_supply hbank⟩

theorem setAuthorityMetadata_effect {denom : String} {metadata : DenomAuthorityMetadata}
    (h : setAuthorityMetadata k s denom metadata = .ok t) :
    t = { s with authorityMetadata := s.authorityMetadata.insert denom metadata } := by
  obtain ⟨_, _, h⟩ := bind_eq_ok.mp h
  cases h
  rfl

theorem changeAdmin_effect {msg : MsgChangeAdmin} (h : MsgServer.changeAdmin k s msg = .ok t) :
    msg.sender = admin s msg.denom ∧
      t = { s with authorityMetadata := s.authorityMetadata.insert msg.denom ⟨msg.newAdmin⟩ } := by
  obtain ⟨_, hadmin, h⟩ := bind_eq_ok.mp h
  exact ⟨checkAdmin_eq_ok.mp hadmin, setAuthorityMetadata_effect h⟩

theorem setDenomMetadata_effect {msg : MsgSetDenomMetadata}
    (h : MsgServer.setDenomMetadata k s msg = .ok t) :
    msg.sender = admin s msg.metadata.base ∧ t = setDenomMetaData s msg.metadata := by
  simp only [MsgServer.setDenomMetadata, bind_eq_ok, checkAdmin_eq_ok, exists_const, pure_eq_ok,
    Except.ok.injEq] at h
  obtain ⟨_, _, _, _, hadmin, rfl⟩ := h
  exact ⟨hadmin, rfl⟩

theorem getTokenDenom_eq_ok {creator subdenom denom : String}
    (h : getTokenDenom creator subdenom = .ok denom) : denom = tokenDenom creator subdenom := by
  simp only [getTokenDenom, bind_eq_ok, pure_eq_ok, Except.ok.injEq] at h
  obtain ⟨_, _, _, _, _, _, _, _, rfl⟩ := h
  rfl

/-- The creation fee touches the supply of its own denominations only. -/
theorem payCreationFee_supply {a : Account} {bank : Ledger Account String} {denom : String}
    (hd : ∀ c ∈ s.params.denomCreationFee, c.denom ≠ denom)
    (h : payCreationFee k s a = .ok bank) : bank.supply denom = s.bank.supply denom := by
  unfold payCreationFee at h
  split_ifs at h with hcap
  · rw [sendCoins_supply h]
  · obtain ⟨sent, hsent, h⟩ := bind_eq_ok.mp h
    have hburned := burnCoins_supply h denom
    rwa [total_eq_zero hd, sendCoins_supply hsent] at hburned

theorem createDenom_effect {gasLeft : ℕ} {msg : MsgCreateDenom} {denom : String}
    (h : MsgServer.createDenom k s gasLeft msg = .ok (t, denom)) :
    denom = tokenDenom msg.sender msg.subdenom ∧ s.denomMetaData.get? denom = none ∧
      ∃ a bank, payCreationFee k s a = .ok bank ∧
        t = { s with
          bank := bank
          denomMetaData := s.denomMetaData.insert denom
            ⟨"", [⟨denom, 0, []⟩], denom, denom, denom, denom⟩
          authorityMetadata := s.authorityMetadata.insert denom ⟨msg.sender⟩
          creatorDenoms := insert (msg.sender, denom) s.creatorDenoms } := by
  simp only [MsgServer.createDenom, validateCreateDenom, chargeForCreateDenom,
    createDenomAfterValidation, bind_eq_ok, ensure_eq_ok, require_eq_ok, exists_const, pure_eq_ok,
    Except.ok.injEq, Prod.mk.injEq] at h
  obtain ⟨_, _, _, ⟨_, hdenom, hnone, rfl⟩, _, ⟨a, _, bank, hbank, _, rfl⟩, _, ⟨_, hset, rfl⟩,
    rfl, rfl⟩ := h
  rw [setAuthorityMetadata_effect hset]
  exact ⟨getTokenDenom_eq_ok hdenom, hnone, a, bank, hbank, rfl⟩

end Effects

section Execute

variable {k : Keeper} {s t : State} {msg : Msg} {denom : String}

theorem execute_eq_ok :
    execute k s msg = .ok t ↔
      (k.accAddressFromBech32 msg.sender).isSome = true ∧ handle k s msg = .ok t := by
  simp only [execute, bind_eq_ok, ensure_eq_ok, exists_const]

theorem sender_ne_empty (h : execute k s msg = .ok t) : msg.sender ≠ "" := by
  intro hs
  have := (execute_eq_ok.mp h).1
  rw [hs, k.empty_address] at this
  cases this

theorem isSome_of_admin_ne_empty (h : admin s denom ≠ "") :
    (s.authorityMetadata.get? denom).isSome = true := by
  cases hd : s.authorityMetadata.get? denom with
  | none => simp [admin, getAuthorityMetadata, hd] at h
  | some metadata => rfl

theorem denom_ne_fee (hs : s.params = defaultParams) (hd : FactoryDenom denom) :
    ∀ c ∈ s.params.denomCreationFee, c.denom ≠ denom := by
  obtain ⟨creator, subdenom, rfl⟩ := hd
  rw [hs]
  intro c hc
  obtain rfl := List.mem_singleton.mp hc
  intro h
  have := congrArg (fun x => x.toList.head?) h
  simp [tokenDenom, moduleDenomPrefix] at this

/-- A successful creation of `denom`. -/
def Creates (k : Keeper) (denom : String) (s : State) (msg : Msg) : Prop :=
  ∃ gasLeft m t, msg = .createDenom gasLeft m ∧ execute k s msg = .ok t ∧
    MsgServer.createDenom k s gasLeft m = .ok (t, denom)

theorem handle_createDenom {gasLeft : ℕ} {m : MsgCreateDenom}
    (h : handle k s (.createDenom gasLeft m) = .ok t) :
    ∃ denom, MsgServer.createDenom k s gasLeft m = .ok (t, denom) := by
  obtain ⟨⟨u, denom⟩, hr, h⟩ := bind_eq_ok.mp h
  cases h
  exact ⟨denom, hr⟩

/-- What a message that succeeds makes of the state beside the bank. -/
theorem handle_cases (h : handle k s msg = .ok t) : (∃ bank, t = { s with bank := bank }) ∨
    (∃ gasLeft m denom, msg = .createDenom gasLeft m ∧
      MsgServer.createDenom k s gasLeft m = .ok (t, denom)) ∨
    (∃ m, msg = .changeAdmin m ∧ m.sender = admin s m.denom ∧
      t = { s with authorityMetadata := s.authorityMetadata.insert m.denom ⟨m.newAdmin⟩ }) ∨
    (∃ m, msg = .setDenomMetadata m ∧ m.sender = admin s m.metadata.base ∧
      t = setDenomMetaData s m.metadata) := by
  cases msg with
  | createDenom gasLeft m =>
      obtain ⟨denom, hr⟩ := handle_createDenom h
      exact Or.inr (Or.inl ⟨gasLeft, m, denom, rfl, hr⟩)
  | mint m =>
      obtain ⟨_, _, bank, ht, _⟩ := mint_effect h
      exact Or.inl ⟨bank, ht⟩
  | burn m =>
      obtain ⟨_, address, hb⟩ := burn_effect h
      obtain ⟨_, _, bank, ht, _⟩ := burnFrom_effect hb
      exact Or.inl ⟨bank, ht⟩
  | forceTransfer m =>
      obtain ⟨bank, ht, _⟩ := forceTransfer_effect h
      exact Or.inl ⟨bank, ht⟩
  | changeAdmin m => exact Or.inr (Or.inr (Or.inl ⟨m, rfl, changeAdmin_effect h⟩))
  | setDenomMetadata m => exact Or.inr (Or.inr (Or.inr ⟨m, rfl, setDenomMetadata_effect h⟩))

theorem mint_supply {m : MsgMint} (h : execute k s (.mint m) = .ok t) :
    m.sender = admin s m.amount.denom ∧
      (t.bank.supply m.amount.denom : ℤ) = s.bank.supply m.amount.denom + m.amount.amount.val := by
  obtain ⟨hadmin, hnonneg, bank, rfl, hsupply⟩ := mint_effect (execute_eq_ok.mp h).2
  have := hsupply m.amount.denom
  rw [if_pos rfl] at this
  refine ⟨hadmin, ?_⟩
  dsimp only
  omega

theorem burn_supply {m : MsgBurn} (h : execute k s (.burn m) = .ok t) :
    m.sender = admin s m.amount.denom ∧
      (t.bank.supply m.amount.denom : ℤ) = s.bank.supply m.amount.denom - m.amount.amount.val := by
  obtain ⟨hadmin, address, hb⟩ := burn_effect (execute_eq_ok.mp h).2
  obtain ⟨hnonneg, hle, bank, rfl, hsupply⟩ := burnFrom_effect hb
  have := hsupply m.amount.denom
  rw [if_pos rfl] at this
  refine ⟨hadmin, ?_⟩
  dsimp only
  omega

/-- The supply of a factory denomination moves only by its admin's mints and burns. -/
theorem supply_cases (hs : s.params = defaultParams) (hd : FactoryDenom denom)
    (h : execute k s msg = .ok t) :
    t.bank.supply denom = s.bank.supply denom ∨
    (∃ m, msg = .mint m ∧ m.amount.denom = denom ∧ m.sender = admin s denom ∧
      (t.bank.supply denom : ℤ) = s.bank.supply denom + m.amount.amount.val) ∨
    (∃ m, msg = .burn m ∧ m.amount.denom = denom ∧ m.sender = admin s denom ∧
      (t.bank.supply denom : ℤ) = s.bank.supply denom - m.amount.amount.val) := by
  have hh := (execute_eq_ok.mp h).2
  cases msg with
  | createDenom gasLeft m =>
      obtain ⟨d, hr⟩ := handle_createDenom hh
      obtain ⟨_, _, a, bank, hbank, rfl⟩ := createDenom_effect hr
      exact Or.inl (payCreationFee_supply (denom_ne_fee hs hd) hbank)
  | mint m =>
      by_cases he : denom = m.amount.denom
      · subst he
        exact Or.inr (Or.inl ⟨m, rfl, rfl, mint_supply h⟩)
      · obtain ⟨_, _, bank, rfl, hsupply⟩ := mint_effect hh
        exact Or.inl ((hsupply denom).trans (if_neg he))
  | burn m =>
      by_cases he : denom = m.amount.denom
      · subst he
        exact Or.inr (Or.inr ⟨m, rfl, rfl, burn_supply h⟩)
      · obtain ⟨_, address, hb⟩ := burn_effect hh
        obtain ⟨_, _, bank, rfl, hsupply⟩ := burnFrom_effect hb
        exact Or.inl ((hsupply denom).trans (if_neg he))
  | forceTransfer m =>
      obtain ⟨bank, rfl, hsupply⟩ := forceTransfer_effect hh
      exact Or.inl (congrFun hsupply denom)
  | changeAdmin m =>
      obtain ⟨_, rfl⟩ := changeAdmin_effect hh
      exact Or.inl rfl
  | setDenomMetadata m =>
      obtain ⟨_, rfl⟩ := setDenomMetadata_effect hh
      exact Or.inl rfl

/-- An authority entry is written by the creation of its denomination or by the
current admin. -/
theorem authority_cases (h : execute k s msg = .ok t) (denom : String) :
    t.authorityMetadata.get? denom = s.authorityMetadata.get? denom ∨
    (Creates k denom s msg ∧ s.denomMetaData.get? denom = none ∧
      t.authorityMetadata.get? denom = some ⟨msg.sender⟩) ∨
    (∃ m, msg = .changeAdmin m ∧ m.denom = denom ∧ m.sender = admin s denom ∧
      t.authorityMetadata.get? denom = some ⟨m.newAdmin⟩) := by
  obtain ⟨bank, rfl⟩ | ⟨gasLeft, m, d, rfl, hr⟩ | ⟨m, rfl, hadmin, rfl⟩ | ⟨m, rfl, _, rfl⟩ :=
    handle_cases (execute_eq_ok.mp h).2
  · exact Or.inl rfl
  · by_cases he : d = denom
    · subst he
      have hcreates : Creates k d s (.createDenom gasLeft m) := ⟨gasLeft, m, t, rfl, h, hr⟩
      obtain ⟨_, hnone, _, _, _, rfl⟩ := createDenom_effect hr
      exact Or.inr (Or.inl ⟨hcreates, hnone, SortedMap.get?_insert_self _ _ _⟩)
    · obtain ⟨_, _, _, _, _, rfl⟩ := createDenom_effect hr
      exact Or.inl (SortedMap.get?_insert_ne _ _ he)
  · by_cases he : m.denom = denom
    · subst he
      exact Or.inr (Or.inr ⟨m, rfl, rfl, hadmin, SortedMap.get?_insert_self _ _ _⟩)
    · exact Or.inl (SortedMap.get?_insert_ne _ _ he)
  · exact Or.inl rfl

/-- Metadata is written by the creation of its denomination or by the current admin. -/
theorem metadata_cases (h : execute k s msg = .ok t) (denom : String) :
    t.denomMetaData.get? denom = s.denomMetaData.get? denom ∨
      (t.denomMetaData.get? denom).isSome = true ∧
        (Creates k denom s msg ∧ s.denomMetaData.get? denom = none ∨ msg.sender = admin s denom) := by
  obtain ⟨bank, rfl⟩ | ⟨gasLeft, m, d, rfl, hr⟩ | ⟨m, rfl, _, rfl⟩ | ⟨m, rfl, hadmin, rfl⟩ :=
    handle_cases (execute_eq_ok.mp h).2
  · exact Or.inl rfl
  · by_cases he : d = denom
    · subst he
      have hcreates : Creates k d s (.createDenom gasLeft m) := ⟨gasLeft, m, t, rfl, h, hr⟩
      obtain ⟨_, hnone, _, _, _, rfl⟩ := createDenom_effect hr
      refine Or.inr ⟨?_, Or.inl ⟨hcreates, hnone⟩⟩
      rw [SortedMap.get?_insert_self]
      rfl
    · obtain ⟨_, _, _, _, _, rfl⟩ := createDenom_effect hr
      exact Or.inl (SortedMap.get?_insert_ne _ _ he)
  · exact Or.inl rfl
  · by_cases he : m.metadata.base = denom
    · subst he
      refine Or.inr ⟨?_, Or.inr hadmin⟩
      simp only [setDenomMetaData, SortedMap.get?_insert_self, Option.isSome_some]
    · exact Or.inl (SortedMap.get?_insert_ne _ _ he)

theorem execute_params (h : execute k s msg = .ok t) : t.params = s.params := by
  obtain ⟨bank, rfl⟩ | ⟨_, _, _, _, hr⟩ | ⟨m, _, _, rfl⟩ | ⟨m, _, _, rfl⟩ :=
    handle_cases (execute_eq_ok.mp h).2
  · rfl
  · obtain ⟨_, _, _, _, _, rfl⟩ := createDenom_effect hr
    rfl
  · rfl
  · rfl

end Execute

section Runs

variable {k : Keeper} {s t : State} {msg : Msg} {denom : String}

theorem step_cases (h : step k s msg = .ok t) :
    ¬ Returns (execute k s msg) ∧ t = s ∨ execute k s msg = .ok t := by
  cases h
  exact rolledBack_cases s _

/-- Parameters stay at their defaults and every authority entry has metadata. -/
structure Consistent (s : State) : Prop where
  params : s.params = defaultParams
  metadata : ∀ d, (s.authorityMetadata.get? d).isSome = true →
    (s.denomMetaData.get? d).isSome = true

theorem consistent_defaultGenesis (metadata : SortedMap String Metadata)
    (bank : Ledger Account String) : Consistent (defaultGenesis metadata bank) :=
  ⟨rfl, fun d hd => by simp [defaultGenesis] at hd⟩

theorem metadata_isSome (h : execute k s msg = .ok t) (hd : (s.denomMetaData.get? denom).isSome) :
    (t.denomMetaData.get? denom).isSome = true := by
  obtain hm | ⟨hm, _⟩ := metadata_cases h denom
  · rw [hm]
    exact hd
  · exact hm

theorem creates_effect (h : Creates k denom s msg) (ht : execute k s msg = .ok t) :
    (t.denomMetaData.get? denom).isSome = true ∧ (t.authorityMetadata.get? denom).isSome = true := by
  obtain ⟨gasLeft, m, u, rfl, hu, hr⟩ := h
  rw [hu] at ht
  cases ht
  obtain ⟨_, _, _, _, _, rfl⟩ := createDenom_effect hr
  simp only [SortedMap.get?_insert_self, Option.isSome_some, and_self]

/-- Only the admin of an existing entry can send as its admin. -/
theorem isSome_of_sender_eq_admin (h : execute k s msg = .ok t) (hadmin : msg.sender = admin s denom) :
    (s.authorityMetadata.get? denom).isSome = true := by
  apply isSome_of_admin_ne_empty
  rw [← hadmin]
  exact sender_ne_empty h

theorem consistent_step (s : State) (msg : Msg) (t : State) (hs : Consistent s)
    (h : step k s msg = .ok t) : Consistent t := by
  obtain ⟨_, rfl⟩ | h := step_cases h
  · exact hs
  · refine ⟨(execute_params h).trans hs.params, fun d hd => ?_⟩
    obtain ha | ⟨hc, _⟩ | ⟨m, rfl, rfl, hadmin, _⟩ := authority_cases h d
    · rw [ha] at hd
      exact metadata_isSome h (hs.metadata d hd)
    · exact (creates_effect hc h).1
    · apply metadata_isSome h
      apply hs.metadata
      exact isSome_of_sender_eq_admin h hadmin

/-- An authority entry appears exactly when its denomination is created. -/
theorem authority_isSome_step (denom : String) (s : State) (msg : Msg) (t : State)
    (h : step k s msg = .ok t) :
    (t.authorityMetadata.get? denom).isSome = true ↔
      (s.authorityMetadata.get? denom).isSome = true ∨ Creates k denom s msg := by
  obtain ⟨hfail, rfl⟩ | h := step_cases h
  · have hc : ¬ Creates k denom t msg := fun ⟨_, _, u, _, hu, _⟩ => hfail ⟨u, hu⟩
    simp [hc]
  · constructor
    · intro hd
      obtain ha | ⟨hc, _⟩ | ⟨m, rfl, rfl, hadmin, _⟩ := authority_cases h denom
      · rw [ha] at hd
        exact Or.inl hd
      · exact Or.inr hc
      · exact Or.inl (isSome_of_sender_eq_admin h hadmin)
    · rintro (hd | hc)
      · obtain ha | ⟨_, _, ha⟩ | ⟨m, _, _, _, ha⟩ := authority_cases h denom
        · rw [ha]
          exact hd
        · rw [ha]
          rfl
        · rw [ha]
          rfl
      · exact (creates_effect hc h).2

/-- `denom` was created at some step of the run. -/
def Created (k : Keeper) (genesis : State) (msgs : List Msg) (denom : String) : Prop :=
  Runs.Sometime (step k) (Creates k denom) genesis msgs

theorem created_iff {metadata : SortedMap String Metadata} {bank : Ledger Account String}
    {msgs : List Msg} (h : Runs.run (step k) (defaultGenesis metadata bank) msgs = .ok s)
    (denom : String) :
    Created k (defaultGenesis metadata bank) msgs denom ↔
      (s.authorityMetadata.get? denom).isSome = true := by
  rw [Runs.established_iff (authority_isSome_step denom) h, Created]
  simp [defaultGenesis]

theorem factoryDenom_of_created {genesis : State} {msgs : List Msg}
    (h : Created k genesis msgs denom) : FactoryDenom denom := by
  obtain ⟨s, msg, gasLeft, m, t, _, _, hr⟩ := Runs.exists_of_sometime h
  exact ⟨_, _, (createDenom_effect hr).1⟩

/-- A renounced denomination keeps its supply, its admin and its metadata. -/
structure Frozen (denom : String) (s t : State) : Prop where
  consistent : Consistent t
  admin : t.authorityMetadata.get? denom = some ⟨""⟩
  metadata : t.denomMetaData.get? denom = s.denomMetaData.get? denom
  supply : t.bank.supply denom = s.bank.supply denom

theorem frozen_step (hd : FactoryDenom denom) (s t : State) (msg : Msg) (u : State)
    (hf : Frozen denom s t) (h : step k t msg = .ok u) : Frozen denom s u := by
  have hcons := consistent_step t msg u hf.consistent h
  have hempty : admin t denom = "" := by simp [admin, getAuthorityMetadata, hf.admin]
  have hsome : (t.denomMetaData.get? denom).isSome = true :=
    hf.consistent.metadata denom (by rw [hf.admin]; rfl)
  obtain ⟨_, rfl⟩ | h := step_cases h
  · exact hf
  · have hsender : ∀ m : Msg, execute k t m = .ok u → m.sender ≠ admin t denom := fun m hm => by
      rw [hempty]
      exact sender_ne_empty hm
    refine ⟨hcons, ?_, ?_, ?_⟩
    · obtain ha | ⟨_, hnone, _⟩ | ⟨m, rfl, _, hadmin, _⟩ := authority_cases h denom
      · rw [ha]
        exact hf.admin
      · simp [hnone] at hsome
      · exact absurd hadmin (hsender _ h)
    · obtain hm | ⟨_, ⟨_, hnone⟩ | hadmin⟩ := metadata_cases h denom
      · rw [hm]
        exact hf.metadata
      · simp [hnone] at hsome
      · exact absurd hadmin (hsender _ h)
    · obtain hu | ⟨m, rfl, _, hadmin, _⟩ | ⟨m, rfl, _, hadmin, _⟩ :=
        supply_cases hf.consistent.params hd h
      · rw [hu]
        exact hf.supply
      · exact absurd hadmin (hsender _ h)
      · exact absurd hadmin (hsender _ h)

section Reached

variable {metadata : SortedMap String Metadata} {bank : Ledger Account String} {msgs : List Msg}
  (hs : Runs.run (step k) (defaultGenesis metadata bank) msgs = .ok s)
include hs

theorem metadata_of_created (hcreated : Created k (defaultGenesis metadata bank) msgs denom) :
    (s.denomMetaData.get? denom).isSome = true :=
  (Runs.run_invariant consistent_step (consistent_defaultGenesis metadata bank) hs).metadata denom
    ((created_iff hs denom).mp hcreated)

theorem not_created_of_creates (hc : Creates k denom s msg) :
    ¬ Created k (defaultGenesis metadata bank) msgs denom ∧ s.denomMetaData.get? denom = none := by
  obtain ⟨gasLeft, m, t, _, _, hr⟩ := hc
  have hnone := (createDenom_effect hr).2.1
  refine ⟨fun hcreated => ?_, hnone⟩
  have hsome := metadata_of_created hs hcreated
  simp [hnone] at hsome

theorem changeAdmin_of_admin_ne (h : step k s msg = .ok t)
    (hcreated : Created k (defaultGenesis metadata bank) msgs denom)
    (hne : admin t denom ≠ admin s denom) :
    ∃ m, msg = .changeAdmin m ∧ m.denom = denom ∧ m.sender = admin s denom ∧
      admin t denom = m.newAdmin := by
  have hsome := metadata_of_created hs hcreated
  obtain ⟨_, rfl⟩ | h := step_cases h
  · exact absurd rfl hne
  · obtain ha | ⟨_, hnone, _⟩ | ⟨m, rfl, hm, hadmin, ha⟩ := authority_cases h denom
    · exact absurd (by simp [admin, getAuthorityMetadata, ha]) hne
    · simp [hnone] at hsome
    · exact ⟨m, rfl, hm, hadmin, by simp [admin, getAuthorityMetadata, ha]⟩

/-- A created denomination without an admin is frozen in every later run. -/
theorem frozen_run (hcreated : Created k (defaultGenesis metadata bank) msgs denom)
    (hempty : admin s denom = "") {later : List Msg} (h : Runs.run (step k) s later = .ok t) :
    Frozen denom s t := by
  have hcons := Runs.run_invariant consistent_step (consistent_defaultGenesis metadata bank) hs
  obtain ⟨a, ha⟩ := Option.isSome_iff_exists.mp ((created_iff hs denom).mp hcreated)
  have hstart : Frozen denom s s := by
    refine ⟨hcons, ?_, rfl, rfl⟩
    rw [ha]
    simp only [admin, getAuthorityMetadata, ha, Option.getD_some] at hempty
    rw [← hempty]
  exact Runs.run_invariant (frozen_step (factoryDenom_of_created hcreated) s) hstart h

end Reached

end Runs

/-- In every state reached from the default genesis: the supply of a factory
denomination moves only by a mint or burn of its admin, by the message's amount,
and a mint or burn that succeeds moves it so; only created denominations are
minted; none is created twice; its admin changes only by a message of the admin;
and an empty admin freezes supply, admin and metadata for every later run. -/
theorem reachable_authority (k : Keeper) (metadata : SortedMap String Metadata)
    (bank : Ledger Account String) (msgs : List Msg) {s : State}
    (hs : Runs.run (step k) (defaultGenesis metadata bank) msgs = .ok s) :
    (∀ msg t denom, step k s msg = .ok t → FactoryDenom denom →
      t.bank.supply denom ≠ s.bank.supply denom →
        (∃ m, msg = .mint m ∧ execute k s msg = .ok t ∧ m.amount.denom = denom ∧
          m.sender = admin s denom ∧
          (t.bank.supply denom : ℤ) = s.bank.supply denom + m.amount.amount.val) ∨
        (∃ m, msg = .burn m ∧ execute k s msg = .ok t ∧ m.amount.denom = denom ∧
          m.sender = admin s denom ∧
          (t.bank.supply denom : ℤ) = s.bank.supply denom - m.amount.amount.val)) ∧
    (∀ m t, execute k s (.mint m) = .ok t →
      Created k (defaultGenesis metadata bank) msgs m.amount.denom ∧
        (t.bank.supply m.amount.denom : ℤ) =
          s.bank.supply m.amount.denom + m.amount.amount.val) ∧
    (∀ m t, execute k s (.burn m) = .ok t →
      (t.bank.supply m.amount.denom : ℤ) = s.bank.supply m.amount.denom - m.amount.amount.val) ∧
    (∀ denom msg, Creates k denom s msg →
      ¬ Created k (defaultGenesis metadata bank) msgs denom ∧
        s.denomMetaData.get? denom = none) ∧
    (∀ msg t denom, step k s msg = .ok t →
      Created k (defaultGenesis metadata bank) msgs denom → admin t denom ≠ admin s denom →
        ∃ m, msg = .changeAdmin m ∧ m.denom = denom ∧ m.sender = admin s denom ∧
          admin t denom = m.newAdmin) ∧
    (∀ denom, Created k (defaultGenesis metadata bank) msgs denom → admin s denom = "" →
      ∀ later t, Runs.run (step k) s later = .ok t →
        t.bank.supply denom = s.bank.supply denom ∧ admin t denom = "" ∧
          t.denomMetaData.get? denom = s.denomMetaData.get? denom) := by
  have hcons : Consistent s :=
    Runs.run_invariant consistent_step (consistent_defaultGenesis metadata bank) hs
  refine ⟨?_, ?_, ?_, ?_, ?_, ?_⟩
  · intro msg t denom h hd hne
    obtain ⟨_, rfl⟩ | h := step_cases h
    · exact absurd rfl hne
    · obtain he | ⟨m, rfl, hm⟩ | ⟨m, rfl, hm⟩ := supply_cases hcons.params hd h
      · exact absurd he hne
      · exact Or.inl ⟨m, rfl, h, hm⟩
      · exact Or.inr ⟨m, rfl, h, hm⟩
  · intro m t h
    exact ⟨(created_iff hs _).mpr (isSome_of_sender_eq_admin h (mint_supply h).1), (mint_supply h).2⟩
  · intro m t h
    exact (burn_supply h).2
  · intro denom msg hc
    exact not_created_of_creates hs hc
  · intro msg t denom h hcreated hne
    exact changeAdmin_of_admin_ne hs h hcreated hne
  · intro denom hcreated hempty later t h
    have hf := frozen_run hs hcreated hempty h
    exact ⟨hf.supply, by simp [admin, getAuthorityMetadata, hf.admin], hf.metadata⟩

namespace RenouncedGold

def keeper : Keeper where
  enabledCapabilities := [enableSetMetadata, enableCommunityPoolFeeFunding]
  permAddrs := [moduleName]
  accAddressFromBech32 address := if address = "" then none else some (.user address)
  addressString
    | .user address => address
    | .module name => name
  blockedAddr _ := false
  metadataValid _ := true
  empty_address := rfl

def bank : Ledger Account String where
  balance a d := if a = .user "alice" ∧ d = "akii" then 10000000 else 0
  locked _ _ := 0
  supply d := if d = "akii" then 10000000 else 0

def five : SdkInt := ⟨5, by norm_num⟩

def history : List Msg :=
  [.createDenom 2000000 ⟨"alice", "gold"⟩,
    .mint ⟨"alice", ⟨"factory/alice/gold", five⟩, ""⟩,
    .changeAdmin ⟨"alice", "factory/alice/gold", ""⟩]

/-- Gold that its creator mints and renounces keeps its supply in every later run. -/
theorem supply_stays : ∃ s, Runs.run (step keeper) (defaultGenesis ∅ bank) history = .ok s ∧
    s.bank.supply "factory/alice/gold" = 5 ∧
    ∀ later t, Runs.run (step keeper) s later = .ok t →
      t.bank.supply "factory/alice/gold" = 5 := by
  have hrun : (Runs.run (step keeper) (defaultGenesis ∅ bank) history).toOption.map (fun s =>
      (s.bank.supply "factory/alice/gold", admin s "factory/alice/gold")) = some (5, "") := by
    decide
  cases hs : Runs.run (step keeper) (defaultGenesis ∅ bank) history with
  | error f => simp [hs, Except.toOption] at hrun
  | ok s =>
      simp only [hs, Except.toOption, Option.map_some, Option.some.injEq, Prod.mk.injEq] at hrun
      have hcreated : Created keeper (defaultGenesis ∅ bank) history "factory/alice/gold" :=
        Or.inl ⟨2000000, ⟨"alice", "gold"⟩, _, rfl, rfl, rfl⟩
      refine ⟨s, rfl, hrun.1, fun later t h => ?_⟩
      rw [((reachable_authority keeper ∅ bank history hs).2.2.2.2.2 _ hcreated hrun.2 later t h).1]
      exact hrun.1

end RenouncedGold

end Kiichain.TokenFactory
