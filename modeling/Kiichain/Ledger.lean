import Kiichain.GoExec

/-!
# Account ledgers

A ledger holds the balance of every account in every denomination, the part of
each balance its account cannot spend, and the total supply. Every operation
moves exactly the amount it is given or fails.
-/

open GoExec

structure Ledger (A D : Type) where
  balance : A → D → ℕ
  locked : A → D → ℕ
  supply : D → ℕ

namespace Ledger

variable {A D : Type} [DecidableEq A] [DecidableEq D]

def credit (l : Ledger A D) (a : A) (d : D) (n : ℕ) : Ledger A D :=
  { l with balance := fun b e => if b = a ∧ e = d then l.balance a d + n else l.balance b e }

def debit (l : Ledger A D) (a : A) (d : D) (n : ℕ) : Ledger A D :=
  { l with balance := fun b e => if b = a ∧ e = d then l.balance a d - n else l.balance b e }

def spendable (l : Ledger A D) (a : A) (d : D) : ℕ := l.balance a d - l.locked a d

/-- A transfer out of an account that holds no locked coins. -/
def transfer (l : Ledger A D) (a b : A) (d : D) (n : ℕ) : Exec (Ledger A D) := do
  ensure (n ≤ l.balance a d) (.error "insufficient funds")
  pure ((l.debit a d n).credit b d n)

def send (l : Ledger A D) (a b : A) (d : D) (n : ℕ) : Exec (Ledger A D) := do
  ensure (n ≤ l.spendable a d) (.error "insufficient funds")
  l.transfer a b d n

def mint (l : Ledger A D) (a : A) (d : D) (n : ℕ) : Ledger A D :=
  { l.credit a d n with supply := Function.update l.supply d (l.supply d + n) }

def burn (l : Ledger A D) (a : A) (d : D) (n : ℕ) : Exec (Ledger A D) := do
  ensure (n ≤ l.balance a d) (.error "insufficient funds")
  ensure (n ≤ l.supply d) (.panic "negative coin amount")
  pure { l.debit a d n with supply := Function.update l.supply d (l.supply d - n) }

theorem credit_balance (l : Ledger A D) (a b : A) (d e : D) (n : ℕ) :
    (l.credit a d n).balance b e = if b = a ∧ e = d then l.balance a d + n else l.balance b e := rfl

theorem debit_balance (l : Ledger A D) (a b : A) (d e : D) (n : ℕ) :
    (l.debit a d n).balance b e = if b = a ∧ e = d then l.balance a d - n else l.balance b e := rfl

@[simp] theorem credit_supply (l : Ledger A D) (a : A) (d : D) (n : ℕ) :
    (l.credit a d n).supply = l.supply := rfl

@[simp] theorem debit_supply (l : Ledger A D) (a : A) (d : D) (n : ℕ) :
    (l.debit a d n).supply = l.supply := rfl

theorem transfer_eq_ok {l l' : Ledger A D} {a b : A} {d : D} {n : ℕ} :
    l.transfer a b d n = .ok l' ↔ n ≤ l.balance a d ∧ l' = (l.debit a d n).credit b d n := by
  simp only [transfer, bind_eq_ok, ensure_eq_ok, pure_eq_ok, Except.ok.injEq, exists_and_left]
  simp [eq_comm]

theorem send_eq_ok {l l' : Ledger A D} {a b : A} {d : D} {n : ℕ} :
    l.send a b d n = .ok l' ↔ n ≤ l.spendable a d ∧ l' = (l.debit a d n).credit b d n := by
  simp only [send, bind_eq_ok, ensure_eq_ok, transfer_eq_ok, exists_and_left, exists_const]
  constructor
  · rintro ⟨h, _, rfl⟩
    exact ⟨h, rfl⟩
  · rintro ⟨h, rfl⟩
    exact ⟨h, h.trans (Nat.sub_le _ _), rfl⟩

theorem burn_eq_ok {l l' : Ledger A D} {a : A} {d : D} {n : ℕ} :
    l.burn a d n = .ok l' ↔ n ≤ l.balance a d ∧ n ≤ l.supply d ∧
      l' = { l.debit a d n with supply := Function.update l.supply d (l.supply d - n) } := by
  simp only [burn, bind_eq_ok, ensure_eq_ok, pure_eq_ok, Except.ok.injEq, exists_and_left]
  simp [eq_comm]

theorem transfer_supply {l l' : Ledger A D} {a b : A} {d : D} {n : ℕ}
    (h : l.transfer a b d n = .ok l') : l'.supply = l.supply := by
  obtain ⟨_, rfl⟩ := transfer_eq_ok.mp h
  rfl

theorem send_supply {l l' : Ledger A D} {a b : A} {d : D} {n : ℕ}
    (h : l.send a b d n = .ok l') : l'.supply = l.supply := by
  obtain ⟨_, rfl⟩ := send_eq_ok.mp h
  rfl

theorem mint_supply (l : Ledger A D) (a : A) (d e : D) (n : ℕ) :
    (l.mint a d n).supply e = if e = d then l.supply d + n else l.supply e :=
  Function.update_apply _ _ _ _

theorem burn_supply {l l' : Ledger A D} {a : A} {d : D} {n : ℕ} (h : l.burn a d n = .ok l') (e : D) :
    l'.supply e = if e = d then l.supply d - n else l.supply e := by
  obtain ⟨_, _, rfl⟩ := burn_eq_ok.mp h
  exact Function.update_apply _ _ _ _

/-- A transfer moves its amount, also where it goes back to the account it takes from. -/
theorem transfer_balance {l l' : Ledger A D} {a b : A} {d : D} {n : ℕ}
    (h : l.transfer a b d n = .ok l') (c : A) (e : D) :
    (l'.balance c e + if c = a ∧ e = d then n else 0) =
      l.balance c e + if c = b ∧ e = d then n else 0 := by
  obtain ⟨hn, rfl⟩ := transfer_eq_ok.mp h
  rw [credit_balance, debit_balance, debit_balance]
  by_cases hd : e = d
  · subst hd
    by_cases ha : c = a <;> by_cases hb : c = b <;> by_cases hab : b = a <;> simp_all
  · simp [hd]

/-- A transfer, to whatever account, takes at most the amount from any balance. -/
theorem le_transfer_balance {l l' : Ledger A D} {a b : A} {d : D} {n : ℕ}
    (h : l.transfer a b d n = .ok l') (c : A) (e : D) :
    l.balance c e ≤ l'.balance c e + if e = d then n else 0 := by
  have hmoved := transfer_balance h c e
  by_cases ha : c = a
  · simp only [ha, true_and] at hmoved ⊢
    omega
  · simp only [ha, false_and, if_false] at hmoved
    omega

/-- What a transfer does to every account but the one it takes from. -/
theorem transfer_balance_of_ne {l l' : Ledger A D} {a b c : A} {d : D} {n : ℕ} (hc : c ≠ a)
    (h : l.transfer a b d n = .ok l') (e : D) :
    l'.balance c e = l.balance c e + if c = b ∧ e = d then n else 0 := by
  have hmoved := transfer_balance h c e
  simp only [hc, false_and, if_false] at hmoved
  exact hmoved

theorem send_balance_of_ne {l l' : Ledger A D} {a b c : A} {d : D} {n : ℕ} (hc : c ≠ a)
    (h : l.send a b d n = .ok l') (e : D) :
    l'.balance c e = l.balance c e + if c = b ∧ e = d then n else 0 :=
  transfer_balance_of_ne hc (bind_eq_ok.mp h).choose_spec.2 e

theorem send_balance {l l' : Ledger A D} {a b : A} {d : D} {n : ℕ} (h : l.send a b d n = .ok l')
    (c : A) (e : D) : (l'.balance c e + if c = a ∧ e = d then n else 0) =
      l.balance c e + if c = b ∧ e = d then n else 0 :=
  transfer_balance (bind_eq_ok.mp h).choose_spec.2 c e

theorem mint_balance (l : Ledger A D) (a b : A) (d e : D) (n : ℕ) :
    (l.mint a d n).balance b e = l.balance b e + if b = a ∧ e = d then n else 0 := by
  change (l.credit a d n).balance b e = _
  rw [credit_balance]
  by_cases hb : b = a ∧ e = d
  · obtain ⟨rfl, rfl⟩ := hb
    simp
  · simp [hb]

theorem burn_balance {l l' : Ledger A D} {a : A} {d : D} {n : ℕ} (h : l.burn a d n = .ok l')
    (b : A) (e : D) : l.balance b e = l'.balance b e + if b = a ∧ e = d then n else 0 := by
  obtain ⟨hn, _, rfl⟩ := burn_eq_ok.mp h
  change _ = (l.debit a d n).balance b e + _
  rw [debit_balance]
  by_cases hb : b = a ∧ e = d
  · obtain ⟨rfl, rfl⟩ := hb
    simp only [and_self, if_true]
    omega
  · simp [hb]

theorem send_balance_other {l l' : Ledger A D} {a b : A} {d : D} {n : ℕ} (hab : a ≠ b)
    (h : l.send a b d n = .ok l') (e : D) :
    l'.balance b e = l.balance b e + if e = d then n else 0 := by
  rw [send_balance_of_ne (Ne.symm hab) h]
  simp

/-- What an account has just received it can have burned. -/
theorem returns_burn_of_send {l m : Ledger A D} {a b : A} {d : D} {n : ℕ}
    (h : l.send a b d n = .ok m) : Returns (m.burn b d n) ↔ n ≤ l.supply d := by
  have hsupply : m.supply = l.supply := send_supply h
  have hheld : n ≤ m.balance b d := by
    have hmoved := send_balance h b d
    have hspendable : n ≤ l.balance a d := (send_eq_ok.mp h).1.trans (Nat.sub_le _ _)
    by_cases hab : b = a
    · simp only [hab, and_self, if_true] at hmoved hspendable ⊢
      omega
    · simp only [hab, false_and, if_false, and_self, if_true] at hmoved
      omega
  simp only [Returns, burn_eq_ok, hsupply, hheld, true_and]
  constructor
  · rintro ⟨_, hle, _⟩
    exact hle
  · intro hle
    exact ⟨_, hle, rfl⟩

end Ledger
