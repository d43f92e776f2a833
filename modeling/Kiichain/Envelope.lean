import Mathlib.Data.Set.Basic
import Mathlib.Data.List.Basic

/-!
# Wrapped messages

An envelope holds a message, or any number of further envelopes. A property of
the messages at given depths splits along the envelope, and a check that follows
every wrapper decides the property of all of them.
-/

inductive Envelope (α : Type) : Type
  | leaf (a : α)
  | wrap (es : List (Envelope α))

namespace Envelope

variable {α : Type}

/-- The message lies below `k` wrappers. -/
inductive Within (a : α) : ℕ → Envelope α → Prop
  | leaf : Within a 0 (.leaf a)
  | wrap {es : List (Envelope α)} {e : Envelope α} {k : ℕ} (he : e ∈ es) (h : Within a k e) :
      Within a (k + 1) (.wrap es)

/-- Every message below wrappers of the given depths has the property. -/
def Below (depths : Set ℕ) (P : α → Prop) (e : Envelope α) : Prop :=
  ∀ k ∈ depths, ∀ a, Within a k e → P a

@[simp] theorem within_leaf_iff {a b : α} {k : ℕ} : Within a k (.leaf b) ↔ k = 0 ∧ b = a := by
  constructor
  · intro h
    cases h
    exact ⟨rfl, rfl⟩
  · intro h
    obtain ⟨rfl, rfl⟩ := h
    exact .leaf

@[simp] theorem within_wrap_iff {a : α} {k : ℕ} {es : List (Envelope α)} :
    Within a k (.wrap es) ↔ ∃ j, k = j + 1 ∧ ∃ e ∈ es, Within a j e := by
  constructor
  · intro h
    cases h with
    | wrap he h => exact ⟨_, rfl, _, he, h⟩
  · intro h
    obtain ⟨j, rfl, e, he, h⟩ := h
    exact .wrap he h

theorem below_leaf_iff {P : α → Prop} {a : α} : Below Set.univ P (.leaf a) ↔ P a := by
  simp [Below]

theorem below_wrap_iff {P : α → Prop} {es : List (Envelope α)} :
    Below Set.univ P (.wrap es) ↔ ∀ e ∈ es, Below Set.univ P e := by
  simp only [Below, Set.mem_univ, forall_const, within_wrap_iff]
  constructor
  · intro h e he k a ha
    exact h (k + 1) a ⟨k, rfl, e, he, ha⟩
  · intro h k a ha
    obtain ⟨j, rfl, e, he, ha⟩ := ha
    exact h e he j a ha

/-- A property of all messages is one of the outer message and of the wrapped ones. -/
theorem below_univ_iff {P : α → Prop} {e : Envelope α} :
    Below Set.univ P e ↔ (∀ a, e = .leaf a → P a) ∧ Below {k | 1 ≤ k} P e := by
  constructor
  · intro h
    refine ⟨?_, fun k _ => h k (Set.mem_univ k)⟩
    rintro a rfl
    exact below_leaf_iff.mp h
  · intro h k _ a ha
    obtain ⟨hleaf, hbelow⟩ := h
    cases k with
    | zero =>
        cases ha
        exact hleaf a rfl
    | succ k => exact hbelow (k + 1) (Nat.le_add_left 1 k) a ha

mutual

/-- The check of every message, through every wrapper. -/
def all (p : α → Bool) : Envelope α → Bool
  | .leaf a => p a
  | .wrap es => allOf p es

def allOf (p : α → Bool) : List (Envelope α) → Bool
  | [] => true
  | e :: es => e.all p && allOf p es

end

theorem allOf_eq_true {p : α → Bool} {es : List (Envelope α)} :
    allOf p es = true ↔ ∀ e ∈ es, e.all p = true := by
  induction es with
  | nil => simp [allOf]
  | cons e es ih => simp [allOf, ih]

section Fold

variable {β : Type} (leaf : α → β) (wrap : List β → β)

mutual

/-- The image of an envelope in a type with its own wrappers. -/
def fold : Envelope α → β
  | .leaf a => leaf a
  | .wrap es => wrap (foldAll es)

def foldAll : List (Envelope α) → List β
  | [] => []
  | e :: es => e.fold :: foldAll es

end

theorem mem_foldAll {es : List (Envelope α)} {b : β} :
    b ∈ foldAll leaf wrap es ↔ ∃ e ∈ es, e.fold leaf wrap = b := by
  induction es with
  | nil => simp [foldAll]
  | cons e es ih => simp [foldAll, ih, eq_comm]

end Fold

theorem all_eq_true {p : α → Bool} : ∀ e : Envelope α,
    e.all p = true ↔ Below Set.univ (fun a => p a = true) e
  | .leaf a => by rw [all, below_leaf_iff]
  | .wrap es => by
      rw [all, below_wrap_iff, allOf_eq_true]
      exact forall₂_congr fun e _ => all_eq_true e

end Envelope
