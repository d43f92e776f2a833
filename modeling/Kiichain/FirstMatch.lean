import Mathlib.Data.List.Basic
import Mathlib.Tactic

/-!
# The first element with a property

A search from the front of a list passes over what it skips and ends on the
first element that it does not skip.
-/

namespace FirstMatch

variable {α β : Type*} {p q : α → Prop} {l : List α} {x y : α}

/-- `x` has the property, and nothing before it in the list does. -/
def IsFirst (p : α → Prop) (l : List α) (x : α) : Prop :=
  ∃ before after, l = before ++ x :: after ∧ p x ∧ ∀ y ∈ before, ¬ p y

theorem IsFirst.holds (h : IsFirst p l x) : p x := by
  obtain ⟨_, _, _, hx, _⟩ := h
  exact hx

theorem IsFirst.mem (h : IsFirst p l x) : x ∈ l := by
  obtain ⟨before, after, rfl, _, _⟩ := h
  exact List.mem_append_right before List.mem_cons_self

theorem isFirst_cons_of_not {a : α} (ha : ¬ p a) : IsFirst p (a :: l) x ↔ IsFirst p l x := by
  constructor
  · rintro ⟨before, after, hl, hx, hbefore⟩
    cases before with
    | nil =>
        obtain ⟨rfl, _⟩ := List.cons.inj hl
        exact absurd hx ha
    | cons b before =>
        obtain ⟨_, hl⟩ := List.cons.inj hl
        exact ⟨before, after, hl, hx, fun y hy => hbefore y (List.mem_cons_of_mem b hy)⟩
  · rintro ⟨before, after, rfl, hx, hbefore⟩
    refine ⟨a :: before, after, rfl, hx, fun y hy => ?_⟩
    obtain rfl | hy := List.mem_cons.mp hy
    · exact ha
    · exact hbefore y hy

theorem isFirst_cons_of {a : α} (ha : p a) : IsFirst p (a :: l) x ↔ x = a := by
  constructor
  · rintro ⟨before, after, hl, hx, hbefore⟩
    cases before with
    | nil => exact (List.cons.inj hl).1.symm
    | cons b before =>
        obtain ⟨rfl, _⟩ := List.cons.inj hl
        exact absurd ha (hbefore a List.mem_cons_self)
  · rintro rfl
    exact ⟨[], l, rfl, ha, fun y hy => absurd hy List.not_mem_nil⟩

theorem IsFirst.unique (hx : IsFirst p l x) (hy : IsFirst p l y) : x = y := by
  induction l with
  | nil => exact absurd hx.mem List.not_mem_nil
  | cons a l ih =>
      by_cases ha : p a
      · exact ((isFirst_cons_of ha).mp hx).trans ((isFirst_cons_of ha).mp hy).symm
      · exact ih ((isFirst_cons_of_not ha).mp hx) ((isFirst_cons_of_not ha).mp hy)

/-- Where some element has the property, one of them comes first. -/
theorem exists_isFirst (h : ∃ x ∈ l, p x) : ∃ x, IsFirst p l x := by
  induction l with
  | nil =>
      obtain ⟨x, hx, _⟩ := h
      exact absurd hx List.not_mem_nil
  | cons a l ih =>
      by_cases ha : p a
      · exact ⟨a, (isFirst_cons_of ha).mpr rfl⟩
      · obtain ⟨x, hx, hpx⟩ := h
        obtain rfl | hx := List.mem_cons.mp hx
        · exact absurd hpx ha
        · obtain ⟨z, hz⟩ := ih ⟨x, hx, hpx⟩
          exact ⟨z, (isFirst_cons_of_not ha).mpr hz⟩

/-- The first one is the first with any narrower property that it has. -/
theorem IsFirst.narrow (h : IsFirst p l x) (hqp : ∀ y, q y → p y) (hx : q x) : IsFirst q l x := by
  obtain ⟨before, after, hl, _, hbefore⟩ := h
  exact ⟨before, after, hl, hx, fun y hy hq => hbefore y hy (hqp y hq)⟩

/-- A search that skips the elements without the property goes on from the first
one with it. -/
theorem IsFirst.search_eq {f : List α → β} (hskip : ∀ a l, ¬ p a → f (a :: l) = f l)
    (h : IsFirst p l x) : ∃ after, f l = f (x :: after) := by
  induction l with
  | nil => exact absurd h.mem List.not_mem_nil
  | cons a l ih =>
      by_cases ha : p a
      · obtain rfl := (isFirst_cons_of ha).mp h
        exact ⟨l, rfl⟩
      · rw [hskip a l ha]
        exact ih ((isFirst_cons_of_not ha).mp h)

/-- A search that skips every element ends as on the empty list. -/
theorem search_eq_nil {f : List α → β} (hskip : ∀ a l, ¬ p a → f (a :: l) = f l)
    (h : ∀ x ∈ l, ¬ p x) : f l = f [] := by
  induction l with
  | nil => rfl
  | cons a l ih =>
      rw [hskip a l (h a List.mem_cons_self)]
      exact ih fun x hx => h x (List.mem_cons_of_mem a hx)

end FirstMatch
