import Kiichain.Runs

/-!
# Cells of a state

A cell is a part of a state that some steps write, some empty and all others leave.
What it holds at the end of a run was put there by the last step that touched it.
-/

namespace Runs
open GoExec

variable {σ ε V : Type} {step : σ → ε → Exec σ}

/-- Along a run a condition is never met, or there is a last step that meets it. -/
theorem exists_last (P : σ → ε → Prop) {s s' : σ} {es : List ε} (h : run step s es = .ok s') :
    Along step (fun t e => ¬ P t e) s es ∨
      ∃ before e after t u, es = before ++ e :: after ∧ run step s before = .ok t ∧ P t e ∧
        step t e = .ok u ∧ run step u after = .ok s' ∧
        Along step (fun t e => ¬ P t e) u after := by
  induction es generalizing s with
  | nil => exact Or.inl trivial
  | cons e es ih =>
      obtain ⟨t, ht, hr⟩ := run_cons_eq_ok.mp h
      obtain hnever | ⟨before, e', after, u, w, rfl, hu, hP, hw, hafter, hquiet⟩ := ih hr
      · by_cases hP : P s e
        · exact Or.inr ⟨[], e, es, s, t, rfl, rfl, hP, ht, hr, hnever⟩
        · refine Or.inl ⟨hP, fun t' ht' => ?_⟩
          rw [ht] at ht'
          cases ht'
          exact hnever
      · exact Or.inr ⟨e :: before, e', after, u, w, rfl, run_cons_eq_ok.mpr ⟨t, ht, hu⟩, hP, hw,
          hafter, hquiet⟩

/-- What a cell holds, which steps write a value into it and which ones empty it. -/
structure Cell (step : σ → ε → Exec σ) (V : Type) where
  read : σ → Option V
  Writes : V → σ → ε → Prop
  Empties : σ → ε → Prop
  read_of_writes : ∀ {v s e s'}, step s e = .ok s' → Writes v s e → read s' = some v
  read_of_empties : ∀ {s e s'}, step s e = .ok s' → Empties s e → read s' = none
  read_of_untouched : ∀ {s e s'}, step s e = .ok s' → (∀ v, ¬ Writes v s e) → ¬ Empties s e →
    read s' = read s

namespace Cell

variable (k : Cell step V)

def Touches (s : σ) (e : ε) : Prop := (∃ v, k.Writes v s e) ∨ k.Empties s e

/-- No step of the run touches the cell. -/
def Untouched (s : σ) (es : List ε) : Prop := Along step (fun t e => ¬ k.Touches t e) s es

/-- A step of the run wrote `v`, and none after it touched the cell. -/
def LastWrote (v : V) (s : σ) (es : List ε) : Prop :=
  ∃ before e after t u, es = before ++ e :: after ∧ run step s before = .ok t ∧ k.Writes v t e ∧
    step t e = .ok u ∧ k.Untouched u after

/-- A step of the run emptied the cell, and none after it touched the cell. -/
def LastEmptied (s : σ) (es : List ε) : Prop :=
  ∃ before e after t u, es = before ++ e :: after ∧ run step s before = .ok t ∧ k.Empties t e ∧
    step t e = .ok u ∧ k.Untouched u after

variable {k} {s s' : σ} {es : List ε}

theorem read_of_run (h : run step s es = .ok s') (hquiet : k.Untouched s es) :
    k.read s' = k.read s := by
  apply run_invariant_along (I := fun t => k.read t = k.read s) _ rfl hquiet h
  intro t e t' hread huntouched hstep
  have hwrites : ∀ v, ¬ k.Writes v t e := fun v hv => huntouched (Or.inl ⟨v, hv⟩)
  rw [k.read_of_untouched hstep hwrites (fun he => huntouched (Or.inr he)), hread]

/-- The run after the step `e` of a longer one. -/
theorem run_after {before after : List ε} {e : ε} {t u : σ}
    (h : run step s (before ++ e :: after) = .ok s') (ht : run step s before = .ok t)
    (hu : step t e = .ok u) : run step u after = .ok s' := by
  rw [run_append, ht, ok_bind, run_cons, hu, ok_bind] at h
  exact h

theorem read_of_lastWrote {v : V} (h : run step s es = .ok s') (hlast : k.LastWrote v s es) :
    k.read s' = some v := by
  obtain ⟨before, e, after, t, u, rfl, ht, hwrites, hu, hquiet⟩ := hlast
  rw [read_of_run (run_after h ht hu) hquiet, k.read_of_writes hu hwrites]

theorem read_of_lastEmptied (h : run step s es = .ok s') (hlast : k.LastEmptied s es) :
    k.read s' = none := by
  obtain ⟨before, e, after, t, u, rfl, ht, hempties, hu, hquiet⟩ := hlast
  rw [read_of_run (run_after h ht hu) hquiet, k.read_of_empties hu hempties]

variable (k) in
theorem history (h : run step s es = .ok s') :
    k.Untouched s es ∨ (∃ v, k.LastWrote v s es) ∨ k.LastEmptied s es := by
  obtain hnever | ⟨before, e, after, t, u, hes, ht, ⟨v, hv⟩ | he, hu, _, hquiet⟩ :=
    exists_last k.Touches h
  · exact Or.inl hnever
  · exact Or.inr (Or.inl ⟨v, before, e, after, t, u, hes, ht, hv, hu, hquiet⟩)
  · exact Or.inr (Or.inr ⟨before, e, after, t, u, hes, ht, he, hu, hquiet⟩)

/-- A cell holds what was written last, or what it held before an untouched run. -/
theorem read_eq_some_iff (h : run step s es = .ok s') {v : V} :
    k.read s' = some v ↔ k.LastWrote v s es ∨ k.read s = some v ∧ k.Untouched s es := by
  constructor
  · intro hread
    obtain hquiet | ⟨w, hw⟩ | hemptied := k.history h
    · exact Or.inr ⟨(read_of_run h hquiet).symm.trans hread, hquiet⟩
    · obtain rfl := Option.some.inj ((read_of_lastWrote h hw).symm.trans hread)
      exact Or.inl hw
    · rw [read_of_lastEmptied h hemptied] at hread
      cases hread
  · rintro (hlast | ⟨hread, hquiet⟩)
    · exact read_of_lastWrote h hlast
    · rw [read_of_run h hquiet, hread]

/-- What a cell that starts empty holds was written last. -/
theorem read_eq_some_iff_of_empty (hs : k.read s = none) (h : run step s es = .ok s') {v : V} :
    k.read s' = some v ↔ k.LastWrote v s es := by
  rw [read_eq_some_iff h, hs]
  simp

end Cell

end Runs
