import Kiichain.GoExec
import Mathlib.Tactic.Ring

/-!
# Runs of a partial step function

A run applies a list of events one after the other and stops at the first step
that does not return. `Along P` asks that every step of the run meets `P` in the
state it is taken from.
-/

namespace Runs
open GoExec

variable {σ ε : Type} (step : σ → ε → Exec σ)

def run : σ → List ε → Exec σ
  | s, [] => .ok s
  | s, e :: es => step s e >>= fun s' => run s' es

def Along (P : σ → ε → Prop) : σ → List ε → Prop
  | _, [] => True
  | s, e :: es => P s e ∧ ∀ s', step s e = .ok s' → Along P s' es

instance decidableAlong (P : σ → ε → Prop) [∀ s e, Decidable (P s e)] :
    ∀ s es, Decidable (Along step P s es)
  | _, [] => inferInstanceAs (Decidable True)
  | s, e :: es =>
    match h : step s e with
    | .error _ => decidable_of_iff (P s e) (by simp [Along, h])
    | .ok t =>
      have := decidableAlong P t es
      decidable_of_iff (P s e ∧ Along step P t es) (by simp [Along, h])

/-- Some step of the run meets `P` in the state it is taken from. -/
def Sometime (P : σ → ε → Prop) : σ → List ε → Prop
  | _, [] => False
  | s, e :: es => P s e ∨ ∃ s', step s e = .ok s' ∧ Sometime P s' es

variable {step}

@[simp] theorem run_nil (s : σ) : run step s [] = .ok s := rfl

theorem run_cons (s : σ) (e : ε) (es : List ε) :
    run step s (e :: es) = step s e >>= fun s' => run step s' es := rfl

theorem run_cons_eq_ok {s s' : σ} {e : ε} {es : List ε} :
    run step s (e :: es) = .ok s' ↔ ∃ t, step s e = .ok t ∧ run step t es = .ok s' :=
  bind_eq_ok

theorem run_append (s : σ) (es es' : List ε) :
    run step s (es ++ es') = run step s es >>= fun t => run step t es' := by
  induction es generalizing s with
  | nil => rfl
  | cons e es ih =>
      simp only [List.cons_append, run_cons]
      cases step s e with
      | error f => rfl
      | ok t => exact ih t

theorem run_append_eq_ok {s s' : σ} {es es' : List ε} :
    run step s (es ++ es') = .ok s' ↔ ∃ t, run step s es = .ok t ∧ run step t es' = .ok s' := by
  rw [run_append]
  exact bind_eq_ok

/-- What the steps of a run preserve holds in the state it reaches. -/
theorem run_invariant_mem {I : σ → Prop} {es : List ε}
    (hstep : ∀ s, ∀ e ∈ es, ∀ s', I s → step s e = .ok s' → I s') {s s' : σ} (hs : I s)
    (h : run step s es = .ok s') : I s' := by
  induction es generalizing s with
  | nil =>
      cases h
      exact hs
  | cons e es ih =>
      obtain ⟨t, ht, hr⟩ := run_cons_eq_ok.mp h
      exact ih (fun s e' he' => hstep s e' (List.mem_cons_of_mem e he'))
        (hstep s e List.mem_cons_self t hs ht) hr

theorem run_invariant {I : σ → Prop} (hstep : ∀ s e s', I s → step s e = .ok s' → I s')
    {s s' : σ} {es : List ε} (hs : I s) (h : run step s es = .ok s') : I s' :=
  run_invariant_mem (fun s e _ => hstep s e) hs h

/-- What the steps that meet `P` preserve holds where every step of a run does. -/
theorem run_invariant_along {I : σ → Prop} {P : σ → ε → Prop}
    (hstep : ∀ s e s', I s → P s e → step s e = .ok s' → I s') {s s' : σ} {es : List ε}
    (hs : I s) (hP : Along step P s es) (h : run step s es = .ok s') : I s' := by
  induction es generalizing s with
  | nil =>
      cases h
      exact hs
  | cons e es ih =>
      obtain ⟨t, ht, hr⟩ := run_cons_eq_ok.mp h
      obtain ⟨hfirst, hrest⟩ := hP
      exact ih (hstep s e t hs hfirst ht) (hrest t ht) hr

theorem Along.imp {P Q : σ → ε → Prop} (h : ∀ s e, P s e → Q s e) {s : σ} {es : List ε}
    (hP : Along step P s es) : Along step Q s es := by
  induction es generalizing s with
  | nil => trivial
  | cons e es ih => exact ⟨h s e hP.1, fun t ht => ih (hP.2 t ht)⟩

theorem Along.and {P Q : σ → ε → Prop} {s : σ} {es : List ε} (hP : Along step P s es)
    (hQ : Along step Q s es) : Along step (fun s e => P s e ∧ Q s e) s es := by
  induction es generalizing s with
  | nil => trivial
  | cons e es ih => exact ⟨⟨hP.1, hQ.1⟩, fun t ht => ih (hP.2 t ht) (hQ.2 t ht)⟩

/-- A condition that holds of every step from a state of an invariant holds along
every run. -/
theorem along_of_invariant {I : σ → Prop} {P : σ → ε → Prop}
    (hstep : ∀ s e s', I s → step s e = .ok s' → I s') (h : ∀ s e, I s → P s e) {s : σ} (hs : I s)
    (es : List ε) : Along step P s es := by
  induction es generalizing s with
  | nil => trivial
  | cons e es ih => exact ⟨h s e hs, fun t ht => ih (hstep s e t hs ht)⟩

/-- When a step returns exactly under `C` in every state of an invariant, a run
returns exactly when each of its steps meets `C`. -/
theorem returns_run_iff {I : σ → Prop} {C : σ → ε → Prop}
    (hstep : ∀ s e s', I s → step s e = .ok s' → I s')
    (hC : ∀ s e, I s → (Returns (step s e) ↔ C s e)) {s : σ} (hs : I s) (es : List ε) :
    Returns (run step s es) ↔ Along step C s es := by
  induction es generalizing s with
  | nil => simp [Along]
  | cons e es ih =>
      rw [run_cons, returns_bind, Along, ← hC s e hs]
      constructor
      · rintro ⟨t, ht, hr⟩
        refine ⟨⟨t, ht⟩, fun s' hs' => ?_⟩
        rw [ht] at hs'
        cases hs'
        exact (ih (hstep s e t hs ht)).mp hr
      · rintro ⟨⟨t, ht⟩, hr⟩
        exact ⟨t, ht, (ih (hstep s e t hs ht)).mpr (hr t ht)⟩

theorem along_append (P : σ → ε → Prop) (s : σ) (es es' : List ε) :
    Along step P s (es ++ es') ↔
      Along step P s es ∧ ∀ t, run step s es = .ok t → Along step P t es' := by
  induction es generalizing s with
  | nil => simp [Along]
  | cons e es ih =>
      simp only [List.cons_append, Along, ih, run_cons_eq_ok]
      constructor
      · rintro ⟨hfirst, hrest⟩
        refine ⟨⟨hfirst, fun t ht => (hrest t ht).1⟩, ?_⟩
        rintro u ⟨t, ht, hu⟩
        exact (hrest t ht).2 u hu
      · rintro ⟨⟨hfirst, hrest⟩, hlast⟩
        exact ⟨hfirst, fun t ht => ⟨hrest t ht, fun u hu => hlast u ⟨t, ht, hu⟩⟩⟩

/-- Conditions that agree in every state of an invariant agree along a run, where
the invariant need only last while they hold. -/
theorem along_congr_while {I : σ → Prop} {P Q : σ → ε → Prop}
    (hstep : ∀ s e s', I s → P s e → step s e = .ok s' → I s')
    (h : ∀ s e, I s → (P s e ↔ Q s e)) {s : σ} (hs : I s) (es : List ε) :
    Along step P s es ↔ Along step Q s es := by
  induction es generalizing s with
  | nil => exact Iff.rfl
  | cons e es ih =>
      rw [Along, Along, ← h s e hs]
      apply and_congr_right
      intro hP
      apply forall_congr'
      intro t
      apply forall_congr'
      intro ht
      exact ih (hstep s e t hs hP ht)

theorem along_congr {I : σ → Prop} {P Q : σ → ε → Prop}
    (hstep : ∀ s e s', I s → step s e = .ok s' → I s')
    (h : ∀ s e, I s → (P s e ↔ Q s e)) {s : σ} (hs : I s) (es : List ε) :
    Along step P s es ↔ Along step Q s es :=
  along_congr_while (fun s e s' hI _ => hstep s e s' hI) h hs es

theorem exists_of_sometime {P : σ → ε → Prop} {s : σ} {es : List ε}
    (h : Sometime step P s es) : ∃ t e, P t e := by
  induction es generalizing s with
  | nil => exact h.elim
  | cons e es ih =>
      obtain h | ⟨t, _, h⟩ := h
      · exact ⟨s, e, h⟩
      · exact ih h

/-- A condition that fails at the start of a run and holds at its end was
established by a last step, after which it lasted. -/
theorem exists_last_established {F : σ → Prop} {s s' : σ} {es : List ε}
    (h : run step s es = .ok s') (hs : ¬ F s) (hF : F s') :
    ∃ before e after t u, es = before ++ e :: after ∧ run step s before = .ok t ∧ ¬ F t ∧
      step t e = .ok u ∧ F u ∧ run step u after = .ok s' ∧
      Along step (fun v _ => F v) u after := by
  induction es using List.reverseRecOn generalizing s' with
  | nil =>
      cases h
      exact absurd hF hs
  | append_singleton es e ih =>
      obtain ⟨t, ht, he⟩ := run_append_eq_ok.mp h
      obtain ⟨s'', hstep, hend⟩ := run_cons_eq_ok.mp he
      cases hend
      by_cases hFt : F t
      · obtain ⟨before, e', after, v, u, rfl, hv, hFv, hu, hFu, hafter, hlasts⟩ := ih ht hFt
        refine ⟨before, e', after ++ [e], v, u, by simp, hv, hFv, hu, hFu, ?_, ?_⟩
        · exact run_append_eq_ok.mpr ⟨t, hafter, he⟩
        · refine (along_append _ _ _ _).mpr ⟨hlasts, fun w hw => ⟨?_, fun _ _ => trivial⟩⟩
          rw [hafter] at hw
          cases hw
          exact hFt
      · exact ⟨es, e, [], t, s', rfl, ht, hFt, hstep, hF, rfl, trivial⟩

/-- A condition that a step establishes exactly by `P`, and never undoes, holds
at the end of a run exactly when it held at its start or `P` occurred. -/
theorem established_iff {F : σ → Prop} {P : σ → ε → Prop}
    (hstep : ∀ s e s', step s e = .ok s' → (F s' ↔ F s ∨ P s e)) {s s' : σ} {es : List ε}
    (h : run step s es = .ok s') : F s' ↔ F s ∨ Sometime step P s es := by
  induction es generalizing s with
  | nil =>
      cases h
      simp [Sometime]
  | cons e es ih =>
      obtain ⟨t, ht, hr⟩ := run_cons_eq_ok.mp h
      rw [ih hr, hstep s e t ht, Sometime, or_assoc]
      apply or_congr_right
      apply or_congr_right
      simp [ht]

section Totals

variable (step) in
/-- What the steps of a run add up to. -/
def total (f : σ → ε → ℤ) : σ → List ε → ℤ
  | _, [] => 0
  | s, e :: es => f s e +
      match step s e with
      | .ok t => total f t es
      | .error _ => 0

variable {f : σ → ε → ℤ} {I : σ → Prop} {m : σ → ℤ}

theorem total_cons {s t : σ} {e : ε} (es : List ε) (h : step s e = .ok t) :
    total step f s (e :: es) = f s e + total step f t es := by
  rw [total, h]

variable (step) in
theorem total_sub (f g : σ → ε → ℤ) (s : σ) (es : List ε) :
    total step (fun s e => f s e - g s e) s es = total step f s es - total step g s es := by
  induction es generalizing s with
  | nil => rfl
  | cons e es ih =>
      simp only [total]
      cases step s e with
      | error _ => simp
      | ok t =>
          simp only [ih]
          ring

/-- A measure that each step moves by its own amount is moved by a run by the total. -/
theorem measure_of_total (hstep : ∀ s e s', I s → step s e = .ok s' → I s' ∧ m s' = m s + f s e)
    {s s' : σ} {es : List ε} (hs : I s) (h : run step s es = .ok s') :
    m s' = m s + total step f s es := by
  induction es generalizing s with
  | nil =>
      cases h
      simp [total]
  | cons e es ih =>
      obtain ⟨t, ht, hr⟩ := run_cons_eq_ok.mp h
      obtain ⟨hI, hm⟩ := hstep s e t hs ht
      rw [total_cons es ht, ih hI hr, hm, add_assoc]

/-- A measure that each step raises by its own amount at least is raised by the total. -/
theorem total_le_measure {P : σ → ε → Prop}
    (hstep : ∀ s e s', I s → P s e → step s e = .ok s' → I s' ∧ m s + f s e ≤ m s')
    {s s' : σ} {es : List ε} (hs : I s) (hP : Along step P s es) (h : run step s es = .ok s') :
    m s + total step f s es ≤ m s' := by
  induction es generalizing s with
  | nil =>
      cases h
      simp [total]
  | cons e es ih =>
      obtain ⟨t, ht, hr⟩ := run_cons_eq_ok.mp h
      obtain ⟨hI, hm⟩ := hstep s e t hs hP.1 ht
      have hrest := ih hI (hP.2 t ht) hr
      rw [total_cons es ht]
      omega

variable (step f) in
theorem total_neg (s : σ) (es : List ε) :
    total step (fun s e => -f s e) s es = -total step f s es := by
  induction es generalizing s with
  | nil => rfl
  | cons e es ih =>
      simp only [total]
      cases step s e with
      | error _ => simp
      | ok t =>
          simp only [ih]
          ring

/-- A measure that each step raises by its own amount at most is raised by the total at most. -/
theorem measure_le_total {P : σ → ε → Prop}
    (hstep : ∀ s e s', I s → P s e → step s e = .ok s' → I s' ∧ m s' ≤ m s + f s e)
    {s s' : σ} {es : List ε} (hs : I s) (hP : Along step P s es) (h : run step s es = .ok s') :
    m s' ≤ m s + total step f s es := by
  have hneg := total_le_measure (m := fun s => -m s) (f := fun s e => -f s e)
    (fun s e s' hI hPs ht => ⟨(hstep s e s' hI hPs ht).1, by
      have hle := (hstep s e s' hI hPs ht).2
      omega⟩) hs hP h
  rw [total_neg] at hneg
  omega

end Totals

/-- A sequence of states that gets on at every state short of its goal, by a measure
that falls, reaches the goal. -/
theorem exists_reached {s : ℕ → Exec σ} {G : σ → Prop} (μ : σ → ℕ) (hstart : Returns (s 0))
    (hstep : ∀ n a, s n = .ok a → ¬ G a → ∃ b, s (n + 1) = .ok b ∧ μ b < μ a) :
    ∃ n a, s n = .ok a ∧ G a := by
  obtain ⟨a, ha⟩ := hstart
  generalize 0 = n at ha
  induction a using WellFounded.induction (measure μ).wf generalizing n with
  | _ a ih =>
      by_cases hG : G a
      · exact ⟨n, a, ha, hG⟩
      · obtain ⟨b, hb, hlt⟩ := hstep n a ha hG
        exact ih b hlt (n + 1) hb

end Runs
