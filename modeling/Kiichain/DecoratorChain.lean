import Kiichain.GoExec

/-!
# Chains of decorators

A decorator gets the rest of its chain to call. A check calls it once, at its end, so
that a chain of checks is a loop over them. A gate is a check that leaves the state, and
the state that it decides on is that of the other checks before it.
-/

namespace DecoratorChain
open GoExec

variable {σ τ : Type}

abbrev Handler (σ τ : Type) := σ → τ → Exec σ

abbrev Decorator (σ τ : Type) := σ → τ → Handler σ τ → Exec σ

def chain : List (Decorator σ τ) → Handler σ τ
  | [], s, _ => .ok s
  | d :: ds, s, tx => d s tx (chain ds)

def check (f : Handler σ τ) : Decorator σ τ := fun s tx next => do
  let s ← f s tx
  next s tx

def gate (g : σ → τ → Exec Unit) : Handler σ τ := fun s tx => do
  g s tx
  pure s

/-- The checks one after the other. -/
def checks (fs : List (Handler σ τ)) : Handler σ τ := fun s tx => fs.foldlM (fun s f => f s tx) s

variable {fs fs' : List (Handler σ τ)} {ds : List (Decorator σ τ)} {s s' : σ} {tx : τ}

theorem chain_checks (fs : List (Handler σ τ)) (ds : List (Decorator σ τ)) (s : σ) (tx : τ) :
    chain (fs.map check ++ ds) s tx = checks fs s tx >>= fun s => chain ds s tx := by
  induction fs generalizing s with
  | nil => rfl
  | cons f fs ih =>
      simp only [List.map_cons, List.cons_append, chain, check, ih, checks, List.foldlM_cons,
        bind_assoc]

theorem checks_append_eq_ok : checks (fs ++ fs') s tx = .ok s' ↔
    ∃ t, checks fs s tx = .ok t ∧ checks fs' t tx = .ok s' := by
  unfold checks
  rw [List.foldlM_append, bind_eq_ok]

theorem checks_gate_eq_ok {g : σ → τ → Exec Unit} : checks (gate g :: fs) s tx = .ok s' ↔
    g s tx = .ok () ∧ checks fs s tx = .ok s' := by
  unfold checks
  rw [List.foldlM_cons, bind_eq_ok]
  constructor
  · rintro ⟨t, ht, hrest⟩
    simp only [gate, bind_eq_ok, pure_eq_ok, Except.ok.injEq] at ht
    obtain ⟨u, hu, rfl⟩ := ht
    exact ⟨hu, hrest⟩
  · rintro ⟨hg, hrest⟩
    exact ⟨s, by simp [gate, hg], hrest⟩

/-- What every check of a list keeps is kept by the list. -/
theorem checks_keep {γ : Type} {v : σ → γ}
    (hkeep : ∀ f ∈ fs, ∀ s s', f s tx = .ok s' → v s' = v s)
    (h : checks fs s tx = .ok s') : v s' = v s :=
  foldlM_invariant (I := fun t => v t = v s)
    (fun t f hf t' ht hstep => (hkeep f hf t t' hstep).trans ht) rfl h

end DecoratorChain
