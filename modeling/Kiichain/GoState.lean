import Kiichain.GoExec

/-!
# Go calls over a store

A call over a store keeps what it has written also where it fails. It is atomic in
a state where it fails with a returned error only, and leaves the state as it was.
A sequence is atomic as long as nothing can fail after its first write.
-/

namespace GoExec

section Graceful

variable {α β : Type}

/-- The call does not panic. -/
def Graceful (x : Exec α) : Prop := ∀ f, x = .error f → ∃ text, f = .error text

theorem graceful_ok (a : α) : Graceful (.ok a : Exec α) := fun _ h => by cases h

theorem graceful_fail (text : String) : Graceful (fail text : Exec α) :=
  fun _ h => ⟨text, (Except.error.inj h).symm⟩

theorem graceful_ensure (p : Prop) [Decidable p] (text : String) :
    Graceful (ensure p (.error text)) := by
  unfold ensure
  split_ifs
  · exact graceful_ok ()
  · exact graceful_fail text

theorem graceful_require (o : Option α) (text : String) : Graceful (require o (.error text)) := by
  cases o with
  | none => exact graceful_fail text
  | some a => exact graceful_ok a

theorem graceful_bind {x : Exec α} {f : α → Exec β} (hx : Graceful x)
    (hf : ∀ a, x = .ok a → Graceful (f a)) : Graceful (x >>= f) := by
  cases x with
  | ok a => exact hf a rfl
  | error e =>
      intro g h
      cases h
      exact hx e rfl

theorem graceful_ensure_bind {p : Prop} [Decidable p] {text : String} {f : Unit → Exec β}
    (hf : p → Graceful (f ())) : Graceful (ensure p (.error text) >>= f) :=
  graceful_bind (graceful_ensure p text) fun _ h => hf (ensure_eq_ok.mp h)

theorem graceful_foldlM {f : β → α → Exec β} (hf : ∀ b a, Graceful (f b a)) (l : List α) (b : β) :
    Graceful (l.foldlM f b) := by
  induction l generalizing b with
  | nil => exact graceful_ok b
  | cons x l ih =>
      rw [List.foldlM_cons]
      exact graceful_bind (hf b x) fun c _ => ih c

end Graceful

abbrev Stateful (σ α : Type) : Type := EStateM Fault σ α

namespace Stateful

variable {σ α β : Type} {s t : σ}

/-- A call that reads the store and writes nothing. -/
def reads (x : σ → Exec α) : Stateful σ α := fun s =>
  match x s with
  | .ok a => .ok a s
  | .error f => .error f s

def writes (g : σ → σ) : Stateful σ Unit := fun s => .ok () (g s)

/-- A call that fails before it writes anything. -/
def atomically (x : σ → Exec σ) : Stateful σ Unit := fun s =>
  match x s with
  | .ok t => .ok () t
  | .error f => .error f s

def Atomic (x : Stateful σ α) (s : σ) : Prop :=
  ∀ f t, x s = .error f t → t = s ∧ ∃ text, f = .error text

def Lands (x : Stateful σ α) (s : σ) : Prop := ∃ a t, x s = .ok a t

@[simp] theorem pure_eq_ok {a b : α} : (pure a : Stateful σ α) s = .ok b t ↔ a = b ∧ s = t := by
  change EStateM.Result.ok a s = .ok b t ↔ _
  simp

@[simp] theorem reads_eq_ok {x : σ → Exec α} {a : α} :
    reads x s = .ok a t ↔ x s = .ok a ∧ s = t := by
  unfold reads
  cases x s with
  | ok b => simp
  | error f => simp

@[simp] theorem writes_eq_ok {g : σ → σ} {u : Unit} : writes g s = .ok u t ↔ g s = t := by
  simp [writes]

@[simp] theorem atomically_eq_ok {x : σ → Exec σ} {u : Unit} :
    atomically x s = .ok u t ↔ x s = .ok t := by
  unfold atomically
  cases x s with
  | ok v => simp
  | error f => simp

theorem bind_eq_ok {x : Stateful σ α} {f : α → Stateful σ β} {b : β} :
    (x >>= f) s = .ok b t ↔ ∃ a u, x s = .ok a u ∧ f a u = .ok b t := by
  change EStateM.bind x f s = _ ↔ _
  unfold EStateM.bind
  cases x s with
  | ok a u => simp
  | error e u => simp

theorem lands_writes (g : σ → σ) (s : σ) : Lands (writes g) s := ⟨(), g s, rfl⟩

theorem lands_pure (a : α) (s : σ) : Lands (pure a : Stateful σ α) s := ⟨a, s, rfl⟩

theorem lands_reads {x : σ → Exec α} (h : Returns (x s)) : Lands (reads x) s := by
  obtain ⟨a, ha⟩ := h
  exact ⟨a, s, reads_eq_ok.mpr ⟨ha, rfl⟩⟩

theorem Lands.bind {x : Stateful σ α} {f : α → Stateful σ β} (hx : Lands x s)
    (hf : ∀ a t, x s = .ok a t → Lands (f a) t) : Lands (x >>= f) s := by
  obtain ⟨a, t, ha⟩ := hx
  obtain ⟨b, u, hb⟩ := hf a t ha
  exact ⟨b, u, bind_eq_ok.mpr ⟨a, t, ha, hb⟩⟩

theorem Lands.atomic {x : Stateful σ α} (hx : Lands x s) : Atomic x s := by
  intro f t h
  obtain ⟨a, u, ha⟩ := hx
  cases ha.symm.trans h

theorem atomic_reads {x : σ → Exec α} (h : Graceful (x s)) : Atomic (reads x) s := by
  intro f t ht
  unfold reads at ht
  cases hx : x s with
  | ok a =>
      rw [hx] at ht
      cases ht
  | error g =>
      rw [hx] at ht
      cases ht
      exact ⟨rfl, h f hx⟩

theorem atomic_atomically {x : σ → Exec σ} (h : Graceful (x s)) : Atomic (atomically x) s := by
  intro f t ht
  unfold atomically at ht
  cases hx : x s with
  | ok a =>
      rw [hx] at ht
      cases ht
  | error g =>
      rw [hx] at ht
      cases ht
      exact ⟨rfl, h f hx⟩

/-- What comes after an atomic call is atomic with it, if from where the call lands it
lands too or, where the call wrote nothing, is atomic itself. -/
theorem Atomic.bind {x : Stateful σ α} {f : α → Stateful σ β} (hx : Atomic x s)
    (hf : ∀ a t, x s = .ok a t → Lands (f a) t ∨ (t = s ∧ Atomic (f a) s)) :
    Atomic (x >>= f) s := by
  intro g u h
  change EStateM.bind x f s = _ at h
  unfold EStateM.bind at h
  cases hxs : x s with
  | error e t =>
      rw [hxs] at h
      cases h
      exact hx g u hxs
  | ok a t =>
      rw [hxs] at h
      obtain hlands | ⟨rfl, hatomic⟩ := hf a t hxs
      · obtain ⟨b, v, hb⟩ := hlands
        cases hb.symm.trans h
      · exact hatomic g u h

theorem atomic_reads_bind {x : σ → Exec α} {f : α → Stateful σ β} (hx : Graceful (x s))
    (hf : ∀ a, x s = .ok a → Atomic (f a) s) : Atomic (reads x >>= f) s := by
  apply (atomic_reads hx).bind
  intro a t h
  obtain ⟨ha, rfl⟩ := reads_eq_ok.mp h
  exact Or.inr ⟨rfl, hf a ha⟩

/-- Seen through `view`, the call returns where a call over the viewed states does, with
the state that it returns. -/
def Refines {τ : Type} (view : σ → τ) (x : Stateful σ Unit) (y : τ → Exec τ) (s : σ) : Prop :=
  ∀ v, y (view s) = .ok v ↔ ∃ t, x s = .ok () t ∧ view t = v

theorem Refines.bind {τ : Type} {view : σ → τ} {x x' : Stateful σ Unit} {y y' : τ → Exec τ}
    (hx : Refines view x y s) (hx' : ∀ t, x s = .ok () t → Refines view x' y' t) :
    Refines view (x >>= fun _ => x') (fun v => y v >>= y') s := by
  intro v
  simp only [GoExec.bind_eq_ok, Stateful.bind_eq_ok]
  constructor
  · rintro ⟨u, hu, hv⟩
    obtain ⟨t, ht, rfl⟩ := (hx u).mp hu
    obtain ⟨t', ht', rfl⟩ := (hx' t ht v).mp hv
    exact ⟨t', ⟨(), t, ht, ht'⟩, rfl⟩
  · rintro ⟨t', ⟨_, t, ht, ht'⟩, rfl⟩
    exact ⟨view t, (hx _).mpr ⟨t, ht, rfl⟩, (hx' t ht _).mpr ⟨t', ht', rfl⟩⟩

end Stateful

end GoExec
