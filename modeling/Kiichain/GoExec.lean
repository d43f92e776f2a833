import Mathlib.Tactic

/-!
# Go calls that return, fail or panic

A call ends in a value, in a returned error, or in a panic. `recovered` is the
effect of a deferred `recover`, which turns a panic, and only a panic, into a
default value.
-/

namespace GoExec

inductive Fault
  | error (text : String)
  | panic (text : String)
deriving DecidableEq, Repr

universe u

abbrev Exec (α : Type u) := Except Fault α

variable {α β : Type u}

def fail (text : String) : Exec α := .error (.error text)

def panics (text : String) : Exec α := .error (.panic text)

def ensure (p : Prop) [Decidable p] (f : Fault) : Exec Unit :=
  if p then .ok () else .error f

def require (o : Option α) (f : Fault) : Exec α :=
  match o with
  | some a => .ok a
  | none => .error f

def recovered (x : Exec α) (a : α) : Exec α :=
  match x with
  | .ok b => .ok b
  | .error (.error text) => .error (.error text)
  | .error (.panic _) => .ok a

/-- A returned error is dropped for a value, a panic is not. -/
def defaulted (x : Exec α) (a : α) : Exec α :=
  match x with
  | .error (.error _) => .ok a
  | y => y

/-- `fmt.Errorf` around a returned error. -/
def wrapped (lead : String) (x : Exec α) : Exec α :=
  match x with
  | .ok a => .ok a
  | .error (.error text) => .error (.error (lead ++ text))
  | .error (.panic text) => .error (.panic text)

/-- `panic(err)` on a returned error. -/
def escalated (x : Exec α) : Exec α :=
  match x with
  | .error (.error text) => .error (.panic text)
  | y => y

/-- A call that does not return leaves the state it started from. -/
def rolledBack (s : α) (x : Exec α) : α :=
  match x with
  | .ok t => t
  | .error _ => s

/-- What a call over a store returned, with the store it left. -/
def landed {σ : Type*} (r : Exec α × σ) : Except Fault (α × σ) := r.1.map fun a => (a, r.2)

/-- The call returned normally: no error and no panic. -/
def Returns (x : Exec α) : Prop := ∃ a, x = .ok a

@[simp] theorem returns_ok (a : α) : Returns (.ok a : Exec α) := ⟨a, rfl⟩

@[simp] theorem not_returns_error (f : Fault) : ¬ Returns (.error f : Exec α) := by
  rintro ⟨a, h⟩
  cases h

instance (x : Exec α) : Decidable (Returns x) :=
  match x with
  | .ok a => isTrue (returns_ok a)
  | .error f => isFalse (not_returns_error f)

theorem bind_eq_ok {x : Exec α} {f : α → Exec β} {b : β} :
    (x >>= f) = .ok b ↔ ∃ a, x = .ok a ∧ f a = .ok b := by
  cases x with
  | error e => simp [bind, Except.bind]
  | ok a => simp [bind, Except.bind]

@[simp] theorem ok_bind (a : α) (f : α → Exec β) : ((.ok a : Exec α) >>= f) = f a := rfl

@[simp] theorem error_bind (e : Fault) (f : α → Exec β) :
    ((.error e : Exec α) >>= f) = .error e := rfl

@[simp] theorem pure_eq_ok (a : α) : (pure a : Exec α) = .ok a := rfl

theorem map_eq_ok {x : Exec α} {f : α → β} {b : β} : x.map f = .ok b ↔ ∃ a, x = .ok a ∧ f a = b := by
  cases x <;> simp [Except.map]

theorem map_eq_error {x : Exec α} {f : α → β} {e : Fault} : x.map f = .error e ↔ x = .error e := by
  cases x <;> simp [Except.map]

@[simp] theorem landed_eq_ok {σ : Type*} {r : Exec α × σ} {a : α} {s : σ} :
    landed r = .ok (a, s) ↔ r = (.ok a, s) := by
  obtain ⟨x, t⟩ := r
  cases x <;> simp [landed, Except.map]

theorem returns_bind {x : Exec α} {f : α → Exec β} :
    Returns (x >>= f) ↔ ∃ a, x = .ok a ∧ Returns (f a) := by
  constructor
  · rintro ⟨b, hb⟩
    obtain ⟨a, ha, hf⟩ := bind_eq_ok.mp hb
    exact ⟨a, ha, b, hf⟩
  · rintro ⟨a, rfl, b, hb⟩
    exact ⟨b, hb⟩

theorem returns_bind_pure {x : Exec α} {f : α → β} :
    Returns (x >>= fun a => pure (f a)) ↔ Returns x := by
  rw [returns_bind]
  exact exists_congr fun a => and_iff_left ⟨f a, rfl⟩

@[simp] theorem ensure_eq_ok {p : Prop} [Decidable p] {f : Fault} {u : Unit} :
    ensure p f = .ok u ↔ p := by
  unfold ensure
  split_ifs with h <;> simp [h]

theorem ensure_of {p : Prop} [Decidable p] {f : Fault} (h : p) : ensure p f = .ok () := if_pos h

theorem ensure_of_not {p : Prop} [Decidable p] {f : Fault} (h : ¬ p) :
    ensure p f = .error f := if_neg h

@[simp] theorem require_eq_ok {o : Option α} {f : Fault} {a : α} :
    require o f = .ok a ↔ o = some a := by
  cases o <;> simp [require]

@[simp] theorem recovered_ok (a b : α) : recovered (.ok b) a = .ok b := rfl

@[simp] theorem recovered_panics (a : α) (text : String) :
    recovered (panics text) a = .ok a := rfl

@[simp] theorem wrapped_eq_ok {lead : String} {x : Exec α} {a : α} :
    wrapped lead x = .ok a ↔ x = .ok a := by
  cases x with
  | ok b => rfl
  | error e => cases e <;> simp [wrapped]

@[simp] theorem escalated_eq_ok {x : Exec α} {a : α} : escalated x = .ok a ↔ x = .ok a := by
  cases x with
  | ok b => rfl
  | error e => cases e <;> simp [escalated]

theorem toOption_eq_some {x : Exec α} {a : α} : x.toOption = some a ↔ x = .ok a := by
  cases x <;> simp [Except.toOption]

/-- What `f` shows of the value of a call, for comparison with a constant. -/
theorem exists_of_toOption_map {x : Exec α} {f : α → β} {b : β} (h : x.toOption.map f = some b) :
    ∃ a, x = .ok a ∧ f a = b := by
  obtain ⟨a, ha, hb⟩ := Option.map_eq_some_iff.mp h
  exact ⟨a, toOption_eq_some.mp ha, hb⟩

theorem rolledBack_cases (s : α) (x : Exec α) :
    ¬ Returns x ∧ rolledBack s x = s ∨ x = .ok (rolledBack s x) := by
  cases x with
  | ok t => exact Or.inr rfl
  | error e => exact Or.inl ⟨not_returns_error e, rfl⟩

section Loops

variable {f : β → α → Exec β} {l : List α}

/-- What every turn of a loop preserves holds when it ends. -/
theorem foldlM_invariant {I : β → Prop} (hstep : ∀ b, ∀ x ∈ l, ∀ c, I b → f b x = .ok c → I c)
    {b c : β} (hb : I b) (h : l.foldlM f b = .ok c) : I c := by
  induction l generalizing b with
  | nil =>
      cases h
      exact hb
  | cons x l ih =>
      rw [List.foldlM_cons, bind_eq_ok] at h
      obtain ⟨d, hd, hrest⟩ := h
      exact ih (fun b y hy => hstep b y (List.mem_cons_of_mem x hy))
        (hstep b x List.mem_cons_self d hb hd) hrest

/-- Every element of a loop that returned had a turn that returned. -/
theorem exists_turn_of_foldlM {b c : β} (h : l.foldlM f b = .ok c) {x : α} (hx : x ∈ l) :
    ∃ d e, f d x = .ok e := by
  induction l generalizing b with
  | nil => exact absurd hx List.not_mem_nil
  | cons y l ih =>
      rw [List.foldlM_cons, bind_eq_ok] at h
      obtain ⟨d, hd, hrest⟩ := h
      obtain rfl | hmem := List.mem_cons.mp hx
      · exact ⟨b, d, hd⟩
      · exact ih hrest hmem

/-- Where every turn that returns acts on a view of the state as `g` does, the
loop acts on it as the loop over `g`. -/
theorem foldlM_proj {γ : Type*} (view : β → γ) {g : γ → α → γ}
    (h : ∀ b, ∀ x ∈ l, ∀ c, f b x = .ok c → view c = g (view b) x) {b c : β}
    (hloop : l.foldlM f b = .ok c) : view c = l.foldl g (view b) := by
  induction l generalizing b with
  | nil =>
      cases hloop
      rfl
  | cons x l ih =>
      rw [List.foldlM_cons, bind_eq_ok] at hloop
      obtain ⟨d, hd, hrest⟩ := hloop
      rw [ih (fun b y hy => h b y (List.mem_cons_of_mem x hy)) hrest,
        h b x List.mem_cons_self d hd, List.foldl_cons]

/-- A loop that keeps more than the state does to the state what the loop without
the rest does. -/
theorem map_foldlM {γ : Type*} {g : γ → α → Exec γ} (view : γ → β)
    (h : ∀ c, ∀ x ∈ l, (g c x).map view = f (view c) x) (c : γ) :
    (l.foldlM g c).map view = l.foldlM f (view c) := by
  induction l generalizing c with
  | nil => rfl
  | cons x l ih =>
      rw [List.foldlM_cons, List.foldlM_cons, ← h c x List.mem_cons_self]
      cases g c x with
      | error e => rfl
      | ok d => exact ih (fun c y hy => h c y (List.mem_cons_of_mem x hy)) d

/-- A loop whose turns all return is the loop over their values. -/
theorem foldlM_eq_ok_foldl {g : β → α → β} (h : ∀ b, ∀ x ∈ l, f b x = .ok (g b x)) (b : β) :
    l.foldlM f b = .ok (l.foldl g b) := by
  induction l generalizing b with
  | nil => rfl
  | cons x l ih =>
      rw [List.foldlM_cons, h b x List.mem_cons_self, ok_bind]
      exact ih (fun b y hy => h b y (List.mem_cons_of_mem x hy)) (g b x)

/-- Where the turns keep an invariant, and under it one returns exactly under a
condition on its element, the loop returns exactly when every element meets it. -/
theorem returns_foldlM_iff_of_invariant {I : β → Prop} {C : α → Prop}
    (hstep : ∀ b, ∀ x ∈ l, ∀ c, I b → f b x = .ok c → I c)
    (h : ∀ b, I b → ∀ x ∈ l, Returns (f b x) ↔ C x) {b : β} (hb : I b) :
    Returns (l.foldlM f b) ↔ ∀ x ∈ l, C x := by
  induction l generalizing b with
  | nil => simp
  | cons x l ih =>
      have ih' := fun c hc => ih (fun b y hy => hstep b y (List.mem_cons_of_mem x hy))
        (fun b hb y hy => h b hb y (List.mem_cons_of_mem x hy)) (b := c) hc
      rw [List.foldlM_cons, returns_bind, List.forall_mem_cons, ← h b hb x List.mem_cons_self]
      constructor
      · rintro ⟨c, hc, hrest⟩
        exact ⟨⟨c, hc⟩, (ih' c (hstep b x List.mem_cons_self c hb hc)).mp hrest⟩
      · rintro ⟨⟨c, hc⟩, hrest⟩
        exact ⟨c, hc, (ih' c (hstep b x List.mem_cons_self c hb hc)).mpr hrest⟩

/-- Where a turn returns exactly under a condition on its element, the loop
returns exactly when every element meets it. -/
theorem returns_foldlM_iff {C : α → Prop} (h : ∀ b, ∀ x ∈ l, Returns (f b x) ↔ C x) (b : β) :
    Returns (l.foldlM f b) ↔ ∀ x ∈ l, C x :=
  returns_foldlM_iff_of_invariant (I := fun _ => True) (fun _ _ _ _ _ _ => trivial)
    (fun b _ => h b) trivial

/-- A check of every element returns exactly where each check does. -/
theorem returns_forM_iff {g : α → Exec PUnit.{u + 1}} {l : List α} :
    Returns (l.forM g) ↔ ∀ x ∈ l, Returns (g x) := by
  induction l with
  | nil => exact iff_of_true ⟨PUnit.unit, rfl⟩ (by simp)
  | cons x l ih =>
      have hcons : (x :: l).forM g = g x >>= fun _ => l.forM g := rfl
      rw [hcons, returns_bind, List.forall_mem_cons, ← ih]
      constructor
      · rintro ⟨u, hx, hl⟩
        exact ⟨⟨u, hx⟩, hl⟩
      · rintro ⟨⟨u, hx⟩, hl⟩
        exact ⟨u, hx, hl⟩

end Loops

section Panics

/-- The call may panic, but it returns no error. -/
def NoError (x : Exec α) : Prop := ∀ text, x ≠ .error (.error text)

theorem noError_pure (a : α) : NoError (pure a : Exec α) := fun _ h => by cases h

theorem noError_bind {x : Exec α} {f : α → Exec β} (hx : NoError x) (hf : ∀ a, NoError (f a)) :
    NoError (x >>= f) := by
  intro text h
  cases x with
  | ok a => exact hf a text h
  | error e =>
      cases h
      exact hx text rfl

theorem noError_foldlM {f : β → α → Exec β} (hf : ∀ b a, NoError (f b a)) (l : List α) (b : β) :
    NoError (l.foldlM f b) := by
  induction l generalizing b with
  | nil => exact noError_pure b
  | cons x l ih =>
      rw [List.foldlM_cons]
      exact noError_bind (hf b x) ih

/-- Without returned errors, a recovered call always returns. -/
theorem recovered_eq_ok_of {x : Exec α} {a : α} (h : NoError x) :
    ∃ b, recovered x a = .ok b ∧ (x = .ok b ∨ b = a) := by
  cases x with
  | ok b => exact ⟨b, rfl, Or.inl rfl⟩
  | error e =>
      cases e with
      | error text => exact absurd rfl (h text)
      | panic text => exact ⟨a, rfl, Or.inr rfl⟩

end Panics

end GoExec
