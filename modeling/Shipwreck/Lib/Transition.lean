import Mathlib.Logic.Function.Basic

/-!
# Labelled machines, their runs and what holds along them

A `Machine` is a partial step function on states, driven by labels: all nondeterminism (which
thread moves, which call it makes, which values the environment supplies) sits in the label, so a
run is a plain list of labels and can be evaluated.

Two ways of talking about runs are developed.

* `Machine.Reachable` — the states some run from an initial state ends in, with the induction rule
  `Machine.Reachable.invariant`.
* `Machine.States P` / `Machine.Steps G` — *along* one given run, every state satisfies `P`, and
  every step is taken from a state where its label satisfies the guard `G`. The rule
  `Machine.states_of_steps` turns a guarded step lemma into a statement about whole runs.
-/

/-- A partial step function on states `σ` driven by labels `α`. -/
structure Machine (σ α : Type*) where
  init : σ → Prop
  step : σ → α → Option σ

namespace Machine

variable {σ α : Type*} (M : Machine σ α)

/-- Execute a list of labels; `none` as soon as one of them is not enabled. -/
def exec : σ → List α → Option σ
  | s, [] => some s
  | s, a :: as => (M.step s a).bind fun s' => exec s' as

@[simp] theorem exec_nil (s : σ) : M.exec s [] = some s := rfl

theorem exec_cons (s : σ) (a : α) (as : List α) :
    M.exec s (a :: as) = (M.step s a).bind fun s' => M.exec s' as := rfl

theorem exec_append (s : σ) (as bs : List α) :
    M.exec s (as ++ bs) = (M.exec s as).bind fun s' => M.exec s' bs := by
  induction as generalizing s with
  | nil => rfl
  | cons a as ih =>
    rw [List.cons_append, exec_cons, exec_cons]
    cases M.step s a with
    | none => rfl
    | some s' => exact ih s'

/-! ## Reachable states -/

/-- Some run from an initial state ends in `s`. -/
def Reachable (s : σ) : Prop := ∃ s₀ as, M.init s₀ ∧ M.exec s₀ as = some s

variable {M}

/-- **The invariant rule**: what holds initially and is kept by every step holds in every
reachable state. -/
theorem Reachable.invariant {P : σ → Prop} (hinit : ∀ s, M.init s → P s)
    (hstep : ∀ s a s', P s → M.step s a = some s' → P s') {s : σ} (h : M.Reachable s) : P s := by
  obtain ⟨s₀, as, h₀, hrun⟩ := h
  have hP : P s₀ := hinit s₀ h₀
  clear h₀
  induction as generalizing s₀ with
  | nil =>
    cases hrun
    exact hP
  | cons a as ih =>
    rw [exec_cons] at hrun
    obtain ⟨s₁, h₁, hrest⟩ := Option.bind_eq_some_iff.mp hrun
    exact ih s₁ hrest (hstep s₀ a s₁ hP h₁)

/-! ## Properties along a run -/

variable (M)

/-- Every state the run `as` from `s` goes through satisfies `P`, its first and last included. -/
def States (P : σ → Prop) : σ → List α → Prop
  | s, [] => P s
  | s, a :: as => P s ∧ ∀ s', M.step s a = some s' → States P s' as

/-- Every step of the run `as` from `s` is taken from a state where its label meets `G`. -/
def Steps (G : σ → α → Prop) : σ → List α → Prop
  | _, [] => True
  | s, a :: as => G s a ∧ ∀ s', M.step s a = some s' → Steps G s' as

/-- A step that is known. -/
theorem steps_cons {G : σ → α → Prop} {s s₁ : σ} {a : α} {as : List α} (hG : G s a) (hstep : M.step s a = some s₁)
    (h : M.Steps G s₁ as) : M.Steps G s (a :: as) := by
  refine ⟨hG, fun s' hs' => ?_⟩
  obtain rfl := Option.some.inj (hstep.symm.trans hs')
  exact h

theorem steps_append (G : σ → α → Prop) (s : σ) (as bs : List α) :
    M.Steps G s (as ++ bs) ↔
      M.Steps G s as ∧ ∀ s', M.exec s as = some s' → M.Steps G s' bs := by
  induction as generalizing s with
  | nil => simp [Steps]
  | cons a as ih =>
    simp only [List.cons_append, Steps, exec_cons, ih]
    cases M.step s a with
    | none => simp
    | some s' => simp [and_assoc]

variable {M}

/-- Whether the steps of a run meet a guard can be evaluated. -/
instance decidableSteps {G : σ → α → Prop} [∀ s a, Decidable (G s a)] :
    (s : σ) → (as : List α) → Decidable (M.Steps G s as)
  | _, [] => isTrue trivial
  | s, a :: as =>
    match h : M.step s a with
    | none => decidable_of_iff (G s a) (by simp [Steps, h])
    | some s' =>
      have := decidableSteps (G := G) s' as
      decidable_of_iff (G s a ∧ M.Steps G s' as) (by simp [Steps, h])

/-- The last state of a run is one of its states. -/
theorem States.last {P : σ → Prop} {s s' : σ} {as : List α} (h : M.States P s as)
    (hrun : M.exec s as = some s') : P s' := by
  induction as generalizing s with
  | nil =>
    cases hrun
    exact h
  | cons a as ih =>
    rw [exec_cons] at hrun
    obtain ⟨s₁, h₁, hrest⟩ := Option.bind_eq_some_iff.mp hrun
    exact ih (h.2 s₁ h₁) hrest

/-- **The guarded invariant rule**: an invariant `I` that every guarded step keeps, and that gives
`P`, makes `P` hold all along every run whose steps meet the guard. -/
theorem states_of_steps {P I : σ → Prop} {G : σ → α → Prop} (hP : ∀ s, I s → P s)
    (hstep : ∀ s a s', I s → G s a → M.step s a = some s' → I s') {s : σ} {as : List α}
    (hs : I s) (h : M.Steps G s as) : M.States P s as := by
  induction as generalizing s with
  | nil => exact hP s hs
  | cons a as ih =>
    obtain ⟨hG, hrest⟩ := h
    refine ⟨hP s hs, ?_⟩
    intro s' h'
    exact ih (hstep s a s' hs hG h') (hrest s' h')

/-- **The progress rule**: where every step that meets the guard is enabled and keeps the invariant, a
run whose steps meet the guard goes to its end. -/
theorem exec_of_steps {I : σ → Prop} {G : σ → α → Prop}
    (hstep : ∀ s a, I s → G s a → ∃ s', M.step s a = some s' ∧ I s') {s : σ} {as : List α}
    (hs : I s) (h : M.Steps G s as) : ∃ s', M.exec s as = some s' ∧ I s' := by
  induction as generalizing s with
  | nil => exact ⟨s, rfl, hs⟩
  | cons a as ih =>
    obtain ⟨hG, hrest⟩ := h
    obtain ⟨s₁, h₁, hs₁⟩ := hstep s a hs hG
    obtain ⟨s', hrun, hs'⟩ := ih hs₁ (hrest s₁ h₁)
    refine ⟨s', ?_, hs'⟩
    rw [exec_cons, h₁]
    exact hrun

/-- **The guarded step rule**: where a step that meets the guard `G` meets `H` too and keeps the
invariant, a run whose steps meet `G` is one whose steps meet `H`. -/
theorem steps_of_steps {I : σ → Prop} {G H : σ → α → Prop} (hGH : ∀ s a, I s → G s a → H s a)
    (hstep : ∀ s a s', I s → G s a → M.step s a = some s' → I s') {s : σ} {as : List α}
    (hs : I s) (h : M.Steps G s as) : M.Steps H s as := by
  induction as generalizing s with
  | nil => trivial
  | cons a as ih =>
    obtain ⟨hG, hrest⟩ := h
    refine ⟨hGH s a hs hG, ?_⟩
    intro s' h'
    exact ih (hstep s a s' hs hG h') (hrest s' h')

/-- **Two guards for one run**: where they agree under an invariant, and a step that meets the first
keeps it, a run meets one of them throughout exactly when it meets the other. -/
theorem steps_iff_steps {I : σ → Prop} {G H : σ → α → Prop} (hiff : ∀ s a, I s → (G s a ↔ H s a))
    (hstep : ∀ s a s', I s → G s a → M.step s a = some s' → I s') {s : σ} {as : List α}
    (hs : I s) : M.Steps G s as ↔ M.Steps H s as := by
  induction as generalizing s with
  | nil => exact Iff.rfl
  | cons a as ih =>
    constructor
    · rintro ⟨hG, hrest⟩
      refine ⟨(hiff s a hs).mp hG, ?_⟩
      intro s' h'
      exact (ih (hstep s a s' hs hG h')).mp (hrest s' h')
    · rintro ⟨hH, hrest⟩
      have hG : G s a := (hiff s a hs).mpr hH
      refine ⟨hG, ?_⟩
      intro s' h'
      exact (ih (hstep s a s' hs hG h')).mpr (hrest s' h')

end Machine
