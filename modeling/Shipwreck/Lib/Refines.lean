import Mathlib.Logic.Basic

/-!
# Servers and refinement

A `Server` answers one call after the other. One server refines another, more abstract one, if related states
give the same answers and related states again, at least for the calls that the abstract one allows; then whole
runs have the same answers (`Simulates.run`).
-/

/-- A server with states `σ`, calls `α` and answers `β`; it may not come back. -/
structure Server (σ α β : Type*) where
  answer : σ → α → Option (β × σ)

namespace Server

variable {σ τ α β : Type*}

/-- The answers to a list of calls, and the last state. -/
def run (S : Server σ α β) : σ → List α → Option (List β × σ)
  | s, [] => some ([], s)
  | s, a :: as => (S.answer s a).bind fun r => (run S r.2 as).map fun rest => (r.1 :: rest.1, rest.2)

/-- Each call of a run is allowed where it is made. -/
def Meets (S : Server σ α β) (G : σ → α → Prop) : σ → List α → Prop
  | _, [] => True
  | s, a :: as => G s a ∧ ∀ b s', S.answer s a = some (b, s') → Meets S G s' as

/-- Whether the calls of a run are allowed can be evaluated. -/
instance decidableMeets (S : Server σ α β) {G : σ → α → Prop} [∀ s a, Decidable (G s a)] :
    (s : σ) → (as : List α) → Decidable (S.Meets G s as)
  | _, [] => isTrue trivial
  | s, a :: as =>
    match h : S.answer s a with
    | none => decidable_of_iff (G s a) (by simp [Meets, h])
    | some (b, s') =>
      have := decidableMeets S (G := G) s' as
      decidable_of_iff (G s a ∧ S.Meets G s' as) (by simp [Meets, h])

/-- From related states on, the calls that are allowed have the same answers and lead to related states. -/
def Simulates (C : Server σ α β) (A : Server τ α β) (R : σ → τ → Prop) (G : τ → α → Prop) : Prop :=
  ∀ s t a, R s t → G t a → ∃ b s' t', C.answer s a = some (b, s') ∧ A.answer t a = some (b, t') ∧ R s' t'

variable {C : Server σ α β} {A : Server τ α β} {R : σ → τ → Prop} {G : τ → α → Prop}

/-- **Refinement of runs.** -/
theorem Simulates.run (h : Simulates C A R G) {s : σ} {t : τ} (hR : R s t) {as : List α} (has : A.Meets G t as) :
    ∃ bs s' t', C.run s as = some (bs, s') ∧ A.run t as = some (bs, t') ∧ R s' t' := by
  induction as generalizing s t with
  | nil => exact ⟨[], s, t, rfl, rfl, hR⟩
  | cons a as ih =>
    obtain ⟨b, s₁, t₁, hs, ht, hR₁⟩ := h s t a hR has.1
    obtain ⟨bs, s', t', hs', ht', hR'⟩ := ih hR₁ (has.2 b t₁ ht)
    refine ⟨b :: bs, s', t', ?_, ?_, hR'⟩
    · rw [Server.run, hs, Option.bind_some, hs']
      rfl
    · rw [Server.run, ht, Option.bind_some, ht']
      rfl

end Server
