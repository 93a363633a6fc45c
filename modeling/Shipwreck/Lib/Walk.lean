import Mathlib.Data.List.Nodup
import Mathlib.Logic.Function.Iterate

/-!
# Walks along links

A walk goes from a state to the `next` one until it comes to a state where it stops. Such a loop has no
bound of its own: it comes to an end exactly if a state where it stops lies on its way
(`Walk.ends_iff`).

Where the states are the links of some table, and the table is all that says how to go on, an endless
walk is one that comes back to a link. So a walk that ends has seen no link twice (`Walk.keys_nodup`).
-/

variable {σ κ : Type*}

/-- The walk from a state along `next` goes through the states of the list, and stops in the last one. -/
inductive Walk (next : σ → σ) (stop : σ → Prop) : σ → List σ → Prop
  | last {s : σ} (hs : stop s) : Walk next stop s [s]
  | step {s : σ} {path : List σ} (hs : ¬ stop s) (hrest : Walk next stop (next s) path) :
      Walk next stop s (s :: path)

/-- Two states that agree in `key` cannot be told apart by a walk. -/
structure Walk.Determines (next : σ → σ) (stop : σ → Prop) (key : σ → κ) : Prop where
  stop_iff : ∀ s t, key s = key t → (stop s ↔ stop t)
  next_eq : ∀ s t, key s = key t → key (next s) = key (next t)

namespace Walk

variable {next : σ → σ} {stop : σ → Prop} {key : σ → κ} {s t : σ} {path path' : List σ}

/-! ## Where a walk ends -/

theorem exists_stop (h : Walk next stop s path) : ∃ n, stop (next^[n] s) := by
  induction h with
  | last hs => exact ⟨0, hs⟩
  | step _ _ ih =>
    obtain ⟨n, hn⟩ := ih
    exact ⟨n + 1, hn⟩

/-- A walk that comes to a state where it stops has stopped there, or before. -/
theorem of_stop {n : Nat} (h : stop (next^[n] s)) : ∃ path, Walk next stop s path := by
  induction n generalizing s with
  | zero => exact ⟨[s], .last h⟩
  | succ n ih =>
    by_cases hs : stop s
    · exact ⟨[s], .last hs⟩
    · obtain ⟨path, hpath⟩ := ih (s := next s) h
      exact ⟨s :: path, .step hs hpath⟩

/-- **A walk ends exactly if a state where it stops lies on its way.** -/
theorem ends_iff : (∃ path, Walk next stop s path) ↔ ∃ n, stop (next^[n] s) := by
  constructor
  · rintro ⟨path, h⟩
    exact h.exists_stop
  · rintro ⟨n, hn⟩
    exact of_stop hn

/-- What holds along the way holds in the states that a walk goes through. -/
theorem forall_mem {P : σ → Prop} (h : Walk next stop s path) (hs : P s)
    (hstep : ∀ t, P t → ¬ stop t → P (next t)) : ∀ t ∈ path, P t := by
  induction h with
  | last _ =>
    intro t ht
    rw [List.mem_singleton] at ht
    rw [ht]
    exact hs
  | step hstop _ ih =>
    rw [List.forall_mem_cons]
    exact ⟨hs, ih (hstep _ hs hstop)⟩

/-! ## No state twice -/

/-- States that agree go the same way. -/
theorem map_key_eq (hkey : Determines next stop key) (h : Walk next stop s path)
    (h' : Walk next stop t path') (heq : key s = key t) : path.map key = path'.map key := by
  induction h generalizing t path' with
  | @last s hs =>
    cases h' with
    | last => simp [heq]
    | step ht => exact absurd ((hkey.stop_iff s t heq).mp hs) ht
  | @step s path hs hrest ih =>
    cases h' with
    | last ht => exact absurd ((hkey.stop_iff s t heq).mpr ht) hs
    | step ht hrest' =>
      rw [List.map_cons, List.map_cons, heq, ih hrest' (hkey.next_eq s t heq)]

theorem Determines.self : Determines next stop fun s : σ => s := by
  constructor
  · rintro s t rfl
    exact Iff.rfl
  · rintro s t rfl
    rfl

/-- From each of its states on, a walk is one of that state. -/
theorem suffix_of_mem (h : Walk next stop s path) (ht : t ∈ path) :
    ∃ rest, Walk next stop t rest ∧ rest.length ≤ path.length := by
  induction h with
  | last hs =>
    rw [List.mem_singleton] at ht
    rw [ht]
    exact ⟨_, .last hs, Nat.le_refl _⟩
  | @step s path hs hrest ih =>
    rcases List.mem_cons.mp ht with rfl | ht
    · exact ⟨_, .step hs hrest, Nat.le_refl _⟩
    · obtain ⟨rest, hrest, hle⟩ := ih ht
      exact ⟨rest, hrest, Nat.le_succ_of_le hle⟩

/-- **A walk that ends never comes back**: no two of its states agree in what determines the rest. -/
theorem keys_nodup (hkey : Determines next stop key) (h : Walk next stop s path) :
    (path.map key).Nodup := by
  induction h with
  | last _ => exact List.nodup_singleton _
  | @step s path hs hrest ih =>
    rw [List.map_cons, List.nodup_cons]
    refine ⟨?_, ih⟩
    intro hmem
    obtain ⟨t, ht, heq⟩ := List.mem_map.mp hmem
    -- from `t` on the walk is as long as from `s` on, but `t` comes later
    obtain ⟨rest, hwalk, hle⟩ := hrest.suffix_of_mem ht
    have hsame := congrArg List.length (map_key_eq hkey (Walk.step hs hrest) hwalk heq.symm)
    rw [List.length_map, List.length_map, List.length_cons] at hsame
    omega

theorem nodup (h : Walk next stop s path) : path.Nodup := by
  simpa using h.keys_nodup .self

end Walk
