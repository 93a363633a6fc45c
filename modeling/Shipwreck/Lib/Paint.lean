import Mathlib.Data.List.ProdSigma
import Mathlib.Data.Set.Function

/-!
# Painting cells

A picture assigns a value to every cell, and a piece of the picture is drawn by storing values in the
cells of some points. `Painted cell S f p q` says what drawing the points of `S` did: `q` has the
value `f i` in the cell of each `i ∈ S` for which there is one, and agrees with `p` everywhere else.

What is drawn in several pieces is put together with `Painted.pieces`: the pieces may overlap, as
long as they are taken from one and the same picture `f`. What is drawn over something else hides it
(`Painted.cover`).

Loops draw point after point. `sweep_rule` carries along what has been visited so far. A loop that
visits no point twice may take the new value from the old one (`Painted.foldl`).
-/

variable {ι κ β : Type*}

/-- Drawing the points of `S` turned `p` into `q`; where `f` has no value nothing is drawn. -/
structure Painted (cell : ι → κ) (S : Set ι) (f : ι → Option β) (p q : κ → β) : Prop where
  inside : ∀ i ∈ S, q (cell i) = (f i).getD (p (cell i))
  outside : ∀ k, (∀ i ∈ S, cell i ≠ k) → q k = p k

namespace Painted

variable {cell : ι → κ} {S T U V : Set ι} {f g : ι → Option β} {p q r : κ → β}

/-- Nothing is drawn where there is nothing to draw. -/
theorem refl (hf : ∀ i ∈ S, f i = none) : Painted cell S f p p where
  inside i hi := by rw [hf i hi, Option.getD_none]
  outside _ _ := rfl

/-- Only the values at the points drawn matter. -/
theorem congr (h : Painted cell S f p q) (hfg : ∀ i ∈ S, f i = g i) : Painted cell S g p q where
  inside i hi := by rw [← hfg i hi, h.inside i hi]
  outside := h.outside

/-- **A picture drawn in two pieces.** -/
theorem pieces (hinj : U.InjOn cell) (hV : V ⊆ U) (hpieces : ∀ i, i ∈ V ↔ i ∈ S ∨ i ∈ T)
    (h : Painted cell S f p q) (h' : Painted cell T f q r) : Painted cell V f p r := by
  -- a piece does not touch the cell of a point outside it
  have hkeep {W : Set ι} (hW : W ⊆ V) {i : ι} (hi : i ∈ V) (hiW : i ∉ W) :
      ∀ j ∈ W, cell j ≠ cell i := by
    intro j hj heq
    have hji : j = i := hinj (hV (hW hj)) (hV hi) heq
    exact hiW (hji ▸ hj)
  have hS : S ⊆ V := fun i hi => (hpieces i).mpr (Or.inl hi)
  have hT : T ⊆ V := fun i hi => (hpieces i).mpr (Or.inr hi)
  constructor
  · intro i hi
    by_cases hiT : i ∈ T
    · rw [h'.inside i hiT]
      by_cases hiS : i ∈ S
      · rw [h.inside i hiS]
        cases f i with
        | none => rfl
        | some b => rfl
      · rw [h.outside _ (hkeep hS hi hiS)]
    · have hiS : i ∈ S := ((hpieces i).mp hi).resolve_right hiT
      rw [h'.outside _ (hkeep hT hi hiT), h.inside i hiS]
  · intro k hk
    rw [h'.outside k fun i hi => hk i (hT hi), h.outside k fun i hi => hk i (hS hi)]

theorem union (hinj : U.InjOn cell) (hS : S ⊆ U) (hT : T ⊆ U) (h : Painted cell S f p q)
    (h' : Painted cell T f q r) : Painted cell (S ∪ T) f p r :=
  h.pieces hinj (Set.union_subset hS hT) (fun _ => Iff.rfl) h'

/-- What is drawn over it hides what was drawn before. -/
theorem cover {b : β} (h : Painted cell S f p q) (h' : Painted cell S (fun _ => some b) q r) :
    Painted cell S (fun _ => some b) p r where
  inside i hi := h'.inside i hi
  outside k hk := by rw [h'.outside k hk, h.outside k hk]

/-- Storing one value. -/
theorem single [DecidableEq κ] (i : ι) (b : β) :
    Painted cell {i} (fun _ => some b) p (Function.update p (cell i) b) where
  inside j hj := by
    rw [Set.mem_singleton_iff.mp hj, Function.update_self]
    rfl
  outside k hk := Function.update_of_ne (hk i rfl).symm _ _

/-- Drawing one more point. -/
theorem insert [DecidableEq κ] {i : ι} (hinj : U.InjOn cell) (hi : i ∈ U) (hS : S ⊆ U)
    (h : Painted cell S f p q) :
    Painted cell (insert i S) f p ((f i).elim q (Function.update q (cell i))) := by
  rw [Set.insert_eq, Set.union_comm]
  apply h.union hinj hS (Set.singleton_subset_iff.mpr hi)
  cases hfi : f i with
  | none =>
    apply Painted.refl
    rintro j rfl
    exact hfi
  | some b =>
    apply (Painted.single i b).congr
    rintro j rfl
    exact hfi.symm

/-- **Blending.** A loop that computes the new value of a cell from the old one finds every cell as it
was in the beginning, as long as it visits no cell twice. -/
theorem foldl [DecidableEq κ] {l : List ι} (hl : l.Nodup) (hinj : U.InjOn cell)
    (hU : ∀ i ∈ l, i ∈ U) (blend : β → β) (p : κ → β) :
    Painted cell { i | i ∈ l } (fun i => some (blend (p (cell i)))) p
      (l.foldl (fun q i => Function.update q (cell i) (blend (q (cell i)))) p) := by
  induction l generalizing p with
  | nil => exact Painted.refl fun i hi => absurd hi List.not_mem_nil
  | cons i l ih =>
    rw [List.nodup_cons] at hl
    rw [List.forall_mem_cons] at hU
    rw [List.foldl_cons]
    -- the first step leaves the cells of the others as they were
    have hrest := (ih hl.2 hU.2 (Function.update p (cell i) (blend (p (cell i))))).congr
      (g := fun j => some (blend (p (cell j)))) ?_
    · have hfirst : Painted cell {i} (fun j => some (blend (p (cell j)))) p
          (Function.update p (cell i) (blend (p (cell i)))) := by
        apply (Painted.single i _).congr
        rintro j rfl
        rfl
      refine hfirst.pieces hinj ?_ (fun j => List.mem_cons) hrest
      exact fun j hj => (List.forall_mem_cons.mpr hU) j hj
    · intro j hj
      have hne : cell j ≠ cell i := fun heq => hl.1 (hinj (hU.2 j hj) hU.1 heq ▸ hj)
      rw [Function.update_of_ne hne]

end Painted

/-! ## Sweeping a rectangle -/

section

variable {σ : Type*}

/-- `for (x = 0; x < w; x++) for (y = 0; y < h; y++)` -/
def sweep (body : Nat × Nat → σ → σ) (w h : Nat) (s : σ) : σ :=
  (List.range w).foldl (fun s x => (List.range h).foldl (fun s y => body (x, y) s) s) s

/-- The points that the two loops visit. -/
def swept (w h : Nat) : Set (Nat × Nat) := { i | i.1 < w ∧ i.2 < h }

/-- What a fold has visited. -/
theorem foldl_visited {P : Set ι → σ → Prop} (body : ι → σ → σ) {l : List ι} {S : Set ι} {s : σ}
    (hstep : ∀ i ∈ l, ∀ S s, P S s → P (insert i S) (body i s)) (h : P S s) :
    P (S ∪ { i | i ∈ l }) (l.foldl (fun s i => body i s) s) := by
  induction l generalizing S s with
  | nil => simpa using h
  | cons i l ih =>
    have hrest := ih (fun j hj => hstep j (List.mem_cons_of_mem i hj))
      (hstep i List.mem_cons_self S s h)
    have hset : insert i S ∪ { j | j ∈ l } = S ∪ { j | j ∈ i :: l } := by
      ext j
      simp only [Set.mem_union, Set.mem_insert_iff, Set.mem_ofPred_eq, List.mem_cons]
      tauto
    rw [hset] at hrest
    exact hrest

/-- **The rule of the two loops**: what every iteration carries on to one more point holds of all the
points at the end. -/
theorem sweep_rule {P : Set (Nat × Nat) → σ → Prop} {body : Nat × Nat → σ → σ} {w h : Nat} {s : σ}
    (hstep : ∀ i ∈ swept w h, ∀ S ⊆ swept w h, ∀ s, P S s → P (insert i S) (body i s))
    (h0 : P ∅ s) : P (swept w h) (sweep body w h s) := by
  have hflat : sweep body w h s =
      (List.range w ×ˢ List.range h).foldl (fun s i => body i s) s := by
    show _ = List.foldl _ s (List.product (List.range w) (List.range h))
    simp only [sweep, List.product, List.foldl_flatMap, List.foldl_map]
  have hmem (i : Nat × Nat) : i ∈ List.range w ×ˢ List.range h ↔ i ∈ swept w h := by
    rw [List.mem_product, List.mem_range, List.mem_range]
    rfl
  have hall := foldl_visited (P := fun S s => S ⊆ swept w h ∧ P S s) body
    (l := List.range w ×ˢ List.range h) ?_ ⟨Set.empty_subset _, h0⟩
  · have hset : (∅ ∪ { i | i ∈ List.range w ×ˢ List.range h } : Set (Nat × Nat)) = swept w h := by
      rw [Set.empty_union]
      exact Set.ext hmem
    rw [hset] at hall
    rw [hflat]
    exact hall.2
  · rintro i hi S s ⟨hS, hP⟩
    have hi' := (hmem i).mp hi
    exact ⟨Set.insert_subset hi' hS, hstep i hi' S hS s hP⟩

end
