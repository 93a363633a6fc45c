import Shipwreck.Lib.Paint

/-!
# Retouching cells

Where a picture is blended with what was there before, the new value of a cell depends on the old one.
`Retouched cell S F p q` says what drawing the points of `S` did then: the cell of each `i ∈ S` has gone from
`b` to `F i b`, and every other cell is as it was. `Painted` is the case where `F i` forgets the old value, or
keeps it.

Pieces of one picture must not overlap now (`Retouched.pieces`), since a point of both would be retouched twice.
What is drawn over the whole of it is composed with it (`Retouched.andThen`).

A surface keeps the cells and a record of the points that have been read or written. `DrawnOn` says what an action
on it did to both, with the same rules, and rules for loops.
-/

variable {ι κ β : Type*}

/-- Drawing the points of `S` turned `p` into `q`, changing the value at `i` by `F i`. -/
structure Retouched (cell : ι → κ) (S : Set ι) (F : ι → β → β) (p q : κ → β) : Prop where
  inside : ∀ i ∈ S, q (cell i) = F i (p (cell i))
  outside : ∀ k, (∀ i ∈ S, cell i ≠ k) → q k = p k

namespace Retouched

variable {cell : ι → κ} {S T U V : Set ι} {F G : ι → β → β} {p q r : κ → β}

/-- Nothing is drawn where nothing changes. -/
theorem refl (hF : ∀ i ∈ S, ∀ b, F i b = b) : Retouched cell S F p p where
  inside i hi := (hF i hi _).symm
  outside _ _ := rfl

/-- Only the changes at the points drawn matter. -/
theorem congr (h : Retouched cell S F p q) (hFG : ∀ i ∈ S, ∀ b, F i b = G i b) : Retouched cell S G p q where
  inside i hi := by rw [← hFG i hi, h.inside i hi]
  outside := h.outside

theorem of_painted {f : ι → Option β} (h : Painted cell S f p q) :
    Retouched cell S (fun i b => (f i).getD b) p q where
  inside := h.inside
  outside := h.outside

/-- A point that has not been drawn keeps its value. -/
theorem keep (hinj : U.InjOn cell) (hS : S ⊆ U) (h : Retouched cell S F p q) {i : ι} (hi : i ∈ U)
    (hiS : i ∉ S) : q (cell i) = p (cell i) := by
  apply h.outside
  intro j hj heq
  have hji : j = i := hinj (hS hj) hi heq
  exact hiS (hji ▸ hj)

/-- **A picture drawn in two pieces that do not overlap.** -/
theorem pieces (hinj : U.InjOn cell) (hV : V ⊆ U) (hpieces : ∀ i, i ∈ V ↔ i ∈ S ∨ i ∈ T)
    (hST : ∀ i ∈ S, i ∉ T) (h : Retouched cell S F p q) (h' : Retouched cell T F q r) :
    Retouched cell V F p r := by
  have hS : S ⊆ V := fun i hi => (hpieces i).mpr (.inl hi)
  have hT : T ⊆ V := fun i hi => (hpieces i).mpr (.inr hi)
  constructor
  · intro i hi
    rcases (hpieces i).mp hi with hiS | hiT
    · rw [h'.keep hinj (hT.trans hV) (hV hi) (hST i hiS), h.inside i hiS]
    · rw [h'.inside i hiT, h.keep hinj (hS.trans hV) (hV hi) fun hiS => hST i hiS hiT]
  · intro k hk
    rw [h'.outside k fun i hi => hk i (hT hi), h.outside k fun i hi => hk i (hS hi)]

/-- **One picture drawn over another.** -/
theorem andThen (h : Retouched cell S F p q) (h' : Retouched cell S G q r) :
    Retouched cell S (fun i b => G i (F i b)) p r where
  inside i hi := by rw [h'.inside i hi, h.inside i hi]
  outside k hk := by rw [h'.outside k hk, h.outside k hk]

/-- Two buffers side by side. -/
theorem prod {γ : Type*} {F' : ι → γ → γ} {p' q' : κ → γ} (h : Retouched cell S F p q)
    (h' : Retouched cell S F' p' q') :
    Retouched cell S (fun i b => (F i b.1, F' i b.2)) (fun k => (p k, p' k)) (fun k => (q k, q' k)) where
  inside i hi := Prod.ext (h.inside i hi) (h'.inside i hi)
  outside k hk := Prod.ext (h.outside k hk) (h'.outside k hk)

end Retouched

/-! ## Surfaces -/

/-- On a surface with the cells `view` and the record `touched`, drawing the points of `S` turned `s` into `s'`: it
changed the value at `i` by `F i`, and touched no other point. -/
structure DrawnOn {σ : Type*} (view : σ → κ → β) (touched : σ → List ι) (cell : ι → κ) (S : Set ι)
    (F : ι → β → β) (s s' : σ) : Prop where
  retouched : Retouched cell S F (view s) (view s')
  touched : ∀ i ∈ touched s', i ∈ touched s ∨ i ∈ S

namespace DrawnOn

variable {σ : Type*} {view : σ → κ → β} {touched : σ → List ι} {cell : ι → κ} {S T U V : Set ι}
  {F G : ι → β → β} {s s' s'' : σ}

theorem refl (hF : ∀ i ∈ S, ∀ b, F i b = b) : DrawnOn view touched cell S F s s where
  retouched := .refl hF
  touched _ hi := .inl hi

theorem congr (h : DrawnOn view touched cell S F s s') (hFG : ∀ i ∈ S, ∀ b, F i b = G i b) :
    DrawnOn view touched cell S G s s' where
  retouched := h.retouched.congr hFG
  touched := h.touched

/-- Two pieces. -/
theorem pieces (hinj : U.InjOn cell) (hV : V ⊆ U) (hpieces : ∀ i, i ∈ V ↔ i ∈ S ∨ i ∈ T)
    (hST : ∀ i ∈ S, i ∉ T) (h : DrawnOn view touched cell S F s s') (h' : DrawnOn view touched cell T F s' s'') :
    DrawnOn view touched cell V F s s'' where
  retouched := h.retouched.pieces hinj hV hpieces hST h'.retouched
  touched i hi := by
    rcases h'.touched i hi with hi | hi
    · exact (h.touched i hi).imp_right fun hS => (hpieces i).mpr (.inl hS)
    · exact .inr ((hpieces i).mpr (.inr hi))

theorem andThen (h : DrawnOn view touched cell S F s s') (h' : DrawnOn view touched cell S G s' s'') :
    DrawnOn view touched cell S (fun i b => G i (F i b)) s s'' where
  retouched := h.retouched.andThen h'.retouched
  touched i hi := (h'.touched i hi).elim (h.touched i) .inr

/-- Some points are left as they are. -/
theorem mono (hinj : U.InjOn cell) (hT : T ⊆ U) (hST : S ⊆ T) (hF : ∀ i ∈ T, i ∉ S → ∀ b, F i b = b)
    (h : DrawnOn view touched cell S F s s') : DrawnOn view touched cell T F s s' := by
  have hrest : DrawnOn view touched cell (T \ S) F s' s' := .refl fun i hi b => hF i hi.1 hi.2 b
  refine h.pieces hinj hT (fun i => ?_) (fun i hi hT => hT.2 hi) hrest
  constructor
  · intro hi
    by_cases hS : i ∈ S
    · exact .inl hS
    · exact .inr ⟨hi, hS⟩
  · rintro (hi | hi)
    · exact hST hi
    · exact hi.1

/-- **Pieces that a loop draws.** -/
theorem foldl {α : Type*} {l : List α} {S : α → Set ι} {act : α → σ → σ} (hinj : U.InjOn cell)
    (hS : ∀ a ∈ l, S a ⊆ U) (happart : l.Pairwise fun a b => ∀ i ∈ S a, i ∉ S b)
    (hact : ∀ a ∈ l, ∀ s, DrawnOn view touched cell (S a) F s (act a s)) (s : σ) :
    DrawnOn view touched cell { i | ∃ a ∈ l, i ∈ S a } F s (l.foldl (fun s a => act a s) s) := by
  induction l generalizing s with
  | nil =>
    apply DrawnOn.refl
    rintro i ⟨a, ha, -⟩
    exact absurd ha List.not_mem_nil
  | cons a l ih =>
    rw [List.pairwise_cons] at happart
    rw [List.forall_mem_cons] at hS hact
    have hsub : { i | ∃ b ∈ a :: l, i ∈ S b } ⊆ U := by
      rintro i ⟨b, hb, hi⟩
      rcases List.mem_cons.mp hb with rfl | hb
      · exact hS.1 hi
      · exact hS.2 b hb hi
    rw [List.foldl_cons]
    refine (hact.1 s).pieces hinj hsub (fun i => ?_) ?_ (ih hS.2 happart.2 hact.2 (act a s))
    · simp only [Set.mem_ofPred_eq, List.mem_cons, exists_eq_or_imp]
    · rintro i hi ⟨b, hb, hib⟩
      exact happart.1 b hb i hi hib

/-- **What a loop draws over and over.** -/
theorem foldl_over {α : Type*} {l : List α} {F : α → ι → β → β} {act : α → σ → σ}
    (hact : ∀ a ∈ l, ∀ s, DrawnOn view touched cell S (F a) s (act a s)) (s : σ) :
    DrawnOn view touched cell S (fun i b => l.foldl (fun b a => F a i b) b) s
      (l.foldl (fun s a => act a s) s) := by
  induction l generalizing s with
  | nil => exact .refl fun _ _ _ => rfl
  | cons a l ih =>
    rw [List.forall_mem_cons] at hact
    exact (hact.1 s).andThen (ih hact.2 (act a s))

end DrawnOn
