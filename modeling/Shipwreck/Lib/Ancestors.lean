import Shipwreck.Lib.Chain
import Mathlib.Logic.Relation

/-!
# Forests by parent pointers

A forest given by one `parent` field per element, `none` being the null pointer. `Under parent a b` says that
following the parents from `b` one comes to `a`, and `Grounded parent` that from everywhere one comes to an end.

Below `a` and below `b` there is nothing in common, unless one of the two is under the other (`Under.total`),
and never when both have the same parent (`Grounded.siblings`). A store into one field keeps the forest grounded, if
it does not lead to an element under itself (`Grounded.update`), and it changes only what is under the elements
above the store (`Under.update_iff`).
-/

variable {α : Type*}

/-- `a` is `b`, or an ancestor of it. -/
def Under (parent : α → Option α) (a b : α) : Prop :=
  Relation.ReflTransGen (fun b c => parent b = some c) b a

/-- From each element the parents lead to one that has none. -/
def Grounded (parent : α → Option α) : Prop := ∀ a, ∃ l, Chain parent (some a) l

namespace Under

variable {parent : α → Option α} {a b c u : α} {l : List α}

theorem refl (parent : α → Option α) (a : α) : Under parent a a := Relation.ReflTransGen.refl

theorem trans (h : Under parent a b) (h' : Under parent b c) : Under parent a c :=
  Relation.ReflTransGen.trans h' h

theorem of_parent (h : parent b = some a) : Under parent a b := .single h

/-- What is under `a` is `a` itself, or its parent is under `a`. -/
theorem eq_or_parent (h : Under parent a b) : b = a ∨ ∃ c, parent b = some c ∧ Under parent a c :=
  h.cases_head

/-- What is under `a` is `a` itself, or it is under one of its children. -/
theorem eq_or_child (h : Under parent a b) : b = a ∨ ∃ c, parent c = some a ∧ Under parent c b := by
  rcases h.cases_tail with rfl | ⟨c, hc, hca⟩
  · exact .inl rfl
  · exact .inr ⟨c, hca, hc⟩

/-- Two ancestors of one element. -/
theorem total (h : Under parent a u) (h' : Under parent b u) : Under parent a b ∨ Under parent b a := by
  apply Or.symm
  apply Relation.ReflTransGen.total_of_right_unique _ h h'
  intro x y z hy hz
  exact Option.some.inj (hy.symm.trans hz)

/-- There is one end above an element. -/
theorem top_unique (h : Under parent a u) (h' : Under parent b u) (ha : parent a = none) (hb : parent b = none) :
    a = b := by
  rcases h.total h' with hab | hba
  · rcases hab.eq_or_parent with rfl | ⟨c, hc, -⟩
    · rfl
    · rw [hb] at hc
      cases hc
  · rcases hba.eq_or_parent with rfl | ⟨c, hc, -⟩
    · rfl
    · rw [ha] at hc
      cases hc

/-- The elements on the way to the end are the ancestors. -/
theorem of_mem (hl : Chain parent (some b) l) (ha : a ∈ l) : Under parent a b := by
  induction l generalizing b with
  | nil => cases ha
  | cons c l ih =>
    obtain ⟨hbc, hrest⟩ := hl
    obtain rfl := Option.some.inj hbc
    rcases List.mem_cons.mp ha with rfl | ha
    · exact refl parent a
    · cases hp : parent b with
      | none =>
        rw [hp] at hrest
        rw [hrest.eq_nil] at ha
        cases ha
      | some c =>
        rw [hp] at hrest
        exact (ih hrest ha).trans (of_parent hp)

/-- An ancestor is nearer to the end. -/
theorem length_le {l' : List α} (h : Under parent a b) (ha : Chain parent (some a) l)
    (hb : Chain parent (some b) l') : l.length ≤ l'.length := by
  induction h using Relation.ReflTransGen.head_induction_on generalizing l' with
  | refl => exact Nat.le_of_eq (congrArg List.length (ha.unique hb))
  | head hstep _ ih =>
    obtain ⟨l', rfl⟩ := hb.exists_cons
    have hrest := hb.2
    rw [hstep] at hrest
    exact Nat.le_succ_of_le (ih hrest)

variable [DecidableEq α]

/-- A store outside of what is under `a`, that does not lead there. -/
theorem update_iff {w : α} {v : Option α} (hw : ¬ Under parent a w) (hv : ∀ f, v = some f → ¬ Under parent a f) :
    Under (Function.update parent w v) a u ↔ Under parent a u := by
  constructor
  · intro h
    induction h using Relation.ReflTransGen.head_induction_on with
    | refl => exact refl parent a
    | @head b c hstep _ ih =>
      by_cases hbw : b = w
      · rw [hbw, Function.update_self] at hstep
        exact absurd ih (hv c hstep)
      · rw [Function.update_of_ne hbw] at hstep
        exact ih.trans (of_parent hstep)
  · intro h
    induction h using Relation.ReflTransGen.head_induction_on with
    | refl => exact refl _ a
    | @head b c hstep hrest ih =>
      have hbw : b ≠ w := by
        rintro rfl
        exact hw (trans hrest (of_parent hstep))
      refine ih.trans (of_parent ?_)
      rw [Function.update_of_ne hbw]
      exact hstep

/-- A store into `a` itself. -/
theorem update_self_iff {v : Option α} : Under (Function.update parent a v) a u ↔ Under parent a u := by
  constructor
  · intro h
    induction h using Relation.ReflTransGen.head_induction_on with
    | refl => exact refl parent a
    | @head b c hstep _ ih =>
      by_cases hba : b = a
      · rw [hba]
        exact refl parent a
      · rw [Function.update_of_ne hba] at hstep
        exact ih.trans (of_parent hstep)
  · intro h
    induction h using Relation.ReflTransGen.head_induction_on with
    | refl => exact refl _ a
    | @head b c hstep _ ih =>
      by_cases hba : b = a
      · rw [hba]
        exact refl _ a
      · refine ih.trans (of_parent ?_)
        rw [Function.update_of_ne hba]
        exact hstep

end Under

namespace Grounded

variable {parent : α → Option α} {a b p u : α}

/-- An element is not under its child. -/
theorem not_under (h : Grounded parent) (hp : parent a = some p) : ¬ Under parent a p := by
  intro hunder
  obtain ⟨l, hl⟩ := h a
  obtain ⟨l, rfl⟩ := hl.exists_cons
  have hrest := hl.2
  rw [hp] at hrest
  exact Nat.not_succ_le_self _ (hunder.length_le hl hrest)

/-- Below two children of one element there is nothing in common. -/
theorem siblings (h : Grounded parent) (ha : parent a = some p) (hb : parent b = some p) (hu : Under parent a u)
    (hu' : Under parent b u) : a = b := by
  rcases hu.total hu' with hab | hba
  · rcases hab.eq_or_parent with rfl | ⟨c, hc, hac⟩
    · rfl
    · cases hb.symm.trans hc
      exact absurd hac (h.not_under ha)
  · rcases hba.eq_or_parent with rfl | ⟨c, hc, hbc⟩
    · rfl
    · cases ha.symm.trans hc
      exact absurd hbc (h.not_under hb)

/-- The same without a parent: below two elements that have the same parent, or none, there is nothing in common. -/
theorem apart (h : Grounded parent) (hparent : parent a = parent b) (ha : Under parent a u) (hb : Under parent b u) :
    a = b := by
  cases hp : parent a with
  | some p => exact h.siblings hp (hparent.symm.trans hp) ha hb
  | none => exact ha.top_unique hb hp (hparent.symm.trans hp)

/-- The end that the parents lead to. -/
theorem exists_top (h : Grounded parent) (a : α) : ∃ r, parent r = none ∧ Under parent r a := by
  obtain ⟨l, hl⟩ := h a
  induction l generalizing a with
  | nil => cases hl
  | cons b l ih =>
    obtain ⟨hab, hrest⟩ := hl
    obtain rfl := Option.some.inj hab
    cases hp : parent a with
    | none => exact ⟨a, hp, .refl parent a⟩
    | some c =>
      rw [hp] at hrest
      obtain ⟨r, hr, hunder⟩ := ih c hrest
      exact ⟨r, hr, hunder.trans (Under.of_parent hp)⟩

/-- A store that does not close a circle. -/
theorem update [DecidableEq α] {w : α} {v : Option α} (h : Grounded parent)
    (hv : ∀ f, v = some f → ¬ Under parent w f) : Grounded (Function.update parent w v) := by
  have hhead : ∃ l, Chain (Function.update parent w v) v l := by
    cases hvf : v with
    | none => exact ⟨[], rfl⟩
    | some f =>
      obtain ⟨l, hl⟩ := h f
      exact ⟨l, hl.update _ fun hw => hv f hvf (.of_mem hl hw)⟩
  have hgo (a : α) (l : List α) (hl : Chain parent (some a) l) :
      ∃ l', Chain (Function.update parent w v) (some a) l' := by
    induction l generalizing a with
    | nil => cases hl
    | cons b l ih =>
      obtain ⟨hab, hrest⟩ := hl
      obtain rfl := Option.some.inj hab
      by_cases haw : a = w
      · obtain ⟨l', hl'⟩ := hhead
        refine ⟨a :: l', rfl, ?_⟩
        rwa [haw, Function.update_self]
      · cases hp : parent a with
        | none =>
          refine ⟨[a], rfl, ?_⟩
          rw [Function.update_of_ne haw, hp]
          rfl
        | some c =>
          rw [hp] at hrest
          obtain ⟨l', hl'⟩ := ih c hrest
          refine ⟨a :: l', rfl, ?_⟩
          rwa [Function.update_of_ne haw, hp]
  intro a
  obtain ⟨l, hl⟩ := h a
  exact hgo a l hl

end Grounded
