import Mathlib.Data.Nat.Basic

/-!
# Extents

A range of addresses is given by its first address and its size, both unbounded. Ranges that are carved
off one after the other, each from the end of the last one on (`Stacked`), have no address in common.
-/

/-- The addresses from `start` on, `size` of them. -/
structure Extent where
  start : Nat
  size : Nat
  deriving DecidableEq, Repr

namespace Extent

variable {a b e : Extent} {es : List Extent} {lo lo' hi x : Nat}

/-- The first address behind the range. -/
def stop (e : Extent) : Nat := e.start + e.size

def Has (e : Extent) (x : Nat) : Prop := e.start ≤ x ∧ x < e.stop

@[simp] theorem stop_mk (start size : Nat) : (Extent.mk start size).stop = start + size := rfl

theorem has_mk {start size : Nat} : (Extent.mk start size).Has x ↔ start ≤ x ∧ x < start + size :=
  Iff.rfl

/-- No address in common. -/
def Apart (a b : Extent) : Prop := ∀ x, ¬ (a.Has x ∧ b.Has x)

theorem Apart.symm (h : a.Apart b) : b.Apart a := fun x hx => h x hx.symm

theorem apart_of_le (h : a.stop ≤ b.start) : a.Apart b := by
  rintro x ⟨⟨-, ha⟩, ⟨hb, -⟩⟩
  omega

theorem not_apart (ha : a.Has x) (hb : b.Has x) : ¬ a.Apart b := fun h => h x ⟨ha, hb⟩

/-- Between `lo` and `hi`, each range begins at the end of the one before or behind it. -/
def Stacked (hi : Nat) : Nat → List Extent → Prop
  | lo, [] => lo ≤ hi
  | lo, e :: es => lo ≤ e.start ∧ Stacked hi e.stop es

theorem Stacked.mono (h : Stacked hi lo es) (hle : lo' ≤ lo) : Stacked hi lo' es := by
  cases es with
  | nil => exact Nat.le_trans hle h
  | cons e es => exact ⟨Nat.le_trans hle h.1, h.2⟩

theorem Stacked.le (h : Stacked hi lo es) : lo ≤ hi := by
  induction es generalizing lo with
  | nil => exact h
  | cons e es ih =>
    have hrest := ih h.2
    have hstart := h.1
    rw [stop] at hrest
    omega

/-- All of the ranges lie between the bounds. -/
theorem Stacked.bounds (h : Stacked hi lo es) (he : e ∈ es) : lo ≤ e.start ∧ e.stop ≤ hi := by
  induction es generalizing lo with
  | nil => cases he
  | cons a es ih =>
    rcases List.mem_cons.mp he with rfl | he
    · exact ⟨h.1, h.2.le⟩
    · obtain ⟨hlo, hhi⟩ := ih h.2 he
      have hstart := h.1
      rw [stop] at hlo
      exact ⟨by omega, hhi⟩

/-- One more range on top of the others. -/
theorem Stacked.snoc (h : Stacked e.start lo es) (hhi : e.stop ≤ hi) : Stacked hi lo (es ++ [e]) := by
  induction es generalizing lo with
  | nil => exact ⟨h, hhi⟩
  | cons a es ih => exact ⟨h.1, ih h.2⟩

theorem Stacked.pairwise (h : Stacked hi lo es) : es.Pairwise Apart := by
  induction es generalizing lo with
  | nil => exact List.Pairwise.nil
  | cons a es ih =>
    apply List.Pairwise.cons _ (ih h.2)
    intro b hb
    exact apart_of_le (h.2.bounds hb).1

end Extent
