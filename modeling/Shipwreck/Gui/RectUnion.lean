import Mathlib.Data.Set.BooleanAlgebra
import Mathlib.Order.CompletePartialOrder
import Shipwreck.Gui.Paint

/-!
# Redrawing what a window has left

While a window is dragged, what was under it and what is under it now is drawn again. `rect_union` of
`gui/shapes.h` cuts these two rectangles into three strips without overlap, if they meet:

    +--------+                +--------+
    |   A    |                |  top   |
    |   +----|---+     -->    +--------+---+
    |   |    |   |            |   middle   |
    +---|----+   |            +---+--------+
        |   B    |                | bottom |
        +--------+                +--------+

The middle strip is as wide as both together. Rectangles that only share an edge or a corner meet, too, and
so do rectangles without pixels; some of the strips are then empty (`rect_union_exact`).
-/

namespace Shipwreck.Gui

namespace Rect

/-! ## `rect_union` -/

variable (A B : Rect)

/-- `hi` and `lo`, by their upper edges. -/
def byTop : Rect × Rect := if A.t < B.t then (A, B) else (B, A)

/-- `hi` and `lo`, by their lower edges. -/
def byBottom : Rect × Rect := if A.b < B.b then (A, B) else (B, A)

/-- `dst[0]`. -/
def topStrip : Rect :=
  let (hi, lo) := byTop A B
  ⟨hi.l, hi.t, hi.r, lo.t⟩

/-- `dst[1]`. -/
def middleStrip : Rect :=
  let (_, lo) := byTop A B
  let (hi, _) := byBottom A B
  ⟨min A.l B.l, lo.t, max A.r B.r, hi.b⟩

/-- `dst[2]`. -/
def bottomStrip : Rect :=
  let (hi, lo) := byBottom A B
  ⟨lo.l, hi.b, lo.r, lo.b⟩

/-- `rect_union`: as many rectangles of `dst` as it returns. -/
def union : List Rect :=
  match A.intersect B with
  | none => [A, B]
  | some _ => [topStrip A B, middleStrip A B, bottomStrip A B]

/-- The rectangles that are sent to be redrawn when a window is dragged from `A` to `B`. -/
def redrawn : List Rect := (union A B).filter fun rect => ¬ (rect.l = rect.r ∨ rect.t = rect.b)

/-! ## What is asked of it -/

/-- No edge is on the wrong side of the opposite one. -/
structure Ordered (rect : Rect) : Prop where
  l_le_r : rect.l ≤ rect.r
  t_le_b : rect.t ≤ rect.b

/-- No pixel is in two of the rectangles, and the pixels in one of them are those of `A` and `B`. -/
structure ExactUnion (rects : List Rect) : Prop where
  disjoint : rects.Pairwise fun rect rect' => Disjoint rect.pixels rect'.pixels
  covers : ∀ p, (∃ rect ∈ rects, p ∈ rect.pixels) ↔ p ∈ A.pixels ∨ p ∈ B.pixels

/-! ## The strips -/

section

variable {A B : Rect} {meet : Rect} {p : Int × Int}

theorem byTop_eq : byTop A B = (A, B) ∧ A.t.toInt < B.t.toInt ∨ byTop A B = (B, A) ∧ B.t.toInt ≤ A.t.toInt := by
  by_cases h : A.t < B.t
  · exact .inl ⟨if_pos h, Int32.lt_iff_toInt_lt.mp h⟩
  · exact .inr ⟨if_neg h, Int.not_lt.mp (mt Int32.lt_iff_toInt_lt.mpr h)⟩

theorem byBottom_eq :
    byBottom A B = (A, B) ∧ A.b.toInt < B.b.toInt ∨ byBottom A B = (B, A) ∧ B.b.toInt ≤ A.b.toInt := by
  by_cases h : A.b < B.b
  · exact .inl ⟨if_pos h, Int32.lt_iff_toInt_lt.mp h⟩
  · exact .inr ⟨if_neg h, Int.not_lt.mp (mt Int32.lt_iff_toInt_lt.mpr h)⟩

/-- The pixels of both that are above the lower one of the upper edges. -/
theorem mem_topStrip (h : A.intersect B = some meet) :
    p ∈ (topStrip A B).pixels ↔
      (p ∈ A.pixels ∨ p ∈ B.pixels) ∧ p.2 < Max.max A.t.toInt B.t.toInt := by
  obtain ⟨⟨-, ht, -, hb⟩, -, htb⟩ := intersect_eq_some h
  rcases byTop_eq (A := A) (B := B) with ⟨htop, hlt⟩ | ⟨htop, hle⟩
  · simp only [topStrip, htop, pixels, Set.mem_ofPred_eq]
    omega
  · simp only [topStrip, htop, pixels, Set.mem_ofPred_eq]
    omega

/-- The pixels of both between the lower one of the upper edges and the upper one of the lower edges. -/
theorem mem_middleStrip (hA : A.Ordered) (hB : B.Ordered) (h : A.intersect B = some meet) :
    p ∈ (middleStrip A B).pixels ↔
      (p ∈ A.pixels ∨ p ∈ B.pixels) ∧ Max.max A.t.toInt B.t.toInt ≤ p.2 ∧ p.2 < Min.min A.b.toInt B.b.toInt := by
  obtain ⟨⟨hl, -, hr, -⟩, hlr, -⟩ := intersect_eq_some h
  have hA' : A.l.toInt ≤ A.r.toInt := Int32.le_iff_toInt_le.mp hA.l_le_r
  have hB' : B.l.toInt ≤ B.r.toInt := Int32.le_iff_toInt_le.mp hB.l_le_r
  have ht : (middleStrip A B).t.toInt = Max.max A.t.toInt B.t.toInt := by
    rcases byTop_eq (A := A) (B := B) with ⟨htop, hlt⟩ | ⟨htop, hle⟩
    · simp only [middleStrip, htop]
      omega
    · simp only [middleStrip, htop]
      omega
  have hb : (middleStrip A B).b.toInt = Min.min A.b.toInt B.b.toInt := by
    rcases byBottom_eq (A := A) (B := B) with ⟨hbottom, hlt⟩ | ⟨hbottom, hle⟩
    · simp only [middleStrip, hbottom]
      omega
    · simp only [middleStrip, hbottom]
      omega
  have hl' : (middleStrip A B).l.toInt = Min.min A.l.toInt B.l.toInt := toInt_min _ _
  have hr' : (middleStrip A B).r.toInt = Max.max A.r.toInt B.r.toInt := toInt_max _ _
  -- in these rows both are there, and side by side without a gap
  have hspan : (Min.min A.l.toInt B.l.toInt ≤ p.1 ∧ p.1 < Max.max A.r.toInt B.r.toInt) ↔
      (A.l.toInt ≤ p.1 ∧ p.1 < A.r.toInt) ∨ (B.l.toInt ≤ p.1 ∧ p.1 < B.r.toInt) := by
    omega
  rw [pixels, Set.mem_ofPred_eq, hl', hr', ht, hb, ← and_assoc, hspan]
  simp only [pixels, Set.mem_ofPred_eq]
  omega

/-- The pixels of both that are below the upper one of the lower edges. -/
theorem mem_bottomStrip (h : A.intersect B = some meet) :
    p ∈ (bottomStrip A B).pixels ↔
      (p ∈ A.pixels ∨ p ∈ B.pixels) ∧ Min.min A.b.toInt B.b.toInt ≤ p.2 := by
  obtain ⟨⟨-, ht, -, hb⟩, -, htb⟩ := intersect_eq_some h
  rcases byBottom_eq (A := A) (B := B) with ⟨hbottom, hlt⟩ | ⟨hbottom, hle⟩
  · simp only [bottomStrip, hbottom, pixels, Set.mem_ofPred_eq]
    omega
  · simp only [bottomStrip, hbottom, pixels, Set.mem_ofPred_eq]
    omega

/-- Rectangles that do not meet have no pixel in common. -/
theorem disjoint_of_apart (h : A.intersect B = none) : Disjoint A.pixels B.pixels := by
  rw [Set.disjoint_right]
  exact fun p hp => intersect_eq_none h hp

/-- **The strips are all of the two rectangles**, and do not overlap. -/
theorem strips_exact (hA : A.Ordered) (hB : B.Ordered) (h : A.intersect B = some meet) :
    ExactUnion A B [topStrip A B, middleStrip A B, bottomStrip A B] := by
  obtain ⟨⟨-, ht, -, hb⟩, -, htb⟩ := intersect_eq_some h
  have hrows : Max.max A.t.toInt B.t.toInt ≤ Min.min A.b.toInt B.b.toInt := by omega
  constructor
  · rw [List.pairwise_cons, List.pairwise_pair]
    refine ⟨?_, ?_⟩
    · intro rect hrect
      rw [Set.disjoint_left]
      intro p hp hp'
      have habove := ((mem_topStrip h).mp hp).2
      rcases List.mem_pair.mp hrect with rfl | rfl
      · exact absurd habove (Int.not_lt.mpr ((mem_middleStrip hA hB h).mp hp').2.1)
      · exact absurd habove (Int.not_lt.mpr (Int.le_trans hrows ((mem_bottomStrip h).mp hp').2))
    · rw [Set.disjoint_left]
      intro p hp hp'
      exact absurd ((mem_middleStrip hA hB h).mp hp).2.2 (Int.not_lt.mpr ((mem_bottomStrip h).mp hp').2)
  · intro p
    rw [List.exists_mem_cons_iff, List.exists_mem_cons_iff, List.exists_mem_cons_iff, mem_topStrip h,
      mem_middleStrip hA hB h, mem_bottomStrip h]
    constructor
    · rintro (⟨hp, -⟩ | ⟨hp, -⟩ | ⟨hp, -⟩ | ⟨rect, hnil, -⟩)
      · exact hp
      · exact hp
      · exact hp
      · exact absurd hnil List.not_mem_nil
    · intro hp
      rcases Int.lt_or_le p.2 (Max.max A.t.toInt B.t.toInt) with habove | hle
      · exact .inl ⟨hp, habove⟩
      · rcases Int.lt_or_le p.2 (Min.min A.b.toInt B.b.toInt) with hbetween | hbelow
        · exact .inr (.inl ⟨hp, hle, hbetween⟩)
        · exact .inr (.inr (.inl ⟨hp, hbelow⟩))

theorem union_exact (hA : A.Ordered) (hB : B.Ordered) : ExactUnion A B (union A B) := by
  rw [union]
  cases hmeet : A.intersect B with
  | none =>
    refine ⟨List.pairwise_pair.mpr (disjoint_of_apart hmeet), ?_⟩
    intro p
    simp only [List.mem_cons, List.not_mem_nil, or_false, exists_eq_or_imp, exists_eq_left]
  | some meet => exact strips_exact hA hB hmeet

/-- What is left out has no pixels. -/
theorem ExactUnion.filter {rects : List Rect} (h : ExactUnion A B rects) :
    ExactUnion A B (rects.filter fun rect => ¬ (rect.l = rect.r ∨ rect.t = rect.b)) where
  disjoint := h.disjoint.filter _
  covers p := by
    rw [← h.covers p]
    constructor
    · rintro ⟨rect, hrect, hp⟩
      exact ⟨rect, List.mem_of_mem_filter hrect, hp⟩
    · rintro ⟨rect, hrect, hp⟩
      refine ⟨rect, List.mem_filter.mpr ⟨hrect, decide_eq_true ?_⟩, hp⟩
      obtain ⟨hl, hr, ht, hb⟩ := hp
      rintro (heq | heq)
      · rw [heq] at hl
        exact absurd hr (Int.not_lt.mpr hl)
      · rw [heq] at ht
        exact absurd hb (Int.not_lt.mpr ht)

end

/-- **Dragging a window** asks for what it has left and for what it covers now, for each pixel once. -/
theorem redrawn_exact (hA : A.Ordered) (hB : B.Ordered) : ExactUnion A B (redrawn A B) :=
  (union_exact hA hB).filter

end Rect

/-- **`rect_union` is exact**: two or three rectangles without overlap, which together are the two. -/
theorem rect_union_exact (A B : Rect) (hA : A.Ordered) (hB : B.Ordered) :
    ((A.union B).length = 2 ∨ (A.union B).length = 3) ∧ Rect.ExactUnion A B (A.union B) := by
  refine ⟨?_, Rect.union_exact hA hB⟩
  rw [Rect.union]
  split
  · exact .inl rfl
  · exact .inr rfl

example : Rect.union ⟨0, 0, 2, 2⟩ ⟨1, 1, 3, 3⟩ = [⟨0, 0, 2, 1⟩, ⟨0, 1, 3, 2⟩, ⟨1, 2, 3, 3⟩] := by decide

theorem rect_union_exact_corner :
    ((Rect.union ⟨0, 0, 2, 2⟩ ⟨2, 2, 3, 3⟩).length = 2 ∨ (Rect.union ⟨0, 0, 2, 2⟩ ⟨2, 2, 3, 3⟩).length = 3) ∧
      Rect.ExactUnion ⟨0, 0, 2, 2⟩ ⟨2, 2, 3, 3⟩ (Rect.union ⟨0, 0, 2, 2⟩ ⟨2, 2, 3, 3⟩) :=
  rect_union_exact ⟨0, 0, 2, 2⟩ ⟨2, 2, 3, 3⟩ ⟨by decide, by decide⟩ ⟨by decide, by decide⟩

end Shipwreck.Gui
