import Shipwreck.Gui.TextEdit
import Shipwreck.Gui.TextPicture

/-!
# Redrawing text boxes

A call of `print` or `backspace` leaves in `redraw_rect` the part of the window that is to be drawn again.
It is worked out from the old and the new cursor alone: the whole window if the new cursor is outside of
it, else the rows from one to the other. The rest of the window goes on showing what it showed before, and
`redraw_suffices_iff` says when this is right. It is not when a row is dropped at the head of a text that
does not fill its window, nor for the character behind the row above the cursor.
-/

namespace Shipwreck.Gui.TextBox

/-! ## The rectangle -/

/-- The row of a cursor lies in the window. -/
def RowInside (W : Nat) (box : TextBox) (cursor : Nat) : Prop :=
  0 ≤ box.offsetY.toInt + (cursor / W : Nat) * 20 ∧
    box.offsetY.toInt + (cursor / W : Nat) * 20 + 20 ≤ box.window.b.toInt

instance (W : Nat) (box : TextBox) (cursor : Nat) : Decidable (RowInside W box cursor) :=
  inferInstanceAs (Decidable (_ ∧ _))

/-- The cell is in the rows between two cursors, and in one row in the columns between them. -/
def Between (W oldCursor newCursor x y : Nat) : Prop :=
  min (oldCursor / W) (newCursor / W) ≤ y ∧ y ≤ max (oldCursor / W) (newCursor / W) ∧
    (oldCursor / W = newCursor / W →
      min (oldCursor % W) (newCursor % W) ≤ x ∧ x ≤ max (oldCursor % W) (newCursor % W))

section

variable {W row : Nat} {box : TextBox}

/-- The place of a cursor. -/
theorem toInt_cursor {cursor : Nat} (hW : 0 < W) (hrange : InRange W row box) (hrow : cursor / W ≤ row) :
    (Int32.ofNat (cursor % W) * charSpacingX + box.offsetX).toInt =
        box.offsetX.toInt + (cursor % W : Nat) * 8 ∧
      (Int32.ofNat (cursor % W) * charSpacingX + box.offsetX + charSpacingX).toInt =
        box.offsetX.toInt + (cursor % W : Nat) * 8 + 8 ∧
      (Int32.ofNat (cursor / W) * charSpacingY + box.offsetY).toInt =
        box.offsetY.toInt + (cursor / W : Nat) * 20 ∧
      (Int32.ofNat (cursor / W) * charSpacingY + box.offsetY + charSpacingY).toInt =
        box.offsetY.toInt + (cursor / W : Nat) * 20 + 20 := by
  obtain ⟨hright, hbottom, -, -⟩ := hrange
  have hcol : cursor % W < W := Nat.mod_lt _ hW
  have hwidth : charSpacingX.toInt = 8 := rfl
  have hheight : charSpacingY.toInt = 20 := rfl
  generalize cursor % W = col at hcol ⊢
  generalize cursor / W = line at hrow ⊢
  have hx0 := box.offsetX.le_toInt
  have hy0 := box.offsetY.le_toInt
  have hx : (Int32.ofNat col * charSpacingX + box.offsetX).toInt = box.offsetX.toInt + col * 8 :=
    CInt.toInt_mul_add_of_fits (k := 8) hwidth (by omega)
  have hy : (Int32.ofNat line * charSpacingY + box.offsetY).toInt = box.offsetY.toInt + line * 20 :=
    CInt.toInt_mul_add_of_fits (k := 20) hheight (by omega)
  refine ⟨hx, ?_, hy, ?_⟩
  · rw [CInt.toInt_add_of_fits (by omega) (by omega), hx, hwidth]
  · rw [CInt.toInt_add_of_fits (by omega) (by omega), hy, hheight]

section

variable {oldCursor newCursor : Nat} (hW : 0 < W) (hrange : InRange W row box)
  (hnew : newCursor / W ≤ row) (hne : oldCursor ≠ newCursor)
include hW hrange hnew hne

/-- A cursor that leaves the window has everything drawn again. -/
theorem setRedrawRect_outside (hout : ¬ RowInside W box newCursor) :
    (setRedrawRect W oldCursor newCursor box).needsRedraw = true ∧
      (setRedrawRect W oldCursor newCursor box).redrawRect = box.window := by
  obtain ⟨-, -, hy, hy'⟩ := toInt_cursor hW hrange hnew
  have hzero : (0 : Int32).toInt = 0 := rfl
  simp only [setRedrawRect, if_neg hne, gt_iff_lt, Int32.lt_iff_toInt_lt, hy, hy', hzero]
  split
  case isTrue => exact ⟨rfl, rfl⟩
  case isFalse habove =>
    split
    case isTrue => exact ⟨rfl, rfl⟩
    case isFalse hbelow => exact absurd ⟨Int.not_lt.mp habove, Int.not_lt.mp hbelow⟩ hout

/-- A cursor inside the window has what lies between it and the old one drawn again. -/
theorem setRedrawRect_inside (hold : oldCursor / W ≤ row) (hin : RowInside W box newCursor) :
    ∃ rect, setRedrawRect W oldCursor newCursor box =
        { box with redrawRect := rect, needsRedraw := true } ∧
      ∀ x y p, p ∈ box.window.pixels → box.Cell x y p →
        (p ∈ rect.pixels ↔ Between W oldCursor newCursor x y) := by
  obtain ⟨hnx, hnx', hny, hny'⟩ := toInt_cursor hW hrange hnew
  obtain ⟨hox, hox', hoy, hoy'⟩ := toInt_cursor hW hrange hold
  have hzero : (0 : Int32).toInt = 0 := rfl
  have habove : ¬ box.offsetY.toInt + (newCursor / W : Nat) * 20 < 0 := Int.not_lt.mpr hin.1
  have hbelow : ¬ (box.rect.b - box.rect.t).toInt < box.offsetY.toInt + (newCursor / W : Nat) * 20 + 20 :=
    Int.not_lt.mpr hin.2
  simp only [setRedrawRect, if_neg hne, gt_iff_lt, Int32.lt_iff_toInt_lt, ← Int32.toInt_inj, hny, hny',
    hoy, hox, hnx, hzero, if_neg habove, if_neg hbelow]
  refine ⟨_, rfl, ?_⟩
  intro x y p hp hcell
  obtain ⟨hl, hr, ht, hb⟩ : (0 : Int) ≤ p.1 ∧ p.1 < (box.rect.r - box.rect.l).toInt ∧
    (0 : Int) ≤ p.2 ∧ p.2 < box.window.b.toInt := hp
  obtain ⟨hcl, hcr, hct, hcb⟩ := hcell
  simp only [Rect.pixels, Set.mem_ofPred_eq, Between]
  generalize oldCursor / W = oldLine at *
  generalize newCursor / W = newLine at *
  generalize oldCursor % W = oldCol at *
  generalize newCursor % W = newCol at *
  split_ifs <;> simp only [hnx, hnx', hny, hny', hox, hox', hoy, hoy', hzero] <;> omega

end

end

/-! ## When the rectangle is enough -/

/-- The cell of column `x` and row `y` has a pixel in the window. -/
def Seen (box : TextBox) (x y : Nat) : Prop :=
  (-8 < box.offsetX.toInt + x * 8 ∧ box.offsetX.toInt + x * 8 < box.window.r.toInt ∧
      0 < box.window.r.toInt) ∧
    -20 < box.offsetY.toInt + y * 20 ∧ box.offsetY.toInt + y * 20 < box.window.b.toInt ∧
      0 < box.window.b.toInt

/-- A cell of the picture that is not drawn again. -/
def LeftOut (W : Nat) (box : TextBox) (e : Edit) (x y : Nat) : Prop :=
  box.Shown W y ∧ box.Seen x y ∧ (e.tail = box.tail ∨ ¬ Between W box.tail e.tail x y)

/-- The last character that the edit puts down in the place of a cell is another one than before. -/
def Overwritten (W H : Nat) (box : TextBox) (e : Edit) (x y : Nat) : Prop :=
  ∃ i < e.chars.length, e.chars.length ≤ i + W * H ∧
    (e.first + i) % (W * H) = (y * W + x) % (W * H) ∧
    e.chars[i]? ≠ some (box.text ((y * W + x) % (W * H)))

/-- Either the cursor leaves the window, and everything is drawn again, or no cell that is left out has
its row dropped at the head or another character put in its place. -/
def Covered (W H : Nat) (box : TextBox) (e : Edit) : Prop :=
  e.tail ≠ box.tail ∧ ¬ RowInside W box e.tail ∨
    ∀ x ≤ W, ∀ y ≤ box.tail / W, LeftOut W box e x y → e.head / W ≤ y ∧ ¬ Overwritten W H box e x y

section

variable {W H row : Nat} {box box' : TextBox} {e : Edit} {x y : Nat}

instance : Decidable (box.Seen x y) := inferInstanceAs (Decidable (_ ∧ _))

instance : Decidable (box.Shown W y) := inferInstanceAs (Decidable (_ ∧ _))

instance {oldCursor newCursor : Nat} : Decidable (Between W oldCursor newCursor x y) :=
  inferInstanceAs (Decidable (_ ∧ _ ∧ (_ → _)))

instance : Decidable (LeftOut W box e x y) := inferInstanceAs (Decidable (_ ∧ _))

instance : Decidable (Overwritten W H box e x y) := inferInstanceAs (Decidable (∃ i < _, _))

instance : Decidable (Covered W H box e) :=
  inferInstanceAs (Decidable (_ ∨ ∀ x ≤ W, ∀ y ≤ _, LeftOut W box e x y → _))

theorem seen_iff : box.Seen x y ↔ ∃ p ∈ box.window.pixels, box.Cell x y p := by
  constructor
  · rintro ⟨⟨hl, hr, hw⟩, ht, hb, hh⟩
    refine ⟨(max 0 (box.offsetX.toInt + x * 8), max 0 (box.offsetY.toInt + y * 20)), ?_, ?_⟩
    · show (0 : Int) ≤ max _ _ ∧ max _ _ < box.window.r.toInt ∧ (0 : Int) ≤ max _ _ ∧
        max _ _ < box.window.b.toInt
      omega
    · unfold Cell
      omega
  · rintro ⟨p, hp, hcell⟩
    obtain ⟨hl, hr, ht, hb⟩ : (0 : Int) ≤ p.1 ∧ p.1 < box.window.r.toInt ∧
      (0 : Int) ≤ p.2 ∧ p.2 < box.window.b.toInt := hp
    unfold Cell at hcell
    unfold Seen
    omega

/-- The rectangle is enough if the cells outside it that are seen are the same. -/
theorem suffices_iff_same {region : Nat → Nat → Prop} (hmoved : Moved box box')
    (hrange : InRange W row box) (hhead : box.head ≤ box.tail) (hrow : box.tail / W ≤ row)
    (hhead' : box'.head ≤ box'.tail) (hrow' : box'.tail / W ≤ row)
    (hregion : ∀ x y p, p ∈ box.window.pixels → box.Cell x y p →
      (box'.needsRedraw = true ∧ p ∈ box'.redrawRect.pixels ↔ region x y)) :
    RedrawSuffices W H box box' ↔
      ∀ x y, x ≤ W → box.Seen x y → ¬ region x y → SameCell W H box box' x y := by
  constructor
  · intro hsuffices x y hx hseen hout
    obtain ⟨p, hp, hcell⟩ := seen_iff.mp hseen
    have heq : picture W H box' p = picture W H box p := by
      by_contra hne
      exact hout ((hregion x y p hp hcell).mp (hsuffices p hp hne))
    exact (picture_eq_iff hmoved hrange hhead hrow hhead' hrow' hp).mp heq x y hx hcell
  · intro hsame p hp hne
    by_contra hout
    refine hne ((picture_eq_iff hmoved hrange hhead hrow hhead' hrow' hp).mpr fun x y hx hcell => ?_)
    exact hsame x y hx (seen_iff.mpr ⟨p, hp, hcell⟩) fun hin => hout ((hregion x y p hp hcell).mpr hin)

theorem not_overwritten_iff (hn : 0 < W * H) : ¬ Overwritten W H box e x y ↔
    (apply W H box e).text ((y * W + x) % (W * H)) = box.text ((y * W + x) % (W * H)) := by
  show _ ↔ RingBuffer.writes (W * H) e.first e.chars box.text _ = _
  rw [RingBuffer.writes_eq_self_iff hn]
  constructor
  · intro hkept i a ha hlap hcell
    by_contra hne
    refine hkept ⟨i, (List.getElem?_eq_some_iff.mp ha).1, hlap, hcell, ?_⟩
    rw [ha]
    exact fun heq => hne (Option.some.inj heq)
  · rintro hlast ⟨i, hi, hlap, hcell, hne⟩
    have ha := List.getElem?_eq_getElem hi
    exact hne (ha.trans (congrArg some (hlast i _ ha hlap hcell)))

/-- A row that is left out has text after the edit if it had some before. -/
theorem le_tail_iff (hout : e.tail = box.tail ∨ ¬ Between W box.tail e.tail x y) :
    y ≤ e.tail / W ↔ y ≤ box.tail / W := by
  rcases hout with heq | hout
  · rw [heq]
  · -- every row between the two ends is drawn again, and all of it
    unfold Between at hout
    omega

/-- Which cells are the same after an edit. -/
theorem sameCell_iff (hn : 0 < W * H) (hhead : box.head ≤ e.head)
    (hout : e.tail = box.tail ∨ ¬ Between W box.tail e.tail x y) (hboxHead : box'.head = e.head)
    (hboxTail : box'.tail = e.tail) (hboxText : box'.text = (apply W H box e).text) :
    SameCell W H box box' x y ↔
      (box.Shown W y → e.head / W ≤ y ∧ ¬ Overwritten W H box e x y) := by
  have hfirst : box.head / W ≤ e.head / W := Nat.div_le_div_right hhead
  have hlast := le_tail_iff hout
  simp only [SameCell, Shown, hboxHead, hboxTail, hboxText, hlast, not_overwritten_iff hn]
  constructor
  · rintro ⟨hshown, htext⟩ hrow
    exact ⟨(hshown.mpr hrow).1, htext hrow⟩
  · intro h
    refine ⟨⟨fun hrow => ⟨Nat.le_trans hfirst hrow.1, hrow.2⟩, fun hrow => ⟨(h hrow).1, hrow.2⟩⟩, ?_⟩
    exact fun hrow => (h hrow).2

/-- What is the same outside of the rows that are drawn again. -/
theorem same_iff_leftOut (hn : 0 < W * H) (hhead : box.head ≤ e.head) (hboxHead : box'.head = e.head)
    (hboxTail : box'.tail = e.tail) (hboxText : box'.text = (apply W H box e).text) :
    (∀ x y, x ≤ W → box.Seen x y → ¬ (e.tail ≠ box.tail ∧ Between W box.tail e.tail x y) →
      SameCell W H box box' x y) ↔
      ∀ x ≤ W, ∀ y ≤ box.tail / W, LeftOut W box e x y →
        e.head / W ≤ y ∧ ¬ Overwritten W H box e x y := by
  constructor
  · rintro h x hx y - ⟨hshown, hseen, hout⟩
    refine (sameCell_iff hn hhead hout hboxHead hboxTail hboxText).mp (h x y hx hseen ?_) hshown
    rwa [not_and_or, not_not]
  · intro h x y hx hseen hout
    rw [not_and_or, not_not] at hout
    refine (sameCell_iff hn hhead hout hboxHead hboxTail hboxText).mpr fun hshown => ?_
    exact h x hx y hshown.2 ⟨hshown, hseen, hout⟩

/-- **When an edit leaves enough to be drawn again.** -/
theorem suffices_iff_covered (hW : 0 < W) (hH : 0 < H) (hpending : box.needsRedraw = false)
    (hhead : box.head ≤ e.head) (hle : box.head ≤ box.tail) (hle' : e.head ≤ e.tail)
    (hrange : InRange W row box) (hrow : box.tail / W ≤ row) (hrow' : e.tail / W ≤ row) :
    RedrawSuffices W H box (setRedrawRect W box.tail e.tail (apply W H box e)) ↔ Covered W H box e := by
  have hn : 0 < W * H := Nat.mul_pos hW hH
  set box' := setRedrawRect W box.tail e.tail (apply W H box e) with hbox'
  have hboxHead : box'.head = e.head := setRedrawRect_head ..
  have hboxTail : box'.tail = e.tail := setRedrawRect_tail ..
  have hboxText : box'.text = (apply W H box e).text := setRedrawRect_text ..
  have hrange' : InRange W row (apply W H box e) :=
    ⟨hrange.right, hrange.bottom, hrange.width, hrange.height⟩
  have hsame := same_iff_leftOut hn hhead hboxHead hboxTail hboxText
  by_cases htail : e.tail = box.tail
  · have hbox : box' = apply W H box e := by rw [hbox', setRedrawRect, if_pos htail.symm]
    have hneeds : box'.needsRedraw = false := by rw [hbox]; exact hpending
    rw [Covered, ← hsame, or_iff_right fun h => h.1 htail]
    refine suffices_iff_same (hbox ▸ ⟨rfl, rfl, rfl⟩) hrange hle hrow (by omega) (by rwa [hboxTail]) ?_
    intro x y p _ _
    rw [hneeds]
    exact ⟨fun h => absurd h.1 Bool.false_ne_true, fun h => absurd htail h.1⟩
  · by_cases hin : RowInside W box e.tail
    · obtain ⟨rect, hbox, hrect⟩ :=
        setRedrawRect_inside hW hrange' hrow' (Ne.symm htail) hrow hin
      rw [← hbox'] at hbox
      rw [Covered, ← hsame, or_iff_right fun h => h.2 hin]
      refine suffices_iff_same (hbox ▸ ⟨rfl, rfl, rfl⟩) hrange hle hrow (by omega) (by rwa [hboxTail]) ?_
      intro x y p hp hcell
      rw [hbox]
      exact ⟨fun h => ⟨htail, (hrect x y p hp hcell).mp h.2⟩,
        fun h => ⟨rfl, (hrect x y p hp hcell).mpr h.2⟩⟩
    · obtain ⟨hneeds, hrect⟩ := setRedrawRect_outside hW hrange' hrow' (Ne.symm htail) hin
      rw [← hbox'] at hneeds hrect
      refine iff_of_true ?_ (.inl ⟨htail, hin⟩)
      intro p hp _
      rw [hrect]
      exact ⟨hneeds, hp⟩

end

/-! ## A box in order

When `head` is at the beginning of a row and there is room for what is put down, only two things can go
wrong: the row dropped at the head, and the column behind the row above the cursor, which shows the first
character of the row of the cursor.
-/

section

variable {W H : Nat} {box : TextBox} {e : Edit} {x y : Nat}

/-- Of what is put down, only the first character can be in a cell that is left out. -/
theorem overwritten_iff (hW : 0 < W) (hH : 1 < H) (hdvd : W ∣ e.head)
    (hroom : e.first + e.chars.length ≤ e.head + W * H) (hchars : 0 < e.chars.length)
    (hfirst : e.first = min box.tail e.tail)
    (hline : box.tail / W = e.tail / W → e.first + e.chars.length ≤ max box.tail e.tail + 1)
    (hx : x ≤ W) (hkept : e.head / W ≤ y) (hlast : y ≤ box.tail / W)
    (hout : ¬ Between W box.tail e.tail x y) :
    Overwritten W H box e x y ↔
      y * W + x = e.first ∧ e.chars[0]? ≠ some (box.text (e.first % (W * H))) := by
  have hlap : W * 2 ≤ W * H := Nat.mul_le_mul_left W hH
  have hbegin : e.head ≤ y * W := (Nat.div_mul_cancel hdvd).symm.le.trans (Nat.mul_le_mul_right W hkept)
  have hdiv := Nat.div_add_mod' box.tail W
  have hdiv' := Nat.div_add_mod' e.tail W
  have hmod := Nat.mod_lt box.tail hW
  have hmod' := Nat.mod_lt e.tail hW
  have hpos : ∀ i < e.chars.length, (e.first + i) % (W * H) = (y * W + x) % (W * H) →
      y * W + x = e.first ∧ i = 0 := by
    intro i hi hcell
    by_cases habove : (y + 1) * W ≤ e.first
    · -- the cell is not behind the first position, and all is put down within a lap of it
      rw [Nat.succ_mul] at habove
      by_contra hne
      exact RingBuffer.mod_ne_of_window (by omega : y * W + x ≤ e.first + i) (by omega)
        (Nat.le_refl _) (by omega) (by omega) hcell
    · -- otherwise it is beside the two cursors, in their row
      have hnear : box.tail / W < y + 1 ∨ e.tail / W < y + 1 := by
        rcases Nat.le_total box.tail e.tail with hle | hle
        · exact .inl ((Nat.div_lt_iff_lt_mul hW).mpr (by omega))
        · exact .inr ((Nat.div_lt_iff_lt_mul hW).mpr (by omega))
      have hbeside : box.tail / W = e.tail / W ∧ y = box.tail / W ∧
          (x < min (box.tail % W) (e.tail % W) ∨ max (box.tail % W) (e.tail % W) < x) := by
        unfold Between at hout
        omega
      obtain ⟨hsame, hy, hcol⟩ := hbeside
      have hend := hline hsame
      rw [← hsame, ← hy] at hdiv'
      rw [← hy] at hdiv
      by_contra hne
      rcases hcol with hleft | hright
      · exact RingBuffer.mod_ne_of_window (by omega : y * W + x ≤ e.first + i) (by omega)
          (Nat.le_refl _) (by omega) (by omega) hcell
      · exact RingBuffer.mod_ne_of_window (by omega : e.first ≤ e.first + i) (by omega) (by omega)
          (by omega) (by omega) hcell
  constructor
  · rintro ⟨i, hi, -, hcell, hne⟩
    obtain ⟨hplace, rfl⟩ := hpos i hi hcell
    rw [hplace] at hne
    exact ⟨hplace, hne⟩
  · rintro ⟨hplace, hne⟩
    refine ⟨0, hchars, by omega, by rw [hplace, Nat.add_zero], ?_⟩
    rwa [hplace]

/-- If this happens it is in the column behind the row above the first character. -/
theorem place_leftOut {tail tail' first : Nat} (hW : 0 < W) (hfirst : first = min tail tail') (hx : x ≤ W)
    (hout : ¬ Between W tail tail' x y) (hplace : y * W + x = first) : x = W ∧ (y + 1) * W = first := by
  have hrow : y ≤ first / W := (Nat.le_div_iff_mul_le hW).mpr (by omega)
  have hdiv := Nat.div_add_mod' first W
  have habove : y < first / W := by
    refine Nat.lt_of_le_of_ne hrow fun heq => hout ?_
    have hcol : x = first % W := by
      rw [← heq] at hdiv
      omega
    rw [heq, hcol]
    rcases Nat.le_total tail tail' with hle | hle
    · have hdown : tail / W ≤ tail' / W := Nat.div_le_div_right hle
      obtain rfl : first = tail := by omega
      unfold Between
      omega
    · have hdown : tail' / W ≤ tail / W := Nat.div_le_div_right hle
      obtain rfl : first = tail' := by omega
      unfold Between
      omega
  have hbegin : (y + 1) * W ≤ first / W * W := Nat.mul_le_mul_right W habove
  rw [Nat.succ_mul] at hbegin ⊢
  omega

theorem leftOut_column {tail tail' first : Nat} (hfirst : first = min tail tail') (hdvd : W ∣ first)
    (hpos : 0 < first / W) :
    ¬ Between W tail tail' W (first / W - 1) ∧ (first / W - 1) * W + W = first := by
  constructor
  · intro hbetween
    have hrows : min (tail / W) (tail' / W) = first / W := by
      rcases Nat.le_total tail tail' with hle | hle
      · have hdown : tail / W ≤ tail' / W := Nat.div_le_div_right hle
        rw [hfirst, Nat.min_eq_left hle, Nat.min_eq_left hdown]
      · have hdown : tail' / W ≤ tail / W := Nat.div_le_div_right hle
        rw [hfirst, Nat.min_eq_right hle, Nat.min_eq_right hdown]
    have hle := hbetween.1
    omega
  · rw [← Nat.succ_mul, Nat.succ_eq_add_one, Nat.sub_add_cancel hpos, Nat.div_mul_cancel hdvd]

/-- **`backspace` in a box in order.** -/
theorem covered_backspace_iff (hW : 0 < W) (hH : 1 < H) (hdvd : W ∣ box.head)
    (hlt : box.head < box.tail) (hfits : box.tail - box.head < W * H)
    (hin : RowInside W box (box.tail - 1)) :
    Covered W H box (edit W H box .backspace) ↔
      (W ∣ box.tail - 1 → box.head < box.tail - 1 → box.Seen W ((box.tail - 1) / W - 1) →
        box.text ((box.tail - 1) % (W * H)) = cursor) := by
  rw [edit, if_pos hlt, Covered, or_iff_right fun h => h.2 hin]
  have hrows : (box.tail - 1) / W ≤ box.tail / W := Nat.div_le_div_right (Nat.sub_le ..)
  have hover : ∀ {x y}, x ≤ W → box.head / W ≤ y → y ≤ box.tail / W →
      ¬ Between W box.tail (box.tail - 1) x y →
      (Overwritten W H box ⟨box.tail - 1, [cursor, space], box.head, box.tail - 1⟩ x y ↔
        y * W + x = box.tail - 1 ∧ [cursor, space][0]? ≠ some (box.text ((box.tail - 1) % (W * H)))) :=
    fun hx hkept hlast hout =>
      overwritten_iff hW hH hdvd (by show box.tail - 1 + 2 ≤ box.head + W * H; omega) (Nat.zero_lt_succ 1)
        (by show box.tail - 1 = min box.tail (box.tail - 1); omega)
        (fun _ => by show box.tail - 1 + 2 ≤ max box.tail (box.tail - 1) + 1; omega) hx hkept hlast hout
  constructor
  · intro h hrow hmore hseen
    have hbelow : box.head / W < (box.tail - 1) / W := Nat.div_lt_div_of_lt_of_dvd hrow hmore
    obtain ⟨hout, hplace⟩ := leftOut_column (by omega : box.tail - 1 = min box.tail (box.tail - 1)) hrow
      (Nat.zero_lt_of_lt hbelow)
    have hkept : box.head / W ≤ (box.tail - 1) / W - 1 := Nat.le_sub_one_of_lt hbelow
    have hlast : (box.tail - 1) / W - 1 ≤ box.tail / W := Nat.le_trans (Nat.sub_le ..) hrows
    obtain ⟨-, hsame⟩ := h W (Nat.le_refl W) _ hlast ⟨⟨hkept, hlast⟩, hseen, .inr hout⟩
    rw [hover (Nat.le_refl W) hkept hlast hout] at hsame
    by_contra hne
    exact hsame ⟨hplace, fun heq => hne (Option.some.inj heq).symm⟩
  · rintro hcol x hx y hy ⟨⟨hfirst, -⟩, hseen, hout⟩
    have hout : ¬ Between W box.tail (box.tail - 1) x y :=
      hout.resolve_left (by show box.tail - 1 ≠ box.tail; omega)
    refine ⟨hfirst, fun hwritten => ?_⟩
    obtain ⟨hplace, hne⟩ := (hover hx hfirst hy hout).mp hwritten
    obtain ⟨hcolumn, hbegin⟩ := place_leftOut hW (by omega) hx hout hplace
    have hrow : (box.tail - 1) / W - 1 = y := by
      rw [← hbegin, Nat.mul_div_cancel _ hW, Nat.add_sub_cancel]
    have hfirst' : box.head / W * W ≤ y * W := Nat.mul_le_mul_right W hfirst
    rw [Nat.div_mul_cancel hdvd] at hfirst'
    refine hne (congrArg some (hcol ⟨y + 1, ?_⟩ ?_ ?_).symm)
    · rw [Nat.mul_comm, hbegin]
    · rw [Nat.succ_mul] at hbegin
      omega
    · rwa [hrow, ← hcolumn]

theorem length_laid {tail : Nat} {cs : List UInt8} (hW : 0 < W) : (laid W tail cs).length =
    width W tail cs + if (tail + width W tail cs) % W = 0 then W else 1 := by
  rw [laid, List.length_append, length_typed, List.length_cons]
  split
  · rw [List.length_replicate]
    omega
  · rfl

/-- What `print` puts down fits into the ring from `head` on. -/
theorem edit_print_room (hW : 0 < W) (hH : 0 < H) (hdvd : W ∣ box.head) (hle : box.head ≤ box.tail)
    {buffer : List UInt8} (he : e = edit W H box (.print buffer)) (hmore : box.tail < e.tail)
    (hroom : e.tail - box.head < W * H + W) :
    W ∣ e.head ∧ e.first + e.chars.length ≤ e.head + W * H ∧
      (box.tail / W = e.tail / W → e.first + e.chars.length ≤ max box.tail e.tail + 1) := by
  have hfirst : e.first = box.tail := he ▸ rfl
  have hhead : e.head = if e.tail - box.head ≥ W * H then box.head + W else box.head := by
    subst he
    rfl
  have hchars : e.chars.length = e.tail - box.tail + if e.tail % W = 0 then W else 1 := by
    subst he
    show (laid W box.tail _).length = box.tail + width W box.tail _ - box.tail + _
    rw [length_laid hW, Nat.add_sub_cancel_left]
    rfl
  have hrow : W ≤ W * H := Nat.le_mul_of_pos_right W hH
  have hdvd' : W ∣ e.head := by
    rw [hhead]
    split
    · exact Nat.dvd_add hdvd (Nat.dvd_refl W)
    · exact hdvd
  have hlt : e.tail < e.head + W * H := by
    rw [hhead]
    split <;> omega
  refine ⟨hdvd', ?_, fun hsame => ?_⟩
  · rw [hchars]
    split
    case isTrue hblank =>
      -- the blank row
      have hend : e.tail + W ≤ e.head + W * H :=
        add_le_of_dvd (Nat.dvd_of_mod_eq_zero hblank) (Nat.dvd_add hdvd' (Nat.dvd_mul_right W H)) hlt
      omega
    case isFalse => omega
  · have hblank : e.tail % W ≠ 0 := by
      have hdiv := Nat.div_add_mod' box.tail W
      have hdiv' := Nat.div_add_mod' e.tail W
      rw [← hsame] at hdiv'
      omega
    rw [hchars, if_neg hblank]
    omega

/-- **`print` in a box in order.** -/
theorem covered_print_iff (hW : 0 < W) (hH : 1 < H) (hdvd : W ∣ box.head) (hle : box.head ≤ box.tail)
    {buffer : List UInt8} (he : e = edit W H box (.print buffer)) (hmore : box.tail < e.tail)
    (hroom : e.tail - box.head < W * H + W) (hin : RowInside W box e.tail) :
    Covered W H box e ↔
      (W * H ≤ e.tail - box.head → box.head / W < box.tail / W →
        ∀ x ≤ W, ¬ box.Seen x (box.head / W)) ∧
      (W ∣ box.tail → box.head < box.tail → box.Seen W (box.tail / W - 1) →
        e.chars[0]? = some (box.text (box.tail % (W * H)))) := by
  obtain ⟨hdvd', hfull, hline⟩ := edit_print_room hW (by omega) hdvd hle he hmore hroom
  have heFirst : e.first = box.tail := he ▸ rfl
  have heHead : e.head = if e.tail - box.head ≥ W * H then box.head + W else box.head := by
    subst he
    rfl
  have hchars : 0 < e.chars.length := by
    subst he
    show 0 < (laid W box.tail _).length
    rw [length_laid hW]
    split <;> omega
  have hnext : (box.head + W) / W = box.head / W + 1 := Nat.add_div_right _ hW
  have hring : W ≤ W * H := Nat.le_mul_of_pos_right W (by omega)
  have hdown : box.tail / W ≤ e.tail / W := Nat.div_le_div_right (Nat.le_of_lt hmore)
  have hfirst : e.first = min box.tail e.tail := by omega
  have hfirst' : box.tail = min box.tail e.tail := by omega
  have hover : ∀ {x y}, x ≤ W → e.head / W ≤ y → y ≤ box.tail / W →
      ¬ Between W box.tail e.tail x y → (Overwritten W H box e x y ↔
        y * W + x = box.tail ∧ e.chars[0]? ≠ some (box.text (box.tail % (W * H)))) :=
    fun hx hkept hlast hout =>
      heFirst ▸ overwritten_iff hW hH hdvd' hfull hchars hfirst hline hx hkept hlast hout
  rw [Covered, or_iff_right fun h => h.2 hin]
  constructor
  · intro h
    refine ⟨fun hscroll hbelow x hx hseen => ?_, fun hrow hlt hseen => ?_⟩
    · have hout : ¬ Between W box.tail e.tail x (box.head / W) := by
        unfold Between
        omega
      obtain ⟨hkept, -⟩ := h x hx (box.head / W) (Nat.le_of_lt hbelow)
        ⟨⟨Nat.le_refl _, Nat.le_of_lt hbelow⟩, hseen, .inr hout⟩
      rw [heHead, if_pos hscroll, hnext] at hkept
      omega
    · have hbelow : box.head / W < box.tail / W := Nat.div_lt_div_of_lt_of_dvd hrow hlt
      obtain ⟨hout, hplace⟩ := leftOut_column hfirst' hrow (Nat.zero_lt_of_lt hbelow)
      obtain ⟨hkept, hsame⟩ := h W (Nat.le_refl W) (box.tail / W - 1) (Nat.sub_le ..)
        ⟨⟨Nat.le_sub_one_of_lt hbelow, Nat.sub_le ..⟩, hseen, .inr hout⟩
      rw [hover (Nat.le_refl W) hkept (Nat.sub_le ..) hout] at hsame
      by_contra hne
      exact hsame ⟨hplace, hne⟩
  · rintro ⟨hhead, hcol⟩ x hx y hy ⟨⟨hshown, -⟩, hseen, hout⟩
    have hout : ¬ Between W box.tail e.tail x y := hout.resolve_left (by omega)
    have hkept : e.head / W ≤ y := by
      rw [heHead]
      split
      case isTrue hscroll =>
        rw [hnext]
        by_contra hdropped
        have heq : y = box.head / W := by omega
        refine hhead hscroll ?_ x hx (heq ▸ hseen)
        -- otherwise all the text after the call is in one row
        by_contra hbelow
        have hsame : box.head / W = e.tail / W := by
          unfold Between at hout
          omega
        have hdiv := Nat.div_add_mod' e.tail W
        have hmod := Nat.mod_lt e.tail hW
        rw [← hsame, Nat.div_mul_cancel hdvd] at hdiv
        omega
      case isFalse => exact hshown
    refine ⟨hkept, fun hwritten => ?_⟩
    obtain ⟨hplace, hne⟩ := (hover hx hkept hy hout).mp hwritten
    obtain ⟨hcolumn, hbegin⟩ := place_leftOut hW hfirst' hx hout hplace
    have hrow : box.tail / W - 1 = y := by
      rw [← hbegin, Nat.mul_div_cancel _ hW, Nat.add_sub_cancel]
    have hshown' : box.head / W * W ≤ y * W := Nat.mul_le_mul_right W hshown
    rw [Nat.div_mul_cancel hdvd] at hshown'
    refine hne (hcol ⟨y + 1, ?_⟩ ?_ ?_)
    · rw [Nat.mul_comm, hbegin]
    · rw [Nat.succ_mul] at hbegin
      omega
    · rwa [hrow, ← hcolumn]

end

/-- **The rectangle is enough** exactly if the cursor leaves the window, or nothing that is left out loses
its row or is overwritten. -/
theorem redraw_suffices_iff {W H : Nat} (hW : 0 < W) (hH : 0 < H) {box : TextBox} (op : TextOp)
    (hpending : box.needsRedraw = false) (hle : box.head ≤ box.tail)
    (hfits : box.tail - box.head < W * H)
    (hrange : InRange W (max (box.tail / W) ((edit W H box op).tail / W)) box) :
    RedrawSuffices W H box (call W H box op) ↔ Covered W H box (edit W H box op) := by
  have hrow : W ≤ W * H := Nat.le_mul_of_pos_right W hH
  obtain ⟨hhead, hle'⟩ : box.head ≤ (edit W H box op).head ∧
      (edit W H box op).head ≤ (edit W H box op).tail := by
    cases op with
    | print buffer =>
      simp only [edit]
      split <;> omega
    | backspace =>
      rw [edit]
      split
      case isTrue hlt => exact ⟨Nat.le_refl _, Nat.le_sub_one_of_lt hlt⟩
      case isFalse => exact ⟨Nat.le_refl _, hle⟩
  rw [call_eq hW hH hfits]
  exact suffices_iff_covered hW hH hpending hhead hle hle' hrange (Nat.le_max_left ..)
    (Nat.le_max_right ..)

/-- A box with nothing to be drawn. -/
def drawn (box : TextBox) : TextBox := { box with needsRedraw := false }

/-- `"ab"` in an empty box. -/
theorem redraw_suffices_example :
    Covered 4 2 (drawn (.empty ⟨0, 0, 32, 40⟩))
        (edit 4 2 (drawn (.empty ⟨0, 0, 32, 40⟩)) (.print [97, 98])) ∧
      RedrawSuffices 4 2 (drawn (.empty ⟨0, 0, 32, 40⟩))
        (call 4 2 (drawn (.empty ⟨0, 0, 32, 40⟩)) (.print [97, 98])) := by
  have hcovered : Covered 4 2 (drawn (.empty ⟨0, 0, 32, 40⟩))
      (edit 4 2 (drawn (.empty ⟨0, 0, 32, 40⟩)) (.print [97, 98])) := by
    decide +kernel
  refine ⟨hcovered,
    (redraw_suffices_iff (by decide) (by decide) _ rfl (by decide) (by decide) ?_).mpr hcovered⟩
  exact ⟨by decide +kernel, by decide +kernel, by decide +kernel, by decide +kernel⟩

/-- Two rows of four characters in a window with room for three rows: after `"ab\ncde"` the character
`'f'` moves `head` on, and the row that is dropped stays in the window. -/
theorem dropped_row_stays : ∃ box : TextBox,
    box = drawn ((TextBox.empty ⟨0, 0, 32, 60⟩).print 4 2 [97, 98, 10, 99, 100, 101]) ∧
      box.needsRedraw = false ∧ box.head ≤ box.tail ∧ box.tail - box.head < 4 * 2 ∧
      ¬ RedrawSuffices 4 2 box (call 4 2 box (.print [102])) := by
  refine ⟨_, rfl, rfl, by decide +kernel, by decide +kernel, ?_⟩
  intro h
  have hbefore : Glyph.mk 97 0 0 ∈
      picture 4 2 (drawn ((TextBox.empty ⟨0, 0, 32, 60⟩).print 4 2 [97, 98, 10, 99, 100, 101])) (0, 0) :=
    ⟨by decide +kernel, by decide +kernel⟩
  have hafter : Glyph.mk 97 0 0 ∉ picture 4 2
      (call 4 2 (drawn ((TextBox.empty ⟨0, 0, 32, 60⟩).print 4 2 [97, 98, 10, 99, 100, 101]))
        (.print [102])) (0, 0) := by
    rintro ⟨hdraw, -⟩
    revert hdraw
    decide +kernel
  have hin := (h (0, 0) (by decide +kernel) fun heq => hafter (heq ▸ hbefore)).2
  revert hin
  decide +kernel

end Shipwreck.Gui.TextBox
