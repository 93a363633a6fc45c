import Shipwreck.Gui.Paint
import Shipwreck.Gui.TextBox
import Shipwreck.Lib.CInt

/-!
# The picture of a text box

`GUITextBox::draw` of `gui.cpp` draws the characters of the rows from `head` to `tail`, as far as they lie
in the clip, and in each row one character more than there are in it: the first one of the next row.

              0   1   2   3   4
    head -> | a | b | c | d | e
            | e | f | _ |   |          <- tail

`mem_picture` says what there is at a pixel when the whole window is drawn, and `picture_eq_iff` when
this is the same in two states of the text.
-/

namespace Shipwreck.Gui.TextBox

/-- A call of `render_char_xy_clipped`. -/
structure Glyph where
  char : UInt8
  x : Int32
  y : Int32
  deriving DecidableEq, Repr

/-- `text_clip`: the clip in rows and columns of the text. -/
def textClip (clip : Rect) (box : TextBox) : Rect :=
  let virtX := box.rect.l + box.offsetX
  let virtY := box.rect.t + box.offsetY
  ⟨(clip.l - virtX) / charSpacingX, (clip.t - virtY) / charSpacingY,
    (clip.r - virtX) / charSpacingX, (clip.b - virtY) / charSpacingY⟩

/-- `text_rect` -/
def textRect (W : Nat) (box : TextBox) : Rect :=
  ⟨0, Int32.ofNat (box.head / W), Int32.ofNat W, Int32.ofNat (box.tail / W)⟩

/-- `GUITextBox::draw(clip)`: the characters that it draws. -/
def draw (W H : Nat) (clip : Rect) (box : TextBox) : List Glyph :=
  match (textClip clip box).intersect (textRect W box) with
  | none => []
  | some textRect =>
    (CInt.upTo textRect.t textRect.b).flatMap fun y =>
      (CInt.upTo textRect.l textRect.r).map fun x =>
        let textOffset := y.toInt.toNat * W + x.toInt.toNat
        ⟨box.text (textOffset % (W * H)), box.rect.l + box.offsetX + x * charSpacingX,
          box.rect.t + box.offsetY + y * charSpacingY⟩

/-- The window of a text box, seen from its own upper left corner. -/
def window (box : TextBox) : Rect := ⟨0, 0, box.rect.r - box.rect.l, box.rect.b - box.rect.t⟩

/-- The pixel of the window is in the cell of a character. -/
def InCell (box : TextBox) (g : Glyph) (p : Int × Int) : Prop :=
  (g.x - box.rect.l).toInt ≤ p.1 ∧ p.1 < (g.x - box.rect.l).toInt + charSpacingX.toInt ∧
    (g.y - box.rect.t).toInt ≤ p.2 ∧ p.2 < (g.y - box.rect.t).toInt + charSpacingY.toInt

instance (box : TextBox) (g : Glyph) (p : Int × Int) : Decidable (box.InCell g p) :=
  inferInstanceAs (Decidable (_ ∧ _))

/-- What there is at a pixel of the window when the whole window is drawn. -/
def picture (W H : Nat) (box : TextBox) (p : Int × Int) : Set Glyph :=
  { g | g ∈ box.draw W H box.rect ∧ box.InCell g p }

/-- A call that turns `box` into `box'` leaves in the rectangle to be redrawn all that it changes. -/
def RedrawSuffices (W H : Nat) (box box' : TextBox) : Prop :=
  ∀ p ∈ box.window.pixels, picture W H box' p ≠ picture W H box p →
    box'.needsRedraw = true ∧ p ∈ box'.redrawRect.pixels

/-- The pixels of the text up to row `row` have coordinates that fit into an `int`, seen from the window
and from the text. -/
structure InRange (W row : Nat) (box : TextBox) : Prop where
  right : box.offsetX.toInt + W * 8 < 2147483648
  bottom : box.offsetY.toInt + (row + 1) * 20 < 2147483648
  width : box.window.r.toInt - box.offsetX.toInt < 2147483648
  height : box.window.b.toInt - box.offsetY.toInt < 2147483648

section

variable {W H row : Nat} {box box' : TextBox} {p : Int × Int} {x y : Nat}

/-- The cell of column `x` and row `y` of the text. -/
def Cell (box : TextBox) (x y : Nat) (p : Int × Int) : Prop :=
  box.offsetX.toInt + x * 8 ≤ p.1 ∧ p.1 < box.offsetX.toInt + x * 8 + 8 ∧
    box.offsetY.toInt + y * 20 ≤ p.2 ∧ p.2 < box.offsetY.toInt + y * 20 + 20

/-- The character that is drawn there. -/
def glyph (W H : Nat) (box : TextBox) (x y : Nat) : Glyph where
  char := box.text ((y * W + x) % (W * H))
  x := box.rect.l + box.offsetX + Int32.ofNat x * charSpacingX
  y := box.rect.t + box.offsetY + Int32.ofNat y * charSpacingY

theorem inCell_glyph (hx : box.offsetX.toInt + x * 8 < 2147483648)
    (hy : box.offsetY.toInt + y * 20 < 2147483648) :
    box.InCell (glyph W H box x y) p ↔ box.Cell x y p := by
  have hrel : ∀ a b c : Int32, a + b + c - a = c + b := by grind
  simp only [InCell, glyph, hrel]
  rw [CInt.toInt_mul_add_of_fits (k := 8) rfl hx, CInt.toInt_mul_add_of_fits (k := 20) rfl hy]
  rfl

/-- Rectangles of rows and columns meet where one column and one row is in both. -/
theorem intersect_of_mem {src dst : Rect} {i j : Int}
    (hl : src.l.toInt ≤ i) (hr : i ≤ src.r.toInt) (ht : src.t.toInt ≤ j) (hb : j ≤ src.b.toInt)
    (hl' : dst.l.toInt ≤ i) (hr' : i ≤ dst.r.toInt) (ht' : dst.t.toInt ≤ j) (hb' : j ≤ dst.b.toInt) :
    ∃ meet, src.intersect dst = some meet := by
  simp only [Rect.intersect, Int32.lt_iff_toInt_lt, Rect.toInt_max, Rect.toInt_min]
  rw [if_neg (by omega), if_neg (by omega)]
  exact ⟨_, rfl⟩

/-- The columns and rows of the whole window. -/
theorem textClip_rect (hrange : InRange W row box) (hw : 0 ≤ box.window.r.toInt)
    (hh : 0 ≤ box.window.b.toInt) :
    (textClip box.rect box).l.toInt = (-box.offsetX.toInt).tdiv 8 ∧
      (textClip box.rect box).r.toInt = (box.window.r.toInt - box.offsetX.toInt).tdiv 8 ∧
      (textClip box.rect box).t.toInt = (-box.offsetY.toInt).tdiv 20 ∧
      (textClip box.rect box).b.toInt = (box.window.b.toInt - box.offsetY.toInt).tdiv 20 := by
  have hlast : ∀ {a o z : Int32}, 0 ≤ (z - a).toInt → (z - a).toInt - o.toInt < 2147483648 →
      (z - (a + o)).toInt = (z - a).toInt - o.toInt := by
    intro a o z hd hfit
    have ho := o.toInt_lt
    have hrel : z - (a + o) = z - a - o := by grind
    rw [hrel, CInt.toInt_sub_of_fits (by omega) hfit]
  have hfirst : ∀ {a o : Int32} {d : Int}, 0 ≤ d → d - o.toInt < 2147483648 →
      (a - (a + o)).toInt = -o.toInt := by
    intro a o d hd hfit
    have hself : (a - a).toInt = 0 := by rw [Int32.sub_self]; rfl
    rw [hlast (by omega) (by omega), hself, Int.zero_sub]
  exact ⟨CInt.toInt_div_of_one_lt (hfirst hw hrange.width) rfl (by decide),
    CInt.toInt_div_of_one_lt (hlast hw hrange.width) rfl (by decide),
    CInt.toInt_div_of_one_lt (hfirst hh hrange.height) rfl (by decide),
    CInt.toInt_div_of_one_lt (hlast hh hrange.height) rfl (by decide)⟩

/-- **What `draw` shows**: at a pixel of the window there is the character in whose cell it lies, if this
is a cell of the text, or of the column behind it. -/
theorem mem_picture (hrange : InRange W row box) (hhead : box.head ≤ box.tail) (hrow : box.tail / W ≤ row)
    (hp : p ∈ box.window.pixels) (g : Glyph) : g ∈ picture W H box p ↔
      ∃ x y, x ≤ W ∧ box.head / W ≤ y ∧ y ≤ box.tail / W ∧ box.Cell x y p ∧ g = glyph W H box x y := by
  have hhead' : box.head / W ≤ box.tail / W := Nat.div_le_div_right hhead
  obtain ⟨hl, hr, ht, hb⟩ : (0 : Int) ≤ p.1 ∧ p.1 < box.window.r.toInt ∧
    (0 : Int) ≤ p.2 ∧ p.2 < box.window.b.toInt := hp
  obtain ⟨hclipL, hclipR, hclipT, hclipB⟩ := textClip_rect hrange (by omega) (by omega)
  obtain ⟨hright, hbottom, -, -⟩ := hrange
  have hx0 := box.offsetX.le_toInt
  have hy0 := box.offsetY.le_toInt
  have hR : (textRect W box).r.toInt = W := Int32.toInt_ofNat_of_lt (by omega)
  have hT : (textRect W box).t.toInt = (box.head / W : Nat) := Int32.toInt_ofNat_of_lt (by omega)
  have hB : (textRect W box).b.toInt = (box.tail / W : Nat) := Int32.toInt_ofNat_of_lt (by omega)
  have hL : (textRect W box).l.toInt = 0 := rfl
  have hT0 : 0 ≤ (textRect W box).t.toInt := hT ▸ Int.natCast_nonneg _
  constructor
  · rintro ⟨hdraw, hcell⟩
    rw [draw] at hdraw
    split at hdraw
    case h_1 => cases hdraw
    case h_2 meet hmeet =>
      obtain ⟨⟨hml, hmt, hmr, hmb⟩, -, -⟩ := Rect.intersect_eq_some hmeet
      obtain ⟨y, hy, hdraw⟩ := List.mem_flatMap.mp hdraw
      obtain ⟨x, hx, rfl⟩ := List.mem_map.mp hdraw
      rw [CInt.mem_upTo] at hx hy
      have hglyph : ∀ i : Int32, 0 ≤ i.toInt → Int32.ofNat i.toInt.toNat = i := by
        intro i hi
        rw [← Int32.toInt_inj, Int32.toInt_ofNat_of_lt (by have := i.toInt_lt; omega)]
        omega
      have heq : (⟨box.text ((y.toInt.toNat * W + x.toInt.toNat) % (W * H)),
          box.rect.l + box.offsetX + x * charSpacingX, box.rect.t + box.offsetY + y * charSpacingY⟩ :
            Glyph) = glyph W H box x.toInt.toNat y.toInt.toNat := by
        rw [glyph, hglyph x (by omega), hglyph y (by omega)]
      have hcell' : box.InCell (glyph W H box x.toInt.toNat y.toInt.toNat) p := heq ▸ hcell
      exact ⟨x.toInt.toNat, y.toInt.toNat, by omega, by omega, by omega,
        (inCell_glyph (by omega) (by omega)).mp hcell', heq⟩
  · rintro ⟨x, y, hxW, hhy, hyt, hcell, rfl⟩
    refine ⟨?_, (inCell_glyph (by omega) (by omega)).mpr hcell⟩
    obtain ⟨hcl, hcr, hct, hcb⟩ := hcell
    -- the divisions of `draw` round towards zero, and so leave no cell with the pixel out
    have hx : (-box.offsetX.toInt).tdiv 8 ≤ (x : Int) ∧
        (x : Int) ≤ (box.window.r.toInt - box.offsetX.toInt).tdiv 8 :=
      CInt.tdiv_le_and_le_tdiv (i := p.1 - box.offsetX.toInt) (by decide) (by omega) (by omega)
        (by omega) (by omega) (by omega)
    have hy : (-box.offsetY.toInt).tdiv 20 ≤ (y : Int) ∧
        (y : Int) ≤ (box.window.b.toInt - box.offsetY.toInt).tdiv 20 :=
      CInt.tdiv_le_and_le_tdiv (i := p.2 - box.offsetY.toInt) (by decide) (by omega) (by omega)
        (by omega) (by omega) (by omega)
    obtain ⟨meet, hmeet⟩ : ∃ meet, (textClip box.rect box).intersect (textRect W box) = some meet :=
      intersect_of_mem (i := x) (j := y) (by omega) (by omega) (by omega) (by omega) (by omega)
        (by omega) (by omega) (by omega)
    obtain ⟨⟨hml, hmt, hmr, hmb⟩, -, -⟩ := Rect.intersect_eq_some hmeet
    have hxn : (Int32.ofNat x).toInt = x := Int32.toInt_ofNat_of_lt (by omega)
    have hyn : (Int32.ofNat y).toInt = y := Int32.toInt_ofNat_of_lt (by omega)
    rw [draw, hmeet]
    refine List.mem_flatMap.mpr ⟨Int32.ofNat y, CInt.mem_upTo.mpr (by omega), ?_⟩
    refine List.mem_map.mpr ⟨Int32.ofNat x, CInt.mem_upTo.mpr (by omega), ?_⟩
    rw [hxn, hyn]
    rfl

/-- A row of the text that is drawn. -/
def Shown (W : Nat) (box : TextBox) (y : Nat) : Prop := box.head / W ≤ y ∧ y ≤ box.tail / W

theorem Cell.unique {x' y' : Nat} (h : box.Cell x y p) (h' : box.Cell x' y' p) : x' = x ∧ y' = y := by
  obtain ⟨hl, hr, ht, hb⟩ := h
  obtain ⟨hl', hr', ht', hb'⟩ := h'
  omega

/-- In the cell of a character nothing else is drawn. -/
theorem mem_picture_cell (hrange : InRange W row box) (hhead : box.head ≤ box.tail)
    (hrow : box.tail / W ≤ row) (hp : p ∈ box.window.pixels) (hx : x ≤ W) (hcell : box.Cell x y p)
    (g : Glyph) : g ∈ picture W H box p ↔ box.Shown W y ∧ g = glyph W H box x y := by
  rw [mem_picture hrange hhead hrow hp]
  constructor
  · rintro ⟨x', y', -, hfirst, hlast, hcell', rfl⟩
    obtain ⟨rfl, rfl⟩ := hcell.unique hcell'
    exact ⟨⟨hfirst, hlast⟩, rfl⟩
  · rintro ⟨⟨hfirst, hlast⟩, rfl⟩
    exact ⟨x, y, hx, hfirst, hlast, hcell, rfl⟩

/-- The text of a box has changed, and not its place. -/
structure Moved (box box' : TextBox) : Prop where
  rect : box'.rect = box.rect
  offsetX : box'.offsetX = box.offsetX
  offsetY : box'.offsetY = box.offsetY

/-- The same character in both pictures. -/
def SameCell (W H : Nat) (box box' : TextBox) (x y : Nat) : Prop :=
  (box'.Shown W y ↔ box.Shown W y) ∧
    (box.Shown W y → box'.text ((y * W + x) % (W * H)) = box.text ((y * W + x) % (W * H)))

/-- **What has changed**: a pixel shows the same in both pictures if its cell has the same character. -/
theorem picture_eq_iff (hmoved : Moved box box') (hrange : InRange W row box)
    (hhead : box.head ≤ box.tail) (hrow : box.tail / W ≤ row) (hhead' : box'.head ≤ box'.tail)
    (hrow' : box'.tail / W ≤ row) (hp : p ∈ box.window.pixels) :
    picture W H box' p = picture W H box p ↔
      ∀ x y, x ≤ W → box.Cell x y p → SameCell W H box box' x y := by
  have hwindow : box'.window = box.window := by rw [window, window, hmoved.rect]
  have hrange' : InRange W row box' := by
    obtain ⟨hright, hbottom, hwidth, hheight⟩ := hrange
    constructor
    · rwa [hmoved.offsetX]
    · rwa [hmoved.offsetY]
    · rwa [hmoved.offsetX, hwindow]
    · rwa [hmoved.offsetY, hwindow]
  have hcells : ∀ x y, box'.Cell x y p ↔ box.Cell x y p := by
    intro x y
    rw [Cell, Cell, hmoved.offsetX, hmoved.offsetY]
  have hglyph : ∀ x y, glyph W H box' x y = glyph W H box x y ↔
      box'.text ((y * W + x) % (W * H)) = box.text ((y * W + x) % (W * H)) := by
    intro x y
    simp [glyph, hmoved.rect, hmoved.offsetX, hmoved.offsetY]
  have hp' : p ∈ box'.window.pixels := hwindow ▸ hp
  constructor
  · intro heq x y hx hcell
    -- the pixel shows what its one cell shows, before and after
    have hmem := mem_picture_cell (H := H) hrange hhead hrow hp hx hcell
    have hmem' := mem_picture_cell (H := H) hrange' hhead' hrow' hp' hx ((hcells x y).mpr hcell)
    have hboth : ∀ g, (box'.Shown W y ∧ g = glyph W H box' x y) ↔
        box.Shown W y ∧ g = glyph W H box x y := by
      intro g
      rw [← hmem g, ← hmem' g, heq]
    refine ⟨⟨fun h => ((hboth _).mp ⟨h, rfl⟩).1, fun h => ((hboth _).mpr ⟨h, rfl⟩).1⟩, fun h => ?_⟩
    exact (hglyph x y).mp ((hboth _).mpr ⟨h, rfl⟩).2.symm
  · intro hsame
    ext g
    rw [mem_picture hrange hhead hrow hp, mem_picture hrange' hhead' hrow' hp']
    constructor
    · rintro ⟨x, y, hx, hfirst, hlast, hcell, rfl⟩
      rw [hcells] at hcell
      obtain ⟨hshown, htext⟩ := hsame x y hx hcell
      obtain ⟨hfirst', hlast'⟩ := hshown.mp ⟨hfirst, hlast⟩
      exact ⟨x, y, hx, hfirst', hlast', hcell, (hglyph x y).mpr (htext ⟨hfirst', hlast'⟩)⟩
    · rintro ⟨x, y, hx, hfirst, hlast, hcell, rfl⟩
      obtain ⟨hshown, htext⟩ := hsame x y hx hcell
      obtain ⟨hfirst', hlast'⟩ := hshown.mpr ⟨hfirst, hlast⟩
      exact ⟨x, y, hx, hfirst', hlast', (hcells x y).mpr hcell,
        ((hglyph x y).mpr (htext ⟨hfirst, hlast⟩)).symm⟩

end

end Shipwreck.Gui.TextBox
