import Mathlib.Data.Nat.Bitwise
import Shipwreck.Gui.Fill
import Shipwreck.Gui.RectUnion
import Shipwreck.Gui.UserData
import Shipwreck.Lib.Retouch

/-!
# Drawing text

`render_char_xy_clipped` of `vga.cpp` draws those pixels of a character that are in the clip. `ASCII_MAP` has
sixteen bytes for each character, one for each row, and the highest bit is the leftmost pixel:

    0 0 0 1 1 0 0 0
    0 0 1 1 1 1 0 0      row 1 of 'A'
    0 1 1 0 0 1 1 0

The index of a row is computed from a `char`, which is signed: the characters from 128 on are read from before
the map. A text box draws its characters one after another, as many as the clip may meet; what there is at a pixel
does not depend on the clip (`Legible.draw_inked`).
-/

namespace Shipwreck.Gui

open CInt (upTo)

/-! ## The functions -/

/-- `CHAR_WIDTH` and `CHAR_HEIGHT` -/
def charWidth : Int32 := 8

def charHeight : Int32 := 16

/-- `GREEN` -/
def green : UInt16 := 0x03E0

section

variable (width : UInt16) (asciiMap : Int → UInt8)

/-- The inner loop of `render_char_xy_clipped`: `n` columns from `cx` on, and the bits that are left. -/
def renderColumns (x y : Int32) (color : UInt16) (cy : Int32) : Nat → Int32 → UInt8 → Vga → Vga
  | 0, _, _, vga => vga
  | n + 1, cx, bits, vga =>
    let vga :=
      if bits &&& 0x80 ≠ 0 then vga.setPixel width ((x + cx).toInt, (y + cy).toInt) color else vga
    renderColumns x y color cy n (cx + 1) (bits <<< 1) vga

/-- `render_char_xy_clipped` -/
def renderCharXyClipped (c : UInt8) (x y : Int32) (color : UInt16) (clip : Rect) (vga : Vga) : Vga :=
  let textrect : Rect := ⟨0, 0, charWidth, charHeight⟩
  let cliprect : Rect := ⟨clip.l - x, clip.t - y, clip.r - x, clip.b - y⟩
  match cliprect.intersect textrect with
  | none => vga
  | some textrect =>
    let mapIndex := c.toInt8.toInt * charHeight.toInt
    (CInt.below textrect.t textrect.b).foldl (fun vga cy =>
      let bits := ((asciiMap (mapIndex + cy.toInt)).toUInt32 <<< textrect.l.toUInt32).toUInt8
      renderColumns width x y color cy (textrect.r.toInt - textrect.l.toInt).toNat textrect.l bits vga) vga

/-- The characters of a text box, one after another. -/
def renderGlyphs (clip : Rect) (glyphs : List TextBox.Glyph) (vga : Vga) : Vga :=
  glyphs.foldl (fun vga g => renderCharXyClipped width asciiMap g.char g.x g.y green clip vga) vga

end

/-- The character `c` at `(x, y)` has ink on the pixel. -/
def Inks (asciiMap : Int → UInt8) (c : UInt8) (x y : Int) (p : Int × Int) : Prop :=
  0 ≤ p.1 - x ∧ p.1 - x < 8 ∧ 0 ≤ p.2 - y ∧ p.2 - y < 16 ∧
    (asciiMap (c.toInt8.toInt * 16 + (p.2 - y))).toNat.testBit (7 - (p.1 - x).toNat) = true

instance (asciiMap : Int → UInt8) (c : UInt8) (x y : Int) (p : Int × Int) :
    Decidable (Inks asciiMap c x y p) :=
  inferInstanceAs (Decidable (_ ∧ _))

/-! ## What is done to the frame buffer -/

/-- What an action did to the frame buffer. -/
abbrev Vga.Drawn (width : UInt16) : Set (Int × Int) → (Int × Int → UInt16 → UInt16) → Vga → Vga → Prop :=
  DrawnOn Vga.pixels Vga.touched (pixelOffset width)

theorem Vga.setPixel_drawn (width : UInt16) (p : Int × Int) (c : UInt16) (vga : Vga) :
    Vga.Drawn width {p} (fun _ _ => c) vga (vga.setPixel width p c) where
  retouched := Retouched.of_painted (Painted.single p c)
  touched _ hq := (List.mem_cons.mp hq).symm

/-- Filling a rectangle on the screen. -/
theorem rectFill_drawn {width height : UInt16} {rect : Rect} (hrect : rect.Inside width height)
    (col : UInt32) (vga : Vga) :
    Vga.Drawn width rect.pixels (fun _ c => shade col c) vga (rectFill width height rect col vga) := by
  have hset : rect.pixels ∩ screen width height = rect.pixels := Set.inter_eq_left.mpr hrect.subset
  have hpainted := rectFill_painted width height rect col vga
  rw [hset] at hpainted
  constructor
  · constructor
    · intro p hp
      rw [hpainted.inside p hp, Option.getD_some]
    · exact hpainted.outside
  · intro p hp
    exact (rectFill_touched hp).imp_right fun h => h.1

/-! ## One character -/

section

variable {width height : UInt16} {asciiMap : Int → UInt8} {x y cy cx : Int32} {color : UInt16} {c : UInt8}
  {clip : Rect} {row bits : UInt8} {vga : Vga} {p : Int × Int}

/-- The test of the highest bit. -/
theorem highest_bit_iff (bits : UInt8) : bits &&& 0x80 ≠ 0 ↔ bits.toNat.testBit 7 = true := by
  have hand : (bits &&& 0x80).toNat = (bits.toNat.testBit 7).toNat * 2 ^ 7 := by
    rw [UInt8.toNat_and, ← Nat.and_two_pow]
    rfl
  rw [Ne, ← UInt8.toNat_inj, hand]
  cases bits.toNat.testBit 7 with
  | false => simp
  | true => simp

/-- The columns of a row from column `k` on. -/
theorem renderColumns_drawn {k n : Nat} (hn : k + n ≤ 8) (hcx : cx.toInt = k)
    (hbits : bits.toNat = row.toNat <<< k % 256)
    (hrow : rowFrom (x.toInt + k) (y + cy).toInt n ⊆ screen width height) (vga : Vga) :
    Vga.Drawn width (rowFrom (x.toInt + k) (y + cy).toInt n)
      (fun p b => if row.toNat.testBit (7 - (p.1 - x.toInt).toNat) then color else b) vga
      (renderColumns width x y color cy n cx bits vga) := by
  induction n generalizing k cx bits vga with
  | zero =>
    apply DrawnOn.refl
    rintro p ⟨hlo, hhi, -⟩
    omega
  | succ n ih =>
    have hfirst : (x + cx).toInt = x.toInt + k := by
      obtain ⟨h0, hlt, -, -⟩ := hrow (show (x.toInt + k, (y + cy).toInt) ∈ _ from
        ⟨Int.le_refl _, by dsimp only; omega, rfl⟩)
      have hwidth := width.toNat_lt
      dsimp only at h0 hlt
      rw [CInt.toInt_add_of_fits (by omega) (by omega), hcx]
    have hsplit (p : Int × Int) : p ∈ rowFrom (x.toInt + k) (y + cy).toInt (n + 1) ↔
        p ∈ ({(x.toInt + k, (y + cy).toInt)} : Set _) ∨
          p ∈ rowFrom (x.toInt + (k + 1 : Nat)) (y + cy).toInt n := by
      obtain ⟨i, j⟩ := p
      simp only [rowFrom, Set.mem_ofPred_eq, Set.mem_singleton_iff, Prod.mk.injEq]
      omega
    have happart : ∀ p ∈ ({(x.toInt + k, (y + cy).toInt)} : Set (Int × Int)),
        p ∉ rowFrom (x.toInt + (k + 1 : Nat)) (y + cy).toInt n := by
      rintro p rfl ⟨hle, -⟩
      dsimp only at hle
      omega
    -- the highest bit of what is left is the one of column `k`
    have hbit : bits &&& 0x80 ≠ 0 ↔ row.toNat.testBit (7 - k) = true := by
      have hk : k ≤ 7 := by omega
      rw [highest_bit_iff, hbits, show (256 : Nat) = 2 ^ 8 from rfl, Nat.testBit_mod_two_pow,
        Nat.testBit_shiftLeft]
      simp [hk]
    have hcolumn : (x.toInt + (k : Int) - x.toInt).toNat = k := by omega
    have hnext : (cx + 1).toInt = (k + 1 : Nat) := by
      have hone : (1 : Int32).toInt = 1 := rfl
      rw [CInt.toInt_add_of_fits (by omega) (by omega), hcx, hone]
      rfl
    have hshift : (bits <<< 1).toNat = row.toNat <<< (k + 1) % 256 := by
      rw [UInt8.toNat_shiftLeft, hbits, Nat.shiftLeft_succ]
      generalize row.toNat <<< k = m
      show (m % 256) <<< 1 % 256 = _
      rw [Nat.shiftLeft_eq]
      omega
    have hpixel : Vga.Drawn width {(x.toInt + k, (y + cy).toInt)}
        (fun p b => if row.toNat.testBit (7 - (p.1 - x.toInt).toNat) then color else b) vga
        (if bits &&& 0x80 ≠ 0 then vga.setPixel width ((x + cx).toInt, (y + cy).toInt) color
          else vga) := by
      rw [hfirst]
      by_cases hset : bits &&& 0x80 ≠ 0
      · rw [if_pos hset]
        apply (Vga.setPixel_drawn width _ color vga).congr
        rintro p rfl b
        rw [hcolumn, if_pos (hbit.mp hset)]
      · rw [if_neg hset]
        apply DrawnOn.refl
        rintro p rfl b
        rw [hcolumn, if_neg fun h => hset (hbit.mpr h)]
    have hrest : rowFrom (x.toInt + (k + 1 : Nat)) (y + cy).toInt n ⊆ screen width height :=
      fun p hp => hrow ((hsplit p).mpr (.inr hp))
    exact hpixel.pieces pixelOffset_injOn hrow hsplit happart
      (ih (by omega) hnext hshift hrest _)

/-- What the subtraction leaves where it overflows: the place is far to the left of the screen then. -/
theorem toInt_sub_side {a : Int32} (h0 : 0 ≤ a.toInt) (ha : a.toInt < 65536) (x : Int32) :
    a.toInt - x.toInt < 2147483648 ∧ (a - x).toInt = a.toInt - x.toInt ∨
      2147483648 ≤ a.toInt - x.toInt ∧ (a - x).toInt = a.toInt - x.toInt - 4294967296 := by
  have hlo := x.le_toInt
  have hhi := x.toInt_lt
  rw [Int32.toInt_sub, Int.bmod]
  split <;> omega

/-- The pixels of the clip that a character may have ink on. -/
theorem mem_charRect (hclip : clip.Inside width height) (hordered : clip.Ordered) {textrect : Rect}
    (hmeet : Rect.intersect ⟨clip.l - x, clip.t - y, clip.r - x, clip.b - y⟩ ⟨0, 0, charWidth, charHeight⟩ =
      some textrect) (i j : Int) :
    (i, j) ∈ textrect.pixels ↔
      (x.toInt + i, y.toInt + j) ∈ clip.pixels ∧ 0 ≤ i ∧ i < 8 ∧ 0 ≤ j ∧ j < 16 := by
  obtain ⟨⟨hl, ht, hr, hb⟩, -, -⟩ := Rect.intersect_eq_some hmeet
  obtain ⟨hl0, ht0, hrw, hbh⟩ := hclip
  have hlr := Int32.le_iff_toInt_le.mp hordered.l_le_r
  have htb := Int32.le_iff_toInt_le.mp hordered.t_le_b
  have hw := width.toNat_lt
  have hh := height.toNat_lt
  have hx := x.le_toInt
  have hy := y.le_toInt
  have hzero : (0 : Int32).toInt = 0 := rfl
  have hcw : charWidth.toInt = 8 := rfl
  have hch : charHeight.toInt = 16 := rfl
  simp only [hzero, hcw, hch] at hl ht hr hb
  have hL := toInt_sub_side (a := clip.l) hl0 (by omega) x
  have hR := toInt_sub_side (a := clip.r) (by omega) (by omega) x
  have hT := toInt_sub_side (a := clip.t) ht0 (by omega) y
  have hB := toInt_sub_side (a := clip.b) (by omega) (by omega) y
  simp only [Rect.pixels, Set.mem_ofPred_eq, hl, ht, hr, hb]
  omega

theorem inks_outside (hclip : clip.Inside width height)
    (hmeet : Rect.intersect ⟨clip.l - x, clip.t - y, clip.r - x, clip.b - y⟩ ⟨0, 0, charWidth, charHeight⟩ =
      none) (hp : p ∈ clip.pixels) : ¬ Inks asciiMap c x.toInt y.toInt p := by
  rintro ⟨hx0, hx, hy0, hy, -⟩
  obtain ⟨hpl, hpr, hpt, hpb⟩ := hp
  obtain ⟨hl0, ht0, hrw, hbh⟩ := hclip
  have hw := width.toNat_lt
  have hh := height.toNat_lt
  have hL := toInt_sub_side (a := clip.l) hl0 (by omega) x
  have hR := toInt_sub_side (a := clip.r) (by omega) (by omega) x
  have hT := toInt_sub_side (a := clip.t) ht0 (by omega) y
  have hB := toInt_sub_side (a := clip.b) (by omega) (by omega) y
  have hin : (p.1 - x.toInt, p.2 - y.toInt) ∈
      (⟨clip.l - x, clip.t - y, clip.r - x, clip.b - y⟩ : Rect).pixels := by
    simp only [Rect.pixels, Set.mem_ofPred_eq]
    omega
  have hcell : (p.1 - x.toInt, p.2 - y.toInt) ∈ (⟨0, 0, charWidth, charHeight⟩ : Rect).pixels :=
    ⟨hx0, hx, hy0, hy⟩
  exact Rect.intersect_eq_none hmeet hcell hin

/-- **One character**: the pixels of the clip that it has ink on get its colour. -/
theorem renderCharXyClipped_drawn (hclip : clip.Inside width height) (hordered : clip.Ordered) (vga : Vga) :
    Vga.Drawn width clip.pixels (fun p b => if Inks asciiMap c x.toInt y.toInt p then color else b) vga
      (renderCharXyClipped width asciiMap c x y color clip vga) := by
  rw [renderCharXyClipped]
  split
  case h_1 hmeet =>
    apply DrawnOn.refl
    intro p hp b
    rw [if_neg (inks_outside hclip hmeet hp)]
  case h_2 textrect hmeet =>
    have hmem := mem_charRect hclip hordered hmeet
    obtain ⟨⟨hl, ht, hr, hb⟩, hlr, -⟩ := Rect.intersect_eq_some hmeet
    have hcw : charWidth.toInt = 8 := rfl
    have hl0 : 0 ≤ textrect.l.toInt := hl ▸ Int.le_max_right _ _
    have hr8 : textrect.r.toInt ≤ 8 := hr ▸ hcw ▸ Int.min_le_right _ _
    obtain ⟨k, hk⟩ : ∃ k : Nat, textrect.l.toInt = k := ⟨_, (Int.toNat_of_nonneg hl0).symm⟩
    obtain ⟨n, hn⟩ : ∃ n : Nat, (textrect.r.toInt - textrect.l.toInt).toNat = n := ⟨_, rfl⟩
    rw [hn]
    -- the rows of the rectangle, on the screen
    have hrow {cy : Int32} (hcy : cy ∈ CInt.below textrect.t textrect.b) {p : Int × Int} :
        p ∈ rowFrom (x.toInt + k) (y + cy).toInt n ↔
          (p.1 - x.toInt, p.2 - y.toInt) ∈ textrect.pixels ∧ p.2 = y.toInt + cy.toInt := by
      have hbelow := CInt.mem_below.mp hcy
      have hwrapped (hne : k < textrect.r.toInt) : (y + cy).toInt = y.toInt + cy.toInt := by
        have hcorner := (hmem k cy.toInt).mp ⟨Int.le_of_eq hk, hne, hbelow.1, hbelow.2⟩
        obtain ⟨-, -, h0, hlt⟩ := hclip.subset hcorner.1
        have hheight := height.toNat_lt
        dsimp only at h0 hlt
        exact CInt.toInt_add_of_fits (by omega) (by omega)
      simp only [rowFrom, Rect.pixels, Set.mem_ofPred_eq, hk]
      constructor
      · rintro ⟨hlo, hhi, hy⟩
        rw [hwrapped (by omega)] at hy
        omega
      · rintro ⟨⟨hlo, hhi, -, -⟩, hy⟩
        rw [hwrapped (by omega)]
        omega
    have hcell {cy : Int32} (hcy : cy ∈ CInt.below textrect.t textrect.b) {p : Int × Int}
        (hp : p ∈ rowFrom (x.toInt + k) (y + cy).toInt n) :
        p ∈ clip.pixels ∧ (Inks asciiMap c x.toInt y.toInt p ↔
          (asciiMap (c.toInt8.toInt * 16 + cy.toInt)).toNat.testBit (7 - (p.1 - x.toInt).toNat) = true) := by
      have hback : ∀ a b : Int, a + (b - a) = b := by omega
      obtain ⟨hin, hy⟩ := (hrow hcy).mp hp
      obtain ⟨hclip', hx0, hx8, hy0, hy16⟩ := (hmem _ _).mp hin
      rw [hback, hback] at hclip'
      have hcy' : p.2 - y.toInt = cy.toInt := by omega
      refine ⟨hclip', ?_⟩
      rw [Inks, hcy']
      rw [hcy'] at hy0 hy16
      simp only [hx0, hx8, hy0, hy16, true_and]
    have happart : (CInt.below textrect.t textrect.b).Pairwise fun a b =>
        ∀ p ∈ rowFrom (x.toInt + k) (y + a).toInt n, p ∉ rowFrom (x.toInt + k) (y + b).toInt n := by
      refine (CInt.nodup_below _ _).imp fun {a b} hne p hp hp' => hne ?_
      have hy : (y + a).toInt = (y + b).toInt := hp.2.2.symm.trans hp'.2.2
      exact (Int32.add_right_inj y).mp (Int32.toInt_inj.mp hy)
    have hact : ∀ cy ∈ CInt.below textrect.t textrect.b, ∀ vga,
        Vga.Drawn width (rowFrom (x.toInt + k) (y + cy).toInt n)
          (fun p b => if Inks asciiMap c x.toInt y.toInt p then color else b) vga
          (renderColumns width x y color cy n textrect.l
            ((asciiMap (c.toInt8.toInt * charHeight.toInt + cy.toInt)).toUInt32 <<<
              textrect.l.toUInt32).toUInt8 vga) := by
      intro cy hcy vga
      have hbits : ((asciiMap (c.toInt8.toInt * charHeight.toInt + cy.toInt)).toUInt32 <<<
          textrect.l.toUInt32).toUInt8.toNat =
            (asciiMap (c.toInt8.toInt * 16 + cy.toInt)).toNat <<< k % 256 := by
        have hshift : textrect.l.toUInt32.toNat = k := by
          have hnat := CInt.toNat_toUInt32 hl0
          omega
        have hk32 : k % 32 = k := Nat.mod_eq_of_lt (by omega)
        rw [UInt32.toNat_toUInt8, UInt32.toNat_shiftLeft, hshift, hk32, UInt8.toNat_toUInt32]
        exact Nat.mod_mod_of_dvd _ (by decide)
      refine (renderColumns_drawn (by omega) hk hbits
        (fun p hp => hclip.subset (hcell hcy hp).1) vga).congr fun p hp b => ?_
      simp only [(hcell hcy hp).2]
    have hdrawn := DrawnOn.foldl pixelOffset_injOn (fun cy hcy p hp => hclip.subset (hcell hcy hp).1) happart hact vga
    refine hdrawn.mono pixelOffset_injOn hclip.subset ?_ ?_
    · rintro p ⟨cy, hcy, hp⟩
      exact (hcell hcy hp).1
    · intro p hp hout b
      rw [if_neg]
      rintro ⟨hx0, hx8, hy0, hy16, -⟩
      have hin : (p.1 - x.toInt, p.2 - y.toInt) ∈ textrect.pixels := by
        have hback : ∀ a b : Int, a + (b - a) = b := by omega
        rw [hmem, hback, hback]
        exact ⟨hp, hx0, hx8, hy0, hy16⟩
      have hlo := textrect.t.le_toInt
      have hhi := textrect.b.toInt_lt
      have hcy : (Int32.ofInt (p.2 - y.toInt)).toInt = p.2 - y.toInt :=
        Int32.toInt_ofInt_of_le (by omega) (by omega)
      have htop : textrect.t.toInt ≤ p.2 - y.toInt := hin.2.2.1
      have hbottom : p.2 - y.toInt < textrect.b.toInt := hin.2.2.2
      have hbelow : Int32.ofInt (p.2 - y.toInt) ∈ CInt.below textrect.t textrect.b := by
        rw [CInt.mem_below, hcy]
        exact ⟨htop, hbottom⟩
      refine hout ⟨_, hbelow, (hrow hbelow).mpr ⟨hin, ?_⟩⟩
      omega

end

/-! ## The text of a text box -/

namespace TextBox.Buffer

/-- The text lies where an `int` can say how far it is from the screen. -/
structure Legible (buf : Buffer) (rect : Rect) : Prop where
  order : buf.InOrder
  left : -2147418112 ≤ (buf.virtX rect).toInt
  top : -2147418112 ≤ (buf.virtY rect).toInt
  right : (buf.virtX rect).toInt + buf.charW.toInt * 8 < 2147483648
  bottom : (buf.virtY rect).toInt + buf.tail.toInt / buf.charW.toInt * 20 < 2147483648

/-- The text has ink on the pixel: the row and the column in which it lies are shown, and the character there has
ink on it. -/
def Inked (asciiMap : Int → UInt8) (buf : Buffer) (rect : Rect) (p : Int × Int) : Prop :=
  let x := (p.1 - (buf.virtX rect).toInt) / 8
  let y := (p.2 - (buf.virtY rect).toInt) / 20
  0 ≤ x ∧ x ≤ buf.charW.toInt ∧ buf.head.toInt / buf.charW.toInt ≤ y ∧ y ≤ buf.tail.toInt / buf.charW.toInt ∧
    Inks asciiMap (buf.text ((y * buf.charW.toInt + x).toNat % buf.max.toInt.toNat))
      ((buf.virtX rect).toInt + x * 8) ((buf.virtY rect).toInt + y * 20) p

instance (asciiMap : Int → UInt8) (buf : Buffer) (rect : Rect) (p : Int × Int) :
    Decidable (buf.Inked asciiMap rect p) :=
  inferInstanceAs (Decidable (_ ∧ _))

section

variable {width height : UInt16} {asciiMap : Int → UInt8} {buf : Buffer} {rect clip shown : Rect} {p : Int × Int}

/-- The rows and columns that the clip may meet. -/
theorem Legible.toInt_textClip (h : buf.Legible rect) (hclip : clip.Inside width height)
    (hordered : clip.Ordered) :
    (buf.textClip rect clip).l.toInt = (clip.l.toInt - (buf.virtX rect).toInt).tdiv 8 ∧
      (buf.textClip rect clip).t.toInt = (clip.t.toInt - (buf.virtY rect).toInt).tdiv 20 ∧
      (buf.textClip rect clip).r.toInt = (clip.r.toInt - (buf.virtX rect).toInt).tdiv 8 ∧
      (buf.textClip rect clip).b.toInt = (clip.b.toInt - (buf.virtY rect).toInt).tdiv 20 := by
  obtain ⟨hl, ht, hr, hb⟩ := hclip
  have hlr := Int32.le_iff_toInt_le.mp hordered.l_le_r
  have htb := Int32.le_iff_toInt_le.mp hordered.t_le_b
  have hw := width.toNat_lt
  have hh := height.toNat_lt
  have hleft := h.left
  have htop := h.top
  have hx := (buf.virtX rect).toInt_lt
  have hy := (buf.virtY rect).toInt_lt
  have hspacingX : charSpacingX.toInt = 8 := rfl
  have hspacingY : charSpacingY.toInt = 20 := rfl
  have hsub {a v : Int32} (ha0 : 0 ≤ a.toInt) (ha : a.toInt < 65536) (hv : -2147418112 ≤ v.toInt) :
      (a - v).toInt = a.toInt - v.toInt := by
    have hvlt := v.toInt_lt
    exact CInt.toInt_sub_of_fits (by omega) (by omega)
  refine ⟨?_, ?_, ?_, ?_⟩
  · exact CInt.toInt_div_of_one_lt (hsub hl (by omega) hleft) hspacingX (by decide)
  · exact CInt.toInt_div_of_one_lt (hsub ht (by omega) htop) hspacingY (by decide)
  · exact CInt.toInt_div_of_one_lt (hsub (by omega) (by omega) hleft) hspacingX (by decide)
  · exact CInt.toInt_div_of_one_lt (hsub (by omega) (by omega) htop) hspacingY (by decide)

/-- The rows and columns of the text. -/
theorem InOrder.toInt_textRect (h : buf.InOrder) :
    buf.textRect.l.toInt = 0 ∧ buf.textRect.t.toInt = buf.head.toInt / buf.charW.toInt ∧
      buf.textRect.r.toInt = buf.charW.toInt ∧ buf.textRect.b.toInt = buf.tail.toInt / buf.charW.toInt :=
  ⟨rfl, (CInt.toInt_div_mod_of_nonneg h.head h.charW).1, rfl,
    (CInt.toInt_div_mod_of_nonneg h.tail h.charW).1⟩

/-- Where the characters are that are shown. -/
theorem Legible.toInt_cell (h : buf.Legible rect) {x y : Int32} (hx : 0 ≤ x.toInt)
    (hxw : x.toInt ≤ buf.charW.toInt) (hy : 0 ≤ y.toInt) (hyb : y.toInt ≤ buf.tail.toInt / buf.charW.toInt) :
    (buf.virtX rect + x * charSpacingX).toInt = (buf.virtX rect).toInt + x.toInt * 8 ∧
      (buf.virtY rect + y * charSpacingY).toInt = (buf.virtY rect).toInt + y.toInt * 20 := by
  have hright := h.right
  have hbottom := h.bottom
  have hplace {v i s : Int32} {k : Nat} (hi : 0 ≤ i.toInt) (hs : s.toInt = k)
      (hfits : v.toInt + i.toInt * k < 2147483648) : (v + i * s).toInt = v.toInt + i.toInt * k := by
    have hcast : ((i.toInt.toNat : Nat) : Int) = i.toInt := Int.toNat_of_nonneg hi
    have hi' : Int32.ofNat i.toInt.toNat = i := by
      rw [← Int32.ofInt_eq_ofNat, hcast, Int32.ofInt_toInt]
    have hadd := CInt.toInt_mul_add_of_fits (b := v) (n := i.toInt.toNat) hs (by rw [hcast]; exact hfits)
    rw [hi', hcast] at hadd
    rw [Int32.add_comm, hadd]
  exact ⟨hplace (k := 8) hx rfl (by omega), hplace (k := 20) hy rfl (by omega)⟩

/-- The character in row `y` and column `x`. -/
def shownGlyph (buf : Buffer) (rect : Rect) (y x : Int32) : Glyph where
  char := buf.text ((y.toInt * buf.charW.toInt + x.toInt).toNat % buf.max.toInt.toNat)
  x := buf.virtX rect + x * charSpacingX
  y := buf.virtY rect + y * charSpacingY

/-- The characters that are drawn. -/
theorem InOrder.mem_draw (h : buf.InOrder) (rect clip : Rect) :
    ∃ glyphs, buf.draw rect clip = some glyphs ∧ ∀ g, g ∈ glyphs ↔
      ∃ shown, (buf.textClip rect clip).intersect buf.textRect = some shown ∧
        ∃ y ∈ upTo shown.t shown.b, ∃ x ∈ upTo shown.l shown.r, g = buf.shownGlyph rect y x := by
  unfold draw
  rw [if_pos ⟨CInt.divides_of_pos h.charW, CInt.divides_of_pos h.charW⟩]
  cases hshown : (buf.textClip rect clip).intersect buf.textRect with
  | none =>
    refine ⟨[], rfl, fun g => iff_of_false List.not_mem_nil ?_⟩
    rintro ⟨shown, hsome, -⟩
    cases hsome
  | some shown =>
    let cells := (upTo shown.t shown.b).flatMap fun y => (upTo shown.l shown.r).map fun x => (y, x)
    have hcells : ∀ c ∈ cells, buf.glyph rect c.1 c.2 = some (buf.shownGlyph rect c.1 c.2) := by
      intro c hc
      obtain ⟨y, hy, hc⟩ := List.mem_flatMap.mp hc
      obtain ⟨x, hx, rfl⟩ := List.mem_map.mp hc
      obtain ⟨hy0, hx0, hposition⟩ := h.toInt_position hshown hy hx
      have hcharW := h.charW
      have hrow : 0 ≤ y.toInt * buf.charW.toInt := Int.mul_nonneg hy0 (Int.le_of_lt hcharW)
      show (buf.read (y * buf.charW + x)).bind _ = _
      rw [h.read (by omega), hposition]
      rfl
    refine ⟨_, mapM_eq_some hcells, fun g => ?_⟩
    simp only [List.mem_map, List.mem_flatMap]
    constructor
    · rintro ⟨c, ⟨y, hy, x, hx, rfl⟩, rfl⟩
      exact ⟨shown, rfl, y, hy, x, hx, rfl⟩
    · rintro ⟨shown', hsome, y, hy, x, hx, rfl⟩
      cases hsome
      exact ⟨(y, x), ⟨y, hy, x, hx, rfl⟩, rfl⟩

/-- **The text does not depend on the clip**: the characters that are drawn for a clip have ink on those of its
pixels that the text has ink on. -/
theorem Legible.draw_inked (h : buf.Legible rect) (hclip : clip.Inside width height) (hordered : clip.Ordered)
    (asciiMap : Int → UInt8) :
    ∃ glyphs, buf.draw rect clip = some glyphs ∧ ∀ p ∈ clip.pixels,
      ((∃ g ∈ glyphs, Inks asciiMap g.char g.x.toInt g.y.toInt p) ↔ buf.Inked asciiMap rect p) := by
  obtain ⟨glyphs, hdraw, hmem⟩ := h.order.mem_draw rect clip
  obtain ⟨hcl, hct, hcr, hcb⟩ := h.toInt_textClip hclip hordered
  obtain ⟨htl, htt, htr, htb⟩ := h.order.toInt_textRect
  have hhead : 0 ≤ buf.head.toInt / buf.charW.toInt :=
    Int.ediv_nonneg h.order.head (Int.le_of_lt h.order.charW)
  refine ⟨glyphs, hdraw, fun p hp => ?_⟩
  simp only [hmem]
  constructor
  · rintro ⟨g, ⟨shown, hshown, y, hy, x, hx, rfl⟩, hinks⟩
    obtain ⟨⟨hl, ht, hr, hb⟩, -, -⟩ := Rect.intersect_eq_some hshown
    rw [htl] at hl
    rw [htt] at ht
    rw [htr] at hr
    rw [htb] at hb
    rw [CInt.mem_upTo] at hx hy
    obtain ⟨hcellX, hcellY⟩ := h.toInt_cell (x := x) (y := y) (by omega) (by omega) (by omega) (by omega)
    simp only [shownGlyph, hcellX, hcellY] at hinks
    obtain ⟨hx0, hx8, hy0, hy16, -⟩ := id hinks
    -- the pixel lies in one cell only
    have hcolumn : (p.1 - (buf.virtX rect).toInt) / 8 = x.toInt := by omega
    have hrow : (p.2 - (buf.virtY rect).toInt) / 20 = y.toInt := by omega
    simp only [Inked, hcolumn, hrow]
    exact ⟨by omega, by omega, by omega, by omega, hinks⟩
  · rintro ⟨hx0, hxw, hyh, hyt, hinks⟩
    obtain ⟨hpl, hpr, hpt, hpb⟩ := hp
    obtain ⟨x, hx⟩ : ∃ x, x = (p.1 - (buf.virtX rect).toInt) / 8 := ⟨_, rfl⟩
    obtain ⟨y, hy⟩ : ∃ y, y = (p.2 - (buf.virtY rect).toInt) / 20 := ⟨_, rfl⟩
    rw [← hx] at hx0 hxw hinks
    rw [← hy] at hyh hyt hinks
    have hcolumn : (clip.l.toInt - (buf.virtX rect).toInt).tdiv 8 ≤ x ∧
        x ≤ (clip.r.toInt - (buf.virtX rect).toInt).tdiv 8 :=
      CInt.tdiv_le_and_le_tdiv (i := p.1 - (buf.virtX rect).toInt) (by decide) hx0 (by omega)
        (by omega) (by omega) (by omega)
    have hrow : (clip.t.toInt - (buf.virtY rect).toInt).tdiv 20 ≤ y ∧
        y ≤ (clip.b.toInt - (buf.virtY rect).toInt).tdiv 20 :=
      CInt.tdiv_le_and_le_tdiv (i := p.2 - (buf.virtY rect).toInt) (by decide) (by omega) (by omega)
        (by omega) (by omega) (by omega)
    rw [← hcl, ← hcr] at hcolumn
    rw [← hct, ← hcb] at hrow
    -- its cell is inside of both rectangles
    obtain ⟨shown, hshown⟩ : ∃ shown, (buf.textClip rect clip).intersect buf.textRect = some shown :=
      intersect_of_mem (i := x) (j := y) hcolumn.1 hcolumn.2 hrow.1 hrow.2 (by omega) (by omega) (by omega)
        (by omega)
    obtain ⟨⟨hl, ht, hr, hb⟩, -, -⟩ := Rect.intersect_eq_some hshown
    have hwlt := buf.charW.toInt_lt
    have hylt := shown.b.toInt_lt
    have hxi : (Int32.ofInt x).toInt = x := Int32.toInt_ofInt_of_le (by omega) (by omega)
    have hyi : (Int32.ofInt y).toInt = y := Int32.toInt_ofInt_of_le (by omega) (by omega)
    refine ⟨_, ⟨shown, hshown, Int32.ofInt y, CInt.mem_upTo.mpr (by omega), Int32.ofInt x,
      CInt.mem_upTo.mpr (by omega), rfl⟩, ?_⟩
    obtain ⟨hcellX, hcellY⟩ := h.toInt_cell (x := Int32.ofInt x) (y := Int32.ofInt y) (by omega) (by omega)
      (by omega) (by omega)
    simp only [shownGlyph, hcellX, hcellY, hxi, hyi]
    exact hinks

end

end TextBox.Buffer

section

variable {width height : UInt16} {asciiMap : Int → UInt8} {clip : Rect}

theorem foldl_green (glyphs : List TextBox.Glyph) (p : Int × Int) (b : UInt16) :
    glyphs.foldl (fun b g => if Inks asciiMap g.char g.x.toInt g.y.toInt p then green else b) b =
      if ∃ g ∈ glyphs, Inks asciiMap g.char g.x.toInt g.y.toInt p then green else b := by
  induction glyphs generalizing b with
  | nil => simp
  | cons g glyphs ih =>
    rw [List.foldl_cons, ih]
    by_cases hg : Inks asciiMap g.char g.x.toInt g.y.toInt p
    · simp [hg]
    · simp [hg]

/-- **The text of a text box on the screen.** -/
theorem renderGlyphs_drawn (hclip : clip.Inside width height) (hordered : clip.Ordered)
    (glyphs : List TextBox.Glyph) (vga : Vga) :
    Vga.Drawn width clip.pixels
      (fun p b => if ∃ g ∈ glyphs, Inks asciiMap g.char g.x.toInt g.y.toInt p then green else b) vga
      (renderGlyphs width asciiMap clip glyphs vga) := by
  have hglyph : ∀ g ∈ glyphs, ∀ vga, Vga.Drawn width clip.pixels
      (fun p b => if Inks asciiMap g.char g.x.toInt g.y.toInt p then green else b) vga
      (renderCharXyClipped width asciiMap g.char g.x g.y green clip vga) :=
    fun g _ vga => renderCharXyClipped_drawn hclip hordered vga
  exact (DrawnOn.foldl_over hglyph vga).congr fun p _ b => foldl_green glyphs p b

end

end Shipwreck.Gui
