import Shipwreck.Gui.Blend

/-!
# Filling rectangles

`rect_fill` of `vga.cpp` fills a rectangle, as far as it lies on the screen. Three bits of the colour,
above the sixteen that are stored, are its alpha:

    18   16 15               0
    | alpha |     ushort      |

Where they are 0 the colour replaces what was on the screen; else `fast_blend_factor` mixes the two,
with the alpha as the factor.
-/

namespace Shipwreck.Gui

/-- `clamp_in_to_rect`. -/
def Rect.clampIn (rect : Rect) (x y : Int32) : Int32 × Int32 :=
  (if x < rect.l then rect.l else if x ≥ rect.r then rect.r else x,
    if y < rect.t then rect.t else if y ≥ rect.b then rect.b else y)

/-- The two loops of `rect_fill`. -/
def forPixels (rect : Rect) (body : Int × Int → Vga → Vga) (vga : Vga) : Vga :=
  (CInt.below rect.t rect.b).foldl (fun vga y =>
    (CInt.below rect.l rect.r).foldl (fun vga x => body (x.toInt, y.toInt) vga) vga) vga

/-- `col & 0x00070000`, which is also `GET_ALPHA`. -/
def getAlpha (col : UInt32) : UInt32 := col &&& 0x00070000

section

variable (width height : UInt16)

/-- `screen_rect`, after `initTextRender`. -/
def screenRect : Rect := ⟨0, 0, width.toUInt32.toInt32, height.toUInt32.toInt32⟩

/-- `clip_to_screen`. -/
def clipToScreen (x y : Int32) : Int32 × Int32 := (screenRect width height).clampIn x y

/-- The rectangle after the first two statements of `rect_fill`. -/
def clipCorners (rect : Rect) : Rect :=
  let (l, t) := clipToScreen width height rect.l rect.t
  let (r, b) := clipToScreen width height rect.r rect.b
  ⟨l, t, r, b⟩

/-- `rect_fill`. -/
def rectFill (rect : Rect) (col : UInt32) (vga : Vga) : Vga :=
  let rect := clipCorners width height rect
  let alpha := getAlpha col
  if alpha ≠ 0 then
    forPixels rect (fun p vga =>
      let (c, vga) := vga.getPixel width p
      vga.setPixel width p (fastBlendFactor c col.toUInt16 (alpha >>> 16))) vga
  else
    forPixels rect (fun p vga => vga.setPixel width p col.toUInt16) vga

end

/-- What `rect_fill` makes of a pixel of the colour `c`. -/
def shade (col : UInt32) (c : UInt16) : UInt16 :=
  if getAlpha col ≠ 0 then fastBlendFactor c col.toUInt16 (getAlpha col >>> 16) else col.toUInt16

/-! ## The loops -/

/-- The pixels in the order of the two loops. -/
def Rect.scan (rect : Rect) : List (Int × Int) :=
  (CInt.below rect.t rect.b ×ˢ CInt.below rect.l rect.r).map fun i => (i.2.toInt, i.1.toInt)

theorem Rect.mem_scan {rect : Rect} {p : Int × Int} : p ∈ rect.scan ↔ p ∈ rect.pixels := by
  simp only [scan, List.mem_map, Prod.exists, List.mem_product, CInt.mem_below, pixels,
    Set.mem_ofPred_eq]
  constructor
  · rintro ⟨y, x, ⟨⟨ht, hb⟩, hl, hr⟩, rfl⟩
    exact ⟨hl, hr, ht, hb⟩
  · rintro ⟨hl, hr, ht, hb⟩
    have hfits {i : Int} {lo hi : Int32} (hlo : lo.toInt ≤ i) (hhi : i < hi.toInt) :
        (Int32.ofInt i).toInt = i := by
      have hmin := lo.le_toInt
      have hmax := hi.toInt_lt
      exact Int32.toInt_ofInt_of_le (by omega) (by omega)
    refine ⟨Int32.ofInt p.2, Int32.ofInt p.1, ?_, ?_⟩
    · rw [hfits ht hb, hfits hl hr]
      exact ⟨⟨ht, hb⟩, hl, hr⟩
    · rw [hfits ht hb, hfits hl hr]

/-- No pixel is visited twice. -/
theorem Rect.nodup_scan (rect : Rect) : rect.scan.Nodup := by
  apply List.Nodup.map
  · rintro ⟨y, x⟩ ⟨y', x'⟩ heq
    obtain ⟨hx, hy⟩ := Prod.mk.inj heq
    exact Prod.ext (Int32.toInt_inj.mp hy) (Int32.toInt_inj.mp hx)
  · exact (CInt.nodup_below _ _).product (CInt.nodup_below _ _)

theorem forPixels_eq (rect : Rect) (body : Int × Int → Vga → Vga) (vga : Vga) :
    forPixels rect body vga = rect.scan.foldl (fun vga p => body p vga) vga := by
  show _ = List.foldl _ vga (List.map _ (List.product _ _))
  simp only [forPixels, List.product, List.foldl_map, List.foldl_flatMap]

/-- The loops touch no other pixels than those of the rectangle. -/
theorem forPixels_touched {rect : Rect} {body : Int × Int → Vga → Vga} {vga : Vga} {p : Int × Int}
    (hbody : ∀ q vga, p ∈ (body q vga).touched → p = q ∨ p ∈ vga.touched)
    (hp : p ∈ (forPixels rect body vga).touched) : p ∈ vga.touched ∨ p ∈ rect.pixels := by
  rw [forPixels_eq] at hp
  rw [← Rect.mem_scan]
  generalize rect.scan = l at hp ⊢
  induction l generalizing vga with
  | nil => exact Or.inl hp
  | cons q l ih =>
    rcases ih hp with hq | hl
    · rcases hbody q vga hq with rfl | hold
      · exact Or.inr List.mem_cons_self
      · exact Or.inl hold
    · exact Or.inr (List.mem_cons_of_mem q hl)

section

variable {width height : UInt16} {rect : Rect} {col : UInt32} {vga : Vga}

/-- The colour and the old pixel decide about the new one. -/
theorem rectFill_eq (width height : UInt16) (rect : Rect) (col : UInt32) (vga : Vga) :
    (rectFill width height rect col vga).pixels =
      (clipCorners width height rect).scan.foldl (fun q p =>
        Function.update q (pixelOffset width p) (shade col (q (pixelOffset width p)))) vga.pixels := by
  rw [rectFill]
  split
  case isTrue halpha =>
    rw [forPixels_eq]
    refine (List.foldl_hom Vga.pixels ?_).symm
    intro vga p
    rw [shade, if_pos halpha]
    rfl
  case isFalse halpha =>
    rw [forPixels_eq]
    refine (List.foldl_hom Vga.pixels ?_).symm
    intro vga p
    rw [shade, if_neg halpha]
    rfl

/-! ## Clipping -/

theorem toInt_side (n : UInt16) : n.toUInt32.toInt32.toInt = n.toNat := by
  have hn := n.toNat_lt
  rw [CInt.toInt_toInt32, UInt16.toNat_toUInt32]
  exact CInt.toInt_of_fits (by omega) (by omega)

/-- A point moved into a rectangle; it may come to lie on the right or the bottom edge. -/
theorem Rect.toInt_clampIn (rect : Rect) (hlr : rect.l.toInt ≤ rect.r.toInt)
    (htb : rect.t.toInt ≤ rect.b.toInt) (x y : Int32) :
    (rect.clampIn x y).1.toInt = Max.max rect.l.toInt (Min.min x.toInt rect.r.toInt) ∧
      (rect.clampIn x y).2.toInt = Max.max rect.t.toInt (Min.min y.toInt rect.b.toInt) := by
  have hclamp {lo hi : Int32} (hle : lo.toInt ≤ hi.toInt) (i : Int32) :
      (if i < lo then lo else if i ≥ hi then hi else i).toInt =
        Max.max lo.toInt (Min.min i.toInt hi.toInt) := by
    simp only [ge_iff_le, Int32.lt_iff_toInt_lt, Int32.le_iff_toInt_le]
    split
    · omega
    · split <;> omega
  exact ⟨hclamp hlr x, hclamp htb y⟩

theorem toInt_clipToScreen (width height : UInt16) (x y : Int32) :
    (clipToScreen width height x y).1.toInt = Max.max 0 (Min.min x.toInt width.toNat) ∧
      (clipToScreen width height x y).2.toInt = Max.max 0 (Min.min y.toInt height.toNat) := by
  have hside (n : UInt16) : (0 : Int32).toInt ≤ n.toUInt32.toInt32.toInt := by
    rw [toInt_side]
    exact Int.natCast_nonneg _
  have hclamp := (screenRect width height).toInt_clampIn (hside width) (hside height) x y
  simp only [screenRect, toInt_side] at hclamp
  exact hclamp

/-- **Moving the corners onto the screen cuts off what is beyond it.** -/
theorem pixels_clipCorners (width height : UInt16) (rect : Rect) :
    (clipCorners width height rect).pixels = rect.pixels ∩ screen width height := by
  obtain ⟨hl, ht⟩ := toInt_clipToScreen width height rect.l rect.t
  obtain ⟨hr, hb⟩ := toInt_clipToScreen width height rect.r rect.b
  ext p
  simp only [clipCorners, Rect.pixels, hl, ht, hr, hb, screen, Set.mem_inter_iff,
    Set.mem_ofPred_eq]
  omega

/-- **What `rect_fill` does to the screen.** -/
theorem rectFill_painted (width height : UInt16) (rect : Rect) (col : UInt32) (vga : Vga) :
    Painted (pixelOffset width) (rect.pixels ∩ screen width height)
      (fun p => some (shade col (vga.pixels (pixelOffset width p)))) vga.pixels
      (rectFill width height rect col vga).pixels := by
  have hscan : { p | p ∈ (clipCorners width height rect).scan } =
      rect.pixels ∩ screen width height := by
    rw [← pixels_clipCorners]
    exact Set.ext fun p => Rect.mem_scan
  rw [rectFill_eq, ← hscan]
  have hscreen : ∀ p ∈ (clipCorners width height rect).scan, p ∈ screen width height :=
    fun p hp => (hscan.subset hp).2
  exact Painted.foldl (Rect.nodup_scan _) pixelOffset_injOn hscreen (shade col) vga.pixels

/-- No pixel beyond the screen is read or written. -/
theorem rectFill_touched {p : Int × Int} (hp : p ∈ (rectFill width height rect col vga).touched) :
    p ∈ vga.touched ∨ p ∈ rect.pixels ∩ screen width height := by
  rw [← pixels_clipCorners]
  rw [rectFill] at hp
  split at hp
  · refine forPixels_touched (fun q vga hq => ?_) hp
    simpa [Vga.getPixel, Vga.setPixel] using hq
  · exact forPixels_touched (fun q vga hq => List.mem_cons.mp hq) hp

/-! ## Colours of 15 bits -/

/-- All colours on the screen have 15 bits. -/
def Coloured (width height : UInt16) (vga : Vga) : Prop :=
  ∀ p ∈ screen width height, vga.pixels (pixelOffset width p) < 0x8000

/-- The factor has three bits. -/
theorem exists_factor (col : UInt32) : ∃ k < 8, getAlpha col >>> 16 = UInt32.ofNat k := by
  refine ⟨(getAlpha col >>> 16).toNat, ?_, UInt32.ofNat_toNat.symm⟩
  have hand : col.toNat &&& (0x00070000 : UInt32).toNat ≤ 0x00070000 := Nat.and_le_right
  rw [UInt32.toNat_shiftRight, getAlpha, UInt32.toNat_and, Nat.shiftRight_eq_div_pow]
  apply Nat.div_lt_of_lt_mul
  exact Nat.lt_of_le_of_lt hand (by decide)

theorem shade_lt {c : UInt16} (hcol : col.toUInt16 < 0x8000) (hc : c < 0x8000) :
    shade col c < 0x8000 := by
  rw [shade]
  split
  · obtain ⟨k, hk, hfactor⟩ := exists_factor col
    rw [hfactor]
    exact fastBlendFactor_lt hc hcol hk
  · exact hcol

theorem rectFill_coloured (hcol : col.toUInt16 < 0x8000) (hvga : Coloured width height vga) :
    Coloured width height (rectFill width height rect col vga) := by
  intro p hp
  have hpainted := rectFill_painted width height rect col vga
  by_cases hrect : p ∈ rect.pixels
  · rw [hpainted.inside p ⟨hrect, hp⟩]
    exact shade_lt hcol (hvga p hp)
  · rw [hpainted.outside]
    · exact hvga p hp
    · intro q hq heq
      exact hrect (pixelOffset_injOn hq.2 hp heq ▸ hq.1)

/-- Filling one rectangle after the other. -/
def rectFills (width height : UInt16) (fills : List (Rect × UInt32)) (vga : Vga) : Vga :=
  fills.foldl (fun vga fill => rectFill width height fill.1 fill.2 vga) vga

theorem rectFills_coloured {fills : List (Rect × UInt32)}
    (hfills : ∀ fill ∈ fills, fill.2.toUInt16 < 0x8000) (hvga : Coloured width height vga) :
    Coloured width height (rectFills width height fills vga) := by
  induction fills generalizing vga with
  | nil => exact hvga
  | cons fill fills ih =>
    rw [List.forall_mem_cons] at hfills
    exact ih hfills.2 (rectFill_coloured hfills.1 hvga)

/-- **Up to an alpha of 5, windows blend channel by channel**, whatever has been drawn before. -/
theorem rectFills_blended {fills : List (Rect × UInt32)} {k : Nat}
    (hfills : ∀ fill ∈ fills, fill.2.toUInt16 < 0x8000) (hvga : Coloured width height vga)
    (hcol : col.toUInt16 < 0x8000) (halpha : getAlpha col ≠ 0)
    (hfactor : getAlpha col >>> 16 = UInt32.ofNat k) (hk : k < 6) (rect : Rect) :
    ∀ p ∈ rect.pixels ∩ screen width height,
      Blended k ((rectFills width height fills vga).pixels (pixelOffset width p)) col.toUInt16
        ((rectFills width height (fills ++ [(rect, col)]) vga).pixels (pixelOffset width p)) := by
  intro p hp
  have hcoloured := rectFills_coloured hfills hvga
  have hlast : rectFills width height (fills ++ [(rect, col)]) vga =
      rectFill width height rect col (rectFills width height fills vga) :=
    List.foldl_concat _ _ _ _
  rw [hlast, (rectFill_painted width height rect col _).inside p hp, Option.getD_some, shade,
    if_pos halpha, hfactor]
  exact fastBlendFactor_blended (hcoloured p hp.2) hcol hk

end

end Shipwreck.Gui
