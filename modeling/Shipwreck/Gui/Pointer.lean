import Shipwreck.Gui.Paint
import Shipwreck.Input.Mouse

/-!
# The mouse pointer

`get_pixels` and `put_pixels` of `vga.cpp`, and what `DisplayWorker::run` does with them: the pixels
under the pointer are saved, the pointer is drawn over them, and before anything else is drawn they
are put back.

    background <- screen       get_pixels
    image      -> screen       put_pixels
    background -> screen       put_pixels, later

The value 1 is transparent for `put_pixels`. It is so in the saved background as well, and a pixel
of this colour is not put back. Neither function clips: near the right and the bottom edge of the
screen the square of the pointer reaches beyond it, into the rows below and past the frame buffer.
-/

namespace Shipwreck.Gui

/-- The pixels `(*buf)[x][y]` of an image. -/
abbrev Image := Nat × Nat → UInt16

/-- The frame buffer, addressed by the offset of a pixel, and the pixels that have been read or
written, the last one first. -/
structure Vga where
  pixels : UInt32 → UInt16
  touched : List (Int × Int)

/-- `struct MousePointer`. -/
structure MousePointer where
  bgX : Int
  bgY : Int
  image : Image
  background : Image

/-- `POINTER_WIDTH`. -/
def pointerWidth : Nat := 16

/-- `POINTER_HEIGHT`. -/
def pointerHeight : Nat := 16

section

variable (width : UInt16)

/-- `GET_PIXEL`. -/
def Vga.getPixel (vga : Vga) (p : Int × Int) : UInt16 × Vga :=
  (vga.pixels (pixelOffset width p), { vga with touched := p :: vga.touched })

/-- `SET_PIXEL`. -/
def Vga.setPixel (vga : Vga) (p : Int × Int) (c : UInt16) : Vga where
  pixels := Function.update vga.pixels (pixelOffset width p) c
  touched := p :: vga.touched

variable (startX startY : Int)

/-- `x+start_x, y+start_y` -/
def place (i : Nat × Nat) : Int × Int := (i.1 + startX, i.2 + startY)

/-- `get_pixels`. -/
def getPixels (w h : Nat) (dst : Image) (vga : Vga) : Image × Vga :=
  sweep (fun i s =>
    let (c, vga) := s.2.getPixel width (place startX startY i)
    (Function.update s.1 i c, vga)) w h (dst, vga)

/-- `put_pixels`. -/
def putPixels (w h : Nat) (src : Image) (vga : Vga) : Vga :=
  sweep (fun i vga =>
    if src i ≠ 1 then vga.setPixel width (place startX startY i) (src i) else vga) w h vga

/-- The last statements of `DisplayWorker::run`, with the mouse at `(x, y)`. -/
def showPointer (x y : Int) (ptr : MousePointer) (vga : Vga) : MousePointer × Vga :=
  let (background, vga) := getPixels width x y pointerWidth pointerHeight ptr.background vga
  let ptr := { ptr with background := background, bgX := x, bgY := y }
  (ptr, putPixels width x y pointerWidth pointerHeight ptr.image vga)

/-- The first `put_pixels` of `DisplayWorker::run`. -/
def hidePointer (ptr : MousePointer) (vga : Vga) : Vga :=
  putPixels width ptr.bgX ptr.bgY pointerWidth pointerHeight ptr.background vga

/-- The pointer is shown, and hidden again the next time. -/
def flashPointer (x y : Int) (ptr : MousePointer) (vga : Vga) : Vga :=
  let (ptr, vga) := showPointer width x y ptr vga
  hidePointer width ptr vga

end

/-! ## What the loops do -/

/-- What `put_pixels` stores for a pixel of the image. -/
def Image.opaquePixel (src : Image) (i : Nat × Nat) : Option UInt16 :=
  if src i = 1 then none else some (src i)

section

variable {width height : UInt16} {x y : Int} {w h : Nat} {vga : Vga}

/-- The cells of a square on the screen are different ones. -/
theorem place_injOn (hsquare : ∀ i ∈ swept w h, place x y i ∈ screen width height) :
    (swept w h).InjOn fun i => pixelOffset width (place x y i) := by
  intro i hi j hj heq
  have hplace : place x y i = place x y j :=
    pixelOffset_injOn (hsquare i hi) (hsquare j hj) heq
  simp only [place, Prod.mk.injEq] at hplace
  apply Prod.ext <;> omega

/-- **`get_pixels` copies the pixels** and changes nothing on the screen. -/
theorem getPixels_spec (width : UInt16) (x y : Int) (w h : Nat) (dst : Image) (vga : Vga) :
    (∀ i ∈ swept w h, (getPixels width x y w h dst vga).1 i =
      vga.pixels (pixelOffset width (place x y i))) ∧
    (getPixels width x y w h dst vga).2.pixels = vga.pixels ∧
    ∀ p, p ∈ (getPixels width x y w h dst vga).2.touched ↔
      p ∈ vga.touched ∨ ∃ i ∈ swept w h, place x y i = p := by
  unfold getPixels
  refine sweep_rule (P := fun S (s : Image × Vga) =>
    (∀ i ∈ S, s.1 i = vga.pixels (pixelOffset width (place x y i))) ∧ s.2.pixels = vga.pixels ∧
      ∀ p, p ∈ s.2.touched ↔ p ∈ vga.touched ∨ ∃ i ∈ S, place x y i = p) ?_ ?_
  · rintro i - S - s ⟨hcopied, hpixels, htouched⟩
    refine ⟨?_, hpixels, ?_⟩
    · intro j hj
      simp only [Vga.getPixel]
      rcases eq_or_ne j i with rfl | hji
      · rw [Function.update_self, hpixels]
      · rw [Function.update_of_ne hji]
        exact hcopied j (Set.mem_of_mem_insert_of_ne hj hji)
    · intro p
      simp only [Vga.getPixel, List.mem_cons, htouched, Set.exists_mem_insert]
      tauto
  · refine ⟨fun i hi => absurd hi (Set.notMem_empty i), rfl, ?_⟩
    simp

/-- **`put_pixels` draws the opaque pixels of the image.** -/
theorem putPixels_painted (src : Image) (vga : Vga)
    (hsquare : ∀ i ∈ swept w h, place x y i ∈ screen width height) :
    Painted (fun i => pixelOffset width (place x y i)) (swept w h) src.opaquePixel vga.pixels
      (putPixels width x y w h src vga).pixels := by
  unfold putPixels
  refine sweep_rule (P := fun S (s : Vga) => Painted (fun i => pixelOffset width (place x y i)) S
    src.opaquePixel vga.pixels s.pixels) ?_ ?_
  · intro i hi S hS s hpainted
    have hnext := hpainted.insert (place_injOn hsquare) hi hS
    by_cases h1 : src i = 1
    · rw [if_neg (not_not_intro h1)]
      rw [Image.opaquePixel, if_pos h1] at hnext
      exact hnext
    · rw [if_pos h1]
      rw [Image.opaquePixel, if_neg h1] at hnext
      exact hnext
  · exact Painted.refl fun i hi => absurd hi (Set.notMem_empty i)

/-- `put_pixels` touches no other pixels than those of its square. -/
theorem putPixels_touched (width : UInt16) (x y : Int) (w h : Nat) (src : Image) (vga : Vga) :
    (∀ p ∈ vga.touched, p ∈ (putPixels width x y w h src vga).touched) ∧
    ∀ p ∈ (putPixels width x y w h src vga).touched,
      p ∈ vga.touched ∨ ∃ i ∈ swept w h, place x y i = p := by
  unfold putPixels
  refine sweep_rule (P := fun S (s : Vga) => (∀ p ∈ vga.touched, p ∈ s.touched) ∧
    ∀ p ∈ s.touched, p ∈ vga.touched ∨ ∃ i ∈ S, place x y i = p) ?_ ?_
  · rintro i - S - s ⟨hkeep, htouched⟩
    simp only [Set.exists_mem_insert]
    split
    · refine ⟨fun p hp => List.mem_cons_of_mem _ (hkeep p hp), ?_⟩
      intro p hp
      rcases List.mem_cons.mp hp with rfl | hp
      · exact Or.inr (Or.inl rfl)
      · exact (htouched p hp).imp_right Or.inr
    · exact ⟨hkeep, fun p hp => (htouched p hp).imp_right Or.inr⟩
  · exact ⟨fun p hp => hp, fun p hp => Or.inl hp⟩

/-! ## The pointer -/

/-- The pixels that one appearance of the pointer touches. -/
theorem mem_touched_flash (ptr : MousePointer) (hnone : vga.touched = []) (p : Int × Int) :
    p ∈ (flashPointer width x y ptr vga).touched ↔
      ∃ i ∈ swept pointerWidth pointerHeight, place x y i = p := by
  obtain ⟨-, -, hget⟩ :=
    getPixels_spec width x y pointerWidth pointerHeight ptr.background vga
  rw [hnone] at hget
  unfold flashPointer showPointer hidePointer
  generalize getPixels width x y pointerWidth pointerHeight ptr.background vga = got at hget
  obtain ⟨hkeep, hput⟩ :=
    putPixels_touched width x y pointerWidth pointerHeight ptr.image got.2
  obtain ⟨hkeep', hput'⟩ := putPixels_touched width x y pointerWidth pointerHeight got.1
    (putPixels width x y pointerWidth pointerHeight ptr.image got.2)
  constructor
  · intro hp
    rcases hput' p hp with hp | hp
    · rcases hput p hp with hp | hp
      · exact ((hget p).mp hp).resolve_left List.not_mem_nil
      · exact hp
    · exact hp
  · intro hp
    exact hkeep' p (hkeep p ((hget p).mpr (Or.inr hp)))

/-- What one appearance of the pointer leaves in a cell of its square: a background of the
transparent colour does not come back. -/
theorem flash_inside (ptr : MousePointer) (vga : Vga)
    (hsquare : ∀ i ∈ swept pointerWidth pointerHeight, place x y i ∈ screen width height) :
    (∀ i ∈ swept pointerWidth pointerHeight,
      (flashPointer width x y ptr vga).pixels (pixelOffset width (place x y i)) =
        if vga.pixels (pixelOffset width (place x y i)) = 1 then ptr.image i
        else vga.pixels (pixelOffset width (place x y i))) ∧
    ∀ k, (∀ i ∈ swept pointerWidth pointerHeight, pixelOffset width (place x y i) ≠ k) →
      (flashPointer width x y ptr vga).pixels k = vga.pixels k := by
  obtain ⟨hget, hsame, -⟩ :=
    getPixels_spec width x y pointerWidth pointerHeight ptr.background vga
  unfold flashPointer showPointer hidePointer
  generalize getPixels width x y pointerWidth pointerHeight ptr.background vga = got at hget hsame
  have himage := putPixels_painted ptr.image got.2 hsquare
  have hback := putPixels_painted got.1
    (putPixels width x y pointerWidth pointerHeight ptr.image got.2) hsquare
  -- the image is drawn over the pixels that `background` was taken from
  rw [hsame] at himage
  constructor
  · intro i hi
    refine (hback.inside i hi).trans ?_
    rw [Image.opaquePixel, hget i hi]
    split
    case isTrue hone =>
      rw [Option.getD_none, himage.inside i hi, Image.opaquePixel]
      split
      case isTrue hclear => rw [Option.getD_none, hone, hclear]
      case isFalse => rfl
    case isFalse => rfl
  · intro k hk
    exact (hback.outside k hk).trans (himage.outside k hk)

/-- **The pointer comes and goes.** On the screen it leaves everything as it was if and only if it
is transparent wherever the screen has the transparent colour; and where the mouse can be, it stays
on the screen if and only if its square does. -/
theorem pointer_leaves_screen_iff (width height : UInt16) (vga : Vga) (ptr : MousePointer) :
    (∀ x y, (∀ i ∈ swept pointerWidth pointerHeight, place x y i ∈ screen width height) →
      ((flashPointer width x y ptr vga).pixels = vga.pixels ↔
        ∀ i ∈ swept pointerWidth pointerHeight,
          vga.pixels (pixelOffset width (place x y i)) = 1 → ptr.image i = 1)) ∧
    (vga.touched = [] → ∀ s, (Input.ps2 width.toNat height.toNat).Reachable s →
      ((∀ p ∈ (flashPointer width s.driver.mouse.x s.driver.mouse.y ptr vga).touched,
          p ∈ screen width height) ↔
        s.driver.mouse.x + pointerWidth ≤ width.toNat ∧
          s.driver.mouse.y + pointerHeight ≤ height.toNat)) := by
  constructor
  · intro x y hsquare
    obtain ⟨hinside, houtside⟩ := flash_inside ptr vga hsquare
    constructor
    · intro hsame i hi hone
      have hi' := hinside i hi
      rw [hsame, if_pos hone, hone] at hi'
      exact hi'.symm
    · intro hclear
      funext k
      by_cases hk : ∃ i ∈ swept pointerWidth pointerHeight, pixelOffset width (place x y i) = k
      · obtain ⟨i, hi, rfl⟩ := hk
        rw [hinside i hi]
        split
        case isTrue hone => rw [hone, hclear i hi hone]
        case isFalse => rfl
      · exact houtside k fun i hi heq => hk ⟨i, hi, heq⟩
  · intro hnone s hs
    obtain ⟨hx0, hx, hy0, hy⟩ := Input.mouse_onScreen hs
    simp only [mem_touched_flash ptr hnone]
    constructor
    · intro hall
      -- the last pixel of the square decides
      have hlast := hall _ ⟨(15, 15), ⟨by decide, by decide⟩, rfl⟩
      obtain ⟨-, hright, -, hbottom⟩ := hlast
      simp only [place, pointerWidth, pointerHeight] at hright hbottom ⊢
      omega
    · rintro ⟨hright, hbottom⟩ p ⟨i, ⟨hi1, hi2⟩, rfl⟩
      simp only [pointerWidth, pointerHeight] at hi1 hi2 hright hbottom
      refine ⟨?_, ?_, ?_, ?_⟩ <;> simp only [place] <;> omega

end

/-- A black pointer. -/
def blackPointer : MousePointer := ⟨200, 150, fun _ => 0, fun _ => 0⟩

/-- A screen in one colour. -/
def plainScreen (c : UInt16) : Vga := ⟨fun _ => c, []⟩

/-- On a white screen nothing is left of it, and where the mouse begins it stays on the screen. -/
theorem pointer_leaves_screen_iff_white :
    (flashPointer 800 200 150 blackPointer (plainScreen 0x7FFF)).pixels =
        (plainScreen 0x7FFF).pixels ∧
      ∀ p ∈ (flashPointer 800 200 150 blackPointer (plainScreen 0x7FFF)).touched,
        p ∈ screen 800 600 := by
  have hboth := pointer_leaves_screen_iff 800 600 (plainScreen 0x7FFF) blackPointer
  constructor
  · refine (hboth.1 200 150 ?_).mpr ?_
    · rintro i ⟨hi1, hi2⟩
      simp only [pointerWidth, pointerHeight] at hi1 hi2
      refine ⟨?_, ?_, ?_, ?_⟩ <;> simp only [place, UInt16.reduceToNat] <;> omega
    · intro i _ hone
      cases hone
  · refine (hboth.2 rfl ⟨Input.Driver.start 200 150, []⟩ ?_).mpr ⟨by decide, by decide⟩
    exact ⟨_, [], ⟨by simp [Input.OnScreen, Input.Driver.start], rfl, rfl⟩, rfl⟩

/-- The mouse is moved to the right three times. -/
def movesRight : List Input.MouseOp :=
  (List.replicate 3 [0x08, 0xFF, 0]).flatten.map fun data => .byte data 0

/-- A screen of the colour 1 keeps a black square where the pointer was, and at the right edge the
pointer is drawn beyond the screen. -/
theorem flashPointer_trace :
    ((∀ i ∈ swept pointerWidth pointerHeight, place 100 100 i ∈ screen 800 600) ∧
      (flashPointer 800 100 100 blackPointer (plainScreen 1)).pixels ≠ (plainScreen 1).pixels) ∧
    ∃ s, (Input.ps2 800 600).Reachable s ∧ s.driver.mouse.x = 799 ∧ s.driver.mouse.y = 150 ∧
      ∃ p ∈ (flashPointer 800 799 150 blackPointer (plainScreen 1)).touched, p ∉ screen 800 600 := by
  have hsquare : ∀ i ∈ swept pointerWidth pointerHeight, place 100 100 i ∈ screen 800 600 := by
    rintro i ⟨hi1, hi2⟩
    simp only [pointerWidth, pointerHeight] at hi1 hi2
    refine ⟨?_, ?_, ?_, ?_⟩ <;> simp only [place, UInt16.reduceToNat] <;> omega
  refine ⟨⟨hsquare, ?_⟩, ?_⟩
  · intro hsame
    have hcorner := (flash_inside blackPointer (plainScreen 1) hsquare).1 (0, 0)
      ⟨by decide, by decide⟩
    rw [hsame] at hcorner
    cases hcorner
  · have hstart : (Input.ps2 800 600).init ⟨Input.Driver.start 200 150, []⟩ :=
      ⟨by simp [Input.OnScreen, Input.Driver.start], rfl, rfl⟩
    refine ⟨_, ⟨_, movesRight, hstart, rfl⟩, rfl, rfl, (814, 150), ?_, ?_⟩
    · exact (mem_touched_flash _ rfl _).mpr ⟨(15, 0), ⟨by decide, by decide⟩, rfl⟩
    · rintro ⟨-, hx, -⟩
      exact absurd hx (by decide)

end Shipwreck.Gui
