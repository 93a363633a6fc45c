import Shipwreck.Gui.Glyphs

/-!
# The windows in colours

`gui_redraw_rect` once more, with all that the `draw` functions of `gui.cpp` store: the numbers in `pick_buffer`
and the colours in the frame buffer. A plain window fills its part of the clip; a text box darkens what is below
it and draws its characters; the desktop copies its image.

      transparent window      shade
    ------------------------
         its siblings            -      not seen through it
    ------------------------
     below the top-level window         drawn first

What a window makes of a pixel depends on what was there before, and on what the windows below its top-level
window make of it. `Forest.composite` computes this for one pixel, window by window;
`Forest.Linked.redraw_composes` says that the recursion over rectangles comes to the same. It is never deeper than
the number of windows.
-/

namespace Shipwreck.Gui

/-! ## Drawing -/

/-- `pick_buffer` and the frame buffer. -/
structure Screen where
  pick : PickBuffer
  vga : Vga

/-- What is drawn from, beside `win_index`: the addresses of the windows, the character map, and the desktop
images and text buffers at the addresses that `display_data` holds. -/
structure Sources where
  addr : Gid → UInt32
  asciiMap : Int → UInt8
  images : UInt32 → UInt32 → UInt16
  buffers : UInt32 → TextBox.Buffer

/-- `SET_ALPHA(1) + fast_blend(BLACK, fast_blend(BLACK, GREEN))` -/
def textBoxColor : UInt32 := 0x10000 + (fastBlend 0 (fastBlend 0 green)).toUInt32

/-- `windata.color` -/
def GUIWindow.color (src : Sources) (gw : GUIWindow) : UInt32 :=
  match gw.windata.displayData with
  | .bits word => word
  | .window w => src.addr w

namespace Screen

section

variable (width height : UInt16) (src : Sources) (win : Gid → GUIWindow)

/-- `if (c) act;` -/
def onlyIf (c : Prop) [Decidable c] (act : Screen → Option Screen) (s : Screen) : Option Screen :=
  if c then act s else some s

/-- `update_pick_buf` -/
def updatePickBuf (clip : Rect) (gw : GUIWindow) (s : Screen) : Screen :=
  { s with pick := Gui.updatePickBuf width clip gw s.pick }

/-- `rect_fill` -/
def rectFill (clip : Rect) (col : UInt32) (s : Screen) : Screen :=
  { s with vga := Gui.rectFill width height clip col s.vga }

/-- `GUITextBox::draw` from `buf` on; `none` if the buffer cannot be read. -/
def drawText (clip : Rect) (gw : GUIWindow) (s : Screen) : Option Screen :=
  match gw.windata.displayData with
  | .bits word =>
    if word = 0 then some s
    else do
      let glyphs ← (src.buffers word).draw gw.windata.rect clip
      return { s with vga := renderGlyphs width src.asciiMap clip glyphs s.vga }
  | .window _ => none

/-- The loops of `GUIDesktop::draw`. -/
def drawImage (clip : Rect) (gw : GUIWindow) (s : Screen) : Option Screen :=
  match gw.windata.displayData with
  | .bits word => some { s with
      vga := forPixels clip (fun p vga => vga.setPixel width p (src.images word (pixelOffset width p))) s.vga }
  | .window _ => none

/-- `GUIWindow::draw` and the functions that override it. -/
def draw (redraw : Rect → Option Gid → Screen → Option Screen) (w : Gid) (clip : Rect) (s : Screen) :
    Option Screen :=
  match (win w).kind with
  | .window => do
    let below := (win w).wmRoot.bind fun root => (win root).next
    let s ← onlyIf (getAlpha ((win w).color src) ≠ 0 ∧ below ≠ none) (redraw clip below) s
    return updatePickBuf width clip (win w) (rectFill width height clip ((win w).color src) s)
  | .frame => do
    let top ← (win w).children
    redraw clip top s
  | .textBox => do
    let root ← (win w).wmRoot
    let s ← redraw clip (win root).next s
    drawText width src clip (win w)
      (rectFill width height clip textBoxColor (updatePickBuf width clip (win w) s))
  | .desktop => drawImage width src clip (win w) (updatePickBuf width clip (win w) s)

/-- The rest of `gui_redraw_rect`, for the window `node` that the loop found. -/
def redrawAround (redraw : Rect → Option Gid → Screen → Option Screen) (node : Gid) (subRect clip : Rect)
    (s : Screen) : Option Screen := do
  let next := (win node).next
  let s ← onlyIf (subRect.t > clip.t) (redraw (clip.above subRect) next) s
  let s ← onlyIf (subRect.l > clip.l) (redraw (clip.leftOf subRect) next) s
  let s ← draw width height src win redraw node subRect s
  let s ← onlyIf (subRect.r < clip.r) (redraw (clip.rightOf subRect) next) s
  onlyIf (subRect.b < clip.b) (redraw (clip.below subRect) next) s

/-- `gui_redraw_rect`, with the loop looking at `n` windows and with `redraw` for its own calls. -/
def redrawFrom (redraw : Rect → Option Gid → Screen → Option Screen) (n : Nat) (clip : Rect)
    (top : Option Gid) (s : Screen) : Option Screen :=
  match firstMeeting win n top clip with
  | (none, _) => some s
  | (some node, subRect) => redrawAround width height src win redraw node subRect clip s

/-- `gui_redraw_rect` -/
def guiRedrawRect : Nat → Rect → Option Gid → Screen → Option Screen
  | 0, _, _, _ => none
  | fuel + 1, clip, top, s => redrawFrom width height src win (guiRedrawRect fuel) 256 clip top s

end

end Screen

/-! ## The picture -/

/-- A pixel: the number of the window it belongs to, and its colour. -/
abbrev Pixel := UInt8 × UInt16

/-- What drawing does to each pixel. -/
abbrev Layer := Int × Int → Pixel → Pixel

def Screen.view (s : Screen) (k : UInt32) : Pixel := (s.pick k, s.vga.pixels k)

/-- What a window that is no frame makes of a pixel; `under` is what is done before. -/
def GUIWindow.layer (width : UInt16) (src : Sources) (gw : GUIWindow) (under : Layer) : Layer := fun p px =>
  (gw.gid,
    match gw.kind with
    | .window => shade (gw.color src) (under p px).2
    | .textBox =>
      if gw.color src ≠ 0 ∧ (src.buffers (gw.color src)).Inked src.asciiMap gw.windata.rect p then green
      else shade textBoxColor (under p px).2
    | .desktop => src.images (gw.color src) (pixelOffset width p)
    | .frame => px.2)

/-- What the windows of a stack make of a pixel. `under` is what is done below the top-level window that contains
the stack, if there is one. -/
def Forest.composite (width : UInt16) (src : Sources) (win : Gid → GUIWindow) : Option Layer → Forest → Layer
  | _, nil => fun _ px => px
  | under, leaf w rest => fun p px =>
    if p ∈ (win w).windata.rect.pixels then
      (win w).layer width src (under.getD (composite width src win none rest)) p px
    else composite width src win under rest p px
  | under, frame w children rest => fun p px =>
    if p ∈ (win w).windata.rect.pixels then
      composite width src win (some (under.getD (composite width src win none rest))) children p px
    else composite width src win under rest p px

section

variable {width : UInt16} {src : Sources} {win : Gid → GUIWindow} {under : Option Layer} {w : Gid}
  {children rest : Forest} {p : Int × Int} {px : Pixel}

/-- A text box between its characters. -/
theorem GUIWindow.layer_textBox {gw : GUIWindow} {under : Layer} (hkind : gw.kind = .textBox)
    (hclear : ¬ (src.buffers (gw.color src)).Inked src.asciiMap gw.windata.rect p) :
    gw.layer width src under p px = (gw.gid, shade textBoxColor (under p px).2) := by
  simp only [layer, hkind, hclear, and_false, if_false]

theorem Forest.composite_leaf (hp : p ∈ (win w).windata.rect.pixels) :
    (leaf w rest).composite width src win under p px =
      (win w).layer width src (under.getD (rest.composite width src win none)) p px :=
  if_pos hp

theorem Forest.composite_frame (hp : p ∈ (win w).windata.rect.pixels) :
    (frame w children rest).composite width src win under p px =
      children.composite width src win (some (under.getD (rest.composite width src win none))) p px :=
  if_pos hp

end

/-- All windows of a forest. -/
def Forest.windows : Forest → List Gid
  | nil => []
  | leaf w rest => w :: windows rest
  | frame w children rest => w :: (windows children ++ windows rest)

/-- A window can be drawn: its text is legible, its image is there. -/
def GUIWindow.Ready (src : Sources) (gw : GUIWindow) : Prop :=
  match gw.kind with
  | .textBox => ∃ word, gw.windata.displayData = .bits word ∧
    (word ≠ 0 → (src.buffers word).Legible gw.windata.rect)
  | .desktop => ∃ word, gw.windata.displayData = .bits word
  | .window | .frame => True

/-! ## One window and the strips around it -/

/-- What an action did to the screen. -/
abbrev Screen.Drawn (width : UInt16) : Set (Int × Int) → Layer → Screen → Screen → Prop :=
  DrawnOn Screen.view (fun s => s.vga.touched) (pixelOffset width)

namespace Rect

/-- A rectangle on the screen, with its edges in order. -/
structure OnScreen (width height : UInt16) (rect : Rect) : Prop where
  inside : rect.Inside width height
  ordered : rect.Ordered

section

variable {width height : UInt16} {rect clip sub : Rect} {p : Int × Int}

theorem OnScreen.subset (h : clip.OnScreen width height) : clip.pixels ⊆ screen width height :=
  h.inside.subset

theorem OnScreen.pieces (h : clip.OnScreen width height) (hmeet : rect.intersect clip = some sub) :
    (clip.above sub).OnScreen width height ∧ (clip.leftOf sub).OnScreen width height ∧
      sub.OnScreen width height ∧ (clip.rightOf sub).OnScreen width height ∧
      (clip.below sub).OnScreen width height := by
  obtain ⟨habove, hleft, hsub, hright, hbelow⟩ := h.inside.pieces hmeet
  obtain ⟨⟨hl, ht, hr, hb⟩, hlr, htb⟩ := intersect_eq_some hmeet
  obtain ⟨hclipX, hclipY⟩ := h.ordered
  rw [Int32.le_iff_toInt_le] at hclipX hclipY
  have hordered (r : Rect) (hx : r.l.toInt ≤ r.r.toInt) (hy : r.t.toInt ≤ r.b.toInt) : r.Ordered :=
    ⟨Int32.le_iff_toInt_le.mpr hx, Int32.le_iff_toInt_le.mpr hy⟩
  have htop : clip.t.toInt ≤ sub.t.toInt := by omega
  have hleftX : clip.l.toInt ≤ sub.l.toInt := by omega
  have hrightX : sub.r.toInt ≤ clip.r.toInt := by omega
  have hbottom : sub.b.toInt ≤ clip.b.toInt := by omega
  exact ⟨⟨habove, hordered _ hclipX htop⟩, ⟨hleft, hordered _ hleftX htb⟩, ⟨hsub, hordered _ hlr htb⟩,
    ⟨hright, hordered _ hrightX htb⟩, ⟨hbelow, hordered _ hclipX hbottom⟩⟩

/-- No pixel is in two of the strips. -/
theorem strips_apart (hmeet : rect.intersect clip = some sub) :
    (∀ p ∈ (clip.above sub).pixels, p ∉ (clip.leftOf sub).pixels) ∧
      (∀ p ∈ (clip.above sub).pixels ∪ (clip.leftOf sub).pixels, p ∉ sub.pixels) ∧
      (∀ p ∈ (clip.above sub).pixels ∪ (clip.leftOf sub).pixels ∪ sub.pixels,
        p ∉ (clip.rightOf sub).pixels) ∧
      ∀ p ∈ (clip.above sub).pixels ∪ (clip.leftOf sub).pixels ∪ sub.pixels ∪ (clip.rightOf sub).pixels,
        p ∉ (clip.below sub).pixels := by
  obtain ⟨⟨hl, ht, hr, hb⟩, hlr, htb⟩ := intersect_eq_some hmeet
  refine ⟨fun p => ?_, fun p => ?_, fun p => ?_, fun p => ?_⟩ <;>
  · simp only [pixels, above, leftOf, rightOf, below, Set.mem_union, Set.mem_ofPred_eq]
    omega

end

end Rect

namespace Screen

/-- `act` ends, and does `F` to the pixels of the clip. -/
def Draws (width height : UInt16) (act : Rect → Screen → Option Screen) (F : Layer) : Prop :=
  ∀ clip s, clip.OnScreen width height →
    ∃ s', act clip s = some s' ∧ Screen.Drawn width clip.pixels F s s'

section

variable {width height : UInt16} {src : Sources} {win : Gid → GUIWindow}
  {redraw : Rect → Option Gid → Screen → Option Screen} {F G : Layer} {node : Gid} {clip sub : Rect}

/-- A strip, which is left out where it would be empty. -/
theorem Draws.strip {act : Rect → Screen → Option Screen} (h : Draws width height act F) (strip : Rect)
    {c : Prop} [Decidable c] (hin : strip.OnScreen width height)
    (hpixels : ∀ p ∈ strip.pixels, c ∧ ∀ px, F p px = G p px) (s : Screen) :
    ∃ s', onlyIf c (act strip) s = some s' ∧ Screen.Drawn width strip.pixels G s s' := by
  unfold onlyIf
  by_cases hc : c
  · obtain ⟨s', hact, hdrawn⟩ := h strip s hin
    rw [if_pos hc]
    exact ⟨s', hact, hdrawn.congr fun p hp => (hpixels p hp).2⟩
  · rw [if_neg hc]
    exact ⟨s, rfl, DrawnOn.refl fun p hp => absurd (hpixels p hp).1 hc⟩

/-- The window that was found, and the four strips around it. -/
theorem redrawAround_draws (hnext : Draws width height (fun clip => redraw clip (win node).next) F)
    (hdraw : Draws width height (draw width height src win redraw node) G)
    (hclip : clip.OnScreen width height) (hmeet : (win node).windata.rect.intersect clip = some sub)
    (s : Screen) :
    ∃ s', redrawAround width height src win redraw node sub clip s = some s' ∧
      Screen.Drawn width clip.pixels
        (fun p px => if p ∈ (win node).windata.rect.pixels then G p px else F p px) s s' := by
  obtain ⟨habove, hleft, hsub, hright, hbelow⟩ := hclip.pieces hmeet
  obtain ⟨hdisjoint₁, hdisjoint₂, hdisjoint₃, hdisjoint₄⟩ := Rect.strips_apart hmeet
  let H : Layer := fun p px => if p ∈ (win node).windata.rect.pixels then G p px else F p px
  have houter (p : Int × Int) (hp : p ∉ (win node).windata.rect.pixels) : ∀ px, F p px = H p px :=
    fun px => (if_neg hp).symm
  have hinner (p : Int × Int) (hp : p ∈ sub.pixels) : ∀ px, G p px = H p px := by
    intro px
    have hin : p ∈ clip.pixels := (Rect.mem_clip_iff hmeet p).mpr (.inl (.inl (.inr hp)))
    exact (if_pos ((Rect.mem_sub_iff hmeet hin).mp hp)).symm
  obtain ⟨s₁, hact₁, hdrawn₁⟩ := hnext.strip (G := H) (clip.above sub) habove
    (fun p hp => (Rect.above_pixels hmeet hp).imp_right (houter p)) s
  obtain ⟨s₂, hact₂, hdrawn₂⟩ := hnext.strip (G := H) (clip.leftOf sub) hleft
    (fun p hp => (Rect.leftOf_pixels hmeet hp).imp_right (houter p)) s₁
  obtain ⟨s₃, hact₃, hdrawn₃⟩ := hdraw sub s₂ hsub
  obtain ⟨s₄, hact₄, hdrawn₄⟩ := hnext.strip (G := H) (clip.rightOf sub) hright
    (fun p hp => (Rect.rightOf_pixels hmeet hp).imp_right (houter p)) s₃
  obtain ⟨s₅, hact₅, hdrawn₅⟩ := hnext.strip (G := H) (clip.below sub) hbelow
    (fun p hp => (Rect.below_pixels hmeet hp).imp_right (houter p)) s₄
  refine ⟨s₅, ?_, ?_⟩
  · simp only [redrawAround, hact₁, hact₂, hact₃, hact₄, hact₅, Option.bind_eq_bind, Option.bind_some]
  · have hsub₂ := Set.union_subset habove.subset hleft.subset
    have hsub₃ := Set.union_subset hsub₂ hsub.subset
    have hsub₄ := Set.union_subset hsub₃ hright.subset
    have h₁₂ := hdrawn₁.pieces pixelOffset_injOn hsub₂ (fun p => Iff.rfl) hdisjoint₁ hdrawn₂
    have h₁₃ := h₁₂.pieces pixelOffset_injOn hsub₃ (fun p => Iff.rfl) hdisjoint₂ (hdrawn₃.congr hinner)
    have h₁₄ := h₁₃.pieces pixelOffset_injOn hsub₄ (fun p => Iff.rfl) hdisjoint₃ hdrawn₄
    exact h₁₄.pieces pixelOffset_injOn hclip.subset (Rect.mem_clip_iff hmeet) hdisjoint₄ hdrawn₅

/-! ## The `draw` functions -/

theorem updatePickBuf_drawn (hclip : clip.OnScreen width height) (gw : GUIWindow) (s : Screen) :
    Screen.Drawn width clip.pixels (fun _ px => (gw.gid, px.2)) s (updatePickBuf width clip gw s) where
  retouched :=
    (Retouched.of_painted (updatePickBuf_painted hclip.inside)).prod (.refl fun _ _ _ => rfl)
  touched _ hp := .inl hp

/-- An action on the frame buffer alone. -/
theorem Drawn.of_vga {S : Set (Int × Int)} {f : Int × Int → UInt16 → UInt16} {s : Screen} {vga : Vga}
    (h : Vga.Drawn width S f s.vga vga) :
    Screen.Drawn width S (fun p px => (px.1, f p px.2)) s { s with vga := vga } where
  retouched := (Retouched.refl fun _ _ _ => rfl).prod h.retouched
  touched := h.touched

theorem rectFill_drawn (hclip : clip.OnScreen width height) (col : UInt32) (s : Screen) :
    Screen.Drawn width clip.pixels (fun _ px => (px.1, shade col px.2)) s
      (rectFill width height clip col s) :=
  Drawn.of_vga (Gui.rectFill_drawn hclip.inside col s.vga)

theorem drawText_drawn {gw : GUIWindow} {word : UInt32} (hclip : clip.OnScreen width height)
    (hword : gw.windata.displayData = .bits word)
    (hlegible : word ≠ 0 → (src.buffers word).Legible gw.windata.rect) (s : Screen) :
    ∃ s', drawText width src clip gw s = some s' ∧ Screen.Drawn width clip.pixels (fun p px => (px.1,
      if word ≠ 0 ∧ (src.buffers word).Inked src.asciiMap gw.windata.rect p then green else px.2)) s s' := by
  unfold drawText
  rw [hword]
  by_cases hzero : word = 0
  · refine ⟨s, if_pos hzero, DrawnOn.refl fun p _ px => ?_⟩
    rw [if_neg fun h => h.1 hzero]
  · obtain ⟨glyphs, hdraw, hinked⟩ := (hlegible hzero).draw_inked hclip.inside hclip.ordered src.asciiMap
    refine ⟨{ s with vga := renderGlyphs width src.asciiMap clip glyphs s.vga }, ?_, ?_⟩
    · simp only [if_neg hzero, hdraw, Option.bind_eq_bind, Option.bind_some, Option.pure_def]
    · apply (Drawn.of_vga (renderGlyphs_drawn hclip.inside hclip.ordered glyphs s.vga)).congr
      intro p hp px
      simp only [hinked p hp, ne_eq, hzero, not_false_eq_true, true_and]

theorem drawImage_drawn {gw : GUIWindow} {word : UInt32} (hclip : clip.OnScreen width height)
    (hword : gw.windata.displayData = .bits word) (s : Screen) :
    ∃ s', drawImage width src clip gw s = some s' ∧ Screen.Drawn width clip.pixels
      (fun p px => (px.1, src.images word (pixelOffset width p))) s s' := by
  refine ⟨_, by rw [drawImage, hword],
    Drawn.of_vga (f := fun p _ => src.images word (pixelOffset width p)) ?_⟩
  have hscreen : ∀ q ∈ clip.scan, ({q} : Set (Int × Int)) ⊆ screen width height :=
    fun q hq => Set.singleton_subset_iff.mpr (hclip.subset (Rect.mem_scan.mp hq))
  have happart : clip.scan.Pairwise fun q q' => ∀ p ∈ ({q} : Set (Int × Int)), p ∉ ({q'} : Set _) :=
    (Rect.nodup_scan clip).imp fun hne p hp hp' => hne (hp.symm.trans hp')
  have hset : { p | ∃ q ∈ clip.scan, p ∈ ({q} : Set (Int × Int)) } = clip.pixels := by
    ext p
    rw [← Rect.mem_scan]
    exact exists_eq_right'
  have hact : ∀ q ∈ clip.scan, ∀ vga, Vga.Drawn width {q}
      (fun p _ => src.images word (pixelOffset width p)) vga
      (vga.setPixel width q (src.images word (pixelOffset width q))) := by
    intro q _ vga
    apply (Vga.setPixel_drawn width q _ vga).congr
    rintro p rfl b
    rfl
  rw [forPixels_eq, ← hset]
  exact DrawnOn.foldl pixelOffset_injOn hscreen happart hact s.vga

/-- A window that is no frame, and what is drawn below it before. -/
theorem draw_leaf {root : Gid} (hkind : (win node).kind ≠ .frame) (hroot : (win node).wmRoot = some root)
    (hready : (win node).Ready src)
    (hbelow : Draws width height (fun clip => redraw clip (win root).next) F)
    (hend : (win root).next = none → ∀ p px, F p px = px) :
    Draws width height (draw width height src win redraw node) ((win node).layer width src F) := by
  intro clip s hclip
  obtain ⟨s₁, hact, hdrawn⟩ := hbelow clip s hclip
  unfold draw GUIWindow.layer
  unfold GUIWindow.Ready at hready
  cases hk : (win node).kind with
  | frame => exact absurd hk hkind
  | window =>
    by_cases hshow : getAlpha ((win node).color src) ≠ 0 ∧ (win root).next ≠ none
    · refine ⟨_, ?_, (hdrawn.andThen (rectFill_drawn hclip ((win node).color src) s₁)).andThen
        (updatePickBuf_drawn hclip (win node) _)⟩
      simp only [hroot, Option.bind_some, onlyIf, if_pos hshow, hact, Option.bind_eq_bind, Option.pure_def]
    · refine ⟨_, ?_, ((rectFill_drawn hclip ((win node).color src) s).andThen
        (updatePickBuf_drawn hclip (win node) _)).congr ?_⟩
      · simp only [hroot, Option.bind_some, onlyIf, if_neg hshow, Option.bind_eq_bind, Option.pure_def]
      · intro p _ px
        by_cases halpha : getAlpha ((win node).color src) = 0
        · simp only [shade, halpha, ne_eq, not_true_eq_false, if_false]
        · have hnone : (win root).next = none := not_not.mp fun h => hshow ⟨halpha, h⟩
          rw [hend hnone]
  | textBox =>
    rw [hk] at hready
    obtain ⟨word, hword, hlegible⟩ := hready
    have hcolor : (win node).color src = word := by rw [GUIWindow.color, hword]
    obtain ⟨s₂, htext, hdrawn₂⟩ := drawText_drawn hclip hword hlegible
      (rectFill width height clip textBoxColor (updatePickBuf width clip (win node) s₁))
    refine ⟨s₂, ?_, ?_⟩
    · simp only [hroot, hact, htext, Option.bind_eq_bind, Option.bind_some]
    · refine (((hdrawn.andThen (updatePickBuf_drawn hclip (win node) s₁)).andThen
        (rectFill_drawn hclip textBoxColor _)).andThen hdrawn₂).congr ?_
      intro p _ px
      rw [hcolor]
  | desktop =>
    rw [hk] at hready
    obtain ⟨word, hword⟩ := hready
    have hcolor : (win node).color src = word := by rw [GUIWindow.color, hword]
    obtain ⟨s₂, himage, hdrawn₂⟩ := drawImage_drawn hclip hword (updatePickBuf width clip (win node) s)
    refine ⟨s₂, himage, ((updatePickBuf_drawn hclip (win node) s).andThen hdrawn₂).congr ?_⟩
    intro p _ px
    rw [hcolor]

theorem draw_frame {first : Option Gid} (hkind : (win node).kind = .frame)
    (hfirst : (win node).children = some first)
    (hchildren : Draws width height (fun clip => redraw clip first) F) :
    Draws width height (draw width height src win redraw node) F := by
  intro clip s hclip
  simp only [draw, hkind, hfirst, Option.bind_eq_bind, Option.bind_some]
  exact hchildren clip s hclip

/-- A window on top of a stack, when the loop starts with it. -/
theorem redrawFrom_cons {n : Nat} (hnext : Draws width height (fun clip => redraw clip (win node).next) F)
    (hdraw : Draws width height (draw width height src win redraw node) G)
    (hrest : Draws width height
      (fun clip => redrawFrom width height src win redraw n clip (win node).next) F) :
    Draws width height (fun clip => redrawFrom width height src win redraw (n + 1) clip (some node))
      fun p px => if p ∈ (win node).windata.rect.pixels then G p px else F p px := by
  intro clip s hclip
  cases hmeet : (win node).windata.rect.intersect clip with
  | some sub =>
    simp only [redrawFrom, firstMeeting, hmeet]
    exact redrawAround_draws hnext hdraw hclip hmeet s
  | none =>
    obtain ⟨s', hact, hdrawn⟩ := hrest clip s hclip
    refine ⟨s', ?_, hdrawn.congr ?_⟩
    · rw [← hact]
      simp only [redrawFrom, firstMeeting, hmeet]
    · intro p hp px
      rw [if_neg (Rect.intersect_eq_none hmeet hp)]

end

/-! ## The whole recursion -/

section

variable (width height : UInt16) (src : Sources) (win : Gid → GUIWindow)

/-- With fuel from `k` on, `gui_redraw_rect` does `F`. -/
def Shows (k : Nat) (top : Option Gid) (F : Layer) : Prop :=
  ∀ n, k ≤ n → Draws width height (fun clip => guiRedrawRect width height src win n clip top) F

/-- What is done below the top-level window `root`. -/
structure Beneath (k : Nat) (root : Gid) (F : Layer) : Prop where
  shows : Shows width height src win k (win root).next F
  empty : (win root).next = none → ∀ p px, F p px = px

end

section

variable {width height : UInt16} {src : Sources} {win : Gid → GUIWindow} {F : Layer} {k : Nat}
  {root top : Option Gid} {forest : Forest}

theorem Shows.mono {j : Nat} (h : Shows width height src win k top F) (hkj : k ≤ j) :
    Shows width height src win j top F :=
  fun n hn => h n (Nat.le_trans hkj hn)

theorem Beneath.mono {j : Nat} {r : Gid} (h : Beneath width height src win k r F) (hkj : k ≤ j) :
    Beneath width height src win j r F :=
  ⟨h.shows.mono hkj, h.empty⟩

/-- One more call. -/
theorem shows_of_redrawFrom (hk : 1 ≤ k)
    (h : ∀ n, k ≤ n + 1 → Draws width height
      (fun clip => redrawFrom width height src win (guiRedrawRect width height src win n) 256 clip top) F) :
    Shows width height src win k top F := by
  intro n hn
  obtain ⟨m, rfl⟩ : ∃ m, n = m + 1 := ⟨n - 1, by omega⟩
  exact h m hn

theorem composite_of_top_none (h : forest.Linked win root none) (under : Option Layer) :
    forest.composite width src win under = fun _ px => px := by
  cases forest with
  | nil => rfl
  | leaf w rest => cases h.1
  | frame w children rest => cases h.1

/-- What is below a window of a stack, or below the top-level window that contains it. -/
theorem beneath_getD {under : Option Layer} {w : Gid} {rest : Forest} (hrest : rest.Linked win root (win w).next)
    (hshows : Shows width height src win (rest.windows.length + k) (win w).next
      (rest.composite width src win under))
    (hunder : ∀ r, root = some r → ∃ F, under = some F ∧ Beneath width height src win k r F)
    (hnone : root = none → under = none) :
    Beneath width height src win (rest.windows.length + k) (root.getD w)
      (under.getD (rest.composite width src win none)) := by
  cases root with
  | none =>
    obtain rfl := hnone rfl
    refine ⟨hshows, fun hend p px => ?_⟩
    rw [Option.getD_none] at hend ⊢
    rw [hend] at hrest
    rw [composite_of_top_none hrest]
  | some r =>
    obtain ⟨F, rfl, hF⟩ := hunder r rfl
    exact hF.mono (Nat.le_add_left _ _)

/-- **The recursion does to each pixel what the windows there do.** The fuel it takes is the number of windows,
and what the drawing below the top-level window takes. -/
theorem redrawFrom_composes (h : forest.Linked win root top)
    (hready : ∀ w ∈ forest.windows, (win w).Ready src) {under : Option Layer} (hk : 1 ≤ k)
    (hunder : ∀ r, root = some r → ∃ F, under = some F ∧ Beneath width height src win k r F)
    (hnone : root = none → under = none) {count : Nat} (hcount : forest.stack.length ≤ count) {n : Nat}
    (hn : forest.windows.length + k ≤ n + 1) :
    Draws width height
      (fun clip => redrawFrom width height src win (guiRedrawRect width height src win n) count clip top)
      (forest.composite width src win under) := by
  induction forest generalizing root top under k count n with
  | nil =>
    intro clip s _
    cases h
    refine ⟨s, ?_, DrawnOn.refl fun _ _ _ => rfl⟩
    cases count with
    | zero => rfl
    | succ count => rfl
  | leaf w rest ih =>
    obtain ⟨rfl, hkind, hroot, hrest⟩ := h
    obtain ⟨count, rfl⟩ := Nat.exists_eq_add_of_le' (Nat.le_of_add_left_le hcount)
    simp only [Forest.windows, List.forall_mem_cons, List.length_cons] at hready hn
    have hshows : Shows width height src win (rest.windows.length + k) (win w).next
        (rest.composite width src win under) :=
      shows_of_redrawFrom (by omega) fun m hm => ih hrest hready.2 hk hunder hnone hrest.stack_length hm
    have hbeneath := beneath_getD hrest hshows hunder hnone
    exact redrawFrom_cons (hshows n (by omega))
      (draw_leaf hkind hroot hready.1 (hbeneath.shows n (by omega)) hbeneath.empty)
      (ih hrest hready.2 hk hunder hnone (Nat.le_of_succ_le_succ hcount) (by omega))
  | frame w children rest ihc ihr =>
    obtain ⟨rfl, hkind, hroot, ⟨first, hfirst, hchildren⟩, hrest⟩ := h
    obtain ⟨count, rfl⟩ := Nat.exists_eq_add_of_le' (Nat.le_of_add_left_le hcount)
    simp only [Forest.windows, List.forall_mem_cons, List.length_cons, List.length_append,
      List.forall_mem_append] at hready hn
    have hshows : Shows width height src win (rest.windows.length + k) (win w).next
        (rest.composite width src win under) :=
      shows_of_redrawFrom (by omega) fun m hm =>
        ihr hrest hready.2.2 hk hunder hnone hrest.stack_length hm
    have hbeneath := beneath_getD hrest hshows hunder hnone
    -- below the children is what is below the top-level window that they are in
    have hinner : Shows width height src win (children.windows.length + (rest.windows.length + k)) first
        (children.composite width src win (some (under.getD (rest.composite width src win none)))) := by
      apply shows_of_redrawFrom (by omega)
      intro m hm
      refine ihc hchildren hready.2.1 (by omega) ?_ (fun hr => by cases hr) hchildren.stack_length hm
      rintro r hr
      cases hr
      exact ⟨_, rfl, hbeneath⟩
    exact redrawFrom_cons (hshows n (by omega)) (draw_frame hkind hfirst (hinner n (by omega)))
      (ihr hrest hready.2.2 hk hunder hnone (Nat.le_of_succ_le_succ hcount) (by omega))

/-- The same for a whole stack of top-level windows. -/
theorem guiRedrawRect_composes (h : forest.Linked win none top)
    (hready : ∀ w ∈ forest.windows, (win w).Ready src) :
    Shows width height src win (forest.windows.length + 1) top (forest.composite width src win none) :=
  shows_of_redrawFrom (by omega) fun _ hm =>
    redrawFrom_composes h hready (Nat.le_refl 1) (fun r hr => by cases hr) (fun _ => rfl) h.stack_length hm

end

/-! ## The numbers alone

Without the colours this is `gui_redraw_rect` as `Shipwreck.Gui.Paint` has it. -/

section

variable {width height : UInt16} {src : Sources} {win : Gid → GUIWindow} {node : Gid} {clip sub : Rect}
  {redraw : Rect → Option Gid → Screen → Option Screen}
  {redraw' : Rect → Option Gid → PickBuffer → Option PickBuffer} {s s' : Screen}

theorem pick_onlyIf {c c' : Prop} [Decidable c] [Decidable c'] (hc : c ↔ c') {act : Screen → Option Screen}
    {act' : PickBuffer → Option PickBuffer}
    (hact : ∀ s s', act s = some s' → act' s.pick = some s'.pick) (h : onlyIf c act s = some s') :
    Gui.onlyIf c' act' s.pick = some s'.pick := by
  unfold onlyIf at h
  unfold Gui.onlyIf
  by_cases hif : c
  · rw [if_pos hif] at h
    rw [if_pos (hc.mp hif)]
    exact hact s s' h
  · rw [if_neg hif] at h
    rw [if_neg (mt hc.mpr hif)]
    cases h
    rfl

theorem alpha_eq (src : Sources) (gw : GUIWindow) : gw.alpha src.addr = getAlpha (gw.color src) := rfl

theorem pick_drawText {gw : GUIWindow} (h : drawText width src clip gw s = some s') : s'.pick = s.pick := by
  unfold drawText at h
  split at h
  · split at h
    · cases h
      rfl
    · obtain ⟨glyphs, -, heq⟩ := Option.bind_eq_some_iff.mp h
      cases heq
      rfl
  · cases h

theorem pick_drawImage {gw : GUIWindow} (h : drawImage width src clip gw s = some s') : s'.pick = s.pick := by
  unfold drawImage at h
  split at h
  · cases h
    rfl
  · cases h

section

variable (hredraw : ∀ clip top s s', redraw clip top s = some s' → redraw' clip top s.pick = some s'.pick)
include hredraw

theorem pick_draw (h : draw width height src win redraw node clip s = some s') :
    Gui.draw width src.addr win redraw' node clip s.pick = some s'.pick := by
  unfold draw at h
  unfold Gui.draw
  cases hk : (win node).kind with
  | window =>
    simp only [hk] at h
    obtain ⟨s₁, hbelow, heq⟩ := Option.bind_eq_some_iff.mp h
    cases heq
    have hpick : Gui.onlyIf ((win node).alpha src.addr ≠ 0 ∧
        ((win node).wmRoot.bind fun root => (win root).next) ≠ none)
        (redraw' clip ((win node).wmRoot.bind fun root => (win root).next)) s.pick = some s₁.pick :=
      pick_onlyIf (by rw [alpha_eq]) (hredraw clip _) hbelow
    simp only [hpick, Option.bind_eq_bind, Option.bind_some]
    rfl
  | frame =>
    simp only [hk] at h
    obtain ⟨top, htop, hrest⟩ := Option.bind_eq_some_iff.mp h
    simp only [htop, Option.bind_eq_bind, Option.bind_some]
    exact hredraw clip top s s' hrest
  | textBox =>
    simp only [hk] at h
    obtain ⟨root, hroot, hrest⟩ := Option.bind_eq_some_iff.mp h
    obtain ⟨s₁, hbelow, htext⟩ := Option.bind_eq_some_iff.mp hrest
    simp only [hroot, hredraw _ _ _ _ hbelow, Option.bind_eq_bind, Option.bind_some]
    rw [pick_drawText htext]
    rfl
  | desktop =>
    simp only [hk] at h
    simp only
    rw [pick_drawImage h]
    rfl

theorem pick_redrawAround (h : redrawAround width height src win redraw node sub clip s = some s') :
    Gui.redrawAround width src.addr win redraw' node sub clip s.pick = some s'.pick := by
  unfold redrawAround at h
  unfold Gui.redrawAround
  obtain ⟨s₁, h₁, h⟩ := Option.bind_eq_some_iff.mp h
  obtain ⟨s₂, h₂, h⟩ := Option.bind_eq_some_iff.mp h
  obtain ⟨s₃, h₃, h⟩ := Option.bind_eq_some_iff.mp h
  obtain ⟨s₄, h₄, h⟩ := Option.bind_eq_some_iff.mp h
  simp only [pick_onlyIf Iff.rfl (hredraw _ _) h₁, pick_onlyIf Iff.rfl (hredraw _ _) h₂,
    pick_draw hredraw h₃, pick_onlyIf Iff.rfl (hredraw _ _) h₄, Option.bind_eq_bind, Option.bind_some]
  exact pick_onlyIf Iff.rfl (hredraw _ _) h

end

/-- **The numbers of the windows do not depend on the colours.** -/
theorem pick_guiRedrawRect {n : Nat} {top : Option Gid}
    (h : guiRedrawRect width height src win n clip top s = some s') :
    Gui.guiRedrawRect width src.addr win n clip top s.pick = some s'.pick := by
  induction n generalizing clip top s s' with
  | zero => cases h
  | succ n ih =>
    unfold guiRedrawRect redrawFrom at h
    split at h
    case h_1 hnone =>
      cases h
      rw [Gui.guiRedrawRect, Gui.redrawFrom, hnone]
    case h_2 hsome =>
      rw [Gui.guiRedrawRect, Gui.redrawFrom, hsome]
      exact pick_redrawAround (fun clip top s s' => ih) h

end

end Screen

/-- **What is drawn in colours.** For a well-formed forest of windows, each in it once, that can all be drawn,
`gui_redraw_rect` ends in at most 257 nested calls; each pixel of the clip becomes what the windows there make of
it, and nothing else is changed or touched. -/
theorem redraw_composes (width height : UInt16) (src : Sources) (mgr : WindowManager) (forest : Forest)
    (hforest : forest.Linked mgr.winIndex none mgr.winstack) (honce : forest.windows.Nodup)
    (hready : ∀ w ∈ forest.windows, (mgr.winIndex w).Ready src) (n : Nat) (hn : 257 ≤ n) (clip : Rect)
    (hclip : clip.OnScreen width height) (s : Screen) :
    ∃ s', Screen.guiRedrawRect width height src mgr.winIndex n clip mgr.winstack s = some s' ∧
      (∀ p ∈ clip.pixels, s'.view (pixelOffset width p) =
        forest.composite width src mgr.winIndex none p (s.view (pixelOffset width p))) ∧
      (∀ k, (∀ p ∈ clip.pixels, pixelOffset width p ≠ k) → s'.view k = s.view k) ∧
      ∀ p ∈ s'.vga.touched, p ∈ s.vga.touched ∨ p ∈ clip.pixels := by
  have hlength : forest.windows.length ≤ 256 := by simpa using honce.length_le_card
  obtain ⟨s', hact, hdrawn⟩ := Screen.guiRedrawRect_composes hforest hready n (by omega) clip s hclip
  exact ⟨s', hact, hdrawn.retouched.inside, hdrawn.retouched.outside, hdrawn.touched⟩

/-! ### A text box over the desktop

It is as large as its frame, and shows the two leftmost pixels of a character. -/

section

attribute [local instance] gid_neZero

def terminalOverDesktop : WindowManager where
  winstack := some 17
  winIndex w :=
    if w = 17 then plainWindow .frame 1 1 ⟨2, 1, 6, 4⟩ (.window 19) (some 0) 17
    else if w = 19 then plainWindow .textBox 1 3 ⟨2, 1, 6, 4⟩ (.bits 0x1000) none 17
    else plainWindow .desktop 0 0 ⟨0, 0, 8, 5⟩ (.bits 0x2000) none 0

end

def terminalSources : Sources where
  addr _ := 0
  asciiMap i := if i = 65 * 16 then 0xC0 else 0
  images _ _ := 0x7C1F
  buffers _ :=
    { charW := 1, offsetX := 0, offsetY := 0, head := 0, tail := 0, max := 1, capacity := 1, text := fun _ => 65 }

/-- Nothing has been drawn yet. -/
def blankScreen : Screen := ⟨fun _ => 0, fun _ => 0, []⟩

theorem redraw_composes_terminal : ∃ s',
    Screen.guiRedrawRect 8 5 terminalSources terminalOverDesktop.winIndex 257 ⟨0, 0, 8, 5⟩ (some 17) blankScreen =
      some s' ∧
    s'.view (pixelOffset 8 (3, 1)) = (0x13, green) ∧
    s'.view (pixelOffset 8 (4, 1)) = (0x13, shade textBoxColor 0x7C1F) ∧
    s'.view (pixelOffset 8 (6, 4)) = (0, 0x7C1F) := by
  have hlinked : (Forest.frame 17 (.leaf 19 .nil) (.leaf 0 .nil)).Linked
      terminalOverDesktop.winIndex none terminalOverDesktop.winstack :=
    ⟨rfl, rfl, rfl, ⟨some 19, rfl, rfl, by decide, rfl, rfl⟩, rfl, by decide, rfl, rfl⟩
  have hready : ∀ w ∈ [(17 : Gid), 19, 0], (terminalOverDesktop.winIndex w).Ready terminalSources := by
    simp only [List.forall_mem_cons]
    refine ⟨trivial, ⟨0x1000, rfl, fun _ => ⟨⟨?_, ?_, ?_, ?_, ?_, ?_⟩, ?_, ?_, ?_, ?_⟩⟩, ⟨0x2000, rfl⟩,
      fun _ h => absurd h List.not_mem_nil⟩ <;> decide
  obtain ⟨s', hact, hin, -⟩ := redraw_composes 8 5 terminalSources terminalOverDesktop _ hlinked
    (by decide) hready 257 (Nat.le_refl _) ⟨0, 0, 8, 5⟩ ⟨by decide, by decide, by decide⟩ blankScreen
  refine ⟨s', hact, ?_, ?_, ?_⟩
  · rw [hin (3, 1) (by decide)]
    rfl
  · -- between the pixels of the character the desktop shines through
    rw [hin (4, 1) (by decide), Forest.composite_frame (by decide), Forest.composite_leaf (by decide)]
    have hclear : ¬ (terminalSources.buffers ((terminalOverDesktop.winIndex 19).color terminalSources)).Inked
        terminalSources.asciiMap (terminalOverDesktop.winIndex 19).windata.rect (4, 1) := by decide
    rw [GUIWindow.layer_textBox rfl hclear, Option.getD_some, Option.getD_none,
      Forest.composite_leaf (by decide)]
    rfl
  · rw [hin (6, 4) (by decide)]
    rfl

end Shipwreck.Gui
