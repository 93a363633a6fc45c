import Shipwreck.Gui.Window
import Shipwreck.Lib.Chain
import Shipwreck.Lib.Paint

/-!
# Painting the windows

`gui_redraw_rect` of `gui.cpp` draws what a clip rectangle shows of a stack of windows: it finds the
first window that meets the clip, draws the part of it inside, and goes on below this window with the
four strips that are left.

    +---------------------------+ clip
    |           above           |
    |------+-------------+------|
    | left |   window    | right|
    |------+-------------+------|
    |           below           |
    +---------------------------+

A frame draws its children the same way. A transparent window and a text box first draw everything
below the top-level window that contains them, and then themselves over it.

What is drawn is followed in `pick_buffer`, which says for each pixel which window shows there. The
colours, the text and the desktop image go to the frame buffer, which none of this reads. Nothing
bounds the recursion in the source; in the model it has fuel, and `redraw_picks` shows that there is
enough of it for every well-formed forest of windows.
-/

namespace Shipwreck.Gui

/-! ## Rectangles -/

namespace Rect

/-- `MAX(X, Y)`. -/
def max (x y : Int32) : Int32 := if x > y then x else y

/-- `MIN(X, Y)`. -/
def min (x y : Int32) : Int32 := if x < y then x else y

/-- `rect_intersect(src, dst)`: the new `dst`, if it returns true. -/
def intersect (src dst : Rect) : Option Rect :=
  let l := max src.l dst.l
  let r := min src.r dst.r
  if r < l then none
  else
    let t := max src.t dst.t
    let b := min src.b dst.b
    if b < t then none else some ⟨l, t, r, b⟩

/-- The pixels of a rectangle: its right and bottom edges are not part of it. -/
def pixels (rect : Rect) : Set (Int × Int) :=
  { p | rect.l.toInt ≤ p.1 ∧ p.1 < rect.r.toInt ∧ rect.t.toInt ≤ p.2 ∧ p.2 < rect.b.toInt }

instance (rect : Rect) (p : Int × Int) : Decidable (p ∈ rect.pixels) :=
  inferInstanceAs (Decidable (_ ∧ _))

end Rect

/-! ## The pick buffer -/

/-- `pick_buffer`, addressed by the offset from its beginning. -/
abbrev PickBuffer := UInt32 → UInt8

section

variable (width : UInt16)

/-- `VGA_PIXEL_OFFSET`. -/
def pixelOffset (p : Int × Int) : UInt32 := UInt32.ofInt (p.2 * width.toNat + p.1)

/-- The number that `update_pick_buf` stores for a window. -/
def GUIWindow.gid (gw : GUIWindow) : UInt8 :=
  (((gw.pid &&& 0xF) <<< 4) ||| (gw.windata.id &&& 0xF)).toUInt32.toUInt8

/-- The inner loop of `update_pick_buf`: `n` pixels of row `y` from `x` on. -/
def updateRow (gid : UInt8) (y : Int) : Int → Nat → PickBuffer → PickBuffer
  | _, 0, pick => pick
  | x, n + 1, pick => updateRow gid y (x + 1) n (Function.update pick (pixelOffset width (x, y)) gid)

/-- The outer loop of `update_pick_buf`: `n` rows from `y` on. -/
def updateRows (gid : UInt8) (clip : Rect) : Int → Nat → PickBuffer → PickBuffer
  | _, 0, pick => pick
  | y, n + 1, pick =>
    updateRows gid clip (y + 1) n
      (updateRow width gid y clip.l.toInt (clip.r.toInt - clip.l.toInt).toNat pick)

/-- `update_pick_buf`. -/
def updatePickBuf (clip : Rect) (gw : GUIWindow) (pick : PickBuffer) : PickBuffer :=
  updateRows width gw.gid clip clip.t.toInt (clip.b.toInt - clip.t.toInt).toNat pick

end

/-! ## Drawing -/

section

variable (width : UInt16) (addr : Gid → UInt32) (win : Gid → GUIWindow)

/-- `GET_ALPHA(windata.color)`; `addr` are the addresses of the windows, read as colours. -/
def GUIWindow.alpha (gw : GUIWindow) : UInt32 :=
  let color := match gw.windata.displayData with
    | .bits word => word
    | .window w => addr w
  color &&& ((0x7 : UInt32) <<< 16)

/-- `if (c) act;` -/
def onlyIf (c : Prop) [Decidable c] (act : PickBuffer → Option PickBuffer) (pick : PickBuffer) :
    Option PickBuffer :=
  if c then act pick else some pick

/-- `GUIWindow::draw` and the functions that override it. `redraw` is `gui_redraw_rect`; `none` is a
pointer that leads nowhere, or a recursion that has not ended. -/
def draw (redraw : Rect → Option Gid → PickBuffer → Option PickBuffer) (w : Gid) (clip : Rect)
    (pick : PickBuffer) : Option PickBuffer :=
  match (win w).kind with
  | .window => do
    let below := (win w).wmRoot.bind fun root => (win root).next
    let pick ← onlyIf ((win w).alpha addr ≠ 0 ∧ below ≠ none) (redraw clip below) pick
    return updatePickBuf width clip (win w) pick
  | .frame => do
    let top ← (win w).children
    redraw clip top pick
  | .textBox => do
    let root ← (win w).wmRoot
    let pick ← redraw clip (win root).next pick
    return updatePickBuf width clip (win w) pick
  | .desktop => return updatePickBuf width clip (win w) pick

/-- The loop of `gui_redraw_rect`: the first window from `node` on that meets `subRect`, looking at
`n` windows at most, and the intersection. -/
def firstMeeting : Nat → Option Gid → Rect → Option Gid × Rect
  | _, none, subRect => (none, subRect)
  | 0, some w, subRect => (some w, subRect)
  | n + 1, some w, subRect =>
    match (win w).windata.rect.intersect subRect with
    | some meet => (some w, meet)
    | none => firstMeeting n (win w).next subRect

namespace Rect

/-! The four values of `new_clip`, for a window that shows in `sub`. -/

def above (clip sub : Rect) : Rect := ⟨clip.l, clip.t, clip.r, sub.t⟩

def leftOf (clip sub : Rect) : Rect := ⟨clip.l, sub.t, sub.l, sub.b⟩

def rightOf (clip sub : Rect) : Rect := ⟨sub.r, sub.t, clip.r, sub.b⟩

def below (clip sub : Rect) : Rect := ⟨clip.l, sub.b, clip.r, clip.b⟩

end Rect

/-- The rest of `gui_redraw_rect`, for the window `node` that the loop found. -/
def redrawAround (redraw : Rect → Option Gid → PickBuffer → Option PickBuffer) (node : Gid)
    (subRect clip : Rect) (pick : PickBuffer) : Option PickBuffer := do
  let next := (win node).next
  let pick ← onlyIf (subRect.t > clip.t) (redraw (clip.above subRect) next) pick
  let pick ← onlyIf (subRect.l > clip.l) (redraw (clip.leftOf subRect) next) pick
  let pick ← draw width addr win redraw node subRect pick
  let pick ← onlyIf (subRect.r < clip.r) (redraw (clip.rightOf subRect) next) pick
  onlyIf (subRect.b < clip.b) (redraw (clip.below subRect) next) pick

/-- `gui_redraw_rect`, with the loop looking at `n` windows and with `redraw` for its own calls. -/
def redrawFrom (redraw : Rect → Option Gid → PickBuffer → Option PickBuffer) (n : Nat) (clip : Rect)
    (top : Option Gid) (pick : PickBuffer) : Option PickBuffer :=
  match firstMeeting win n top clip with
  | (none, _) => some pick
  | (some node, subRect) => redrawAround width addr win redraw node subRect clip pick

/-- `gui_redraw_rect`. -/
def guiRedrawRect : Nat → Rect → Option Gid → PickBuffer → Option PickBuffer
  | 0, _, _, _ => none
  | fuel + 1, clip, top, pick =>
    redrawFrom width addr win (guiRedrawRect fuel) 256 clip top pick

end

/-! ## What the clip rectangles cover -/

namespace Rect

theorem toInt_max (x y : Int32) : (max x y).toInt = Max.max x.toInt y.toInt := by
  simp only [max, gt_iff_lt, Int32.lt_iff_toInt_lt]
  split <;> omega

theorem toInt_min (x y : Int32) : (min x y).toInt = Min.min x.toInt y.toInt := by
  simp only [min, Int32.lt_iff_toInt_lt]
  split <;> omega

/-- The intersection, also where it has no pixels. -/
theorem intersect_eq_some {src dst meet : Rect} (h : src.intersect dst = some meet) :
    (meet.l.toInt = Max.max src.l.toInt dst.l.toInt ∧
      meet.t.toInt = Max.max src.t.toInt dst.t.toInt ∧
      meet.r.toInt = Min.min src.r.toInt dst.r.toInt ∧
      meet.b.toInt = Min.min src.b.toInt dst.b.toInt) ∧
    meet.l.toInt ≤ meet.r.toInt ∧ meet.t.toInt ≤ meet.b.toInt := by
  simp only [intersect, Int32.lt_iff_toInt_lt, toInt_max, toInt_min] at h
  split at h
  · cases h
  · split at h
    · cases h
    · cases h
      refine ⟨⟨toInt_max _ _, toInt_max _ _, toInt_min _ _, toInt_min _ _⟩, ?_⟩
      rw [toInt_max, toInt_max, toInt_min, toInt_min]
      omega

/-- A window that does not meet the clip has no pixel in it. -/
theorem intersect_eq_none {src dst : Rect} (h : src.intersect dst = none) {p : Int × Int}
    (hp : p ∈ dst.pixels) : p ∉ src.pixels := by
  obtain ⟨hl, hr, ht, hb⟩ := hp
  rintro ⟨hl', hr', ht', hb'⟩
  simp only [intersect, Int32.lt_iff_toInt_lt, toInt_max, toInt_min] at h
  split at h
  · omega
  · split at h
    · omega
    · cases h

section

variable {rect clip sub : Rect} (hmeet : rect.intersect clip = some sub)
include hmeet

/-- In the clip, the window shows exactly in the intersection. -/
theorem mem_sub_iff {p : Int × Int} (hp : p ∈ clip.pixels) : p ∈ sub.pixels ↔ p ∈ rect.pixels := by
  obtain ⟨⟨hl, ht, hr, hb⟩, -, -⟩ := intersect_eq_some hmeet
  simp only [pixels, Set.mem_ofPred_eq] at hp ⊢
  omega

/-- **The intersection and the four strips around it cover the clip**, also where some of them have
no pixels. -/
theorem mem_clip_iff (p : Int × Int) :
    p ∈ clip.pixels ↔ p ∈ (clip.above sub).pixels ∪ (clip.leftOf sub).pixels ∪ sub.pixels ∪
      (clip.rightOf sub).pixels ∨ p ∈ (clip.below sub).pixels := by
  obtain ⟨⟨hl, ht, hr, hb⟩, hlr, htb⟩ := intersect_eq_some hmeet
  simp only [pixels, above, leftOf, rightOf, below, Set.mem_union, Set.mem_ofPred_eq]
  omega

theorem above_pixels {p : Int × Int} (hp : p ∈ (clip.above sub).pixels) :
    sub.t > clip.t ∧ p ∉ rect.pixels := by
  obtain ⟨⟨hl, ht, hr, hb⟩, hlr, htb⟩ := intersect_eq_some hmeet
  simp only [pixels, above, Set.mem_ofPred_eq, gt_iff_lt, Int32.lt_iff_toInt_lt] at hp ⊢
  omega

theorem leftOf_pixels {p : Int × Int} (hp : p ∈ (clip.leftOf sub).pixels) :
    sub.l > clip.l ∧ p ∉ rect.pixels := by
  obtain ⟨⟨hl, ht, hr, hb⟩, hlr, htb⟩ := intersect_eq_some hmeet
  simp only [pixels, leftOf, Set.mem_ofPred_eq, gt_iff_lt, Int32.lt_iff_toInt_lt] at hp ⊢
  omega

theorem rightOf_pixels {p : Int × Int} (hp : p ∈ (clip.rightOf sub).pixels) :
    sub.r < clip.r ∧ p ∉ rect.pixels := by
  obtain ⟨⟨hl, ht, hr, hb⟩, hlr, htb⟩ := intersect_eq_some hmeet
  simp only [pixels, rightOf, Set.mem_ofPred_eq, Int32.lt_iff_toInt_lt] at hp ⊢
  omega

theorem below_pixels {p : Int × Int} (hp : p ∈ (clip.below sub).pixels) :
    sub.b < clip.b ∧ p ∉ rect.pixels := by
  obtain ⟨⟨hl, ht, hr, hb⟩, hlr, htb⟩ := intersect_eq_some hmeet
  simp only [pixels, below, Set.mem_ofPred_eq, Int32.lt_iff_toInt_lt] at hp ⊢
  omega

end

/-- The rectangle lies on the screen. -/
def Inside (width height : UInt16) (rect : Rect) : Prop :=
  0 ≤ rect.l.toInt ∧ 0 ≤ rect.t.toInt ∧ rect.r.toInt ≤ width.toNat ∧ rect.b.toInt ≤ height.toNat

instance (width height : UInt16) (rect : Rect) : Decidable (rect.Inside width height) :=
  inferInstanceAs (Decidable (_ ∧ _))

/-- All the pieces lie on the screen. -/
theorem Inside.pieces {width height : UInt16} {rect clip sub : Rect}
    (h : clip.Inside width height) (hmeet : rect.intersect clip = some sub) :
    (clip.above sub).Inside width height ∧ (clip.leftOf sub).Inside width height ∧
      sub.Inside width height ∧ (clip.rightOf sub).Inside width height ∧
      (clip.below sub).Inside width height := by
  obtain ⟨⟨hl, ht, hr, hb⟩, hlr, htb⟩ := intersect_eq_some hmeet
  simp only [Inside, above, leftOf, rightOf, below] at h ⊢
  omega

end Rect

/-- The pixels of the screen. -/
def screen (width height : UInt16) : Set (Int × Int) :=
  { p | 0 ≤ p.1 ∧ p.1 < width.toNat ∧ 0 ≤ p.2 ∧ p.2 < height.toNat }

section

variable {width height : UInt16}

theorem Rect.Inside.subset {rect : Rect} (h : rect.Inside width height) :
    rect.pixels ⊆ screen width height := by
  obtain ⟨hl, ht, hr, hb⟩ := h
  rintro p ⟨hpl, hpr, hpt, hpb⟩
  exact ⟨by omega, by omega, by omega, by omega⟩

/-- Each pixel of the screen has a cell of its own: width and height are 16-bit numbers. -/
theorem pixelOffset_injOn : (screen width height).InjOn (pixelOffset width) := by
  rintro ⟨x, y⟩ ⟨hx0, hx, hy0, hy⟩ ⟨x', y'⟩ ⟨hx0', hx', hy0', hy'⟩ heq
  dsimp only at *
  have hw := width.toNat_lt
  have hh := height.toNat_lt
  -- the offset of a pixel of the screen is at most `2^32 - 1`
  have hoffset {x y : Int} (hx0 : 0 ≤ x) (hx : x < width.toNat) (hy0 : 0 ≤ y)
      (hy : y < height.toNat) : (pixelOffset width (x, y)).toNat = y * width.toNat + x := by
    have hrow : y * width.toNat ≤ 65534 * 65535 := by
      apply Int.mul_le_mul <;> omega
    have hpos : 0 ≤ y * width.toNat := Int.mul_nonneg hy0 (by omega)
    rw [pixelOffset, UInt32.ofInt, UInt32.toNat_ofNat']
    dsimp only
    omega
  have hsum : y * width.toNat + x = y' * width.toNat + x' := by
    rw [← hoffset hx0 hx hy0 hy, ← hoffset hx0' hx' hy0' hy', heq]
  have hdiv {x y : Int} (hx0 : 0 ≤ x) (hx : x < width.toNat) :
      (y * width.toNat + x) / width.toNat = y := by
    rw [Int.add_comm, Int.add_mul_ediv_right _ _ (by omega), Int.ediv_eq_zero_of_lt hx0 hx,
      Int.zero_add]
  have hyy : y = y' := by
    rw [← hdiv (y := y) hx0 hx, hsum, hdiv hx0' hx']
  subst hyy
  rw [Int.add_left_cancel hsum]

/-! ## `update_pick_buf` -/

/-- The pixels of row `y` from `x` on. -/
def rowFrom (x y : Int) (n : Nat) : Set (Int × Int) := { p | x ≤ p.1 ∧ p.1 < x + n ∧ p.2 = y }

/-- The pixels of `clip` in the rows from `y` on. -/
def rowsFrom (clip : Rect) (y : Int) (n : Nat) : Set (Int × Int) :=
  { p | clip.l.toInt ≤ p.1 ∧ p.1 < clip.r.toInt ∧ y ≤ p.2 ∧ p.2 < y + n }

theorem updateRow_painted {gid : UInt8} {x y : Int} {n : Nat} {pick : PickBuffer}
    (hrow : rowFrom x y n ⊆ screen width height) :
    Painted (pixelOffset width) (rowFrom x y n) (fun _ => some gid) pick
      (updateRow width gid y x n pick) := by
  induction n generalizing x pick with
  | zero =>
    apply Painted.refl
    rintro p ⟨hlo, hhi, -⟩
    omega
  | succ n ih =>
    have hsplit (p : Int × Int) : p ∈ rowFrom x y (n + 1) ↔ p ∈ ({(x, y)} : Set _) ∨
        p ∈ rowFrom (x + 1) y n := by
      obtain ⟨i, j⟩ := p
      simp only [rowFrom, Set.mem_ofPred_eq, Set.mem_singleton_iff, Prod.mk.injEq]
      omega
    refine (Painted.single (x, y) gid).pieces pixelOffset_injOn hrow hsplit (ih ?_)
    exact fun p hp => hrow ((hsplit p).mpr (Or.inr hp))

theorem updateRows_painted {gid : UInt8} {clip : Rect} {y : Int} {n : Nat} {pick : PickBuffer}
    (hrows : rowsFrom clip y n ⊆ screen width height) :
    Painted (pixelOffset width) (rowsFrom clip y n) (fun _ => some gid) pick
      (updateRows width gid clip y n pick) := by
  induction n generalizing y pick with
  | zero =>
    apply Painted.refl
    rintro p ⟨-, -, hlo, hhi⟩
    omega
  | succ n ih =>
    have hsplit (p : Int × Int) : p ∈ rowsFrom clip y (n + 1) ↔
        p ∈ rowFrom clip.l.toInt y (clip.r.toInt - clip.l.toInt).toNat ∨
          p ∈ rowsFrom clip (y + 1) n := by
      simp only [rowFrom, rowsFrom, Set.mem_ofPred_eq]
      omega
    have hrow : rowFrom clip.l.toInt y (clip.r.toInt - clip.l.toInt).toNat ⊆ screen width height :=
      fun p hp => hrows ((hsplit p).mpr (Or.inl hp))
    have hrest : rowsFrom clip (y + 1) n ⊆ screen width height :=
      fun p hp => hrows ((hsplit p).mpr (Or.inr hp))
    exact (updateRow_painted hrow).pieces pixelOffset_injOn hrows hsplit (ih hrest)

/-- **`update_pick_buf` stores the number of the window in the cells of the clip.** -/
theorem updatePickBuf_painted {clip : Rect} {gw : GUIWindow} {pick : PickBuffer}
    (hclip : clip.Inside width height) :
    Painted (pixelOffset width) clip.pixels (fun _ => some gw.gid) pick
      (updatePickBuf width clip gw pick) := by
  have hrows : clip.pixels =
      rowsFrom clip clip.t.toInt (clip.b.toInt - clip.t.toInt).toNat := by
    ext p
    simp only [Rect.pixels, rowsFrom, Set.mem_ofPred_eq]
    omega
  have hsub := hclip.subset
  rw [hrows] at hsub ⊢
  exact updateRows_painted hsub

end

/-! ## The picture -/

/-- A stack of windows, with the stacks of the frames in it. -/
inductive Forest where
  | nil
  | leaf (w : Gid) (rest : Forest)
  | frame (w : Gid) (children rest : Forest)
  deriving DecidableEq, Repr

namespace Forest

variable (win : Gid → GUIWindow)

/-- The windows from `top` on are the stack `forest`, linked by `next`, and the stack of each frame is
where its children begin. `root` is the top-level window that contains them, if there is one; a
top-level window is its own root. -/
def Linked (root : Option Gid) : Option Gid → Forest → Prop
  | top, nil => top = none
  | top, leaf w rest =>
    top = some w ∧ (win w).kind ≠ .frame ∧ (win w).wmRoot = some (root.getD w) ∧
      Linked root (win w).next rest
  | top, frame w children rest =>
    top = some w ∧ (win w).kind = .frame ∧ (win w).wmRoot = some (root.getD w) ∧
      (∃ first, (win w).children = some first ∧ Linked (some (root.getD w)) first children) ∧
      Linked root (win w).next rest

/-- The search from the top: the first window of the stack that contains the pixel, and in a frame
the one of its children found in the same way. -/
def search (p : Int × Int) : Forest → Option Gid
  | nil => none
  | leaf w rest => if p ∈ (win w).windata.rect.pixels then some w else search p rest
  | frame w children rest =>
    if p ∈ (win w).windata.rect.pixels then search p children else search p rest

/-- The windows of a stack, without those inside its frames. -/
def stack : Forest → List Gid
  | nil => []
  | leaf w rest => w :: stack rest
  | frame w _ rest => w :: stack rest

/-- What the stack shows at each pixel. -/
def picture (forest : Forest) (p : Int × Int) : Option UInt8 :=
  (forest.search win p).map fun w => (win w).gid

variable {win}

theorem Linked.chain {root top : Option Gid} {forest : Forest} (h : forest.Linked win root top) :
    Chain (fun w => (win w).next) top forest.stack := by
  induction forest generalizing top with
  | nil => exact h
  | leaf w rest ih => exact ⟨h.1, ih h.2.2.2⟩
  | frame w children rest _ ih => exact ⟨h.1, ih h.2.2.2.2⟩

/-- A list without a cycle has at most `MAX_WINDOW_LEVELS` windows. -/
theorem Linked.stack_length {root top : Option Gid} {forest : Forest}
    (h : forest.Linked win root top) : forest.stack.length ≤ 256 := by
  simpa using h.chain.nodup.length_le_card

end Forest

/-! ## One window and the strips around it -/

section

variable {width height : UInt16} {addr : Gid → UInt32} {win : Gid → GUIWindow}
  {redraw : Rect → Option Gid → PickBuffer → Option PickBuffer} {f g : Int × Int → Option UInt8}
  {node : Gid} {clip sub : Rect} {pick : PickBuffer}

/-- `act` ends, and draws the picture `f` in the clip. -/
def Draws (width height : UInt16) (act : Rect → PickBuffer → Option PickBuffer)
    (f : Int × Int → Option UInt8) : Prop :=
  ∀ clip pick, clip.Inside width height →
    ∃ pick', act clip pick = some pick' ∧
      Painted (pixelOffset width) clip.pixels f pick pick'

/-- A strip, which is left out where it would be empty. -/
theorem Draws.strip {act : Rect → PickBuffer → Option PickBuffer} (h : Draws width height act f)
    (strip : Rect) {c : Prop} [Decidable c] (hin : strip.Inside width height)
    (hpixels : ∀ p ∈ strip.pixels, c ∧ f p = g p) (pick : PickBuffer) :
    ∃ pick', onlyIf c (act strip) pick = some pick' ∧
      Painted (pixelOffset width) strip.pixels g pick pick' := by
  unfold onlyIf
  by_cases hc : c
  · obtain ⟨pick', hact, hpaint⟩ := h strip pick hin
    rw [if_pos hc]
    exact ⟨pick', hact, hpaint.congr fun p hp => (hpixels p hp).2⟩
  · rw [if_neg hc]
    exact ⟨pick, rfl, Painted.refl fun p hp => absurd (hpixels p hp).1 hc⟩

/-- The window that was found, and the four strips around it. -/
theorem redrawAround_draws (hnext : Draws width height (fun clip => redraw clip (win node).next) f)
    (hdraw : Draws width height (draw width addr win redraw node) g)
    (hclip : clip.Inside width height)
    (hmeet : (win node).windata.rect.intersect clip = some sub) (pick : PickBuffer) :
    ∃ pick', redrawAround width addr win redraw node sub clip pick = some pick' ∧
      Painted (pixelOffset width) clip.pixels
        (fun p => if p ∈ (win node).windata.rect.pixels then g p else f p) pick pick' := by
  obtain ⟨habove, hleft, hsub, hright, hbelow⟩ := hclip.pieces hmeet
  let F := fun p => if p ∈ (win node).windata.rect.pixels then g p else f p
  have houter (p : Int × Int) (hp : p ∉ (win node).windata.rect.pixels) : f p = F p :=
    (if_neg hp).symm
  have hinner (p : Int × Int) (hp : p ∈ sub.pixels) : g p = F p := by
    have hin : p ∈ clip.pixels := (Rect.mem_clip_iff hmeet p).mpr (Or.inl (Or.inl (Or.inr hp)))
    exact (if_pos ((Rect.mem_sub_iff hmeet hin).mp hp)).symm
  obtain ⟨p₁, hact₁, hpaint₁⟩ := hnext.strip (g := F) (clip.above sub) habove
    (fun p hp => (Rect.above_pixels hmeet hp).imp_right (houter p)) pick
  obtain ⟨p₂, hact₂, hpaint₂⟩ := hnext.strip (g := F) (clip.leftOf sub) hleft
    (fun p hp => (Rect.leftOf_pixels hmeet hp).imp_right (houter p)) p₁
  obtain ⟨p₃, hact₃, hpaint₃⟩ := hdraw sub p₂ hsub
  obtain ⟨p₄, hact₄, hpaint₄⟩ := hnext.strip (g := F) (clip.rightOf sub) hright
    (fun p hp => (Rect.rightOf_pixels hmeet hp).imp_right (houter p)) p₃
  obtain ⟨p₅, hact₅, hpaint₅⟩ := hnext.strip (g := F) (clip.below sub) hbelow
    (fun p hp => (Rect.below_pixels hmeet hp).imp_right (houter p)) p₄
  refine ⟨p₅, ?_, ?_⟩
  · simp only [redrawAround, hact₁, hact₂, hact₃, hact₄, hact₅, Option.bind_eq_bind,
      Option.bind_some]
  · have h₁₂ := hpaint₁.union pixelOffset_injOn habove.subset hleft.subset hpaint₂
    have h₁₃ := h₁₂.union pixelOffset_injOn (Set.union_subset habove.subset hleft.subset)
      hsub.subset (hpaint₃.congr hinner)
    have h₁₄ := h₁₃.union pixelOffset_injOn
      (Set.union_subset (Set.union_subset habove.subset hleft.subset) hsub.subset)
      hright.subset hpaint₄
    exact h₁₄.pieces pixelOffset_injOn hclip.subset (Rect.mem_clip_iff hmeet) hpaint₅

/-- A window that is no frame draws over what is below its root. -/
theorem draw_leaf {root : Gid} (hkind : (win node).kind ≠ .frame)
    (hroot : (win node).wmRoot = some root)
    (hbelow : Draws width height (fun clip => redraw clip (win root).next) f) :
    Draws width height (draw width addr win redraw node) fun _ => some (win node).gid := by
  intro clip pick hclip
  obtain ⟨pick', hact, hpaint⟩ := hbelow clip pick hclip
  unfold draw
  cases hk : (win node).kind with
  | frame => exact absurd hk hkind
  | desktop => exact ⟨_, rfl, updatePickBuf_painted hclip⟩
  | textBox =>
    refine ⟨updatePickBuf width clip (win node) pick', ?_, ?_⟩
    · simp only [hroot, hact, Option.bind_eq_bind, Option.bind_some, Option.pure_def]
    · exact hpaint.cover (updatePickBuf_painted hclip)
  | window =>
    by_cases halpha : (win node).alpha addr ≠ 0 ∧ (win root).next ≠ none
    · refine ⟨updatePickBuf width clip (win node) pick', ?_, ?_⟩
      · simp only [hroot, onlyIf, if_pos halpha, hact, Option.bind_eq_bind, Option.bind_some,
          Option.pure_def]
      · exact hpaint.cover (updatePickBuf_painted hclip)
    · refine ⟨updatePickBuf width clip (win node) pick, ?_, updatePickBuf_painted hclip⟩
      simp only [hroot, onlyIf, if_neg halpha, Option.bind_eq_bind, Option.bind_some,
        Option.pure_def]

theorem draw_frame {first : Option Gid} (hkind : (win node).kind = .frame)
    (hfirst : (win node).children = some first)
    (hchildren : Draws width height (fun clip => redraw clip first) f) :
    Draws width height (draw width addr win redraw node) f := by
  intro clip pick hclip
  simp only [draw, hkind, hfirst, Option.bind_eq_bind, Option.bind_some]
  exact hchildren clip pick hclip

/-- A window on top of a stack, when the loop starts with it. -/
theorem redrawFrom_cons {n : Nat}
    (hnext : Draws width height (fun clip => redraw clip (win node).next) f)
    (hdraw : Draws width height (draw width addr win redraw node) g)
    (hrest : Draws width height (fun clip => redrawFrom width addr win redraw n clip (win node).next)
      f) :
    Draws width height (fun clip => redrawFrom width addr win redraw (n + 1) clip (some node))
      fun p => if p ∈ (win node).windata.rect.pixels then g p else f p := by
  intro clip pick hclip
  cases hmeet : (win node).windata.rect.intersect clip with
  | some sub =>
    simp only [redrawFrom, firstMeeting, hmeet]
    exact redrawAround_draws hnext hdraw hclip hmeet pick
  | none =>
    obtain ⟨pick', hact, hpaint⟩ := hrest clip pick hclip
    refine ⟨pick', ?_, hpaint.congr ?_⟩
    · rw [← hact]
      simp only [redrawFrom, firstMeeting, hmeet]
    · intro p hp
      rw [if_neg (Rect.intersect_eq_none hmeet hp)]

end

/-! ## The whole recursion -/

section

variable {width height : UInt16} {addr : Gid → UInt32} {win : Gid → GUIWindow}

/-- With enough fuel, `gui_redraw_rect` draws the picture `f` from `top` on. -/
def Shows (width height : UInt16) (addr : Gid → UInt32) (win : Gid → GUIWindow) (top : Option Gid)
    (f : Int × Int → Option UInt8) : Prop :=
  ∃ N, ∀ n, N ≤ n → Draws width height (fun clip => guiRedrawRect width addr win n clip top) f

/-- The same, when the loop looks at `count` windows. -/
def ShowsFrom (width height : UInt16) (addr : Gid → UInt32) (win : Gid → GUIWindow) (count : Nat)
    (top : Option Gid) (f : Int × Int → Option UInt8) : Prop :=
  ∃ N, ∀ n, N ≤ n → Draws width height
    (fun clip => redrawFrom width addr win (guiRedrawRect width addr win n) count clip top) f

theorem ShowsFrom.shows {top : Option Gid} {f : Int × Int → Option UInt8}
    (h : ShowsFrom width height addr win 256 top f) : Shows width height addr win top f := by
  obtain ⟨N, h⟩ := h
  refine ⟨N + 1, ?_⟩
  intro n hn
  obtain ⟨m, rfl⟩ : ∃ m, n = m + 1 := ⟨n - 1, by omega⟩
  exact h m (by omega)

theorem ShowsFrom.cons {w : Gid} {count : Nat} {f g : Int × Int → Option UInt8}
    (hnext : Shows width height addr win (win w).next f)
    (hrest : ShowsFrom width height addr win count (win w).next f)
    (hdraw : ∃ N, ∀ n, N ≤ n →
      Draws width height (draw width addr win (guiRedrawRect width addr win n) w) g) :
    ShowsFrom width height addr win (count + 1) (some w)
      fun p => if p ∈ (win w).windata.rect.pixels then g p else f p := by
  obtain ⟨N₁, hnext⟩ := hnext
  obtain ⟨N₂, hrest⟩ := hrest
  obtain ⟨N₃, hdraw⟩ := hdraw
  refine ⟨max N₁ (max N₂ N₃), ?_⟩
  intro n hn
  exact redrawFrom_cons (hnext n (by omega)) (hdraw n (by omega)) (hrest n (by omega))

theorem Forest.picture_leaf (w : Gid) (rest : Forest) :
    (leaf w rest).picture win = fun p =>
      if p ∈ (win w).windata.rect.pixels then some (win w).gid else rest.picture win p := by
  funext p
  rw [picture, search]
  split
  · rfl
  · rfl

theorem Forest.picture_frame (w : Gid) (children rest : Forest) :
    (frame w children rest).picture win = fun p =>
      if p ∈ (win w).windata.rect.pixels then children.picture win p else rest.picture win p := by
  funext p
  rw [picture, search]
  split
  · rfl
  · rfl

/-- What a window draws over: what is below its root, or below itself at the top level. -/
theorem shows_below_root {root : Option Gid} {w : Gid} {f : Int × Int → Option UInt8}
    (hbelow : ∀ r, root = some r → ∃ f, Shows width height addr win (win r).next f)
    (hnext : Shows width height addr win (win w).next f) :
    ∃ f, Shows width height addr win (win (root.getD w)).next f := by
  cases root with
  | none => exact ⟨f, hnext⟩
  | some r => exact hbelow r rfl

/-- **A stack shows what the search from the top finds.** The induction is on the forest; what lies
below the root of the stack is already known to be drawn by then. -/
theorem Forest.Linked.showsFrom {forest : Forest} {root top : Option Gid}
    (h : forest.Linked win root top)
    (hbelow : ∀ r, root = some r → ∃ f, Shows width height addr win (win r).next f) {count : Nat}
    (hcount : forest.stack.length ≤ count) :
    ShowsFrom width height addr win count top (forest.picture win) := by
  induction forest generalizing root top count with
  | nil =>
    refine ⟨0, ?_⟩
    intro n _ clip pick hclip
    cases h
    refine ⟨pick, ?_, Painted.refl fun _ _ => rfl⟩
    cases count with
    | zero => rfl
    | succ count => rfl
  | leaf w rest ih =>
    obtain ⟨rfl, hkind, hroot, hrest⟩ := h
    obtain ⟨count, rfl⟩ := Nat.exists_eq_add_of_le' (Nat.le_of_add_left_le hcount)
    have hnext := (ih hrest hbelow hrest.stack_length).shows
    obtain ⟨f, N, hunder⟩ := shows_below_root hbelow hnext
    rw [picture_leaf]
    exact ShowsFrom.cons hnext (ih hrest hbelow (Nat.le_of_succ_le_succ hcount))
      ⟨N, fun n hn => draw_leaf hkind hroot (hunder n hn)⟩
  | frame w children rest ihc ihr =>
    obtain ⟨rfl, hkind, hroot, ⟨first, hfirst, hchildren⟩, hrest⟩ := h
    obtain ⟨count, rfl⟩ := Nat.exists_eq_add_of_le' (Nat.le_of_add_left_le hcount)
    have hnext := (ihr hrest hbelow hrest.stack_length).shows
    have hunder : ∀ r, some (root.getD w) = some r →
        ∃ f, Shows width height addr win (win r).next f := by
      intro r hr
      cases hr
      exact shows_below_root hbelow hnext
    obtain ⟨N, hinner⟩ := (ihc hchildren hunder hchildren.stack_length).shows
    rw [picture_frame]
    exact ShowsFrom.cons hnext (ihr hrest hbelow (Nat.le_of_succ_le_succ hcount))
      ⟨N, fun n hn => draw_frame hkind hfirst (hinner n hn)⟩

end

/-- **Painting respects the z-order.** In a well-formed forest `gui_redraw_rect` ends, for every clip
on the screen; it stores in each cell of the clip the number of the window that the search from the
top finds there, and touches no other cell. -/
theorem redraw_picks (width height : UInt16) (addr : Gid → UInt32) (mgr : WindowManager)
    (forest : Forest) (hforest : forest.Linked mgr.winIndex none mgr.winstack) :
    ∃ N, ∀ n, N ≤ n → ∀ clip pick, clip.Inside width height →
      ∃ pick', guiRedrawRect width addr mgr.winIndex n clip mgr.winstack pick = some pick' ∧
        (∀ p ∈ clip.pixels, pick' (pixelOffset width p) =
          match forest.search mgr.winIndex p with
          | some w => (mgr.winIndex w).gid
          | none => pick (pixelOffset width p)) ∧
        ∀ k, (∀ p ∈ clip.pixels, pixelOffset width p ≠ k) → pick' k = pick k := by
  have hbelow : ∀ r, none = some r → ∃ f, Shows width height addr mgr.winIndex
      (mgr.winIndex r).next f := by
    intro r hr
    cases hr
  obtain ⟨N, hshows⟩ := (hforest.showsFrom hbelow hforest.stack_length).shows
  refine ⟨N, ?_⟩
  intro n hn clip pick hclip
  obtain ⟨pick', hact, hpaint⟩ := hshows n hn clip pick hclip
  refine ⟨pick', hact, ?_, hpaint.outside⟩
  intro p hp
  rw [hpaint.inside p hp, Forest.picture]
  cases forest.search mgr.winIndex p with
  | none => rfl
  | some w => rfl

/-! ### A frame over the desktop

Inside the frame a transparent window covers part of a text box, and one corner of the frame shows
neither of them. -/

def plainWindow (kind : Kind) (pid id : Int32) (rect : Rect) (data : DisplayData)
    (next : Option Gid) (root : Gid) : GUIWindow where
  kind := kind
  windata :=
    { winclass := .window, rect := rect, displayData := data, zindex := 0, id := id, parentId := -1
      needsUpdate := false }
  pid := pid
  next := next
  prev := none
  parent := none
  wmRoot := some root

def frameOverDesktop : WindowManager where
  winstack := some 17
  winIndex w :=
    if w = 17 then plainWindow .frame 1 1 ⟨2, 1, 6, 4⟩ (.window 18) (some 0) 17
    else if w = 18 then plainWindow .window 1 2 ⟨2, 1, 5, 3⟩ (.bits 0x70000) (some 19) 17
    else if w = 19 then plainWindow .textBox 1 3 ⟨3, 2, 6, 4⟩ (.bits 0) none 17
    else plainWindow .desktop 0 0 ⟨0, 0, 8, 5⟩ (.bits 0) none 0

theorem frameOverDesktop_picks : ∃ N, ∀ n, N ≤ n → ∀ pick, ∃ pick',
    guiRedrawRect 8 (fun _ => 0) frameOverDesktop.winIndex n ⟨0, 0, 8, 5⟩ frameOverDesktop.winstack
      pick = some pick' ∧
    pick' (pixelOffset 8 (3, 2)) = 0x12 ∧ pick' (pixelOffset 8 (5, 3)) = 0x13 ∧
    pick' (pixelOffset 8 (2, 3)) = pick (pixelOffset 8 (2, 3)) ∧
    pick' (pixelOffset 8 (6, 4)) = 0 := by
  have hlinked : (Forest.frame 17 (.leaf 18 (.leaf 19 .nil)) (.leaf 0 .nil)).Linked
      frameOverDesktop.winIndex none frameOverDesktop.winstack :=
    ⟨rfl, rfl, rfl, ⟨some 18, rfl, rfl, by decide, rfl, rfl, by decide, rfl, rfl⟩, rfl, by decide, rfl,
      rfl⟩
  obtain ⟨N, h⟩ := redraw_picks 8 5 (fun _ => 0) frameOverDesktop _ hlinked
  refine ⟨N, ?_⟩
  intro n hn pick
  obtain ⟨pick', hact, hin, -⟩ := h n hn ⟨0, 0, 8, 5⟩ pick (by decide)
  exact ⟨pick', hact, hin (3, 2) (by decide), hin (5, 3) (by decide), hin (2, 3) (by decide),
    hin (6, 4) (by decide)⟩

end Shipwreck.Gui
