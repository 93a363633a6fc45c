import Shipwreck.Gui.Pointer
import Shipwreck.Gui.Raise
import Shipwreck.Gui.RectUnion
import Shipwreck.Kernel.Events
import Shipwreck.Lib.Repair

/-!
# The desk

The bytes of the mouse become events, a worker makes of these events changes of `winstack` and requests to draw,
and another worker draws:

    byte --> MOUSE_MOVE  --> move of the dragged tree --> REDRAW_RECT ...  --+
             LEFT_DOWN   --> tree on top of winstack  --> REDRAW_WINDOW    --+--> gui_redraw_rect
    redraw_gui  ------------------------------------->  REDRAW_RECT        --+

Interrupts are on all the while. A step of a worker reads the mouse once, or draws one request, or puts the pointer on
the screen or takes it off; between two steps bytes may come in, a process may ask for something to be drawn, and
interrupt handlers may write to the frame buffer. The queues are lists here, as they are as long as their 16-bit
indices have not wrapped.

What a request does is said in terms of the picture that the windows make (`redraw_drawn`), and what becomes of the
requests that are waiting when a window is raised or a tree of windows is changed (`layer_raise`, `layer_change`).
-/

namespace Shipwreck.Gui

open Kernel (maxEvents)
open Input (Driver Post UserEvents)

/-! ## The workers -/

/-- `struct DisplayMsg`. -/
inductive DisplayMsg where
  | redrawScreen
  | redrawMouse
  | redrawWindow (redrawWin : Option Gid)
  | redrawRect (updateRect : Rect)
  deriving DecidableEq, Repr

/-- How far `MOUSE_MOVE` is handled, with the values of `dx` and `dy` so far: what comes next is `int dy = ...`, a
store to `mouse.old_x` or `mouse.old_y`, or `if (mouse.ldrag)`. -/
inductive MoveStage where
  | dy (dx : Int)
  | oldX (dx dy : Int)
  | oldY (dx dy : Int)
  | drag (dx dy : Int)
  deriving DecidableEq, Repr

/-- How far `UserEventWorker::run` is: of the events it has `taken` from the queue, some are `done`. -/
inductive UserStage where
  | waiting
  | handling (taken done : Nat)
  | moving (taken done : Nat) (next : MoveStage)
  deriving DecidableEq, Repr

/-- How far `DisplayWorker::run` is. While it waits, the pointer is on the screen; of the requests it has `taken`,
some are `done`; then it looks at the mouse for the arguments of `get_pixels`, for `bg_x` and `bg_y`, and for the
arguments of `put_pixels`. -/
inductive DisplayStage where
  | waiting
  | drawing (taken done : Nat)
  | getX
  | getY (x : Int)
  | bgX
  | bgY
  | putX
  | putY (x : Int)
  deriving DecidableEq, Repr

/-- The position of the mouse has been read, and is to be read again. -/
def DisplayStage.shows : DisplayStage → Bool
  | .waiting | .drawing _ _ | .getX => false
  | .getY _ | .bgX | .bgY | .putX | .putY _ => true

/-- The mouse, the windows, the queues of both workers with how far these are, and the screen with the pointer on
it. A message keeps its place in a queue until all that were taken with it are done. `refused` says that a request
has found no room in its queue. -/
structure Desk where
  driver : Driver
  userQueue : List Post
  userStage : UserStage
  wm : WindowManager
  dragWindow : Option Gid
  displayQueue : List DisplayMsg
  displayStage : DisplayStage
  refused : Bool
  pointer : MousePointer
  screen : Screen

namespace Desk

/-- `new_display_msg` -/
def newDisplayMsgs (msgs : List DisplayMsg) (s : Desk) : Desk :=
  { s with
    displayQueue := (s.displayQueue ++ msgs).take maxEvents
    refused := s.refused || decide (maxEvents < (s.displayQueue ++ msgs).length) }

/-- The rectangle of the desktop. -/
def frame (s : Desk) : Rect := (s.wm.winIndex desktopGid).windata.rect

section

variable (width height : UInt16) (src : Sources)

/-- `mouse_packet`, with what it posts. -/
def byte (data : UInt8) (tsc : UInt64) (s : Desk) : Desk :=
  let (driver, posted) := Input.mousePacket width.toNat height.toNat data tsc s.driver
  { s with driver, userQueue := (s.userQueue ++ posted).take maxEvents }

/-- `drag_window->move(dx, dy)`, and what is sent to be redrawn. -/
def drag (w : Gid) (dx dy : Int32) (s : Desk) : Option Desk := do
  let win ← move dx dy w s.wm.winIndex
  let rects := Rect.redrawn (s.wm.winIndex w).windata.rect (win w).windata.rect
  return { s with wm := ⟨s.wm.winstack, win⟩ }.newDisplayMsgs (rects.map .redrawRect)

/-- `if (mouse.ldrag)` -/
def dragBy (dx dy : Int) (s : Desk) : Option Desk :=
  match s.dragWindow with
  | some w => if s.driver.mouse.ldrag ∧ w ≠ desktopGid then s.drag w (Int32.ofInt dx) (Int32.ofInt dy) else some s
  | none => some s

/-- The statements of `MOUSE_MOVE` behind `int dx = ...`, one at a time. -/
def mouseMove (taken done : Nat) (s : Desk) : MoveStage → Option Desk
  | .dy dx =>
    some { s with userStage := .moving taken done (.oldX dx (s.driver.mouse.y - s.driver.mouse.oldY)) }
  | .oldX dx dy =>
    some { s with driver.mouse.oldX := s.driver.mouse.x, userStage := .moving taken done (.oldY dx dy) }
  | .oldY dx dy =>
    let next := if dx = 0 ∧ dy = 0 then .handling taken (done + 1) else .moving taken done (.drag dx dy)
    some { s with driver.mouse.oldY := s.driver.mouse.y, userStage := next }
  | .drag dx dy => do
    let s ← { s with userStage := .handling taken (done + 1) }.dragBy dx dy
    return s.newDisplayMsgs [.redrawMouse]

/-- `MOUSE_LEFT_DOWN`; `none` if the window has no top-level window. -/
def mouseLeftDown (x y : Int) (s : Desk) : Option Desk :=
  let winId := s.screen.pick (pixelOffset width (x, y))
  match clicked winId with
  | some gw =>
    if winId ≠ 0 then do
      let root ← (s.wm.winIndex gw).wmRoot
      let msgs := if s.wm.winstack ≠ some root then [.redrawWindow (some root)] else []
      return { s with dragWindow := some root, wm := click gw s.wm }.newDisplayMsgs msgs
    else some { s with dragWindow := none }
  | none => some { s with dragWindow := none }

/-- A step of `UserEventWorker::run`. -/
def userEvent (s : Desk) : Option Desk :=
  match s.userStage with
  | .waiting =>
    if s.userQueue = [] then some s
    else some { s with userStage := .handling (min 10 s.userQueue.length) 0 }
  | .handling taken done =>
    match (s.userQueue.take taken)[done]? with
    | some (event, e) =>
      let next := { s with userStage := .handling taken (done + 1) }
      match event with
      | .mouseMove =>
        some { s with userStage := .moving taken done (.dy (s.driver.mouse.x - s.driver.mouse.oldX)) }
      | .mouseLeftDown => next.mouseLeftDown width e.x.toInt e.y.toInt
      | .mouseLeftUp => some { next with dragWindow := none }
      | _ => some next
    | none => some { s with userQueue := s.userQueue.drop taken, userStage := .waiting }
  | .moving taken done next => s.mouseMove taken done next

/-- The body of the loop of `DisplayWorker::run`. -/
def redraw (wm : WindowManager) (msg : DisplayMsg) (screen : Screen) : Option Screen :=
  let clip := (wm.winIndex desktopGid).windata.rect
  match msg with
  | .redrawScreen => Screen.guiRedrawRect width height src wm.winIndex 257 clip wm.winstack screen
  | .redrawMouse => some screen
  | .redrawWindow none => some screen
  | .redrawWindow (some w) =>
    match (wm.winIndex w).windata.rect.intersect clip with
    | some clip => Screen.guiRedrawRect width height src wm.winIndex 257 clip (some w) screen
    | none => some screen
  | .redrawRect rect =>
    match rect.intersect clip with
    | some clip => Screen.guiRedrawRect width height src wm.winIndex 257 clip wm.winstack screen
    | none => some screen

/-- The screen without the pointer. -/
def bare (s : Desk) : Screen :=
  match s.displayStage with
  | .waiting => { s.screen with vga := hidePointer width s.pointer s.screen.vga }
  | _ => s.screen

/-- A step of `DisplayWorker::run`, when its deadline has passed. -/
def display (s : Desk) : Option Desk :=
  match s.displayStage with
  | .waiting =>
    if s.displayQueue = [] then some s
    else some { s with screen := s.bare width, displayStage := .drawing (min 10 s.displayQueue.length) 0 }
  | .drawing taken done =>
    match (s.displayQueue.take taken)[done]? with
    | some msg => do
      let screen ← redraw width height src s.wm msg s.screen
      return { s with screen, displayStage := .drawing taken (done + 1) }
    | none => some { s with displayQueue := s.displayQueue.drop taken, displayStage := .getX }
  | .getX => some { s with displayStage := .getY s.driver.mouse.x }
  | .getY x =>
    let (background, vga) := getPixels width x s.driver.mouse.y pointerWidth pointerHeight s.pointer.background
      s.screen.vga
    some { s with pointer.background := background, screen.vga := vga, displayStage := .bgX }
  | .bgX => some { s with pointer.bgX := s.driver.mouse.x, displayStage := .bgY }
  | .bgY => some { s with pointer.bgY := s.driver.mouse.y, displayStage := .putX }
  | .putX => some { s with displayStage := .putY s.driver.mouse.x }
  | .putY x =>
    let vga := putPixels width x s.driver.mouse.y pointerWidth pointerHeight s.pointer.image s.screen.vga
    some { s with screen.vga := vga, displayStage := .waiting }

/-- The requests that are still to be drawn. -/
def pending (s : Desk) : List DisplayMsg :=
  match s.displayStage with
  | .drawing _ done => s.displayQueue.drop done
  | _ => s.displayQueue

end

end Desk

/-- A byte comes from the mouse; a worker takes its next step; a process asks for something to be redrawn; an
interrupt handler writes to the frame buffer. -/
inductive DeskOp where
  | byte (data : UInt8) (tsc : UInt64)
  | userEvent
  | display
  | redraw (rect : Rect)
  | store (k : UInt32) (c : UInt16)

section

variable (width height : UInt16) (src : Sources) (overlay : Set (Int × Int))

/-- A window that is dragged keeps its edges in order, and all windows can still be drawn. -/
def Desk.Steady (s s' : Desk) : Prop :=
  (∀ w, s.dragWindow = some w →
    (s.wm.winIndex w).windata.rect.Ordered ∧ (s'.wm.winIndex w).windata.rect.Ordered) ∧
  ∀ u, (s.wm.winIndex u).Ready src → (s'.wm.winIndex u).Ready src

/-- What is asked of a step. A drag is steady. The pointer is shown on the screen only, and over no pixel of its
transparent colour, and meanwhile the mouse stands still. Interrupt handlers write only to the pixels of `overlay`. -/
def Desk.Smooth (s : Desk) : DeskOp → Prop
  | .byte data tsc => s.displayStage.shows →
    (s.byte width height data tsc).driver.mouse.x = s.driver.mouse.x ∧
      (s.byte width height data tsc).driver.mouse.y = s.driver.mouse.y
  | .userEvent =>
    match s.userStage with
    | .moving _ _ (.drag _ _) => ∀ s', s.userEvent width = some s' → s.Steady src s'
    | _ => True
  | .display =>
    match s.displayStage with
    | .getY x => ∀ i ∈ swept pointerWidth pointerHeight, place x s.driver.mouse.y i ∈ Gui.screen width height ∧
      (place x s.driver.mouse.y i ∉ overlay →
        s.screen.vga.pixels (pixelOffset width (place x s.driver.mouse.y i)) = 1 → s.pointer.image i = 1)
    | _ => True
  | .redraw _ => True
  | .store k _ => ∃ p ∈ overlay, p ∈ Gui.screen width height ∧ pixelOffset width p = k

/-- What is true in all states. -/
structure Desk.Sound (s : Desk) (forest : Forest) : Prop where
  size : width.toNat ≤ 2048 ∧ height.toNat ≤ 2048
  arranged : Arranged s.wm forest
  desktop : desktopGid ∈ forest.stack
  frame : s.frame.OnScreen width height
  ready : ∀ u ∈ forest.windows, (s.wm.winIndex u).Ready src
  numbered : ∀ u ∈ forest.windows, clicked (s.wm.winIndex u).gid = some u
  picked : ∀ p ∈ Gui.screen width height, ∃ u ∈ forest.windows,
    s.screen.pick (pixelOffset width p) = (s.wm.winIndex u).gid
  dragged : ∀ w, s.dragWindow = some w → w ∈ forest.stack
  queued : ∀ w, .redrawWindow (some w) ∈ s.displayQueue → w ∈ forest.stack
  mouse : s.driver.mouse.Sane width.toNat height.toNat
  events : ∀ post ∈ s.userQueue, post.2.OnScreen width.toNat height.toNat
  square : s.displayStage = .waiting → ∀ i ∈ swept pointerWidth pointerHeight,
    place s.pointer.bgX s.pointer.bgY i ∈ Gui.screen width height

/-- The desk, from the first request to redraw the screen on. -/
def desk : Machine Desk DeskOp where
  init s := (∃ forest, s.Sound width height src forest) ∧ s.displayQueue = [.redrawScreen] ∧
    s.userStage = .waiting ∧ s.displayStage = .waiting
  step s
    | .byte data tsc => some (s.byte width height data tsc)
    | .userEvent => s.userEvent width
    | .display => s.display width height src
    | .redraw rect => some (s.newDisplayMsgs [.redrawRect rect])
    | .store k c => some { s with screen.vga.pixels := Function.update s.screen.vga.pixels k c }

/-! ## What is left to do -/

/-- What a request makes of a pixel, if the windows are as they are now. -/
def DisplayMsg.layer (win : Windows) (forest : Forest) : DisplayMsg → Layer
  | .redrawScreen => forest.composite width src win none
  | .redrawMouse => fun _ px => px
  | .redrawWindow none => fun _ px => px
  | .redrawWindow (some w) => fun p px =>
    if p ∈ (win w).windata.rect.pixels then (forest.downFrom w).composite width src win none p px else px
  | .redrawRect rect => fun p px => if p ∈ rect.pixels then forest.composite width src win none p px else px

namespace Desk

/-- The requests that are waiting make up for all that the screen does not show. -/
def Current (s : Desk) (forest : Forest) : Prop :=
  Repairs (s.frame.pixels \ overlay) (forest.composite width src s.wm.winIndex none)
    (s.pending.map fun msg => msg.layer width src s.wm.winIndex forest)
    fun p => (s.bare width).view (pixelOffset width p)

/-- The requests that have been taken are in the queue. -/
def Taken (s : Desk) : Prop :=
  match s.displayStage with
  | .drawing taken done => done ≤ taken ∧ taken ≤ s.displayQueue.length
  | _ => True

/-- The pixels at the mouse have been saved, and will come back. -/
def Saved (s : Desk) : Prop := ∀ i ∈ swept pointerWidth pointerHeight,
  place s.driver.mouse.x s.driver.mouse.y i ∈ Gui.screen width height ∧
  (place s.driver.mouse.x s.driver.mouse.y i ∉ overlay →
    s.pointer.background i = s.screen.vga.pixels (pixelOffset width (place s.driver.mouse.x s.driver.mouse.y i)) ∧
    (s.pointer.background i = 1 → s.pointer.image i = 1))

/-- What has been read of the mouse is still so. -/
def Aimed (s : Desk) : Prop :=
  match s.displayStage with
  | .waiting | .drawing _ _ | .getX => True
  | .getY x => x = s.driver.mouse.x
  | .bgX => s.Saved width height overlay
  | .bgY => s.Saved width height overlay ∧ s.pointer.bgX = s.driver.mouse.x
  | .putX => s.Saved width height overlay ∧ s.pointer.bgX = s.driver.mouse.x ∧ s.pointer.bgY = s.driver.mouse.y
  | .putY x => s.Saved width height overlay ∧ s.pointer.bgX = s.driver.mouse.x ∧
    s.pointer.bgY = s.driver.mouse.y ∧ x = s.driver.mouse.x

end Desk

end

/-- The number of a window is its index. -/
theorem clicked_eq (winId : UInt8) : clicked winId = some ⟨winId.toNat, winId.toNat_lt⟩ := by
  have hlt : winId.toNat < 256 := winId.toNat_lt
  have hint : (Int32.ofNat winId.toNat).toInt = winId.toNat := Int32.toInt_ofNat_of_lt (by omega)
  rw [clicked, getGUIWindow]
  simp only [hint]
  exact dif_pos ⟨by omega, by omega⟩

section

variable {width height : UInt16} {ptr : MousePointer} {vga vga' : Vga} {k : UInt32}

/-- Beside its square the pointer hides nothing. -/
theorem hidePointer_outside
    (hsquare : ∀ i ∈ swept pointerWidth pointerHeight, place ptr.bgX ptr.bgY i ∈ screen width height)
    (hk : ∀ i ∈ swept pointerWidth pointerHeight, pixelOffset width (place ptr.bgX ptr.bgY i) ≠ k) :
    (hidePointer width ptr vga).pixels k = vga.pixels k :=
  (putPixels_painted ptr.background vga hsquare).outside k hk

/-- What the pointer hides at a pixel depends on what there is now only if its background is transparent. -/
theorem hidePointer_congr
    (hsquare : ∀ i ∈ swept pointerWidth pointerHeight, place ptr.bgX ptr.bgY i ∈ screen width height)
    (h : vga.pixels k = vga'.pixels k) :
    (hidePointer width ptr vga).pixels k = (hidePointer width ptr vga').pixels k := by
  by_cases hk : ∃ i ∈ swept pointerWidth pointerHeight, pixelOffset width (place ptr.bgX ptr.bgY i) = k
  · obtain ⟨i, hi, rfl⟩ := hk
    rw [hidePointer, hidePointer, (putPixels_painted ptr.background vga hsquare).inside i hi,
      (putPixels_painted ptr.background vga' hsquare).inside i hi, h]
  · have hout : ∀ i ∈ swept pointerWidth pointerHeight, pixelOffset width (place ptr.bgX ptr.bgY i) ≠ k :=
      fun i hi heq => hk ⟨i, hi, heq⟩
    rw [hidePointer_outside hsquare hout, hidePointer_outside hsquare hout, h]

/-- Hiding the pointer brings back what has been saved. -/
theorem hidePointer_putPixels {overlay : Set (Int × Int)} {p : Int × Int}
    (hsquare : ∀ i ∈ swept pointerWidth pointerHeight, place ptr.bgX ptr.bgY i ∈ screen width height)
    (hsaved : ∀ i ∈ swept pointerWidth pointerHeight, place ptr.bgX ptr.bgY i ∉ overlay →
      ptr.background i = vga.pixels (pixelOffset width (place ptr.bgX ptr.bgY i)) ∧
        (ptr.background i = 1 → ptr.image i = 1))
    (hp : p ∈ screen width height) (hout : p ∉ overlay) :
    (hidePointer width ptr (putPixels width ptr.bgX ptr.bgY pointerWidth pointerHeight ptr.image vga)).pixels
      (pixelOffset width p) = vga.pixels (pixelOffset width p) := by
  have himage := putPixels_painted ptr.image vga hsquare
  have hback := putPixels_painted ptr.background
    (putPixels width ptr.bgX ptr.bgY pointerWidth pointerHeight ptr.image vga) hsquare
  by_cases hin : ∃ i ∈ swept pointerWidth pointerHeight, place ptr.bgX ptr.bgY i = p
  · obtain ⟨i, hi, rfl⟩ := hin
    obtain ⟨hsame, hclear⟩ := hsaved i hi hout
    refine (hback.inside i hi).trans ?_
    rw [Image.opaquePixel]
    split
    case isTrue hone =>
      -- neither the image nor the background is put there
      rw [Option.getD_none, himage.inside i hi, Image.opaquePixel, if_pos (hclear hone), Option.getD_none]
    case isFalse => exact hsame
  · have hk : ∀ i ∈ swept pointerWidth pointerHeight,
        pixelOffset width (place ptr.bgX ptr.bgY i) ≠ pixelOffset width p :=
      fun i hi heq => hin ⟨i, hi, pixelOffset_injOn (hsquare i hi) hp heq⟩
    exact (hback.outside _ hk).trans (himage.outside _ hk)

end

/-! ## Drawing -/

section

variable {width height : UInt16} {src : Sources} {wm : WindowManager} {forest : Forest} {msg : DisplayMsg}
  {msgs : List DisplayMsg} {top : Option Gid} {F : Layer}

/-- A part of the desktop. -/
theorem drawn_clip (hframe : (wm.winIndex desktopGid).windata.rect.OnScreen width height)
    (hshows : Screen.Shows width height src wm.winIndex 257 top F) (rect : Rect) (s : Screen) :
    ∃ s', (match rect.intersect (wm.winIndex desktopGid).windata.rect with
      | some clip => Screen.guiRedrawRect width height src wm.winIndex 257 clip top s
      | none => some s) = some s' ∧
    Screen.Drawn width (wm.winIndex desktopGid).windata.rect.pixels
      (fun p px => if p ∈ rect.pixels then F p px else px) s s' := by
  cases hmeet : rect.intersect (wm.winIndex desktopGid).windata.rect with
  | none =>
    refine ⟨s, rfl, DrawnOn.refl fun p hp px => ?_⟩
    rw [if_neg (Rect.intersect_eq_none hmeet hp)]
  | some clip =>
    obtain ⟨-, -, hclip, -⟩ := hframe.pieces hmeet
    obtain ⟨s', hrun, hdrawn⟩ := hshows 257 (Nat.le_refl _) clip s hclip
    have hsub : clip.pixels ⊆ (wm.winIndex desktopGid).windata.rect.pixels :=
      fun p hp => (Rect.mem_clip_iff hmeet p).mpr (.inl (.inl (.inr hp)))
    refine ⟨s', hrun, (hdrawn.congr fun p hp px => ?_).mono pixelOffset_injOn hframe.subset hsub ?_⟩
    · rw [if_pos ((Rect.mem_sub_iff hmeet (hsub hp)).mp hp)]
    · intro p hp hout px
      rw [if_neg fun hin => hout ((Rect.mem_sub_iff hmeet hp).mpr hin)]

/-- **A request does what it is to do.** -/
theorem redraw_drawn (h : Arranged wm forest) (hready : ∀ u ∈ forest.windows, (wm.winIndex u).Ready src)
    (hframe : (wm.winIndex desktopGid).windata.rect.OnScreen width height)
    (hqueued : ∀ w, msg = .redrawWindow (some w) → w ∈ forest.stack) (s : Screen) :
    ∃ s', Desk.redraw width height src wm msg s = some s' ∧
      Screen.Drawn width (wm.winIndex desktopGid).windata.rect.pixels
        (msg.layer width src wm.winIndex forest) s s' := by
  have hlength : forest.windows.length ≤ 256 := by simpa using h.once.length_le_card
  have hshows : Screen.Shows width height src wm.winIndex 257 wm.winstack
      (forest.composite width src wm.winIndex none) :=
    (Screen.guiRedrawRect_composes h.linked hready).mono (by omega)
  cases msg with
  | redrawScreen => exact hshows 257 (Nat.le_refl _) _ s hframe
  | redrawMouse => exact ⟨s, rfl, DrawnOn.refl fun _ _ _ => rfl⟩
  | redrawRect rect => exact drawn_clip hframe hshows rect s
  | redrawWindow redrawWin =>
    cases redrawWin with
    | none => exact ⟨s, rfl, DrawnOn.refl fun _ _ _ => rfl⟩
    | some w =>
      have hdown := (forest.downFrom_windows w).length_le
      have hshows' : Screen.Shows width height src wm.winIndex 257 (some w)
          ((forest.downFrom w).composite width src wm.winIndex none) :=
        (Screen.guiRedrawRect_composes (h.linked.downFrom (hqueued w rfl))
          fun u hu => hready u ((forest.downFrom_windows w).mem hu)).mono (by omega)
      exact drawn_clip hframe hshows' _ s

/-- The number that a request leaves at a pixel. -/
theorem layer_number (win : Windows) (forest : Forest) (msg : DisplayMsg) (p : Int × Int) (px : Pixel) :
    (msg.layer width src win forest p px).1 = px.1 ∨
      ∃ u ∈ forest.windows, (msg.layer width src win forest p px).1 = (win u).gid := by
  cases msg with
  | redrawScreen => exact forest.composite_number none p px
  | redrawMouse => exact .inl rfl
  | redrawRect rect =>
    simp only [DisplayMsg.layer]
    split
    · exact forest.composite_number none p px
    · exact .inl rfl
  | redrawWindow redrawWin =>
    cases redrawWin with
    | none => exact .inl rfl
    | some w =>
      simp only [DisplayMsg.layer]
      split
      · exact ((forest.downFrom w).composite_number none p px).imp_right fun ⟨u, hu, heq⟩ =>
          ⟨u, (forest.downFrom_windows w).mem hu, heq⟩
      · exact .inl rfl

end

/-! ## The requests that are waiting -/

section

variable {width : UInt16} {src : Sources} {win win' : Windows} {forest : Forest} {msg : DisplayMsg}
  {msgs : List DisplayMsg} {w : Gid} {p : Int × Int}

/-- **Raising a window** changes no request beside it. -/
theorem layer_raise (hlook : ∀ u, (win' u).look = (win u).look) (hw : w ∈ forest.stack)
    (hp : p ∉ (win w).windata.rect.pixels) (px : Pixel) :
    msg.layer width src win' (forest.raise w) p px = msg.layer width src win forest p px := by
  have hrect (u : Gid) : (win' u).windata.rect = (win u).windata.rect := congrArg Prod.fst (hlook u)
  have hpicture : (forest.raise w).composite width src win' none p px =
      forest.composite width src win none p px := by
    rw [Forest.composite_look fun u _ => hlook u, Forest.composite_raise hp]
  cases msg with
  | redrawScreen => exact hpicture
  | redrawMouse => rfl
  | redrawRect rect => simp only [DisplayMsg.layer, hpicture]
  | redrawWindow redrawWin =>
    cases redrawWin with
    | none => rfl
    | some v =>
      simp only [DisplayMsg.layer, hrect]
      by_cases hvw : v = w
      · rw [hvw, if_neg hp, if_neg hp]
      · rw [Forest.composite_look fun u _ => hlook u, Forest.composite_downFrom_raise hvw hw hp]

/-- **Changing a tree** changes no request beside it. -/
theorem layer_change (hlook : ∀ u ∈ (forest.remove w).windows, (win' u).look = (win u).look)
    (hqueued : ∀ v, msg = .redrawWindow (some v) → v ∈ forest.stack)
    (hp : p ∉ (win w).windata.rect.pixels) (hp' : p ∉ (win' w).windata.rect.pixels) (px : Pixel) :
    msg.layer width src win' forest p px = msg.layer width src win forest p px := by
  have hpicture : forest.composite width src win' none p px = forest.composite width src win none p px :=
    Forest.composite_change hlook hp hp' px
  cases msg with
  | redrawScreen => exact hpicture
  | redrawMouse => rfl
  | redrawRect rect => simp only [DisplayMsg.layer, hpicture]
  | redrawWindow redrawWin =>
    cases redrawWin with
    | none => rfl
    | some v =>
      simp only [DisplayMsg.layer]
      by_cases hvw : v = w
      · rw [hvw, if_neg hp, if_neg hp']
      · have hrect : (win' v).windata.rect = (win v).windata.rect :=
          congrArg Prod.fst (hlook v (Forest.mem_remove (hqueued v rfl) hvw))
        rw [hrect, Forest.composite_downFrom_change hlook hvw hp hp']

/-- A request to draw a rectangle, or the window on top, draws what is to be seen there. -/
theorem layer_redrawRect (rect : Rect) :
    (∀ px, (DisplayMsg.redrawRect rect).layer width src win forest p px = px) ∧ p ∉ rect.pixels ∨
      (∀ px, (DisplayMsg.redrawRect rect).layer width src win forest p px =
        forest.composite width src win none p px) ∧ p ∈ rect.pixels := by
  by_cases hp : p ∈ rect.pixels
  · exact .inr ⟨fun px => if_pos hp, hp⟩
  · exact .inl ⟨fun px => if_neg hp, hp⟩

theorem layer_redrawTop (hw : w ∈ forest.stack) :
    (∀ px, (DisplayMsg.redrawWindow (some w)).layer width src win (forest.raise w) p px = px) ∧
        p ∉ (win w).windata.rect.pixels ∨
      (∀ px, (DisplayMsg.redrawWindow (some w)).layer width src win (forest.raise w) p px =
        (forest.raise w).composite width src win none p px) ∧ p ∈ (win w).windata.rect.pixels := by
  by_cases hp : p ∈ (win w).windata.rect.pixels
  · refine .inr ⟨fun px => ?_, hp⟩
    simp only [DisplayMsg.layer, if_pos hp]
    rw [Forest.raise, Forest.downFrom_self hw]
  · exact .inl ⟨fun px => if_neg hp, hp⟩

end

end Shipwreck.Gui
