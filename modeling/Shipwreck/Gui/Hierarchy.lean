import Shipwreck.Gui.Window
import Shipwreck.Lib.Chain
import Shipwreck.Lib.Transition

/-!
# Stacks of windows and the hierarchy

`GUIWindowStack`, `GUIWindowFrame` and `gui_update_proc` of `gui.cpp`. A process keeps its windows in
its environment, which it shares with the window manager, and marks those it has changed;
`gui_update_proc` copies these to `win_index`, takes each one out of the frame it was in and puts it
into the frame it belongs to now. A second loop tells every window its top-level window, and puts the
top-level windows that have no `next` into `winstack`.

`none` is a pointer that leads nowhere, or a recursion that has not ended. A word that a user has
stored where a frame has the head of its children is no pointer unless it is null.
-/

namespace Shipwreck.Gui

/-- What `win_index` holds. -/
abbrev Windows := Gid → GUIWindow

namespace Windows

variable (win : Windows)

def modify (w : Gid) (f : GUIWindow → GUIWindow) : Windows := Function.update win w (f (win w))

/-- `w->next = v` -/
def setNext (w : Gid) (v : Option Gid) : Windows := win.modify w fun gw => { gw with next := v }

/-- `w->prev = v` -/
def setPrev (w : Gid) (v : Option Gid) : Windows := win.modify w fun gw => { gw with prev := v }

/-- `if (w) w->next = v;` -/
def setNextOf : Option Gid → Option Gid → Windows
  | none, _ => win
  | some w, v => win.setNext w v

/-- `if (w) w->prev = v;` -/
def setPrevOf : Option Gid → Option Gid → Windows
  | none, _ => win
  | some w, v => win.setPrev w v

end Windows

/-! ## `GUIWindowStack` -/

/-- The loop of `insert`: the window to insert behind, looking at `n` windows at most. -/
def insertBehind (win : Windows) (zindex : Int32) : Nat → Gid → Gid
  | 0, ptr => ptr
  | n + 1, ptr =>
    match (win ptr).next with
    | none => ptr
    | some q => if (win q).windata.zindex < zindex then ptr else insertBehind win zindex n q

/-- `insert`: the top of the stack, and the windows. -/
def insert (top : Option Gid) (newWin : Gid) (win : Windows) : Option Gid × Windows :=
  match top with
  | none => (some newWin, (win.setPrev newWin none).setNext newWin none)
  | some t =>
    if (win t).windata.zindex < (win newWin).windata.zindex then
      (some newWin, ((win.setPrev t (some newWin)).setPrev newWin none).setNext newWin (some t))
    else
      let ptr := insertBehind win (win newWin).windata.zindex 256 t
      let win := win.setPrevOf (win ptr).next (some newWin)
      let win := win.setNext newWin (win ptr).next
      let win := win.setPrev newWin (some ptr)
      (some t, win.setNext ptr (some newWin))

/-- `push`. -/
def push (top : Option Gid) (newWin : Gid) (win : Windows) : Option Gid × Windows :=
  match top with
  | none => (some newWin, (win.setPrev newWin none).setNext newWin none)
  | some t =>
    (some newWin, ((win.setNext newWin (some t)).setPrev newWin none).setPrev t (some newWin))

/-- `detach`. -/
def detach (top : Option Gid) (w : Gid) (win : Windows) : Option Gid × Windows :=
  let top := if top = some w then (win w).next else top
  let win := win.setPrevOf (win w).next (win w).prev
  let win := win.setNextOf (win w).prev (win w).next
  (top, (win.setNext w none).setPrev w none)

/-! ## `GUIWindowFrame` -/

/-- A loop over the children of a frame, looking at `n` of them at most. -/
def eachFrom (act : Gid → Windows → Option Windows) : Nat → Option Gid → Windows → Option Windows
  | _, none, win => some win
  | 0, some _, win => some win
  | n + 1, some w, win => do
    let win ← act w win
    eachFrom act n (win w).next win

/-- `move` and `update_root`: a window, and if it is a frame all its children, `levels` deep. -/
def visit (act : GUIWindow → GUIWindow) : Nat → Gid → Windows → Option Windows
  | 0, _, _ => none
  | levels + 1, w, win =>
    let win := win.modify w act
    if (win w).kind = .frame then do
      let top ← (win w).children
      eachFrom (visit act levels) 256 top win
    else some win

/-- `Window::move`. -/
def Window.move (window : Window) (dx dy : Int32) : Window :=
  { window with
    needsUpdate := true
    rect := ⟨window.rect.l + dx, window.rect.t + dy, window.rect.r + dx, window.rect.b + dy⟩ }

namespace GUIWindow

/-- `GUIWindow::move`. -/
def move (gw : GUIWindow) (dx dy : Int32) : GUIWindow :=
  { gw with windata := gw.windata.move dx dy }

/-- `GUIWindow::update_root`. -/
def updateRoot (gw : GUIWindow) (newRoot : Option Gid) : GUIWindow := { gw with wmRoot := newRoot }

/-- `gw->parent = parent` -/
def setParent (gw : GUIWindow) (parent : Option Gid) : GUIWindow := { gw with parent }

/-- `gw->windata = windata` -/
def setWindata (gw : GUIWindow) (windata : Window) : GUIWindow := { gw with windata }

end GUIWindow

/-- `move`, with the overriding function of frames. -/
def move (dx dy : Int32) (w : Gid) (win : Windows) : Option Windows :=
  visit (·.move dx dy) 256 w win

/-- `update_root`, with the overriding function of frames. -/
def updateRoot (newRoot : Option Gid) (w : Gid) (win : Windows) : Option Windows :=
  visit (·.updateRoot newRoot) 256 w win

/-- `children()->top = top` -/
def GUIWindow.setChildren (gw : GUIWindow) (top : Option Gid) : GUIWindow :=
  { gw with windata := { gw.windata with displayData := .ofTop top } }

/-- `frame->addChild(child)`. -/
def addChild (frame child : Gid) (win : Windows) : Option Windows :=
  if child = frame then some win
  else do
    let top ← (win frame).children
    let (top, win) := insert top child win
    let win := win.modify frame (·.setChildren top)
    let win := win.modify child (·.setParent (some frame))
    move (win frame).windata.rect.l (win frame).windata.rect.t child win

/-- `frame->removeChild(child)`. -/
def removeChild (frame child : Gid) (win : Windows) : Option Windows :=
  if (win child).parent ≠ some frame then some win
  else
    let win := match (win frame).children with
      | some top =>
        let (top, win) := detach top child win
        win.modify frame (·.setChildren top)
      | none => (detach none child win).2
    let win := win.modify child (·.setParent none)
    move (-(win frame).windata.rect.l) (-(win frame).windata.rect.t) child win

/-! ## The environment of a process -/

/-- A slot of `windows[]`; the union is a word. -/
structure UserWindow where
  winclass : WindowClass
  rect : Rect
  word : UInt32
  zindex : Int32
  id : Int32
  parentId : Int32
  needsUpdate : Bool
  deriving DecidableEq, Repr

/-- `struct Environment`; `offset` is `env - userEnv`. -/
structure Environment where
  windows : Fin 16 → UserWindow
  offset : UInt32

/-- What `gui_update_proc` copies of a slot: `needs_update` has just been cleared, and the address of
a text buffer is adjusted. -/
def UserWindow.windata (user : UserWindow) (offset : UInt32) : Window where
  winclass := user.winclass
  rect := user.rect
  displayData := .bits (if user.winclass = .textBox then user.word + offset else user.word)
  zindex := user.zindex
  id := user.id
  parentId := user.parentId
  needsUpdate := false

/-- Which object the `switch` makes; `none` is its default. -/
def WindowClass.kind? : WindowClass → Option Kind
  | .window => some .window
  | .windowFrame => some .frame
  | .textBox => some .textBox
  | .none | .other _ => Option.none

/-- `new (gw) GUIWindow()` and the like; the union is left as it is. -/
def GUIWindow.construct (gw : GUIWindow) (kind : Kind) : GUIWindow where
  kind := kind
  windata := ⟨.none, ⟨0, 0, 0, 0⟩, gw.windata.displayData, 0, 0, -1, false⟩
  pid := 0
  next := none
  prev := none
  parent := none
  wmRoot := none

/-- `i + (pid << 4)`. -/
def gidOf (pid i : Fin 16) : Gid := ⟨16 * pid.val + i.val, by omega⟩

/-- `getGUIWindow(parent_id + (pid << 4))`. -/
def parentGid (pid : Fin 16) (parentId : Int32) : Option Gid :=
  let index := (parentId + Int32.ofNat (16 * pid.val)).toInt
  if h : 0 ≤ index ∧ index < 256 then some ⟨index.toNat, by omega⟩ else none

/-! ## `gui_update_proc` -/

section

variable (pid : Fin 16) (env : Environment)

/-- "Class updated, creating new object". `none`: the class is none of them. -/
def recreate (i : Fin 16) (win : Windows) : Option Windows :=
  let gw := gidOf pid i
  let winclass := (env.windows i).winclass
  if winclass = (win gw).windata.winclass then some win
  else winclass.kind?.map fun kind =>
    win.modify gw fun old => { old.construct kind with pid := Int32.ofNat pid.val }

/-- "Detach from current parent, will re-add later". -/
def leaveParent (gw : Gid) (win : Windows) : Option Windows :=
  match (win gw).parent with
  | some parent => removeChild parent gw win
  | none => some win

/-- The rest of "fix hierarchy", and whether the function returns here. -/
def enterParent (i : Fin 16) (win : Windows) : Option (Bool × Windows) := do
  let gw := gidOf pid i
  let user := env.windows i
  if user.parentId ≠ -1 then do
    let newParent ← parentGid pid user.parentId
    if (win newParent).windata.winclass ≠ .windowFrame then return (true, win)
    let win ← addChild newParent gw win
    return (false, win)
  else if (win gw).windata.zindex ≠ user.zindex ∧ (win gw).parent ≠ none then do
    let parent ← (win gw).parent
    let win ← removeChild parent gw win
    let win ← addChild parent gw win
    return (false, win)
  else return (false, win)

/-- The body of the first loop, and whether the function returns here. -/
def updateSlot (i : Fin 16) (win : Windows) : Option (Bool × Windows) :=
  let user := env.windows i
  if user.winclass = .none ∨ user.needsUpdate = false then some (false, win)
  else
    match recreate pid env i win with
    | none => some (false, win)
    | some win =>
      let win := win.modify (gidOf pid i) (·.setWindata (user.windata env.offset))
      (leaveParent (gidOf pid i) win).bind (enterParent pid env i)

/-- The first loop. -/
def updateSlots : List (Fin 16) → Windows → Option (Bool × Windows)
  | [], win => some (false, win)
  | i :: is, win => do
    let (returned, win) ← updateSlot pid env i win
    if returned then return (true, win)
    updateSlots is win

/-- The body of the second loop. -/
def rootSlot (i : Fin 16) (wm : WindowManager) : Option WindowManager :=
  let gw := gidOf pid i
  if (wm.winIndex gw).windata.winclass = .none ∨ (wm.winIndex gw).parent ≠ none then some wm
  else do
    let win ← updateRoot (some gw) gw wm.winIndex
    match (win gw).wmRoot with
    | some root =>
      if gw ≠ desktopGid ∧ (win gw).next = none then
        let (top, win) := push wm.winstack root win
        return ⟨top, win⟩
      else return { wm with winIndex := win }
    | none => return { wm with winIndex := win }

/-- The second loop. -/
def rootSlots : List (Fin 16) → WindowManager → Option WindowManager
  | [], wm => some wm
  | i :: is, wm => (rootSlot pid i wm).bind (rootSlots is)

/-- `gui_update_proc`. -/
def guiUpdateProc (wm : WindowManager) : Option WindowManager := do
  let (returned, win) ← updateSlots pid env (List.finRange 16) wm.winIndex
  let wm := { wm with winIndex := win }
  if returned then return wm
  rootSlots pid (List.finRange 16) wm

end

/-- `MOUSE_LEFT_DOWN` on the window `w`: its top-level window comes to the top. -/
def click (w : Gid) (wm : WindowManager) : WindowManager :=
  match (wm.winIndex w).wmRoot with
  | some root =>
    if w ≠ desktopGid ∧ wm.winstack ≠ some root then
      let (top, win) := detach wm.winstack root wm.winIndex
      let (top, win) := push top root win
      ⟨top, win⟩
    else wm
  | none => wm

end Shipwreck.Gui
