import Mathlib.Algebra.GroupWithZero.Nat
import Mathlib.Data.Fintype.Card
import Mathlib.Logic.Function.Basic

/-!
# Windows

The data of `gui/objects.h`, `gui/shapes.h` and `gui.h`. The window manager keeps one `GUIWindow` for
each slot of each process in the table `win_index`, and all its pointers to windows are pointers into
this table, so that a window is named by its index. Windows are threaded into stacks, lists from the
top of the z-order to the bottom, through their `next` and `prev` fields: `winstack` holds the top
level, and each frame holds a stack of children.

The head of a frame's children shares its storage with the colour of a plain window and with the
text buffer of a text box (`DisplayData`).
-/

namespace Shipwreck.Gui

/-- An index of `win_index`. -/
abbrev Gid := Fin 256

/-- The index of the desktop. -/
def desktopGid : Gid := ⟨0, Nat.zero_lt_succ 255⟩

/-- There is a window 0. -/
theorem gid_neZero : NeZero 256 := ⟨by decide⟩

/-- `enum class WindowClass`; a slot in user memory can hold any other value too. -/
inductive WindowClass where
  | none
  | window
  | windowFrame
  | textBox
  | other (value : Int32)
  deriving DecidableEq, Repr

/-- `struct Rect`. -/
structure Rect where
  l : Int32
  t : Int32
  r : Int32
  b : Int32
  deriving DecidableEq, Repr

/-- The union `color` / `display_data`: a word that came from a user, or a pointer that the window
manager stored. -/
inductive DisplayData where
  | bits (word : UInt32)
  | window (w : Gid)
  deriving DecidableEq, Repr

/-- The union read as the stack of children of a frame. `none`: the word is no pointer the window
manager has made. -/
def DisplayData.top : DisplayData → Option (Option Gid)
  | bits word => if word = 0 then some none else none
  | window w => some (some w)

/-- The union holding the head of a stack. -/
def DisplayData.ofTop : Option Gid → DisplayData
  | none => bits 0
  | some w => window w

@[simp] theorem DisplayData.top_ofTop (top : Option Gid) : (ofTop top).top = some top := by
  cases top with
  | none => rfl
  | some w => rfl

/-- `struct Window`, without what only `gui_redraw_proc` reads. -/
structure Window where
  winclass : WindowClass
  rect : Rect
  displayData : DisplayData
  zindex : Int32
  id : Int32
  parentId : Int32
  needsUpdate : Bool
  deriving DecidableEq, Repr

/-- Which virtual functions a window has. -/
inductive Kind where
  | window
  | frame
  | textBox
  | desktop
  deriving DecidableEq, Repr

/-- `struct GUIWindow` and the classes derived from it. -/
structure GUIWindow where
  kind : Kind
  windata : Window
  pid : Int32
  next : Option Gid
  prev : Option Gid
  parent : Option Gid
  wmRoot : Option Gid
  deriving DecidableEq, Repr

/-- `GUIWindowFrame::children()->top`. -/
def GUIWindow.children (gw : GUIWindow) : Option (Option Gid) := gw.windata.displayData.top

/-- `struct WindowManager`; `winstack` is the top of the stack. -/
structure WindowManager where
  winstack : Option Gid
  winIndex : Gid → GUIWindow

end Shipwreck.Gui
