import Shipwreck.Gui.Hierarchy
import Shipwreck.Lib.DList

/-!
# What the operations on stacks do

`insert`, `push` and `detach` only store into `next` and `prev`. What they make of these fields is
said in the terms of the doubly linked lists: `Attached` and `Detached` are what `Threaded.attach` and
`Threaded.detach` ask for.
-/

namespace Shipwreck.Gui

namespace Windows

variable {win : Windows} {w u : Gid} {v : Option Gid} {f : GUIWindow → GUIWindow}

@[simp] theorem modify_self : win.modify w f w = f (win w) := Function.update_self ..

theorem modify_of_ne (h : u ≠ w) : win.modify w f u = win u := Function.update_of_ne h ..

end Windows

/-- A window without its place in a stack. -/
def GUIWindow.core (gw : GUIWindow) : GUIWindow := { gw with next := none, prev := none }

/-- What an operation on stacks leaves. -/
theorem GUIWindow.field_of_core {β : Type} {gw gw' : GUIWindow} (g : GUIWindow → β)
    (hg : ∀ gw, g gw.core = g gw) (h : gw.core = gw'.core) : g gw = g gw' := by
  rw [← hg gw, h, hg]

namespace Windows

variable {win : Windows} {w u : Gid} {v : Option Gid} {q : Option Gid}

@[simp] theorem next_setNext : (win.setNext w v u).next = if u = w then v else (win u).next := by
  by_cases h : u = w
  · rw [h, setNext, modify_self, if_pos rfl]
  · rw [setNext, modify_of_ne h, if_neg h]

@[simp] theorem prev_setNext : (win.setNext w v u).prev = (win u).prev := by
  by_cases h : u = w
  · rw [h, setNext, modify_self]
  · rw [setNext, modify_of_ne h]

@[simp] theorem core_setNext : (win.setNext w v u).core = (win u).core := by
  by_cases h : u = w
  · rw [h, setNext, modify_self]
    rfl
  · rw [setNext, modify_of_ne h]

@[simp] theorem prev_setPrev : (win.setPrev w v u).prev = if u = w then v else (win u).prev := by
  by_cases h : u = w
  · rw [h, setPrev, modify_self, if_pos rfl]
  · rw [setPrev, modify_of_ne h, if_neg h]

@[simp] theorem next_setPrev : (win.setPrev w v u).next = (win u).next := by
  by_cases h : u = w
  · rw [h, setPrev, modify_self]
  · rw [setPrev, modify_of_ne h]

@[simp] theorem core_setPrev : (win.setPrev w v u).core = (win u).core := by
  by_cases h : u = w
  · rw [h, setPrev, modify_self]
    rfl
  · rw [setPrev, modify_of_ne h]

@[simp] theorem next_setNextOf :
    (win.setNextOf q v u).next = if q = some u then v else (win u).next := by
  cases q with
  | none => simp [setNextOf]
  | some w => simp [setNextOf, eq_comm]

@[simp] theorem prev_setNextOf : (win.setNextOf q v u).prev = (win u).prev := by
  cases q with
  | none => rfl
  | some w => exact prev_setNext

@[simp] theorem core_setNextOf : (win.setNextOf q v u).core = (win u).core := by
  cases q with
  | none => rfl
  | some w => exact core_setNext

@[simp] theorem prev_setPrevOf :
    (win.setPrevOf q v u).prev = if q = some u then v else (win u).prev := by
  cases q with
  | none => simp [setPrevOf]
  | some w => simp [setPrevOf, eq_comm]

@[simp] theorem next_setPrevOf : (win.setPrevOf q v u).next = (win u).next := by
  cases q with
  | none => rfl
  | some w => exact next_setPrev

@[simp] theorem core_setPrevOf : (win.setPrevOf q v u).core = (win u).core := by
  cases q with
  | none => rfl
  | some w => exact core_setPrev

/-- The field `next` of all windows. -/
def next (win : Windows) (w : Gid) : Option Gid := (win w).next

/-- The field `prev` of all windows. -/
def prev (win : Windows) (w : Gid) : Option Gid := (win w).prev

/-- The field `parent` of all windows. -/
def parent (win : Windows) (w : Gid) : Option Gid := (win w).parent

end Windows

section

variable {win : Windows} {w u : Gid} {top : Option Gid}

theorem core_insert : ((insert top w win).2 u).core = (win u).core := by
  cases top with
  | none => simp [insert]
  | some t =>
    rw [insert]
    split
    · simp
    · simp

theorem core_push : ((push top w win).2 u).core = (win u).core := by
  cases top with
  | none => simp [push]
  | some t => simp [push]

theorem core_detach : ((detach top w win).2 u).core = (win u).core := by
  simp [detach]

end

/-- `w` has been linked in between `l₁` and `l₂`. -/
structure Attached (win win' : Windows) (w : Gid) (l₁ l₂ : List Gid) : Prop where
  next_self : win'.next w = l₂.head?
  prev_self : win'.prev w = l₁.getLast?
  next : ∀ u, u ≠ w → win'.next u = if win'.prev w = some u then some w else win.next u
  prev : ∀ u, u ≠ w → win'.prev u = if win'.next w = some u then some w else win.prev u
  core : ∀ u, (win' u).core = (win u).core

/-- The neighbours of `w` have been linked with each other. -/
structure Detached (win win' : Windows) (w : Gid) : Prop where
  next : ∀ u, win'.next u =
    if u = w then none else if win.prev w = some u then win.next w else win.next u
  prev : ∀ u, win'.prev u =
    if u = w then none else if win.next w = some u then win.prev w else win.prev u
  core : ∀ u, (win' u).core = (win u).core

section

variable {win : Windows} {w t : Gid} {l : List Gid}

/-- A window is put in before the first one with a smaller `zindex`, if the loop gets that far. -/
theorem insertBehind_split {zindex : Int32} {n : Nat} (hl : Chain win.next (some t) (t :: l))
    (hn : l.length ≤ n) (ht : ¬ (win t).windata.zindex < zindex) :
    ∃ l₁ l₂, t :: l = l₁ ++ insertBehind win zindex n t :: l₂ ∧
      (∀ u ∈ l₁ ++ [insertBehind win zindex n t], ¬ (win u).windata.zindex < zindex) ∧
      ∀ u ∈ l₂.head?, (win u).windata.zindex < zindex := by
  induction n generalizing t l with
  | zero =>
    obtain rfl := List.eq_nil_of_length_eq_zero (Nat.le_zero.mp hn)
    refine ⟨[], [], rfl, ?_, ?_⟩
    · intro u hu
      rwa [List.mem_singleton.mp hu]
    · intro u hu
      cases hu
  | succ n ih =>
    rw [insertBehind]
    split
    case h_1 hnext =>
      have hrest : Chain win.next none l := hnext ▸ hl.2
      obtain rfl := hrest.eq_nil
      refine ⟨[], [], rfl, ?_, ?_⟩
      · intro u hu
        rwa [List.mem_singleton.mp hu]
      · intro u hu
        cases hu
    case h_2 q hnext =>
      have hrest : Chain win.next (some q) l := hnext ▸ hl.2
      obtain ⟨l, rfl⟩ := hrest.exists_cons
      split
      case isTrue hq =>
        refine ⟨[], q :: l, rfl, ?_, ?_⟩
        · intro u hu
          rwa [List.mem_singleton.mp hu]
        · intro u hu
          cases hu
          exact hq
      case isFalse hq =>
        obtain ⟨l₁, l₂, hsplit, habove, hbelow⟩ := ih hrest (Nat.le_of_succ_le_succ hn) hq
        refine ⟨t :: l₁, l₂, ?_, ?_, hbelow⟩
        · rw [hsplit]
          rfl
        · rw [List.cons_append, List.forall_mem_cons]
          exact ⟨ht, habove⟩

/-- The first window of a stack that is linked in at the top. -/
theorem attached_top (hw : w ∉ t :: l) :
    Attached win (((win.setNext w (some t)).setPrev w none).setPrev t (some w)) w [] (t :: l) := by
  have hwt : w ≠ t := fun heq => hw (heq ▸ List.mem_cons_self)
  refine ⟨?_, ?_, ?_, ?_, ?_⟩
  · simp [Windows.next]
  · simp [Windows.prev, hwt]
  · intro u hu
    simp [Windows.next, Windows.prev, hwt, hu]
  · intro u hu
    simp only [Windows.next, Windows.prev, Windows.next_setPrev, Windows.next_setNext, if_true,
      Windows.prev_setPrev, Windows.prev_setNext, hu, if_false, Option.some_inj, eq_comm]
  · intro u
    simp

theorem attached_empty : Attached win ((win.setPrev w none).setNext w none) w [] [] := by
  refine ⟨?_, ?_, ?_, ?_, ?_⟩
  · simp [Windows.next]
  · simp [Windows.prev]
  · intro u hu
    simp [Windows.next, Windows.prev, hu]
  · intro u hu
    simp [Windows.next, Windows.prev, hu]
  · intro u
    simp

/-- `push` puts a window on top. -/
theorem push_attached (hw : w ∉ l) :
    (push l.head? w win).1 = some w ∧ Attached win (push l.head? w win).2 w [] l := by
  cases l with
  | nil => exact ⟨rfl, attached_empty⟩
  | cons t l => exact ⟨rfl, attached_top hw⟩

/-- The window that is linked in behind `ptr`. -/
theorem attached_behind {l₁ l₂ : List Gid} {ptr : Gid}
    (hl : Linked win.next win.prev none (l₁ ++ ptr :: l₂)) (hw : w ∉ l₁ ++ ptr :: l₂) :
    let win₁ := win.setPrevOf (win ptr).next (some w)
    Attached win (((win₁.setNext w (win₁ ptr).next).setPrev w (some ptr)).setNext ptr (some w)) w
      (l₁ ++ [ptr]) l₂ := by
  intro win₁
  have hwp : w ≠ ptr := by
    rintro rfl
    exact hw (List.mem_append_right l₁ List.mem_cons_self)
  have hnext : (win ptr).next = l₂.head? := hl.at_append.2
  have hnext₁ : (win₁ ptr).next = l₂.head? := by
    rw [Windows.next_setPrevOf, hnext]
  refine ⟨?_, ?_, ?_, ?_, ?_⟩
  · simp [Windows.next, hwp, hnext₁]
  · simp [Windows.prev]
  · intro u hu
    simp [Windows.next, Windows.prev, hu, win₁, eq_comm]
  · intro u hu
    simp [Windows.next, Windows.prev, hu, hwp, win₁, hnext]
  · intro u
    simp [win₁]

/-- `insert` links a window in, before the first one with a smaller `zindex`. -/
theorem insert_attached (hl : Linked win.next win.prev none l) (hw : w ∉ l) :
    ∃ l₁ l₂, l = l₁ ++ l₂ ∧ (insert l.head? w win).1 = (l₁ ++ w :: l₂).head? ∧
      Attached win (insert l.head? w win).2 w l₁ l₂ ∧
      (∀ u ∈ l₁, ¬ (win u).windata.zindex < (win w).windata.zindex) ∧
      ∀ u ∈ l₂.head?, (win u).windata.zindex < (win w).windata.zindex := by
  cases l with
  | nil =>
    refine ⟨[], [], rfl, rfl, attached_empty, fun u hu => absurd hu List.not_mem_nil, ?_⟩
    intro u hu
    cases hu
  | cons t l =>
    rw [List.head?_cons, insert]
    by_cases hz : (win t).windata.zindex < (win w).windata.zindex
    · simp only [hz, if_true]
      have hwt : w ≠ t := fun heq => hw (heq ▸ List.mem_cons_self)
      refine ⟨[], t :: l, rfl, rfl, ⟨?_, ?_, ?_, ?_, ?_⟩, fun u hu => absurd hu List.not_mem_nil, ?_⟩
      · simp [Windows.next]
      · simp [Windows.prev]
      · intro u hu
        simp [Windows.next, Windows.prev, hu]
      · intro u hu
        simp [Windows.next, Windows.prev, hu, eq_comm]
      · intro u
        simp
      · intro u hu
        cases hu
        exact hz
    · simp only [hz, if_false]
      -- there are no more windows than the loop looks at
      have hlength := hl.nodup.length_le_card
      rw [Fintype.card_fin] at hlength
      obtain ⟨l₁, l₂, hsplit, habove, hbelow⟩ :=
        insertBehind_split hl.chain (Nat.le_of_succ_le hlength) hz
      generalize insertBehind win (win w).windata.zindex 256 t = ptr at hsplit habove ⊢
      rw [hsplit] at hl hw
      refine ⟨l₁ ++ [ptr], l₂, ?_, ?_, attached_behind hl hw, habove, hbelow⟩
      · rw [hsplit, List.append_assoc]
        rfl
      · have hhead := congrArg List.head? hsplit
        rw [List.head?_cons] at hhead
        rw [hhead]
        cases l₁ with
        | nil => rfl
        | cons c l₁ => rfl

/-- `detach` takes a window out of its stack. -/
theorem detach_detached {top : Option Gid} {l₁ l₂ : List Gid}
    (hl : Linked win.next win.prev none (l₁ ++ w :: l₂)) : Detached win (detach top w win).2 w := by
  have hnodup := hl.nodup
  rw [List.nodup_middle, List.nodup_cons] at hnodup
  have hnext : (win w).next ≠ some w := by
    intro heq
    have hhead : l₂.head? = some w := hl.at_append.2.symm.trans heq
    exact hnodup.1 (List.mem_append_right l₁ (List.mem_of_head? hhead))
  refine ⟨?_, ?_, ?_⟩
  · intro u
    simp only [detach, Windows.next, Windows.prev, Windows.next_setPrev, Windows.next_setNext,
      Windows.next_setNextOf, Windows.prev_setPrevOf, if_neg hnext, Windows.next_setPrevOf]
    rfl
  · intro u
    simp only [detach, Windows.next, Windows.prev, Windows.prev_setPrev, Windows.prev_setNext,
      Windows.prev_setNextOf, Windows.prev_setPrevOf]
    rfl
  · intro u
    simp [detach]

/-- The top of the stack a window has been taken out of. -/
theorem detach_top {l₁ l₂ : List Gid} (hl : Linked win.next win.prev none (l₁ ++ w :: l₂)) :
    (detach (l₁ ++ w :: l₂).head? w win).1 = (l₁ ++ l₂).head? := by
  have hnext : (win w).next = l₂.head? := hl.at_append.2
  cases l₁ with
  | nil => simp [detach, hnext]
  | cons c l₁ =>
    have hcw : c ≠ w := by
      rintro rfl
      have hnodup := hl.nodup
      simp at hnodup
    simp [detach, hcw]

/-- The top of another stack. -/
theorem detach_top_of_not_mem (hw : w ∉ l) : (detach l.head? w win).1 = l.head? := by
  rw [detach, if_neg]
  exact fun heq => hw (List.mem_of_head? heq)

end

end Shipwreck.Gui
