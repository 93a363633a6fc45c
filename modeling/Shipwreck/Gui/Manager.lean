import Shipwreck.Gui.Roots

/-!
# The window manager stays a forest

The window manager as a machine: processes hand over their windows, and the user clicks on windows.
`forest_kept` says that its lists are a forest in every state of a run whose calls are in order
(`Orderly`), and that all these calls return.
-/

namespace Shipwreck.Gui

/-- What happens to the window manager. -/
inductive GuiOp where
  | update (pid : Fin 16) (env : Hierarchy)
  | click (w : Gid)

/-- What `GUIModel` leaves: the desktop is the only window. -/
def boot (screen : Rect) (image : UInt32) (unions : Gid → UInt32) : WindowManager where
  winstack := some desktopGid
  winIndex w :=
    if w = desktopGid then
      { kind := .desktop
        windata := ⟨.window, screen, .bits image, 0, 0, -1, true⟩
        pid := 0
        next := none
        prev := none
        parent := none
        wmRoot := some desktopGid }
    else
      { kind := .window
        windata := ⟨.none, ⟨0, 0, 0, 0⟩, .bits (unions w), 0, 0, -1, false⟩
        pid := 0
        next := none
        prev := none
        parent := none
        wmRoot := none }

/-- The window manager. -/
def manager : Machine WindowManager GuiOp where
  init wm := ∃ screen image unions, wm = boot screen image unions
  step wm
    | .update pid env => guiUpdateProc pid env.toEnvironment wm
    | .click w => some (click w wm)

/-- The lists of the window manager are a forest: `lists none` is `winstack`, `lists (some f)` are the
children of the frame `f`. -/
structure WindowManager.Forest (wm : WindowManager) (lists : Option Gid → List Gid) : Prop where
  top : wm.winstack = (lists none).head?
  children : ∀ f, (wm.winIndex f).windata.winclass = .windowFrame →
    (wm.winIndex f).children = some (lists (some f)).head?
  frames : ∀ f, lists (some f) ≠ [] → (wm.winIndex f).windata.winclass = .windowFrame
  linked : ∀ f, Linked (Windows.next wm.winIndex) (Windows.prev wm.winIndex) none (lists f)
  once : ∀ w, (wm.winIndex w).windata.winclass ≠ .none → ∃! f, w ∈ lists f
  root : ∀ w, (wm.winIndex w).windata.winclass ≠ .none →
    (wm.winIndex w).windata.parentId = -1 → w ∈ lists none
  child : ∀ pid i p, (wm.winIndex (gidOf pid i)).windata.winclass ≠ .none →
    (wm.winIndex (gidOf pid i)).windata.parentId = Int32.ofNat p.val →
    gidOf pid i ∈ lists (some (gidOf pid p))

/-- The calls of a run are in order. -/
def InOrder (wm : WindowManager) : GuiOp → Prop
  | .update pid env => Orderly pid env.toEnvironment wm.winIndex
  | .click _ => True

instance (wm : WindowManager) : (op : GuiOp) → Decidable (InOrder wm op)
  | .update pid env => inferInstanceAs (Decidable (Orderly pid env.toEnvironment wm.winIndex))
  | .click _ => isTrue trivial

section

variable {wm : WindowManager} {place : Gid → Option Place} {lists : Place → List Gid}

theorem ofNat_ne_neg_one (j : Fin 16) : Int32.ofNat j.val ≠ -1 := by
  revert j
  decide

theorem ofNat_injective {i j : Fin 16} (h : Int32.ofNat i.val = Int32.ofNat j.val) : i = j := by
  revert i j
  decide

/-- The list of a place. -/
def listAt (lists : Place → List Gid) : Option Gid → List Gid
  | none => lists .stack
  | some f => lists (.kids f)

theorem Grown.forest (h : Grown (fun _ => False) wm place lists) : wm.Forest (listAt lists) := by
  have hkids : ∀ w f, w ∈ lists (.kids f) ↔ (wm.winIndex w).parent = some f :=
    fun w f => h.planted.mem_kids_iff
  have hstack : ∀ w, (wm.winIndex w).windata.winclass ≠ .none → (wm.winIndex w).parent = none →
      w ∈ lists .stack := by
    intro w hlive hparent
    rw [h.planted.shape.threaded.mem_iff]
    rcases h.planted.root w hlive hparent with hplace | ⟨hfalse, -⟩
    · exact hplace
    · exact hfalse.elim
  refine ⟨h.top, h.planted.shape.children, ?_, ?_, ?_, ?_, ?_⟩
  · intro f hne
    obtain ⟨w, hw⟩ := List.exists_mem_of_ne_nil _ hne
    exact (h.planted.frame w f ((hkids w f).mp hw)).1
  · intro f
    cases f with
    | none => exact h.planted.shape.threaded.linked .stack
    | some f => exact h.planted.shape.threaded.linked (.kids f)
  · intro w hlive
    cases hparent : (wm.winIndex w).parent with
    | none =>
      refine ⟨none, hstack w hlive hparent, ?_⟩
      intro f hf
      cases f with
      | none => rfl
      | some f =>
        rw [(hkids w f).mp hf] at hparent
        cases hparent
    | some p =>
      refine ⟨some p, (hkids w p).mpr hparent, ?_⟩
      intro f hf
      cases f with
      | none =>
        have hplace := (h.planted.shape.threaded.mem_iff .stack w).mp hf
        rw [(h.planted.root_of_stack hplace).2] at hparent
        cases hparent
      | some f => exact ((hkids w f).mp hf).symm.trans hparent
  · intro w hlive hid
    apply hstack w hlive
    cases hparent : (wm.winIndex w).parent with
    | none => rfl
    | some p =>
      obtain ⟨-, pid, i, j, -, -, hj⟩ := h.planted.frame w p hparent
      -- a window with a parent has the number of its slot
      exact absurd (hj.symm.trans hid) (ofNat_ne_neg_one j)
  · intro pid i p hlive hid
    cases hparent : (wm.winIndex (gidOf pid i)).parent with
    | none =>
      have hroot := h.planted.parentId _ hlive hparent
      exact absurd (hid.symm.trans hroot) (ofNat_ne_neg_one p)
    | some q =>
      obtain ⟨-, pid', i', j, heq, rfl, hj⟩ := h.planted.frame _ q hparent
      obtain ⟨rfl, rfl⟩ := gidOf_inj heq
      obtain rfl : j = p := ofNat_injective (hj.symm.trans hid)
      exact (hkids _ _).mpr hparent

theorem boot_zero (screen : Rect) (image : UInt32) (unions : Gid → UInt32) :
    (boot screen image unions).winIndex desktopGid = ⟨.desktop,
      ⟨.window, screen, .bits image, 0, 0, -1, true⟩, 0, none, none, none, some desktopGid⟩ := rfl

theorem boot_of_ne {w : Gid} (screen : Rect) (image : UInt32) (unions : Gid → UInt32) (hw : w ≠ desktopGid) :
    (boot screen image unions).winIndex w = ⟨.window,
      ⟨.none, ⟨0, 0, 0, 0⟩, .bits (unions w), 0, 0, -1, false⟩, 0, none, none, none, none⟩ :=
  if_neg hw

/-- The desktop alone is a forest. -/
theorem Grown.start (screen : Rect) (image : UInt32) (unions : Gid → UInt32) :
    Grown (fun _ => False) (boot screen image unions)
      (fun w => if w = desktopGid then some .stack else none)
      (fun P => if P = .stack then [desktopGid] else []) := by
  have hlinks : ∀ w, Windows.next (boot screen image unions).winIndex w = none ∧
      Windows.prev (boot screen image unions).winIndex w = none := by
    intro w
    by_cases hw : w = desktopGid
    · rw [hw, Windows.next, Windows.prev, boot_zero]
      exact ⟨rfl, rfl⟩
    · rw [Windows.next, Windows.prev, boot_of_ne screen image unions hw]
      exact ⟨rfl, rfl⟩
  have hparent : ∀ w, ((boot screen image unions).winIndex w).parent = none := by
    intro w
    by_cases hw : w = desktopGid
    · rw [hw, boot_zero]
    · rw [boot_of_ne screen image unions hw]
  -- every other window is free
  have hlive : ∀ w, ((boot screen image unions).winIndex w).windata.winclass ≠ .none → w = desktopGid := by
    intro w hw
    by_contra hne
    rw [boot_of_ne screen image unions hne] at hw
    exact hw rfl
  have hclass : ∀ w, ((boot screen image unions).winIndex w).windata.winclass ≠ .windowFrame ∧
      ((boot screen image unions).winIndex w).kind ≠ .frame := by
    intro w
    by_cases hw : w = desktopGid
    · rw [hw, boot_zero]
      simp
    · rw [boot_of_ne screen image unions hw]
      simp
  -- first the lists, then the parents, then what is at the bottom and at the top
  refine ⟨⟨⟨⟨?_, ?_, ?_⟩, ?_, ?_⟩, ?_, ?_, ?_, ?_, ?_, ?_, ?_, ?_, ?_⟩, ?_, ?_⟩
  · intro P
    by_cases hP : P = .stack
    · rw [if_pos hP]
      exact ⟨(hlinks desktopGid).2, (hlinks desktopGid).1, trivial⟩
    · rw [if_neg hP]
      trivial
  · intro P w
    by_cases hP : P = .stack
    · by_cases hw : w = desktopGid
      · simp [hP, hw]
      · simp [hP, hw]
    · by_cases hw : w = desktopGid
      · simp [hP, hw, Ne.symm hP]
      · simp [hP, hw]
  · exact fun w _ => hlinks w
  · exact fun f hf => absurd hf (hclass f).1
  · exact fun w => iff_of_false (hclass w).2 (hclass w).1
  · intro w hw
    refine ⟨hparent w, if_neg ?_⟩
    rintro rfl
    cases hw
  · intro w hw
    rw [hlive w hw]
    rfl
  · intro w p hp
    rw [hparent] at hp
    cases hp
  · intro w hw _
    exact .inl (if_pos (hlive w hw))
  · intro w p hp
    rw [hparent] at hp
    cases hp
  · intro w hw _
    rw [hlive w hw]
    rfl
  · exact fun w => ⟨[w], rfl, hparent w⟩
  · rfl
  · exact ⟨[], rfl⟩
  · rfl
  · intro w r hr
    by_cases hw : w = desktopGid
    · rw [hw, boot_zero] at hr
      cases hr
      exact ⟨rfl, fun _ => hw⟩
    · rw [boot_of_ne screen image unions hw] at hr
      cases hr

/-- The invariant of the window manager between two steps. -/
def Settled (wm : WindowManager) : Prop :=
  ∃ place lists, Grown (fun _ => False) wm place lists

/-- One step. -/
theorem manager_step (op : GuiOp) (h : Settled wm) (hok : InOrder wm op) :
    ∃ wm', manager.step wm op = some wm' ∧ Settled wm' := by
  obtain ⟨place, lists, h⟩ := h
  cases op with
  | update pid env =>
    obtain ⟨wm', place', lists', hrun, hgrown⟩ := guiUpdateProc_spec h hok
    exact ⟨wm', hrun, place', lists', hgrown⟩
  | click w =>
    obtain ⟨place', lists', hgrown⟩ := click_spec h w
    exact ⟨click w wm, rfl, place', lists', hgrown⟩

end

/-- **The lists of the window manager stay a forest** in every run from the desktop whose calls are in
order, and all these calls return. -/
theorem forest_kept {wm : WindowManager} (hinit : manager.init wm) (ops : List GuiOp)
    (hok : manager.Steps InOrder wm ops) :
    (manager.exec wm ops).isSome = true ∧
      manager.States (fun wm => ∃ lists, wm.Forest lists) wm ops := by
  obtain ⟨screen, image, unions, rfl⟩ := hinit
  have hstart : Settled (boot screen image unions) := ⟨_, _, Grown.start screen image unions⟩
  refine ⟨?_, ?_⟩
  · obtain ⟨wm', hrun, -⟩ := Machine.exec_of_steps (fun _ op => manager_step op) hstart hok
    rw [hrun]
    rfl
  · apply Machine.states_of_steps (I := Settled) _ _ hstart hok
    · rintro wm ⟨place, lists, h⟩
      exact ⟨listAt lists, h.forest⟩
    · intro wm op wm' h hop hstep
      obtain ⟨wm₁, hrun, hsettled⟩ := manager_step op h hop
      rw [hrun] at hstep
      cases hstep
      exact hsettled

/-- The windows of `GUIModel`: a frame with a background and a terminal. Each is marked or not. -/
def guiModelWindows (frame background text : Bool) (i : Fin 16) : UserWindow :=
  if i.val = 1 then ⟨.windowFrame, ⟨200, 150, 600, 450⟩, 0, 0, 1, -1, frame⟩
  else if i.val = 2 then ⟨.window, ⟨0, 0, 400, 300⟩, 50712, 0, 1, 1, background⟩
  else if i.val = 3 then ⟨.textBox, ⟨20, 20, 380, 280⟩, 4096, 2, 3, 1, text⟩
  else ⟨.none, ⟨0, 0, 0, 0⟩, 0, 0, 0, -1, false⟩

theorem guiModelWindows_lower (frame background text : Bool) : ∀ i p,
    Environment.parentOf ⟨guiModelWindows frame background text, 0⟩ i = some p → p < i := by
  revert frame background text
  decide +kernel

theorem guiModelWindows_frame (frame background text : Bool) :
    ∀ i, (guiModelWindows frame background text i).winclass.kind?.isSome = true →
      (guiModelWindows frame background text i).parentId = -1 ∨
      ∃ p, Environment.parentOf ⟨guiModelWindows frame background text, 0⟩ i = some p ∧
        (guiModelWindows frame background text p).winclass = .windowFrame := by
  revert frame background text
  decide +kernel

def guiModel (frame background text : Bool) : Hierarchy where
  windows := guiModelWindows frame background text
  offset := 0
  parent_frame := guiModelWindows_frame frame background text
  acyclic := Environment.acyclic_of_lower (guiModelWindows_lower frame background text)

theorem guiModel_forest :
    manager.Steps InOrder (boot ⟨0, 0, 800, 600⟩ 4096 fun _ => 0)
      [.update 0 (guiModel true true true), .click 2, .update 0 (guiModel false true true),
        .update 0 (guiModel true true true)] ∧
    (manager.exec (boot ⟨0, 0, 800, 600⟩ 4096 fun _ => 0)
      [.update 0 (guiModel true true true), .click 2, .update 0 (guiModel false true true),
        .update 0 (guiModel true true true)]).isSome = true ∧
    manager.States (fun wm => ∃ lists, wm.Forest lists) (boot ⟨0, 0, 800, 600⟩ 4096 fun _ => 0)
      [.update 0 (guiModel true true true), .click 2, .update 0 (guiModel false true true),
        .update 0 (guiModel true true true)] :=
  ⟨by decide +kernel, forest_kept ⟨_, _, _, rfl⟩ _ (by decide +kernel)⟩

/-- A frame that is updated without its children loses them. -/
theorem children_lost : ∃ wm, manager.exec (boot ⟨0, 0, 800, 600⟩ 4096 fun _ => 0)
      [.update 0 (guiModel true true true), .update 0 (guiModel true false false)] = some wm ∧
    ¬ ∃ lists, wm.Forest lists := by
  have hrun : (manager.exec (boot ⟨0, 0, 800, 600⟩ 4096 fun _ => 0)
      [.update 0 (guiModel true true true), .update 0 (guiModel true false false)]).map
      (fun wm => ((wm.winIndex 1).windata.winclass, (wm.winIndex 1).children,
        (wm.winIndex 2).windata.winclass, (wm.winIndex 2).windata.parentId)) =
      some (.windowFrame, some none, .window, 1) := by decide +kernel
  obtain ⟨wm, hwm, hdata⟩ := Option.map_eq_some_iff.mp hrun
  simp only [Prod.mk.injEq] at hdata
  obtain ⟨hframe, hchildren, hwindow, hid⟩ := hdata
  refine ⟨wm, hwm, ?_⟩
  rintro ⟨lists, h⟩
  have hnil := h.children 1 hframe
  rw [hchildren] at hnil
  have hmem : (2 : Gid) ∈ lists (some 1) := h.child 0 2 1 (by
    show (wm.winIndex 2).windata.winclass ≠ .none
    rw [hwindow]
    simp) hid
  rw [List.head?_eq_none_iff.mp (Option.some.inj hnil).symm] at hmem
  cases hmem

end Shipwreck.Gui
