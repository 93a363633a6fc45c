import Shipwreck.Gui.Stack

/-!
# One slot of `gui_update_proc`

Every window is linked in at one `Place` at most. `Shape` says so, and that the head of its children is
where each frame keeps it. `removeChild_spec` and `addChild_spec` say what the two functions make of
places and lists; `updateSlot_spec` follows the body of the loop through them.

When a frame is copied, the word of the user is stored over the head of its children. The children are
linked with each other as before, but no head leads to them any more: their place is `stale`, until the
loop comes to their own slots.
-/

namespace Shipwreck.Gui

/-! ## Links and everything else -/

/-- A field that `f` does not touch. -/
theorem Windows.modify_field {β : Type} (f : GUIWindow → GUIWindow) (g : GUIWindow → β)
    {win : Windows} {w : Gid} (h : ∀ gw, g (f gw) = g gw) (u : Gid) :
    g (win.modify w f u) = g (win u) := by
  by_cases hu : u = w
  · rw [hu, modify_self, h]
  · rw [modify_of_ne hu]

section

variable {β : Type} {g : GUIWindow → β} {win win' : Windows} {wm wm' : WindowManager} {pid : Fin 16}

theorem eachFrom_field {act : Gid → Windows → Option Windows}
    (hact : ∀ c win win', act c win = some win' → ∀ u, g (win' u) = g (win u)) (n : Nat)
    {head : Option Gid} (hrun : eachFrom act n head win = some win') (u : Gid) :
    g (win' u) = g (win u) := by
  induction n generalizing head win with
  | zero =>
    cases head with
    | none => cases hrun; rfl
    | some c => cases hrun; rfl
  | succ n ih =>
    cases head with
    | none => cases hrun; rfl
    | some c =>
      rw [eachFrom] at hrun
      obtain ⟨win₁, hc, hrest⟩ := Option.bind_eq_some_iff.mp hrun
      rw [ih hrest, hact c win win₁ hc]

/-- What `move` and `update_root` leave. -/
theorem visit_field {act : GUIWindow → GUIWindow} (hact : ∀ gw, g (act gw) = g gw) (levels : Nat)
    {w : Gid} (hrun : visit act levels w win = some win') (u : Gid) : g (win' u) = g (win u) := by
  induction levels generalizing w win win' u with
  | zero => cases hrun
  | succ levels ih =>
    have hmodify : g (win.modify w act u) = g (win u) := Windows.modify_field act g hact u
    rw [visit] at hrun
    split at hrun
    case isTrue =>
      obtain ⟨top, -, heach⟩ := Option.bind_eq_some_iff.mp hrun
      rw [eachFrom_field (fun c win win' hc u => ih hc u) 256 heach, hmodify]
    case isFalse =>
      cases hrun
      exact hmodify

/-- What the second loop leaves. -/
theorem rootSlot_field (hcore : ∀ gw, g gw.core = g gw) (hroot : ∀ gw root, g (gw.updateRoot root) = g gw)
    {i : Fin 16} (hrun : rootSlot pid i wm = some wm') (u : Gid) :
    g (wm'.winIndex u) = g (wm.winIndex u) := by
  rw [rootSlot] at hrun
  split at hrun
  case isTrue =>
    cases hrun
    rfl
  case isFalse =>
    obtain ⟨win, hupdate, hrest⟩ := Option.bind_eq_some_iff.mp hrun
    rw [← visit_field (fun gw => hroot gw (some (gidOf pid i))) 256 hupdate u]
    split at hrest
    case h_1 root _ =>
      split at hrest
      case isTrue =>
        cases hrest
        exact GUIWindow.field_of_core g hcore core_push
      case isFalse =>
        cases hrest
        rfl
    case h_2 =>
      cases hrest
      rfl

theorem rootSlots_field (hcore : ∀ gw, g gw.core = g gw) (hroot : ∀ gw root, g (gw.updateRoot root) = g gw)
    {is : List (Fin 16)} (hrun : rootSlots pid is wm = some wm') (u : Gid) :
    g (wm'.winIndex u) = g (wm.winIndex u) := by
  induction is generalizing wm with
  | nil =>
    cases hrun
    rfl
  | cons i is ih =>
    obtain ⟨wm₁, hslot, hrest⟩ := Option.bind_eq_some_iff.mp hrun
    rw [ih hrest, rootSlot_field hcore hroot hslot]

end

/-- A window without its place in a stack and without the stack of its children. -/
def GUIWindow.bare (gw : GUIWindow) : GUIWindow :=
  { gw with
    next := none
    prev := none
    windata := { gw.windata with displayData := .bits 0 } }

namespace GUIWindow

variable {gw gw' : GUIWindow} {dx dy : Int32} {q : Option Gid}

/-- What two windows have in common that agree but for their links. -/
theorem field_of_bare {β : Type} (g : GUIWindow → β) (hg : ∀ gw, g gw.bare = g gw)
    (h : gw.bare = gw'.bare) : g gw = g gw' := by
  rw [← hg gw, h, hg]

theorem parent_of_bare (h : gw.bare = gw'.bare) : gw.parent = gw'.parent :=
  field_of_bare (·.parent) (fun _ => rfl) h

theorem wmRoot_of_bare (h : gw.bare = gw'.bare) : gw.wmRoot = gw'.wmRoot :=
  field_of_bare (·.wmRoot) (fun _ => rfl) h

theorem winclass_of_bare (h : gw.bare = gw'.bare) : gw.windata.winclass = gw'.windata.winclass :=
  field_of_bare (·.windata.winclass) (fun _ => rfl) h

theorem parentId_of_bare (h : gw.bare = gw'.bare) : gw.windata.parentId = gw'.windata.parentId :=
  field_of_bare (·.windata.parentId) (fun _ => rfl) h

@[simp] theorem next_move : (gw.move dx dy).next = gw.next := rfl
@[simp] theorem prev_move : (gw.move dx dy).prev = gw.prev := rfl
@[simp] theorem kind_move : (gw.move dx dy).kind = gw.kind := rfl
@[simp] theorem children_move : (gw.move dx dy).children = gw.children := rfl
@[simp] theorem winclass_move : (gw.move dx dy).windata.winclass = gw.windata.winclass := rfl

@[simp] theorem next_setParent : (gw.setParent q).next = gw.next := rfl
@[simp] theorem prev_setParent : (gw.setParent q).prev = gw.prev := rfl
@[simp] theorem kind_setParent : (gw.setParent q).kind = gw.kind := rfl
@[simp] theorem windata_setParent : (gw.setParent q).windata = gw.windata := rfl
@[simp] theorem children_setParent : (gw.setParent q).children = gw.children := rfl

@[simp] theorem next_setChildren : (gw.setChildren q).next = gw.next := rfl
@[simp] theorem prev_setChildren : (gw.setChildren q).prev = gw.prev := rfl
@[simp] theorem kind_setChildren : (gw.setChildren q).kind = gw.kind := rfl
@[simp] theorem bare_setChildren : (gw.setChildren q).bare = gw.bare := rfl

@[simp] theorem children_setChildren : (gw.setChildren q).children = some q :=
  DisplayData.top_ofTop q

end GUIWindow

/-- Links apart, only `w` has changed, to `gw`. -/
structure Changed (win win' : Windows) (w : Gid) (gw : GUIWindow) : Prop where
  self : (win' w).bare = gw.bare
  other : ∀ u, u ≠ w → (win' u).bare = (win u).bare

/-! ## Places -/

/-- Where a window is linked in: in `winstack`, among the children of a frame, or among the windows
that were its children before its own data were copied. -/
inductive Place where
  | stack
  | kids (frame : Gid)
  | stale (frame : Gid)
  deriving DecidableEq, Repr

/-- The windows are in lists, and the children of each frame begin where the frame says. -/
structure Shape (win : Windows) (place : Gid → Option Place) (lists : Place → List Gid) : Prop where
  threaded : Threaded win.next win.prev place lists
  children : ∀ f, (win f).windata.winclass = .windowFrame →
    (win f).children = some (lists (.kids f)).head?
  kind : ∀ w, (win w).kind = .frame ↔ (win w).windata.winclass = .windowFrame

section

variable {win win' : Windows} {place : Gid → Option Place} {lists : Place → List Gid}
variable {w f p q : Gid} {dx dy : Int32}

/-- Nothing the shape depends on has changed. -/
theorem Shape.congr (h : Shape win place lists)
    (hnext : ∀ u, win'.next u = win.next u ∧ win'.prev u = win.prev u)
    (hdata : ∀ u, (win' u).children = (win u).children ∧ (win' u).kind = (win u).kind ∧
      (win' u).windata.winclass = (win u).windata.winclass) : Shape win' place lists where
  threaded := h.threaded.congr hnext
  children f hf := by
    rw [(hdata f).2.2] at hf
    rw [(hdata f).1]
    exact h.children f hf
  kind u := by
    rw [(hdata u).2.1, (hdata u).2.2]
    exact h.kind u

/-- A window without children is moved alone. -/
theorem move_eq (h : Shape win place lists) (hkids : lists (.kids w) = []) :
    move dx dy w win = some (win.modify w (·.move dx dy)) := by
  rw [move, visit]
  simp only [Windows.modify_self, GUIWindow.kind_move, GUIWindow.children_move]
  by_cases hframe : (win w).kind = .frame
  · rw [if_pos hframe, h.children w ((h.kind w).mp hframe), hkids]
    rfl
  · rw [if_neg hframe]

/-- The new head of the children of `frame`, and the new parent of one of them. -/
def relink (frame child : Gid) (top parent : Option Gid) (win : Windows) : Windows :=
  (win.modify frame (·.setChildren top)).modify child (·.setParent parent)

theorem relink_field {β : Type} (g : GUIWindow → β) {top parent : Option Gid}
    (hparent : ∀ gw q, g (GUIWindow.setParent gw q) = g gw)
    (hchildren : ∀ gw q, g (GUIWindow.setChildren gw q) = g gw) (u : Gid) :
    g (relink f w top parent win u) = g (win u) := by
  rw [relink, Windows.modify_field (·.setParent parent) g fun gw => hparent gw parent,
    Windows.modify_field (·.setChildren top) g fun gw => hchildren gw top]

/-- The windows have been linked anew and one head has been stored. -/
theorem Shape.relink {win₁ : Windows} {place' : Gid → Option Place} {lists' : Place → List Gid}
    (h : Shape win place lists) (hcore : ∀ u, (win₁ u).core = (win u).core)
    (hthreaded : Threaded win₁.next win₁.prev place' lists')
    (hlists : ∀ f, f ≠ p → lists' (.kids f) = lists (.kids f)) (parent : Option Gid) :
    Shape (Gui.relink p w (lists' (.kids p)).head? parent win₁) place' lists' := by
  have hclass : ∀ u, (Gui.relink p w (lists' (.kids p)).head? parent win₁ u).windata.winclass =
      (win u).windata.winclass := by
    intro u
    rw [relink_field (·.windata.winclass) (fun _ _ => rfl) (fun _ _ => rfl)]
    exact GUIWindow.field_of_core (·.windata.winclass) (fun _ => rfl) (hcore u)
  refine ⟨?_, ?_, ?_⟩
  · apply hthreaded.congr
    intro u
    exact ⟨relink_field (·.next) (fun _ _ => rfl) (fun _ _ => rfl) u,
      relink_field (·.prev) (fun _ _ => rfl) (fun _ _ => rfl) u⟩
  · intro f hf
    rw [hclass] at hf
    rw [Gui.relink, Windows.modify_field (·.setParent parent) GUIWindow.children fun _ => rfl]
    by_cases hfp : f = p
    · rw [hfp, Windows.modify_self, GUIWindow.children_setChildren]
    · rw [Windows.modify_of_ne hfp, hlists f hfp, ← h.children f hf]
      exact GUIWindow.field_of_core GUIWindow.children (fun _ => rfl) (hcore f)
  · intro u
    rw [hclass, ← h.kind, relink_field (·.kind) (fun _ _ => rfl) (fun _ _ => rfl),
      GUIWindow.field_of_core (·.kind) (fun _ => rfl) (hcore u)]

/-- A window has been linked anew, and then moved. -/
theorem changed_relink {win₁ : Windows} (hcore : ∀ u, (win₁ u).core = (win u).core) (hfw : f ≠ w)
    (top parent : Option Gid) :
    Changed win ((relink f w top parent win₁).modify w (·.move dx dy)) w
      (((win w).setParent parent).move dx dy) where
  self := by
    rw [Windows.modify_self, relink, Windows.modify_self, Windows.modify_of_ne hfw.symm]
    exact GUIWindow.field_of_core (fun gw => ((gw.setParent parent).move dx dy).bare)
      (fun _ => rfl) (hcore w)
  other u hu := by
    rw [Windows.modify_of_ne hu, relink, Windows.modify_of_ne hu,
      Windows.modify_field (·.setChildren top) GUIWindow.bare fun _ => rfl]
    exact GUIWindow.field_of_core GUIWindow.bare (fun _ => rfl) (hcore u)

/-- A window without children has been moved. -/
theorem Shape.move (h : Shape win place lists) :
    Shape (win.modify w (·.move dx dy)) place lists := by
  apply h.congr
  · intro u
    exact ⟨Windows.modify_field (·.move dx dy) (·.next) (fun _ => rfl) u,
      Windows.modify_field (·.move dx dy) (·.prev) (fun _ => rfl) u⟩
  · intro u
    exact ⟨Windows.modify_field (·.move dx dy) GUIWindow.children (fun _ => rfl) u,
      Windows.modify_field (·.move dx dy) (·.kind) (fun _ => rfl) u,
      Windows.modify_field (·.move dx dy) (·.windata.winclass) (fun _ => rfl) u⟩

theorem removeChild_eq {top : Option Gid} (hparent : (win w).parent = some q)
    (hchildren : (win q).children = some top) :
    removeChild q w win =
      let win' := relink q w (detach top w win).1 none (detach top w win).2
      move (-(win' q).windata.rect.l) (-(win' q).windata.rect.t) w win' := by
  rw [removeChild, if_neg (Classical.not_not.mpr hparent), hchildren]
  rfl

theorem addChild_eq {top : Option Gid} (hpw : p ≠ w) (hchildren : (win p).children = some top) :
    addChild p w win =
      let win' := relink p w (insert top w win).1 (some p) (insert top w win).2
      move (win' p).windata.rect.l (win' p).windata.rect.t w win' := by
  rw [addChild, if_neg hpw.symm, hchildren]
  rfl

/-- **`removeChild`** takes a window out of the list it is in. -/
theorem removeChild_spec (h : Shape win place lists) (hparent : (win w).parent = some q)
    (hqw : q ≠ w) (hframe : (win q).windata.winclass = .windowFrame) {P : Place}
    (hplace : place w = some P) (hP : P = .kids q ∨ P = .stale q) (hkids : lists (.kids w) = []) :
    ∃ win' l₁ l₂, removeChild q w win = some win' ∧ lists P = l₁ ++ w :: l₂ ∧
      Shape win' (Function.update place w none) (Function.update lists P (l₁ ++ l₂)) ∧
      Changed win win' w (((win w).setParent none).move (-(win q).windata.rect.l)
        (-(win q).windata.rect.t)) := by
  have hmem := (h.threaded.mem_iff P w).mpr hplace
  obtain ⟨l₁, l₂, hsplit⟩ := List.append_of_mem hmem
  have hlinked := h.threaded.linked P
  rw [hsplit] at hlinked
  have hdetached : Detached win (detach (lists (.kids q)).head? w win).2 w := detach_detached hlinked
  -- the head of the children, whether `w` is one of them or was one before
  have htop : (detach (lists (.kids q)).head? w win).1 =
      (Function.update lists P (l₁ ++ l₂) (.kids q)).head? := by
    rcases hP with rfl | rfl
    · rw [Function.update_self, hsplit]
      exact detach_top hlinked
    · rw [Function.update_of_ne (by simp)]
      apply detach_top_of_not_mem
      rw [h.threaded.mem_iff, hplace]
      simp
  have hshape := h.relink (p := q) (w := w) hdetached.core
    (h.threaded.detach hsplit hdetached.next hdetached.prev) (fun f hf => ?_) none
  · rw [← htop] at hshape
    refine ⟨_, l₁, l₂, ?_, hsplit, hshape.move, changed_relink hdetached.core hqw _ _⟩
    have hrect : (relink q w (detach (lists (.kids q)).head? w win).1 none
        (detach (lists (.kids q)).head? w win).2 q).windata.rect = (win q).windata.rect := by
      rw [relink_field (·.windata.rect) (fun _ _ => rfl) (fun _ _ => rfl)]
      exact GUIWindow.field_of_core (·.windata.rect) (fun _ => rfl) (hdetached.core q)
    rw [removeChild_eq hparent (h.children q hframe)]
    simp only [hrect]
    apply move_eq hshape
    rw [Function.update_of_ne, hkids]
    rcases hP with rfl | rfl
    · simpa using hqw.symm
    · simp
  · rw [Function.update_of_ne]
    rcases hP with rfl | rfl
    · simpa using hf
    · simp

/-- **`addChild`** puts a window that is in no list among the children of a frame. -/
theorem addChild_spec (h : Shape win place lists) (hpw : p ≠ w)
    (hframe : (win p).windata.winclass = .windowFrame) (hplace : place w = none)
    (hkids : lists (.kids w) = []) :
    ∃ win' l₁ l₂, addChild p w win = some win' ∧ lists (.kids p) = l₁ ++ l₂ ∧
      Shape win' (Function.update place w (some (.kids p)))
        (Function.update lists (.kids p) (l₁ ++ w :: l₂)) ∧
      Changed win win' w (((win w).setParent (some p)).move (win p).windata.rect.l
        (win p).windata.rect.t) := by
  have hout : w ∉ lists (.kids p) := by
    rw [h.threaded.mem_iff, hplace]
    exact (Option.some_ne_none _).symm
  obtain ⟨l₁, l₂, hsplit, htop, hattached, -, -⟩ := insert_attached (h.threaded.linked (.kids p)) hout
  have hshape := h.relink (p := p) (w := w) hattached.core
    (h.threaded.attach hplace hsplit hattached.next_self hattached.prev_self hattached.next
      hattached.prev) (fun f hf => ?_) (some p)
  · rw [Function.update_self, ← htop] at hshape
    refine ⟨_, l₁, l₂, ?_, hsplit, hshape.move, changed_relink hattached.core hpw _ _⟩
    have hrect : (relink p w (insert (lists (.kids p)).head? w win).1 (some p)
        (insert (lists (.kids p)).head? w win).2 p).windata.rect = (win p).windata.rect := by
      rw [relink_field (·.windata.rect) (fun _ _ => rfl) (fun _ _ => rfl)]
      exact GUIWindow.field_of_core (·.windata.rect) (fun _ => rfl) (hattached.core p)
    rw [addChild_eq hpw (h.children p hframe)]
    simp only [hrect]
    apply move_eq hshape
    rw [Function.update_of_ne, hkids]
    simpa using hpw.symm
  · rw [Function.update_of_ne]
    simpa using hf

/-- The children of `w` become its former children. -/
def unkid (w : Gid) (place : Gid → Option Place) : Gid → Option Place :=
  fun u => if place u = some (.kids w) then some (.stale w) else place u

/-- The data of a window are stored anew: if it is a frame, it has no children any more. -/
theorem Shape.replace (h : Shape win place lists) (hstale : lists (.stale w) = []) {gw : GUIWindow}
    (hnext : gw.next = (win w).next) (hprev : gw.prev = (win w).prev)
    (hkind : gw.kind = .frame ↔ gw.windata.winclass = .windowFrame)
    (hchildren : gw.windata.winclass = .windowFrame → gw.children = some none) :
    Shape (win.modify w fun _ => gw) (unkid w place)
      (Function.update (Function.update lists (.stale w) (lists (.kids w))) (.kids w) []) := by
  refine ⟨?_, ?_, ?_⟩
  · apply (h.threaded.rename (i := .kids w) (j := .stale w) (by simp) hstale).congr
    intro u
    by_cases hu : u = w
    · simp [hu, Windows.next, Windows.prev, hnext, hprev]
    · simp [Windows.next, Windows.prev, Windows.modify_of_ne hu]
  · intro f hf
    by_cases hfw : f = w
    · subst hfw
      rw [Windows.modify_self] at hf ⊢
      rw [hchildren hf, Function.update_self]
      rfl
    · rw [Windows.modify_of_ne hfw] at hf ⊢
      rw [Function.update_of_ne (by simpa using hfw), Function.update_of_ne (by simp)]
      exact h.children f hf
  · intro u
    by_cases hu : u = w
    · rw [hu, Windows.modify_self]
      exact hkind
    · rw [Windows.modify_of_ne hu]
      exact h.kind u

end

/-! ## The environment -/

namespace Environment

variable (env : Environment)

/-- The slot is copied to the window manager. -/
def Updated (i : Fin 16) : Prop :=
  (env.windows i).needsUpdate = true ∧ (env.windows i).winclass.kind?.isSome = true

instance (i : Fin 16) : Decidable (env.Updated i) := inferInstanceAs (Decidable (_ ∧ _))

/-- The slot that holds the parent of a window. -/
def parentOf (i : Fin 16) : Option (Fin 16) :=
  let parentId := (env.windows i).parentId.toInt
  if h : (env.windows i).winclass.kind?.isSome = true ∧ 0 ≤ parentId ∧ parentId < 16 then
    some ⟨parentId.toNat, by omega⟩
  else none

end Environment

/-- An environment whose windows have no parent or a frame of the same process, without cycles. -/
structure Hierarchy extends Environment where
  parent_frame : ∀ i, (windows i).winclass.kind?.isSome = true → (windows i).parentId = -1 ∨
    ∃ p, toEnvironment.parentOf i = some p ∧ (windows p).winclass = .windowFrame
  acyclic : ∀ i, ∃ l, Chain toEnvironment.parentOf (some i) l

/-- Parents in lower slots make no cycles. -/
theorem Environment.acyclic_of_lower {env : Environment}
    (h : ∀ i p, env.parentOf i = some p → p < i) (i : Fin 16) :
    ∃ l, Chain env.parentOf (some i) l := by
  induction i using WellFoundedLT.induction with
  | _ i ih =>
    cases hp : env.parentOf i with
    | none => exact ⟨[i], rfl, hp⟩
    | some p =>
      obtain ⟨l, hl⟩ := ih p (h i p hp)
      exact ⟨i :: l, rfl, hp ▸ hl⟩

theorem gidOf_inj {pid pid' i j : Fin 16} (h : gidOf pid i = gidOf pid' j) : pid = pid' ∧ i = j := by
  have hval := congrArg Fin.val h
  simp only [gidOf] at hval
  exact ⟨by omega, by omega⟩

theorem gidOf_injective {pid i j : Fin 16} (h : gidOf pid i = gidOf pid j) : i = j := (gidOf_inj h).2

/-- The pointer to the parent. -/
theorem parentGid_eq {env : Environment} (pid : Fin 16) {i p : Fin 16}
    (h : env.parentOf i = some p) :
    parentGid pid (env.windows i).parentId = some (gidOf pid p) ∧
      (env.windows i).parentId ≠ -1 := by
  rw [Environment.parentOf] at h
  split at h
  case isTrue hrange =>
    cases h
    have hadd : ((env.windows i).parentId + Int32.ofNat (16 * pid.val)).toInt =
        (env.windows i).parentId.toInt + 16 * pid.val := by
      have hpid : (Int32.ofNat (16 * pid.val)).toInt = 16 * pid.val := by
        rw [Int32.toInt_ofNat_of_lt (by omega)]
        rfl
      rw [Int32.toInt_add, hpid]
      apply Int.bmod_eq_of_le <;> omega
    refine ⟨?_, ?_⟩
    · simp only [parentGid, hadd, gidOf]
      rw [dif_pos (by omega)]
      congr 2
      omega
    · intro heq
      rw [heq] at hrange
      exact absurd hrange.2.1 (by decide)
  case isFalse => cases h

/-- The number of the parent. -/
theorem parentId_eq {env : Environment} {i p : Fin 16} (h : env.parentOf i = some p) :
    (env.windows i).parentId = Int32.ofNat p.val := by
  rw [Environment.parentOf] at h
  split at h
  case isTrue hrange =>
    cases h
    apply Int32.toInt_inj.mp
    rw [Int32.toInt_ofNat_of_lt (by omega)]
    exact (Int.toNat_of_nonneg hrange.2.1).symm
  case isFalse => cases h

/-! ## One slot -/

section

variable {win win' : Windows} {place : Gid → Option Place} {lists : Place → List Gid}
variable {w : Gid} {env : Environment} {pid i : Fin 16}

/-- The window leaves the list of the frame it is in. -/
theorem leaveParent_spec (h : Shape win place lists) (hkids : lists (.kids w) = [])
    (hchild : ∀ q, (win w).parent = some q → q ≠ w ∧ (win q).windata.winclass = .windowFrame ∧
      (place w = some (.kids q) ∨ place w = some (.stale q))) :
    ∃ win' lists', leaveParent w win = some win' ∧
      Shape win' (if (win w).parent = none then place else Function.update place w none) lists' ∧
      lists' .stack = lists .stack ∧ lists' (.kids w) = [] ∧
      (∀ u, u ≠ w → (win' u).bare = (win u).bare) ∧
      ∃ rect needsUpdate, (win' w).bare = (((win w).setParent none).setWindata
        { (win w).windata with rect, needsUpdate }).bare ∧
        ((win w).parent = none → rect = (win w).windata.rect) := by
  rw [leaveParent]
  cases hparent : (win w).parent with
  | none =>
    refine ⟨win, lists, rfl, ?_, rfl, hkids, fun _ _ => rfl, (win w).windata.rect,
      (win w).windata.needsUpdate, ?_, fun _ => rfl⟩
    · rw [if_pos rfl]
      exact h
    · have hself : (win w).setParent none = win w := by
        rw [GUIWindow.setParent, ← hparent]
      rw [hself]
      rfl
  | some q =>
    obtain ⟨hqw, hframe, hplace⟩ := hchild q hparent
    obtain ⟨P, hP, hkind⟩ : ∃ P, place w = some P ∧ (P = .kids q ∨ P = .stale q) := by
      rcases hplace with hplace | hplace
      · exact ⟨_, hplace, .inl rfl⟩
      · exact ⟨_, hplace, .inr rfl⟩
    obtain ⟨win', l₁, l₂, hrun, -, hshape, hchanged⟩ :=
      removeChild_spec h hparent hqw hframe hP hkind hkids
    refine ⟨win', Function.update lists P (l₁ ++ l₂), hrun, ?_, ?_, ?_, hchanged.other, _, _,
      hchanged.self, ?_⟩
    · rw [if_neg (Option.some_ne_none q)]
      exact hshape
    · rw [Function.update_of_ne]
      rcases hkind with rfl | rfl <;> simp
    · rw [Function.update_of_ne, hkids]
      rcases hkind with rfl | rfl
      · simpa using hqw.symm
      · simp
    · exact fun heq => absurd heq (Option.some_ne_none q)

/-- What the loop needs of the window of a slot that it updates. -/
structure SlotReady (pid : Fin 16) (env : Environment) (i : Fin 16) (win : Windows)
    (place : Gid → Option Place) (lists : Place → List Gid) : Prop where
  winclass : (win (gidOf pid i)).windata.winclass = .none ∨
    (win (gidOf pid i)).windata.winclass = (env.windows i).winclass
  dead : (win (gidOf pid i)).windata.winclass = .none →
    (win (gidOf pid i)).parent = none ∧ place (gidOf pid i) = none
  word : (env.windows i).winclass = .windowFrame → (env.windows i).word = 0
  stale : lists (.stale (gidOf pid i)) = []
  child : ∀ q, (win (gidOf pid i)).parent = some q → q ≠ gidOf pid i ∧
    (win q).windata.winclass = .windowFrame ∧
    (place (gidOf pid i) = some (.kids q) ∨ place (gidOf pid i) = some (.stale q))
  root : (win (gidOf pid i)).parent = none → (win (gidOf pid i)).windata.winclass ≠ .none →
    place (gidOf pid i) = some .stack
  parentId : env.parentOf i = none → (env.windows i).parentId = -1
  enters : ∀ p, env.parentOf i = some p →
    ((win (gidOf pid i)).windata.winclass = .none ∨ (win (gidOf pid i)).parent ≠ none) ∧
    gidOf pid p ≠ gidOf pid i ∧ (win (gidOf pid p)).windata.winclass = .windowFrame

/-- What the loop makes of it. -/
structure SlotUpdated (pid : Fin 16) (env : Environment) (i : Fin 16) (win win' : Windows)
    (place place' : Gid → Option Place) (lists lists' : Place → List Gid) : Prop where
  shape : Shape win' place' lists'
  stack : lists' .stack = lists .stack
  other : ∀ u, u ≠ gidOf pid i → (win' u).bare = (win u).bare
  other_place : ∀ u, u ≠ gidOf pid i → place' u = unkid (gidOf pid i) place u
  winclass : (win' (gidOf pid i)).windata.winclass = (env.windows i).winclass
  parentId : (win' (gidOf pid i)).windata.parentId = (env.windows i).parentId
  parent : (win' (gidOf pid i)).parent = (env.parentOf i).map (gidOf pid)
  child : ∀ p, env.parentOf i = some p → place' (gidOf pid i) = some (.kids (gidOf pid p))
  root : env.parentOf i = none →
    place' (gidOf pid i) = none ∨ place' (gidOf pid i) = some .stack
  wmRoot : (win' (gidOf pid i)).wmRoot = none ∨
    (win' (gidOf pid i)).wmRoot = (win (gidOf pid i)).wmRoot

/-- The window as `gui_update_proc` has copied it, before the hierarchy is fixed. -/
theorem recreate_spec (h : Shape win place lists) (hupdated : env.Updated i)
    (hready : SlotReady pid env i win place lists) :
    ∃ gw, (recreate pid env i win).map (fun win₁ =>
        win₁.modify (gidOf pid i) (·.setWindata ((env.windows i).windata env.offset))) =
        some (win.modify (gidOf pid i) fun _ => gw) ∧
      gw.windata = (env.windows i).windata env.offset ∧
      gw.next = (win (gidOf pid i)).next ∧ gw.prev = (win (gidOf pid i)).prev ∧
      gw.parent = (win (gidOf pid i)).parent ∧
      (gw.wmRoot = none ∨ gw.wmRoot = (win (gidOf pid i)).wmRoot) ∧
      (gw.kind = .frame ↔ (env.windows i).winclass = .windowFrame) := by
  by_cases hsame : (env.windows i).winclass = (win (gidOf pid i)).windata.winclass
  · refine ⟨(win (gidOf pid i)).setWindata ((env.windows i).windata env.offset), ?_, rfl, rfl, rfl,
      rfl, .inr rfl, ?_⟩
    · rw [recreate, if_pos hsame]
      rfl
    · rw [hsame]
      exact h.kind _
  · have hnone : (win (gidOf pid i)).windata.winclass = .none :=
      hready.winclass.resolve_right fun heq => hsame heq.symm
    obtain ⟨hparent, hplace⟩ := hready.dead hnone
    obtain ⟨hnext, hprev⟩ := h.threaded.loose _ hplace
    obtain ⟨kind, hkind⟩ := Option.isSome_iff_exists.mp hupdated.2
    refine ⟨(({ (win (gidOf pid i)).construct kind with pid := Int32.ofNat pid.val } :
      GUIWindow)).setWindata ((env.windows i).windata env.offset), ?_, rfl, hnext.symm, hprev.symm,
      hparent.symm, .inl rfl, ?_⟩
    · rw [recreate, if_neg hsame, hkind, Option.map_some, Option.map_some, Windows.modify,
        Windows.modify, Windows.modify, Function.update_idem, Function.update_self]
    · show kind = .frame ↔ _
      cases hclass : (env.windows i).winclass <;> rw [hclass] at hkind <;> cases hkind <;> simp

/-- The new data of a frame name no children. -/
theorem windata_children {gw : GUIWindow} (hdata : gw.windata = (env.windows i).windata env.offset)
    (hframe : (env.windows i).winclass = .windowFrame) (hword : (env.windows i).word = 0) :
    gw.children = some none := by
  rw [GUIWindow.children, hdata, UserWindow.windata, hframe, hword]
  rfl

theorem Environment.Updated.ne_none (h : env.Updated i) : (env.windows i).winclass ≠ .none := by
  intro heq
  have hvalid := h.2
  rw [heq] at hvalid
  cases hvalid

/-- The first loop at slot `k`. -/
theorem updateSlots_drop {k : Nat} (hk : k < 16) :
    updateSlots pid env ((List.finRange 16).drop k) win =
      (updateSlot pid env ⟨k, hk⟩ win).bind fun (returned, win) =>
        if returned then some (true, win)
        else updateSlots pid env ((List.finRange 16).drop (k + 1)) win := by
  rw [List.drop_eq_getElem_cons (by simpa using hk), updateSlots, List.getElem_finRange]
  rfl

/-- **The rule of the first loop.** What every round keeps holds at its end, unless a round returns: then
what this round leaves holds. -/
theorem updateSlots_rule {I : Nat → Windows → Prop} {R : Windows → Prop} {k : Nat} {returned : Bool}
    (hgo : ∀ (i : Fin 16) win win', I i.val win → updateSlot pid env i win = some (false, win') →
      I (i.val + 1) win')
    (hstop : ∀ (i : Fin 16) win win', I i.val win → updateSlot pid env i win = some (true, win') →
      R win')
    (hk : k ≤ 16) (h : I k win)
    (hrun : updateSlots pid env ((List.finRange 16).drop k) win = some (returned, win')) :
    returned = true ∧ R win' ∨ returned = false ∧ I 16 win' := by
  induction hn : 16 - k generalizing k win with
  | zero =>
    have hk16 : k = 16 := by omega
    subst hk16
    rw [List.drop_of_length_le (by simp)] at hrun
    cases hrun
    exact Or.inr ⟨rfl, h⟩
  | succ n ih =>
    have hlt : k < 16 := by omega
    rw [updateSlots_drop hlt] at hrun
    obtain ⟨⟨returned₁, win₁⟩, hslot, hrest⟩ := Option.bind_eq_some_iff.mp hrun
    cases returned₁ with
    | true =>
      cases hrest
      exact Or.inl ⟨rfl, hstop ⟨k, hlt⟩ win _ h hslot⟩
    | false =>
      have hnext : I (k + 1) win₁ := hgo ⟨k, hlt⟩ win _ h hslot
      exact ih (by omega) hnext hrest (by omega)

theorem updateSlot_eq {win₂ win₃ : Windows} (hupdated : env.Updated i)
    (hcopy : (recreate pid env i win).map (fun win₁ =>
      win₁.modify (gidOf pid i) (·.setWindata ((env.windows i).windata env.offset))) = some win₂)
    (hleave : leaveParent (gidOf pid i) win₂ = some win₃) :
    updateSlot pid env i win = enterParent pid env i win₃ := by
  obtain ⟨win₁, hwin₁, rfl⟩ := Option.map_eq_some_iff.mp hcopy
  rw [updateSlot]
  simp only [hupdated.ne_none, hupdated.1, false_or, Bool.true_eq_false, if_false, hwin₁, hleave,
    Option.bind_some]

/-- The four steps of a slot that is updated. -/
theorem updateSlot_of_updated {returned : Bool} (hupdated : env.Updated i)
    (hrun : updateSlot pid env i win = some (returned, win')) :
    ∃ win₁ win₂, recreate pid env i win = some win₁ ∧
      leaveParent (gidOf pid i) (win₁.modify (gidOf pid i)
        (·.setWindata ((env.windows i).windata env.offset))) = some win₂ ∧
      enterParent pid env i win₂ = some (returned, win') := by
  rw [updateSlot] at hrun
  simp only [hupdated.ne_none, hupdated.1, false_or, Bool.true_eq_false, if_false] at hrun
  cases hcopy : recreate pid env i win with
  | none =>
    -- the class of the slot is one of those the window manager knows
    rw [recreate] at hcopy
    split at hcopy
    case isTrue => cases hcopy
    case isFalse =>
      have hvalid := hupdated.2
      rw [Option.map_eq_none_iff.mp hcopy] at hvalid
      cases hvalid
  | some win₁ =>
    simp only [hcopy] at hrun
    obtain ⟨win₂, hleave, henter⟩ := Option.bind_eq_some_iff.mp hrun
    exact ⟨win₁, win₂, rfl, hleave, henter⟩

theorem recreate_of_ne {win₁ : Windows} {u : Gid} (hrun : recreate pid env i win = some win₁)
    (hu : u ≠ gidOf pid i) : win₁ u = win u := by
  rw [recreate] at hrun
  split at hrun
  case isTrue =>
    cases hrun
    rfl
  case isFalse =>
    obtain ⟨kind, -, rfl⟩ := Option.map_eq_some_iff.mp hrun
    exact Windows.modify_of_ne hu

/-- A slot that is not marked, or of a class the window manager does not know, is passed over. -/
theorem updateSlot_of_not_updated (hnot : ¬ env.Updated i)
    (hvalid : (win (gidOf pid i)).windata.winclass ≠ .none →
      (win (gidOf pid i)).windata.winclass.kind?.isSome = true) :
    updateSlot pid env i win = some (false, win) := by
  rw [updateSlot]
  split
  case isTrue => rfl
  case isFalse hcond =>
    obtain ⟨hclass, hneeds⟩ := not_or.mp hcond
    have hkind : (env.windows i).winclass.kind? = none := by
      cases hkind : (env.windows i).winclass.kind? with
      | none => rfl
      | some kind => exact absurd ⟨by simpa using hneeds, by rw [hkind]; rfl⟩ hnot
    have hdiff : (env.windows i).winclass ≠ (win (gidOf pid i)).windata.winclass := by
      intro heq
      rw [← heq, hkind] at hvalid
      exact absurd (hvalid hclass) (by simp)
    rw [recreate, if_neg hdiff, hkind]
    rfl

/-- The window of a slot between leaving its old parent and entering the new one. -/
structure SlotCopied (pid : Fin 16) (env : Environment) (i : Fin 16) (win win' : Windows)
    (place place' : Gid → Option Place) (lists lists' : Place → List Gid) : Prop where
  shape : Shape win' place' lists'
  stack : lists' .stack = lists .stack
  kids : lists' (.kids (gidOf pid i)) = []
  other : ∀ u, u ≠ gidOf pid i → (win' u).bare = (win u).bare
  other_place : ∀ u, u ≠ gidOf pid i → place' u = unkid (gidOf pid i) place u
  winclass : (win' (gidOf pid i)).windata.winclass = (env.windows i).winclass
  parentId : (win' (gidOf pid i)).windata.parentId = (env.windows i).parentId
  parent : (win' (gidOf pid i)).parent = none
  place : place' (gidOf pid i) = if (win (gidOf pid i)).parent = none then
    place (gidOf pid i) else none
  wmRoot : (win' (gidOf pid i)).wmRoot = none ∨
    (win' (gidOf pid i)).wmRoot = (win (gidOf pid i)).wmRoot

/-- A window is not among its own children. -/
theorem SlotReady.unkid_self (hready : SlotReady pid env i win place lists) :
    unkid (gidOf pid i) place (gidOf pid i) = place (gidOf pid i) := by
  rw [unkid, if_neg]
  intro hself
  cases hp : (win (gidOf pid i)).parent with
  | none =>
    by_cases hc : (win (gidOf pid i)).windata.winclass = .none
    · rw [(hready.dead hc).2] at hself
      cases hself
    · rw [hready.root hp hc] at hself
      cases hself
  | some q =>
    obtain ⟨hqw, -, hkids | hstale⟩ := hready.child q hp
    · rw [hkids] at hself
      cases hself
      exact hqw rfl
    · rw [hstale] at hself
      cases hself

/-- The window is copied and leaves the frame it is in. -/
theorem copySlot_spec (h : Shape win place lists) (hupdated : env.Updated i)
    (hready : SlotReady pid env i win place lists) :
    ∃ win' place' lists', updateSlot pid env i win = enterParent pid env i win' ∧
      SlotCopied pid env i win win' place place' lists lists' := by
  obtain ⟨gw, hcopy, hdata, hnext, hprev, hparent, hwmRoot, hkind⟩ :=
    recreate_spec h hupdated hready
  have hclass : gw.windata.winclass = (env.windows i).winclass := by rw [hdata]; rfl
  have hshape := h.replace hready.stale hnext hprev (by rw [hclass]; exact hkind)
    fun hframe => windata_children hdata (hclass ▸ hframe) (hready.word (hclass ▸ hframe))
  have hself₂ : win.modify (gidOf pid i) (fun _ => gw) (gidOf pid i) = gw := Windows.modify_self
  have hother₂ : ∀ u, u ≠ gidOf pid i → win.modify (gidOf pid i) (fun _ => gw) u = win u :=
    fun u hu => Windows.modify_of_ne hu
  obtain ⟨win', lists', hrun, hshape', hstack, hkids, hother, rect, needsUpdate, hself, -⟩ :=
    leaveParent_spec hshape (Function.update_self ..) (by
      intro q hq
      rw [hself₂, hparent] at hq
      obtain ⟨hqw, hframe, hplace⟩ := hready.child q hq
      rw [hother₂ q hqw, hready.unkid_self]
      exact ⟨hqw, hframe, hplace⟩)
  rw [hself₂] at hshape' hself
  rw [hparent] at hshape'
  refine ⟨win', _, lists', updateSlot_eq hupdated hcopy hrun, hshape', ?_, hkids, ?_, ?_, ?_, ?_, ?_,
    ?_, ?_⟩
  · rw [hstack, Function.update_of_ne (by simp), Function.update_of_ne (by simp)]
  · intro u hu
    rw [hother u hu, hother₂ u hu]
  · intro u hu
    split
    · rfl
    · exact Function.update_of_ne hu ..
  · exact (GUIWindow.winclass_of_bare hself).trans hclass
  · rw [GUIWindow.parentId_of_bare hself]
    show gw.windata.parentId = _
    rw [hdata]
    rfl
  · exact GUIWindow.parent_of_bare hself
  · split
    · exact hready.unkid_self
    · exact Function.update_self ..
  · rw [GUIWindow.wmRoot_of_bare hself]
    exact hwmRoot

/-- **One slot**: its window goes where the environment says. -/
theorem updateSlot_spec (h : Shape win place lists) (hupdated : env.Updated i)
    (hready : SlotReady pid env i win place lists) :
    ∃ win' place' lists', updateSlot pid env i win = some (false, win') ∧
      SlotUpdated pid env i win win' place place' lists lists' := by
  obtain ⟨win₁, place₁, lists₁, hrun₁, hcopied⟩ := copySlot_spec h hupdated hready
  rw [hrun₁, enterParent]
  cases hparentOf : env.parentOf i with
  | none =>
    refine ⟨win₁, place₁, lists₁, ?_, hcopied.shape, hcopied.stack, hcopied.other,
      hcopied.other_place, hcopied.winclass, hcopied.parentId, ?_, ?_, ?_, hcopied.wmRoot⟩
    · simp [hready.parentId hparentOf, hcopied.parent]
    · rw [hcopied.parent, hparentOf]
      rfl
    · intro p hp
      rw [hparentOf] at hp
      cases hp
    · intro _
      rw [hcopied.place]
      split
      case isTrue hnone =>
        by_cases hc : (win (gidOf pid i)).windata.winclass = .none
        · exact .inl (hready.dead hc).2
        · exact .inr (hready.root hnone hc)
      case isFalse => exact .inl rfl
  | some p =>
    obtain ⟨hpgid, hpid⟩ := parentGid_eq pid hparentOf
    obtain ⟨hnew, hpw, hframe⟩ := hready.enters p hparentOf
    have hframe₁ : (win₁ (gidOf pid p)).windata.winclass = .windowFrame :=
      (GUIWindow.winclass_of_bare (hcopied.other _ hpw)).trans hframe
    -- the window has left its frame, and enters another one
    have hloose : place₁ (gidOf pid i) = none := by
      rw [hcopied.place]
      split
      case isTrue hnone => exact (hready.dead (hnew.resolve_right fun hsome => hsome hnone)).2
      case isFalse => rfl
    obtain ⟨win', l₁, l₂, hrun, -, hshape, hchanged⟩ :=
      addChild_spec hcopied.shape hpw hframe₁ hloose hcopied.kids
    refine ⟨win', Function.update place₁ (gidOf pid i) (some (.kids (gidOf pid p))),
      Function.update lists₁ (.kids (gidOf pid p)) (l₁ ++ gidOf pid i :: l₂), ?_, hshape, ?_, ?_, ?_,
      ?_, ?_, ?_, ?_, ?_, ?_⟩
    · simp [hpid, hpgid, hframe₁, hrun]
    · rw [Function.update_of_ne (by simp), hcopied.stack]
    · intro u hu
      rw [hchanged.other u hu, hcopied.other u hu]
    · intro u hu
      rw [Function.update_of_ne hu, hcopied.other_place u hu]
    · exact (GUIWindow.winclass_of_bare hchanged.self).trans hcopied.winclass
    · exact (GUIWindow.parentId_of_bare hchanged.self).trans hcopied.parentId
    · rw [hparentOf]
      exact GUIWindow.parent_of_bare hchanged.self
    · intro p' hp'
      rw [hparentOf] at hp'
      cases hp'
      exact Function.update_self ..
    · intro hnone
      rw [hparentOf] at hnone
      cases hnone
    · rw [GUIWindow.wmRoot_of_bare hchanged.self]
      exact hcopied.wmRoot

end

end Shipwreck.Gui
