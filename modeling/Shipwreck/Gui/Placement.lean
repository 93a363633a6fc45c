import Shipwreck.Gui.Manager

/-!
# Where `gui_update_proc` places the children of frames

A child is to be drawn where its own rectangle is, seen from the upper left corner of its frame. What
decides this are the rectangles, the classes and the parents of the windows (`face`), whatever their
lists have become: the results up to `updateSlots_face` hold of all calls that return.
-/

namespace Shipwreck.Gui

/-- A rectangle seen from the upper left corner of another one. -/
def Rect.translate (rect frame : Rect) : Rect :=
  ⟨rect.l + frame.l, rect.t + frame.t, rect.r + frame.l, rect.b + frame.t⟩

/-- `-(l, t)` -/
def Rect.neg (rect : Rect) : Rect := ⟨-rect.l, -rect.t, -rect.r, -rect.b⟩

/-- What the place of a window depends on. -/
def GUIWindow.face (gw : GUIWindow) : Rect × WindowClass × Option Gid :=
  (gw.windata.rect, gw.windata.winclass, gw.parent)

namespace GUIWindow

variable {gw gw' : GUIWindow}

theorem face_of_core (h : gw.core = gw'.core) : gw.face = gw'.face :=
  field_of_core face (fun _ => rfl) h

theorem rect_of_face (h : gw.face = gw'.face) : gw.windata.rect = gw'.windata.rect :=
  congrArg (·.1) h

theorem winclass_of_face (h : gw.face = gw'.face) : gw.windata.winclass = gw'.windata.winclass :=
  congrArg (·.2.1) h

theorem parent_of_face (h : gw.face = gw'.face) : gw.parent = gw'.parent :=
  congrArg (·.2.2) h

end GUIWindow

/-! ## `move`, `removeChild` and `addChild` -/

section

variable {win win' : Windows} {w q p u : Gid} {top : Option Gid} {word : UInt32} {dx dy : Int32}

/-- A window whose union holds a word has no children to move. -/
theorem move_of_bits (hbits : (win w).windata.displayData = .bits word)
    (hrun : move dx dy w win = some win') : win' = win.modify w (·.move dx dy) := by
  rw [move, visit] at hrun
  simp only [Windows.modify_self, GUIWindow.kind_move, GUIWindow.children_move] at hrun
  split at hrun
  case isTrue =>
    have hchildren : (win w).children = if word = 0 then some none else none := by
      rw [GUIWindow.children, hbits]
      rfl
    rw [hchildren] at hrun
    split at hrun
    case isTrue =>
      cases hrun
      rfl
    case isFalse => cases hrun
  case isFalse =>
    cases hrun
    rfl

/-- What happens to the window that is put into a frame or taken out. -/
structure Moved (win win' : Windows) (w : Gid) (parent : Option Gid) (by' : Rect) : Prop where
  other : ∀ u, u ≠ w → (win' u).face = (win u).face
  rect : (win' w).windata.rect = (win w).windata.rect.translate by'
  winclass : (win' w).windata.winclass = (win w).windata.winclass
  parent : (win' w).parent = parent
  displayData : (win' w).windata.displayData = (win w).windata.displayData

/-- The parent of `w` is stored, and `w` is moved. -/
theorem moved_of_core {win₁ : Windows} (hother : ∀ u, u ≠ w → (win₁ u).face = (win u).face)
    (hcore : (win₁ w).core = (win w).core) {parent : Option Gid} {frame : Rect}
    (hbits : (win w).windata.displayData = .bits word)
    (hrun : move frame.l frame.t w (win₁.modify w (·.setParent parent)) = some win') :
    Moved win win' w parent frame := by
  have hwindata : (win₁ w).windata = (win w).windata :=
    GUIWindow.field_of_core (·.windata) (fun _ => rfl) hcore
  have hself : (win₁.modify w (·.setParent parent) w).windata = (win w).windata := by
    rw [Windows.modify_self, GUIWindow.windata_setParent, hwindata]
  rw [move_of_bits (hself ▸ hbits) hrun]
  refine ⟨?_, ?_, ?_, ?_, ?_⟩
  · intro u hu
    rw [Windows.modify_of_ne hu, Windows.modify_of_ne hu, hother u hu]
  · rw [Windows.modify_self, GUIWindow.move, hself]
    rfl
  · rw [Windows.modify_self, GUIWindow.winclass_move, hself]
  · rw [Windows.modify_self, Windows.modify_self]
    rfl
  · rw [Windows.modify_self, GUIWindow.move, hself]
    rfl

theorem removeChild_moved (hparent : (win w).parent = some q) (hqw : q ≠ w)
    (hbits : (win w).windata.displayData = .bits word) (hrun : removeChild q w win = some win') :
    Moved win win' w none (win q).windata.rect.neg := by
  have hface : ∀ top u, ((detach top w win).2 u).face = (win u).face :=
    fun _ u => GUIWindow.face_of_core core_detach
  rw [removeChild, if_neg (Classical.not_not.mpr hparent)] at hrun
  cases hchildren : (win q).children with
  | none =>
    simp only [hchildren] at hrun
    rw [Windows.modify_of_ne hqw, GUIWindow.rect_of_face (hface none q)] at hrun
    exact moved_of_core (fun u _ => hface none u) core_detach hbits hrun
  | some top =>
    simp only [hchildren] at hrun
    rw [Windows.modify_of_ne hqw, Windows.modify_self] at hrun
    have hrect : (((detach top w win).2 q).setChildren (detach top w win).1).windata.rect =
        (win q).windata.rect := GUIWindow.rect_of_face (hface top q)
    rw [hrect] at hrun
    refine moved_of_core (fun u _ => ?_) ?_ hbits hrun
    · rw [Windows.modify_field (·.setChildren _) GUIWindow.face fun _ => rfl, hface]
    · rw [Windows.modify_of_ne hqw.symm, core_detach]

theorem addChild_moved (hpw : p ≠ w) (hbits : (win w).windata.displayData = .bits word)
    (hrun : addChild p w win = some win') :
    Moved win win' w (some p) (win p).windata.rect := by
  have hface : ∀ top u, ((insert top w win).2 u).face = (win u).face :=
    fun _ u => GUIWindow.face_of_core core_insert
  rw [addChild, if_neg hpw.symm] at hrun
  obtain ⟨top, -, hrun⟩ := Option.bind_eq_some_iff.mp hrun
  simp only at hrun
  rw [Windows.modify_of_ne hpw, Windows.modify_self] at hrun
  have hrect : (((insert top w win).2 p).setChildren (insert top w win).1).windata.rect =
      (win p).windata.rect := GUIWindow.rect_of_face (hface top p)
  rw [hrect] at hrun
  refine moved_of_core (fun u _ => ?_) ?_ hbits hrun
  · rw [Windows.modify_field (·.setChildren _) GUIWindow.face fun _ => rfl, hface]
  · rw [Windows.modify_of_ne hpw.symm, core_insert]

end

/-! ## One slot -/

section

variable {pid i : Fin 16} {env : Environment} {win win' : Windows} {returned : Bool}

/-- The window has been in no frame, or a new object is made in its place. -/
def Free (pid : Fin 16) (env : Environment) (win : Windows) (i : Fin 16) : Prop :=
  (win (gidOf pid i)).parent = none ∨
    (win (gidOf pid i)).windata.winclass ≠ (env.windows i).winclass

instance (pid : Fin 16) (env : Environment) (win : Windows) (i : Fin 16) :
    Decidable (Free pid env win i) := inferInstanceAs (Decidable (_ ∨ _))

/-- The window of a slot has the data of the user, and is in no frame any more. -/
structure Copied (pid : Fin 16) (env : Environment) (i : Fin 16) (win win' : Windows) : Prop where
  other : ∀ u, u ≠ gidOf pid i → (win' u).face = (win u).face
  winclass : (win' (gidOf pid i)).windata.winclass = (env.windows i).winclass
  parent : (win' (gidOf pid i)).parent = none
  displayData : ∃ word, (win' (gidOf pid i)).windata.displayData = .bits word
  free : Free pid env win i →
    (win' (gidOf pid i)).windata.rect = (env.windows i).rect
  kept : ∀ q, ¬ Free pid env win i → (win (gidOf pid i)).parent = some q →
    (win' (gidOf pid i)).windata.rect = (env.windows i).rect.translate (win q).windata.rect.neg

/-- A new object is in no frame. -/
theorem recreate_parent {win₁ : Windows} (hrun : recreate pid env i win = some win₁) :
    (win₁ (gidOf pid i)).parent = if Free pid env win i then none else (win (gidOf pid i)).parent := by
  rw [recreate] at hrun
  split at hrun
  case isTrue hsame =>
    cases hrun
    split
    case isTrue hfree => exact hfree.resolve_right fun hne => hne hsame.symm
    case isFalse => rfl
  case isFalse hdiff =>
    obtain ⟨kind, -, rfl⟩ := Option.map_eq_some_iff.mp hrun
    rw [Windows.modify_self, if_pos (.inr fun heq => hdiff heq.symm)]
    rfl

theorem copySlot_face (hupdated : env.Updated i)
    (hself : (win (gidOf pid i)).parent ≠ some (gidOf pid i))
    (hrun : updateSlot pid env i win = some (returned, win')) :
    ∃ win₁, Copied pid env i win win₁ ∧ enterParent pid env i win₁ = some (returned, win') := by
  obtain ⟨win₁, win₃, hcopy, hleave, henter⟩ := updateSlot_of_updated hupdated hrun
  generalize hwin₂ : win₁.modify (gidOf pid i)
    (·.setWindata ((env.windows i).windata env.offset)) = win₂ at hleave
  have hother₂ : ∀ u, u ≠ gidOf pid i → win₂ u = win u := by
    intro u hu
    rw [← hwin₂, Windows.modify_of_ne hu, recreate_of_ne hcopy hu]
  have hwindata : (win₂ (gidOf pid i)).windata = (env.windows i).windata env.offset := by
    rw [← hwin₂, Windows.modify_self]
    rfl
  have hparent₂ : (win₂ (gidOf pid i)).parent = if Free pid env win i then none
      else (win (gidOf pid i)).parent := by
    rw [← hwin₂, Windows.modify_self, ← recreate_parent hcopy]
    rfl
  refine ⟨win₃, ?_, henter⟩
  rw [leaveParent] at hleave
  split at hleave
  case h_1 q hq =>
    have hfree : ¬ Free pid env win i := by
      intro hfree
      rw [hparent₂, if_pos hfree] at hq
      cases hq
    rw [hparent₂, if_neg hfree] at hq
    have hqw : q ≠ gidOf pid i := by
      rintro rfl
      exact hself hq
    obtain ⟨word, hbits⟩ : ∃ word, (win₂ (gidOf pid i)).windata.displayData = .bits word :=
      ⟨_, by rw [hwindata]; rfl⟩
    -- the window has been copied already, and is moved by the offset of its old frame
    have hmoved := removeChild_moved (by rw [hparent₂, if_neg hfree, hq]) hqw hbits hleave
    refine ⟨?_, ?_, hmoved.parent, ⟨_, hmoved.displayData.trans hbits⟩,
      fun h => absurd h hfree, ?_⟩
    · intro u hu
      rw [hmoved.other u hu, hother₂ u hu]
    · rw [hmoved.winclass, hwindata]
      rfl
    · intro q' _ hq'
      rw [hq] at hq'
      cases hq'
      rw [hmoved.rect, hwindata, hother₂ q hqw]
      rfl
  case h_2 hnone =>
    cases hleave
    refine ⟨fun u hu => by rw [hother₂ u hu], ?_, hnone, ⟨_, by rw [hwindata]; rfl⟩, ?_, ?_⟩
    · rw [hwindata]
      rfl
    · intro _
      rw [hwindata]
      rfl
    · intro q hfree hq
      rw [hparent₂, if_neg hfree, hq] at hnone
      cases hnone

/-- The window enters the frame that the environment names. -/
theorem enterParent_child {p : Fin 16} {word : UInt32} (hp : env.parentOf i = some p) (hpi : p ≠ i)
    (hframe : (win (gidOf pid p)).windata.winclass = .windowFrame)
    (hbits : (win (gidOf pid i)).windata.displayData = .bits word)
    (hrun : enterParent pid env i win = some (returned, win')) :
    returned = false ∧ Moved win win' (gidOf pid i) (some (gidOf pid p))
      (win (gidOf pid p)).windata.rect := by
  obtain ⟨hpgid, hpid⟩ := parentGid_eq pid hp
  rw [enterParent] at hrun
  simp only [hpid, ne_eq, not_false_eq_true, if_true, hpgid, Option.bind_eq_bind,
    Option.bind_some, hframe, not_true, if_false] at hrun
  obtain ⟨win₁, hadd, hend⟩ := Option.bind_eq_some_iff.mp hrun
  cases hend
  exact ⟨rfl, addChild_moved (fun heq => hpi (gidOf_injective heq)) hbits hadd⟩

/-- A top-level window stays where it is. -/
theorem enterParent_root (hid : (env.windows i).parentId = -1)
    (hparent : (win (gidOf pid i)).parent = none)
    (hrun : enterParent pid env i win = some (returned, win')) :
    returned = false ∧ win' = win := by
  rw [enterParent] at hrun
  simp only [hid, hparent] at hrun
  simp at hrun
  exact ⟨hrun.1, hrun.2.symm⟩

end

/-! ## The first loop -/

/-- An environment whose windows are in frames of lower slots. -/
structure Layout extends Hierarchy where
  lower : ∀ i p, toEnvironment.parentOf i = some p → p < i

/-- The frame `q` begins at `(0, 0)` when the loop comes to slot `i`. -/
def AtOrigin (pid : Fin 16) (env : Environment) (win : Windows) (i : Fin 16) (q : Gid) : Prop :=
  ¬ Done pid env i.val q ∧ (win q).windata.rect.l = 0 ∧ (win q).windata.rect.t = 0 ∨
  ∃ j, q = gidOf pid j ∧ j < i ∧ env.Updated j ∧ env.parentOf j = none ∧ Free pid env win j ∧
    (env.windows j).rect.l = 0 ∧ (env.windows j).rect.t = 0

instance (pid : Fin 16) (env : Environment) (win : Windows) (i : Fin 16) (q : Gid) :
    Decidable (AtOrigin pid env win i q) := inferInstanceAs (Decidable (_ ∨ ∃ _, _))

/-- What the environment may ask for: the frame of every child that is updated is there, and the child
has been in no frame before, or is made anew, or its old frame begins at `(0, 0)`. -/
structure InPlace (pid : Fin 16) (env : Environment) (win : Windows) : Prop where
  parent : ∀ i p, env.Updated i → env.parentOf i = some p →
    (win (gidOf pid p)).windata.winclass = .windowFrame ∨ env.Updated p
  free : ∀ i, env.Updated i → env.parentOf i ≠ none → Free pid env win i ∨
    ∃ q, (win (gidOf pid i)).parent = some q ∧ AtOrigin pid env win i q

instance (pid : Fin 16) (env : Environment) (win : Windows) : Decidable (InPlace pid env win) :=
  decidable_of_iff ((∀ i p, env.Updated i → env.parentOf i = some p →
      (win (gidOf pid p)).windata.winclass = .windowFrame ∨ env.Updated p) ∧
    ∀ i, env.Updated i → env.parentOf i ≠ none → Free pid env win i ∨
      ∃ q, (win (gidOf pid i)).parent = some q ∧ AtOrigin pid env win i q)
    ⟨fun ⟨hparent, hfree⟩ => ⟨hparent, hfree⟩, fun h => ⟨h.parent, h.free⟩⟩

/-- What all calls keep: parents come first, and the classes are those the window manager knows. -/
structure Tame (win : Windows) : Prop where
  below : ∀ w p, (win w).parent = some p → p < w
  valid : ∀ w, (win w).windata.winclass ≠ .none → (win w).windata.winclass.kind?.isSome = true

/-- The loop has come to slot `k`. -/
structure Laid (pid : Fin 16) (env : Environment) (win₀ : Windows) (k : Nat) (win : Windows) :
    Prop where
  undone : ∀ u, ¬ Done pid env k u → (win u).face = (win₀ u).face
  winclass : ∀ i, i.val < k → env.Updated i →
    (win (gidOf pid i)).windata.winclass = (env.windows i).winclass
  parent : ∀ i, i.val < k → env.Updated i →
    (win (gidOf pid i)).parent = (env.parentOf i).map (gidOf pid)
  child : ∀ i p, i.val < k → env.Updated i → env.parentOf i = some p →
    (win (gidOf pid i)).windata.rect =
      (env.windows i).rect.translate (win (gidOf pid p)).windata.rect
  root : ∀ i, i.val < k → env.Updated i → env.parentOf i = none → Free pid env win₀ i →
    (win (gidOf pid i)).windata.rect = (env.windows i).rect

theorem Rect.translate_neg_of_origin {rect frame : Rect} (hl : frame.l = 0) (ht : frame.t = 0) :
    rect.translate frame.neg = rect := by
  simp [translate, neg, hl, ht]

theorem gidOf_lt {pid i j : Fin 16} (h : i < j) : gidOf pid i < gidOf pid j := by
  simp only [gidOf, Fin.lt_def] at h ⊢
  omega

namespace Laid

variable {pid i : Fin 16} {layout : Layout} {win₀ win win' : Windows} {k : Nat} {returned : Bool}

theorem start (pid : Fin 16) (layout : Layout) (win₀ : Windows) :
    Laid pid layout.toEnvironment win₀ 0 win₀ where
  undone _ _ := rfl
  winclass _ hi := absurd hi (Nat.not_lt_zero _)
  parent _ hi := absurd hi (Nat.not_lt_zero _)
  child _ _ hi := absurd hi (Nat.not_lt_zero _)
  root _ hi := absurd hi (Nat.not_lt_zero _)

/-- A slot that is not updated is passed over. -/
theorem skip (h : Laid pid layout.toEnvironment win₀ k win) (htame : Tame win₀) (hi : i.val = k)
    (hnot : ¬ layout.Updated i)
    (hrun : updateSlot pid layout.toEnvironment i win = some (returned, win')) :
    returned = false ∧ Laid pid layout.toEnvironment win₀ (k + 1) win' := by
  have hdone : ∀ u, Done pid layout.toEnvironment (k + 1) u ↔ Done pid layout.toEnvironment k u :=
    fun u => Done.succ_iff_of_not_updated hi hnot
  have hbelow : ∀ j : Fin 16, j.val < k + 1 → layout.Updated j → j.val < k :=
    fun j hj hupdated => Done.lt_of_lt_succ hi (fun heq => hnot (heq ▸ hupdated)) hj
  rw [updateSlot_of_not_updated hnot] at hrun
  · cases hrun
    refine ⟨rfl, ?_, ?_, ?_, ?_, ?_⟩
    · exact fun u hu => h.undone u fun hd => hu ((hdone u).mpr hd)
    · exact fun j hj hupdated => h.winclass j (hbelow j hj hupdated) hupdated
    · exact fun j hj hupdated => h.parent j (hbelow j hj hupdated) hupdated
    · exact fun j p hj hupdated => h.child j p (hbelow j hj hupdated) hupdated
    · exact fun j hj hupdated => h.root j (hbelow j hj hupdated) hupdated
  · rw [GUIWindow.winclass_of_face (h.undone _ (Done.not_self pid layout.toEnvironment hi))]
    exact htame.valid _

/-- The next slot looks at the window as it was before the call. -/
theorem free_iff (h : Laid pid layout.toEnvironment win₀ k win) (hi : i.val = k) :
    Free pid layout.toEnvironment win i ↔ Free pid layout.toEnvironment win₀ i := by
  have hface := h.undone _ (Done.not_self pid layout.toEnvironment hi)
  rw [Free, Free, GUIWindow.parent_of_face hface, GUIWindow.winclass_of_face hface]

/-- The frame that the window is to be in is there. -/
theorem frame (h : Laid pid layout.toEnvironment win₀ k win)
    (hok : InPlace pid layout.toEnvironment win₀) (hi : i.val = k) (hupdated : layout.Updated i)
    {p : Fin 16} (hp : layout.parentOf i = some p) :
    (win (gidOf pid p)).windata.winclass = .windowFrame := by
  have hpi : p < i := layout.lower i p hp
  by_cases hupdated' : layout.Updated p
  · rw [h.winclass p (by omega) hupdated']
    rcases layout.parent_frame i hupdated.2 with hroot | ⟨p', hp', hframe⟩
    · exact absurd hroot (parentGid_eq pid hp).2
    · rw [hp] at hp'
      cases hp'
      exact hframe
  · rw [GUIWindow.winclass_of_face (h.undone _ ?_)]
    · exact (hok.parent i p hupdated hp).resolve_right hupdated'
    · rintro ⟨j, -, hj, heq⟩
      exact hupdated' (gidOf_injective heq ▸ hj)

/-- The frame that the window leaves begins at `(0, 0)`. -/
theorem origin (h : Laid pid layout.toEnvironment win₀ k win) (hi : i.val = k) {q : Gid}
    (hq : AtOrigin pid layout.toEnvironment win₀ i q) :
    (win q).windata.rect.l = 0 ∧ (win q).windata.rect.t = 0 := by
  rcases hq with ⟨hundone, hl, ht⟩ | ⟨j, rfl, hji, hupdated, hroot, hfree, hl, ht⟩
  · rw [GUIWindow.rect_of_face (h.undone q (hi ▸ hundone))]
    exact ⟨hl, ht⟩
  · rw [h.root j (by omega) hupdated hroot hfree]
    exact ⟨hl, ht⟩

/-- **One slot is updated**: its window is placed in the frame it enters. -/
theorem advance (h : Laid pid layout.toEnvironment win₀ k win) (htame : Tame win₀)
    (hok : InPlace pid layout.toEnvironment win₀) (hi : i.val = k) (hupdated : layout.Updated i)
    (hrun : updateSlot pid layout.toEnvironment i win = some (returned, win')) :
    returned = false ∧ Laid pid layout.toEnvironment win₀ (k + 1) win' := by
  have hundone := h.undone _ (Done.not_self pid layout.toEnvironment hi)
  obtain ⟨win₁, hcopied, henter⟩ := copySlot_face hupdated (by
    rw [GUIWindow.parent_of_face hundone]
    exact fun hself => lt_irrefl _ (htame.below _ _ hself)) hrun
  obtain ⟨word, hbits⟩ := hcopied.displayData
  -- what the slot makes of its own window, and of no other
  obtain ⟨hreturned, hother, hclass, hparent, hchild, hroot⟩ : returned = false ∧
      (∀ u, u ≠ gidOf pid i → (win' u).face = (win u).face) ∧
      (win' (gidOf pid i)).windata.winclass = (layout.windows i).winclass ∧
      (win' (gidOf pid i)).parent = (layout.parentOf i).map (gidOf pid) ∧
      (∀ p, layout.parentOf i = some p → (win' (gidOf pid i)).windata.rect =
        (layout.windows i).rect.translate (win (gidOf pid p)).windata.rect) ∧
      (layout.parentOf i = none → Free pid layout.toEnvironment win₀ i →
        (win' (gidOf pid i)).windata.rect = (layout.windows i).rect) := by
    cases hp : layout.parentOf i with
    | none =>
      have hid : (layout.windows i).parentId = -1 := by
        rcases layout.parent_frame i hupdated.2 with hid | ⟨p, hp', -⟩
        · exact hid
        · rw [hp] at hp'
          cases hp'
      obtain ⟨hreturned, rfl⟩ := enterParent_root hid hcopied.parent henter
      refine ⟨hreturned, hcopied.other, hcopied.winclass, hcopied.parent, ?_, ?_⟩
      · intro p hp'
        cases hp'
      · exact fun _ hfree => hcopied.free ((h.free_iff hi).mpr hfree)
    | some p =>
      have hpi : p ≠ i := ne_of_lt (layout.lower i p hp)
      have hne : gidOf pid p ≠ gidOf pid i := fun heq => hpi (gidOf_injective heq)
      have hframe : (win₁ (gidOf pid p)).windata.winclass = .windowFrame :=
        (GUIWindow.winclass_of_face (hcopied.other _ hne)).trans (h.frame hok hi hupdated hp)
      obtain ⟨hreturned, hmoved⟩ := enterParent_child hp hpi hframe hbits henter
      refine ⟨hreturned, ?_, hmoved.winclass.trans hcopied.winclass, hmoved.parent, ?_, ?_⟩
      · intro u hu
        rw [hmoved.other u hu, hcopied.other u hu]
      · intro p' hp'
        cases hp'
        have hrect : (win₁ (gidOf pid i)).windata.rect = (layout.windows i).rect := by
          rcases hok.free i hupdated (by rw [hp]; exact Option.some_ne_none p) with
            hfree | ⟨q, hq, horigin⟩
          · exact hcopied.free ((h.free_iff hi).mpr hfree)
          · by_cases hfree : Free pid layout.toEnvironment win i
            · exact hcopied.free hfree
            · obtain ⟨hl, ht⟩ := h.origin hi horigin
              rw [hcopied.kept q hfree ((GUIWindow.parent_of_face hundone).trans hq)]
              exact Rect.translate_neg_of_origin hl ht
        rw [hmoved.rect, hrect, GUIWindow.rect_of_face (hcopied.other _ hne)]
      · intro hnone
        cases hnone
  have hbelow : ∀ j : Fin 16, j ≠ i → j.val < k + 1 → j.val < k ∧
      (win' (gidOf pid j)).face = (win (gidOf pid j)).face :=
    fun j hji hj => ⟨Done.lt_of_lt_succ hi hji hj, hother _ fun heq => hji (gidOf_injective heq)⟩
  refine ⟨hreturned, ?_, ?_, ?_, ?_, ?_⟩
  · intro u hu
    obtain ⟨hu, hne⟩ := Done.not_of_succ hi hupdated hu
    rw [hother u hne, h.undone u hu]
  · intro j hj hupdated'
    by_cases hji : j = i
    · rw [hji, hclass]
    · obtain ⟨hj, hface⟩ := hbelow j hji hj
      rw [GUIWindow.winclass_of_face hface, h.winclass j hj hupdated']
  · intro j hj hupdated'
    by_cases hji : j = i
    · rw [hji, hparent]
    · obtain ⟨hj, hface⟩ := hbelow j hji hj
      rw [GUIWindow.parent_of_face hface, h.parent j hj hupdated']
  · intro j p hj hupdated' hp
    have hpj : p < j := layout.lower j p hp
    have hpi : gidOf pid p ≠ gidOf pid i := by
      intro heq
      have := gidOf_injective heq
      omega
    rw [GUIWindow.rect_of_face (hother _ hpi)]
    by_cases hji : j = i
    · rw [hji] at hp ⊢
      exact hchild p hp
    · obtain ⟨hj, hface⟩ := hbelow j hji hj
      rw [GUIWindow.rect_of_face hface, h.child j p hj hupdated' hp]
  · intro j hj hupdated' hp hfree
    by_cases hji : j = i
    · rw [hji] at hp hfree ⊢
      exact hroot hp hfree
    · obtain ⟨hj, hface⟩ := hbelow j hji hj
      rw [GUIWindow.rect_of_face hface, h.root j hj hupdated' hp hfree]

/-- The rest of the loop. -/
theorem run (h : Laid pid layout.toEnvironment win₀ k win) (htame : Tame win₀)
    (hok : InPlace pid layout.toEnvironment win₀) (hk : k ≤ 16)
    (hrun : updateSlots pid layout.toEnvironment ((List.finRange 16).drop k) win =
      some (returned, win')) :
    returned = false ∧ Laid pid layout.toEnvironment win₀ 16 win' := by
  have hround (i : Fin 16) (win win₁ : Windows) (returned : Bool)
      (h : Laid pid layout.toEnvironment win₀ i.val win)
      (hslot : updateSlot pid layout.toEnvironment i win = some (returned, win₁)) :
      returned = false ∧ Laid pid layout.toEnvironment win₀ (i.val + 1) win₁ := by
    by_cases hupdated : layout.Updated i
    · exact h.advance htame hok rfl hupdated hslot
    · exact h.skip htame rfl hupdated hslot
  -- no round returns
  have hstop (i : Fin 16) (win win₁ : Windows) (h : Laid pid layout.toEnvironment win₀ i.val win)
      (hslot : updateSlot pid layout.toEnvironment i win = some (true, win₁)) : False :=
    Bool.noConfusion (hround i win win₁ true h hslot).1
  rcases updateSlots_rule (R := fun _ => False)
    (fun i win win₁ h hslot => (hround i win win₁ false h hslot).2) hstop hk h hrun with
    ⟨-, hfalse⟩ | hend
  · exact hfalse.elim
  · exact hend

theorem tame (h : Laid pid layout.toEnvironment win₀ 16 win) (htame : Tame win₀) : Tame win where
  below w p hp := by
    by_cases hdone : Done pid layout.toEnvironment 16 w
    · obtain ⟨i, hi, hupdated, rfl⟩ := hdone
      rw [h.parent i hi hupdated] at hp
      obtain ⟨j, hj, rfl⟩ := Option.map_eq_some_iff.mp hp
      exact gidOf_lt (layout.lower i j hj)
    · rw [GUIWindow.parent_of_face (h.undone w hdone)] at hp
      exact htame.below w p hp
  valid w hw := by
    by_cases hdone : Done pid layout.toEnvironment 16 w
    · obtain ⟨i, hi, hupdated, rfl⟩ := hdone
      rw [h.winclass i hi hupdated]
      exact hupdated.2
    · rw [GUIWindow.winclass_of_face (h.undone w hdone)] at hw ⊢
      exact htame.valid w hw

end Laid

/-! ## Successive calls -/

/-- Every child that the call has updated is where its rectangle says, seen from its frame. -/
def Placed (pid : Fin 16) (env : Environment) (win : Windows) : Prop :=
  ∀ i p, env.Updated i → env.parentOf i = some p → (win (gidOf pid i)).windata.rect =
    (env.windows i).rect.translate (win (gidOf pid p)).windata.rect

/-- **A call of `gui_update_proc`** places the children. -/
theorem guiUpdateProc_placed {pid : Fin 16} {layout : Layout} {wm wm' : WindowManager}
    (htame : Tame wm.winIndex) (hok : InPlace pid layout.toEnvironment wm.winIndex)
    (hrun : guiUpdateProc pid layout.toEnvironment wm = some wm') :
    Tame wm'.winIndex ∧ Placed pid layout.toEnvironment wm'.winIndex := by
  obtain ⟨⟨returned, win₁⟩, hslots, hrest⟩ := Option.bind_eq_some_iff.mp hrun
  obtain ⟨rfl, hlaid⟩ := (Laid.start pid layout wm.winIndex).run htame hok (Nat.zero_le 16) hslots
  have hface := rootSlots_field (g := GUIWindow.face) (fun _ => rfl) (fun _ _ => rfl) hrest
  refine ⟨⟨?_, ?_⟩, ?_⟩
  · intro w p hp
    rw [GUIWindow.parent_of_face (hface w)] at hp
    exact (hlaid.tame htame).below w p hp
  · intro w
    rw [GUIWindow.winclass_of_face (hface w)]
    exact (hlaid.tame htame).valid w
  · intro i p hupdated hp
    rw [GUIWindow.rect_of_face (hface _), GUIWindow.rect_of_face (hface (gidOf pid p))]
    exact hlaid.child i p i.isLt hupdated hp

/-- `update_gui` again and again: the window manager, and the call that has just returned. -/
def updates : Machine (WindowManager × Option (Fin 16 × Layout)) (Fin 16 × Layout) where
  init s := manager.init s.1 ∧ s.2 = none
  step s call := (guiUpdateProc call.1 call.2.toEnvironment s.1).map fun wm => (wm, some call)

/-- The children that have just been updated are where they belong. -/
def JustPlaced (s : WindowManager × Option (Fin 16 × Layout)) : Prop :=
  ∀ call, s.2 = some call → Placed call.1 call.2.toEnvironment s.1.winIndex

theorem Tame.boot (screen : Rect) (image : UInt32) (unions : Gid → UInt32) :
    Tame (boot screen image unions).winIndex where
  below w p hp := by
    by_cases hw : w = desktopGid
    · rw [hw, boot_zero] at hp
      cases hp
    · rw [boot_of_ne screen image unions hw] at hp
      cases hp
  valid w hw := by
    by_cases hw0 : w = desktopGid
    · rw [hw0, boot_zero]
      rfl
    · rw [boot_of_ne screen image unions hw0] at hw
      exact absurd rfl hw

/-- **Children are placed relative to their frames**, in every run of calls that are in place; and the
calls return if they are in order too. -/
theorem children_placed {s : WindowManager × Option (Fin 16 × Layout)} (hinit : updates.init s)
    (calls : List (Fin 16 × Layout))
    (hok : updates.Steps (fun s call => InPlace call.1 call.2.toEnvironment s.1.winIndex) s calls) :
    updates.States JustPlaced s calls ∧
      (updates.Steps (fun s call => Orderly call.1 call.2.toEnvironment s.1.winIndex) s calls →
        (updates.exec s calls).isSome = true) := by
  obtain ⟨wm, last⟩ := s
  obtain ⟨⟨screen, image, unions, rfl⟩, rfl⟩ := hinit
  refine ⟨?_, ?_⟩
  · have hstart : JustPlaced (boot screen image unions, none) := by
      intro call hnone
      cases hnone
    apply Machine.states_of_steps (I := fun s => Tame s.1.winIndex ∧ JustPlaced s)
      (fun _ h => h.2) _ ⟨Tame.boot screen image unions, hstart⟩ hok
    intro s call s' h hplace hstep
    obtain ⟨wm', hrun, rfl⟩ := Option.map_eq_some_iff.mp hstep
    obtain ⟨htame, hplaced⟩ := guiUpdateProc_placed h.1 hplace hrun
    refine ⟨htame, ?_⟩
    intro call' heq
    cases heq
    exact hplaced
  · intro horderly
    have hstep : ∀ (s : WindowManager × Option (Fin 16 × Layout)) (call : Fin 16 × Layout),
        Settled s.1 → Orderly call.1 call.2.toEnvironment s.1.winIndex →
        ∃ s', updates.step s call = some s' ∧ Settled s'.1 := by
      intro s call h hcall
      obtain ⟨wm', hrun, hsettled⟩ := manager_step (.update call.1 call.2.toHierarchy) h hcall
      exact ⟨(wm', some call), Option.map_eq_some_iff.mpr ⟨wm', hrun, rfl⟩, hsettled⟩
    obtain ⟨s', hrun, -⟩ := Machine.exec_of_steps (I := fun s => Settled s.1) hstep
      ⟨_, _, Grown.start screen image unions⟩ horderly
    rw [hrun]
    rfl

def guiLayout (frame background text : Bool) : Layout where
  toHierarchy := guiModel frame background text
  lower := guiModelWindows_lower frame background text

theorem guiLayout_placed :
    updates.Steps (fun s call => InPlace call.1 call.2.toEnvironment s.1.winIndex)
      (boot ⟨0, 0, 800, 600⟩ 4096 fun _ => 0, none)
      [(0, guiLayout true true true), (1, guiLayout true true true), (0, guiLayout true false false)] ∧
    (updates.States JustPlaced (boot ⟨0, 0, 800, 600⟩ 4096 fun _ => 0, none)
      [(0, guiLayout true true true), (1, guiLayout true true true), (0, guiLayout true false false)] ∧
    (updates.Steps (fun s call => Orderly call.1 call.2.toEnvironment s.1.winIndex)
      (boot ⟨0, 0, 800, 600⟩ 4096 fun _ => 0, none)
      [(0, guiLayout true true true), (1, guiLayout true true true), (0, guiLayout true false false)] →
      (updates.exec (boot ⟨0, 0, 800, 600⟩ 4096 fun _ => 0, none)
        [(0, guiLayout true true true), (1, guiLayout true true true),
          (0, guiLayout true false false)]).isSome = true)) :=
  ⟨by decide +kernel, children_placed ⟨⟨_, _, _, rfl⟩, rfl⟩ _ (by decide +kernel)⟩

/-- A child that is updated alone, in the frame it has been in. -/
theorem child_displaced : ∃ s, updates.exec (boot ⟨0, 0, 800, 600⟩ 4096 fun _ => 0, none)
      [(0, guiLayout true true true), (0, guiLayout false false true)] = some s ∧
    ¬ JustPlaced s := by
  have hrun : (updates.exec (boot ⟨0, 0, 800, 600⟩ 4096 fun _ => 0, none)
      [(0, guiLayout true true true), (0, guiLayout false false true)]).map
      (fun s => ((s.1.winIndex 1).windata.rect, (s.1.winIndex 3).windata.rect)) =
      some (⟨200, 150, 600, 450⟩, ⟨20, 20, 380, 280⟩) := by decide +kernel
  obtain ⟨⟨wm, last⟩, hs, hrects⟩ := Option.map_eq_some_iff.mp hrun
  obtain ⟨hframe, hchild⟩ := Prod.mk.inj hrects
  refine ⟨(wm, last), hs, ?_⟩
  obtain ⟨s₁, -, hlast⟩ := Option.bind_eq_some_iff.mp hs
  obtain ⟨s₂, hcall, hend⟩ := Option.bind_eq_some_iff.mp hlast
  obtain ⟨wm', -, rfl⟩ := Option.map_eq_some_iff.mp hcall
  cases hend
  intro h
  have hrect := h _ rfl 3 1 (by decide) (by decide)
  have hmoved : (⟨20, 20, 380, 280⟩ : Rect) =
      Rect.translate ⟨20, 20, 380, 280⟩ ⟨200, 150, 600, 450⟩ :=
    hchild.symm.trans (hrect.trans (congrArg (Rect.translate _) hframe))
  exact absurd hmoved (by decide)

end Shipwreck.Gui
