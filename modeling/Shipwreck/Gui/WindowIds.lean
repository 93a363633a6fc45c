import Shipwreck.Gui.Paint
import Shipwreck.Gui.Manager

/-!
# The two numbers of a window

`gui_update_proc` finds the window of a slot by the number of the slot, `i + (pid << 4)`. `update_pick_buf`
writes another number for it, from two fields of the window, and a click is decoded with this one:

    i + (pid << 4)                                   where the window is
    ((win->pid & 0xF) << 4) | (win->windata.id & 0xF)    where a click on it goes

The field `pid` is right for every live window (`Owned`). The field `id` is whatever the process has written,
so that the numbers agree just for the windows whose `id` ends in the number of their slot.
-/

namespace Shipwreck.Gui

/-! ## The numbers -/

/-- `getGUIWindow`. -/
def getGUIWindow (index : Int32) : Option Gid :=
  let index := index.toInt
  if h : 0 ≤ index ∧ index < 256 then some ⟨index.toNat, by omega⟩ else none

/-- The window that a click goes to, from the number in the pick buffer. -/
def clicked (winId : UInt8) : Option Gid := getGUIWindow (Int32.ofNat winId.toNat)

/-- The process and the slot of a window. -/
def ownerOf (u : Gid) : Fin 16 := ⟨u.val / 16, by omega⟩

def slotOf (u : Gid) : Fin 16 := ⟨u.val % 16, by omega⟩

@[simp] theorem gidOf_ownerOf_slotOf (u : Gid) : gidOf (ownerOf u) (slotOf u) = u := by
  apply Fin.ext
  simp only [gidOf, ownerOf, slotOf]
  omega

@[simp] theorem ownerOf_gidOf (pid i : Fin 16) : ownerOf (gidOf pid i) = pid := by
  apply Fin.ext
  simp only [gidOf, ownerOf]
  omega

@[simp] theorem slotOf_gidOf (pid i : Fin 16) : slotOf (gidOf pid i) = i := by
  apply Fin.ext
  simp only [gidOf, slotOf]
  omega

/-- Four bits are the number of a slot. -/
theorem and_fifteen (x : Int32) : ∃ n : Fin 16, x &&& 0xF = Int32.ofNat n.val := by
  refine ⟨⟨x.toBitVec.toNat % 16, Nat.mod_lt _ (by decide)⟩, ?_⟩
  apply Int32.toBitVec_inj.mp
  apply BitVec.eq_of_toNat_eq
  show x.toBitVec.toNat &&& 15 = x.toBitVec.toNat % 16 % 2 ^ 32
  rw [Nat.and_two_pow_sub_one_eq_mod x.toBitVec.toNat 4]
  omega

/-- A click on a window goes to its process, to the slot that `id` ends in. -/
theorem clicked_gid {gw : GUIWindow} {pid n : Fin 16} (hpid : gw.pid = Int32.ofNat pid.val)
    (hid : gw.windata.id &&& 0xF = Int32.ofNat n.val) : clicked gw.gid = some (gidOf pid n) := by
  rw [GUIWindow.gid, hpid, hid]
  clear hpid hid
  revert pid n
  decide +kernel

section

variable {gw gw' : GUIWindow} {pid pid' i : Fin 16}

theorem clicked_gid_iff (hpid : gw.pid = Int32.ofNat pid.val) :
    clicked gw.gid = some (gidOf pid i) ↔ gw.windata.id &&& 0xF = Int32.ofNat i.val := by
  refine ⟨?_, clicked_gid hpid⟩
  intro hclicked
  obtain ⟨n, hn⟩ := and_fifteen gw.windata.id
  rw [clicked_gid hpid hn] at hclicked
  rw [hn, gidOf_injective (Option.some.inj hclicked)]

/-- Two windows have the same number if they have the same process and their `id` ends alike. -/
theorem gid_eq_iff (hpid : gw.pid = Int32.ofNat pid.val) (hpid' : gw'.pid = Int32.ofNat pid'.val) :
    gw.gid = gw'.gid ↔ pid = pid' ∧ gw.windata.id &&& 0xF = gw'.windata.id &&& 0xF := by
  obtain ⟨n, hn⟩ := and_fifteen gw.windata.id
  obtain ⟨n', hn'⟩ := and_fifteen gw'.windata.id
  constructor
  · intro heq
    have hclicked := clicked_gid hpid hn
    rw [heq, clicked_gid hpid' hn'] at hclicked
    obtain ⟨rfl, rfl⟩ := gidOf_inj (Option.some.inj hclicked)
    exact ⟨rfl, hn.trans hn'.symm⟩
  · rintro ⟨rfl, hid⟩
    rw [GUIWindow.gid, GUIWindow.gid, hpid, hpid', hid]

end

/-! ## What the hierarchy leaves -/

/-- The fields that the number of a window depends on, and its class. -/
def GUIWindow.badge (gw : GUIWindow) : Int32 × Int32 × WindowClass :=
  (gw.pid, gw.windata.id, gw.windata.winclass)

section

variable {gw gw' : GUIWindow} {win win' : Windows} {w q u : Gid} {dx dy : Int32} {returned : Bool}
variable {pid i : Fin 16} {env : Environment}

theorem GUIWindow.winclass_of_badge (h : gw.badge = gw'.badge) : gw.windata.winclass = gw'.windata.winclass :=
  congrArg (·.2.2) h

theorem GUIWindow.id_of_badge (h : gw.badge = gw'.badge) : gw.windata.id = gw'.windata.id :=
  congrArg (·.2.1) h

theorem GUIWindow.pid_of_badge (h : gw.badge = gw'.badge) : gw.pid = gw'.pid :=
  congrArg (·.1) h

theorem move_badge (hrun : move dx dy w win = some win') (u : Gid) : (win' u).badge = (win u).badge := by
  have hmove : ∀ gw : GUIWindow, (gw.move dx dy).badge = gw.badge := fun _ => rfl
  exact visit_field hmove 256 hrun u

theorem addChild_badge (hrun : addChild q w win = some win') (u : Gid) : (win' u).badge = (win u).badge := by
  by_cases hqw : q = w
  · rw [addChild, if_pos hqw.symm] at hrun
    cases hrun
    rfl
  · cases hchildren : (win q).children with
    | none =>
      rw [addChild, if_neg (Ne.symm hqw), hchildren] at hrun
      cases hrun
    | some top =>
      rw [addChild_eq hqw hchildren] at hrun
      rw [move_badge hrun, relink_field GUIWindow.badge (fun _ _ => rfl) (fun _ _ => rfl)]
      exact GUIWindow.field_of_core GUIWindow.badge (fun _ => rfl) core_insert

theorem removeChild_badge (hrun : removeChild q w win = some win') (u : Gid) :
    (win' u).badge = (win u).badge := by
  have hdetach : ∀ top, ((detach top w win).2 u).badge = (win u).badge :=
    fun _ => GUIWindow.field_of_core GUIWindow.badge (fun _ => rfl) core_detach
  by_cases hparent : (win w).parent = some q
  · cases hchildren : (win q).children with
    | none =>
      rw [removeChild, if_neg (Classical.not_not.mpr hparent), hchildren] at hrun
      rw [move_badge hrun, Windows.modify_field (·.setParent none) GUIWindow.badge fun _ => rfl, hdetach]
    | some top =>
      rw [removeChild_eq hparent hchildren] at hrun
      rw [move_badge hrun, relink_field GUIWindow.badge (fun _ _ => rfl) (fun _ _ => rfl), hdetach]
  · rw [removeChild, if_pos hparent] at hrun
    cases hrun
    rfl

theorem leaveParent_badge (hrun : leaveParent w win = some win') (u : Gid) :
    (win' u).badge = (win u).badge := by
  rw [leaveParent] at hrun
  split at hrun
  case h_1 => exact removeChild_badge hrun u
  case h_2 =>
    cases hrun
    rfl

/-- The function returns in the middle if the new parent is no frame. -/
theorem enterParent_badge (hrun : enterParent pid env i win = some (returned, win')) :
    (∀ u, (win' u).badge = (win u).badge) ∧
      (returned = true ↔ (env.windows i).parentId ≠ -1 ∧
        ∃ q, parentGid pid (env.windows i).parentId = some q ∧
          (win q).windata.winclass ≠ .windowFrame) := by
  rw [enterParent] at hrun
  simp only [Option.bind_eq_bind] at hrun
  split at hrun
  case isTrue hchild =>
    obtain ⟨newParent, hparent, hrun⟩ := Option.bind_eq_some_iff.mp hrun
    split at hrun
    case isTrue hclass =>
      cases hrun
      exact ⟨fun _ => rfl, iff_of_true rfl ⟨hchild, newParent, hparent, hclass⟩⟩
    case isFalse hclass =>
      obtain ⟨win₁, hadd, hend⟩ := Option.bind_eq_some_iff.mp hrun
      cases hend
      refine ⟨addChild_badge hadd, iff_of_false Bool.false_ne_true ?_⟩
      rintro ⟨-, q, hq, hnot⟩
      rw [hparent] at hq
      cases hq
      exact hclass hnot
  case isFalse hroot =>
    have hstay : false = true ↔ (env.windows i).parentId ≠ -1 ∧
        ∃ q, parentGid pid (env.windows i).parentId = some q ∧
          (win q).windata.winclass ≠ .windowFrame :=
      iff_of_false Bool.false_ne_true fun h => hroot h.1
    split at hrun
    case isTrue =>
      obtain ⟨parent, -, hrun⟩ := Option.bind_eq_some_iff.mp hrun
      obtain ⟨win₁, hremove, hrun⟩ := Option.bind_eq_some_iff.mp hrun
      obtain ⟨win₂, hadd, hend⟩ := Option.bind_eq_some_iff.mp hrun
      cases hend
      refine ⟨?_, hstay⟩
      intro u
      rw [addChild_badge hadd, removeChild_badge hremove]
    case isFalse =>
      cases hrun
      exact ⟨fun _ => rfl, hstay⟩

/-! ## One slot -/

/-- Every live window is of a class that the window manager knows, and belongs to the process that its
place in `win_index` says. -/
def Owned (win : Windows) : Prop :=
  ∀ u, (win u).windata.winclass ≠ .none →
    (win u).windata.winclass.kind?.isSome = true ∧ (win u).pid = Int32.ofNat (ownerOf u).val

theorem Owned.congr (h : Owned win) (hbadge : ∀ u, (win' u).badge = (win u).badge) : Owned win' := by
  intro u
  rw [GUIWindow.winclass_of_badge (hbadge u), GUIWindow.pid_of_badge (hbadge u)]
  exact h u

/-- What is stored for a slot that is updated. -/
def UserWindow.badge (pid : Fin 16) (user : UserWindow) : Int32 × Int32 × WindowClass :=
  (Int32.ofNat pid.val, user.id, user.winclass)

/-- The function returns at a slot that is updated if its parent is no frame by then. -/
def StopsFrom (pid : Fin 16) (env : Environment) (win : Windows) (i : Fin 16) : Prop :=
  env.Updated i ∧ (env.windows i).parentId ≠ -1 ∧
    ∃ q, parentGid pid (env.windows i).parentId = some q ∧ (win q).windata.winclass ≠ .windowFrame

/-- The field `pid` of the window of a slot. -/
theorem recreate_pid {win₁ : Windows} (howned : Owned win) (hupdated : env.Updated i)
    (hrun : recreate pid env i win = some win₁) : (win₁ (gidOf pid i)).pid = Int32.ofNat pid.val := by
  rw [recreate] at hrun
  split at hrun
  case isTrue hsame =>
    cases hrun
    obtain ⟨-, hpid⟩ := howned (gidOf pid i) (hsame ▸ hupdated.ne_none)
    rw [hpid, ownerOf_gidOf]
  case isFalse =>
    obtain ⟨kind, -, rfl⟩ := Option.map_eq_some_iff.mp hrun
    rw [Windows.modify_self]

/-- **One slot**: its window takes the fields of the slot, and no other window changes. -/
theorem updateSlot_badge (howned : Owned win) (hrun : updateSlot pid env i win = some (returned, win')) :
    (∀ u, (win' u).badge =
      if env.Updated i ∧ u = gidOf pid i then (env.windows i).badge pid else (win u).badge) ∧
    (returned = true ↔ StopsFrom pid env win' i) := by
  by_cases hupdated : env.Updated i
  · obtain ⟨win₁, win₂, hcopy, hleave, henter⟩ := updateSlot_of_updated hupdated hrun
    obtain ⟨hbadge, hreturned⟩ := enterParent_badge henter
    refine ⟨?_, ?_⟩
    · intro u
      rw [hbadge, leaveParent_badge hleave]
      by_cases hu : u = gidOf pid i
      · rw [if_pos ⟨hupdated, hu⟩, hu, Windows.modify_self]
        rw [GUIWindow.badge, UserWindow.badge]
        show ((win₁ (gidOf pid i)).pid, _, _) = _
        rw [recreate_pid howned hupdated hcopy]
        rfl
      · rw [if_neg fun h => hu h.2, Windows.modify_of_ne hu, recreate_of_ne hcopy hu]
    · rw [hreturned, StopsFrom, and_iff_right hupdated]
      simp only [GUIWindow.winclass_of_badge (hbadge _)]
  · have hstay := updateSlot_of_not_updated hupdated fun hlive => (howned (gidOf pid i) hlive).1
    rw [hstay] at hrun
    cases hrun
    exact ⟨fun u => (if_neg fun h => hupdated h.1).symm,
      iff_of_false Bool.false_ne_true fun h => hupdated h.1⟩

end

/-! ## A whole call -/

/-- The class of a window when the slots below `k` are done. -/
def classAfter (pid : Fin 16) (env : Environment) (win : Windows) (k : Nat) (u : Gid) : WindowClass :=
  if Done pid env k u then (env.windows (slotOf u)).winclass else (win u).windata.winclass

/-- The slot is updated, and its parent is no frame by then: "is not a WINDOW_FRAME". -/
def Stops (pid : Fin 16) (env : Environment) (win : Windows) (i : Fin 16) : Prop :=
  env.Updated i ∧ (env.windows i).parentId ≠ -1 ∧
    ∃ q, parentGid pid (env.windows i).parentId = some q ∧
      classAfter pid env win (i.val + 1) q ≠ .windowFrame

/-- The slot is copied: it is updated, and the function does not return before. -/
def Taken (pid : Fin 16) (env : Environment) (win : Windows) (i : Fin 16) : Prop :=
  env.Updated i ∧ ∀ j < i, ¬ Stops pid env win j

instance (pid : Fin 16) (env : Environment) (win : Windows) (i : Fin 16) :
    Decidable (Stops pid env win i) := inferInstanceAs (Decidable (_ ∧ _ ∧ ∃ _, _))

instance (pid : Fin 16) (env : Environment) (win : Windows) (i : Fin 16) :
    Decidable (Taken pid env win i) := inferInstanceAs (Decidable (_ ∧ _))

/-- The slots below `k` have been copied. -/
def Stamped (pid : Fin 16) (env : Environment) (win₀ : Windows) (k : Nat) (win : Windows) : Prop :=
  ∀ u, (win u).badge = if Done pid env k u then (env.windows (slotOf u)).badge pid else (win₀ u).badge

namespace Stamped

variable {pid i : Fin 16} {env : Environment} {win₀ win win' : Windows} {k : Nat} {returned : Bool}

theorem start (pid : Fin 16) (env : Environment) (win : Windows) : Stamped pid env win 0 win := by
  intro u
  rw [if_neg]
  rintro ⟨i, hi, -⟩
  exact Nat.not_lt_zero _ hi

theorem winclass (h : Stamped pid env win₀ k win) (u : Gid) :
    (win u).windata.winclass = classAfter pid env win₀ k u := by
  show (win u).badge.2.2 = _
  rw [h u, classAfter]
  split
  case isTrue => rfl
  case isFalse => rfl

theorem owned (h : Stamped pid env win₀ k win) (howned : Owned win₀) : Owned win := by
  intro u hlive
  by_cases hdone : Done pid env k u
  · have hu := h u
    rw [if_pos hdone] at hu
    obtain ⟨i, -, hupdated, rfl⟩ := hdone
    rw [slotOf_gidOf] at hu
    obtain ⟨hpid, hrest⟩ := Prod.mk.inj hu
    rw [hpid, (Prod.mk.inj hrest).2, ownerOf_gidOf]
    exact ⟨hupdated.2, rfl⟩
  · have hu := h u
    rw [if_neg hdone] at hu
    rw [GUIWindow.winclass_of_badge hu] at hlive ⊢
    rw [GUIWindow.pid_of_badge hu]
    exact howned u hlive

/-- One round of the loop. -/
theorem step (h : Stamped pid env win₀ k win) (howned : Owned win₀) (hi : i.val = k)
    (hrun : updateSlot pid env i win = some (returned, win')) :
    Stamped pid env win₀ (k + 1) win' ∧ (returned = true ↔ Stops pid env win₀ i) := by
  obtain ⟨hbadge, hreturned⟩ := updateSlot_badge (h.owned howned) hrun
  have hstamped : Stamped pid env win₀ (k + 1) win' := by
    intro u
    rw [hbadge u, h u]
    simp only [Done.succ_iff hi]
    by_cases hself : env.Updated i ∧ u = gidOf pid i
    · rw [if_pos hself, if_pos (.inr hself), hself.2, slotOf_gidOf]
    · simp only [hself, if_false, or_false]
  refine ⟨hstamped, ?_⟩
  rw [hreturned, StopsFrom, Stops, hi]
  simp only [hstamped.winclass]

theorem not_stops_succ {hlt : k < 16} (hgo : ∀ j : Fin 16, j.val < k → ¬ Stops pid env win₀ j)
    (hnext : ¬ Stops pid env win₀ ⟨k, hlt⟩) (j : Fin 16) (hj : j.val < k + 1) :
    ¬ Stops pid env win₀ j := by
  rcases Nat.lt_succ_iff_lt_or_eq.mp hj with hjk | rfl
  · exact hgo j hjk
  · exact hnext

/-- The rest of the loop. -/
theorem run (h : Stamped pid env win₀ k win) (howned : Owned win₀) (hk : k ≤ 16)
    (hgo : ∀ j : Fin 16, j.val < k → ¬ Stops pid env win₀ j)
    (hrun : updateSlots pid env ((List.finRange 16).drop k) win = some (returned, win')) :
    ∃ n, Stamped pid env win₀ n win' ∧ ∀ i, Taken pid env win₀ i ↔ env.Updated i ∧ i.val < n := by
  have hloop := updateSlots_rule
    (I := fun k win => Stamped pid env win₀ k win ∧ ∀ j : Fin 16, j.val < k → ¬ Stops pid env win₀ j)
    (R := fun win' => ∃ n, Stamped pid env win₀ n win' ∧
      ∀ i, Taken pid env win₀ i ↔ env.Updated i ∧ i.val < n) ?_ ?_ hk ⟨h, hgo⟩ hrun
  · rcases hloop with ⟨-, hstopped⟩ | ⟨-, hend, hnone⟩
    · exact hstopped
    · refine ⟨16, hend, fun i => ?_⟩
      rw [Taken]
      exact and_congr_right fun _ => iff_of_true (fun j _ => hnone j j.isLt) i.isLt
  · rintro i win win' ⟨h, hgo⟩ hslot
    obtain ⟨hstamped, hreturned⟩ := h.step howned rfl hslot
    have hnext : ¬ Stops pid env win₀ i := fun hstop => Bool.false_ne_true (hreturned.mpr hstop)
    exact ⟨hstamped, not_stops_succ hgo hnext⟩
  · rintro i win win' ⟨h, hgo⟩ hslot
    obtain ⟨hstamped, hreturned⟩ := h.step howned rfl hslot
    refine ⟨i.val + 1, hstamped, fun i' => ?_⟩
    rw [Taken]
    apply and_congr_right
    intro _
    constructor
    · intro hbefore
      by_contra hge
      exact hbefore i (Fin.lt_def.mpr (by omega)) (hreturned.mp rfl)
    · intro hlt j hj
      exact hgo j (by have := Fin.lt_def.mp hj; omega)

end Stamped

section

variable {pid : Fin 16} {env : Environment} {wm wm' : WindowManager}

/-- **`gui_update_proc`** gives the windows of the slots it copies the fields of these slots, and leaves
all others. -/
theorem guiUpdateProc_badge (howned : Owned wm.winIndex) (hrun : guiUpdateProc pid env wm = some wm') :
    Owned wm'.winIndex ∧ ∀ u, (wm'.winIndex u).badge =
      if ownerOf u = pid ∧ Taken pid env wm.winIndex (slotOf u) then (env.windows (slotOf u)).badge pid
      else (wm.winIndex u).badge := by
  obtain ⟨⟨returned, win⟩, hslots, hrest⟩ := Option.bind_eq_some_iff.mp hrun
  obtain ⟨n, hstamped, htaken⟩ := (Stamped.start pid env wm.winIndex).run howned (Nat.zero_le 16)
    (fun j hj => absurd hj (Nat.not_lt_zero _)) hslots
  have hbadge : ∀ u, (wm'.winIndex u).badge = (win u).badge := by
    intro u
    cases returned with
    | true =>
      cases hrest
      rfl
    | false => exact rootSlots_field (g := GUIWindow.badge) (fun _ => rfl) (fun _ _ => rfl) hrest u
  refine ⟨(hstamped.owned howned).congr hbadge, ?_⟩
  intro u
  have hdone : Done pid env n u ↔ ownerOf u = pid ∧ Taken pid env wm.winIndex (slotOf u) := by
    rw [htaken]
    constructor
    · rintro ⟨i, hi, hupdated, rfl⟩
      rw [ownerOf_gidOf, slotOf_gidOf]
      exact ⟨rfl, hupdated, hi⟩
    · rintro ⟨rfl, hupdated, hi⟩
      exact ⟨slotOf u, hi, hupdated, (gidOf_ownerOf_slotOf u).symm⟩
  rw [hbadge, hstamped u]
  simp only [hdone]

end

/-! ## All processes -/

/-- What happens to the windows: a call of `gui_update_proc` with any environment, a click, a drag. -/
inductive WindowOp where
  | update (pid : Fin 16) (env : Environment)
  | click (w : Gid)
  | drag (w : Gid) (dx dy : Int32)

/-- The window manager and all processes. -/
def windowSystem : Machine WindowManager WindowOp where
  init := manager.init
  step wm
    | .update pid env => guiUpdateProc pid env wm
    | .click w => some (click w wm)
    | .drag w dx dy => (move dx dy w wm.winIndex).map fun win => { wm with winIndex := win }

/-- A click on a live window of the process goes to it, and no two live windows have the same number. -/
structure IdsAgree (pid : Fin 16) (wm : WindowManager) : Prop where
  decodes : ∀ i, (wm.winIndex (gidOf pid i)).windata.winclass ≠ .none →
    clicked (wm.winIndex (gidOf pid i)).gid = some (gidOf pid i)
  distinct : ∀ u v, (wm.winIndex u).windata.winclass ≠ .none → (wm.winIndex v).windata.winclass ≠ .none →
    u ≠ v → (wm.winIndex u).gid ≠ (wm.winIndex v).gid

/-- The `id` of every slot that is copied ends in the number of the slot, and so do those of the other live
windows of the process. Those of any other process end in different numbers. -/
structure IdsFit (pid : Fin 16) (env : Environment) (wm : WindowManager) : Prop where
  copied : ∀ i, Taken pid env wm.winIndex i → (env.windows i).id &&& 0xF = Int32.ofNat i.val
  kept : ∀ i, ¬ Taken pid env wm.winIndex i → (wm.winIndex (gidOf pid i)).windata.winclass ≠ .none →
    (wm.winIndex (gidOf pid i)).windata.id &&& 0xF = Int32.ofNat i.val
  others : ∀ pid', pid' ≠ pid → ∀ i j, i ≠ j →
    (wm.winIndex (gidOf pid' i)).windata.winclass ≠ .none →
    (wm.winIndex (gidOf pid' j)).windata.winclass ≠ .none →
    (wm.winIndex (gidOf pid' i)).windata.id &&& 0xF ≠ (wm.winIndex (gidOf pid' j)).windata.id &&& 0xF

section

variable {wm wm' : WindowManager} {pid : Fin 16} {env : Environment}

theorem Owned.boot (screen : Rect) (image : UInt32) (unions : Gid → UInt32) :
    Owned (boot screen image unions).winIndex := by
  intro u hlive
  by_cases hu : u = desktopGid
  · rw [hu, boot_zero]
    exact ⟨rfl, rfl⟩
  · rw [boot_of_ne screen image unions hu] at hlive
    exact absurd rfl hlive

theorem click_badge (w : Gid) (wm : WindowManager) (u : Gid) :
    ((click w wm).winIndex u).badge = (wm.winIndex u).badge := by
  rw [click]
  split
  case h_1 root _ =>
    split
    case isTrue =>
      exact (GUIWindow.field_of_core GUIWindow.badge (fun _ => rfl) core_push).trans
        (GUIWindow.field_of_core GUIWindow.badge (fun _ => rfl) core_detach)
    case isFalse => rfl
  case h_2 => rfl

/-- One step of the window manager. -/
theorem owned_step {op : WindowOp} (howned : Owned wm.winIndex)
    (hstep : windowSystem.step wm op = some wm') : Owned wm'.winIndex := by
  cases op with
  | update pid env => exact (guiUpdateProc_badge howned hstep).1
  | click w =>
    cases hstep
    exact howned.congr (click_badge w wm)
  | drag w dx dy =>
    obtain ⟨win, hmove, rfl⟩ := Option.map_eq_some_iff.mp hstep
    exact howned.congr (move_badge hmove)

theorem owned_of_reachable (h : windowSystem.Reachable wm) : Owned wm.winIndex := by
  refine h.invariant (P := fun wm => Owned wm.winIndex) ?_ fun _ _ _ => owned_step
  rintro wm ⟨screen, image, unions, rfl⟩
  exact Owned.boot screen image unions

theorem Owned.pid_gidOf (h : Owned wm.winIndex) {i : Fin 16}
    (hlive : (wm.winIndex (gidOf pid i)).windata.winclass ≠ .none) :
    (wm.winIndex (gidOf pid i)).pid = Int32.ofNat pid.val := by
  rw [(h _ hlive).2, ownerOf_gidOf]

/-- What the two computations ask of the windows. -/
theorem idsAgree_iff (h : Owned wm.winIndex) : IdsAgree pid wm ↔
    (∀ i, (wm.winIndex (gidOf pid i)).windata.winclass ≠ .none →
      (wm.winIndex (gidOf pid i)).windata.id &&& 0xF = Int32.ofNat i.val) ∧
    ∀ pid', pid' ≠ pid → ∀ i j, i ≠ j →
      (wm.winIndex (gidOf pid' i)).windata.winclass ≠ .none →
      (wm.winIndex (gidOf pid' j)).windata.winclass ≠ .none →
      (wm.winIndex (gidOf pid' i)).windata.id &&& 0xF ≠ (wm.winIndex (gidOf pid' j)).windata.id &&& 0xF := by
  constructor
  · intro hagree
    refine ⟨?_, ?_⟩
    · intro i hlive
      exact (clicked_gid_iff (h.pid_gidOf hlive)).mp (hagree.decodes i hlive)
    · intro pid' _ i j hij hi hj hid
      apply hagree.distinct (gidOf pid' i) (gidOf pid' j) hi hj fun heq => hij (gidOf_injective heq)
      exact (gid_eq_iff (h.pid_gidOf hi) (h.pid_gidOf hj)).mpr ⟨rfl, hid⟩
  · rintro ⟨hfit, hothers⟩
    refine ⟨fun i hlive => (clicked_gid_iff (h.pid_gidOf hlive)).mpr (hfit i hlive), ?_⟩
    intro u v
    rw [← gidOf_ownerOf_slotOf u, ← gidOf_ownerOf_slotOf v]
    intro hu hv hne heq
    obtain ⟨howner, hid⟩ := (gid_eq_iff (h.pid_gidOf hu) (h.pid_gidOf hv)).mp heq
    rw [← howner] at hne hv hid
    have hslot : slotOf u ≠ slotOf v := fun hslot => hne (by rw [hslot])
    by_cases hpid : ownerOf u = pid
    · rw [hpid] at hu hv hid
      exact hslot (ofNat_injective ((hfit _ hu).symm.trans (hid.trans (hfit _ hv))))
    · exact hothers _ hpid _ _ hslot hu hv hid

end

/-- **The two computations of window numbers** agree after a call of `gui_update_proc` exactly when the `id`s
fit the slots. -/
theorem window_ids_iff {wm wm' : WindowManager} (hreachable : windowSystem.Reachable wm) (pid : Fin 16)
    (env : Environment) (hrun : guiUpdateProc pid env wm = some wm') :
    IdsAgree pid wm' ↔ IdsFit pid env wm := by
  obtain ⟨howned, hbadge⟩ := guiUpdateProc_badge (owned_of_reachable hreachable) hrun
  have htaken : ∀ i, Taken pid env wm.winIndex i →
      (wm'.winIndex (gidOf pid i)).badge = (env.windows i).badge pid := by
    intro i hi
    rw [hbadge, ownerOf_gidOf, slotOf_gidOf, if_pos ⟨rfl, hi⟩]
  have hkept : ∀ i, ¬ Taken pid env wm.winIndex i →
      (wm'.winIndex (gidOf pid i)).badge = (wm.winIndex (gidOf pid i)).badge := by
    intro i hi
    rw [hbadge, ownerOf_gidOf, slotOf_gidOf, if_neg fun h => hi h.2]
  have hother : ∀ pid', pid' ≠ pid → ∀ i,
      (wm'.winIndex (gidOf pid' i)).badge = (wm.winIndex (gidOf pid' i)).badge := by
    intro pid' hpid i
    rw [hbadge, ownerOf_gidOf, if_neg fun h => hpid h.1]
  -- a window that is copied has the badge that the process gave it, and every other one keeps its own
  rw [idsAgree_iff howned]
  constructor
  · rintro ⟨hfit, hothers⟩
    refine ⟨?_, ?_, ?_⟩
    · intro i hi
      obtain ⟨-, hdata⟩ := Prod.mk.inj (htaken i hi)
      obtain ⟨hid, hclass⟩ := Prod.mk.inj hdata
      rw [← hid]
      exact hfit i (hclass ▸ hi.1.ne_none)
    · intro i hi hlive
      rw [← GUIWindow.id_of_badge (hkept i hi)]
      apply hfit i
      rw [GUIWindow.winclass_of_badge (hkept i hi)]
      exact hlive
    · intro pid' hpid i j hij hi hj
      have h := hothers pid' hpid i j hij
      simp only [GUIWindow.winclass_of_badge (hother pid' hpid _),
        GUIWindow.id_of_badge (hother pid' hpid _)] at h
      exact h hi hj
  · intro hfit
    refine ⟨?_, ?_⟩
    · intro i hlive
      by_cases hi : Taken pid env wm.winIndex i
      · obtain ⟨-, hdata⟩ := Prod.mk.inj (htaken i hi)
        rw [(Prod.mk.inj hdata).1]
        exact hfit.copied i hi
      · rw [GUIWindow.winclass_of_badge (hkept i hi)] at hlive
        rw [GUIWindow.id_of_badge (hkept i hi)]
        exact hfit.kept i hi hlive
    · intro pid' hpid i j hij
      simp only [GUIWindow.winclass_of_badge (hother pid' hpid _),
        GUIWindow.id_of_badge (hother pid' hpid _)]
      exact hfit.others pid' hpid i j hij

theorem window_ids_iff_guiModel : ∃ wm',
    guiUpdateProc 0 (guiModel true true true).toEnvironment (boot ⟨0, 0, 800, 600⟩ 4096 fun _ => 0) =
      some wm' ∧
    (IdsAgree 0 wm' ↔
      IdsFit 0 (guiModel true true true).toEnvironment (boot ⟨0, 0, 800, 600⟩ 4096 fun _ => 0)) := by
  obtain ⟨wm', hrun⟩ : ∃ wm', guiUpdateProc 0 (guiModel true true true).toEnvironment
      (boot ⟨0, 0, 800, 600⟩ 4096 fun _ => 0) = some wm' :=
    Option.isSome_iff_exists.mp (by decide +kernel)
  exact ⟨wm', hrun, window_ids_iff ⟨_, [], ⟨_, _, _, rfl⟩, rfl⟩ 0 _ hrun⟩

/-- The window in slot 2 of `GUIModel` has the `id` of the one in slot 1. -/
theorem background_misses : ∃ wm',
    guiUpdateProc 0 (guiModel true true true).toEnvironment (boot ⟨0, 0, 800, 600⟩ 4096 fun _ => 0) =
      some wm' ∧
    (wm'.winIndex 1).gid = (wm'.winIndex 2).gid ∧ clicked (wm'.winIndex 2).gid = some 1 ∧
    ¬ IdsAgree 0 wm' := by
  have hrun : (guiUpdateProc 0 (guiModel true true true).toEnvironment
      (boot ⟨0, 0, 800, 600⟩ 4096 fun _ => 0)).map
      (fun wm' => ((wm'.winIndex 1).gid, (wm'.winIndex 2).gid, (wm'.winIndex 2).windata.winclass)) =
      some (1, 1, .window) := by decide +kernel
  obtain ⟨wm', hwm, hdata⟩ := Option.map_eq_some_iff.mp hrun
  obtain ⟨hframe, hdata⟩ := Prod.mk.inj hdata
  obtain ⟨hbackground, hclass⟩ := Prod.mk.inj hdata
  have hclicked : clicked (wm'.winIndex 2).gid = some 1 := by
    rw [hbackground]
    rfl
  refine ⟨wm', hwm, hframe.trans hbackground.symm, hclicked, ?_⟩
  intro hagree
  have hdecodes : clicked (wm'.winIndex 2).gid = some 2 := hagree.decodes 2 (by
    show (wm'.winIndex 2).windata.winclass ≠ .none
    rw [hclass]
    decide)
  rw [hclicked] at hdecodes
  exact absurd hdecodes (by decide)

/-! ## Runs -/

/-- Every slot that a call copies has an `id` that ends in its number. -/
def CopiesFit (wm : WindowManager) : WindowOp → Prop
  | .update pid env => ∀ i, Taken pid env wm.winIndex i → (env.windows i).id &&& 0xF = Int32.ofNat i.val
  | _ => True

/-- Every click on a live window goes to it. -/
def Decoded (wm : WindowManager) : Prop :=
  ∀ u, (wm.winIndex u).windata.winclass ≠ .none → clicked (wm.winIndex u).gid = some u

/-- The `id` of every live window ends in the number of its slot. -/
def Fitting (win : Windows) : Prop :=
  ∀ u, (win u).windata.winclass ≠ .none → (win u).windata.id &&& 0xF = Int32.ofNat (slotOf u).val

section

variable {win win' : Windows} {wm wm' : WindowManager}

theorem Fitting.congr (h : Fitting win) (hbadge : ∀ u, (win' u).badge = (win u).badge) : Fitting win' := by
  intro u
  rw [GUIWindow.winclass_of_badge (hbadge u), GUIWindow.id_of_badge (hbadge u)]
  exact h u

theorem Fitting.decoded (h : Fitting wm.winIndex) (howned : Owned wm.winIndex) : Decoded wm := by
  intro u hlive
  have hclicked := clicked_gid (howned u hlive).2 (h u hlive)
  rw [hclicked, gidOf_ownerOf_slotOf]

theorem fitting_step {op : WindowOp} (howned : Owned wm.winIndex) (h : Fitting wm.winIndex)
    (hop : CopiesFit wm op) (hstep : windowSystem.step wm op = some wm') : Fitting wm'.winIndex := by
  cases op with
  | update pid env =>
    obtain ⟨-, hbadge⟩ := guiUpdateProc_badge howned hstep
    intro u hlive
    have hu := hbadge u
    split at hu
    case isTrue htaken =>
      obtain ⟨-, hdata⟩ := Prod.mk.inj hu
      rw [(Prod.mk.inj hdata).1]
      exact hop (slotOf u) htaken.2
    case isFalse =>
      rw [GUIWindow.winclass_of_badge hu] at hlive
      rw [GUIWindow.id_of_badge hu]
      exact h u hlive
  | click w =>
    cases hstep
    exact h.congr (click_badge w wm)
  | drag w dx dy =>
    obtain ⟨win, hmove, rfl⟩ := Option.map_eq_some_iff.mp hstep
    exact h.congr (move_badge hmove)

/-- **Clicks reach their windows** in every run whose calls copy windows with fitting `id`s only. -/
theorem clicks_reach (hinit : windowSystem.init wm) (ops : List WindowOp)
    (hok : windowSystem.Steps CopiesFit wm ops) : windowSystem.States Decoded wm ops := by
  obtain ⟨screen, image, unions, rfl⟩ := hinit
  have hstart : Fitting (boot screen image unions).winIndex := by
    intro u hlive
    by_cases hu : u = desktopGid
    · rw [hu, boot_zero]
      show (0 : Int32) &&& 0xF = Int32.ofNat 0
      decide
    · rw [boot_of_ne screen image unions hu] at hlive
      exact absurd rfl hlive
  apply Machine.states_of_steps (I := fun wm => Owned wm.winIndex ∧ Fitting wm.winIndex)
    (fun wm h => h.2.decoded h.1) _ ⟨Owned.boot screen image unions, hstart⟩ hok
  intro wm op wm' h hop hstep
  exact ⟨owned_step h.1 hstep, fitting_step h.1 h.2 hop hstep⟩

end

end Shipwreck.Gui
