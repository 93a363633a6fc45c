import Shipwreck.Gui.Compose
import Shipwreck.Gui.FrameMoves
import Shipwreck.Gui.Manager

/-!
# Every window knows its top-level window

The lists of the window manager name the children of each frame. Read from `winstack` down they are a
`Forest`, and `update_root` comes to each window of a tree of it once. After a call of `gui_update_proc` every
live window has therefore been told the top-level window above it:

    winstack  --next-->  r  --next-->  ...  --next-->  desktop
                         |  children
                         v
                         w  --next-->  ...               w.wm_root = r

These are the pointers that the `draw` functions follow to what lies below a window, and so in every state of an
orderly run `gui_redraw_rect` draws the picture (`reachable_redraws`).
-/

namespace Shipwreck.Gui

/-! ## Forests in the links -/

/-- What links a window to the others. -/
def GUIWindow.links (gw : GUIWindow) : Kind × Option Gid × Option (Option Gid) := (gw.kind, gw.next, gw.children)

namespace GUIWindow

variable {gw gw' : GUIWindow}

theorem kind_of_links (h : gw.links = gw'.links) : gw.kind = gw'.kind := congrArg Prod.fst h

theorem next_of_links (h : gw.links = gw'.links) : gw.next = gw'.next := congrArg (·.2.1) h

theorem children_of_links (h : gw.links = gw'.links) : gw.children = gw'.children := congrArg (·.2.2) h

end GUIWindow

namespace Forest

/-- The windows from `top` on are the stack `forest`, and the children of each frame are its stack. -/
def Hung (win : Windows) : Option Gid → Forest → Prop
  | top, nil => top = none
  | top, leaf w rest => top = some w ∧ (win w).kind ≠ .frame ∧ Hung win (win w).next rest
  | top, frame w children rest =>
    top = some w ∧ (win w).kind = .frame ∧ (∃ first, (win w).children = some first ∧ Hung win first children) ∧
      Hung win (win w).next rest

/-- Each window of the forest has been told its top-level window. -/
def Told (win : Windows) : Option Gid → Forest → Prop
  | _, nil => True
  | root, leaf w rest => (win w).wmRoot = some (root.getD w) ∧ Told win root rest
  | root, frame w children rest =>
    (win w).wmRoot = some (root.getD w) ∧ Told win (some (root.getD w)) children ∧ Told win root rest

section

variable {win win' : Windows} {top root : Option Gid} {forest forest' : Forest} {w : Gid}

theorem linked_iff : forest.Linked win root top ↔ forest.Hung win top ∧ forest.Told win root := by
  induction forest generalizing root top with
  | nil => simp [Linked, Hung, Told]
  | leaf w rest ih =>
    rw [Linked, Hung, Told, ih]
    tauto
  | frame w children rest ihc ihr =>
    simp only [Linked, Hung, Told, ihc, ihr]
    constructor
    · rintro ⟨htop, hkind, hroot, ⟨first, hfirst, hchildren, htold⟩, hrest, htold'⟩
      exact ⟨⟨htop, hkind, ⟨first, hfirst, hchildren⟩, hrest⟩, hroot, htold, htold'⟩
    · rintro ⟨⟨htop, hkind, ⟨first, hfirst, hchildren⟩, hrest⟩, hroot, htold, htold'⟩
      exact ⟨htop, hkind, hroot, ⟨first, hfirst, hchildren, htold⟩, hrest, htold'⟩

/-- Only the links of its own windows matter. -/
theorem Hung.congr (h : forest.Hung win top) (heq : ∀ u ∈ forest.windows, (win' u).links = (win u).links) :
    forest.Hung win' top := by
  induction forest generalizing top with
  | nil => exact h
  | leaf w rest ih =>
    simp only [windows, List.forall_mem_cons] at heq
    obtain ⟨htop, hkind, hrest⟩ := h
    rw [← GUIWindow.kind_of_links heq.1] at hkind
    rw [← GUIWindow.next_of_links heq.1] at hrest
    exact ⟨htop, hkind, ih hrest heq.2⟩
  | frame w children rest ihc ihr =>
    simp only [windows, List.forall_mem_cons, List.forall_mem_append] at heq
    obtain ⟨htop, hkind, ⟨first, hfirst, hchildren⟩, hrest⟩ := h
    rw [← GUIWindow.kind_of_links heq.1] at hkind
    rw [← GUIWindow.children_of_links heq.1] at hfirst
    rw [← GUIWindow.next_of_links heq.1] at hrest
    exact ⟨htop, hkind, ⟨first, hfirst, ihc hchildren heq.2.1⟩, ihr hrest heq.2.2⟩

/-- A change of a window outside of the forest. -/
theorem Hung.modify (act : GUIWindow → GUIWindow) (h : forest.Hung win top) (hw : w ∉ forest.windows) :
    forest.Hung (win.modify w act) top := by
  apply h.congr
  intro u hu
  rw [Windows.modify_of_ne (ne_of_mem_of_not_mem hu hw)]

/-- The windows of a stack are among those of the forest. -/
theorem stack_sublist (forest : Forest) : forest.stack.Sublist forest.windows := by
  induction forest with
  | nil => exact .slnil
  | leaf w rest ih => exact ih.cons_cons w
  | frame w _ _ _ ih => exact (ih.trans (List.sublist_append_right _ _)).cons_cons w

/-! ## A visit of all windows -/

/-- **The loops of `move` and `update_root` come to each window of the forest once**, and to no other. -/
theorem Hung.eachFrom_visit {act : GUIWindow → GUIWindow} (hact : ∀ gw, (act gw).links = gw.links)
    (h : forest.Hung win top) (honce : forest.windows.Nodup) {levels n : Nat}
    (hlevels : forest.windows.length ≤ levels) (hn : forest.stack.length ≤ n) :
    ∃ win', eachFrom (visit act levels) n top win = some win' ∧
      ∀ u, win' u = if u ∈ forest.windows then act (win u) else win u := by
  induction forest generalizing win top levels n with
  | nil =>
    cases h
    refine ⟨win, ?_, fun u => (if_neg List.not_mem_nil).symm⟩
    cases n <;> rfl
  | leaf w rest ih =>
    obtain ⟨rfl, hkind, hrest⟩ := h
    simp only [windows, List.nodup_cons, List.length_cons, stack] at honce hlevels hn
    obtain ⟨n, rfl⟩ := Nat.exists_eq_add_of_le' (Nat.le_trans (Nat.le_add_left 1 _) hn)
    obtain ⟨levels, rfl⟩ := Nat.exists_eq_add_of_le' (Nat.le_trans (Nat.le_add_left 1 _) hlevels)
    have hvisit : visit act (levels + 1) w win = some (win.modify w act) := by
      rw [visit]
      simp only [Windows.modify_self, GUIWindow.kind_of_links (hact (win w)), if_neg hkind]
    have hnext : ((win.modify w act) w).next = (win w).next := by
      rw [Windows.modify_self]
      exact GUIWindow.next_of_links (hact (win w))
    obtain ⟨win', hrun, hwin'⟩ :=
      ih (hrest.modify act honce.1) honce.2 (Nat.le_of_succ_le hlevels) (Nat.le_of_succ_le_succ hn)
    refine ⟨win', ?_, fun u => ?_⟩
    · rw [eachFrom, hvisit]
      simp only [Option.bind_eq_bind, Option.bind_some, hnext, hrun]
    · rw [hwin']
      by_cases huw : u = w
      · subst huw
        rw [windows, if_neg honce.1, if_pos List.mem_cons_self, Windows.modify_self]
      · simp only [Windows.modify_of_ne huw, windows, List.mem_cons, huw, false_or]
  | frame w children rest ihc ihr =>
    obtain ⟨rfl, hkind, ⟨first, hfirst, hchildren⟩, hrest⟩ := h
    simp only [windows, List.nodup_cons, List.length_cons, stack, List.length_append, List.mem_append,
      not_or] at honce hlevels hn
    obtain ⟨⟨hwc, hwr⟩, honce⟩ := honce
    obtain ⟨hcnodup, hrnodup, hapart⟩ := List.nodup_append.mp honce
    obtain ⟨n, rfl⟩ := Nat.exists_eq_add_of_le' (Nat.le_trans (Nat.le_add_left 1 _) hn)
    obtain ⟨levels, rfl⟩ := Nat.exists_eq_add_of_le' (Nat.le_trans (Nat.le_add_left 1 _) hlevels)
    have hstack : children.stack.length ≤ 256 := by
      simpa using (hcnodup.sublist children.stack_sublist).length_le_card
    have hinner : children.windows.length ≤ levels := by omega
    have hbehind : rest.windows.length ≤ levels + 1 := by omega
    -- first the children of the frame, a level down; then the windows behind it
    obtain ⟨win₁, hrun₁, hwin₁⟩ := ihc (hchildren.modify act hwc) hcnodup hinner hstack
    have hvisit : visit act (levels + 1) w win = some win₁ := by
      rw [visit]
      simp only [Windows.modify_self, GUIWindow.kind_of_links (hact (win w)), if_pos hkind,
        GUIWindow.children_of_links (hact (win w)), hfirst, Option.bind_eq_bind, Option.bind_some, hrun₁]
    have hnext : (win₁ w).next = (win w).next := by
      rw [hwin₁, if_neg hwc, Windows.modify_self]
      exact GUIWindow.next_of_links (hact (win w))
    have hrest' : rest.Hung win₁ (win w).next := by
      apply (hrest.modify act hwr).congr
      intro u hu
      rw [hwin₁, if_neg fun hc => hapart u hc u hu rfl]
    obtain ⟨win', hrun, hwin'⟩ := ihr hrest' hrnodup hbehind (Nat.le_of_succ_le_succ hn)
    refine ⟨win', ?_, fun u => ?_⟩
    · rw [eachFrom, hvisit]
      simp only [Option.bind_eq_bind, Option.bind_some, hnext, hrun]
    · rw [hwin', hwin₁]
      by_cases huw : u = w
      · subst huw
        rw [windows, if_neg hwr, if_neg hwc, if_pos List.mem_cons_self, Windows.modify_self]
      · rw [Windows.modify_of_ne huw]
        simp only [windows, List.mem_cons, huw, false_or, List.mem_append]
        -- a child is not visited again behind the frame
        by_cases hc : u ∈ children.windows
        · simp only [hc, true_or, if_true]
          exact if_neg fun hr => hapart u hc u hr rfl
        · simp only [hc, false_or, if_false]

end

end Forest

/-! ## From parents to a forest -/

section

variable {win : Windows} {lists : Gid → List Gid} {a u : Gid}

/-- What is below a window that is no frame. -/
theorem Tree.under_leaf (h : Tree win lists) (hkind : (win a).kind ≠ .frame) : Under win.parent a u ↔ u = a := by
  constructor
  · intro hu
    rcases hu.eq_or_child with rfl | ⟨c, hc, -⟩
    · rfl
    · exact absurd (h.frame c a hc) hkind
  · rintro rfl
    exact .refl _ _

/-- What is below a frame. -/
theorem Tree.under_frame (h : Tree win lists) :
    Under win.parent a u ↔ u = a ∨ ∃ c ∈ lists a, Under win.parent c u := by
  constructor
  · intro hu
    rcases hu.eq_or_child with rfl | ⟨c, hc, hcu⟩
    · exact .inl rfl
    · exact .inr ⟨c, (h.listed.mem_iff a c).mpr hc, hcu⟩
  · rintro (rfl | ⟨c, hc, hcu⟩)
    · exact .refl _ _
    · exact (Under.of_parent ((h.listed.mem_iff a c).mp hc)).trans hcu

/-- A forest that contains what is below the windows of a list. -/
structure Below (win : Windows) (top : Option Gid) (l : List Gid) (forest : Forest) : Prop where
  hung : forest.Hung win top
  stack : forest.stack = l
  once : forest.windows.Nodup
  mem_iff : ∀ u, u ∈ forest.windows ↔ ∃ w ∈ l, Under win.parent w u
  told : ∀ root : Option Gid, (∀ w ∈ l, ∀ u, Under win.parent w u → (win u).wmRoot = some (root.getD w)) →
    forest.Told win root

namespace Below

variable {l : List Gid} {w : Gid} {children rest : Forest}

theorem nil (win : Windows) : Below win none [] .nil where
  hung := rfl
  stack := rfl
  once := List.nodup_nil
  mem_iff u := by simp [Forest.windows]
  told _ _ := trivial

theorem leaf (h : Tree win lists) (hrest : Below win (win w).next l rest) (hkind : (win w).kind ≠ .frame)
    (hapart : ∀ v ∈ l, ∀ u, Under win.parent v u → ¬ Under win.parent w u) :
    Below win (some w) (w :: l) (.leaf w rest) where
  hung := ⟨rfl, hkind, hrest.hung⟩
  stack := congrArg (w :: ·) hrest.stack
  once := by
    refine List.nodup_cons.mpr ⟨?_, hrest.once⟩
    rw [hrest.mem_iff]
    rintro ⟨v, hv, hu⟩
    exact hapart v hv w hu (.refl _ _)
  mem_iff u := by
    rw [List.exists_mem_cons_iff, h.under_leaf hkind, Forest.windows, List.mem_cons, hrest.mem_iff]
  told root htold := by
    rw [List.forall_mem_cons] at htold
    exact ⟨htold.1 w (.refl _ _), hrest.told root htold.2⟩

theorem frame (h : Tree win lists) (hrest : Below win (win w).next l rest) (hkind : (win w).kind = .frame)
    (hchildren : Below win (lists w).head? (lists w) children)
    (hapart : ∀ v ∈ l, ∀ u, Under win.parent v u → ¬ Under win.parent w u) :
    Below win (some w) (w :: l) (.frame w children rest) where
  hung := ⟨rfl, hkind, ⟨_, h.children w hkind, hchildren.hung⟩, hrest.hung⟩
  stack := congrArg (w :: ·) hrest.stack
  once := by
    simp only [Forest.windows, List.nodup_cons, List.mem_append, not_or, hrest.mem_iff, hchildren.mem_iff]
    refine ⟨⟨?_, ?_⟩, List.nodup_append.mpr ⟨hchildren.once, hrest.once, ?_⟩⟩
    · rintro ⟨c, hc, hu⟩
      exact h.grounded.not_under ((h.listed.mem_iff w c).mp hc) hu
    · rintro ⟨v, hv, hu⟩
      exact hapart v hv w hu (.refl _ _)
    · rintro u hu _ hu' rfl
      obtain ⟨v, hv, hvu⟩ := (hrest.mem_iff u).mp hu'
      exact hapart v hv u hvu (h.under_frame.mpr (.inr ((hchildren.mem_iff u).mp hu)))
  mem_iff u := by
    rw [List.exists_mem_cons_iff, h.under_frame, Forest.windows, List.mem_cons, List.mem_append, hrest.mem_iff,
      hchildren.mem_iff, or_assoc]
  told root htold := by
    rw [List.forall_mem_cons] at htold
    refine ⟨htold.1 w (.refl _ _), hchildren.told _ ?_, hrest.told root htold.2⟩
    intro c hc u hu
    exact htold.1 u (h.under_frame.mpr (.inr ⟨c, hc, hu⟩))

end Below

/-- **The windows below a list of siblings are a forest.** The induction is on how many more ancestors they
could have. -/
theorem Tree.below (h : Tree win lists) (n : Nat) {top parent : Option Gid} {l : List Gid}
    (hl : Chain win.next top l) (hparent : ∀ w ∈ l, win.parent w = parent)
    (hn : ∀ w ∈ l, ∀ above, Chain win.parent (some w) above → 256 < above.length + n) :
    ∃ forest, Below win top l forest := by
  induction n generalizing top parent l with
  | zero =>
    cases l with
    | nil =>
      cases hl
      exact ⟨_, .nil win⟩
    | cons w l =>
      obtain ⟨above, habove⟩ := h.grounded w
      have hlong := hn w List.mem_cons_self above habove
      have hcard : above.length ≤ 256 := by simpa using habove.nodup.length_le_card
      omega
  | succ n ih =>
    induction l generalizing top with
    | nil =>
      cases hl
      exact ⟨_, .nil win⟩
    | cons w l ihl =>
      have hw := hl.head_not_mem_tail rfl
      obtain ⟨rfl, hrest⟩ := hl
      rw [List.forall_mem_cons] at hparent hn
      obtain ⟨rest, hbelow⟩ := ihl hrest hparent.2 hn.2
      have hapart : ∀ v ∈ l, ∀ u, Under win.parent v u → ¬ Under win.parent w u := by
        intro v hv u hvu hwu
        obtain rfl := h.grounded.apart (hparent.1.trans (hparent.2 v hv).symm) hwu hvu
        exact hw hv
      by_cases hkind : (win w).kind = .frame
      · obtain ⟨children, hchildren⟩ := ih (h.listed.linked w).chain
          (fun c hc => (h.listed.mem_iff w c).mp hc) (by
            intro c hc above habove
            obtain ⟨above, rfl⟩ := habove.exists_cons
            have hup := habove.2
            rw [(h.listed.mem_iff w c).mp hc] at hup
            have hlong := hn.1 above hup
            rw [List.length_cons]
            omega)
        exact ⟨_, hbelow.frame h hkind hchildren hapart⟩
      · exact ⟨_, hbelow.leaf h hkind hapart⟩

end

/-! ## `update_root` -/

section

variable {loose : Gid → Prop} {win win' : Windows} {place : Gid → Option Place} {lists : Place → List Gid}
  {u r w : Gid}

theorem Planted.tree (h : Planted loose win place lists) : Tree win fun f => lists (.kids f) where
  listed := ⟨fun f => h.shape.threaded.linked (.kids f), fun _ _ => h.mem_kids_iff⟩
  children f hf := h.shape.children f ((h.shape.kind f).mp hf)
  frame w f hw := (h.shape.kind f).mpr (h.frame w f hw).1
  grounded := h.acyclic

/-- The recursion of `move` and `update_root` comes to each window of the subtree once, and to no other. -/
theorem Tree.visit_subtree {lists : Gid → List Gid} (h : Tree win lists) (act : GUIWindow → GUIWindow)
    (hact : ∀ gw, (act gw).links = gw.links) (w : Gid) :
    ∃ win', visit act 256 w win = some win' ∧ (∀ u ∈ win.subtree w, win' u = act (win u)) ∧
      ∀ u, u ∉ win.subtree w → win' u = win u := by
  have hself : w ∈ win.subtree w := Under.refl _ _
  by_cases hkind : (win w).kind = .frame
  · obtain ⟨children, hbelow⟩ := h.below 256 (h.listed.linked w).chain
      (fun c hc => (h.listed.mem_iff w c).mp hc) (by
        intro c _ above habove
        obtain ⟨above, rfl⟩ := habove.exists_cons
        rw [List.length_cons]
        omega)
    have hout : w ∉ children.windows := by
      rw [hbelow.mem_iff]
      rintro ⟨c, hc, hu⟩
      exact h.grounded.not_under ((h.listed.mem_iff w c).mp hc) hu
    have hcard : children.windows.length + 1 ≤ 256 := by
      simpa using (List.nodup_cons.mpr ⟨hout, hbelow.once⟩).length_le_card
    have hstack : children.stack.length ≤ 256 :=
      Nat.le_trans children.stack_sublist.length_le (Nat.le_of_succ_le hcard)
    obtain ⟨win', hrun, hwin'⟩ := (hbelow.hung.modify act hout).eachFrom_visit hact hbelow.once
      (Nat.le_of_succ_le_succ hcard) hstack
    refine ⟨win', ?_, fun u hu => ?_, fun u hu => ?_⟩
    · rw [visit]
      simp only [Windows.modify_self, GUIWindow.kind_of_links (hact (win w)), if_pos hkind,
        GUIWindow.children_of_links (hact (win w)), h.children w hkind, Option.bind_eq_bind, Option.bind_some, hrun]
    · rw [hwin']
      rcases h.under_frame.mp hu with rfl | hchild
      · rw [if_neg hout, Windows.modify_self]
      · have hmem := (hbelow.mem_iff u).mpr hchild
        rw [if_pos hmem, Windows.modify_of_ne (ne_of_mem_of_not_mem hmem hout)]
    · rw [hwin', if_neg fun hmem => hu (h.under_frame.mpr (.inr ((hbelow.mem_iff u).mp hmem))),
        Windows.modify_of_ne (ne_of_mem_of_not_mem hself hu).symm]
  · refine ⟨win.modify w act, ?_, fun u hu => ?_, fun u hu => ?_⟩
    · rw [visit]
      simp only [Windows.modify_self, GUIWindow.kind_of_links (hact (win w)), if_neg hkind]
    · rw [(h.under_leaf hkind).mp hu, Windows.modify_self]
    · rw [Windows.modify_of_ne (ne_of_mem_of_not_mem hself hu).symm]

/-! ## The second loop -/

/-- Every live window has been told its top-level window, if that is not `loose`. -/
def Informed (loose : Gid → Prop) (win : Windows) : Prop :=
  ∀ u r, (win u).windata.winclass ≠ .none → Under win.parent r u → win.parent r = none → ¬ loose r →
    (win u).wmRoot = some r

theorem Informed.congr (h : Informed loose win) (hcore : ∀ u, (win' u).core = (win u).core) :
    Informed loose win' := by
  have hparent : win'.parent = win.parent :=
    funext fun u => GUIWindow.field_of_core (·.parent) (fun _ => rfl) (hcore u)
  intro u r
  rw [hparent, GUIWindow.field_of_core (·.windata.winclass) (fun _ => rfl) (hcore u),
    GUIWindow.field_of_core (·.wmRoot) (fun _ => rfl) (hcore u)]
  exact h u r

/-- Above a live window there are live windows. -/
theorem Planted.live_of_under (h : Planted loose win place lists) (hlive : (win u).windata.winclass ≠ .none)
    (hu : Under win.parent r u) : (win r).windata.winclass ≠ .none := by
  rcases hu.eq_or_child with rfl | ⟨c, hc, -⟩
  · exact hlive
  · rw [(h.frame c r hc).1]
    exact nofun

variable {pid i : Fin 16} {wm wm' : WindowManager} {k : Nat}

/-- One round of the second loop. -/
theorem rootSlot_informed (h : Grown (Pending pid k) wm place lists)
    (hinformed : Informed (Pending pid k) wm.winIndex) (hi : i.val = k)
    (hrun : rootSlot pid i wm = some wm') : Informed (Pending pid (k + 1)) wm'.winIndex := by
  rw [rootSlot] at hrun
  split at hrun
  case isTrue hskip =>
    cases hrun
    intro u r hlive hu hr hnot
    apply hinformed u r hlive hu hr
    intro hpending
    apply hnot
    apply pending_succ hi hpending
    rintro rfl
    exact hskip.elim (h.planted.live_of_under hlive hu) fun hne => hne hr
  case isFalse hroot =>
    rw [not_or, Classical.not_not] at hroot
    obtain ⟨win', htell, hinside, houtside⟩ :=
      h.planted.tree.visit_subtree (·.updateRoot (some (gidOf pid i))) (fun _ => rfl) (gidOf pid i)
    have hrerooted : Rerooted (some (gidOf pid i)) wm.winIndex win' := by
      intro u
      by_cases hu : u ∈ Windows.subtree wm.winIndex (gidOf pid i)
      · exact .inr (hinside u hu)
      · exact .inl (houtside u hu)
    have hparent : Windows.parent win' = Windows.parent wm.winIndex :=
      funext fun u => hrerooted.field (·.parent) (fun _ => rfl) u
    have htold : Informed (Pending pid (k + 1)) win' := by
      intro u r hlive hu hr hnot
      rw [hparent] at hu hr
      rw [hrerooted.field (·.windata.winclass) (fun _ => rfl)] at hlive
      by_cases hsub : u ∈ Windows.subtree wm.winIndex (gidOf pid i)
      · rw [hinside u hsub, hu.top_unique hsub hr hroot.2]
        rfl
      · rw [houtside u hsub]
        apply hinformed u r hlive hu hr
        intro hpending
        apply hnot
        -- only the window of slot `i` is not to come any more, and `u` is not under it
        apply pending_succ hi hpending
        rintro rfl
        exact hsub hu
    rw [updateRoot, htell] at hrun
    simp only [Option.bind_eq_bind, Option.bind_some] at hrun
    split at hrun
    case h_1 root hroot' =>
      split at hrun
      case isTrue =>
        cases hrun
        exact htold.congr fun u => core_push
      case isFalse =>
        cases hrun
        exact htold
    case h_2 =>
      cases hrun
      exact htold

/-- The rest of the second loop. -/
theorem rootSlots_informed (h : Grown (Pending pid k) wm place lists)
    (hinformed : Informed (Pending pid k) wm.winIndex) (hk : k ≤ 16)
    (hrun : rootSlots pid ((List.finRange 16).drop k) wm = some wm') :
    Informed (fun _ => False) wm'.winIndex := by
  induction hn : 16 - k generalizing k wm place lists with
  | zero =>
    rw [List.drop_of_length_le (by simp; omega)] at hrun
    cases hrun
    intro u r hlive hu hr _
    apply hinformed u r hlive hu hr
    rintro ⟨j, hj, -⟩
    omega
  | succ n ih =>
    have hlt : k < 16 := by omega
    obtain ⟨wm₁, place₁, lists₁, hslot, hgrown⟩ := rootSlot_spec (i := ⟨k, hlt⟩) h rfl
    rw [List.drop_eq_getElem_cons (by simpa using hlt), rootSlots] at hrun
    simp only [List.getElem_finRange, Fin.cast_mk, hslot, Option.bind_some] at hrun
    exact ih hgrown (rootSlot_informed h hinformed rfl hslot) (by omega) hrun (by omega)

end

/-! ## Runs of the window manager -/

section

variable {pid : Fin 16} {henv : Hierarchy} {wm wm' : WindowManager} {place : Gid → Option Place}
  {lists : Place → List Gid} {win₀ win : Windows} {place₀ : Gid → Option Place} {lists₀ : Place → List Gid}

/-- The windows of other processes keep what they were told during the first loop. -/
theorem Mid.informed (h : Mid pid henv.toEnvironment win₀ place₀ lists₀ 16 win place lists)
    (h₀ : Planted (fun _ => False) win₀ place₀ lists₀) (hok : Orderly pid henv.toEnvironment win₀)
    (hinformed : Informed (fun _ => False) win₀) : Informed (Pending pid 0) win := by
  have hplanted := h.planted h₀ hok
  -- a window whose top-level window belongs to another process has only such windows above it
  have hforeign : ∀ u r, Under win.parent r u → ¬ Pending pid 0 r → ¬ Pending pid 0 u := by
    intro u r hu hr
    induction hu using Relation.ReflTransGen.head_induction_on with
    | refl => exact hr
    | @head u c hstep _ ih =>
      rintro ⟨i, -, rfl⟩
      obtain ⟨-, pid', i', j, heq, rfl, -⟩ := hplanted.frame _ _ hstep
      obtain ⟨rfl, rfl⟩ := gidOf_inj heq
      exact ih ⟨j, Nat.zero_le _, rfl⟩
  have hbare : ∀ u, ¬ Pending pid 0 u → (win u).bare = (win₀ u).bare := by
    intro u hu
    apply h.undone
    rintro ⟨i, -, -, rfl⟩
    exact hu ⟨i, Nat.zero_le _, rfl⟩
  intro u r hlive hu hr hnot
  have hsame := hbare u (hforeign u r hu hnot)
  have hunder : Under win₀.parent r u := by
    induction hu using Relation.ReflTransGen.head_induction_on with
    | refl => exact .refl _ _
    | @head u c hstep hrest ih =>
      have hparent := GUIWindow.parent_of_bare (hbare u (hforeign u r (hrest.head hstep) hnot))
      have hlive' : (win c).windata.winclass ≠ .none := by
        rw [(hplanted.frame u c hstep).1]
        exact nofun
      exact (ih hlive' (hbare c (hforeign c r hrest hnot))).trans (Under.of_parent (hparent.symm.trans hstep))
  rw [GUIWindow.wmRoot_of_bare hsame]
  rw [GUIWindow.winclass_of_bare hsame] at hlive
  exact hinformed u r hlive hunder ((GUIWindow.parent_of_bare (hbare r hnot)).symm.trans hr) id

/-- **After a call of `gui_update_proc`** every live window has been told its top-level window. -/
theorem guiUpdateProc_informed (h : Grown (fun _ => False) wm place lists)
    (hinformed : Informed (fun _ => False) wm.winIndex) (hok : Orderly pid henv.toEnvironment wm.winIndex)
    (hrun : guiUpdateProc pid henv.toEnvironment wm = some wm') : Informed (fun _ => False) wm'.winIndex := by
  obtain ⟨win₁, place₁, lists₁, hloop, hmid⟩ := (Mid.start pid henv h.planted).run h.planted hok (Nat.zero_le 16)
  have hgrown : Grown (Pending pid 0) ⟨wm.winstack, win₁⟩ place₁ lists₁ := by
    refine ⟨(hmid.planted h.planted hok).mono ?_, ?_, hmid.rooted h.planted h.rooted⟩
    · rintro u ⟨j, rfl⟩ - - -
      exact ⟨j, Nat.zero_le _, rfl⟩
    · rw [hmid.stack]
      exact h.top
  rw [List.drop_zero] at hloop
  rw [guiUpdateProc, hloop] at hrun
  exact rootSlots_informed hgrown (hmid.informed h.planted hok hinformed) (Nat.zero_le 16) hrun

theorem click_core (w : Gid) (wm : WindowManager) (u : Gid) :
    ((click w wm).winIndex u).core = (wm.winIndex u).core := by
  rw [click]
  split
  · split
    · exact core_push.trans core_detach
    · rfl
  · rfl

theorem boot_informed (screen : Rect) (image : UInt32) (unions : Gid → UInt32) :
    Informed (fun _ => False) (boot screen image unions).winIndex := by
  intro u r hlive hu _ _
  have hdesktop : u = desktopGid := by
    by_contra hne
    rw [boot_of_ne screen image unions hne] at hlive
    exact hlive rfl
  rw [hdesktop] at hu ⊢
  rcases hu.eq_or_parent with heq | ⟨c, hc, -⟩
  · rw [← heq]
    rfl
  · cases hc

/-- The forest of the windows of `winstack`. -/
theorem Grown.forest_drawn (h : Grown (fun _ => False) wm place lists)
    (hinformed : Informed (fun _ => False) wm.winIndex) :
    ∃ forest : Forest, forest.Linked wm.winIndex none wm.winstack ∧ forest.windows.Nodup ∧
      forest.stack = lists .stack ∧ ∀ u, u ∈ forest.windows ↔ (wm.winIndex u).windata.winclass ≠ .none := by
  have hstack : ∀ w ∈ lists .stack, (wm.winIndex w).windata.winclass ≠ .none ∧ (wm.winIndex w).parent = none :=
    fun w hw => h.planted.root_of_stack ((h.planted.shape.threaded.mem_iff .stack w).mp hw)
  obtain ⟨forest, hbelow⟩ := h.planted.tree.below 256 (h.planted.shape.threaded.linked .stack).chain
    (fun w hw => (hstack w hw).2) (by
      intro w _ above habove
      obtain ⟨above, rfl⟩ := habove.exists_cons
      rw [List.length_cons]
      omega)
  have hlive : ∀ w ∈ lists .stack, ∀ u, Under (Windows.parent wm.winIndex) w u →
      (wm.winIndex u).windata.winclass ≠ .none := by
    intro w hw u hu hdead
    rcases hu.eq_or_parent with rfl | ⟨c, hc, -⟩
    · exact (hstack u hw).1 hdead
    · exact absurd ((h.planted.dead u hdead).1.symm.trans hc) nofun
  refine ⟨forest, ?_, hbelow.once, hbelow.stack, fun u => ?_⟩
  · rw [Forest.linked_iff, h.top]
    refine ⟨hbelow.hung, hbelow.told none ?_⟩
    intro w hw u hu
    exact hinformed u w (hlive w hw u hu) hu (hstack w hw).2 id
  · rw [hbelow.mem_iff]
    constructor
    · rintro ⟨w, hw, hu⟩
      exact hlive w hw u hu
    · intro hu
      obtain ⟨r, hr, hunder⟩ := h.planted.tree.grounded.exists_top u
      rcases h.planted.root r (h.planted.live_of_under hu hunder) hr with hplace | ⟨hfalse, -⟩
      · exact ⟨r, (h.planted.shape.threaded.mem_iff .stack r).mpr hplace, hunder⟩
      · exact hfalse.elim

/-- The invariant of the window manager, with what the windows have been told. -/
def Known (wm : WindowManager) : Prop :=
  ∃ place lists, Grown (fun _ => False) wm place lists ∧ Informed (fun _ => False) wm.winIndex

/-- One step. -/
theorem manager_step_known (op : GuiOp) (h : Known wm) (hok : InOrder wm op) (hstep : manager.step wm op = some wm') :
    Known wm' := by
  obtain ⟨place, lists, hgrown, hinformed⟩ := h
  cases op with
  | update pid env =>
    obtain ⟨wm₁, place', lists', hrun, hgrown'⟩ := guiUpdateProc_spec hgrown hok
    obtain rfl : wm₁ = wm' := Option.some.inj (hrun.symm.trans hstep)
    exact ⟨place', lists', hgrown', guiUpdateProc_informed hgrown hinformed hok hrun⟩
  | click w =>
    cases hstep
    obtain ⟨place', lists', hgrown'⟩ := click_spec hgrown w
    exact ⟨place', lists', hgrown', hinformed.congr (click_core w wm)⟩

end

/-- What every state of an orderly run has. -/
theorem manager_known {P : WindowManager → Prop} {wm : WindowManager} (hinit : manager.init wm) (ops : List GuiOp)
    (hok : manager.Steps InOrder wm ops) (hP : ∀ wm, Known wm → P wm) : manager.States P wm ops := by
  obtain ⟨screen, image, unions, rfl⟩ := hinit
  apply Machine.states_of_steps hP _ _ hok
  · exact fun wm op wm' h hop hstep => manager_step_known op h hop hstep
  · exact ⟨_, _, Grown.start screen image unions, boot_informed screen image unions⟩

/-- **In every state of an orderly run** the windows are a forest that contains each live window once, and
`gui_redraw_rect` from `winstack` draws what it makes of the pixels of the clip, if all windows can be drawn. -/
theorem reachable_redraws {wm : WindowManager} (hinit : manager.init wm) (ops : List GuiOp)
    (hok : manager.Steps InOrder wm ops) :
    manager.States (fun wm => ∃ forest : Forest, forest.Linked wm.winIndex none wm.winstack ∧
      forest.windows.Nodup ∧ (∀ w, w ∈ forest.windows ↔ (wm.winIndex w).windata.winclass ≠ .none) ∧
      ∀ (width height : UInt16) (src : Sources), (∀ w ∈ forest.windows, (wm.winIndex w).Ready src) →
        ∀ (clip : Rect) (s : Screen), clip.OnScreen width height →
          ∃ s', Screen.guiRedrawRect width height src wm.winIndex 257 clip wm.winstack s = some s' ∧
            Screen.Drawn width clip.pixels (forest.composite width src wm.winIndex none) s s') wm ops := by
  apply manager_known hinit ops hok
  rintro wm ⟨place, lists, hgrown, hinformed⟩
  obtain ⟨forest, hlinked, honce, -, hlive⟩ := hgrown.forest_drawn hinformed
  refine ⟨forest, hlinked, honce, hlive, fun width height src hready clip s hclip => ?_⟩
  have hlength : forest.windows.length ≤ 256 := by simpa using honce.length_le_card
  exact Screen.guiRedrawRect_composes hlinked hready 257 (by omega) clip s hclip

/-- There is a process 0. -/
theorem owner_neZero : NeZero 16 := inferInstance

section

attribute [local instance] gid_neZero owner_neZero

/-- The windows of `GUIModel`, in use. -/
def guiModelRun : List GuiOp :=
  [.update 0 (guiModel true true true), .click 2, .update 0 (guiModel false true true),
    .update 0 (guiModel true true true)]

end

/-- A window as it is drawn. -/
def GUIWindow.shown (gw : GUIWindow) : Kind × DisplayData × Rect := (gw.kind, gw.windata.displayData, gw.windata.rect)

/-- They are drawn on a screen of 800 by 600 pixels, whatever was there. -/
theorem reachable_redraws_guiModel : ∃ wm, manager.exec (boot ⟨0, 0, 800, 600⟩ 4096 fun _ => 0) guiModelRun = some wm ∧
    ∃ forest : Forest, forest.Linked wm.winIndex none wm.winstack ∧ forest.windows.Nodup ∧
      (∀ w, w ∈ forest.windows ↔ w ∈ [(0 : Gid), 1, 2, 3]) ∧
      ∀ s, ∃ s', Screen.guiRedrawRect 800 600 terminalSources wm.winIndex 257 ⟨0, 0, 800, 600⟩ wm.winstack s = some s' ∧
        Screen.Drawn 800 (Rect.pixels ⟨0, 0, 800, 600⟩) (forest.composite 800 terminalSources wm.winIndex none) s s' := by
  have hrun : (manager.exec (boot ⟨0, 0, 800, 600⟩ 4096 fun _ => 0) guiModelRun).map
      (fun wm => (decide (∀ w, (wm.winIndex w).windata.winclass ≠ .none ↔ w ∈ [(0 : Gid), 1, 2, 3]),
        [(0 : Gid), 1, 2, 3].map fun w => (wm.winIndex w).shown)) =
      some (true, [(.desktop, .bits 4096, ⟨0, 0, 800, 600⟩), (.frame, .window 3, ⟨200, 150, 600, 450⟩),
        (.window, .bits 50712, ⟨0, 0, 400, 300⟩), (.textBox, .bits 4096, ⟨20, 20, 380, 280⟩)]) := by
    decide +kernel
  obtain ⟨wm, hwm, heq⟩ := Option.map_eq_some_iff.mp hrun
  obtain ⟨hlive, hshown⟩ := Prod.mk.inj heq
  simp only [List.map_cons, List.map_nil, List.cons.injEq, and_true, GUIWindow.shown, Prod.mk.injEq] at hshown
  obtain ⟨⟨hdesktop, himage, -⟩, ⟨hframe, -⟩, ⟨hwindow, -⟩, htext, hbuffer, hrect⟩ := hshown
  obtain ⟨forest, hlinked, honce, hmem, hdraws⟩ :=
    (reachable_redraws ⟨_, _, _, rfl⟩ guiModelRun (by decide +kernel)).last hwm
  have hmem' : ∀ w, w ∈ forest.windows ↔ w ∈ [(0 : Gid), 1, 2, 3] :=
    fun w => (hmem w).trans (of_decide_eq_true hlive w)
  refine ⟨wm, hwm, forest, hlinked, honce, hmem', fun s => hdraws 800 600 terminalSources ?_ _ s ?_⟩
  · intro w hw
    rw [hmem'] at hw
    revert w
    simp only [List.forall_mem_cons, GUIWindow.Ready, hdesktop, hframe, hwindow, htext]
    refine ⟨⟨4096, himage⟩, trivial, trivial, ⟨4096, hbuffer, fun _ => ?_⟩, fun _ h => absurd h List.not_mem_nil⟩
    rw [hrect]
    refine ⟨⟨?_, ?_, ?_, ?_, ?_, ?_⟩, ?_, ?_, ?_, ?_⟩ <;> decide
  · exact ⟨by decide, by decide, by decide⟩

end Shipwreck.Gui
