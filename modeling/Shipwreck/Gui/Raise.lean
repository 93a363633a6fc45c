import Shipwreck.Gui.StackRuns
import Shipwreck.Gui.TopLevel

/-!
# Bringing a window to the top

A click takes a top-level window out of `winstack` and puts it back on top, with all that it contains. Of the
picture this changes only what is inside the window:

      r    a             a    r
      |    |             |    |
     ...  ...    -->    ...  ...       `Forest.raise a`

The same is true of moving it, for the pixels that are neither in the old nor in the new rectangle. A redraw that
begins at another window further down is not affected either (`Forest.composite_downFrom_raise`).
-/

namespace Shipwreck.Gui

/-- What can be seen of a window. -/
def GUIWindow.look (gw : GUIWindow) : Rect × UInt8 × Kind × DisplayData :=
  (gw.windata.rect, gw.gid, gw.kind, gw.windata.displayData)

theorem GUIWindow.look_of_core {gw gw' : GUIWindow} (h : gw.core = gw'.core) : gw.look = gw'.look :=
  field_of_core look (fun _ => rfl) h

namespace Forest

/-! ## Trees of a stack -/

/-- The tree of `w` on top of `below`. -/
def onTop (w : Gid) : Forest → Forest → Forest
  | nil, below => below
  | leaf v rest, below => if v = w then leaf v below else onTop w rest below
  | frame v children rest, below => if v = w then frame v children below else onTop w rest below

/-- The stack without the tree of `w`. -/
def remove (w : Gid) : Forest → Forest
  | nil => nil
  | leaf v rest => if v = w then rest else leaf v (remove w rest)
  | frame v children rest => if v = w then rest else frame v children (remove w rest)

/-- The tree of `w` on top of the others. -/
def raise (w : Gid) (forest : Forest) : Forest := forest.onTop w (forest.remove w)

/-- The stack from `w` down. -/
def downFrom (w : Gid) : Forest → Forest
  | nil => nil
  | leaf v rest => if v = w then leaf v rest else downFrom w rest
  | frame v children rest => if v = w then frame v children rest else downFrom w rest

/-- The windows in the tree of `w`. -/
def tree (w : Gid) : Forest → List Gid
  | nil => []
  | leaf v rest => if v = w then [v] else tree w rest
  | frame v children rest => if v = w then v :: children.windows else tree w rest

section

variable {forest below : Forest} {v w u : Gid}

theorem remove_stack (w : Gid) (forest : Forest) : (forest.remove w).stack = forest.stack.erase w := by
  induction forest with
  | nil => rfl
  | leaf v rest ih | frame v _ rest _ ih =>
    rw [remove, stack, List.erase_cons]
    by_cases h : v = w
    · rw [if_pos h, if_pos (beq_iff_eq.mpr h)]
    · rw [if_neg h, if_neg (mt beq_iff_eq.mp h), stack, ih]

theorem onTop_stack (hw : w ∈ forest.stack) : (forest.onTop w below).stack = w :: below.stack := by
  induction forest with
  | nil => exact absurd hw List.not_mem_nil
  | leaf v rest ih | frame v _ rest _ ih =>
    rw [onTop]
    by_cases h : v = w
    · rw [if_pos h, stack, h]
    · rw [if_neg h]
      exact ih (List.mem_of_ne_of_mem (Ne.symm h) hw)

theorem raise_stack (hw : w ∈ forest.stack) : (forest.raise w).stack = w :: forest.stack.erase w := by
  rw [raise, onTop_stack hw, remove_stack]

/-- The windows of a tree and those of the others. -/
theorem tree_remove_perm (hw : w ∈ forest.stack) :
    (forest.tree w ++ (forest.remove w).windows).Perm forest.windows := by
  induction forest with
  | nil => exact absurd hw List.not_mem_nil
  | leaf v rest ih =>
    rw [tree, remove]
    by_cases h : v = w
    · rw [if_pos h, if_pos h]
      exact .refl _
    · rw [if_neg h, if_neg h]
      exact List.perm_middle.trans ((ih (List.mem_of_ne_of_mem (Ne.symm h) hw)).cons v)
  | frame v children rest _ ih =>
    rw [tree, remove]
    by_cases h : v = w
    · rw [if_pos h, if_pos h]
      exact .refl _
    · rw [if_neg h, if_neg h, windows, windows]
      refine List.perm_middle.trans (.cons v ?_)
      rw [← List.append_assoc]
      refine (List.perm_append_comm.append_right _).trans ?_
      rw [List.append_assoc]
      exact (ih (List.mem_of_ne_of_mem (Ne.symm h) hw)).append_left _

theorem onTop_windows (hw : w ∈ forest.stack) :
    (forest.onTop w below).windows = forest.tree w ++ below.windows := by
  induction forest with
  | nil => exact absurd hw List.not_mem_nil
  | leaf v rest ih | frame v _ rest _ ih =>
    rw [onTop, tree]
    by_cases h : v = w
    · rw [if_pos h, if_pos h]
      rfl
    · rw [if_neg h, if_neg h]
      exact ih (List.mem_of_ne_of_mem (Ne.symm h) hw)

theorem raise_windows (hw : w ∈ forest.stack) : (forest.raise w).windows.Perm forest.windows := by
  rw [raise, onTop_windows hw]
  exact tree_remove_perm hw

theorem downFrom_windows (w : Gid) (forest : Forest) : (forest.downFrom w).windows.Sublist forest.windows := by
  induction forest with
  | nil => exact .refl _
  | leaf v rest ih =>
    rw [downFrom]
    by_cases h : v = w
    · rw [if_pos h]
    · rw [if_neg h]
      exact ih.cons v
  | frame v children rest _ ih =>
    rw [downFrom]
    by_cases h : v = w
    · rw [if_pos h]
    · rw [if_neg h]
      exact (ih.trans (List.sublist_append_right _ _)).cons v

theorem downFrom_self (hw : w ∈ forest.stack) :
    (forest.onTop w below).downFrom w = forest.onTop w below := by
  induction forest with
  | nil => exact absurd hw List.not_mem_nil
  | leaf u rest ih | frame u _ rest _ ih =>
    rw [onTop]
    by_cases h : u = w
    · rw [if_pos h, downFrom, if_pos h]
    · rw [if_neg h]
      exact ih (List.mem_of_ne_of_mem (Ne.symm h) hw)

theorem downFrom_onTop (hvw : v ≠ w) (hw : w ∈ forest.stack) :
    (forest.onTop w below).downFrom v = below.downFrom v := by
  induction forest with
  | nil => exact absurd hw List.not_mem_nil
  | leaf u rest ih | frame u _ rest _ ih =>
    rw [onTop]
    by_cases h : u = w
    · rw [if_pos h, downFrom, if_neg (h.trans_ne hvw.symm)]
    · rw [if_neg h]
      exact ih (List.mem_of_ne_of_mem (Ne.symm h) hw)

end

/-! ## What can be seen -/

section

variable {width : UInt16} {src : Sources} {win win' : Windows} {under : Option Layer} {U V : Layer}
  {forest below : Forest} {v w : Gid} {p : Int × Int} {px : Pixel}

/-- The number in the picture is that of one of its windows. -/
theorem composite_number (forest : Forest) (under : Option Layer) (p : Int × Int) (px : Pixel) :
    (forest.composite width src win under p px).1 = px.1 ∨
      ∃ u ∈ forest.windows, (forest.composite width src win under p px).1 = (win u).gid := by
  induction forest generalizing under with
  | nil => exact .inl rfl
  | leaf w rest ih =>
    simp only [composite]
    split
    · exact .inr ⟨w, List.mem_cons_self, rfl⟩
    · exact (ih under).imp_right fun ⟨u, hu, heq⟩ => ⟨u, List.mem_cons_of_mem w hu, heq⟩
  | frame w children rest ihc ihr =>
    simp only [composite]
    split
    · refine (ihc _).imp_right fun ⟨u, hu, heq⟩ => ⟨u, ?_, heq⟩
      exact List.mem_cons_of_mem w (List.mem_append_left _ hu)
    · refine (ihr under).imp_right fun ⟨u, hu, heq⟩ => ⟨u, ?_, heq⟩
      exact List.mem_cons_of_mem w (List.mem_append_right _ hu)

/-- What is done before counts only at the pixel in question. -/
theorem layer_congr (gw : GUIWindow) (h : ∀ px, U p px = V p px) :
    gw.layer width src U p px = gw.layer width src V p px := by
  simp only [GUIWindow.layer, h]

theorem layer_look {gw gw' : GUIWindow} (h : gw.look = gw'.look) :
    gw.layer width src U p px = gw'.layer width src U p px := by
  obtain ⟨hrect, hgid, hkind, hdata⟩ : gw.windata.rect = gw'.windata.rect ∧ gw.gid = gw'.gid ∧
      gw.kind = gw'.kind ∧ gw.windata.displayData = gw'.windata.displayData := by
    simpa only [GUIWindow.look, Prod.mk.injEq] using h
  have hcolor : gw.color src = gw'.color src := by rw [GUIWindow.color, GUIWindow.color, hdata]
  rw [GUIWindow.layer, GUIWindow.layer, hgid, hkind, hcolor, hrect]

theorem getD_congr (h : ∀ px, U p px = V p px) (under : Option Layer) :
    ∀ px, under.getD U p px = under.getD V p px := by
  cases under with
  | none => exact h
  | some _ => exact fun _ => rfl

theorem composite_under_congr (h : ∀ px, U p px = V p px) (forest : Forest) (px : Pixel) :
    forest.composite width src win (some U) p px = forest.composite width src win (some V) p px := by
  induction forest with
  | nil => rfl
  | leaf w rest ih =>
    simp only [composite, Option.getD_some, ih]
    split
    · exact layer_congr _ h
    · rfl
  | frame w children rest ihc ihr => simp only [composite, Option.getD_some, ihc, ihr]

/-- Only what can be seen of the windows matters. -/
theorem composite_look (hlook : ∀ u ∈ forest.windows, (win' u).look = (win u).look) (under : Option Layer) :
    forest.composite width src win' under = forest.composite width src win under := by
  have hrect {u : Gid} (h : (win' u).look = (win u).look) : (win' u).windata.rect = (win u).windata.rect :=
    congrArg Prod.fst h
  induction forest generalizing under with
  | nil => rfl
  | leaf w rest ih =>
    simp only [windows, List.forall_mem_cons] at hlook
    funext p px
    simp only [composite, ih hlook.2, hrect hlook.1, layer_look hlook.1]
  | frame w children rest ihc ihr =>
    simp only [windows, List.forall_mem_cons, List.forall_mem_append] at hlook
    funext p px
    simp only [composite, ihc hlook.2.1, ihr hlook.2.2, hrect hlook.1]

/-- **Beside a window** the picture is the same without its tree. -/
theorem composite_remove (hp : p ∉ (win w).windata.rect.pixels) (forest : Forest) (under : Option Layer)
    (px : Pixel) :
    (forest.remove w).composite width src win under p px = forest.composite width src win under p px := by
  induction forest generalizing under px with
  | nil => rfl
  | leaf v rest ih =>
    rw [remove]
    by_cases hvw : v = w
    · rw [if_pos hvw]
      subst hvw
      exact (if_neg hp).symm
    · rw [if_neg hvw]
      simp only [composite, ih]
      split
      · exact layer_congr _ (getD_congr (ih none) under)
      · rfl
  | frame v children rest _ ih =>
    rw [remove]
    by_cases hvw : v = w
    · rw [if_pos hvw]
      subst hvw
      exact (if_neg hp).symm
    · rw [if_neg hvw]
      simp only [composite, ih]
      split
      · exact composite_under_congr (getD_congr (ih none) under) children px
      · rfl

theorem composite_onTop (hp : p ∉ (win w).windata.rect.pixels) (forest below : Forest) (px : Pixel) :
    (forest.onTop w below).composite width src win none p px = below.composite width src win none p px := by
  induction forest with
  | nil => rfl
  | leaf v rest ih =>
    rw [onTop]
    by_cases hvw : v = w
    · rw [if_pos hvw]
      subst hvw
      exact if_neg hp
    · rw [if_neg hvw, ih]
  | frame v children rest _ ih =>
    rw [onTop]
    by_cases hvw : v = w
    · rw [if_pos hvw]
      subst hvw
      exact if_neg hp
    · rw [if_neg hvw, ih]

/-- **Raising a window** changes nothing beside it. -/
theorem composite_raise (hp : p ∉ (win w).windata.rect.pixels) (forest : Forest) (px : Pixel) :
    (forest.raise w).composite width src win none p px = forest.composite width src win none p px := by
  rw [raise, composite_onTop hp, composite_remove hp]

/-- The same from another window down. -/
theorem composite_downFrom_remove (hvw : v ≠ w) (hp : p ∉ (win w).windata.rect.pixels) (forest : Forest)
    (px : Pixel) :
    ((forest.remove w).downFrom v).composite width src win none p px =
      (forest.downFrom v).composite width src win none p px := by
  induction forest with
  | nil => rfl
  | leaf u rest ih =>
    rw [remove, downFrom]
    by_cases huw : u = w
    · rw [if_pos huw, if_neg (huw.trans_ne hvw.symm)]
    · rw [if_neg huw, downFrom]
      by_cases huv : u = v
      · rw [if_pos huv, if_pos huv, ← composite_remove hp (leaf u rest), remove, if_neg huw]
      · rw [if_neg huv, if_neg huv, ih]
  | frame u children rest _ ih =>
    rw [remove, downFrom]
    by_cases huw : u = w
    · rw [if_pos huw, if_neg (huw.trans_ne hvw.symm)]
    · rw [if_neg huw, downFrom]
      by_cases huv : u = v
      · rw [if_pos huv, if_pos huv, ← composite_remove hp (frame u children rest), remove, if_neg huw]
      · rw [if_neg huv, if_neg huv, ih]

/-- **Raising a window** changes nothing beside it, also from another window down. -/
theorem composite_downFrom_raise (hvw : v ≠ w) (hw : w ∈ forest.stack) (hp : p ∉ (win w).windata.rect.pixels)
    (px : Pixel) :
    ((forest.raise w).downFrom v).composite width src win none p px =
      (forest.downFrom v).composite width src win none p px := by
  rw [raise, downFrom_onTop hvw hw, composite_downFrom_remove hvw hp]

/-- **Changing a tree** changes nothing beside its top-level window, before and after. -/
theorem composite_change (hlook : ∀ u ∈ (forest.remove w).windows, (win' u).look = (win u).look)
    (hp : p ∉ (win w).windata.rect.pixels) (hp' : p ∉ (win' w).windata.rect.pixels) (px : Pixel) :
    forest.composite width src win' none p px = forest.composite width src win none p px := by
  rw [← composite_remove hp', composite_look hlook, composite_remove hp]

theorem composite_downFrom_change (hlook : ∀ u ∈ (forest.remove w).windows, (win' u).look = (win u).look)
    (hvw : v ≠ w) (hp : p ∉ (win w).windata.rect.pixels) (hp' : p ∉ (win' w).windata.rect.pixels) (px : Pixel) :
    (forest.downFrom v).composite width src win' none p px =
      (forest.downFrom v).composite width src win none p px := by
  have hdown : ∀ u ∈ ((forest.remove w).downFrom v).windows, (win' u).look = (win u).look :=
    fun u hu => hlook u ((downFrom_windows v _).mem hu)
  rw [← composite_downFrom_remove hvw hp', composite_look hdown, composite_downFrom_remove hvw hp]

end

/-! ## The links -/

/-- The top-level windows of a stack know that they are, and the children of each frame are a forest. -/
def Trees (win : Windows) : Forest → Prop
  | nil => True
  | leaf w rest => ((win w).kind ≠ .frame ∧ (win w).wmRoot = some w) ∧ Trees win rest
  | frame w children rest =>
    ((win w).kind = .frame ∧ (win w).wmRoot = some w ∧
      ∃ first, (win w).children = some first ∧ Linked win (some w) first children) ∧ Trees win rest

/-- The windows that are in frames. -/
def inner : Forest → List Gid
  | nil => []
  | leaf _ rest => inner rest
  | frame _ children rest => windows children ++ inner rest

section

variable {win win' : Windows} {forest below : Forest} {top root : Option Gid} {u v w : Gid}

/-- A stack of trees. -/
theorem linked_iff_trees : forest.Linked win none top ↔ Chain win.next top forest.stack ∧ forest.Trees win := by
  induction forest generalizing top with
  | nil => simp [Linked, stack, Trees]
  | leaf w rest ih =>
    rw [Linked, stack, Trees, Chain, ih, Option.getD_none]
    unfold Windows.next
    tauto
  | frame w children rest _ ih =>
    rw [Linked, stack, Trees, Chain, ih, Option.getD_none]
    unfold Windows.next
    tauto

theorem windows_perm (forest : Forest) : forest.windows.Perm (forest.stack ++ forest.inner) := by
  induction forest with
  | nil => exact .refl _
  | leaf w rest ih => exact ih.cons w
  | frame w children rest _ ih =>
    rw [windows, stack, inner, List.cons_append, ← List.append_assoc]
    refine .cons w ((ih.append_left _).trans ?_)
    rw [← List.append_assoc]
    exact List.perm_append_comm.append_right _

/-- A window in a frame is not in the stack. -/
theorem not_mem_stack (honce : forest.windows.Nodup) (hu : u ∈ forest.inner) : u ∉ forest.stack :=
  fun hstack => (List.nodup_append.mp (forest.windows_perm.nodup_iff.mp honce)).2.2 u hstack u hu rfl

theorem Told.congr (h : forest.Told win root) (hroot : ∀ u, (win' u).wmRoot = (win u).wmRoot) :
    forest.Told win' root := by
  induction forest generalizing root with
  | nil => trivial
  | leaf w rest ih =>
    rw [Told, hroot]
    exact ⟨h.1, ih h.2⟩
  | frame w children rest ihc ihr =>
    rw [Told, hroot]
    exact ⟨h.1, ihc h.2.1, ihr h.2.2⟩

theorem Linked.congr (h : forest.Linked win root top)
    (hlinks : ∀ u ∈ forest.windows, (win' u).links = (win u).links)
    (hroot : ∀ u, (win' u).wmRoot = (win u).wmRoot) : forest.Linked win' root top := by
  rw [linked_iff] at h ⊢
  exact ⟨h.1.congr hlinks, h.2.congr hroot⟩

/-- The links between the trees do not matter. -/
theorem Trees.congr (h : forest.Trees win) (hcore : ∀ u, (win' u).core = (win u).core)
    (hnext : ∀ u ∈ forest.inner, (win' u).next = (win u).next) : forest.Trees win' := by
  have hkind (u : Gid) : (win' u).kind = (win u).kind :=
    GUIWindow.field_of_core (·.kind) (fun _ => rfl) (hcore u)
  have hroot (u : Gid) : (win' u).wmRoot = (win u).wmRoot :=
    GUIWindow.field_of_core (·.wmRoot) (fun _ => rfl) (hcore u)
  have hchildren (u : Gid) : (win' u).children = (win u).children :=
    GUIWindow.field_of_core (·.children) (fun _ => rfl) (hcore u)
  induction forest with
  | nil => trivial
  | leaf w rest ih =>
    rw [Trees, hkind, hroot]
    exact ⟨h.1, ih h.2 hnext⟩
  | frame w children rest _ ih =>
    rw [inner, List.forall_mem_append] at hnext
    obtain ⟨⟨hframe, hself, first, hfirst, hlinked⟩, hrest⟩ := h
    rw [Trees, hkind, hroot, hchildren]
    refine ⟨⟨hframe, hself, first, hfirst, hlinked.congr (fun u hu => ?_) hroot⟩, ih hrest hnext.2⟩
    rw [GUIWindow.links, GUIWindow.links, hkind, hchildren, hnext.1 u hu]

theorem Trees.remove (h : forest.Trees win) (w : Gid) : (forest.remove w).Trees win := by
  induction forest with
  | nil => trivial
  | leaf v rest ih | frame v _ rest _ ih =>
    rw [Forest.remove]
    split
    · exact h.2
    · exact ⟨h.1, ih h.2⟩

theorem Trees.onTop (h : forest.Trees win) (hbelow : below.Trees win) (w : Gid) :
    (forest.onTop w below).Trees win := by
  induction forest with
  | nil => exact hbelow
  | leaf v rest ih | frame v _ rest _ ih =>
    rw [Forest.onTop]
    split
    · exact ⟨h.1, hbelow⟩
    · exact ih h.2

/-- From a window of the stack down. -/
theorem Linked.downFrom (h : forest.Linked win root top) (hw : w ∈ forest.stack) :
    (forest.downFrom w).Linked win root (some w) := by
  induction forest generalizing top with
  | nil => exact absurd hw List.not_mem_nil
  | leaf v rest ih =>
    rw [Forest.downFrom]
    by_cases hvw : v = w
    · subst hvw
      rw [if_pos rfl]
      exact ⟨rfl, h.2⟩
    · rw [if_neg hvw]
      exact ih h.2.2.2 (List.mem_of_ne_of_mem (Ne.symm hvw) hw)
  | frame v children rest _ ih =>
    rw [Forest.downFrom]
    by_cases hvw : v = w
    · subst hvw
      rw [if_pos rfl]
      exact ⟨rfl, h.2⟩
    · rw [if_neg hvw]
      exact ih h.2.2.2.2 (List.mem_of_ne_of_mem (Ne.symm hvw) hw)

/-- Every window in a frame has been told the same. -/
theorem Told.eq_root {r : Gid} (h : forest.Told win (some r)) (hu : u ∈ forest.windows) :
    (win u).wmRoot = some r := by
  induction forest with
  | nil => exact absurd hu List.not_mem_nil
  | leaf w rest ih =>
    rcases List.mem_cons.mp hu with rfl | hu
    · exact h.1
    · exact ih h.2 hu
  | frame w children rest ihc ihr =>
    rw [windows, List.mem_cons, List.mem_append] at hu
    rcases hu with rfl | hu | hu
    · exact h.1
    · exact ihc h.2.1 hu
    · exact ihr h.2.2 hu

/-- Every window has been told a window of the stack. -/
theorem Told.root_mem (h : forest.Told win none) (hu : u ∈ forest.windows) :
    ∃ r ∈ forest.stack, (win u).wmRoot = some r := by
  induction forest with
  | nil => exact absurd hu List.not_mem_nil
  | leaf w rest ih =>
    rcases List.mem_cons.mp hu with rfl | hu
    · exact ⟨u, List.mem_cons_self, h.1⟩
    · exact (ih h.2 hu).imp fun _ hr => ⟨List.mem_cons_of_mem _ hr.1, hr.2⟩
  | frame w children rest _ ih =>
    rw [windows, List.mem_cons, List.mem_append] at hu
    rcases hu with rfl | hu | hu
    · exact ⟨u, List.mem_cons_self, h.1⟩
    · exact ⟨w, List.mem_cons_self, h.2.1.eq_root hu⟩
    · exact (ih h.2.2 hu).imp fun _ hr => ⟨List.mem_cons_of_mem _ hr.1, hr.2⟩

/-- The windows of one tree, and those of the others. -/
theorem not_mem_tree (honce : forest.windows.Nodup) (hw : w ∈ forest.stack) (hu : u ∈ (forest.remove w).windows) :
    u ∉ forest.tree w := by
  intro htree
  have hnodup := (tree_remove_perm hw).nodup_iff.mpr honce
  exact (List.nodup_append.mp hnodup).2.2 u htree u hu rfl

/-- Another window of the stack is in another tree. -/
theorem mem_remove (hu : u ∈ forest.stack) (huw : u ≠ w) : u ∈ (forest.remove w).windows := by
  apply (forest.remove w).stack_sublist.mem
  rw [remove_stack]
  exact (List.mem_erase_of_ne huw).mpr hu

/-- **The loops of `move` and `update_root` come to each window of one tree.** -/
theorem Trees.visit {act : GUIWindow → GUIWindow} (hact : ∀ gw, (act gw).links = gw.links)
    (h : forest.Trees win) (honce : forest.windows.Nodup) (hw : w ∈ forest.stack) :
    ∃ win', Gui.visit act 256 w win = some win' ∧
      ∀ u, win' u = if u ∈ forest.tree w then act (win u) else win u := by
  induction forest with
  | nil => exact absurd hw List.not_mem_nil
  | leaf v rest ih =>
    rw [tree]
    by_cases hvw : v = w
    · subst hvw
      refine ⟨win.modify v act, ?_, fun u => ?_⟩
      · rw [Gui.visit]
        simp only [Windows.modify_self, GUIWindow.kind_of_links (hact (win v)), if_neg h.1.1]
      · rw [if_pos rfl]
        by_cases huv : u = v
        · rw [huv, Windows.modify_self, if_pos List.mem_cons_self]
        · rw [Windows.modify_of_ne huv, if_neg (by simpa using huv)]
    · rw [if_neg hvw]
      exact ih h.2 (List.nodup_cons.mp honce).2 (List.mem_of_ne_of_mem (Ne.symm hvw) hw)
  | frame v children rest _ ih =>
    rw [tree]
    simp only [windows, List.nodup_cons, List.mem_append, not_or, List.nodup_append] at honce
    obtain ⟨⟨hout, -⟩, hchildren, hrest, -⟩ := honce
    by_cases hvw : v = w
    · subst hvw
      obtain ⟨⟨hkind, -, first, hfirst, hlinked⟩, -⟩ := h
      have hlength : children.windows.length ≤ 255 := by
        have hcard : children.windows.length + 1 ≤ 256 := by
          simpa using (List.nodup_cons.mpr ⟨hout, hchildren⟩).length_le_card
        exact Nat.le_of_succ_le_succ hcard
      obtain ⟨win', hrun, hwin'⟩ := ((linked_iff.mp hlinked).1.modify act hout).eachFrom_visit hact hchildren
        hlength (Nat.le_trans children.stack_sublist.length_le (Nat.le_succ_of_le hlength))
      refine ⟨win', ?_, fun u => ?_⟩
      · rw [Gui.visit]
        simp only [Windows.modify_self, GUIWindow.kind_of_links (hact (win v)), if_pos hkind,
          GUIWindow.children_of_links (hact (win v)), hfirst, Option.bind_eq_bind, Option.bind_some, hrun]
      · rw [hwin', if_pos rfl]
        by_cases huv : u = v
        · subst huv
          rw [if_neg hout, Windows.modify_self, if_pos List.mem_cons_self]
        · simp only [Windows.modify_of_ne huv, List.mem_cons, huv, false_or]
    · rw [if_neg hvw]
      exact ih h.2 hrest (List.mem_of_ne_of_mem (Ne.symm hvw) hw)

end

end Forest

/-! ## What the operations keep -/

section

variable {win : Windows} {l : List Gid} {top : Option Gid} {u w : Gid}

theorem next_detach (hl : Linked win.next win.prev none l) (hw : w ∈ l) (hu : u ∉ l) :
    ((detach top w win).2 u).next = (win u).next := by
  obtain ⟨l₁, l₂, rfl⟩ := List.append_of_mem hw
  have hdetached : Detached win (detach top w win).2 w := detach_detached hl
  have hnext := hdetached.next u
  rw [if_neg (ne_of_mem_of_not_mem hw hu).symm, if_neg fun hprev => hu (hl.mem_of_prev hw hprev)] at hnext
  exact hnext

theorem next_push (huw : u ≠ w) : ((push top w win).2 u).next = (win u).next := by
  cases top with
  | none => simp [push, huw]
  | some t => simp [push, huw]

end

/-- The windows are arranged as this forest. -/
structure Arranged (wm : WindowManager) (forest : Forest) : Prop where
  linked : forest.Linked wm.winIndex none wm.winstack
  once : forest.windows.Nodup
  holds : GUIWindowStack.Holds ⟨wm.winstack, wm.winIndex⟩ forest.stack

/-- In every state of an orderly run of the window manager the windows are arranged. -/
theorem Known.arranged {wm : WindowManager} (h : Known wm) : ∃ forest, Arranged wm forest ∧
    (∀ u, u ∈ forest.windows ↔ (wm.winIndex u).windata.winclass ≠ .none) ∧
    ∀ u, u ∈ forest.stack ↔ (wm.winIndex u).windata.winclass ≠ .none ∧ (wm.winIndex u).parent = none := by
  obtain ⟨place, lists, hgrown, hinformed⟩ := h
  obtain ⟨forest, hlinked, honce, hstack, hlive⟩ := hgrown.forest_drawn hinformed
  refine ⟨forest, ⟨hlinked, honce, ?_, ?_⟩, hlive, fun u => ?_⟩
  · rw [hstack]
    exact hgrown.planted.shape.threaded.linked .stack
  · rw [hstack]
    exact hgrown.top
  · rw [hstack, hgrown.planted.shape.threaded.mem_iff]
    refine ⟨hgrown.planted.root_of_stack, fun hroot => ?_⟩
    rcases hgrown.planted.root u hroot.1 hroot.2 with hplace | ⟨hfalse, -⟩
    · exact hplace
    · exact hfalse.elim

namespace Arranged

variable {wm : WindowManager} {forest : Forest} {v w root : Gid}

/-- **A click** brings the tree that was clicked to the top. -/
theorem click (h : Arranged wm forest) (hw : w ≠ desktopGid) (hroot : (wm.winIndex w).wmRoot = some root)
    (hmem : root ∈ forest.stack) (htop : wm.winstack ≠ some root) :
    Arranged (click w wm) (forest.raise root) := by
  have hstate : Gui.click w wm = ⟨(push (detach wm.winstack root wm.winIndex).1 root
      (detach wm.winstack root wm.winIndex).2).1, (push (detach wm.winstack root wm.winIndex).1 root
      (detach wm.winstack root wm.winIndex).2).2⟩ := by
    rw [Gui.click, hroot]
    exact if_pos ⟨hw, htop⟩
  have hdetach : (StackOp.detach root).Allowed ⟨wm.winstack, wm.winIndex⟩ := by
    show root ∈ GUIWindowStack.windows _
    rw [h.holds.windows_eq]
    exact hmem
  have hheld := perform_holds h.holds hdetach
  have hpush : (StackOp.push root).Allowed ((StackOp.detach root).perform ⟨wm.winstack, wm.winIndex⟩) := by
    show root ∉ GUIWindowStack.windows _
    rw [hheld.windows_eq]
    exact h.holds.linked.nodup.not_mem_erase
  have hraised := perform_holds hheld hpush
  have honce : (forest.raise root).windows.Nodup := (Forest.raise_windows hmem).nodup_iff.mpr h.once
  have hstack : (forest.raise root).stack = root :: forest.stack.erase root := Forest.raise_stack hmem
  have htrees := (Forest.linked_iff_trees.mp h.linked).2
  rw [hstate]
  refine ⟨?_, honce, hstack ▸ hraised⟩
  rw [Forest.linked_iff_trees, hstack]
  have hchain := hraised.wellLinked.down
  refine ⟨hchain, (htrees.onTop (htrees.remove root) root).congr ?_ ?_⟩
  · exact fun u => core_push.trans core_detach
  · intro u hu
    have hout := Forest.not_mem_stack honce hu
    rw [hstack, List.mem_cons, not_or] at hout
    have hstack' : u ∉ forest.stack := fun hin => hout.2 ((List.mem_erase_of_ne hout.1).mpr hin)
    rw [next_push hout.1, next_detach h.holds.linked hmem hstack']

/-- **Moving a tree** keeps the arrangement. -/
theorem move (h : Arranged wm forest) (hw : w ∈ forest.stack) (dx dy : Int32) :
    ∃ win', Gui.move dx dy w wm.winIndex = some win' ∧ Arranged ⟨wm.winstack, win'⟩ forest ∧
      ∀ u, win' u = if u ∈ forest.tree w then (wm.winIndex u).move dx dy else wm.winIndex u := by
  have hlinks (gw : GUIWindow) : (gw.move dx dy).links = gw.links := rfl
  obtain ⟨win', hrun, hwin'⟩ := (Forest.linked_iff_trees.mp h.linked).2.visit hlinks h.once hw
  have hfield {β : Type} (g : GUIWindow → β) (hg : ∀ gw : GUIWindow, g (gw.move dx dy) = g gw) (u : Gid) :
      g (win' u) = g (wm.winIndex u) := by
    rw [hwin']
    split
    · exact hg _
    · rfl
  refine ⟨win', hrun, ⟨h.linked.congr (fun u _ => hfield _ (fun _ => rfl) u) (hfield _ fun _ => rfl), h.once, ?_⟩,
    hwin'⟩
  exact ⟨h.holds.linked.congr fun u _ => ⟨hfield (·.next) (fun _ => rfl) u, hfield (·.prev) (fun _ => rfl) u⟩,
    h.holds.top⟩

end Arranged

end Shipwreck.Gui
