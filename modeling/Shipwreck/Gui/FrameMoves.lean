import Mathlib.Data.Set.BooleanAlgebra
import Mathlib.Order.CompletePartialOrder
import Shipwreck.Gui.Forest
import Shipwreck.Lib.Ancestors

/-!
# Frames carry their children

The rectangles of windows are absolute. A window that comes into a frame is moved by the upper left corner of
the frame, one that leaves it is moved back, and a frame that is moved takes all windows below it along:

    addChild        + (l, t)  of the frame, now
    move            + (dx, dy)  for all of the subtree
    removeChild     - (l, t)  of the frame, then

In between the frame may have been anywhere (`frames_carry`). Each operation moves one subtree by one vector
(`perform_spec`), and a subtree that it does not touch is moved together with its frame or not at all.
-/

namespace Shipwreck.Gui

/-! ## Trees of windows -/

/-- A window and all windows below it. -/
def Windows.subtree (win : Windows) (w : Gid) : Set Gid := { u | Under win.parent w u }

/-- The children of each frame are a list that begins where the frame says, and the parents lead to an end. -/
structure Tree (win : Windows) (lists : Gid → List Gid) : Prop where
  listed : Listed win.next win.prev win.parent lists
  children : ∀ f, (win f).kind = .frame → (win f).children = some (lists f).head?
  frame : ∀ w f, (win w).parent = some f → (win f).kind = .frame
  grounded : Grounded win.parent

/-- A call of one of the three functions. -/
inductive TreeOp where
  | move (w : Gid) (dx dy : Int32)
  | addChild (frame child : Gid)
  | removeChild (frame child : Gid)
  deriving DecidableEq, Repr

namespace TreeOp

def perform (win : Windows) : TreeOp → Option Windows
  | move w dx dy => Gui.move dx dy w win
  | addChild frame child => Gui.addChild frame child win
  | removeChild frame child => Gui.removeChild frame child win

/-- The call is about windows outside of the subtree of `c`. A window that is put into a frame is in none, and
the frame is not below it. -/
def Outside (c : Gid) (win : Windows) : TreeOp → Prop
  | move w _ _ => w ∉ win.subtree c
  | addChild frame child => (win frame).kind = .frame ∧ frame ∉ win.subtree c ∧
    (win child).parent = none ∧ frame ∉ win.subtree child
  | removeChild frame child => (win frame).kind = .frame ∧ frame ∉ win.subtree c ∧ child ∉ win.subtree c

end TreeOp

/-- Calls one after another. -/
def treeMachine : Machine Windows TreeOp where
  init win := ∃ lists, Tree win lists
  step win op := op.perform win

/-- A rectangle seen from a point. -/
def Rect.relativeTo (rect : Rect) (x y : Int32) : Rect := ⟨rect.l - x, rect.t - y, rect.r - x, rect.b - y⟩

/-! ## Moved rectangles -/

namespace Rect

def shift (rect : Rect) (dx dy : Int32) : Rect := ⟨rect.l + dx, rect.t + dy, rect.r + dx, rect.b + dy⟩

variable (rect : Rect) (dx dy x y : Int32)

@[simp] theorem shift_zero : rect.shift 0 0 = rect := by
  simp only [shift, Int32.add_zero]

theorem shift_shift : (rect.shift x y).shift dx dy = rect.shift (x + dx) (y + dy) := by
  simp only [shift, Int32.add_assoc]

@[simp] theorem relativeTo_shift : (rect.shift x y).relativeTo x y = rect := by
  simp only [shift, relativeTo, Int32.add_sub_cancel]

@[simp] theorem relativeTo_zero : rect.relativeTo 0 0 = rect := by
  simp only [relativeTo, Int32.sub_zero]

@[simp] theorem shift_neg : (rect.shift x y).shift (-x) (-y) = rect := by
  simp only [shift_shift, Int32.add_right_neg, shift_zero]

end Rect

/-- A window without its place on the screen. -/
def GUIWindow.still (gw : GUIWindow) : GUIWindow :=
  { gw with windata := { gw.windata with rect := ⟨0, 0, 0, 0⟩, needsUpdate := false } }

/-- What a window keeps when it is moved. -/
theorem GUIWindow.field_of_still {β : Type} {gw gw' : GUIWindow} (g : GUIWindow → β)
    (hg : ∀ gw, g gw.still = g gw) (h : gw.still = gw'.still) : g gw = g gw' := by
  rw [← hg gw, h, hg]

/-- The windows of `S` have been moved. -/
structure Shifted (S : Set Gid) (dx dy : Int32) (win win' : Windows) : Prop where
  inside : ∀ u ∈ S, win' u = (win u).move dx dy
  outside : ∀ u, u ∉ S → win' u = win u

section

variable {win win' win'' : Windows} {lists : Gid → List Gid} {S T : Set Gid} {dx dy : Int32} {w c p u : Gid}

namespace Shifted

theorem refl (win : Windows) : Shifted ∅ dx dy win win where
  inside _ hu := absurd hu (Set.notMem_empty _)
  outside _ _ := rfl

theorem modify (win : Windows) (w : Gid) : Shifted {w} dx dy win (win.modify w (·.move dx dy)) where
  inside u hu := by
    rw [Set.mem_singleton_iff.mp hu, Windows.modify_self]
  outside u hu := Windows.modify_of_ne hu

/-- One set after another. -/
theorem union (h : Shifted S dx dy win win') (h' : Shifted T dx dy win' win'') (hST : Disjoint S T) :
    Shifted (S ∪ T) dx dy win win'' where
  inside u hu := by
    rcases hu with hu | hu
    · rw [h'.outside u (Set.disjoint_left.mp hST hu), h.inside u hu]
    · rw [h'.inside u hu, h.outside u (Set.disjoint_right.mp hST hu)]
  outside u hu := by
    rw [h'.outside u fun hT => hu (.inr hT), h.outside u fun hS => hu (.inl hS)]

theorem still (h : Shifted S dx dy win win') (u : Gid) : (win' u).still = (win u).still := by
  by_cases hu : u ∈ S
  · rw [h.inside u hu]
    rfl
  · rw [h.outside u hu]

end Shifted

theorem parent_of_still (h : ∀ u, (win' u).still = (win u).still) : win'.parent = win.parent :=
  funext fun u => GUIWindow.field_of_still (·.parent) (fun _ => rfl) (h u)

/-- The tree does not depend on where the windows are. -/
theorem Tree.congr (h : Tree win lists) (hstill : ∀ u, (win' u).still = (win u).still) : Tree win' lists := by
  have hparent := parent_of_still hstill
  have hkind (u : Gid) : (win' u).kind = (win u).kind :=
    GUIWindow.field_of_still (·.kind) (fun _ => rfl) (hstill u)
  refine ⟨?_, ?_, ?_, ?_⟩
  · rw [hparent]
    apply h.listed.congr
    intro u
    exact ⟨GUIWindow.field_of_still (·.next) (fun _ => rfl) (hstill u),
      GUIWindow.field_of_still (·.prev) (fun _ => rfl) (hstill u)⟩
  · intro f hf
    rw [hkind] at hf
    rw [← h.children f hf]
    exact GUIWindow.field_of_still GUIWindow.children (fun _ => rfl) (hstill f)
  · intro u f hu
    rw [hkind]
    exact h.frame u f ((congrFun hparent u).symm.trans hu)
  · rw [hparent]
    exact h.grounded

/-! ## `move` -/

theorem subtree_eq : win.subtree w = {w} ∪ { u | ∃ c ∈ { c | win.parent c = some w }, u ∈ win.subtree c } := by
  ext u
  constructor
  · intro hu
    rcases hu.eq_or_child with rfl | ⟨c, hc, hcu⟩
    · exact .inl rfl
    · exact .inr ⟨c, hc, hcu⟩
  · rintro (rfl | ⟨c, hc, hcu⟩)
    · exact .refl _ _
    · exact (Under.of_parent hc).trans hcu

/-- A loop over some of the children, each of which can be moved. -/
theorem eachFrom_shifted {act : Gid → Windows → Option Windows} (h : Tree win lists)
    (hact : ∀ c win₁, win.parent c = some w → (∀ u, (win₁ u).still = (win u).still) →
      ∃ win₂, act c win₁ = some win₂ ∧ Shifted (win.subtree c) dx dy win₁ win₂)
    {n : Nat} {head : Option Gid} {rest : List Gid} {win₁ : Windows} (hrest : Chain win.next head rest)
    (hkids : ∀ c ∈ rest, win.parent c = some w) (hn : rest.length ≤ n)
    (hstill : ∀ u, (win₁ u).still = (win u).still) :
    ∃ win', eachFrom act n head win₁ = some win' ∧
      Shifted { u | ∃ c ∈ rest, u ∈ win.subtree c } dx dy win₁ win' := by
  induction rest generalizing n head win₁ with
  | nil =>
    cases hrest
    have hnone : { u | ∃ c ∈ ([] : List Gid), u ∈ win.subtree c } = ∅ := by
      apply Set.eq_empty_of_forall_notMem
      rintro u ⟨c, hc, -⟩
      exact absurd hc List.not_mem_nil
    refine ⟨win₁, ?_, hnone ▸ Shifted.refl win₁⟩
    cases n <;> rfl
  | cons c rest ih =>
    obtain ⟨n, rfl⟩ := Nat.exists_eq_add_of_le' (Nat.le_trans (Nat.le_add_left 1 rest.length) hn)
    rw [List.forall_mem_cons] at hkids
    obtain ⟨win₂, hrun, hshifted⟩ := hact c win₁ hkids.1 hstill
    have hstill₂ : ∀ u, (win₂ u).still = (win u).still := fun u => (hshifted.still u).trans (hstill u)
    have hnext : (win₂ c).next = win.next c := GUIWindow.field_of_still (·.next) (fun _ => rfl) (hstill₂ c)
    have hchain := hrest.2
    rw [← hnext] at hchain
    obtain ⟨win', hgo, hshifted'⟩ := ih hchain hkids.2 (Nat.le_of_succ_le_succ hn) hstill₂
    have hdisjoint : Disjoint (win.subtree c) { u | ∃ c ∈ rest, u ∈ win.subtree c } := by
      rw [Set.disjoint_left]
      rintro u hu ⟨d, hd, hdu⟩
      obtain rfl := h.grounded.siblings hkids.1 (hkids.2 d hd) hu hdu
      exact hrest.head_not_mem_tail rfl hd
    have hunion : win.subtree c ∪ { u | ∃ c ∈ rest, u ∈ win.subtree c } =
        { u | ∃ d ∈ c :: rest, u ∈ win.subtree d } := by
      ext u
      show _ ↔ ∃ d ∈ c :: rest, u ∈ win.subtree d
      rw [List.exists_mem_cons_iff]
      rfl
    refine ⟨win', ?_, hunion ▸ hshifted.union hshifted' hdisjoint⟩
    obtain rfl := hrest.1
    rw [eachFrom, hrun]
    exact hgo

/-- **The recursion of `move`**: it ends, since the windows have no more than 256 ancestors, and comes to each
window of the subtree once. -/
theorem visit_shifted (h : Tree win lists) {l : List Gid} (levels : Nat) (hl : Chain win.parent (some w) l)
    (hlen : 256 < l.length + levels) :
    ∃ win', visit (·.move dx dy) levels w win = some win' ∧ Shifted (win.subtree w) dx dy win win' := by
  induction levels generalizing w win l with
  | zero =>
    have hcard := hl.nodup.length_le_card
    rw [Fintype.card_fin] at hcard
    omega
  | succ levels ih =>
    have hmodify : Shifted {w} dx dy win (win.modify w (·.move dx dy)) := .modify win w
    have hkids : { u | ∃ c ∈ lists w, u ∈ win.subtree c } =
        { u | ∃ c ∈ { c | win.parent c = some w }, u ∈ win.subtree c } := by
      ext u
      exact exists_congr fun c => and_congr_left fun _ => h.listed.mem_iff w c
    rw [visit, subtree_eq, ← hkids]
    simp only [Windows.modify_self, GUIWindow.kind_move, GUIWindow.children_move]
    by_cases hframe : (win w).kind = .frame
    · have hact : ∀ c win₁, win.parent c = some w → (∀ u, (win₁ u).still = (win u).still) →
          ∃ win₂, visit (·.move dx dy) levels c win₁ = some win₂ ∧ Shifted (win.subtree c) dx dy win₁ win₂ := by
        intro c win₁ hc hstill
        have hparent := parent_of_still hstill
        have hchain : Chain win₁.parent (some c) (c :: l) := by
          rw [hparent]
          refine ⟨rfl, ?_⟩
          rwa [hc]
        obtain ⟨win₂, hrun, hshifted⟩ := ih (h.congr hstill) hchain (by rw [List.length_cons]; omega)
        rw [Windows.subtree, hparent] at hshifted
        exact ⟨win₂, hrun, hshifted⟩
      have hlist := h.listed.linked w
      have hlength := hlist.nodup.length_le_card
      rw [Fintype.card_fin] at hlength
      obtain ⟨win', hrun, hshifted⟩ := eachFrom_shifted h hact hlist.chain
        (fun c hc => (h.listed.mem_iff w c).mp hc) hlength hmodify.still
      refine ⟨win', ?_, hmodify.union hshifted ?_⟩
      · rw [if_pos hframe, h.children w hframe]
        exact hrun
      · -- a window is not below its own children
        rw [Set.disjoint_singleton_left]
        rintro ⟨c, hc, hcw⟩
        exact h.grounded.not_under ((h.listed.mem_iff w c).mp hc) hcw
    · -- a window that is not a frame has no children
      have hnone : { u | ∃ c ∈ lists w, u ∈ win.subtree c } = ∅ := by
        apply Set.eq_empty_of_forall_notMem
        rintro u ⟨c, hc, -⟩
        exact hframe (h.frame c w ((h.listed.mem_iff w c).mp hc))
      rw [hnone, Set.union_empty]
      exact ⟨_, if_neg hframe, hmodify⟩

/-- **`move`** moves the subtree of a window, and nothing else. -/
theorem move_spec (h : Tree win lists) (w : Gid) (dx dy : Int32) :
    ∃ win', move dx dy w win = some win' ∧ Shifted (win.subtree w) dx dy win win' := by
  obtain ⟨l, hl⟩ := h.grounded w
  obtain ⟨l', rfl⟩ := hl.exists_cons
  apply visit_shifted h 256 hl
  rw [List.length_cons]
  omega

/-! ## `addChild` and `removeChild` -/

/-- The windows have been linked anew, and a head and a parent have been stored. -/
theorem Tree.relink {win₁ : Windows} {lists' : Gid → List Gid} {v : Option Gid} (h : Tree win lists)
    (hcore : ∀ u, (win₁ u).core = (win u).core)
    (hlisted : Listed win₁.next win₁.prev (Function.update win.parent w v) lists')
    (hlists : ∀ f, f ≠ p → lists' f = lists f) (hframe : ∀ f, v = some f → (win f).kind = .frame)
    (hroot : ∀ f, v = some f → ¬ Under win.parent w f) :
    Tree (Gui.relink p w (lists' p).head? v win₁) lists' ∧
      (Gui.relink p w (lists' p).head? v win₁).parent = Function.update win.parent w v ∧
      ∀ u, (Gui.relink p w (lists' p).head? v win₁ u).windata.rect = (win u).windata.rect := by
  have hkind (u : Gid) : (Gui.relink p w (lists' p).head? v win₁ u).kind = (win u).kind := by
    rw [relink_field (·.kind) (fun _ _ => rfl) (fun _ _ => rfl)]
    exact GUIWindow.field_of_core (·.kind) (fun _ => rfl) (hcore u)
  have hparent : (Gui.relink p w (lists' p).head? v win₁).parent = Function.update win.parent w v := by
    funext u
    -- only the parent of `w` has been stored
    by_cases huw : u = w
    · rw [huw, Function.update_self, Windows.parent, Gui.relink, Windows.modify_self]
      rfl
    · rw [Function.update_of_ne huw, Windows.parent, Gui.relink, Windows.modify_of_ne huw,
        Windows.modify_field (·.setChildren _) (·.parent) fun _ => rfl]
      exact GUIWindow.field_of_core (·.parent) (fun _ => rfl) (hcore u)
  refine ⟨⟨?_, ?_, ?_, ?_⟩, hparent, ?_⟩
  · rw [hparent]
    apply hlisted.congr
    intro u
    exact ⟨relink_field (·.next) (fun _ _ => rfl) (fun _ _ => rfl) u,
      relink_field (·.prev) (fun _ _ => rfl) (fun _ _ => rfl) u⟩
  · intro f hf
    rw [hkind] at hf
    rw [Gui.relink, Windows.modify_field (·.setParent v) GUIWindow.children fun _ => rfl]
    by_cases hfp : f = p
    · rw [hfp, Windows.modify_self, GUIWindow.children_setChildren]
    · rw [Windows.modify_of_ne hfp, hlists f hfp, ← h.children f hf]
      exact GUIWindow.field_of_core GUIWindow.children (fun _ => rfl) (hcore f)
  · intro u f hu
    rw [hkind]
    have hu' := (congrFun hparent u).symm.trans hu
    by_cases huw : u = w
    · rw [huw, Function.update_self] at hu'
      exact hframe f hu'
    · rw [Function.update_of_ne huw] at hu'
      exact h.frame u f hu'
  · rw [hparent]
    exact h.grounded.update hroot
  · intro u
    rw [relink_field (·.windata.rect) (fun _ _ => rfl) (fun _ _ => rfl)]
    exact GUIWindow.field_of_core (·.windata.rect) (fun _ => rfl) (hcore u)

/-- What a call does: the rectangles of `S` are moved, and the parents are these. -/
structure Displaced (S : Set Gid) (dx dy : Int32) (parent : Gid → Option Gid) (win win' : Windows) : Prop where
  tree : ∃ lists, Tree win' lists
  parent_eq : win'.parent = parent
  inside : ∀ u ∈ S, (win' u).windata.rect = (win u).windata.rect.shift dx dy
  outside : ∀ u, u ∉ S → (win' u).windata.rect = (win u).windata.rect

theorem Shifted.displaced (h : Shifted S dx dy win win') (htree : Tree win lists) :
    Displaced S dx dy win.parent win win' where
  tree := ⟨lists, htree.congr h.still⟩
  parent_eq := parent_of_still h.still
  inside u hu := by
    rw [h.inside u hu]
    rfl
  outside u hu := by rw [h.outside u hu]

/-- A window is linked anew, and then moved with its subtree. -/
theorem Tree.relink_move {win₁ : Windows} {lists' : Gid → List Gid} {v : Option Gid} (h : Tree win lists)
    (hcore : ∀ u, (win₁ u).core = (win u).core)
    (hlisted : Listed win₁.next win₁.prev (Function.update win.parent w v) lists')
    (hlists : ∀ f, f ≠ p → lists' f = lists f) (hframe : ∀ f, v = some f → (win f).kind = .frame)
    (hroot : ∀ f, v = some f → ¬ Under win.parent w f) (dx dy : Int32) :
    ∃ win', Gui.move dx dy w (Gui.relink p w (lists' p).head? v win₁) = some win' ∧
      Displaced (win.subtree w) dx dy (Function.update win.parent w v) win win' := by
  obtain ⟨htree, hparent, hrect⟩ := h.relink (p := p) hcore hlisted hlists hframe hroot
  obtain ⟨win', hrun, hshifted⟩ := move_spec htree w dx dy
  have hsubtree : (Gui.relink p w (lists' p).head? v win₁).subtree w = win.subtree w := by
    ext u
    show Under _ w u ↔ _
    rw [hparent]
    exact Under.update_self_iff
  rw [hsubtree] at hshifted
  have hdisplaced := hshifted.displaced htree
  refine ⟨win', hrun, hdisplaced.tree, hdisplaced.parent_eq.trans hparent, ?_, ?_⟩
  · intro u hu
    rw [hdisplaced.inside u hu, hrect]
  · intro u hu
    rw [hdisplaced.outside u hu, hrect]

/-- **`addChild`** moves a window and all below it by the corner of its new frame. -/
theorem addChild_displaced (h : Tree win lists) (hframe : (win p).kind = .frame)
    (hw : (win w).parent = none) (hp : p ∉ win.subtree w) :
    ∃ win', addChild p w win = some win' ∧
      Displaced (win.subtree w) (win p).windata.rect.l (win p).windata.rect.t
        (Function.update win.parent w (some p)) win win' := by
  have hpw : p ≠ w := by
    rintro rfl
    exact hp (.refl _ _)
  have hout : w ∉ lists p := by
    rw [h.listed.mem_iff, Windows.parent, hw]
    exact (Option.some_ne_none p).symm
  obtain ⟨l₁, l₂, hsplit, htop, hattached, -, -⟩ := insert_attached (h.listed.linked p) hout
  have hlisted := h.listed.attach hw hsplit hattached.next_self hattached.prev_self hattached.next hattached.prev
  have hhead : (insert (lists p).head? w win).1 = (Function.update lists p (l₁ ++ w :: l₂) p).head? := by
    rw [Function.update_self]
    exact htop
  have hrect : (relink p w (insert (lists p).head? w win).1 (some p)
      (insert (lists p).head? w win).2 p).windata.rect = (win p).windata.rect := by
    rw [relink_field (·.windata.rect) (fun _ _ => rfl) (fun _ _ => rfl)]
    exact GUIWindow.field_of_core (·.windata.rect) (fun _ => rfl) (hattached.core p)
  rw [addChild_eq hpw (h.children p hframe)]
  simp only [hrect]
  rw [hhead]
  apply h.relink_move hattached.core hlisted (fun f hf => Function.update_of_ne hf _ _)
  · intro f hf
    cases hf
    exact hframe
  · intro f hf
    cases hf
    exact hp

/-- **`removeChild`** moves a window and all below it back, by the corner that the frame has now. -/
theorem removeChild_displaced (h : Tree win lists) (hw : (win w).parent = some p) :
    ∃ win', removeChild p w win = some win' ∧
      Displaced (win.subtree w) (-(win p).windata.rect.l) (-(win p).windata.rect.t)
        (Function.update win.parent w none) win win' := by
  obtain ⟨l₁, l₂, hsplit⟩ := List.append_of_mem ((h.listed.mem_iff p w).mpr hw)
  have hlinked := h.listed.linked p
  rw [hsplit] at hlinked
  have hdetached : Detached win (detach (lists p).head? w win).2 w := detach_detached hlinked
  have hlisted := h.listed.detach hsplit (fun u hu => (hdetached.next u).trans (if_neg hu))
    (fun u hu => (hdetached.prev u).trans (if_neg hu))
  have hhead : (detach (lists p).head? w win).1 = (Function.update lists p (l₁ ++ l₂) p).head? := by
    rw [Function.update_self, hsplit]
    exact detach_top hlinked
  have hrect : (relink p w (detach (lists p).head? w win).1 none
      (detach (lists p).head? w win).2 p).windata.rect = (win p).windata.rect := by
    rw [relink_field (·.windata.rect) (fun _ _ => rfl) (fun _ _ => rfl)]
    exact GUIWindow.field_of_core (·.windata.rect) (fun _ => rfl) (hdetached.core p)
  rw [removeChild_eq hw (h.children p (h.frame w p hw))]
  simp only [hrect]
  rw [hhead]
  apply h.relink_move hdetached.core hlisted (fun f hf => Function.update_of_ne hf _ _)
  · intro f hf
    cases hf
  · intro f hf
    cases hf

/-! ## Calls outside of a subtree -/

variable {op : TreeOp} {parent' : Gid → Option Gid} {win₀ : Windows}

/-- **Each call** moves one subtree that is not within that of `c`, and leaves what is below `c` there. -/
theorem perform_spec (h : Tree win lists) (hc : win.parent c = some p) (hop : op.Outside c win) :
    ∃ win' w dx dy parent', op.perform win = some win' ∧ Displaced (win.subtree w) dx dy parent' win win' ∧
      w ∉ win.subtree c ∧ parent' c = win.parent c ∧ ∀ u, Under parent' c u ↔ Under win.parent c u := by
  have hne {w : Gid} (hw : w ∉ win.subtree c) : c ≠ w := by
    rintro rfl
    exact hw (.refl _ _)
  cases op with
  | move w dx dy =>
    obtain ⟨win', hrun, hshifted⟩ := move_spec h w dx dy
    exact ⟨win', w, dx, dy, _, hrun, hshifted.displaced h, hop, rfl, fun _ => Iff.rfl⟩
  | addChild f w =>
    obtain ⟨hframe, hf, hw, hfw⟩ := hop
    -- `c` and the windows below it have parents
    have hout : w ∉ win.subtree c := by
      intro hmem
      rcases Under.eq_or_parent hmem with rfl | ⟨q, hq, -⟩
      · cases hw.symm.trans hc
      · cases hw.symm.trans hq
    obtain ⟨win', hrun, hdisplaced⟩ := addChild_displaced h hframe hw hfw
    refine ⟨win', w, _, _, _, hrun, hdisplaced, hout, Function.update_of_ne (hne hout) _ _, ?_⟩
    intro u
    apply Under.update_iff hout
    intro q hq
    cases hq
    exact hf
  | removeChild f w =>
    obtain ⟨hframe, hf, hout⟩ := hop
    by_cases hw : (win w).parent = some f
    · obtain ⟨win', hrun, hdisplaced⟩ := removeChild_displaced h hw
      refine ⟨win', w, _, _, _, hrun, hdisplaced, hout, Function.update_of_ne (hne hout) _ _, ?_⟩
      intro u
      apply Under.update_iff hout
      intro q hq
      cases hq
    · -- it is not a child of this frame, and nothing is done
      have hrun : TreeOp.perform win (.removeChild f w) = some win := if_pos hw
      refine ⟨win, w, 0, 0, _, hrun, ⟨⟨lists, h⟩, rfl, ?_, fun _ _ => rfl⟩, hout, rfl, fun _ => Iff.rfl⟩
      intro u _
      rw [Rect.shift_zero]

/-- `c` has been put into `p`, and is with its subtree where it has been in `win₀`, seen from `p`. -/
structure Carried (win₀ : Windows) (c p : Gid) (win : Windows) : Prop where
  tree : ∃ lists, Tree win lists
  parent : win.parent c = some p
  subtree : ∀ u, Under win.parent c u ↔ Under win₀.parent c u
  rect : ∀ u ∈ win₀.subtree c,
    (win u).windata.rect = (win₀ u).windata.rect.shift (win p).windata.rect.l (win p).windata.rect.t

/-- It is there when it is put in. -/
theorem carried_start (h : Tree win lists) (hframe : (win p).kind = .frame) (hc : (win c).parent = none)
    (hp : p ∉ win.subtree c) : ∃ win', addChild p c win = some win' ∧ Carried win c p win' := by
  obtain ⟨win', hrun, hdisplaced⟩ := addChild_displaced h hframe hc hp
  refine ⟨win', hrun, hdisplaced.tree, ?_, ?_, ?_⟩
  · rw [hdisplaced.parent_eq, Function.update_self]
  · intro u
    rw [hdisplaced.parent_eq]
    exact Under.update_self_iff
  · intro u hu
    rw [hdisplaced.inside u hu, hdisplaced.outside p hp]

/-- **It stays there**, since a call moves `p` and all of the subtree, or nothing of both. -/
theorem carried_step (h : Carried win₀ c p win) (hop : op.Outside c win) :
    ∃ win', op.perform win = some win' ∧ Carried win₀ c p win' := by
  obtain ⟨lists, htree⟩ := h.tree
  obtain ⟨win', w, dx, dy, parent', hrun, hdisplaced, hout, hparent, hsubtree⟩ := perform_spec htree h.parent hop
  refine ⟨win', hrun, hdisplaced.tree, ?_, ?_, ?_⟩
  · rw [hdisplaced.parent_eq, hparent]
    exact h.parent
  · intro u
    rw [hdisplaced.parent_eq, hsubtree]
    exact h.subtree u
  · intro u hu
    have hcu : Under win.parent c u := (h.subtree u).mpr hu
    by_cases hcw : c ∈ win.subtree w
    · have hpw : p ∈ win.subtree w := by
        rcases Under.eq_or_parent hcw with rfl | ⟨q, hq, hwq⟩
        · exact absurd (Under.refl _ _) hout
        · cases h.parent.symm.trans hq
          exact hwq
      rw [hdisplaced.inside u (Under.trans hcw hcu), hdisplaced.inside p hpw, h.rect u hu, Rect.shift_shift]
      rfl
    · have huw : u ∉ win.subtree w := by
        intro hwu
        rcases Under.total hwu hcu with hwc | hcw'
        · exact hcw hwc
        · exact hout hcw'
      have hpw : p ∉ win.subtree w := fun hwp => hcw (Under.trans hwp (.of_parent h.parent))
      rw [hdisplaced.outside u huw, hdisplaced.outside p hpw]
      exact h.rect u hu

/-- It is taken out of the frame, wherever that is. -/
theorem carried_end (h : Carried win₀ c p win) :
    ∃ win', removeChild p c win = some win' ∧
      ∀ u ∈ win₀.subtree c, (win' u).windata.rect = (win₀ u).windata.rect := by
  obtain ⟨lists, htree⟩ := h.tree
  obtain ⟨win', hrun, hdisplaced⟩ := removeChild_displaced htree h.parent
  refine ⟨win', hrun, ?_⟩
  intro u hu
  rw [hdisplaced.inside u ((h.subtree u).mpr hu), h.rect u hu, Rect.shift_neg]

end

/-- **Frames carry their children.** While `c` is in `p`, any calls outside of its subtree leave each window of
the subtree where it has been before, seen from the corner of `p`; taking `c` out brings them back, and at any
time `move` moves nothing but a subtree. -/
theorem frames_carry (win : Windows) (lists : Gid → List Gid) (h : Tree win lists) (p c : Gid)
    (hframe : (win p).kind = .frame) (hc : (win c).parent = none) (hp : p ∉ win.subtree c) :
    ∃ win₁, addChild p c win = some win₁ ∧
      ∀ ops, treeMachine.Steps (fun win op => op.Outside c win) win₁ ops →
        ∃ win₂, treeMachine.exec win₁ ops = some win₂ ∧
          (∀ u ∈ win.subtree c,
            (win₂ u).windata.rect.relativeTo (win₂ p).windata.rect.l (win₂ p).windata.rect.t =
              (win u).windata.rect.relativeTo 0 0) ∧
          (∃ win₃, removeChild p c win₂ = some win₃ ∧
            ∀ u ∈ win.subtree c, (win₃ u).windata.rect = (win u).windata.rect) ∧
          ∀ w dx dy, ∃ win₃, move dx dy w win₂ = some win₃ ∧
            ∀ u, u ∉ win₂.subtree w → (win₃ u).windata.rect = (win₂ u).windata.rect := by
  obtain ⟨win₁, hrun₁, hstart⟩ := carried_start h hframe hc hp
  refine ⟨win₁, hrun₁, ?_⟩
  intro ops hops
  obtain ⟨win₂, hrun₂, hcarried⟩ := Machine.exec_of_steps (fun _ _ => carried_step) hstart hops
  refine ⟨win₂, hrun₂, ?_, carried_end hcarried, ?_⟩
  · intro u hu
    rw [hcarried.rect u hu, Rect.relativeTo_shift, Rect.relativeTo_zero]
  · intro w dx dy
    obtain ⟨lists₂, htree⟩ := hcarried.tree
    obtain ⟨win₃, hrun₃, hshifted⟩ := move_spec htree w dx dy
    refine ⟨win₃, hrun₃, ?_⟩
    intro u hu
    rw [hshifted.outside u hu]

section

attribute [local instance] gid_neZero

/-- Two frames with a window in each. -/
def twoFrames : Windows := fun w =>
  match w.val with
  | 1 => ⟨.frame, ⟨.windowFrame, ⟨10, 20, 50, 60⟩, .window 4, 0, 1, -1, false⟩, 0, none, none, none, none⟩
  | 2 => ⟨.frame, ⟨.windowFrame, ⟨100, 100, 140, 160⟩, .window 3, 0, 2, -1, false⟩, 0, none, none, none, none⟩
  | 3 => ⟨.window, ⟨.window, ⟨105, 110, 120, 130⟩, .bits 0, 0, 3, 2, false⟩, 0, none, none, some 2, none⟩
  | 4 => ⟨.window, ⟨.window, ⟨12, 25, 20, 30⟩, .bits 0, 0, 4, 1, false⟩, 0, none, none, some 1, none⟩
  | _ => ⟨.window, ⟨.window, ⟨1, 2, 3, 4⟩, .bits 0, 0, 5, -1, false⟩, 0, none, none, none, none⟩

/-- What is in a frame. -/
def framed (f : Gid) : List Gid := if f = 1 then [4] else if f = 2 then [3] else []

end

theorem twoFrames_parent : ∀ w, twoFrames.parent w = if w = 4 then some 1 else if w = 3 then some 2 else none := by
  decide +kernel

theorem twoFrames_loose : ∀ w, twoFrames.next w = none ∧ twoFrames.prev w = none := by decide +kernel

theorem twoFrames_tree : Tree twoFrames framed where
  listed := by
    refine ⟨?_, ?_⟩
    · intro f
      rw [framed]
      split
      · exact ⟨(twoFrames_loose 4).2, (twoFrames_loose 4).1, trivial⟩
      · split
        · exact ⟨(twoFrames_loose 3).2, (twoFrames_loose 3).1, trivial⟩
        · trivial
    · intro f w
      rw [twoFrames_parent, framed]
      -- the two children, and then the windows that are in no frame
      by_cases h4 : w = 4
      · subst h4
        by_cases h1 : f = 1
        · simp [h1]
        · by_cases h2 : f = 2
          · subst h2
            decide
          · simp [h1, h2, eq_comm]
      · by_cases h3 : w = 3
        · subst h3
          by_cases h1 : f = 1
          · subst h1
            decide
          · by_cases h2 : f = 2 <;> simp [h1, h2, eq_comm]
        · rw [if_neg h4, if_neg h3]
          split
          · simp [h4]
          · split <;> simp [h3]
  children := by decide +kernel
  frame := by
    intro w f hw
    have hw' : twoFrames.parent w = some f := hw
    rw [twoFrames_parent] at hw'
    split at hw'
    · cases hw'
      rfl
    · split at hw'
      · cases hw'
        rfl
      · cases hw'
  grounded := by
    intro w
    have hroot : ∀ v, twoFrames.parent v = none → Chain twoFrames.parent (some v) [v] := fun v hv => ⟨rfl, hv⟩
    by_cases hw : twoFrames.parent w = none
    · exact ⟨[w], hroot w hw⟩
    · have hframe : ∀ w, twoFrames.parent w ≠ none → ∃ f, twoFrames.parent w = some f ∧
          twoFrames.parent f = none := by decide +kernel
      obtain ⟨f, hf, hnone⟩ := hframe w hw
      exact ⟨[w, f], rfl, by rw [hf]; exact hroot f hnone⟩

/-- A frame with a window is put into another one, with a window too. -/
theorem frames_carry_twoFrames : 3 ∈ twoFrames.subtree 2 ∧
    ∃ win₁, addChild 1 2 twoFrames = some win₁ ∧
      ∀ ops, treeMachine.Steps (fun win op => op.Outside 2 win) win₁ ops →
        ∃ win₂, treeMachine.exec win₁ ops = some win₂ ∧
          (∀ u ∈ twoFrames.subtree 2,
            (win₂ u).windata.rect.relativeTo (win₂ 1).windata.rect.l (win₂ 1).windata.rect.t =
              (twoFrames u).windata.rect.relativeTo 0 0) ∧
          (∃ win₃, removeChild 1 2 win₂ = some win₃ ∧
            ∀ u ∈ twoFrames.subtree 2, (win₃ u).windata.rect = (twoFrames u).windata.rect) ∧
          ∀ w dx dy, ∃ win₃, move dx dy w win₂ = some win₃ ∧
            ∀ u, u ∉ win₂.subtree w → (win₃ u).windata.rect = (win₂ u).windata.rect := by
  refine ⟨Relation.ReflTransGen.single ((twoFrames_parent 3).trans (by decide)), ?_⟩
  apply frames_carry twoFrames framed twoFrames_tree 1 2 rfl rfl
  intro hmem
  rcases Under.eq_or_parent hmem with heq | ⟨q, hq, -⟩
  · exact absurd heq (by decide)
  · rw [twoFrames_parent] at hq
    exact absurd hq (by simp)

end Shipwreck.Gui
