import Shipwreck.Gui.Update

/-!
# The second loop of `gui_update_proc`, and clicks

`update_root` changes no list, and it ends since the windows have no more than 256 ancestors. A window
is pushed if it has no `next`: these are the new top-level windows, since below every other one there
is the desktop. A click takes a top-level window out of `winstack` and pushes it.
-/

namespace Shipwreck.Gui

/-! ## `update_root` -/

namespace GUIWindow

variable {gw : GUIWindow} {root : Option Gid}

@[simp] theorem kind_updateRoot : (gw.updateRoot root).kind = gw.kind := rfl
@[simp] theorem children_updateRoot : (gw.updateRoot root).children = gw.children := rfl

end GUIWindow

/-- Some windows have been told that `root` is their top-level window. -/
def Rerooted (root : Option Gid) (win win' : Windows) : Prop :=
  ∀ u, win' u = win u ∨ win' u = (win u).updateRoot root

namespace Rerooted

variable {root : Option Gid} {win win' win'' : Windows} {place : Gid → Option Place}
variable {lists : Place → List Gid} {loose : Gid → Prop}

theorem refl (root : Option Gid) (win : Windows) : Rerooted root win win := fun _ => .inl rfl

theorem trans (h : Rerooted root win win') (h' : Rerooted root win' win'') :
    Rerooted root win win'' := by
  intro u
  rcases h' u with hsame | hset
  · rw [hsame]
    exact h u
  · rcases h u with hsame' | hset'
    · rw [hset, hsame']
      exact .inr rfl
    · rw [hset, hset']
      exact .inr rfl

/-- A field that `update_root` does not touch. -/
theorem field {β : Type} (g : GUIWindow → β) (hg : ∀ gw, g (GUIWindow.updateRoot gw root) = g gw)
    (h : Rerooted root win win') (u : Gid) : g (win' u) = g (win u) := by
  rcases h u with hsame | hset
  · rw [hsame]
  · rw [hset, hg]

theorem modify (root : Option Gid) (win : Windows) (w : Gid) :
    Rerooted root win (win.modify w (·.updateRoot root)) := by
  intro u
  by_cases hu : u = w
  · rw [hu, Windows.modify_self]
    exact .inr rfl
  · rw [Windows.modify_of_ne hu]
    exact .inl rfl

/-- The forest does not depend on the top-level windows. -/
theorem planted (h : Rerooted root win win') (hp : Planted loose win place lists) :
    Planted loose win' place lists := by
  have hparent := h.field (·.parent) fun _ => rfl
  have hclass := h.field (·.windata.winclass) fun _ => rfl
  have hid := h.field (·.windata.parentId) fun _ => rfl
  refine ⟨?_, ?_, ?_, ?_, ?_, ?_, ?_, ?_, ?_, hp.last⟩
  · apply hp.shape.congr
    · exact fun u => ⟨h.field (·.next) (fun _ => rfl) u, h.field (·.prev) (fun _ => rfl) u⟩
    · exact fun u => ⟨h.field GUIWindow.children (fun _ => rfl) u,
        h.field (·.kind) (fun _ => rfl) u, hclass u⟩
  · intro w
    rw [hclass, hparent]
    exact hp.dead w
  · intro w
    rw [hclass]
    exact hp.valid w
  · intro w p
    rw [hparent]
    exact hp.child w p
  · intro w
    rw [hclass, hparent]
    exact hp.root w
  · intro w p
    rw [hparent, hclass, hid]
    exact hp.frame w p
  · intro w
    rw [hclass, hparent, hid]
    exact hp.parentId w
  · intro w
    obtain ⟨l, hl⟩ := hp.acyclic w
    exact ⟨l, hl.congr fun u _ => hparent u⟩
  · rw [hclass]
    exact hp.desktop

end Rerooted

section

variable {root : Option Gid} {win win' : Windows} {place : Gid → Option Place}
variable {lists : Place → List Gid} {loose : Gid → Prop} {w p : Gid}

/-- A loop over the children of a frame, each of which can be visited. -/
theorem eachFrom_rerooted {act : Gid → Windows → Option Windows}
    (hact : ∀ c win₁, c ∈ lists (.kids p) → Rerooted root win win₁ →
      ∃ win₂, act c win₁ = some win₂ ∧ Rerooted root win₁ win₂)
    (hp : Planted loose win place lists) (n : Nat) {head : Option Gid}
    (hhead : ∀ c, head = some c → c ∈ lists (.kids p)) {win₁ : Windows}
    (hwin₁ : Rerooted root win win₁) :
    ∃ win', eachFrom act n head win₁ = some win' ∧ Rerooted root win₁ win' := by
  induction n generalizing head win₁ with
  | zero =>
    cases head with
    | none => exact ⟨win₁, rfl, .refl root win₁⟩
    | some c => exact ⟨win₁, rfl, .refl root win₁⟩
  | succ n ih =>
    cases head with
    | none => exact ⟨win₁, rfl, .refl root win₁⟩
    | some c =>
      have hc := hhead c rfl
      obtain ⟨win₂, hrun, hwin₂⟩ := hact c win₁ hc hwin₁
      have hnext : (win₂ c).next = win.next c :=
        (hwin₁.trans hwin₂).field (·.next) (fun _ => rfl) c
      obtain ⟨win', hrest, hwin'⟩ := ih
        (fun d hd => (hp.shape.threaded.linked (.kids p)).mem_of_next hc (hnext ▸ hd))
        (hwin₁.trans hwin₂)
      refine ⟨win', ?_, hwin₂.trans hwin'⟩
      rw [eachFrom, hrun]
      exact hrest

/-- The recursion of `update_root` ends: a window has at most 256 ancestors. -/
theorem visit_rerooted (hp : Planted loose win place lists) {l : List Gid} (levels : Nat)
    (hl : Chain win.parent (some w) l) (hlen : 256 < l.length + levels) :
    ∃ win', visit (·.updateRoot root) levels w win = some win' ∧ Rerooted root win win' ∧
      (win' w).wmRoot = root ∧ ((win w).kind ≠ .frame → ∀ u, u ≠ w → win' u = win u) := by
  induction levels generalizing w win l with
  | zero =>
    have hcard := hl.nodup.length_le_card
    rw [Fintype.card_fin] at hcard
    omega
  | succ levels ih =>
    have hmodify := Rerooted.modify root win w
    rw [visit]
    simp only [Windows.modify_self, GUIWindow.kind_updateRoot, GUIWindow.children_updateRoot]
    by_cases hframe : (win w).kind = .frame
    · have hkid : ∀ c win₁, c ∈ lists (.kids w) →
          Rerooted root (win.modify w (·.updateRoot root)) win₁ →
          ∃ win₂, visit (·.updateRoot root) levels c win₁ = some win₂ ∧
            Rerooted root win₁ win₂ := by
        intro c win₁ hc hwin₁
        have hplanted := (hmodify.trans hwin₁).planted hp
        have hparent : win₁.parent c = some w := hplanted.mem_kids_iff.mp hc
        have hchain : Chain win₁.parent (some w) l :=
          hl.congr fun u _ => (hmodify.trans hwin₁).field (·.parent) (fun _ => rfl) u
        have hstep : Chain win₁.parent (some c) (c :: l) := ⟨rfl, by rw [hparent]; exact hchain⟩
        obtain ⟨win₂, hrun, hwin₂, -⟩ := ih hplanted hstep (by simp only [List.length_cons]; omega)
        exact ⟨win₂, hrun, hwin₂⟩
      obtain ⟨win', hrun, hwin'⟩ := eachFrom_rerooted hkid (hmodify.planted hp) 256
        (fun c hc => List.mem_of_head? hc) (.refl root _)
      refine ⟨win', ?_, hmodify.trans hwin', ?_, fun hkind => absurd hframe hkind⟩
      · rw [if_pos hframe, hp.shape.children w ((hp.shape.kind w).mp hframe)]
        exact hrun
      · rcases hwin' w with hsame | hset
        · rw [hsame, Windows.modify_self]
          rfl
        · rw [hset]
          rfl
    · refine ⟨_, if_neg hframe, hmodify, ?_, fun _ u hu => Windows.modify_of_ne hu⟩
      rw [Windows.modify_self]
      rfl

/-- **`update_root`** ends. -/
theorem updateRoot_spec (root : Option Gid) (w : Gid) (hp : Planted loose win place lists) :
    ∃ win', updateRoot root w win = some win' ∧ Rerooted root win win' ∧
      (win' w).wmRoot = root ∧ ((win w).kind ≠ .frame → ∀ u, u ≠ w → win' u = win u) := by
  obtain ⟨l, hl⟩ := hp.acyclic w
  obtain ⟨l', rfl⟩ := hl.exists_cons
  exact visit_rerooted hp 256 hl (by simp)

end

/-! ## `winstack` -/

namespace Planted

variable {win win' : Windows} {place : Gid → Option Place} {lists : Place → List Gid}
variable {loose loose' : Gid → Prop} {w r : Gid} {P : Option Place} {l : List Gid}

/-- Fewer windows are loose. -/
theorem mono (h : Planted loose win place lists)
    (hloose : ∀ u, loose u → (win u).windata.winclass ≠ .none → (win u).parent = none →
      place u = none → loose' u) :
    Planted loose' win place lists :=
  { h with
    root := by
      intro w hlive hparent
      rcases h.root w hlive hparent with hstack | ⟨hl, hnone⟩
      · exact .inl hstack
      · exact .inr ⟨hloose w hl hlive hparent hnone, hnone⟩ }

/-- Below a window of `winstack` there is always the desktop. -/
theorem next_ne_none (h : Planted loose win place lists) (hw : place w = some .stack)
    (hw0 : w ≠ desktopGid) : (win w).next ≠ none := by
  have hmem := (h.shape.threaded.mem_iff .stack w).mpr hw
  obtain ⟨l, hl⟩ := h.last
  rw [hl, List.mem_append, List.mem_singleton] at hmem
  obtain ⟨l₁, l₂, rfl⟩ := List.append_of_mem (hmem.resolve_right hw0)
  have hlinked := h.shape.threaded.linked .stack
  rw [hl, List.append_assoc, List.cons_append] at hlinked
  have hnext : (win w).next = (l₂ ++ [desktopGid]).head? := hlinked.at_append.2
  rw [hnext]
  simp

theorem place_zero (h : Planted loose win place lists) : place desktopGid = some .stack := by
  obtain ⟨l, hl⟩ := h.last
  rw [← h.shape.threaded.mem_iff, hl]
  exact List.mem_append_right l (List.mem_singleton_self desktopGid)

/-- The windows in `winstack` are top-level windows. -/
theorem root_of_stack (h : Planted loose win place lists) (hw : place w = some .stack) :
    (win w).windata.winclass ≠ .none ∧ (win w).parent = none := by
  rcases h.place_cases w with ⟨q, -, hkids⟩ | ⟨hroot, halive, -⟩ | ⟨-, hnone⟩
  · cases hkids.symm.trans hw
  · exact ⟨halive, hroot⟩
  · cases hnone.symm.trans hw

/-- The desktop stays at the bottom when another window is taken out. -/
theorem last_of_split {l₁ l₂ : List Gid} (h : Planted loose win place lists)
    (hsplit : lists .stack = l₁ ++ r :: l₂) (hr0 : r ≠ desktopGid) : ∃ l, l₁ ++ l₂ = l ++ [desktopGid] := by
  obtain ⟨l, hl⟩ := h.last
  rw [hsplit] at hl
  rcases List.eq_nil_or_concat l₂ with rfl | ⟨m, x, rfl⟩
  · exact absurd (List.append_inj' hl rfl).2 (by simpa using hr0)
  · rw [List.concat_eq_append] at hl ⊢
    rw [← List.cons_append, ← List.append_assoc] at hl
    rw [(List.append_inj' hl rfl).2]
    exact ⟨l₁ ++ m, (List.append_assoc ..).symm⟩

/-- A top-level window is put into `winstack` or taken out. -/
theorem restack (h : Planted loose win place lists) (hcore : ∀ u, (win' u).core = (win u).core)
    (hthreaded : Threaded win'.next win'.prev (Function.update place r P)
      (Function.update lists .stack l))
    (hlive : (win r).windata.winclass ≠ .none) (hparent : (win r).parent = none)
    (hr : P = some .stack ∨ loose' r ∧ P = none) (hloose : ∀ u, u ≠ r → loose u → loose' u)
    (hlast : ∃ l', l = l' ++ [desktopGid]) :
    Planted loose' win' (Function.update place r P) (Function.update lists .stack l) := by
  have hclass : ∀ u, (win' u).windata.winclass = (win u).windata.winclass := fun u =>
    GUIWindow.field_of_core (·.windata.winclass) (fun _ => rfl) (hcore u)
  have hpar : ∀ u, (win' u).parent = (win u).parent := fun u =>
    GUIWindow.field_of_core (·.parent) (fun _ => rfl) (hcore u)
  have hid : ∀ u, (win' u).windata.parentId = (win u).windata.parentId := fun u =>
    GUIWindow.field_of_core (·.windata.parentId) (fun _ => rfl) (hcore u)
  refine ⟨⟨hthreaded, ?_, ?_⟩, ?_, ?_, ?_, ?_, ?_, ?_, ?_, ?_, ?_⟩
  · intro f hf
    rw [hclass] at hf
    rw [Function.update_of_ne (by simp), ← h.shape.children f hf]
    exact GUIWindow.field_of_core GUIWindow.children (fun _ => rfl) (hcore f)
  · intro u
    rw [hclass, ← h.shape.kind,
      GUIWindow.field_of_core (·.kind) (fun _ => rfl) (hcore u)]
  · intro u hu
    rw [hclass] at hu
    have hur : u ≠ r := fun heq => hlive (heq ▸ hu)
    rw [hpar, Function.update_of_ne hur]
    exact h.dead u hu
  · intro u
    rw [hclass]
    exact h.valid u
  · intro u p hp
    rw [hpar] at hp
    have hur : u ≠ r := by
      rintro rfl
      rw [hparent] at hp
      cases hp
    rw [Function.update_of_ne hur]
    exact h.child u p hp
  · intro u hu hp
    rw [hclass] at hu
    rw [hpar] at hp
    by_cases hur : u = r
    · rw [hur, Function.update_self]
      exact hr
    · rw [Function.update_of_ne hur]
      -- the other top-level windows are in `winstack`, or loose as before
      rcases h.root u hu hp with hstack | ⟨hl, hnone⟩
      · exact .inl hstack
      · exact .inr ⟨hloose u hur hl, hnone⟩
  · intro u p
    rw [hpar, hclass, hid]
    exact h.frame u p
  · intro u
    rw [hclass, hpar, hid]
    exact h.parentId u
  · intro u
    -- the parents are the same, and so are the chains of them
    obtain ⟨l', hl'⟩ := h.acyclic u
    exact ⟨l', hl'.congr fun v _ => hpar v⟩
  · rw [hclass]
    exact h.desktop
  · rw [Function.update_self]
    exact hlast

end Planted

/-- The window manager between two calls, or within the second loop. -/
structure Grown (loose : Gid → Prop) (wm : WindowManager) (place : Gid → Option Place)
    (lists : Place → List Gid) : Prop where
  planted : Planted loose wm.winIndex place lists
  top : wm.winstack = (lists .stack).head?
  rooted : Rooted wm.winIndex place

/-- **A top-level window that is in no list is pushed.** -/
theorem Planted.push {win : Windows} {place : Gid → Option Place} {lists : Place → List Gid}
    {loose : Gid → Prop} {r : Gid} {top : Option Gid} (h : Planted loose win place lists)
    (htop : top = (lists .stack).head?) (hr : place r = none)
    (hlive : (win r).windata.winclass ≠ .none) (hparent : (win r).parent = none)
    (hrooted : ∀ w r', (win w).wmRoot = some r' →
      (place r' = some .stack ∨ r' = r) ∧ (r' = desktopGid → w = desktopGid)) :
    ∃ place' lists', Grown (fun u => loose u ∧ u ≠ r)
      ⟨(Gui.push top r win).1, (Gui.push top r win).2⟩ place' lists' := by
  subst htop
  have hout : r ∉ lists .stack := by
    rw [h.shape.threaded.mem_iff, hr]
    exact (Option.some_ne_none _).symm
  obtain ⟨htop, hattached⟩ := @push_attached win r (lists .stack) hout
  have hthreaded := h.shape.threaded.attach hr (List.nil_append (lists .stack)).symm
    hattached.next_self hattached.prev_self hattached.next hattached.prev
  refine ⟨Function.update place r (some .stack),
    Function.update lists .stack (r :: lists .stack), ?_, ?_, ?_⟩
  · apply h.restack hattached.core hthreaded hlive hparent (.inl rfl) fun u hu hl => ⟨hl, hu⟩
    obtain ⟨l, hl⟩ := h.last
    exact ⟨r :: l, by rw [hl]; rfl⟩
  · rw [Function.update_self]
    exact htop
  · intro w r' hr'
    have hsame : (win w).wmRoot = some r' :=
      (GUIWindow.field_of_core (·.wmRoot) (fun _ => rfl) (hattached.core w)).symm.trans hr'
    obtain ⟨hplace, hzero⟩ := hrooted w r' hsame
    refine ⟨?_, hzero⟩
    by_cases hne : r' = r
    · rw [hne, Function.update_self]
    · rw [Function.update_of_ne hne]
      exact hplace.resolve_right hne

/-- The windows that the second loop has still to look at. -/
def Pending (pid : Fin 16) (k : Nat) (u : Gid) : Prop := ∃ i : Fin 16, k ≤ i.val ∧ u = gidOf pid i

section

variable {pid i : Fin 16} {wm : WindowManager} {place : Gid → Option Place}
variable {lists : Place → List Gid} {k : Nat}

theorem pending_succ {u : Gid} (hi : i.val = k) (h : Pending pid k u) (hu : u ≠ gidOf pid i) :
    Pending pid (k + 1) u := by
  obtain ⟨j, hj, rfl⟩ := h
  have hne : j.val ≠ i.val := fun heq => hu (by rw [Fin.ext heq])
  exact ⟨j, by omega, rfl⟩

/-- What is told to the windows of a tree. -/
theorem Rerooted.rooted {win win' : Windows} {r : Gid} (h : Rerooted (some r) win win')
    (hrooted : Rooted win place) (hr : place r = some .stack)
    (hzero : r = desktopGid → ∀ u, u ≠ desktopGid → win' u = win u) : Rooted win' place := by
  intro w r' hr'
  rcases h w with hsame | hset
  · rw [hsame] at hr'
    exact hrooted w r' hr'
  · rw [hset] at hr'
    cases hr'
    refine ⟨hr, ?_⟩
    intro hr0
    by_contra hw0
    have hsame := hzero hr0 w hw0
    have hroot : (win w).wmRoot = some r := by rw [← hsame, hset]; rfl
    exact hw0 ((hrooted w r hroot).2 hr0)

/-- **One round of the second loop.** -/
theorem rootSlot_spec (h : Grown (Pending pid k) wm place lists) (hi : i.val = k) :
    ∃ wm' place' lists', rootSlot pid i wm = some wm' ∧
      Grown (Pending pid (k + 1)) wm' place' lists' := by
  rw [rootSlot]
  split
  case isTrue hskip =>
    refine ⟨wm, place, lists, rfl, h.planted.mono ?_, h.top, h.rooted⟩
    intro u hpending hlive hparent _
    apply pending_succ hi hpending
    rintro rfl
    exact hskip.elim hlive fun hne => hne hparent
  case isFalse hroot =>
    obtain ⟨hlive, hparent⟩ := not_or.mp hroot
    rw [Classical.not_not] at hparent
    obtain ⟨win', hrun, hrerooted, hself, halone⟩ :=
      updateRoot_spec (some (gidOf pid i)) (gidOf pid i) h.planted
    have hplanted := hrerooted.planted h.planted
    have hzero : gidOf pid i = desktopGid → ∀ u, u ≠ desktopGid → win' u = wm.winIndex u := by
      intro h0 u hu
      apply halone _ u (h0 ▸ hu)
      intro hframe
      rw [h0, h.planted.shape.kind, h.planted.desktop] at hframe
      cases hframe
    simp only [hrun, Option.bind_eq_bind, Option.bind_some, hself]
    rcases h.planted.root _ hlive hparent with hstack | ⟨-, hnone⟩
    · -- the window is in `winstack` already
      refine ⟨⟨wm.winstack, win'⟩, place, lists, ?_, ?_, h.top,
        hrerooted.rooted h.rooted hstack hzero⟩
      · split
        case isTrue hpush => exact absurd hpush.2 (hplanted.next_ne_none hstack hpush.1)
        case isFalse => rfl
      · apply hplanted.mono
        intro u hpending _ _ hnone
        apply pending_succ hi hpending
        rintro rfl
        rw [hstack] at hnone
        cases hnone
    · -- the window is new
      have hne0 : gidOf pid i ≠ desktopGid := by
        intro h0
        rw [h0, h.planted.place_zero] at hnone
        cases hnone
      have hnext : (win' (gidOf pid i)).next = none := (hplanted.shape.threaded.loose _ hnone).1
      obtain ⟨place', lists', hpushed⟩ := hplanted.push h.top hnone
        (by rw [hrerooted.field (·.windata.winclass) fun _ => rfl]; exact hlive)
        (by rw [hrerooted.field (·.parent) fun _ => rfl]; exact hparent) (by
          intro w r hr
          rcases hrerooted w with hsame | hset
          · rw [hsame] at hr
            obtain ⟨hplace, hr0⟩ := h.rooted w r hr
            exact ⟨.inl hplace, hr0⟩
          · rw [hset] at hr
            cases hr
            exact ⟨.inr rfl, fun h0 => absurd h0 hne0⟩)
      refine ⟨_, place', lists', if_pos ⟨hne0, hnext⟩, ?_, hpushed.top, hpushed.rooted⟩
      exact hpushed.planted.mono fun u hu _ _ _ => pending_succ hi hu.1 hu.2

/-- The rest of the second loop. -/
theorem rootSlots_spec (h : Grown (Pending pid k) wm place lists) (hk : k ≤ 16) :
    ∃ wm' place' lists', rootSlots pid ((List.finRange 16).drop k) wm = some wm' ∧
      Grown (fun _ => False) wm' place' lists' := by
  induction hn : 16 - k generalizing k wm place lists with
  | zero =>
    refine ⟨wm, place, lists, ?_, h.planted.mono ?_, h.top, h.rooted⟩
    · rw [List.drop_of_length_le (by simp; omega)]
      rfl
    · rintro u ⟨j, hj, -⟩ - - -
      omega
  | succ n ih =>
    have hlt : k < 16 := by omega
    obtain ⟨wm₁, place₁, lists₁, hrun, hgrown⟩ := rootSlot_spec (i := ⟨k, hlt⟩) h rfl
    obtain ⟨wm', place', lists', hrest, hend⟩ := ih hgrown (by omega) (by omega)
    refine ⟨wm', place', lists', ?_, hend⟩
    rw [List.drop_eq_getElem_cons (by simpa using hlt), rootSlots]
    simp [hrun, hrest]

/-- **A call of `gui_update_proc`** for an environment that is in order returns, and the windows are a
forest again. -/
theorem guiUpdateProc_spec {henv : Hierarchy} (h : Grown (fun _ => False) wm place lists)
    (hok : Orderly pid henv.toEnvironment wm.winIndex) :
    ∃ wm' place' lists', guiUpdateProc pid henv.toEnvironment wm = some wm' ∧
      Grown (fun _ => False) wm' place' lists' := by
  obtain ⟨win₁, place₁, lists₁, hrun, hstack, hplanted, hrooted⟩ :=
    updateSlots_spec h.planted h.rooted hok
  have hgrown : Grown (Pending pid 0) ⟨wm.winstack, win₁⟩ place₁ lists₁ := by
    refine ⟨hplanted.mono ?_, ?_, hrooted⟩
    · rintro u ⟨j, rfl⟩ - - -
      exact ⟨j, Nat.zero_le _, rfl⟩
    · rw [hstack]
      exact h.top
  obtain ⟨wm', place', lists', hroots, hend⟩ := rootSlots_spec hgrown (Nat.zero_le 16)
  refine ⟨wm', place', lists', ?_, hend⟩
  rw [guiUpdateProc, hrun]
  exact hroots

/-- **A click** keeps the forest. -/
theorem click_spec (h : Grown (fun _ => False) wm place lists) (w : Gid) :
    ∃ place' lists', Grown (fun _ => False) (click w wm) place' lists' := by
  rw [click]
  split
  case h_2 => exact ⟨place, lists, h⟩
  case h_1 r hr =>
    split
    case isFalse => exact ⟨place, lists, h⟩
    case isTrue hraise =>
      obtain ⟨hplace, hzero⟩ := h.rooted w r hr
      have hr0 : r ≠ desktopGid := fun heq => hraise.1 (hzero heq)
      obtain ⟨l₁, l₂, hsplit⟩ :=
        List.append_of_mem ((h.planted.shape.threaded.mem_iff .stack r).mpr hplace)
      have hlinked := h.planted.shape.threaded.linked .stack
      rw [hsplit] at hlinked
      have hdetached : Detached wm.winIndex (detach wm.winstack r wm.winIndex).2 r :=
        detach_detached hlinked
      have htop : (detach wm.winstack r wm.winIndex).1 =
          (Function.update lists .stack (l₁ ++ l₂) .stack).head? := by
        rw [Function.update_self, h.top, hsplit]
        exact detach_top hlinked
      obtain ⟨hlive, hparent⟩ := h.planted.root_of_stack hplace
      have hplanted : Planted (· = r) (detach wm.winstack r wm.winIndex).2
          (Function.update place r none) (Function.update lists .stack (l₁ ++ l₂)) :=
        h.planted.restack hdetached.core
          (h.planted.shape.threaded.detach hsplit hdetached.next hdetached.prev) hlive hparent
          (.inr ⟨rfl, rfl⟩) (fun u _ hfalse => hfalse.elim) (h.planted.last_of_split hsplit hr0)
      obtain ⟨place', lists', hpushed⟩ := hplanted.push htop (Function.update_self ..)
        (by rw [GUIWindow.field_of_core (·.windata.winclass) (fun _ => rfl) (hdetached.core r)]
            exact hlive)
        (by rw [GUIWindow.field_of_core (·.parent) (fun _ => rfl) (hdetached.core r)]
            exact hparent)
        (by
          intro u r' hr'
          rw [GUIWindow.field_of_core (·.wmRoot) (fun _ => rfl) (hdetached.core u)] at hr'
          obtain ⟨hplace', hzero'⟩ := h.rooted u r' hr'
          refine ⟨?_, hzero'⟩
          by_cases hne : r' = r
          · exact .inr hne
          · rw [Function.update_of_ne hne]
            exact .inl hplace')
      refine ⟨place', lists', ?_, hpushed.top, hpushed.rooted⟩
      exact hpushed.planted.mono fun u hu _ _ _ => hu.2 hu.1

end

end Shipwreck.Gui
