import Shipwreck.Gui.Desk
import Shipwreck.Gui.WindowIds

/-!
# From the mouse to the screen

While events and requests are on their way, the screen shows what was there some time ago. The requests that are
pending say what is still to be drawn, each of them by the windows as they will be then. Together they make up for all
that has changed, as long as no request has been refused (`Desk.Current`); and once there are none left, the screen
shows the picture of the windows (`desk_shows`).

The pointer is on the screen between two rounds of the display worker. What it hides has been saved, which needs a
mouse that stands still from the first reading of its position to the last (`Desk.Aimed`).
-/

namespace Shipwreck.Gui

/-! ## The steps -/

namespace Desk

section

variable {width height : UInt16} {src : Sources} {overlay : Set (Int × Int)} {s s' : Desk} {forest : Forest}
  {msgs : List DisplayMsg}

/-- What has been posted is waiting, if nothing has been refused. -/
theorem newDisplayMsgs_queue (h : (s.newDisplayMsgs msgs).refused = false) :
    s.refused = false ∧ (s.newDisplayMsgs msgs).displayQueue = s.displayQueue ++ msgs := by
  rw [newDisplayMsgs, Bool.or_eq_false_iff, decide_eq_false_iff_not, Nat.not_lt] at h
  exact ⟨h.1, List.take_of_length_le h.2⟩

/-- A request that is pending is in the queue. -/
theorem mem_of_pending {msg : DisplayMsg} (h : msg ∈ s.pending) : msg ∈ s.displayQueue := by
  unfold pending at h
  split at h
  · exact List.mem_of_mem_drop h
  · exact h

/-- What has been posted is pending. -/
theorem newDisplayMsgs_pending (h : (s.newDisplayMsgs msgs).refused = false) (htaken : s.Taken) :
    (s.newDisplayMsgs msgs).Taken ∧ (s.newDisplayMsgs msgs).pending = s.pending ++ msgs := by
  obtain ⟨-, hqueue⟩ := newDisplayMsgs_queue h
  have hstage : (s.newDisplayMsgs msgs).displayStage = s.displayStage := rfl
  unfold Taken at htaken ⊢
  unfold pending
  rw [hstage, hqueue]
  cases hs : s.displayStage with
  | drawing taken done =>
    rw [hs] at htaken
    obtain ⟨hdone, hlength⟩ := htaken
    refine ⟨⟨hdone, ?_⟩, List.drop_append_of_le_length (hdone.trans hlength)⟩
    rw [List.length_append]
    omega
  | _ => exact ⟨trivial, rfl⟩

/-- Of what has been read of the mouse, no more matters than where it is while the pointer is shown, the pointer
itself, and the colours beside `overlay`. -/
theorem Aimed.congr (h : s.Aimed width height overlay) (hstage : s'.displayStage = s.displayStage)
    (hmouse : s.displayStage.shows →
      s'.driver.mouse.x = s.driver.mouse.x ∧ s'.driver.mouse.y = s.driver.mouse.y)
    (hpointer : s'.pointer = s.pointer)
    (hpixels : ∀ p ∈ Gui.screen width height, p ∉ overlay →
      s'.screen.vga.pixels (pixelOffset width p) = s.screen.vga.pixels (pixelOffset width p)) :
    s'.Aimed width height overlay := by
  have hsaved : s.displayStage.shows → s.Saved width height overlay → s'.Saved width height overlay := by
    intro hshows hs i hi
    obtain ⟨hx, hy⟩ := hmouse hshows
    rw [hx, hy, hpointer]
    refine ⟨(hs i hi).1, fun hout => ?_⟩
    rw [hpixels _ (hs i hi).1 hout]
    exact (hs i hi).2 hout
  unfold Aimed at h ⊢
  rw [hstage]
  cases hs : s.displayStage with
  | waiting | drawing | getX => trivial
  | getY x =>
    simp only [hs] at h hmouse ⊢
    rw [h, (hmouse rfl).1]
  | bgX =>
    simp only [hs] at h hsaved ⊢
    exact hsaved rfl h
  | bgY =>
    simp only [hs] at h hmouse hsaved ⊢
    rw [(hmouse rfl).1, hpointer]
    exact ⟨hsaved rfl h.1, h.2⟩
  | putX | putY =>
    simp only [hs] at h hmouse hsaved ⊢
    rw [(hmouse rfl).1, (hmouse rfl).2, hpointer]
    exact ⟨hsaved rfl h.1, h.2⟩

/-- What is true in all states, the requests that are waiting, and the mouse while the pointer is shown. -/
structure Ok (width height : UInt16) (src : Sources) (overlay : Set (Int × Int)) (s : Desk) (forest : Forest) :
    Prop extends s.Sound width height src forest where
  current : s.refused = false → s.Taken ∧ s.Current width src overlay forest
  aimed : s.Aimed width height overlay

/-- Requests to draw rectangles. -/
theorem Ok.request (h : s.Ok width height src overlay forest) (msgs : List DisplayMsg)
    (hmsgs : ∀ msg ∈ msgs, msg = .redrawMouse ∨ ∃ rect, msg = .redrawRect rect) :
    (s.newDisplayMsgs msgs).Ok width height src overlay forest where
  toSound := { h.toSound with
    queued := by
      intro w hw
      rcases List.mem_append.mp (List.mem_of_mem_take hw) with hw | hw
      · exact h.queued w hw
      · rcases hmsgs _ hw with heq | ⟨rect, heq⟩ <;> cases heq }
  current hrefused := by
    obtain ⟨htaken, hcurrent⟩ := h.current (newDisplayMsgs_queue hrefused).1
    obtain ⟨htaken', hpending⟩ := newDisplayMsgs_pending hrefused htaken
    refine ⟨htaken', ?_⟩
    rw [Current, hpending, List.map_append]
    apply hcurrent.post
    intro p _ job hjob
    obtain ⟨msg, hmsg, rfl⟩ := List.mem_map.mp hjob
    rcases hmsgs msg hmsg with rfl | ⟨rect, rfl⟩
    · exact .inl fun _ => rfl
    · exact (layer_redrawRect rect).imp And.left And.left
  aimed := h.aimed

/-- A byte from the mouse. -/
theorem Ok.byte (h : s.Ok width height src overlay forest) (data : UInt8) (tsc : UInt64)
    (hstill : s.Smooth width height src overlay (.byte data tsc)) :
    (s.byte width height data tsc).Ok width height src overlay forest := by
  obtain ⟨hx0, hx, hy0, hy⟩ := h.mouse.screen
  obtain ⟨hsane, hposted⟩ := Input.mousePacket_sane (by omega) (by omega) h.size.1 h.size.2 data tsc h.mouse
  refine { h with mouse := hsane, events := ?_, aimed := h.aimed.congr rfl hstill rfl fun _ _ _ => rfl }
  intro post hpost
  rcases List.mem_append.mp (List.mem_of_mem_take hpost) with hpost | hpost
  · exact h.events post hpost
  · exact hposted.screen post hpost

/-- A tree has been moved from one rectangle to another. -/
theorem Ok.moved {win' : Windows} {w : Gid} {dx dy : Int32} (h : s.Ok width height src overlay forest)
    (hw : w ∈ forest.stack) (hdesktop : w ≠ desktopGid) (harranged : Arranged ⟨s.wm.winstack, win'⟩ forest)
    (hwin' : ∀ u, win' u = if u ∈ forest.tree w then (s.wm.winIndex u).move dx dy else s.wm.winIndex u)
    (hordered : (s.wm.winIndex w).windata.rect.Ordered ∧ (win' w).windata.rect.Ordered)
    (hready : ∀ u, (s.wm.winIndex u).Ready src → (win' u).Ready src) :
    ({ s with wm := ⟨s.wm.winstack, win'⟩ }.newDisplayMsgs
      ((Rect.redrawn (s.wm.winIndex w).windata.rect (win' w).windata.rect).map .redrawRect)).Ok
        width height src overlay forest := by
  have hother : ∀ u ∈ (forest.remove w).windows, win' u = s.wm.winIndex u := by
    intro u hu
    rw [hwin', if_neg (Forest.not_mem_tree h.arranged.once hw hu)]
  have hgid (u : Gid) : (win' u).gid = (s.wm.winIndex u).gid := by
    rw [hwin']
    split
    · rfl
    · rfl
  have hframe : win' desktopGid = s.wm.winIndex desktopGid :=
    hother desktopGid (Forest.mem_remove h.desktop hdesktop.symm)
  obtain ⟨-, hcovers⟩ := Rect.redrawn_exact _ _ hordered.1 hordered.2
  constructor
  · refine { h.toSound with
      arranged := harranged
      frame := ?_
      ready := fun u hu => hready u (h.ready u hu)
      numbered := fun u hu => ?_
      picked := fun p hp => ?_
      queued := fun v hv => ?_ }
    · rw [Desk.frame]
      show (win' desktopGid).windata.rect.OnScreen width height
      rw [hframe]
      exact h.frame
    · show clicked (win' u).gid = some u
      rw [hgid]
      exact h.numbered u hu
    · obtain ⟨u, hu, hpick⟩ := h.picked p hp
      exact ⟨u, hu, hpick.trans (hgid u).symm⟩
    · rcases List.mem_append.mp (List.mem_of_mem_take hv) with hv | hv
      · exact h.queued v hv
      · obtain ⟨rect, -, heq⟩ := List.mem_map.mp hv
        cases heq
  · intro hrefused
    obtain ⟨htaken, hcurrent⟩ := h.current (newDisplayMsgs_queue hrefused).1
    obtain ⟨htaken', hpending⟩ := newDisplayMsgs_pending hrefused htaken
    refine ⟨htaken', ?_⟩
    rw [Current, hpending, List.map_append]
    show Repairs ((win' desktopGid).windata.rect.pixels \ overlay) _ _ _
    rw [hframe]
    apply hcurrent.change
    · intro p _ job hjob
      obtain ⟨msg, hmsg, rfl⟩ := List.mem_map.mp hjob
      obtain ⟨rect, -, rfl⟩ := List.mem_map.mp hmsg
      exact (layer_redrawRect rect).imp And.left And.left
    · intro p _
      by_cases hp : p ∈ (s.wm.winIndex w).windata.rect.pixels ∨ p ∈ (win' w).windata.rect.pixels
      · -- what the tree has left, and what it covers now
        obtain ⟨rect, hrect, hin⟩ := (hcovers p).mpr hp
        refine .inl ⟨_, List.mem_map_of_mem (List.mem_map_of_mem hrect), fun px => if_pos hin⟩
      · rw [not_or] at hp
        have hlook : ∀ u ∈ (forest.remove w).windows, (win' u).look = (s.wm.winIndex u).look :=
          fun u hu => congrArg GUIWindow.look (hother u hu)
        refine .inr ⟨Forest.composite_change hlook hp.1 hp.2, jobs_congr fun msg hmsg => ?_⟩
        exact layer_change hlook (fun v hv => h.queued v (mem_of_pending (hv ▸ hmsg))) hp.1 hp.2
  · exact h.aimed

/-- **A tree has been brought to the top.** -/
theorem Ok.raised {u root : Gid} (h : s.Ok width height src overlay forest) (hu : u ≠ desktopGid)
    (hroot : (s.wm.winIndex u).wmRoot = some root) (hmem : root ∈ forest.stack) (htop : s.wm.winstack ≠ some root) :
    ({ s with dragWindow := some root, wm := click u s.wm }.newDisplayMsgs [.redrawWindow (some root)]).Ok
      width height src overlay (forest.raise root) := by
  have hcore := click_core u s.wm
  have hlook (v : Gid) : ((click u s.wm).winIndex v).look = (s.wm.winIndex v).look :=
    GUIWindow.look_of_core (hcore v)
  have hrect (v : Gid) : ((click u s.wm).winIndex v).windata.rect = (s.wm.winIndex v).windata.rect :=
    congrArg Prod.fst (hlook v)
  have hgid (v : Gid) : ((click u s.wm).winIndex v).gid = (s.wm.winIndex v).gid := congrArg (·.2.1) (hlook v)
  have hwindows (v : Gid) : v ∈ (forest.raise root).windows ↔ v ∈ forest.windows :=
    (Forest.raise_windows hmem).mem_iff
  have hstack : ∀ v ∈ forest.stack, v ∈ (forest.raise root).stack := by
    intro v hv
    rw [Forest.raise_stack hmem]
    by_cases hvroot : v = root
    · exact hvroot ▸ List.mem_cons_self
    · exact List.mem_cons_of_mem _ ((List.mem_erase_of_ne hvroot).mpr hv)
  constructor
  · refine { h.toSound with
      arranged := h.arranged.click hu hroot hmem htop
      desktop := hstack _ h.desktop
      frame := ?_
      ready := fun v hv => ?_
      numbered := fun v hv => ?_
      picked := fun p hp => ?_
      dragged := fun v hv => ?_
      queued := fun v hv => ?_ }
    · rw [Desk.frame]
      show ((click u s.wm).winIndex desktopGid).windata.rect.OnScreen width height
      rw [hrect]
      exact h.frame
    · show ((click u s.wm).winIndex v).Ready src
      rw [GUIWindow.field_of_core (GUIWindow.Ready src) (fun _ => rfl) (hcore v)]
      exact h.ready v ((hwindows v).mp hv)
    · show clicked ((click u s.wm).winIndex v).gid = some v
      rw [hgid]
      exact h.numbered v ((hwindows v).mp hv)
    · obtain ⟨v, hv, hpick⟩ := h.picked p hp
      exact ⟨v, (hwindows v).mpr hv, hpick.trans (hgid v).symm⟩
    · cases hv
      exact hstack _ hmem
    · rcases List.mem_append.mp (List.mem_of_mem_take hv) with hv | hv
      · exact hstack v (h.queued v hv)
      · cases List.mem_singleton.mp hv
        exact hstack _ hmem
  · intro hrefused
    obtain ⟨htaken, hcurrent⟩ := h.current (newDisplayMsgs_queue hrefused).1
    obtain ⟨htaken', hpending⟩ := newDisplayMsgs_pending hrefused htaken
    refine ⟨htaken', ?_⟩
    rw [Current, hpending, List.map_append]
    show Repairs (((click u s.wm).winIndex desktopGid).windata.rect.pixels \ overlay) _ _ _
    rw [hrect]
    -- the job covers the tree; elsewhere the order of the windows has not changed
    have hlayer (p : Int × Int) := @layer_redrawTop width src (click u s.wm).winIndex forest root p hmem
    apply hcurrent.change
    · intro p _ job hjob
      rw [List.map_singleton, List.mem_singleton] at hjob
      subst hjob
      exact (hlayer p).imp And.left And.left
    · intro p _
      rcases hlayer p with ⟨-, hout⟩ | ⟨hdraws, -⟩
      · rw [hrect] at hout
        refine .inr ⟨fun px => ?_, jobs_congr fun msg _ => layer_raise hlook hmem hout⟩
        show DisplayMsg.layer width src _ _ .redrawScreen p px = DisplayMsg.layer width src _ _ .redrawScreen p px
        exact layer_raise hlook hmem hout px
      · exact .inl ⟨_, List.mem_singleton_self _, hdraws⟩
  · exact h.aimed

/-! ### The workers -/

theorem Ok.dragBy {dx dy : Int} (h : s.Ok width height src overlay forest)
    (hsteady : ∀ s', s.dragBy dx dy = some s' → s.Steady src s') :
    ∃ s', s.dragBy dx dy = some s' ∧ s'.Ok width height src overlay forest := by
  unfold Desk.dragBy at hsteady ⊢
  cases hdrag : s.dragWindow with
  | none => exact ⟨s, rfl, h⟩
  | some w =>
    simp only [hdrag] at hsteady ⊢
    by_cases hif : s.driver.mouse.ldrag ∧ w ≠ desktopGid
    · obtain ⟨win', hrun, harranged, hwin'⟩ :=
        h.arranged.move (h.dragged w hdrag) (Int32.ofInt dx) (Int32.ofInt dy)
      simp only [if_pos hif, Desk.drag, hrun, Option.bind_eq_bind, Option.bind_some, Option.pure_def] at hsteady ⊢
      obtain ⟨hordered, hready⟩ := hsteady _ rfl
      exact ⟨_, rfl, h.moved (h.dragged w hdrag) hif.2 harranged hwin' (hordered w hdrag) hready⟩
    · rw [if_neg hif]
      exact ⟨s, rfl, h⟩

/-- What comes behind a step of the handling of `MOUSE_MOVE` is no concern of the windows. -/
theorem Ok.userStage (h : s.Ok width height src overlay forest) (next : UserStage) :
    { s with userStage := next }.Ok width height src overlay forest :=
  { h with }

theorem Ok.mouseMove {taken done : Nat} (h : s.Ok width height src overlay forest) (next : MoveStage)
    (hsteady : ∀ dx dy, next = .drag dx dy → ∀ s', s.mouseMove taken done next = some s' → s.Steady src s') :
    ∃ s', s.mouseMove taken done next = some s' ∧ s'.Ok width height src overlay forest := by
  have hmouse := h.mouse
  cases next with
  | dy dx => exact ⟨_, rfl, h.userStage _⟩
  | oldX dx dy => exact ⟨_, rfl, { h with mouse := ⟨hmouse.screen, hmouse.click⟩ }⟩
  | oldY dx dy => exact ⟨_, rfl, { h with mouse := ⟨hmouse.screen, hmouse.click⟩ }⟩
  | drag dx dy =>
    have hsteady' := hsteady dx dy rfl
    simp only [Desk.mouseMove] at hsteady' ⊢
    obtain ⟨s₁, hdrag, h₁⟩ := (h.userStage (.handling taken (done + 1))).dragBy fun t ht =>
      hsteady' (t.newDisplayMsgs [.redrawMouse]) (by
        rw [ht]
        rfl)
    refine ⟨_, by rw [hdrag]; rfl, h₁.request _ fun msg hmsg => .inl (List.mem_singleton.mp hmsg)⟩

theorem Ok.mouseLeftDown {x y : Int} (h : s.Ok width height src overlay forest)
    (hxy : (x, y) ∈ Gui.screen width height) :
    ∃ s' forest', s.mouseLeftDown width x y = some s' ∧ s'.Ok width height src overlay forest' := by
  obtain ⟨u, hu, hpick⟩ := h.picked (x, y) hxy
  have hclicked : clicked (s.screen.pick (pixelOffset width (x, y))) = some u := hpick ▸ h.numbered u hu
  unfold Desk.mouseLeftDown
  simp only [hclicked]
  by_cases hzero : s.screen.pick (pixelOffset width (x, y)) ≠ 0
  · rw [if_pos hzero]
    have hdesktop : u ≠ desktopGid := by
      rintro rfl
      rw [clicked_eq] at hclicked
      exact hzero (UInt8.toNat_inj.mp (Fin.mk.inj (Option.some.inj hclicked)))
    obtain ⟨root, hmem, hroot⟩ := (Forest.linked_iff.mp h.arranged.linked).2.root_mem hu
    simp only [hroot, Option.bind_eq_bind, Option.bind_some, Option.pure_def]
    by_cases htop : s.wm.winstack ≠ some root
    · rw [if_pos htop]
      exact ⟨_, _, rfl, h.raised hdesktop hroot hmem htop⟩
    · have hsame : click u s.wm = s.wm := by
        rw [click, hroot]
        exact if_neg fun hboth => htop hboth.2
      have hdrag : { s with dragWindow := some root }.Ok width height src overlay forest :=
        { h with dragged := fun w hw => Option.some.inj hw ▸ hmem }
      rw [if_neg htop, hsame]
      exact ⟨_, _, rfl, hdrag.request [] fun msg hmsg => absurd hmsg List.not_mem_nil⟩
  · rw [if_neg hzero]
    exact ⟨_, forest, rfl, { h with dragged := fun w hw => by cases hw }⟩

theorem Ok.userEvent (h : s.Ok width height src overlay forest)
    (hsmooth : s.Smooth width height src overlay .userEvent) :
    ∃ s' forest', s.userEvent width = some s' ∧ s'.Ok width height src overlay forest' := by
  unfold Desk.Smooth Desk.userEvent at hsmooth
  unfold Desk.userEvent
  cases hstage : s.userStage with
  | waiting =>
    simp only
    split
    · exact ⟨s, forest, rfl, h⟩
    · exact ⟨_, forest, rfl, h.userStage _⟩
  | moving taken done next =>
    have hdrag : ∀ dx dy, next = .drag dx dy → ∀ s', s.mouseMove taken done next = some s' → s.Steady src s' := by
      intro dx dy hnext
      simp only [hstage, hnext] at hsmooth ⊢
      exact hsmooth
    obtain ⟨s', hrun, hs'⟩ := h.mouseMove next hdrag
    exact ⟨s', forest, hrun, hs'⟩
  | handling taken done =>
    simp only
    cases hpost : (s.userQueue.take taken)[done]? with
    | none =>
      refine ⟨_, forest, rfl, { h with events := fun post hpost => ?_ }⟩
      exact h.events post (List.mem_of_mem_drop hpost)
    | some post =>
      obtain ⟨event, e⟩ := post
      have hnext := h.userStage (.handling taken (done + 1))
      cases event with
      | mouseMove => exact ⟨_, forest, rfl, h.userStage _⟩
      | mouseLeftDown =>
        obtain ⟨hx0, hx, hy0, hy⟩ := h.events _ (List.mem_of_mem_take (List.mem_of_getElem? hpost))
        exact hnext.mouseLeftDown ⟨hx0, hx, hy0, hy⟩
      | mouseLeftUp => exact ⟨_, forest, rfl, { hnext with dragged := fun w hw => by cases hw }⟩
      | _ => exact ⟨_, forest, rfl, hnext⟩

/-! ### The display worker -/

theorem bare_pick (s : Desk) : (s.bare width).pick = s.screen.pick := by
  unfold bare
  split
  · rfl
  · rfl

theorem bare_eq (h : s.displayStage ≠ .waiting) : s.bare width = s.screen := by
  unfold bare
  split
  case h_1 heq => exact absurd heq h
  case h_2 => rfl

theorem pending_eq (h : ∀ taken done, s.displayStage ≠ .drawing taken done) : s.pending = s.displayQueue := by
  unfold pending
  split
  case h_1 taken done heq => exact absurd heq (h taken done)
  case h_2 => rfl

/-- The pointer is taken from the screen. -/
theorem Ok.hide {taken : Nat} (h : s.Ok width height src overlay forest) (hstage : s.displayStage = .waiting)
    (htaken : taken ≤ s.displayQueue.length) :
    { s with screen := s.bare width, displayStage := .drawing taken 0 }.Ok width height src overlay forest where
  toSound := { h.toSound with
    picked := by
      show ∀ p ∈ Gui.screen width height, ∃ u ∈ forest.windows,
        (s.bare width).pick (pixelOffset width p) = (s.wm.winIndex u).gid
      rw [bare_pick]
      exact h.picked
    square := fun heq => by cases heq }
  current hrefused := by
    have hcurrent := (h.current hrefused).2
    rw [Current, pending_eq (by simp [hstage])] at hcurrent
    exact ⟨⟨Nat.zero_le _, htaken⟩, hcurrent⟩
  aimed := trivial

/-- **A request is drawn.** -/
theorem Ok.draw {taken done : Nat} {msg : DisplayMsg} (h : s.Ok width height src overlay forest)
    (hstage : s.displayStage = .drawing taken done) (hmsg : (s.displayQueue.take taken)[done]? = some msg) :
    ∃ screen, redraw width height src s.wm msg s.screen = some screen ∧
      { s with screen, displayStage := .drawing taken (done + 1) }.Ok width height src overlay forest := by
  obtain ⟨hlt, hget⟩ := List.getElem?_eq_some_iff.mp hmsg
  rw [List.length_take, Nat.lt_min] at hlt
  rw [List.getElem_take] at hget
  have hmem : msg ∈ s.displayQueue := hget ▸ List.getElem_mem hlt.2
  obtain ⟨screen, hrun, hdrawn⟩ :=
    redraw_drawn h.arranged h.ready h.frame (fun w hw => h.queued w (hw ▸ hmem)) s.screen
  refine ⟨screen, hrun, ?_, fun hrefused => ?_, trivial⟩
  · refine { h.toSound with
      picked := fun p hp => ?_
      square := fun heq => by cases heq }
    show ∃ u ∈ forest.windows, (screen.view (pixelOffset width p)).1 = (s.wm.winIndex u).gid
    by_cases hin : p ∈ s.frame.pixels
    · rw [hdrawn.retouched.inside p hin]
      rcases layer_number s.wm.winIndex forest msg p (s.screen.view (pixelOffset width p)) with heq | hmem
      · rw [heq]
        exact h.picked p hp
      · exact hmem
    · rw [hdrawn.retouched.keep pixelOffset_injOn h.frame.subset hp hin]
      exact h.picked p hp
  · obtain ⟨htaken, hcurrent⟩ := h.current hrefused
    rw [Taken, hstage] at htaken
    refine ⟨⟨hlt.1, htaken.2⟩, ?_⟩
    have hpending : s.pending = msg :: s.displayQueue.drop (done + 1) := by
      rw [pending, hstage, ← hget]
      exact List.drop_eq_getElem_cons hlt.2
    rw [Current, hpending, bare_eq (by simp [hstage])] at hcurrent
    rw [List.map_cons, ← List.singleton_append] at hcurrent
    exact hcurrent.run fun p hp => hdrawn.retouched.inside p hp.1

/-- All that have been taken are drawn. -/
theorem Ok.release {taken done : Nat} (h : s.Ok width height src overlay forest)
    (hstage : s.displayStage = .drawing taken done) (hnone : (s.displayQueue.take taken)[done]? = none) :
    { s with displayQueue := s.displayQueue.drop taken, displayStage := .getX }.Ok
      width height src overlay forest where
  toSound := { h.toSound with
    queued := fun w hw => h.queued w (List.mem_of_mem_drop hw)
    square := fun heq => by cases heq }
  current hrefused := by
    obtain ⟨htaken, hcurrent⟩ := h.current hrefused
    rw [Taken, hstage] at htaken
    rw [List.getElem?_eq_none_iff, List.length_take] at hnone
    obtain rfl : taken = done := by omega
    rw [Current, pending, hstage, bare_eq (by simp [hstage])] at hcurrent
    exact ⟨trivial, hcurrent⟩
  aimed := trivial

/-- The worker looks at the mouse. -/
theorem Ok.look {ptr : MousePointer} {next : DisplayStage} (h : s.Ok width height src overlay forest)
    (hstage : s.displayStage ≠ .waiting ∧ ∀ taken done, s.displayStage ≠ .drawing taken done)
    (hnext : next ≠ .waiting ∧ ∀ taken done, next ≠ .drawing taken done)
    (haimed : { s with pointer := ptr, displayStage := next }.Aimed width height overlay) :
    { s with pointer := ptr, displayStage := next }.Ok width height src overlay forest where
  toSound := { h.toSound with square := fun heq => absurd heq hnext.1 }
  current hrefused := by
    have hcurrent := (h.current hrefused).2
    rw [Current, pending_eq hstage.2, bare_eq hstage.1] at hcurrent
    rw [Current, pending_eq hnext.2, bare_eq hnext.1, Taken]
    refine ⟨?_, hcurrent⟩
    split
    case h_1 taken done heq => exact absurd heq (hnext.2 taken done)
    case h_2 => trivial
  aimed := haimed

/-- **The pixels under the mouse are saved.** -/
theorem Ok.save {x : Int} (h : s.Ok width height src overlay forest) (hstage : s.displayStage = .getY x)
    (hpointer : ∀ i ∈ swept pointerWidth pointerHeight, place x s.driver.mouse.y i ∈ Gui.screen width height ∧
      (place x s.driver.mouse.y i ∉ overlay →
        s.screen.vga.pixels (pixelOffset width (place x s.driver.mouse.y i)) = 1 → s.pointer.image i = 1)) :
    ∃ s', s.display width height src = some s' ∧ s'.Ok width height src overlay forest := by
  obtain ⟨hget, hsame, -⟩ := getPixels_spec width x s.driver.mouse.y pointerWidth pointerHeight
    s.pointer.background s.screen.vga
  have haimed := h.aimed
  rw [Aimed, hstage] at haimed
  subst haimed
  simp only [Desk.display, hstage]
  generalize getPixels width s.driver.mouse.x s.driver.mouse.y pointerWidth pointerHeight s.pointer.background
    s.screen.vga = got at hget hsame
  obtain ⟨background, vga⟩ := got
  refine ⟨_, rfl, { h.toSound with square := fun heq => by cases heq }, fun hrefused => ⟨trivial, ?_⟩, ?_⟩
  · have hcurrent := (h.current hrefused).2
    rw [Current, pending_eq (by simp [hstage]), bare_eq (by simp [hstage])] at hcurrent
    exact hcurrent.congr fun p _ => Prod.ext rfl (congrFun hsame _)
  · intro i hi
    obtain ⟨hin, hclear⟩ := hpointer i hi
    have hback := hget i hi
    refine ⟨hin, fun hout => ⟨hback.trans (congrFun hsame _).symm, fun hone => hclear hout ?_⟩⟩
    exact hback.symm.trans hone

/-- **The pointer is on the screen again**, and can be taken from it. -/
theorem Ok.put {x : Int} (h : s.Ok width height src overlay forest) (hstage : s.displayStage = .putY x) :
    ∃ s', s.display width height src = some s' ∧ s'.Ok width height src overlay forest := by
  have haimed := h.aimed
  rw [Aimed, hstage] at haimed
  obtain ⟨hsaved, hbgX, hbgY, rfl⟩ := haimed
  rw [Saved, ← hbgX, ← hbgY] at hsaved
  rw [Desk.display, hstage, ← hbgX, ← hbgY]
  refine ⟨_, rfl, { h.toSound with square := fun _ i hi => (hsaved i hi).1 }, fun hrefused => ⟨trivial, ?_⟩, trivial⟩
  have hcurrent := (h.current hrefused).2
  rw [Current, pending_eq (by simp [hstage]), bare_eq (by simp [hstage])] at hcurrent
  refine hcurrent.congr fun p hp => Prod.ext rfl ?_
  exact hidePointer_putPixels (fun i hi => (hsaved i hi).1) (fun i hi => (hsaved i hi).2) (h.frame.subset hp.1) hp.2

theorem Ok.display (h : s.Ok width height src overlay forest)
    (hsmooth : s.Smooth width height src overlay .display) :
    ∃ s', s.display width height src = some s' ∧ s'.Ok width height src overlay forest := by
  have haimed := h.aimed
  unfold Aimed at haimed
  unfold Desk.Smooth at hsmooth
  cases hstage : s.displayStage with
  | getY x =>
    simp only [hstage] at hsmooth
    exact h.save hstage hsmooth
  | putY x => exact h.put hstage
  | waiting =>
    rw [Desk.display, hstage]
    by_cases hempty : s.displayQueue = []
    · exact ⟨s, if_pos hempty, h⟩
    · exact ⟨_, if_neg hempty, h.hide hstage (Nat.min_le_right _ _)⟩
  | drawing taken done =>
    rw [Desk.display, hstage]
    simp only
    cases hmsg : (s.displayQueue.take taken)[done]? with
    | none => exact ⟨_, rfl, h.release hstage hmsg⟩
    | some msg =>
      obtain ⟨screen, hrun, hs'⟩ := h.draw hstage hmsg
      refine ⟨_, ?_, hs'⟩
      simp only [hrun, Option.bind_eq_bind, Option.bind_some, Option.pure_def]
  | getX =>
    rw [Desk.display, hstage]
    exact ⟨_, rfl, h.look (by simp [hstage]) (by simp) rfl⟩
  | bgX =>
    rw [Desk.display, hstage]
    simp only [hstage] at haimed
    exact ⟨_, rfl, h.look (by simp [hstage]) (by simp) ⟨haimed, rfl⟩⟩
  | bgY =>
    rw [Desk.display, hstage]
    simp only [hstage] at haimed
    exact ⟨_, rfl, h.look (by simp [hstage]) (by simp) ⟨haimed.1, haimed.2, rfl⟩⟩
  | putX =>
    rw [Desk.display, hstage]
    simp only [hstage] at haimed
    exact ⟨_, rfl, h.look (by simp [hstage]) (by simp) ⟨haimed.1, haimed.2.1, haimed.2.2, rfl⟩⟩

/-- The worker leaves the mouse and the image of the pointer alone, and goes by where the mouse is. -/
theorem display_keeps (hrun : s.display width height src = some s') :
    s'.driver = s.driver ∧ s'.pointer.image = s.pointer.image ∧
      ∀ x, s'.displayStage = .getY x → x = s.driver.mouse.x := by
  unfold Desk.display at hrun
  cases hstage : s.displayStage with
  | waiting =>
    simp only [hstage] at hrun
    split at hrun
    · cases hrun
      exact ⟨rfl, rfl, fun x hx => by simp [hstage] at hx⟩
    · cases hrun
      exact ⟨rfl, rfl, fun x hx => by cases hx⟩
  | drawing taken done =>
    simp only [hstage] at hrun
    split at hrun
    · obtain ⟨screen, -, hs'⟩ := Option.bind_eq_some_iff.mp hrun
      cases hs'
      exact ⟨rfl, rfl, fun x hx => by cases hx⟩
    · cases hrun
      exact ⟨rfl, rfl, fun x hx => by cases hx⟩
  | getX =>
    simp only [hstage] at hrun
    cases hrun
    exact ⟨rfl, rfl, fun x hx => by cases hx; rfl⟩
  | _ =>
    simp only [hstage] at hrun
    cases hrun
    exact ⟨rfl, rfl, fun x hx => by cases hx⟩

/-- **A round of the worker ends** with the requests that it has taken out of the queue. -/
theorem display_round {taken done : Nat} (n : Nat) (hstage : s.displayStage = .drawing taken done)
    (htaken : taken ≤ s.displayQueue.length) (hn : done + n = taken)
    (hrun : (desk width height src).exec s (List.replicate (n + 7) .display) = some s') :
    s'.displayStage = .waiting ∧ s'.displayQueue = s.displayQueue.drop taken ∧ s'.refused = s.refused := by
  have hlength : (s.displayQueue.take taken).length = taken := List.length_take_of_le htaken
  induction n generalizing s done with
  | zero =>
    have hnone : (s.displayQueue.take taken)[done]? = none := List.getElem?_eq_none (by omega)
    have hstep : s.display width height src =
        some { s with displayQueue := s.displayQueue.drop taken, displayStage := .getX } := by
      simp only [Desk.display, hstage, hnone]
    rw [Nat.zero_add, List.replicate_succ, Machine.exec_cons] at hrun
    have hrest : ((s.display width height src).bind fun s =>
        (desk width height src).exec s (List.replicate 6 .display)) = some s' := hrun
    rw [hstep] at hrest
    cases hrest
    exact ⟨rfl, rfl, rfl⟩
  | succ n ih =>
    have hlt : done < (s.displayQueue.take taken).length := by omega
    rw [show n + 1 + 7 = n + 7 + 1 by omega, List.replicate_succ, Machine.exec_cons] at hrun
    obtain ⟨s₁, hstep, hrest⟩ := Option.bind_eq_some_iff.mp hrun
    have hdisplay : s.display width height src = some s₁ := hstep
    simp only [Desk.display, hstage, List.getElem?_eq_getElem hlt] at hdisplay
    obtain ⟨screen, -, hs₁⟩ := Option.bind_eq_some_iff.mp hdisplay
    cases hs₁
    exact ih (s := { s with screen, displayStage := .drawing taken (done + 1) }) rfl htaken (by omega) hrest hlength

/-! ### The step -/

theorem Ok.store {k : UInt32} (h : s.Ok width height src overlay forest) (c : UInt16)
    (hk : ∃ p ∈ overlay, p ∈ Gui.screen width height ∧ pixelOffset width p = k) :
    { s with screen.vga.pixels := Function.update s.screen.vga.pixels k c }.Ok width height src overlay forest := by
  obtain ⟨q, hq, hqscreen, rfl⟩ := hk
  have hsame : ∀ p ∈ Gui.screen width height, p ∉ overlay →
      Function.update s.screen.vga.pixels (pixelOffset width q) c (pixelOffset width p) =
        s.screen.vga.pixels (pixelOffset width p) :=
    fun p hp hout => Function.update_of_ne (fun heq => hout (pixelOffset_injOn hp hqscreen heq ▸ hq)) _ _
  refine ⟨{ h.toSound with }, fun hrefused => ?_, h.aimed.congr rfl (fun _ => ⟨rfl, rfl⟩) rfl hsame⟩
  obtain ⟨htaken, hcurrent⟩ := h.current hrefused
  refine ⟨htaken, hcurrent.congr fun p hp => ?_⟩
  have hpixel := hsame p (h.frame.subset hp.1) hp.2
  by_cases hstage : s.displayStage = .waiting
  · unfold bare
    simp only [hstage]
    exact Prod.ext rfl (hidePointer_congr (h.square hstage) hpixel)
  · rw [bare_eq (s := s) hstage, bare_eq (by exact hstage)]
    exact Prod.ext rfl hpixel

/-- **One step.** -/
theorem Ok.step (h : s.Ok width height src overlay forest) (op : DeskOp)
    (hsmooth : s.Smooth width height src overlay op) :
    ∃ s', (desk width height src).step s op = some s' ∧ ∃ forest', s'.Ok width height src overlay forest' := by
  cases op with
  | byte data tsc => exact ⟨_, rfl, forest, h.byte data tsc hsmooth⟩
  | userEvent =>
    obtain ⟨s', forest', hrun, hs'⟩ := h.userEvent hsmooth
    exact ⟨s', hrun, forest', hs'⟩
  | display =>
    obtain ⟨s', hrun, hs'⟩ := h.display hsmooth
    exact ⟨s', hrun, forest, hs'⟩
  | redraw rect => exact ⟨_, rfl, forest, h.request _ fun msg hmsg => .inr ⟨rect, List.mem_singleton.mp hmsg⟩⟩
  | store k c => exact ⟨_, rfl, forest, h.store c hsmooth⟩

end

end Desk

/-! ## Runs -/

/-- There is a first byte of a packet. -/
theorem packet_neZero : NeZero 3 := inferInstance

section

attribute [local instance] gid_neZero packet_neZero

/-- Two windows on the desktop, the second one in front of the first. -/
def twoWindows (u : Gid) : GUIWindow :=
  match u.val with
  | 0 => ⟨.desktop, ⟨.window, ⟨0, 0, 64, 48⟩, .bits 4096, -1, 0, -1, false⟩, 0, none, some 1, none, some 0⟩
  | 1 => ⟨.window, ⟨.window, ⟨4, 4, 20, 20⟩, .bits 0x7FFF, 0, 1, -1, false⟩, 0, some 0, some 2, none, some 1⟩
  | 2 => ⟨.window, ⟨.window, ⟨10, 10, 30, 30⟩, .bits 0x7C00, 0, 2, -1, false⟩, 0, some 1, none, none, some 2⟩
  | _ => ⟨.window, ⟨.none, ⟨0, 0, 0, 0⟩, .bits 0, 0, 0, -1, false⟩, 0, none, none, none, none⟩

/-- The button has been pressed on the window behind, and the mouse has been moved since. -/
def pressed : Desk where
  driver := ⟨fun _ => 0, 0, 0, 0, ⟨15, 10, 10, 10, 10, 10, true, true⟩⟩
  userQueue := [(.mouseLeftDown, ⟨10, 10, true, false⟩), (.mouseMove, ⟨15, 10, true, false⟩)]
  userStage := .waiting
  wm := ⟨some 2, twoWindows⟩
  dragWindow := none
  displayQueue := [.redrawScreen]
  displayStage := .waiting
  refused := false
  pointer := ⟨0, 0, fun _ => 1, fun _ => 0⟩
  screen := ⟨fun _ => 1, fun _ => 0, []⟩

/-- It is in front now, and the mouse is moved on while its first move is handled. -/
def raised : Desk :=
  { pressed with
    driver := ⟨Function.update (Function.update (Function.update (fun _ => 0) 0 9) 1 1) 2 0, 0, 0, 0,
      ⟨16, 10, 16, 10, 10, 10, true, true⟩⟩
    userStage := .moving 2 1 (.drag 5 0)
    wm := click 1 ⟨some 2, twoWindows⟩
    dragWindow := some 1
    displayQueue := [.redrawScreen, .redrawWindow (some 1)] }

/-- And it has been moved with the mouse. -/
def dragged : Desk :=
  { raised with
    userQueue := []
    userStage := .waiting
    wm := ⟨some 1, Windows.modify raised.wm.winIndex 1 (·.move 5 0)⟩
    displayQueue := [.redrawScreen, .redrawWindow (some 1), .redrawRect ⟨4, 4, 25, 20⟩, .redrawMouse] }

end

theorem pressed_init (src : Sources) : (desk 64 48 src).init pressed := by
  refine ⟨⟨.leaf 2 (.leaf 1 (.leaf 0 .nil)), ?_⟩, rfl, rfl, rfl⟩
  constructor
  case size => decide
  case arranged =>
    exact ⟨⟨rfl, by decide, rfl, rfl, by decide, rfl, rfl, by decide, rfl, rfl⟩, by decide,
      ⟨⟨rfl, rfl, rfl, rfl, rfl, rfl, trivial⟩, rfl⟩⟩
  case desktop => decide
  case frame => exact ⟨⟨by decide, by decide, by decide, by decide⟩, ⟨by decide, by decide⟩⟩
  case ready =>
    intro u hu
    simp only [Forest.windows, List.mem_cons, List.not_mem_nil, or_false] at hu
    rcases hu with rfl | rfl | rfl
    · trivial
    · trivial
    · exact ⟨4096, rfl⟩
  case numbered =>
    intro u hu
    simp only [Forest.windows, List.mem_cons, List.not_mem_nil, or_false] at hu
    rcases hu with rfl | rfl | rfl <;> decide
  case picked => exact fun p _ => ⟨1, by decide, rfl⟩
  case dragged =>
    intro w hw
    cases hw
  case queued =>
    intro w hw
    cases List.mem_singleton.mp hw
  case mouse =>
    refine ⟨⟨by decide, by decide, by decide, by decide⟩, fun _ => ?_⟩
    exact ⟨by decide, by decide, by decide, by decide⟩
  case events =>
    intro post hpost
    simp only [pressed, List.mem_cons, List.not_mem_nil, or_false] at hpost
    rcases hpost with rfl | rfl
    · exact ⟨by decide, by decide, by decide, by decide⟩
    · exact ⟨by decide, by decide, by decide, by decide⟩
  case square =>
    rintro - i ⟨hi1, hi2⟩
    simp only [pointerWidth, pointerHeight] at hi1 hi2
    refine ⟨?_, ?_, ?_, ?_⟩ <;> simp only [place, pressed, UInt16.reduceToNat] <;> omega

/-- The requests have been taken. -/
def hidden : Desk := { dragged with screen := dragged.bare 64, displayStage := .drawing 4 0 }

theorem dragged_hides : (desk 64 48 terminalSources).step dragged .display = some hidden := rfl

theorem hidden_stage : hidden.displayStage = .drawing 4 0 ∧ 4 ≤ hidden.displayQueue.length :=
  ⟨rfl, Nat.le_refl 4⟩

/-- The two events, with three bytes of the mouse in the middle of the second one. -/
def clickAndDrag : List DeskOp :=
  [.userEvent, .userEvent, .userEvent, .byte 9 0, .byte 1 0, .byte 0 0, .userEvent, .userEvent, .userEvent]

theorem clickAndDrag_raised : (desk 64 48 terminalSources).exec pressed clickAndDrag = some raised := rfl

theorem drag_dragged : (desk 64 48 terminalSources).exec raised [.userEvent, .userEvent] = some dragged := rfl

theorem clickAndDrag_smooth :
    (desk 64 48 terminalSources).Steps (Desk.Smooth 64 48 terminalSources ∅) pressed clickAndDrag := by
  have hwaiting : ∀ {P : Prop}, DisplayStage.waiting.shows → P := fun h => absurd h Bool.false_ne_true
  have hcons := @Machine.steps_cons _ _ (desk 64 48 terminalSources) (Desk.Smooth 64 48 terminalSources ∅)
  refine hcons trivial rfl (hcons trivial rfl (hcons trivial rfl ?_))
  refine hcons hwaiting rfl (hcons hwaiting rfl (hcons hwaiting rfl ?_))
  exact hcons trivial rfl (hcons trivial rfl (hcons trivial rfl trivial))

theorem drag_smooth : (desk 64 48 terminalSources).Steps (Desk.Smooth 64 48 terminalSources ∅) raised
    [.userEvent, .userEvent] := by
  refine ⟨?_, fun s' hs' => ⟨?_, fun _ _ => trivial⟩⟩
  · rintro s' hs'
    obtain rfl := Option.some.inj (hs'.symm.trans rfl)
    refine ⟨fun w hw => ?_, fun u hu => ?_⟩
    · cases hw
      exact ⟨⟨by decide, by decide⟩, ⟨by decide, by decide⟩⟩
    · show (Windows.modify raised.wm.winIndex 1 (·.move 5 0) u).Ready terminalSources
      by_cases h1 : u = 1
      · rw [h1, Windows.modify_self]
        trivial
      · rw [Windows.modify_of_ne h1]
        exact hu
  · obtain rfl := Option.some.inj (hs'.symm.trans rfl)
    trivial

/-- The mouse has come to rest where its pointer can be shown. -/
def Desk.Rests (s : Desk) : Prop :=
  (s.driver.mouse.x = 16 ∧ s.driver.mouse.y = 10) ∧ s.pointer.image = (fun _ => 1) ∧
    ∀ x, s.displayStage = .getY x → x = 16

theorem display_smooth {s : Desk} (n : Nat) (h : s.Rests) :
    (desk 64 48 terminalSources).Steps (Desk.Smooth 64 48 terminalSources ∅) s (List.replicate n .display) := by
  induction n generalizing s with
  | zero => trivial
  | succ n ih =>
    obtain ⟨⟨hx, hy⟩, himage, hat⟩ := h
    refine ⟨?_, fun s' hs' => ih ?_⟩
    · simp only [Desk.Smooth]
      split
      case h_1 x hstage =>
        rintro i ⟨hi1, hi2⟩
        simp only [pointerWidth, pointerHeight] at hi1 hi2
        rw [hat x hstage, hy, himage]
        refine ⟨⟨?_, ?_, ?_, ?_⟩, fun _ _ => rfl⟩ <;> simp only [place, UInt16.reduceToNat] <;> omega
      case h_2 => trivial
    · obtain ⟨hdriver, himage', hat'⟩ := Desk.display_keeps hs'
      exact ⟨by rw [hdriver]; exact ⟨hx, hy⟩, himage'.trans himage, fun x hstage => (hat' x hstage).trans hx⟩

/-- How the desk is found when the windows are in their places: the desktop fills a part of the screen and is in no
frame, and the numbers of the windows are right. -/
structure Desk.Fresh (width height : UInt16) (src : Sources) (s : Desk) : Prop where
  size : width.toNat ≤ 2048 ∧ height.toNat ≤ 2048
  desktop : (s.wm.winIndex desktopGid).windata.winclass ≠ .none ∧ (s.wm.winIndex desktopGid).parent = none
  frame : s.frame.OnScreen width height
  live : ∀ u, (s.wm.winIndex u).windata.winclass ≠ .none →
    (s.wm.winIndex u).Ready src ∧ clicked (s.wm.winIndex u).gid = some u
  picked : ∀ p ∈ Gui.screen width height, ∃ u, (s.wm.winIndex u).windata.winclass ≠ .none ∧
    s.screen.pick (pixelOffset width p) = (s.wm.winIndex u).gid
  dragWindow : s.dragWindow = none
  userQueue : s.userQueue = []
  displayQueue : s.displayQueue = [.redrawScreen]
  mouse : s.driver.mouse.Sane width.toNat height.toNat
  stages : s.userStage = .waiting ∧ s.displayStage = .waiting
  square : ∀ i ∈ swept pointerWidth pointerHeight, place s.pointer.bgX s.pointer.bgY i ∈
    Gui.screen width height

/-- **In every state of an orderly run of the window manager** a desk can begin. -/
theorem manager_starts_desk (width height : UInt16) (src : Sources) {wm : WindowManager} (hinit : manager.init wm)
    (ops : List GuiOp) (hok : manager.Steps InOrder wm ops) :
    manager.States (fun wm => ∀ s : Desk, s.wm = wm → s.Fresh width height src → (desk width height src).init s)
      wm ops := by
  apply manager_known hinit ops hok
  rintro _ hknown s rfl hfresh
  obtain ⟨forest, harranged, hlive, hstack⟩ := hknown.arranged
  refine ⟨⟨forest, ?_⟩, hfresh.displayQueue, hfresh.stages⟩
  constructor
  case size => exact hfresh.size
  case arranged => exact harranged
  case desktop => exact (hstack _).mpr hfresh.desktop
  case frame => exact hfresh.frame
  case ready => exact fun u hu => (hfresh.live u ((hlive u).mp hu)).1
  case numbered => exact fun u hu => (hfresh.live u ((hlive u).mp hu)).2
  case picked =>
    intro p hp
    obtain ⟨u, hu, hpick⟩ := hfresh.picked p hp
    exact ⟨u, (hlive u).mpr hu, hpick⟩
  case dragged =>
    rw [hfresh.dragWindow]
    intro w hw
    cases hw
  case queued =>
    rw [hfresh.displayQueue]
    intro w hw
    cases List.mem_singleton.mp hw
  case mouse => exact hfresh.mouse
  case events =>
    rw [hfresh.userQueue]
    exact fun post hpost => absurd hpost List.not_mem_nil
  case square => exact fun _ => hfresh.square

end Shipwreck.Gui
