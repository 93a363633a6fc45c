import Shipwreck.Input.Mouse

/-!
# Drags

`mouse_packet` sets `ldrag` at the first throttled motion of a press, and posts `MOUSE_LEFT_DRAG_START`
only if the pointer has left the click box by then. `drags_bracketed` says that the events of a drag
are bracketed in every run in which that is never before the pointer has left the box.
-/

namespace Shipwreck.Input

/-- The number of drags that have been started since the last press, and whether one has not been
ended yet. -/
structure Drags where
  starts : Nat
  opened : Bool
  deriving DecidableEq, Repr

/-- The drags after these events; `none` if one is ended that is not the only one started since the last
press, or the button is released before the end. -/
def dragsAfter : Drags → List UserEvents → Option Drags
  | d, [] => some d
  | d, .mouseLeftDown :: es => dragsAfter { d with starts := 0 } es
  | d, .mouseLeftDragStart :: es => dragsAfter ⟨d.starts + 1, true⟩ es
  | d, .mouseLeftDragEnd :: es => if d.starts = 1 then dragsAfter { d with opened := false } es else none
  | d, .mouseLeftUp :: es => if d.opened then none else dragsAfter d es
  | d, _ :: es => dragsAfter d es

theorem dragsAfter_append {d : Drags} {es es' : List UserEvents} :
    dragsAfter d (es ++ es') = (dragsAfter d es).bind fun d => dragsAfter d es' := by
  induction es generalizing d with
  | nil => rfl
  | cons e es ih =>
    cases e <;> simp only [List.cons_append, dragsAfter, ih]
    · split <;> rfl
    · split <;> rfl

theorem dragsAfter_names_append {d d' : Drags} {posted : List Post} (posted' : List Post)
    (h : dragsAfter d (names posted) = some d') :
    dragsAfter d (names (posted ++ posted')) = dragsAfter d' (names posted') := by
  rw [names_append, dragsAfter_append, h]
  rfl

/-- The first two bytes of the packet that a byte completes. -/
def completes (data : UInt8) (d : Driver) : Option (UInt8 × UInt8) :=
  let buffer := Function.update d.mouseBuffer d.mouseBufferIndex data
  let index := nextIndex d.mouseBufferIndex
  if d.numMousePackets + 1 ≥ 3 ∧ validFirst (buffer index) then
    some (buffer index, buffer (nextIndex index))
  else none

/-- A packet looks at the mouse and the time only. -/
theorem packet_congr (W H : Nat) (b0 b1 b2 : UInt8) (tsc : UInt64) (d d' : Driver)
    (hmouse : d'.mouse = d.mouse) (htsc : d'.oldTsc = d.oldTsc) :
    (packet W H b0 b1 b2 tsc d').1.mouse = (packet W H b0 b1 b2 tsc d).1.mouse ∧
      (packet W H b0 b1 b2 tsc d').2 = (packet W H b0 b1 b2 tsc d).2 := by
  have hthrottled : throttled d' tsc = throttled d tsc := by rw [throttled, throttled, htsc]
  simp only [packet, hthrottled, hmouse]
  cases throttled d tsc
  · exact ⟨rfl, rfl⟩
  · exact ⟨rfl, rfl⟩

/-- What a byte does to the mouse. -/
theorem mousePacket_eq (W H : Nat) (data : UInt8) (tsc : UInt64) (d : Driver) :
    ((mousePacket W H data tsc d).1.mouse, (mousePacket W H data tsc d).2) =
      match completes data d with
      | some b => ((packet W H b.1 b.2 data tsc d).1.mouse, (packet W H b.1 b.2 data tsc d).2)
      | none => (d.mouse, []) := by
  rw [mousePacket, completes]
  by_cases hcount : d.numMousePackets + 1 ≥ 3
  · by_cases hfirst : validFirst (Function.update d.mouseBuffer d.mouseBufferIndex data
        (nextIndex d.mouseBufferIndex)) = true
    · simp only [hcount, hfirst, if_true, and_self]
      obtain ⟨hmouse, hposted⟩ := packet_congr W H
        (Function.update d.mouseBuffer d.mouseBufferIndex data (nextIndex d.mouseBufferIndex))
        (Function.update d.mouseBuffer d.mouseBufferIndex data
          (nextIndex (nextIndex d.mouseBufferIndex))) data tsc d
        { d with
          mouseBuffer := Function.update d.mouseBuffer d.mouseBufferIndex data
          mouseBufferIndex := nextIndex d.mouseBufferIndex
          numMousePackets := d.numMousePackets + 1 } rfl rfl
      exact Prod.ext hmouse hposted
    · simp [hcount, hfirst]
  · simp [hcount]

/-- The mouse at a throttled motion step with the button held. -/
def heldMotion (W H : Nat) (data : UInt8) (tsc : UInt64) (d : Driver) : Option MouseState :=
  (completes data d).bind fun b =>
    let moved := d.mouse.moved W H b.1 b.2 data
    let mouse := (leftButton b.1 moved moved.event).1
    if throttled d tsc ∧ (mouse.oldX ≠ mouse.x ∨ mouse.oldY ≠ mouse.y) ∧ mouse.lbutton then
      some mouse
    else none

/-- A byte does not begin a drag within the click box. -/
def LeavesBox (W H : Nat) (s : MouseSys) : MouseOp → Prop
  | .byte data tsc => ∀ mouse ∈ heldMotion W H data tsc s.driver, mouse.ldrag = false →
      mouse.inClickBox = false
  | _ => True

instance (W H : Nat) (s : MouseSys) : (op : MouseOp) → Decidable (LeavesBox W H s op)
  | .byte data tsc => inferInstanceAs (Decidable (∀ mouse ∈ heldMotion W H data tsc s.driver, _))
  | .storeOldX => isTrue trivial
  | .storeOldY => isTrue trivial

/-- The pointer is seen outside the click box with the button held: then a drag has been started. -/
def SeenOutside (W H : Nat) (s : MouseSys) : MouseOp → Prop
  | .byte data tsc => ∀ mouse ∈ heldMotion W H data tsc s.driver, mouse.inClickBox = false →
      ∀ s', (ps2 W H).step s (.byte data tsc) = some s' →
        ∃ d, dragsAfter ⟨0, false⟩ (names s'.posted) = some d ∧ d.starts = 1
  | _ => True

/-- The events agree with the flags of the mouse. -/
structure Drags.Agree (d : Drags) (mouse : MouseState) : Prop where
  opened : d.opened = mouse.ldrag
  dragging : mouse.ldrag = true → mouse.lbutton = true ∧ d.starts = 1
  held : mouse.lbutton = true → mouse.ldrag = false → d.starts = 0

section

variable {W H : Nat} {d : Drags} {mouse : MouseState} {e : MouseEvent} {b0 b1 b2 : UInt8}

theorem leftButton_drags (b0 : UInt8) (e : MouseEvent) (h : d.Agree mouse) :
    ∃ d', dragsAfter d (names (leftButton b0 mouse e).2.2) = some d' ∧
      d'.Agree (leftButton b0 mouse e).1 := by
  rw [leftButton]
  split
  case isTrue =>
    split
    case isTrue => exact ⟨d, rfl, h⟩
    case isFalse hup =>
      have hdrag : mouse.ldrag = false := by
        by_contra hdrag
        exact hup (h.dragging (by simpa using hdrag)).1
      refine ⟨{ d with starts := 0 }, rfl, h.opened, ?_, fun _ _ => rfl⟩
      exact fun hdrag' => absurd hdrag' (by simp [hdrag])
  case isFalse =>
    obtain ⟨d₁, hend, hopened⟩ : ∃ d₁, dragsAfter d
        (names (if mouse.ldrag then [(.mouseLeftDragEnd, e)] else [])) = some d₁ ∧
        d₁.opened = false := by
      split
      case isTrue hdrag =>
        refine ⟨{ d with opened := false }, ?_, rfl⟩
        simp [names, dragsAfter, (h.dragging hdrag).2]
      case isFalse hdrag => exact ⟨d, rfl, h.opened.trans (by simpa using hdrag)⟩
    have hagree : ∀ mouse' : MouseState, mouse'.ldrag = false → mouse'.lbutton = false →
        d₁.Agree mouse' := by
      intro mouse' hdrag hup
      exact ⟨hopened.trans hdrag.symm, fun hdrag' => absurd hdrag' (by simp [hdrag]),
        fun hheld => absurd hheld (by simp [hup])⟩
    simp only
    split
    case isTrue =>
      split
      · refine ⟨d₁, ?_, hagree _ rfl rfl⟩
        rw [dragsAfter_names_append _ hend]
        simp [names, dragsAfter, hopened]
      · refine ⟨d₁, ?_, hagree _ rfl rfl⟩
        rw [dragsAfter_names_append _ hend]
        simp [names, dragsAfter, hopened]
    case isFalse hup => exact ⟨d₁, hend, hagree _ rfl (by simpa using hup)⟩

theorem motion_drags (e : MouseEvent) (h : d.Agree mouse)
    (hbox : (mouse.oldX ≠ mouse.x ∨ mouse.oldY ≠ mouse.y) → mouse.lbutton = true →
      mouse.ldrag = false → mouse.inClickBox = false) :
    ∃ d', dragsAfter d (names (motion mouse e).2) = some d' ∧ d'.Agree (motion mouse e).1 ∧
      ((mouse.oldX ≠ mouse.x ∨ mouse.oldY ≠ mouse.y) → mouse.lbutton = true → d'.starts = 1 ∨
        mouse.inClickBox = true) := by
  rw [motion]
  split
  case isTrue hmoved =>
    split
    case isTrue hbegin =>
      obtain ⟨hheld, hdrag⟩ := hbegin
      have hdrag' : mouse.ldrag = false := by simpa using hdrag
      have hstarts := h.held hheld hdrag'
      refine ⟨⟨1, true⟩, ?_, ⟨rfl, fun _ => ⟨hheld, rfl⟩, ?_⟩, fun _ _ => .inl rfl⟩
      · simp [names, dragsAfter, hbox hmoved hheld hdrag', hstarts]
      · intro _ hfalse
        cases hfalse
    case isFalse hbegin =>
      refine ⟨d, rfl, h, fun _ hheld => .inl (h.dragging ?_).2⟩
      by_contra hdrag
      exact hbegin ⟨hheld, hdrag⟩
  case isFalse hstill => exact ⟨d, rfl, h, fun hmoved => absurd hmoved hstill⟩

/-- A byte. -/
theorem mousePacket_drags {driver : Driver} {data : UInt8} {tsc : UInt64}
    (h : d.Agree driver.mouse)
    (hbox : ∀ mouse ∈ heldMotion W H data tsc driver, mouse.ldrag = false →
      mouse.inClickBox = false) :
    ∃ d', dragsAfter d (names (mousePacket W H data tsc driver).2) = some d' ∧
      d'.Agree (mousePacket W H data tsc driver).1.mouse ∧
      ∀ mouse ∈ heldMotion W H data tsc driver, mouse.inClickBox = false → d'.starts = 1 := by
  have heq := mousePacket_eq W H data tsc driver
  rw [heldMotion] at hbox ⊢
  cases hb : completes data driver with
  | none =>
    rw [hb] at heq
    obtain ⟨hmouse, hposted⟩ := Prod.mk.inj heq
    rw [hmouse, hposted]
    refine ⟨d, rfl, h, ?_⟩
    intro _ hmem
    cases hmem
  | some b =>
    rw [hb] at heq hbox
    obtain ⟨hmouse, hposted⟩ := Prod.mk.inj heq
    rw [hmouse, hposted]
    -- a packet: first its button, then, if it is not throttled, its motion
    have hmoved : d.Agree (driver.mouse.moved W H b.1 b.2 data) :=
      ⟨h.opened, h.dragging, h.held⟩
    simp only [Option.bind_some] at hbox ⊢
    obtain ⟨d₁, hleft, hagree⟩ := leftButton_drags b.1
      (driver.mouse.moved W H b.1 b.2 data).event hmoved
    rw [packet]
    simp only
    cases hthrottled : throttled driver tsc with
    | false =>
      refine ⟨d₁, hleft, hagree, ?_⟩
      simp
    | true =>
      simp only [hthrottled, true_and, if_true] at hbox ⊢
      generalize (leftButton b.1 (driver.mouse.moved W H b.1 b.2 data)
        (driver.mouse.moved W H b.1 b.2 data).event).1 = mouse₁ at hagree hbox ⊢
      obtain ⟨d', hmotion, hagree', hstarted⟩ := motion_drags _ hagree
        fun hchanged hheld hdrag => hbox mouse₁ (by simp [hchanged, hheld]) hdrag
      refine ⟨d', ?_, hagree', ?_⟩
      · rw [dragsAfter_names_append _ hleft]
        exact hmotion
      · intro mouse hmem houtside
        split at hmem
        case isTrue hseen =>
          cases hmem
          exact (hstarted hseen.1 hseen.2).resolve_right (by simp [houtside])
        case isFalse => cases hmem

end

/-- What holds between two bytes. -/
def DragInv (s : MouseSys) : Prop :=
  ∃ d, dragsAfter ⟨0, false⟩ (names s.posted) = some d ∧ d.Agree s.driver.mouse

/-- One step that begins no drag within the click box. -/
theorem drag_step {W H : Nat} {s : MouseSys} {op : MouseOp} (h : DragInv s)
    (hbox : LeavesBox W H s op) :
    SeenOutside W H s op ∧ ∀ s', (ps2 W H).step s op = some s' → DragInv s' := by
  obtain ⟨d, hposted, hagree⟩ := h
  cases op with
  | byte data tsc =>
    obtain ⟨d', hevents, hagree', hseen⟩ := mousePacket_drags hagree hbox
    have hall : dragsAfter ⟨0, false⟩
        (names (s.posted ++ (mousePacket W H data tsc s.driver).2)) = some d' := by
      rw [dragsAfter_names_append _ hposted]
      exact hevents
    refine ⟨?_, ?_⟩
    · intro mouse hmem houtside s' hstep
      cases hstep
      exact ⟨d', hall, hseen mouse hmem houtside⟩
    · intro s' hstep
      cases hstep
      exact ⟨d', hall, hagree'⟩
  | storeOldX =>
    refine ⟨trivial, ?_⟩
    intro s' hstep
    cases hstep
    exact ⟨d, hposted, hagree.opened, hagree.dragging, hagree.held⟩
  | storeOldY =>
    refine ⟨trivial, ?_⟩
    intro s' hstep
    cases hstep
    exact ⟨d, hposted, hagree.opened, hagree.dragging, hagree.held⟩

/-- **Drags are bracketed** in every run of the driver, from no button and no drag, that begins no drag
within the click box; and then a drag has been started whenever the pointer is seen outside. -/
theorem drags_bracketed {W H : Nat} {s : MouseSys} (hinit : (ps2 W H).init s)
    (hdrag : s.driver.mouse.ldrag = false) (ops : List MouseOp)
    (hbox : (ps2 W H).Steps (LeavesBox W H) s ops) :
    (ps2 W H).States (fun s => dragsAfter ⟨0, false⟩ (names s.posted) ≠ none) s ops ∧
      (ps2 W H).Steps (SeenOutside W H) s ops := by
  have hstart : DragInv s := by
    obtain ⟨-, hup, hnone⟩ := hinit
    refine ⟨⟨0, false⟩, by rw [hnone]; rfl, hdrag.symm, ?_, fun _ _ => rfl⟩
    exact fun hdrag' => absurd (hdrag.symm.trans hdrag') (by simp)
  have hstep : ∀ s op s', DragInv s → LeavesBox W H s op → (ps2 W H).step s op = some s' →
      DragInv s' := fun s op s' h hop => (drag_step h hop).2 s'
  refine ⟨Machine.states_of_steps (I := DragInv) ?_ hstep hstart hbox,
    Machine.steps_of_steps (I := DragInv) (fun s op h hop => (drag_step h hop).1) hstep hstart hbox⟩
  rintro s ⟨d, hposted, -⟩
  rw [hposted]
  exact Option.some_ne_none d

/-- A press, a drag by 20 pixels and a release. -/
theorem drags_bracketed_example :
    (ps2 800 600).Steps (LeavesBox 800 600) ⟨Driver.start 200 150, []⟩
      [.byte 0x09 1, .byte 0 2, .byte 0 3, .byte 0x09 4, .byte 20 5, .byte 0 0x05000000,
        .byte 0x08 0x05000001, .byte 0 0x05000002, .byte 0 0x05000003] ∧
    (ps2 800 600).States (fun s => dragsAfter ⟨0, false⟩ (names s.posted) ≠ none)
      ⟨Driver.start 200 150, []⟩
      [.byte 0x09 1, .byte 0 2, .byte 0 3, .byte 0x09 4, .byte 20 5, .byte 0 0x05000000,
        .byte 0x08 0x05000001, .byte 0 0x05000002, .byte 0 0x05000003] ∧
    (ps2 800 600).Steps (SeenOutside 800 600) ⟨Driver.start 200 150, []⟩
      [.byte 0x09 1, .byte 0 2, .byte 0 3, .byte 0x09 4, .byte 20 5, .byte 0 0x05000000,
        .byte 0x08 0x05000001, .byte 0 0x05000002, .byte 0 0x05000003] :=
  ⟨by decide, drags_bracketed ⟨by simp [OnScreen, Driver.start], rfl, rfl⟩ rfl _ (by decide)⟩

/-- The pointer moves by one pixel with the press: the release ends a drag nobody has started. -/
theorem drag_unopened : ∃ s, (ps2 800 600).exec ⟨Driver.start 200 150, []⟩
      [.byte 0x09 1, .byte 1 2, .byte 0 0x05000000, .byte 0x08 0x05000001, .byte 0 0x05000002,
        .byte 0 0x05000003] = some s ∧
    names s.posted = [.mouseLeftDown, .mouseMove, .mouseLeftDragEnd, .mouseLeftUp, .mouseLeftClick] ∧
    dragsAfter ⟨0, false⟩ (names s.posted) = none :=
  ⟨_, rfl, by decide, by decide⟩

end Shipwreck.Input
