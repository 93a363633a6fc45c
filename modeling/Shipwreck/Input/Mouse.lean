import Shipwreck.Input.Keyboard

/-!
# The mouse

`mouse_packet` of `ps2.cpp`. The bytes of the mouse go through a ring of three; when three have come
whose first one can be the first byte of a packet, the pointer is moved and the events are posted, and
otherwise the ring slides on by one byte. The worker that handles `MOUSE_MOVE` stores the position it
has seen into `old_x` and `old_y`.

`mouse_sane` says what holds of the pointer and of all events, whatever the bytes are.
-/

namespace Shipwreck.Input

/-- `struct MouseEvent`. -/
structure MouseEvent where
  x : BitVec 12
  y : BitVec 12
  lbutton : Bool
  rbutton : Bool
  deriving DecidableEq, Repr

/-- `struct MouseState`. -/
structure MouseState where
  x : Int
  y : Int
  oldX : Int
  oldY : Int
  lclickX : Int
  lclickY : Int
  lbutton : Bool
  ldrag : Bool
  deriving DecidableEq, Repr

/-- The static variables of `ps2.cpp`. -/
structure Driver where
  mouseBuffer : Fin 3 → UInt8
  mouseBufferIndex : Fin 3
  numMousePackets : Nat
  oldTsc : UInt64
  mouse : MouseState

/-- What is posted for the event workers. -/
abbrev Post := UserEvents × MouseEvent

/-- `(mouse_buffer_index + 1) % 3` -/
def nextIndex (i : Fin 3) : Fin 3 := ⟨(i.val + 1) % 3, Nat.mod_lt _ (Nat.zero_lt_succ 2)⟩

/-- `if (mouse.x >= (int) VGA_WIDTH) mouse.x = VGA_WIDTH - 1; if (mouse.x < 0) mouse.x = 0;` -/
def clamp (width : Nat) (x : Int) : Int :=
  let x := if x ≥ width then (width : Int) - 1 else x
  if x < 0 then 0 else x

/-- The 9-bit difference of a packet: its low byte, and the sign at `bit` of the first byte. -/
def delta (b0 : UInt8) (bit : Nat) (low : UInt8) : Int :=
  low.toNat - (if b0.toNat.testBit bit then 256 else 0)

/-- The new position. -/
def MouseState.moved (W H : Nat) (b0 b1 b2 : UInt8) (mouse : MouseState) : MouseState :=
  { mouse with
    x := clamp W (mouse.x + delta b0 4 b1)
    y := clamp H (mouse.y - delta b0 5 b2) }

/-- Is the pointer within `CLICK_BOX` of where the button was pressed? -/
def MouseState.inClickBox (mouse : MouseState) : Bool :=
  CInt.toUint (mouse.x - mouse.lclickX + 4) < 8 && CInt.toUint (mouse.y - mouse.lclickY + 4) < 8

/-- The event at a position. -/
def MouseEvent.at (e : MouseEvent) (x y : Int) : MouseEvent :=
  { e with x := BitVec.ofInt 12 x, y := BitVec.ofInt 12 y }

/-- `MouseEvent m_event; m_event.x = mouse.x; m_event.y = mouse.y;` -/
def MouseState.event (mouse : MouseState) : MouseEvent :=
  MouseEvent.at ⟨0, 0, false, false⟩ mouse.x mouse.y

/-- The left button: what is posted, and `m_event` for what comes after. -/
def leftButton (b0 : UInt8) (mouse : MouseState) (e : MouseEvent) :
    MouseState × MouseEvent × List Post :=
  if b0 &&& 0x01 ≠ 0 then
    let e := { e with lbutton := true }
    if mouse.lbutton then (mouse, e, [])
    else ({ mouse with lbutton := true, lclickX := mouse.x, lclickY := mouse.y }, e,
      [(.mouseLeftDown, e)])
  else
    let dragEnd := if mouse.ldrag then [(.mouseLeftDragEnd, e)] else []
    let mouse := { mouse with ldrag := false }
    if mouse.lbutton then
      let mouse := { mouse with lbutton := false }
      if mouse.inClickBox then
        let click := e.at mouse.lclickX mouse.lclickY
        (mouse, click, dragEnd ++ [(.mouseLeftUp, e), (.mouseLeftClick, click)])
      else (mouse, e, dragEnd ++ [(.mouseLeftUp, e)])
    else (mouse, e, dragEnd)

/-- `if (b0 & 0x02) m_event.rbutton = 1;` -/
def rightButton (b0 : UInt8) (e : MouseEvent) : MouseEvent :=
  if b0 &&& 0x02 ≠ 0 then { e with rbutton := true } else e

/-- Motion and drags, if the last ones are long enough ago. -/
def motion (mouse : MouseState) (e : MouseEvent) : MouseState × List Post :=
  if mouse.oldX ≠ mouse.x ∨ mouse.oldY ≠ mouse.y then
    if mouse.lbutton ∧ ¬ mouse.ldrag then
      ({ mouse with ldrag := true }, (.mouseMove, e) ::
        if mouse.inClickBox then [] else [(.mouseLeftDragStart, e)])
    else (mouse, [(.mouseMove, e)])
  else (mouse, [])

/-- `diff_tsc > 0x04000000` -/
def throttled (d : Driver) (tsc : UInt64) : Bool := tsc - d.oldTsc > 0x04000000

/-- The packet `b0`, `b1`, `b2` has come. -/
def packet (W H : Nat) (b0 b1 b2 : UInt8) (tsc : UInt64) (d : Driver) : Driver × List Post :=
  let mouse := d.mouse.moved W H b0 b1 b2
  let left := leftButton b0 mouse mouse.event
  if throttled d tsc then
    let moved := motion left.1 (rightButton b0 left.2.1)
    ({ d with oldTsc := tsc, mouse := moved.1 }, left.2.2 ++ moved.2)
  else ({ d with mouse := left.1 }, left.2.2)

/-- `!((b0 & 0xC0) || !(b0 & 0x08))` -/
def validFirst (b0 : UInt8) : Bool := b0 &&& 0xC0 == 0 && b0 &&& 0x08 != 0

/-- `mouse_packet`. -/
def mousePacket (W H : Nat) (data : UInt8) (tsc : UInt64) (d : Driver) : Driver × List Post :=
  let buffer := Function.update d.mouseBuffer d.mouseBufferIndex data
  let index := nextIndex d.mouseBufferIndex
  let d := { d with
    mouseBuffer := buffer
    mouseBufferIndex := index
    numMousePackets := d.numMousePackets + 1 }
  if d.numMousePackets ≥ 3 then
    let b0 := buffer index
    let b1 := buffer (nextIndex index)
    if validFirst b0 then
      let result := packet W H b0 b1 data tsc d
      ({ result.1 with numMousePackets := 0, mouseBufferIndex := ⟨0, Nat.zero_lt_succ 2⟩ }, result.2)
    else ({ d with numMousePackets := 2 }, [])
  else (d, [])

/-! ## Runs -/

/-- The driver, and everything it has posted. -/
structure MouseSys where
  driver : Driver
  posted : List Post

/-- A byte comes from the mouse, or the worker stores one of the coordinates it has seen. -/
inductive MouseOp where
  | byte (data : UInt8) (tsc : UInt64)
  | storeOldX
  | storeOldY

/-- A position on the screen. -/
def OnScreen (W H : Nat) (x y : Int) : Prop := 0 ≤ x ∧ x < W ∧ 0 ≤ y ∧ y < H

/-- The mouse at a screen of `W` by `H` pixels: the pointer begins somewhere on it, with the button
up. -/
def ps2 (W H : Nat) : Machine MouseSys MouseOp where
  init s := OnScreen W H s.driver.mouse.x s.driver.mouse.y ∧ s.driver.mouse.lbutton = false ∧
    s.posted = []
  step s
    | .byte data tsc =>
      let result := mousePacket W H data tsc s.driver
      some ⟨result.1, s.posted ++ result.2⟩
    | .storeOldX =>
      some { s with driver.mouse.oldX := s.driver.mouse.x }
    | .storeOldY =>
      some { s with driver.mouse.oldY := s.driver.mouse.y }

/-- `VGA_PIXEL_OFFSET` -/
def pixelOffset (W : Nat) (x y : Int) : Int := y * W + x

/-- Whether the button is down after these events; `none` if a press does not come when it is up or a
release when it is down. -/
def buttonAfter : Bool → List UserEvents → Option Bool
  | down, [] => some down
  | down, .mouseLeftDown :: es => if down then none else buttonAfter true es
  | down, .mouseLeftUp :: es => if down then buttonAfter false es else none
  | down, _ :: es => buttonAfter down es

/-- Every click comes directly after a release. -/
def ClicksFollow (es : List UserEvents) : Prop :=
  ∀ pre post, es = pre ++ .mouseLeftClick :: post → pre.getLast? = some .mouseLeftUp

/-- What is posted. -/
def names (posted : List Post) : List UserEvents := posted.map Prod.fst

theorem names_append (posted posted' : List Post) :
    names (posted ++ posted') = names posted ++ names posted' :=
  List.map_append

section

variable {W H : Nat} {x y : Int} {es es' : List UserEvents} {down : Bool}

theorem clamp_bounds (h : 1 ≤ W) : 0 ≤ clamp W x ∧ clamp W x < W := by
  simp only [clamp]
  split <;> split <;> omega

/-- A coordinate on the screen fits into 12 bits. -/
theorem toInt_ofInt_coordinate (hW : W ≤ 2048) (h0 : 0 ≤ x) (h : x < W) :
    (BitVec.ofInt 12 x).toInt = x := by
  rw [BitVec.toInt_ofInt]
  apply Int.bmod_eq_of_le <;> omega

theorem pixelOffset_bounds (h : OnScreen W H x y) :
    0 ≤ pixelOffset W x y ∧ pixelOffset W x y < W * H := by
  obtain ⟨hx0, hx, hy0, hy⟩ := h
  have hrows : (y + 1) * W ≤ H * W := Int.mul_le_mul_of_nonneg_right (by omega) (by omega)
  have hrow : 0 ≤ y * W := Int.mul_nonneg hy0 (by omega)
  rw [Int.add_mul] at hrows
  rw [pixelOffset, Int.mul_comm W H]
  omega

theorem buttonAfter_append :
    buttonAfter down (es ++ es') = (buttonAfter down es).bind fun d => buttonAfter d es' := by
  induction es generalizing down with
  | nil => rfl
  | cons e es ih =>
    cases e <;> simp only [List.cons_append, buttonAfter, ih]
    · cases down <;> rfl
    · cases down <;> rfl

theorem ClicksFollow.of_not_mem (h : .mouseLeftClick ∉ es) : ClicksFollow es := by
  rintro pre post rfl
  exact absurd (List.mem_append_right pre List.mem_cons_self) h

theorem ClicksFollow.append (h : ClicksFollow es) (h' : ClicksFollow es') :
    ClicksFollow (es ++ es') := by
  intro pre post heq
  rcases List.append_eq_append_iff.mp heq with ⟨mid, rfl, hmid⟩ | ⟨mid, hes, hmid⟩
  · have hlast := h' mid post hmid
    rw [List.getLast?_append, hlast]
    rfl
  · cases mid with
    | nil =>
      have hlast := h' [] post hmid.symm
      cases hlast
    | cons e mid =>
      cases hmid
      exact h pre mid hes

theorem ClicksFollow.click : ClicksFollow [.mouseLeftUp, .mouseLeftClick] := by
  intro pre post heq
  match pre, heq with
  | [], heq => cases heq
  | [e], heq =>
    rw [List.singleton_append, List.cons.injEq] at heq
    rw [← heq.1]
    rfl
  | e :: e' :: pre, heq =>
    have hlen := congrArg List.length heq
    simp at hlen

end

/-- An event that unpacks to a position on the screen. -/
def MouseEvent.OnScreen (W H : Nat) (e : MouseEvent) : Prop :=
  Input.OnScreen W H e.x.toInt e.y.toInt

/-- What is true of the mouse between two bytes. -/
structure MouseState.Sane (W H : Nat) (mouse : MouseState) : Prop where
  screen : OnScreen W H mouse.x mouse.y
  click : mouse.lbutton = true → OnScreen W H mouse.lclickX mouse.lclickY

/-- Events that may be posted when the button is down or up, and what they leave it. -/
structure Sequel (W H : Nat) (down : Bool) (posted : List Post) (after : Bool) : Prop where
  screen : ∀ p ∈ posted, p.2.OnScreen W H
  button : buttonAfter down (names posted) = some after
  clicks : ClicksFollow (names posted)

section

variable {W H : Nat} {mouse : MouseState} {e : MouseEvent} {b0 b1 b2 : UInt8}
variable {down down' down'' : Bool} {posted posted' : List Post} {x y : Int}

theorem Sequel.nil (W H : Nat) (down : Bool) : Sequel W H down [] down where
  screen _ hp := absurd hp List.not_mem_nil
  button := rfl
  clicks := .of_not_mem List.not_mem_nil

theorem Sequel.append (h : Sequel W H down posted down') (h' : Sequel W H down' posted' down'') :
    Sequel W H down (posted ++ posted') down'' where
  screen p hp := (List.mem_append.mp hp).elim (h.screen p) (h'.screen p)
  button := by
    rw [names_append, buttonAfter_append, h.button]
    exact h'.button
  clicks := by
    rw [names_append]
    exact h.clicks.append h'.clicks

/-- One event that is no click. -/
theorem Sequel.single {name : UserEvents} (he : e.OnScreen W H) (hname : name ≠ .mouseLeftClick)
    (hbutton : buttonAfter down [name] = some down') : Sequel W H down [(name, e)] down' where
  screen p hp := by
    rw [List.mem_singleton.mp hp]
    exact he
  button := hbutton
  clicks := .of_not_mem fun hmem => hname (List.mem_singleton.mp hmem).symm

theorem onScreen_at (hW : W ≤ 2048) (hH : H ≤ 2048) (h : OnScreen W H x y) :
    (e.at x y).OnScreen W H := by
  rw [MouseEvent.OnScreen, MouseEvent.at, toInt_ofInt_coordinate hW h.1 h.2.1,
    toInt_ofInt_coordinate hH h.2.2.1 h.2.2.2]
  exact h

/-- The left button changes no position. -/
theorem leftButton_sane (b0 : UInt8) (hW : W ≤ 2048) (hH : H ≤ 2048) (h : mouse.Sane W H)
    (he : e.OnScreen W H) :
    (leftButton b0 mouse e).1.Sane W H ∧ (leftButton b0 mouse e).2.1.OnScreen W H ∧
      Sequel W H mouse.lbutton (leftButton b0 mouse e).2.2 (leftButton b0 mouse e).1.lbutton := by
  rw [leftButton]
  split
  case isTrue =>
    split
    case isTrue hheld => exact ⟨h, he, hheld ▸ Sequel.nil W H _⟩
    case isFalse hup =>
      refine ⟨⟨h.screen, fun _ => h.screen⟩, he, ?_⟩
      exact .single he (by simp) (by simp [buttonAfter, hup])
  case isFalse =>
    have hend : Sequel W H mouse.lbutton
        (if mouse.ldrag then [(.mouseLeftDragEnd, e)] else []) mouse.lbutton := by
      split
      · exact .single he (by simp) rfl
      · exact .nil W H _
    simp only
    split
    case isTrue hheld =>
      have hup : Sequel W H mouse.lbutton [(.mouseLeftUp, e)] false :=
        .single he (by simp) (by simp [buttonAfter, hheld])
      split
      case isTrue =>
        have hclick := onScreen_at (e := e) hW hH (h.click hheld)
        refine ⟨⟨h.screen, nofun⟩, hclick, hend.append ⟨?_, ?_, .click⟩⟩
        · intro p hp
          simp only [List.mem_cons, List.not_mem_nil, or_false] at hp
          rcases hp with rfl | rfl
          · exact he
          · exact hclick
        · simp [names, buttonAfter, hheld]
      case isFalse => exact ⟨⟨h.screen, nofun⟩, he, hend.append hup⟩
    case isFalse hup =>
      have hlbutton : mouse.lbutton = false := by simpa using hup
      refine ⟨⟨h.screen, fun hheld => absurd hheld hup⟩, he, ?_⟩
      exact hend

theorem motion_sane (h : mouse.Sane W H) (he : e.OnScreen W H) :
    (motion mouse e).1.Sane W H ∧
      Sequel W H mouse.lbutton (motion mouse e).2 (motion mouse e).1.lbutton := by
  have hmove : Sequel W H mouse.lbutton [(.mouseMove, e)] mouse.lbutton :=
    .single he (by simp) rfl
  rw [motion]
  split
  case isTrue =>
    split
    case isTrue =>
      refine ⟨⟨h.screen, h.click⟩, ?_⟩
      split
      · exact hmove
      · exact hmove.append (.single he (by simp) rfl)
    case isFalse => exact ⟨h, hmove⟩
  case isFalse => exact ⟨h, .nil W H _⟩

theorem rightButton_onScreen (b0 : UInt8) (he : e.OnScreen W H) : (rightButton b0 e).OnScreen W H := by
  rw [rightButton]
  split
  · exact he
  · exact he

/-- A packet. -/
theorem packet_sane (hW1 : 1 ≤ W) (hH1 : 1 ≤ H) (hW : W ≤ 2048) (hH : H ≤ 2048) {d : Driver}
    (tsc : UInt64) (h : d.mouse.Sane W H) :
    (packet W H b0 b1 b2 tsc d).1.mouse.Sane W H ∧ Sequel W H d.mouse.lbutton
      (packet W H b0 b1 b2 tsc d).2 (packet W H b0 b1 b2 tsc d).1.mouse.lbutton := by
  have hmoved : (d.mouse.moved W H b0 b1 b2).Sane W H := by
    obtain ⟨hx0, hx⟩ := clamp_bounds (x := d.mouse.x + delta b0 4 b1) hW1
    obtain ⟨hy0, hy⟩ := clamp_bounds (x := d.mouse.y - delta b0 5 b2) hH1
    exact ⟨⟨hx0, hx, hy0, hy⟩, h.click⟩
  have hevent : (d.mouse.moved W H b0 b1 b2).event.OnScreen W H := onScreen_at hW hH hmoved.screen
  obtain ⟨hleft, he, hposted⟩ := leftButton_sane b0 hW hH hmoved hevent
  rw [packet]
  simp only
  split
  case isTrue =>
    obtain ⟨hmotion, hposted'⟩ := motion_sane hleft (rightButton_onScreen b0 he)
    exact ⟨hmotion, hposted.append hposted'⟩
  case isFalse => exact ⟨hleft, hposted⟩

/-- A byte. -/
theorem mousePacket_sane (hW1 : 1 ≤ W) (hH1 : 1 ≤ H) (hW : W ≤ 2048) (hH : H ≤ 2048) {d : Driver}
    (data : UInt8) (tsc : UInt64) (h : d.mouse.Sane W H) :
    (mousePacket W H data tsc d).1.mouse.Sane W H ∧ Sequel W H d.mouse.lbutton
      (mousePacket W H data tsc d).2 (mousePacket W H data tsc d).1.mouse.lbutton := by
  rw [mousePacket]
  simp only
  split
  case isTrue =>
    split
    case isTrue => exact packet_sane hW1 hH1 hW hH tsc h
    case isFalse => exact ⟨h, .nil W H _⟩
  case isFalse => exact ⟨h, .nil W H _⟩

/-- The left button does not move the pointer. -/
theorem leftButton_position (b0 : UInt8) (mouse : MouseState) (e : MouseEvent) :
    (leftButton b0 mouse e).1.x = mouse.x ∧ (leftButton b0 mouse e).1.y = mouse.y := by
  simp only [leftButton]
  split
  · split <;> exact ⟨rfl, rfl⟩
  · split
    · split <;> exact ⟨rfl, rfl⟩
    · exact ⟨rfl, rfl⟩

theorem motion_position (mouse : MouseState) (e : MouseEvent) :
    (motion mouse e).1.x = mouse.x ∧ (motion mouse e).1.y = mouse.y := by
  unfold motion
  split
  · split <;> exact ⟨rfl, rfl⟩
  · exact ⟨rfl, rfl⟩

/-- A packet leaves the pointer where `moved` puts it. -/
theorem packet_moved (b0 b1 b2 : UInt8) (tsc : UInt64) (d : Driver) :
    (packet W H b0 b1 b2 tsc d).1.mouse.x = (d.mouse.moved W H b0 b1 b2).x ∧
      (packet W H b0 b1 b2 tsc d).1.mouse.y = (d.mouse.moved W H b0 b1 b2).y := by
  have hleft := leftButton_position b0 (d.mouse.moved W H b0 b1 b2)
    (d.mouse.moved W H b0 b1 b2).event
  unfold packet
  simp only
  split
  · rw [(motion_position _ _).1, (motion_position _ _).2]
    exact hleft
  · exact hleft

/-- **The pointer stays on the screen**, however large it is. -/
theorem mouse_onScreen {s : MouseSys} (hs : (ps2 W H).Reachable s) :
    OnScreen W H s.driver.mouse.x s.driver.mouse.y := by
  refine hs.invariant (P := fun s => OnScreen W H s.driver.mouse.x s.driver.mouse.y) ?_ ?_
  · rintro s ⟨hscreen, -, -⟩
    exact hscreen
  · intro s op s' hscreen hstep
    cases op with
    | byte data tsc =>
      cases hstep
      show OnScreen W H (mousePacket W H data tsc s.driver).1.mouse.x
        (mousePacket W H data tsc s.driver).1.mouse.y
      unfold mousePacket
      simp only
      split
      · split
        · rw [(packet_moved _ _ _ _ _).1, (packet_moved _ _ _ _ _).2]
          obtain ⟨hx0, hx, hy0, hy⟩ := hscreen
          obtain ⟨hcx0, hcx⟩ := clamp_bounds (W := W) (x := _) (by omega)
          obtain ⟨hcy0, hcy⟩ := clamp_bounds (W := H) (x := _) (by omega)
          exact ⟨hcx0, hcx, hcy0, hcy⟩
        · exact hscreen
      · exact hscreen
    | storeOldX =>
      cases hstep
      exact hscreen
    | storeOldY =>
      cases hstep
      exact hscreen

/-- What holds between two bytes. -/
def MouseInv (W H : Nat) (s : MouseSys) : Prop :=
  s.driver.mouse.Sane W H ∧ Sequel W H false s.posted s.driver.mouse.lbutton

/-- **The mouse is sane**: whatever bytes come and whenever, the pointer and all events are on the
screen, presses and releases alternate, and clicks come directly after releases. -/
theorem mouse_sane (hW1 : 1 ≤ W) (hH1 : 1 ≤ H) (hW : W ≤ 2048) (hH : H ≤ 2048) {s : MouseSys}
    (hs : (ps2 W H).Reachable s) :
    OnScreen W H s.driver.mouse.x s.driver.mouse.y ∧
      (∀ p ∈ s.posted, OnScreen W H p.2.x.toInt p.2.y.toInt ∧
        0 ≤ pixelOffset W p.2.x.toInt p.2.y.toInt ∧
        pixelOffset W p.2.x.toInt p.2.y.toInt < W * H) ∧
      buttonAfter false (names s.posted) ≠ none ∧ ClicksFollow (names s.posted) := by
  obtain ⟨hsane, hposted⟩ : MouseInv W H s := by
    refine hs.invariant (P := MouseInv W H) ?_ ?_
    · rintro s ⟨hscreen, hup, hnone⟩
      rw [MouseInv, hnone, hup]
      exact ⟨⟨hscreen, fun hheld => absurd (hup.symm.trans hheld) (by simp)⟩, .nil W H _⟩
    · rintro s op s' ⟨hsane, hposted⟩ hstep
      cases op with
      | byte data tsc =>
        cases hstep
        obtain ⟨hsane', hposted'⟩ := mousePacket_sane hW1 hH1 hW hH data tsc hsane
        exact ⟨hsane', hposted.append hposted'⟩
      | storeOldX =>
        cases hstep
        exact ⟨⟨hsane.screen, hsane.click⟩, hposted⟩
      | storeOldY =>
        cases hstep
        exact ⟨⟨hsane.screen, hsane.click⟩, hposted⟩
  refine ⟨hsane.screen, ?_, ?_, hposted.clicks⟩
  · intro p hp
    have hscreen := hposted.screen p hp
    exact ⟨hscreen, pixelOffset_bounds hscreen⟩
  · rw [hposted.button]
    exact Option.some_ne_none _

end

/-- The driver as `init_ps2` leaves it, with the pointer at `(x, y)`. -/
def Driver.start (x y : Int) : Driver where
  mouseBuffer _ := 0
  mouseBufferIndex := ⟨0, Nat.zero_lt_succ 2⟩
  numMousePackets := 0
  oldTsc := 0
  mouse := ⟨x, y, x, y, 0, 0, false, false⟩

/-- A press and a release, behind a stray byte. -/
theorem mouse_sane_example :
    ((ps2 800 600).exec ⟨Driver.start 200 150, []⟩ [.byte 0xFF 0, .byte 0x09 1, .byte 5 2, .byte 7 3,
      .byte 0x08 4, .byte 1 5, .byte 1 6]).isSome = true ∧
    ∀ s, (ps2 800 600).exec ⟨Driver.start 200 150, []⟩ [.byte 0xFF 0, .byte 0x09 1, .byte 5 2,
        .byte 7 3, .byte 0x08 4, .byte 1 5, .byte 1 6] = some s →
      OnScreen 800 600 s.driver.mouse.x s.driver.mouse.y ∧
      (∀ p ∈ s.posted, OnScreen 800 600 p.2.x.toInt p.2.y.toInt ∧
        0 ≤ pixelOffset 800 p.2.x.toInt p.2.y.toInt ∧
        pixelOffset 800 p.2.x.toInt p.2.y.toInt < (800 : Nat) * (600 : Nat)) ∧
      buttonAfter false (names s.posted) ≠ none ∧ ClicksFollow (names s.posted) :=
  ⟨rfl, fun s hs => mouse_sane (by decide) (by decide) (by decide) (by decide)
    ⟨⟨Driver.start 200 150, []⟩, _, ⟨by simp [OnScreen, Driver.start], rfl, rfl⟩, hs⟩⟩

end Shipwreck.Input
