import Shipwreck.Lib.RingBuffer
import Shipwreck.Lib.Transition
import Shipwreck.Gui.Window

/-!
# Text boxes

`TextBox` of `gui/objects.h`: its rows of `W` characters are kept in a ring of `H` rows, from `head` to
`tail`, with a mark at `tail` and a blank row behind the text when it ends with a row. `print` moves
`head` on by one row when the ring is full, whatever the number of rows that it has filled.
-/

namespace Shipwreck.Gui

/-- `'\n'`, `' '` and `'_'` -/
def newline : UInt8 := 10

def space : UInt8 := 32

def cursor : UInt8 := 95

/-- `CHAR_SPACING_X` and `CHAR_SPACING_Y` -/
def charSpacingX : Int32 := 8

def charSpacingY : Int32 := 20

/-- A `TextBox` and the `Buffer<>` it displays. The constant members `char_w`, `char_h` and `max` of the
buffer are `W`, `H` and `W * H`. -/
structure TextBox where
  rect : Rect
  redrawRect : Rect
  needsRedraw : Bool
  offsetX : Int32
  offsetY : Int32
  head : Nat
  tail : Nat
  text : Nat → UInt8

namespace TextBox

/-- `set_redraw_rect(old_cursor, new_cursor)` -/
def setRedrawRect (W oldCursor newCursor : Nat) (box : TextBox) : TextBox :=
  if oldCursor = newCursor then box
  else
    let newX := Int32.ofNat (newCursor % W) * charSpacingX + box.offsetX
    let newY := Int32.ofNat (newCursor / W) * charSpacingY + box.offsetY
    let rectW := box.rect.r - box.rect.l
    let rectH := box.rect.b - box.rect.t
    if newY < 0 then
      { box with offsetY := box.offsetY - newY, redrawRect := ⟨0, 0, rectW, rectH⟩, needsRedraw := true }
    else if newY + charSpacingY > rectH then
      { box with
        offsetY := box.offsetY + (rectH - (newY + charSpacingY))
        redrawRect := ⟨0, 0, rectW, rectH⟩
        needsRedraw := true }
    else
      let oldX := Int32.ofNat (oldCursor % W) * charSpacingX + box.offsetX
      let oldY := Int32.ofNat (oldCursor / W) * charSpacingY + box.offsetY
      let (t, b) := if oldY < newY then (oldY, newY + charSpacingY) else (newY, oldY + charSpacingY)
      let (l, r) :=
        if oldY = newY then
          if oldX < newX then (oldX, newX + charSpacingX) else (newX, oldX + charSpacingX)
        else (0, rectW)
      { box with redrawRect := ⟨l, t, r, b⟩, needsRedraw := true }

/-- `backspace()` -/
def backspace (W H : Nat) (box : TextBox) : TextBox :=
  if box.head ≥ box.tail then box
  else
    let text := RingBuffer.write (W * H) box.tail space box.text
    let text := RingBuffer.write (W * H) (box.tail - 1) cursor text
    setRedrawRect W box.tail (box.tail - 1) { box with tail := box.tail - 1, text := text }

/-- `buf->text[buf->tail % buf->max] = c; buf->tail++;` -/
def put (W H : Nat) (c : UInt8) (box : TextBox) : TextBox :=
  { box with text := RingBuffer.write (W * H) box.tail c box.text, tail := box.tail + 1 }

/-- One round of the loop of `print`. -/
def putChar (W H : Nat) (box : TextBox) (c : UInt8) : TextBox :=
  if c = newline then (put W H space)^[W - box.tail % W] box else put W H c box

/-- `buf->head += buf->char_w` if the text does not fit any more. -/
def scroll (W H : Nat) (box : TextBox) : TextBox :=
  if box.tail - box.head ≥ W * H then { box with head := box.head + W } else box

/-- The next row is made blank when it is begun. -/
def blank (W H : Nat) (box : TextBox) : TextBox :=
  if box.tail % W = 0 then
    { box with
      text := (List.range W).foldl (fun text i => RingBuffer.write (W * H) (box.tail + i) space text)
        box.text }
  else box

/-- The last `max` bytes of a string. -/
def lastBytes (max : Nat) (buffer : List UInt8) : List UInt8 := buffer.drop (buffer.length - max)

/-- `print(buffer, len)` -/
def print (W H : Nat) (buffer : List UInt8) (box : TextBox) : TextBox :=
  let printed := blank W H (scroll W H ((lastBytes (W * H) buffer).foldl (putChar W H) box))
  setRedrawRect W box.tail printed.tail
    { printed with text := RingBuffer.write (W * H) printed.tail cursor printed.text }

end TextBox

/-! ## The text -/

/-- The text after one more character: a newline is filled up with spaces to the end of the row. -/
def typesetChar (W : Nat) (text : List UInt8) (c : UInt8) : List UInt8 :=
  if c = newline then text ++ List.replicate (W - text.length % W) space else text ++ [c]

/-- The text after a string. -/
def typeset (W : Nat) (text : List UInt8) (cs : List UInt8) : List UInt8 := cs.foldl (typesetChar W) text

/-- The number of positions that a string takes up at the position `tail`. -/
def width (W : Nat) : Nat → List UInt8 → Nat
  | _, [] => 0
  | tail, c :: cs =>
    let n := if c = newline then W - tail % W else 1
    n + width W (tail + n) cs

section

variable {W H lo : Nat} {text : List UInt8} {cs : List UInt8} {c : UInt8}

theorem length_typesetChar : (typesetChar W text c).length =
    text.length + if c = newline then W - text.length % W else 1 := by
  rw [typesetChar]
  split
  · rw [List.length_append, List.length_replicate]
  · rw [List.length_append, List.length_singleton]

theorem length_typeset : (typeset W text cs).length = text.length + width W text.length cs := by
  induction cs generalizing text with
  | nil => rfl
  | cons c cs ih =>
    show (typeset W (typesetChar W text c) cs).length = _
    rw [ih, length_typesetChar, width]
    omega

/-- The text box is at the end of the text, and its cells hold the text from `lo` on. -/
structure TextBox.Displays (W H lo : Nat) (box : TextBox) (text : List UInt8) : Prop where
  tail : box.tail = text.length
  cells : RingBuffer.Holds (W * H) box.text lo text

variable {box : TextBox}

namespace TextBox

@[simp] theorem setRedrawRect_head (oldCursor newCursor : Nat) :
    (setRedrawRect W oldCursor newCursor box).head = box.head := by
  simp only [setRedrawRect]
  split_ifs <;> rfl

@[simp] theorem setRedrawRect_tail (oldCursor newCursor : Nat) :
    (setRedrawRect W oldCursor newCursor box).tail = box.tail := by
  simp only [setRedrawRect]
  split_ifs <;> rfl

@[simp] theorem setRedrawRect_text (oldCursor newCursor : Nat) :
    (setRedrawRect W oldCursor newCursor box).text = box.text := by
  simp only [setRedrawRect]
  split_ifs <;> rfl

theorem scroll_head : (scroll W H box).head =
    if box.tail - box.head ≥ W * H then box.head + W else box.head := by
  rw [scroll]
  split <;> rfl

@[simp] theorem scroll_tail : (scroll W H box).tail = box.tail := by
  rw [scroll]
  split <;> rfl

@[simp] theorem scroll_text : (scroll W H box).text = box.text := by
  rw [scroll]
  split <;> rfl

@[simp] theorem blank_head : (blank W H box).head = box.head := by
  rw [blank]
  split <;> rfl

@[simp] theorem blank_tail : (blank W H box).tail = box.tail := by
  rw [blank]
  split <;> rfl

theorem put_displays (h : box.Displays W H lo text) (hroom : text.length < lo + W * H) :
    (put W H c box).Displays W H lo (text ++ [c]) ∧ (put W H c box).head = box.head := by
  refine ⟨⟨?_, ?_⟩, rfl⟩
  · rw [List.length_append, List.length_singleton, ← h.tail]
    rfl
  · show RingBuffer.Holds _ (RingBuffer.write _ box.tail c box.text) lo _
    rw [h.tail]
    exact h.cells.push hroom

/-- Spaces up to the end of a row. -/
theorem spaces_displays (n : Nat) (h : box.Displays W H lo text)
    (hroom : text.length + n ≤ lo + W * H) :
    ((put W H c)^[n] box).Displays W H lo (text ++ List.replicate n c) ∧
      ((put W H c)^[n] box).head = box.head := by
  induction n generalizing box text with
  | zero =>
    rw [List.replicate_zero, List.append_nil]
    exact ⟨h, rfl⟩
  | succ n ih =>
    obtain ⟨hput, hhead⟩ := put_displays (c := c) h (by omega)
    obtain ⟨hrest, hhead'⟩ := ih hput (by rw [List.length_append, List.length_singleton]; omega)
    rw [List.append_assoc, List.singleton_append, ← List.replicate_succ] at hrest
    exact ⟨hrest, hhead'.trans hhead⟩

theorem putChar_displays (h : box.Displays W H lo text)
    (hroom : (typesetChar W text c).length ≤ lo + W * H) :
    (putChar W H box c).Displays W H lo (typesetChar W text c) ∧
      (putChar W H box c).head = box.head := by
  rw [length_typesetChar] at hroom
  rw [putChar, typesetChar, h.tail]
  split at hroom
  case isTrue hnewline =>
    rw [if_pos hnewline, if_pos hnewline]
    exact spaces_displays _ h hroom
  case isFalse hnewline =>
    rw [if_neg hnewline, if_neg hnewline]
    exact put_displays h hroom

/-- The loop of `print`. -/
theorem putChars_displays (cs : List UInt8) (h : box.Displays W H lo text)
    (hroom : (typeset W text cs).length ≤ lo + W * H) :
    (cs.foldl (putChar W H) box).Displays W H lo (typeset W text cs) ∧
      (cs.foldl (putChar W H) box).head = box.head := by
  induction cs generalizing box text with
  | nil => exact ⟨h, rfl⟩
  | cons c cs ih =>
    have hroom' : (typeset W (typesetChar W text c) cs).length ≤ lo + W * H := hroom
    obtain ⟨hchar, hhead⟩ := putChar_displays h (c := c)
      (Nat.le_trans (by rw [length_typeset]; omega) hroom')
    obtain ⟨hrest, hhead'⟩ := ih hchar hroom'
    exact ⟨hrest, hhead'.trans hhead⟩

/-- A write behind the text. -/
theorem write_displays {q : Nat} (h : box.Displays W H lo text) (hq : text.length ≤ q)
    (hq' : q < lo + W * H) :
    ({ box with text := RingBuffer.write (W * H) q c box.text } : TextBox).Displays W H lo text where
  tail := h.tail
  cells := h.cells.write_free hq hq'

/-- The blank row. -/
theorem blank_displays (h : box.Displays W H lo text)
    (hroom : box.tail % W = 0 → text.length + W ≤ lo + W * H) :
    (blank W H box).Displays W H lo text := by
  have hrow : ∀ n, text.length + n ≤ lo + W * H → RingBuffer.Holds (W * H)
      ((List.range n).foldl (fun text i => RingBuffer.write (W * H) (box.tail + i) space text) box.text)
      lo text := by
    intro n hn
    induction n with
    | zero => exact h.cells
    | succ n ih =>
      rw [List.range_succ, List.foldl_append]
      have hq : text.length ≤ box.tail + n := by
        rw [h.tail]
        exact Nat.le_add_right ..
      exact (ih (by omega)).write_free hq (by rw [h.tail]; omega)
  rw [blank]
  split
  case isTrue hnew => exact ⟨h.tail, hrow W (hroom hnew)⟩
  case isFalse => exact h

end TextBox

end

/-! ## Runs -/

/-- A text box, and the text that has been written to it. -/
structure TextSys where
  box : TextBox
  text : List UInt8

inductive TextOp where
  | print (buffer : List UInt8)
  | backspace
  deriving DecidableEq, Repr

/-- A text box of `H` rows of `W` characters. A string adds its last `max` bytes to the text, and a
backspace takes the last position away if there is one in the box. -/
def textBox (W H : Nat) : Machine TextSys TextOp where
  init s := s.box.head = 0 ∧ s.box.tail = 0 ∧ s.text = []
  step s
    | .print buffer => some ⟨s.box.print W H buffer, typeset W s.text (TextBox.lastBytes (W * H) buffer)⟩
    | .backspace => some ⟨s.box.backspace W H,
        if s.box.head < s.box.tail then s.text.dropLast else s.text⟩

/-- What is in the box is the end of the text, from the beginning of a row on. -/
structure TextSys.Kept (W H : Nat) (s : TextSys) : Prop where
  displays : s.box.Displays W H s.box.head s.text
  row : W ∣ s.box.head
  head_le : s.box.head ≤ s.box.tail
  fits : s.box.tail - s.box.head < W * H

/-- The text box shows the end of the text and the mark behind it. -/
structure TextSys.Shown (W H : Nat) (s : TextSys) : Prop extends s.Kept W H where
  mark : s.box.text (s.box.tail % (W * H)) = cursor

/-- The text box is right after this call. -/
def ShownAfter (W H : Nat) (s : TextSys) (op : TextOp) : Prop :=
  ∀ s', (textBox W H).step s op = some s' → s'.Shown W H

/-- A string makes the text at most one row too long for the box; a backspace finds something to
remove, or the mark in its place. -/
def Fits (W H : Nat) (s : TextSys) : TextOp → Prop
  | .print buffer => s.box.tail + width W s.box.tail (TextBox.lastBytes (W * H) buffer) - s.box.head <
      W * H + W
  | .backspace => s.box.head < s.box.tail ∨ s.box.text (s.box.tail % (W * H)) = cursor

instance (W H : Nat) (s : TextSys) : (op : TextOp) → Decidable (Fits W H s op)
  | .print _ => inferInstanceAs (Decidable (_ < _))
  | .backspace => inferInstanceAs (Decidable (_ ∨ _))

section

variable {W H : Nat} {s : TextSys}

/-- The next multiple. -/
theorem add_le_of_dvd {a b : Nat} (ha : W ∣ a) (hb : W ∣ b) (hlt : a < b) : a + W ≤ b := by
  have hle : W ≤ b - a := Nat.le_of_dvd (by omega) (Nat.dvd_sub hb ha)
  omega

/-- How far a string moves the end and the beginning of the text. -/
theorem print_moves (buffer : List UInt8) (h : s.Kept W H) :
    (s.box.print W H buffer).tail =
        s.box.tail + width W s.box.tail (TextBox.lastBytes (W * H) buffer) ∧
      (s.box.print W H buffer).head =
        if (s.box.print W H buffer).tail - s.box.head ≥ W * H then s.box.head + W
        else s.box.head := by
  set cs := TextBox.lastBytes (W * H) buffer with hcs
  -- nothing is asked of the cells here
  have hfar : s.box.Displays W H (s.box.head + (typeset W s.text cs).length) s.text :=
    ⟨h.displays.tail, h.displays.cells.mono (Nat.le_add_right ..)⟩
  obtain ⟨htyped, hhead⟩ := TextBox.putChars_displays cs hfar (by omega)
  have htail : (s.box.print W H buffer).tail = (cs.foldl (TextBox.putChar W H) s.box).tail := by
    simp [TextBox.print, ← hcs]
  rw [htail]
  refine ⟨?_, ?_⟩
  · rw [htyped.tail, length_typeset, ← h.displays.tail]
  · simp [TextBox.print, TextBox.scroll_head, ← hcs, hhead]

/-- A string that makes the text at most one row too long. -/
theorem print_shown {buffer : List UInt8} (hH : 0 < H) (h : s.Kept W H)
    (hfits : Fits W H s (.print buffer)) : (TextSys.mk (s.box.print W H buffer)
      (typeset W s.text (TextBox.lastBytes (W * H) buffer))).Shown W H := by
  obtain ⟨htail, hhead⟩ := print_moves buffer h
  set box' := s.box.print W H buffer with hbox'
  set cs := TextBox.lastBytes (W * H) buffer with hcs
  have hmore : s.box.tail + width W s.box.tail cs < s.box.head + W * H + W := by
    have := h.head_le
    simp only [Fits, ← hcs] at hfits
    omega
  have hlen : (typeset W s.text cs).length = box'.tail := by
    rw [length_typeset, htail, h.displays.tail]
  obtain ⟨hle, hdvd, hbegun, hroom⟩ : s.box.head ≤ box'.head ∧ W ∣ box'.head ∧
      box'.head ≤ box'.tail ∧ box'.tail < box'.head + W * H := by
    have hle := h.head_le
    have hrow : W ≤ W * H := Nat.le_mul_of_pos_right W hH
    rw [hhead]
    -- `head` goes on by one row at most, and that is enough
    split
    case isTrue => exact ⟨by omega, Nat.dvd_add h.row (Nat.dvd_refl W), by omega, by omega⟩
    case isFalse => exact ⟨Nat.le_refl _, h.row, by omega, by omega⟩
  have hshorter : s.box.Displays W H box'.head s.text :=
    ⟨h.displays.tail, h.displays.cells.mono hle⟩
  obtain ⟨htyped, -⟩ := TextBox.putChars_displays cs hshorter (by omega)
  set typed := cs.foldl (TextBox.putChar W H) s.box with hbox
  have htyped' : typed.tail = box'.tail := htyped.tail.trans hlen
  have hscrolled : (TextBox.scroll W H typed).Displays W H box'.head (typeset W s.text cs) := by
    refine ⟨?_, ?_⟩
    · rw [TextBox.scroll_tail]
      exact htyped.tail
    · rw [TextBox.scroll_text]
      exact htyped.cells
  have hblank : (TextBox.blank W H (TextBox.scroll W H typed)).Displays W H box'.head
      (typeset W s.text cs) := by
    -- a new row is blanked only where the text does not show any more
    refine TextBox.blank_displays hscrolled fun hnew => ?_
    rw [TextBox.scroll_tail, htyped'] at hnew
    rw [hlen]
    exact add_le_of_dvd (Nat.dvd_of_mod_eq_zero hnew) (Nat.dvd_add hdvd (Nat.dvd_mul_right W H)) hroom
  have hmarked := TextBox.write_displays (c := cursor) hblank (Nat.le_refl _) (by omega)
  have htext : box'.text = RingBuffer.write (W * H) (typeset W s.text cs).length cursor
      (TextBox.blank W H (TextBox.scroll W H typed)).text := by
    simp [hbox', TextBox.print, ← hcs, ← hbox, htyped.tail]
  have hfull : box'.tail - box'.head < W * H := by omega
  refine ⟨⟨⟨hlen.symm, ?_⟩, hdvd, hbegun, hfull⟩, ?_⟩
  · rw [htext]
    exact hmarked.cells
  · rw [htext, hlen]
    exact RingBuffer.write_self

/-- A backspace. -/
theorem backspace_shown (h : s.Kept W H) (hfits : Fits W H s .backspace) :
    (TextSys.mk (s.box.backspace W H)
      (if s.box.head < s.box.tail then s.text.dropLast else s.text)).Shown W H := by
  have hfull := h.fits
  rw [TextBox.backspace]
  by_cases hlt : s.box.head < s.box.tail
  · rw [if_neg (by omega), if_pos hlt]
    have hlen : s.text.dropLast.length = s.box.tail - 1 := by
      rw [List.length_dropLast, h.displays.tail]
    have herased := h.displays.cells.write_free (a := space) (q := s.box.tail)
      (by rw [h.displays.tail]) (by omega)
    have hmarked := herased.pop.write_free (a := cursor) (q := s.box.tail - 1) (by rw [hlen]) (by omega)
    refine ⟨⟨⟨?_, ?_⟩, ?_, ?_, ?_⟩, ?_⟩
    · simpa using hlen.symm
    · simpa using hmarked
    · simpa using h.row
    · simp
      omega
    · simp
      omega
    · simp
  · rw [if_pos (by omega), if_neg hlt]
    exact ⟨h, hfits.resolve_left hlt⟩

/-- A string after which there is too much text. -/
theorem not_shown_of_not_fits {buffer : List UInt8} (h : s.Kept W H)
    (hfits : ¬ Fits W H s (.print buffer)) {text : List UInt8} :
    ¬ (TextSys.mk (s.box.print W H buffer) text).Shown W H := by
  intro hshown
  obtain ⟨htail, hhead⟩ := print_moves buffer h
  have hfull := hshown.fits
  simp only [Fits] at hfits
  simp only [hhead] at hfull
  split at hfull
  · omega
  · omega

end

/-- **The text box shows the text**: in a run from an empty box it is right after every call exactly if
no string makes the text more than one row too long, and a backspace does not come before all strings. -/
theorem text_shown_iff {W H : Nat} (hW : 0 < W) (hH : 0 < H) {s : TextSys} (hinit : (textBox W H).init s)
    (ops : List TextOp) : (textBox W H).Steps (Fits W H) s ops ↔
      (textBox W H).Steps (ShownAfter W H) s ops := by
  have hstart : s.Kept W H := by
    obtain ⟨hhead, htail, htext⟩ := hinit
    refine ⟨⟨by rw [htail, htext]; rfl, ?_⟩, ?_, by omega, ?_⟩
    · intro p a _ ha
      rw [htext, List.getElem?_nil] at ha
      cases ha
    · rw [hhead]
      exact Nat.dvd_zero W
    · rw [hhead, htail]
      exact Nat.mul_pos hW hH
  have hshown : ∀ s op, s.Kept W H → Fits W H s op → ShownAfter W H s op := by
    intro s op h hfits s' hstep
    cases op with
    | print buffer =>
      cases hstep
      exact print_shown hH h hfits
    | backspace =>
      cases hstep
      exact backspace_shown h hfits
  refine Machine.steps_iff_steps (I := TextSys.Kept W H) (fun s op h => ⟨hshown s op h, ?_⟩)
    (fun s op s' h hfits hstep => (hshown s op h hfits s' hstep).toKept) hstart
  intro hafter
  cases op with
  | print buffer =>
    by_contra hfits
    exact not_shown_of_not_fits h hfits (hafter _ rfl)
  | backspace =>
    by_cases hlt : s.box.head < s.box.tail
    · exact .inl hlt
    · have hmark := (hafter _ rfl).mark
      rw [TextBox.backspace, if_pos (by omega)] at hmark
      exact .inr hmark

/-- A text box with an empty buffer. -/
def TextBox.empty (rect : Rect) : TextBox where
  rect := rect
  redrawRect := ⟨0, 0, rect.r - rect.l, rect.b - rect.t⟩
  needsRedraw := true
  offsetX := 0
  offsetY := 0
  head := 0
  tail := 0
  text _ := 0

/-- Two rows of four characters: `"ab\n"`, `"cdefg"`, and two backspaces. -/
theorem text_shown_example :
    (textBox 4 2).Steps (Fits 4 2) ⟨.empty ⟨0, 0, 32, 40⟩, []⟩
        [.print [97, 98, 10], .print [99, 100, 101, 102, 103], .backspace, .backspace] ∧
      (textBox 4 2).Steps (ShownAfter 4 2) ⟨.empty ⟨0, 0, 32, 40⟩, []⟩
        [.print [97, 98, 10], .print [99, 100, 101, 102, 103], .backspace, .backspace] := by
  have hfits : (textBox 4 2).Steps (Fits 4 2) ⟨.empty ⟨0, 0, 32, 40⟩, []⟩
      [.print [97, 98, 10], .print [99, 100, 101, 102, 103], .backspace, .backspace] := by
    decide +kernel
  exact ⟨hfits, (text_shown_iff (by decide) (by decide) ⟨rfl, rfl, rfl⟩ _).mp hfits⟩

/-- Three newlines fill three rows, and `head` moves on by one. -/
theorem rows_lost : ∃ s', (textBox 4 2).exec ⟨.empty ⟨0, 0, 32, 40⟩, []⟩ [.print [10, 10, 10]] = some s' ∧
    s'.box.head = 4 ∧ s'.box.tail = 12 ∧ ¬ s'.Shown 4 2 := by
  refine ⟨_, rfl, by decide +kernel, by decide +kernel, ?_⟩
  intro hshown
  have hfull := hshown.fits
  revert hfull
  decide +kernel

end Shipwreck.Gui
