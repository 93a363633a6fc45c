import Shipwreck.Gui.TextBox

/-!
# What a call does to the text

`print` and `backspace` put down some characters one behind the other, and move `head` and `tail`
(`call_eq`); what is to be redrawn is worked out from the old and the new `tail` afterwards.
-/

namespace Shipwreck.Gui.TextBox

/-- The characters that a string puts down from position `tail` on. -/
def typed (W : Nat) : Nat → List UInt8 → List UInt8
  | _, [] => []
  | tail, c :: cs =>
    let n := if c = newline then W - tail % W else 1
    List.replicate n (if c = newline then space else c) ++ typed W (tail + n) cs

/-- With the mark, and the blank row behind a full one. -/
def laid (W tail : Nat) (cs : List UInt8) : List UInt8 :=
  typed W tail cs ++ cursor ::
    if (tail + width W tail cs) % W = 0 then List.replicate (W - 1) space else []

/-- The characters `chars` are put down from position `first` on, and `head` and `tail` are moved. -/
structure Edit where
  first : Nat
  chars : List UInt8
  head : Nat
  tail : Nat
  deriving DecidableEq, Repr

/-- What a call is to do. -/
def edit (W H : Nat) (box : TextBox) : TextOp → Edit
  | .print buffer =>
    let cs := lastBytes (W * H) buffer
    let tail := box.tail + width W box.tail cs
    ⟨box.tail, laid W box.tail cs, if tail - box.head ≥ W * H then box.head + W else box.head, tail⟩
  | .backspace =>
    if box.head < box.tail then ⟨box.tail - 1, [cursor, space], box.head, box.tail - 1⟩
    else ⟨box.tail, [], box.head, box.tail⟩

/-- A call. -/
def call (W H : Nat) (box : TextBox) : TextOp → TextBox
  | .print buffer => box.print W H buffer
  | .backspace => box.backspace W H

/-- The text box after an edit, before it is worked out what is to be redrawn. -/
def apply (W H : Nat) (box : TextBox) (e : Edit) : TextBox :=
  { box with
    head := e.head
    tail := e.tail
    text := RingBuffer.writes (W * H) e.first e.chars box.text }

section

variable {W H : Nat} {box : TextBox} {c : UInt8}

theorem length_typed {tail : Nat} {cs : List UInt8} : (typed W tail cs).length = width W tail cs := by
  induction cs generalizing tail with
  | nil => rfl
  | cons c cs ih => rw [typed, width, List.length_append, List.length_replicate, ih]

theorem put_iterate (n : Nat) : (put W H c)^[n] box =
    { box with
      tail := box.tail + n
      text := RingBuffer.writes (W * H) box.tail (List.replicate n c) box.text } := by
  induction n generalizing box with
  | zero => rfl
  | succ n ih =>
    rw [Function.iterate_succ_apply, ih, List.replicate_succ]
    simp only [put, RingBuffer.writes, mk.injEq, and_true, true_and]
    omega

theorem putChar_eq : putChar W H box c =
    { box with
      tail := box.tail + if c = newline then W - box.tail % W else 1
      text := RingBuffer.writes (W * H) box.tail
        (List.replicate (if c = newline then W - box.tail % W else 1)
          (if c = newline then space else c)) box.text } := by
  rw [putChar]
  split
  case isTrue => rw [put_iterate]
  case isFalse => rfl

/-- The loop of `print`. -/
theorem putChars_eq (cs : List UInt8) : cs.foldl (putChar W H) box =
    { box with
      tail := box.tail + width W box.tail cs
      text := RingBuffer.writes (W * H) box.tail (typed W box.tail cs) box.text } := by
  induction cs generalizing box with
  | nil => rfl
  | cons c cs ih =>
    rw [List.foldl_cons, ih, putChar_eq, typed, RingBuffer.writes_append, List.length_replicate, width]
    simp only [mk.injEq, and_true, true_and]
    omega

theorem scroll_eq : scroll W H box =
    { box with head := if box.tail - box.head ≥ W * H then box.head + W else box.head } := by
  rw [scroll]
  split <;> rfl

/-- The blank row. -/
theorem blank_eq : blank W H box =
    { box with
      text := RingBuffer.writes (W * H) box.tail
        (if box.tail % W = 0 then List.replicate W space else []) box.text } := by
  have hrow : ∀ n, (List.range n).foldl (fun text i => RingBuffer.write (W * H) (box.tail + i) space text)
      box.text = RingBuffer.writes (W * H) box.tail (List.replicate n space) box.text := by
    intro n
    induction n with
    | zero => rfl
    | succ n ih =>
      rw [List.range_succ, List.foldl_append, ih, List.replicate_succ', RingBuffer.writes_append,
        List.length_replicate]
      rfl
  rw [blank]
  split
  case isTrue => rw [hrow]
  case isFalse => rfl

/-- **A call is an edit**, after which it is worked out what is to be redrawn. -/
theorem call_eq (hW : 0 < W) (hH : 0 < H) (hfits : box.tail - box.head < W * H) (op : TextOp) :
    call W H box op =
      setRedrawRect W box.tail (edit W H box op).tail (apply W H box (edit W H box op)) := by
  have hrow : W ≤ W * H := Nat.le_mul_of_pos_right W hH
  cases op with
  | print buffer =>
    show box.print W H buffer = _
    simp only [print, putChars_eq, scroll_eq, blank_eq, edit, apply, laid, RingBuffer.writes_append,
      length_typed]
    generalize lastBytes (W * H) buffer = cs
    generalize box.tail + width W box.tail cs = tail
    have hmark : ∀ cells, RingBuffer.write (W * H) tail cursor
        (RingBuffer.writes (W * H) tail (if tail % W = 0 then List.replicate W space else []) cells) =
        RingBuffer.writes (W * H) tail
          (cursor :: if tail % W = 0 then List.replicate (W - 1) space else []) cells := by
      intro cells
      split
      case isTrue =>
        obtain ⟨n, rfl⟩ : ∃ n, W = n + 1 := ⟨W - 1, by omega⟩
        rw [List.replicate_succ, RingBuffer.write_writes (by rw [List.length_replicate]; omega)]
        rfl
      case isFalse => rfl
    rw [hmark]
  | backspace =>
    show box.backspace W H = _
    rw [backspace, edit]
    by_cases hlt : box.head < box.tail
    · rw [if_neg (by omega), if_pos hlt]
      have hle : box.head ≤ box.tail - 1 := by omega
      have hcells : (box.tail - 1) % (W * H) ≠ box.tail % (W * H) :=
        RingBuffer.mod_ne_of_window hle (by omega) (by omega) (by omega) (by omega)
      have hnext : box.tail - 1 + 1 = box.tail := by omega
      simp only [apply, RingBuffer.writes, hnext, RingBuffer.write_comm hcells]
    · rw [if_pos (by omega), if_neg hlt, setRedrawRect, if_pos rfl]
      rfl

end

end Shipwreck.Gui.TextBox
