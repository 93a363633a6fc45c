import Shipwreck.Lib.CInt
import Shipwreck.Gui.TextBox

/-!
# The line editor

The body of the loop in `GUITerminal::read`, which edits a line in the caller's buffer as the keys come:
a backspace takes the last character away, and a character that does not fit takes the place of the last
one. There are two limits, the `max` of the caller and the size of the input buffer, each with a test of
its own. `editChar_holds` compares it with an editor that works on the line itself.
-/

namespace Shipwreck.Gui

open CInt (toUint toInt)

/-- `'\b'` -/
def backspaceKey : UInt8 := 8

/-- `MAX_INPUT_BUFFER` -/
def maxInputBuffer : Nat := 64

/-- The variables of `read`, and the indices of `buffer` it has stored to. -/
structure LineReader where
  buffer : Int → UInt8
  max : UInt32
  len : Int
  written : List Int

namespace LineReader

/-- `buffer[i] = c` -/
def store (i : Int) (c : UInt8) (r : LineReader) : LineReader :=
  { r with buffer := Function.update r.buffer i c, written := r.written ++ [i] }

/-- `buffer[--len] = ' '` -/
def erase (r : LineReader) : LineReader :=
  { r with len := r.len - 1 }.store (r.len - 1) space

/-- `buffer[len] = c; len++` -/
def put (c : UInt8) (r : LineReader) : LineReader :=
  { r.store r.len c with len := r.len + 1 }

end LineReader

/-- The test with `max`. -/
def fitMax (W H : Nat) (r : LineReader) (textbox : TextBox) : LineReader × TextBox :=
  if toUint r.len ≥ (r.max - 1).toNat then
    (LineReader.erase { r with len := toInt (r.max - 1).toNat }, textbox.backspace W H)
  else (r, textbox)

/-- The test with `MAX_INPUT_BUFFER`. -/
def fitBuffer (W H : Nat) (r : LineReader) (textbox : TextBox) : LineReader × TextBox :=
  if r.len ≥ maxInputBuffer - 1 then
    (LineReader.erase { r with len := maxInputBuffer - 1 }, textbox.backspace W H)
  else (r, textbox)

/-- The loop of `read` after `nextchar` has been fetched. -/
def editChar (W H : Nat) (nextchar : UInt8) (r : LineReader) (textbox : TextBox) :
    LineReader × TextBox :=
  if nextchar = backspaceKey then
    if r.len > 0 then (r.erase, textbox.backspace W H) else (r, textbox)
  else
    let fitted :=
      if nextchar ≠ newline then
        let (r, textbox) := fitMax W H r textbox
        fitBuffer W H r textbox
      else (r, textbox)
    (fitted.1.put nextchar, fitted.2.print W H [nextchar])

/-! ## The line itself -/

/-- A key typed into a line of fewer than `max` and 64 characters. -/
def editKey (max : Nat) (line : List UInt8) (key : UInt8) : List UInt8 :=
  if key = backspaceKey then line.dropLast
  else if line.length ≥ min max maxInputBuffer - 1 then line.dropLast ++ [key]
  else line ++ [key]

/-- The line that these keys make. -/
def editLine (max : Nat) (keys : List UInt8) : List UInt8 := keys.foldl (editKey max) []

/-- The line is in the buffer, and nothing outside the buffer has been written. -/
structure LineReader.Holds (r : LineReader) (text : List UInt8) : Prop where
  len : r.len = text.length
  cells : ∀ i c, text[i]? = some c → r.buffer (i : Nat) = c
  written : ∀ i ∈ r.written, 0 ≤ i ∧ i < r.max.toNat

section

variable {W H : Nat} {r : LineReader} {line keys : List UInt8} {c : UInt8} {max : Nat}

theorem length_editKey (hmax : 2 ≤ max) (hcap : line.length < min max maxInputBuffer) (key : UInt8) :
    (editKey max line key).length < min max maxInputBuffer := by
  have hbuffer : maxInputBuffer = 64 := rfl
  rw [editKey]
  split
  · rw [List.length_dropLast]
    omega
  · split
    · rw [List.length_append, List.length_dropLast, List.length_singleton]
      omega
    · rw [List.length_append, List.length_singleton]
      omega

theorem editLine_snoc (key : UInt8) :
    editLine max (keys ++ [key]) = editKey max (editLine max keys) key := by
  rw [editLine, List.foldl_append]
  rfl

/-- An edited line leaves room for the newline. -/
theorem length_editLine (hmax : 2 ≤ max) : (editLine max keys).length < min max maxInputBuffer := by
  induction keys using List.reverseRecOn with
  | nil =>
    show 0 < min max 64
    omega
  | append_singleton keys key ih =>
    rw [editLine_snoc]
    exact length_editKey hmax ih key

namespace LineReader.Holds

/-- A store inside the buffer. -/
theorem written_store (h : r.Holds line) {j : Int} (hj : 0 ≤ j ∧ j < r.max.toNat) :
    ∀ i ∈ r.written ++ [j], 0 ≤ i ∧ i < r.max.toNat := by
  rw [List.forall_mem_append, List.forall_mem_singleton]
  exact ⟨h.written, hj⟩

theorem erase (h : r.Holds line) (hne : line ≠ []) (hmax : line.length ≤ r.max.toNat) :
    r.erase.Holds line.dropLast := by
  have hpos : 0 < line.length := List.length_pos_of_ne_nil hne
  have hlen := h.len
  refine ⟨?_, ?_, ?_⟩
  · show r.len - 1 = _
    rw [List.length_dropLast]
    omega
  · intro i c hc
    rw [List.getElem?_dropLast] at hc
    split at hc
    case isTrue hi =>
      show Function.update r.buffer (r.len - 1) space i = c
      rw [Function.update_of_ne (by omega)]
      exact h.cells i c hc
    case isFalse => cases hc
  · exact h.written_store (by omega)

theorem put (h : r.Holds line) (hmax : line.length < r.max.toNat) : (r.put c).Holds (line ++ [c]) := by
  have hlen := h.len
  refine ⟨?_, ?_, ?_⟩
  · show r.len + 1 = _
    rw [List.length_append, List.length_singleton]
    omega
  · intro i d hd
    show Function.update r.buffer r.len c i = d
    rcases Nat.lt_trichotomy i line.length with hlt | heq | hgt
    · rw [List.getElem?_append_left hlt] at hd
      rw [Function.update_of_ne (by omega)]
      exact h.cells i d hd
    · subst heq
      rw [List.getElem?_concat_length] at hd
      rw [hlen, Function.update_self]
      exact Option.some.inj hd
    · rw [List.getElem?_eq_none (by simp; omega)] at hd
      cases hd
  · exact h.written_store (by omega)

end LineReader.Holds

/-- The first test: the buffer of the caller is full. -/
theorem fitMax_fst (hmax : 2 ≤ r.max.toNat) (h : r.Holds line)
    (hcap : line.length < min r.max.toNat maxInputBuffer) (textbox : TextBox) :
    (fitMax W H r textbox).1 = if line.length = r.max.toNat - 1 then r.erase else r := by
  have hbuffer : maxInputBuffer = 64 := rfl
  have hlen := h.len
  have hle : (1 : UInt32) ≤ r.max := by
    rw [UInt32.le_iff_toNat_le]
    exact Nat.le_of_succ_le hmax
  have hsub : (r.max - 1).toNat = r.max.toNat - 1 := UInt32.toNat_sub_of_le _ _ hle
  have hlen' : toUint r.len = line.length := by
    rw [CInt.toUint_of_nonneg (by omega) (by omega)]
    omega
  rw [fitMax, hlen', hsub]
  by_cases hfull : line.length = r.max.toNat - 1
  · have hsame : toInt (r.max.toNat - 1 : Nat) = r.len := by
      rw [CInt.toInt_of_fits (by omega) (by omega)]
      omega
    rw [if_pos (by omega), if_pos hfull, hsame]
  · rw [if_neg (by omega), if_neg hfull]

/-- The second test: there are 63 characters. -/
theorem fitBuffer_fst (hlen : r.len ≤ maxInputBuffer - 1) (textbox : TextBox) :
    (fitBuffer W H r textbox).1 = if r.len = maxInputBuffer - 1 then r.erase else r := by
  rw [fitBuffer]
  by_cases hfull : r.len = maxInputBuffer - 1
  · rw [if_pos (by omega), if_pos hfull, ← hfull]
  · rw [if_neg (by omega), if_neg hfull]

/-- Both limits together: a character that does not fit takes the place of the last one. -/
theorem editChar_fst (hmax : 2 ≤ r.max.toNat) (h : r.Holds line)
    (hcap : line.length < min r.max.toNat maxInputBuffer) (textbox : TextBox) :
    (editChar W H c r textbox).1 =
      if c = backspaceKey then if line = [] then r else r.erase
      else if c ≠ newline ∧ line.length ≥ min r.max.toNat maxInputBuffer - 1 then r.erase.put c
      else r.put c := by
  have hbuffer : maxInputBuffer = 64 := rfl
  have hlen := h.len
  rw [editChar]
  by_cases hback : c = backspaceKey
  · rw [if_pos hback, if_pos hback]
    by_cases hempty : line = []
    · rw [if_pos hempty, if_neg (by rw [hlen, hempty]; decide)]
    · have hpos := List.length_pos_of_ne_nil hempty
      rw [if_neg hempty, if_pos (by omega)]
  · rw [if_neg hback, if_neg hback]
    by_cases hnewline : c = newline
    · rw [if_neg (not_not.mpr hnewline), if_neg (fun hboth => hboth.1 hnewline)]
    · rw [if_pos hnewline]
      have hfirst := fitMax_fst (W := W) (H := H) hmax h hcap textbox
      show LineReader.put c (fitBuffer W H (fitMax W H r textbox).1 (fitMax W H r textbox).2).1 = _
      by_cases hfull : line.length = r.max.toNat - 1
      · -- the second test fails after the first has made room
        have hroom : r.erase.len < maxInputBuffer - 1 := by
          show r.len - 1 < _
          omega
        rw [if_pos hfull] at hfirst
        rw [if_pos ⟨hnewline, by omega⟩, hfirst, fitBuffer_fst (by omega), if_neg (by omega)]
      · rw [if_neg hfull] at hfirst
        rw [hfirst, fitBuffer_fst (by omega)]
        by_cases hlimit : r.len = maxInputBuffer - 1
        · rw [if_pos hlimit, if_pos ⟨hnewline, by omega⟩]
        · rw [if_neg hlimit, if_neg (fun hboth => by omega)]

/-- The buffer holds the edited line. -/
theorem editChar_holds (hmax : 2 ≤ r.max.toNat) (h : r.Holds line)
    (hcap : line.length < min r.max.toNat maxInputBuffer) (textbox : TextBox) :
    (editChar W H c r textbox).1.max = r.max ∧ (editChar W H c r textbox).1.Holds
      (if c = newline then line ++ [newline] else editKey r.max.toNat line c) := by
  have hne : line.length ≥ min r.max.toNat maxInputBuffer - 1 → line ≠ [] := by
    have hbuffer : maxInputBuffer = 64 := rfl
    rintro hfull rfl
    rw [List.length_nil] at hfull
    omega
  rw [editChar_fst hmax h hcap, editKey]
  by_cases hback : c = backspaceKey
  · have hnewline : c ≠ newline := by
      rw [hback]
      decide
    rw [if_pos hback, if_neg hnewline, if_pos hback]
    by_cases hempty : line = []
    · subst hempty
      exact ⟨rfl, h⟩
    · rw [if_neg hempty]
      exact ⟨rfl, h.erase hempty (by omega)⟩
  · rw [if_neg hback, if_neg hback]
    by_cases hnewline : c = newline
    · rw [if_neg (by simp [hnewline]), if_pos hnewline, hnewline]
      exact ⟨rfl, h.put (by omega)⟩
    · rw [if_neg hnewline]
      by_cases hfull : line.length ≥ min r.max.toNat maxInputBuffer - 1
      · rw [if_pos ⟨hnewline, hfull⟩, if_pos hfull]
        refine ⟨rfl, (h.erase (hne hfull) (by omega)).put ?_⟩
        rw [List.length_dropLast]
        show line.length - 1 < r.max.toNat
        omega
      · rw [if_neg (fun hboth => hfull hboth.2), if_neg hfull]
        exact ⟨rfl, h.put (by omega)⟩

end

end Shipwreck.Gui
