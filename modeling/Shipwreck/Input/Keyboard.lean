import Shipwreck.Lib.Transition
import Shipwreck.Lib.CInt
import Mathlib.Data.List.Induction

/-!
# The keyboard

`scan_to_ascii` of `ps2.h` and `keyboard_packet` of `ps2.cpp`. Each scancode goes through a table; two
static variables remember that the prefix `0xE0` has come, and whether letters are upper case.

Three laws that streams of scancodes should have, and exactly when they have them:

* `extended_pairs_iff` — a prefix is for the next scancode only;
* `shift_tracks_iff` — letters are upper case when the shift keys and Caps Lock say so;
* `releases_iff` — a key that has been reported down is reported up.
-/

namespace Shipwreck.Input

/-- `enum class UserEvents`, as far as it is posted. -/
inductive UserEvents where
  | keyCharDown
  | keyCharUp
  | mouseMove
  | mouseLeftDown
  | mouseLeftUp
  | mouseLeftClick
  | mouseLeftDragStart
  | mouseLeftDragEnd
  deriving DecidableEq, Repr

/-- Characters as `uchar`s. -/
def chars (cs : List Char) : List UInt8 := cs.map Char.toUInt8

/-- `keymap`. -/
def keymap : List UInt8 :=
  [0, 27] ++ chars ['1', '2', '3', '4', '5', '6', '7', '8'] ++
  chars ['9', '0', '-', '='] ++ [8] ++ -- backspace
  [9] ++ -- tab
  chars ['q', 'w', 'e', 'r'] ++
  chars ['t', 'y', 'u', 'i', 'o', 'p', '[', ']'] ++ [10] ++ -- enter
  [0] ++ -- control
  chars ['a', 's', 'd', 'f', 'g', 'h', 'j', 'k', 'l', ';'] ++
  [39, 96, 0] ++ -- quote, backquote, left shift
  [92] ++ chars ['z', 'x', 'c', 'v', 'b', 'n'] ++
  chars ['m', ',', '.', '/'] ++ [0] ++ -- right shift
  chars ['*'] ++
  [0] ++ -- alt
  chars [' '] ++
  [0] ++ -- caps lock
  [0] ++ -- F1 ...
  [0, 0, 0, 0, 0, 0, 0, 0] ++
  [0] ++ -- ... F10
  [0, 0, 0, 0, 0] ++ -- num lock, scroll lock, home, up, page up
  chars ['-'] ++
  [0, 0, 0] ++ -- left, a gap, right
  chars ['+']

/-- `shift_num_row`. -/
def shiftNumRow : List UInt8 :=
  chars ['~', '!', '@', '#', '$', '%', '^', '&', '*', '(', ')', '_', '+']

/-- The static variables of `scan_to_ascii`. -/
structure ScanState where
  extended : Bool
  shift : Bool
  deriving DecidableEq, Repr

/-- Their initial values. -/
def ScanState.start : ScanState := ⟨false, false⟩

/-- The scancodes that toggle `shift`: both shift keys pressed or released, and Caps Lock pressed. -/
def togglesShift (scancode : UInt8) : Bool :=
  scancode == 0x2A || scancode == 0x36 || scancode == 0xAA || scancode == 0xB6 || scancode == 0x3A

/-- What `scan_to_ascii` makes of a scancode when `shift` has been set. -/
def toAscii (shift : Bool) (scancode : UInt8) : UInt8 :=
  let ascii := if scancode.toNat < keymap.length then keymap.getD scancode.toNat 0 else 0
  if shift then
    if 'a'.toUInt8 ≤ ascii ∧ ascii ≤ 'z'.toUInt8 then ascii - 'a'.toUInt8 + 'A'.toUInt8
    else if 96 ≤ scancode ∧ scancode ≤ '='.toUInt8 then shiftNumRow.getD (scancode - 96).toNat 0
    else ascii
  else ascii

/-- `scan_to_ascii`. -/
def scanToAscii (scancode : UInt8) (s : ScanState) : UInt8 × ScanState :=
  if scancode = 0xE0 then (0, { s with extended := true })
  else if s.extended then (scancode, s)
  else
    let shift := if togglesShift scancode then !s.shift else s.shift
    (toAscii shift scancode, { s with shift })

/-- `keyboard_packet`: the event that is posted, if any, with its character. -/
def keyboardPacket (scancode : UInt8) (s : ScanState) : Option (UserEvents × UInt8) × ScanState :=
  let ascii := (scanToAscii scancode s).1
  let event :=
    if ascii ≠ 0 then
      if scancode &&& 0x80 ≠ 0 then some (.keyCharUp, ascii) else some (.keyCharDown, ascii)
    else none
  (event, (scanToAscii scancode s).2)

/-! ## Streams -/

/-- The static variables after a stream. -/
def scan (codes : List UInt8) : ScanState :=
  codes.foldl (fun s c => (scanToAscii c s).2) ScanState.start

/-- The result for `c` after the stream `pre`. -/
def resultAfter (pre : List UInt8) (c : UInt8) : UInt8 := (scanToAscii c (scan pre)).1

@[simp] theorem scan_append_singleton (codes : List UInt8) (c : UInt8) :
    scan (codes ++ [c]) = (scanToAscii c (scan codes)).2 := by
  simp [scan]

/-- `extended` is never cleared. -/
theorem scan_extended (codes : List UInt8) : (scan codes).extended = true ↔ 0xE0 ∈ codes := by
  induction codes using List.reverseRecOn with
  | nil => simp [scan, ScanState.start]
  | append_singleton codes c ih =>
    rw [scan_append_singleton, scanToAscii, List.mem_append, List.mem_singleton]
    by_cases hc : c = 0xE0
    · simp [hc]
    · have hne : ¬ (0xE0 : UInt8) = c := fun heq => hc heq.symm
      rw [if_neg hc]
      by_cases hext : (scan codes).extended = true
      · simp [hext, ih.mp hext]
      · simp only [hext]
        simpa [hne] using fun hmem => hext (ih.mpr hmem)

/-- What holds of the 256 scancodes holds of all. -/
theorem forall_uint8 {P : UInt8 → Prop} (h : ∀ n : Fin 256, P (UInt8.ofFin n)) (c : UInt8) : P c :=
  h c.toFin

/-- Away from the prefix and from `0` no scancode is its own character. -/
theorem toAscii_eq_self_iff (shift : Bool) {c : UInt8} (hc : c ≠ 0xE0) :
    toAscii shift c = c ↔ c = 0 := by
  have hall : ∀ d : UInt8, d ≠ 0xE0 → (toAscii shift d = d ↔ d = 0) := by
    apply forall_uint8
    cases shift <;> decide +kernel
  exact hall c hc

/-- A scancode before any prefix. -/
theorem resultAfter_of_not_mem {pre : List UInt8} (h : 0xE0 ∉ pre) {c : UInt8} (hc : c ≠ 0xE0) :
    ∃ shift, resultAfter pre c = toAscii shift c := by
  have hext : ¬ (scan pre).extended = true := fun hext => h ((scan_extended pre).mp hext)
  refine ⟨if togglesShift c then !(scan pre).shift else (scan pre).shift, ?_⟩
  rw [resultAfter, scanToAscii, if_neg hc, if_neg hext]

/-- A scancode behind a prefix, wherever it was. -/
theorem resultAfter_of_mem {pre : List UInt8} (h : 0xE0 ∈ pre) {c : UInt8} (hc : c ≠ 0xE0) :
    resultAfter pre c = c := by
  rw [resultAfter, scanToAscii, if_neg hc, if_pos ((scan_extended pre).mpr h)]

/-! ## Prefixes -/

/-- A stream without the prefixes and the scancodes directly behind them. -/
def dropExtended : List UInt8 → List UInt8
  | [] => []
  | [c] => [c]
  | c :: d :: cs => if c = 0xE0 then dropExtended cs else c :: dropExtended (d :: cs)

theorem dropExtended_of_not_mem {pre : List UInt8} (h : 0xE0 ∉ pre) : dropExtended pre = pre := by
  induction pre using dropExtended.induct with
  | case1 => rfl
  | case2 c => rfl
  | case3 cs => exact absurd List.mem_cons_self h
  | case4 c d cs hc ih =>
    rw [dropExtended, if_neg hc, ih fun hmem => h (List.mem_cons_of_mem c hmem)]

/-- The last scancode is not a prefix: then none is left. -/
theorem not_mem_dropExtended {pre : List UInt8} (h : pre.getLast? ≠ some 0xE0) :
    0xE0 ∉ dropExtended pre := by
  induction pre using dropExtended.induct with
  | case1 => exact List.not_mem_nil
  | case2 c =>
    intro hmem
    rw [dropExtended, List.mem_singleton] at hmem
    exact h (by rw [hmem]; rfl)
  | case3 d cs ih =>
    rw [dropExtended, if_pos rfl]
    cases cs with
    | nil => exact List.not_mem_nil
    | cons e cs => exact ih (by simpa using h)
  | case4 c d cs hc ih =>
    rw [dropExtended, if_neg hc, List.mem_cons, not_or]
    exact ⟨fun heq => hc heq.symm, ih (by simpa using h)⟩

/-- **A prefix is for the next scancode only** exactly as long as there has been none, or for the
scancodes that are their own result. -/
theorem extended_pairs_iff {pre : List UInt8} (h : pre.getLast? ≠ some 0xE0) (c : UInt8) :
    resultAfter pre c = resultAfter (dropExtended pre) c ↔ 0xE0 ∉ pre ∨ c = 0xE0 ∨ c = 0 := by
  by_cases hmem : 0xE0 ∈ pre
  · by_cases hc : c = 0xE0
    · simp [hc, resultAfter, scanToAscii]
    · obtain ⟨shift, hresult⟩ := resultAfter_of_not_mem (not_mem_dropExtended h) hc
      rw [resultAfter_of_mem hmem hc, hresult, eq_comm, toAscii_eq_self_iff shift hc]
      simp [hmem, hc]
  · rw [dropExtended_of_not_mem hmem]
    exact iff_of_true rfl (.inl hmem)

/-- Shift is pressed after an arrow key: the letter behind it is the raw scancode. -/
theorem extended_pairs_example : [0xE0, 0x48, 0x2A].getLast? ≠ some (0xE0 : UInt8) ∧
    (resultAfter [0xE0, 0x48, 0x2A] 0x1E = resultAfter (dropExtended [0xE0, 0x48, 0x2A]) 0x1E ↔
      (0xE0 : UInt8) ∉ [0xE0, 0x48, 0x2A] ∨ (0x1E : UInt8) = 0xE0 ∨ (0x1E : UInt8) = 0) :=
  ⟨by decide, extended_pairs_iff (by decide) 0x1E⟩

/-- After an arrow key the letter `a` is no letter any more. -/
theorem extended_sticks : ¬ ∀ (pre : List UInt8) (c : UInt8), pre.getLast? ≠ some 0xE0 →
    resultAfter pre c = resultAfter (dropExtended pre) c := by
  intro h
  exact absurd (h [0xE0, 0x48] 0x1E (by decide)) (by decide)

/-! ## Shift and Caps Lock -/

/-- What the user or the keyboard does with the key of a make code. -/
inductive KeyEvent where
  | press (key : UInt8)
  | autoRepeat (key : UInt8)
  | release (key : UInt8)
  deriving DecidableEq, Repr

namespace KeyEvent

def key : KeyEvent → UInt8
  | press key | autoRepeat key | release key => key

/-- The scancode: the make code, or the make code with bit 7 set. -/
def code : KeyEvent → UInt8
  | press key | autoRepeat key => key
  | release key => key ||| 0x80

end KeyEvent

/-- Which keys are held, and how often Caps Lock has been pressed. -/
structure Keys where
  held : UInt8 → Bool
  capsLock : Nat

/-- A key with a make code of one byte whose break code is not the prefix. -/
def IsKey (key : UInt8) : Prop := key &&& 0x80 = 0 ∧ key ||| 0x80 ≠ 0xE0

instance (key : UInt8) : Decidable (IsKey key) := inferInstanceAs (Decidable (_ ∧ _))

/-- A keyboard of such keys: a key is pressed when it is up, and repeats and is released when it is
down. -/
def keys : Machine Keys KeyEvent where
  init k := k.held = (fun _ => false) ∧ k.capsLock = 0
  step k e :=
    if IsKey e.key then
      match e with
      | .press key =>
        if k.held key then none
        else some ⟨Function.update k.held key true,
          if key = 0x3A then k.capsLock + 1 else k.capsLock⟩
      | .autoRepeat key => if k.held key then some k else none
      | .release key =>
        if k.held key then some { k with held := Function.update k.held key false } else none
    else none

/-- What is to be typed: upper case if a shift key is held, and the other way if Caps Lock is on. -/
def Keys.upper (k : Keys) : Bool := (k.held 0x2A || k.held 0x36) != (k.capsLock % 2 == 1)

/-- How often a shift key or Caps Lock has repeated. -/
def repeats (es : List KeyEvent) : Nat :=
  es.countP fun e => e == .autoRepeat 0x2A || e == .autoRepeat 0x36 || e == .autoRepeat 0x3A

/-- The lower-case letter of a key. -/
def letter? (key : UInt8) : Option UInt8 :=
  let ascii := keymap.getD key.toNat 0
  if 'a'.toUInt8 ≤ ascii ∧ ascii ≤ 'z'.toUInt8 then some ascii else none

theorem code_ne_extended {e : KeyEvent} (h : IsKey e.key) : e.code ≠ 0xE0 := by
  have hmake : ∀ key : UInt8, IsKey key → key ≠ 0xE0 := by
    apply forall_uint8
    decide +kernel
  cases e with
  | press key => exact hmake key h
  | autoRepeat key => exact hmake key h
  | release key => exact h.2

/-- Make codes that toggle `shift` are those of three keys. -/
theorem togglesShift_make {key : UInt8} (h : IsKey key) :
    togglesShift key = (key == 0x2A || key == 0x36 || key == 0x3A) := by
  have hall : ∀ key : UInt8, IsKey key →
      togglesShift key = (key == 0x2A || key == 0x36 || key == 0x3A) := by
    apply forall_uint8
    decide +kernel
  exact hall key h

/-- Break codes that toggle `shift` are those of two keys. -/
theorem togglesShift_break {key : UInt8} (h : IsKey key) :
    togglesShift (key ||| 0x80) = (key == 0x2A || key == 0x36) := by
  have hall : ∀ key : UInt8, IsKey key →
      togglesShift (key ||| 0x80) = (key == 0x2A || key == 0x36) := by
    apply forall_uint8
    decide +kernel
  exact hall key h

/-- What `shift` is: each event of a shift key has toggled it, and each make code of Caps Lock. -/
def Toggled (k : Keys) (es : List KeyEvent) (shift : Bool) : Prop :=
  shift = ((k.held 0x2A != k.held 0x36) != ((k.capsLock + repeats es) % 2 == 1))

theorem odd_succ (n : Nat) : ((n + 1) % 2 == 1) = !(n % 2 == 1) := by
  rcases Nat.mod_two_eq_zero_or_one n with h | h <;> simp [Nat.add_mod, h]

theorem repeats_append (es : List KeyEvent) (e : KeyEvent) :
    repeats (es ++ [e]) = repeats es + repeats [e] := List.countP_append

section

variable {k k' : Keys} {key : UInt8} {e : KeyEvent} {es : List KeyEvent} {shift : Bool}

theorem Toggled.press (h : Toggled k es shift) (hkey : IsKey key) (hup : k.held key = false) :
    Toggled ⟨Function.update k.held key true, if key = 0x3A then k.capsLock + 1 else k.capsLock⟩
      (es ++ [.press key]) (if togglesShift key then !shift else shift) := by
  have hnone : repeats [.press key] = 0 := rfl
  rw [Toggled] at h ⊢
  rw [repeats_append, hnone, togglesShift_make hkey, h]
  by_cases hleft : key = 0x2A
  · subst hleft
    simp [hup]
  · by_cases hright : key = 0x36
    · subst hright
      simp [hup]
    · by_cases hcaps : key = 0x3A
      · subst hcaps
        have hsucc : k.capsLock + 1 + repeats es = k.capsLock + repeats es + 1 := by omega
        simp [hsucc, odd_succ]
      · simp [hleft, hright, hcaps, Function.update_of_ne, Ne.symm]

theorem Toggled.autoRepeat (h : Toggled k es shift) (hkey : IsKey key) :
    Toggled k (es ++ [.autoRepeat key]) (if togglesShift key then !shift else shift) := by
  rw [Toggled] at h ⊢
  rw [repeats_append, togglesShift_make hkey, h, ← Nat.add_assoc]
  by_cases hshift : (key = 0x2A ∨ key = 0x36) ∨ key = 0x3A
  · have hone : repeats [.autoRepeat key] = 1 := by
      rcases hshift with (rfl | rfl) | rfl <;> rfl
    rw [hone, odd_succ]
    rcases hshift with (rfl | rfl) | rfl <;> simp
  · obtain ⟨⟨hleft, hright⟩, hcaps⟩ : (key ≠ 0x2A ∧ key ≠ 0x36) ∧ key ≠ 0x3A := by
      simpa [not_or] using hshift
    have hnone : repeats [.autoRepeat key] = 0 := by
      simp [repeats, hleft, hright, hcaps]
    simp [hnone, hleft, hright, hcaps]

theorem Toggled.release (h : Toggled k es shift) (hkey : IsKey key) (hdown : k.held key = true) :
    Toggled { k with held := Function.update k.held key false } (es ++ [.release key])
      (if togglesShift (key ||| 0x80) then !shift else shift) := by
  have hnone : repeats [.release key] = 0 := rfl
  rw [Toggled] at h ⊢
  rw [repeats_append, hnone, togglesShift_break hkey, h]
  by_cases hleft : key = 0x2A
  · subst hleft
    simp [hdown]
  · by_cases hright : key = 0x36
    · subst hright
      simp [hdown]
    · simp [hleft, hright, Function.update_of_ne, Ne.symm]

/-- One more event of a key. -/
theorem Toggled.step (h : Toggled k es shift) (hstep : keys.step k e = some k') :
    IsKey e.key ∧ Toggled k' (es ++ [e]) (if togglesShift e.code then !shift else shift) := by
  simp only [keys] at hstep
  split at hstep
  case isFalse => cases hstep
  case isTrue hkey =>
    refine ⟨hkey, ?_⟩
    cases e with
    | press key =>
      simp only at hstep
      split at hstep
      case isTrue => cases hstep
      case isFalse hup =>
        cases hstep
        exact h.press hkey (by simpa using hup)
    | autoRepeat key =>
      simp only at hstep
      split at hstep
      case isTrue =>
        cases hstep
        exact h.autoRepeat hkey
      case isFalse => cases hstep
    | release key =>
      simp only at hstep
      split at hstep
      case isTrue hdown =>
        cases hstep
        exact h.release hkey hdown
      case isFalse => cases hstep

/-- **`shift` after a stream of a keyboard.** -/
theorem scan_keys {k₀ : Keys} (hinit : keys.init k₀) (hrun : keys.exec k₀ es = some k) :
    (scan (es.map KeyEvent.code)).extended = false ∧
      Toggled k es (scan (es.map KeyEvent.code)).shift := by
  induction es using List.reverseRecOn generalizing k with
  | nil =>
    cases hrun
    obtain ⟨hheld, hcaps⟩ := hinit
    refine ⟨rfl, ?_⟩
    rw [Toggled, hheld, hcaps]
    rfl
  | append_singleton es e ih =>
    rw [Machine.exec_append] at hrun
    obtain ⟨k₁, hpre, hlast⟩ := Option.bind_eq_some_iff.mp hrun
    obtain ⟨k₂, hstep, hend⟩ := Option.bind_eq_some_iff.mp hlast
    cases hend
    obtain ⟨hext, htoggled⟩ := ih hpre
    obtain ⟨hkey, htoggled'⟩ := htoggled.step hstep
    rw [List.map_append, List.map_singleton, scan_append_singleton, scanToAscii,
      if_neg (code_ne_extended hkey), hext]
    exact ⟨rfl, htoggled'⟩

end

/-- `ascii - 'a' + 'A'` -/
def upperCase (letter : UInt8) : UInt8 := letter - 'a'.toUInt8 + 'A'.toUInt8

/-- The keys of letters. -/
theorem toAscii_letter {key letter : UInt8} (h : letter? key = some letter) :
    key ≠ 0xE0 ∧ togglesShift key = false ∧ upperCase letter ≠ letter ∧
      ∀ shift, toAscii shift key = if shift then upperCase letter else letter := by
  have hall : ∀ key : UInt8, ∀ letter ∈ letter? key,
      key ≠ 0xE0 ∧ togglesShift key = false ∧ upperCase letter ≠ letter ∧
        ∀ shift, toAscii shift key = if shift then upperCase letter else letter := by
    apply forall_uint8
    decide +kernel
  exact hall key letter h

/-- **Letters are upper case when they are meant to be** exactly if the shift keys and Caps Lock have
repeated an odd number of times when both shift keys are held, and an even number of times
otherwise. -/
theorem shift_tracks_iff {k₀ k : Keys} (hinit : keys.init k₀) {es : List KeyEvent}
    (hrun : keys.exec k₀ es = some k) {key letter : UInt8} (hletter : letter? key = some letter) :
    resultAfter (es.map KeyEvent.code) key = (if k.upper then upperCase letter else letter) ↔
      (repeats es % 2 = 1 ↔ k.held 0x2A = true ∧ k.held 0x36 = true) := by
  obtain ⟨hext, htoggled⟩ := scan_keys hinit hrun
  obtain ⟨hne, hnot, hcase, htoAscii⟩ := toAscii_letter hletter
  have hresult : resultAfter (es.map KeyEvent.code) key =
      if (scan (es.map KeyEvent.code)).shift then upperCase letter else letter := by
    rw [resultAfter, scanToAscii, if_neg hne, hext, hnot]
    exact htoAscii _
  have hshift : ∀ a b : Bool, (if a then upperCase letter else letter) =
      (if b then upperCase letter else letter) ↔ a = b := by
    intro a b
    cases a <;> cases b <;> simp [hcase, hcase.symm]
  have hparity : ((k.capsLock + repeats es) % 2 == 1) =
      ((k.capsLock % 2 == 1) != (repeats es % 2 == 1)) := by
    rcases Nat.mod_two_eq_zero_or_one k.capsLock with ha | ha <;>
      rcases Nat.mod_two_eq_zero_or_one (repeats es) with hb | hb <;>
      simp [Nat.add_mod, ha, hb]
  rw [hresult, hshift, htoggled, hparity, Keys.upper, ← beq_iff_eq (a := repeats es % 2)]
  generalize (k.capsLock % 2 == 1) = caps
  generalize (repeats es % 2 == 1) = odd
  generalize k.held 0x2A = left
  generalize k.held 0x36 = right
  revert caps odd left right
  decide

/-- Both shift keys are held, and one of them has repeated once. -/
theorem shift_tracks_example :
    keys.init ⟨fun _ => false, 0⟩ ∧
    (keys.exec ⟨fun _ => false, 0⟩
      [.press 0x2A, .autoRepeat 0x2A, .press 0x36]).isSome = true ∧
    ∀ k, keys.exec ⟨fun _ => false, 0⟩ [.press 0x2A, .autoRepeat 0x2A, .press 0x36] = some k →
      (resultAfter [0x2A, 0x2A, 0x36] 0x1E =
          (if k.upper then upperCase 'a'.toUInt8 else 'a'.toUInt8) ↔
        (repeats [.press 0x2A, .autoRepeat 0x2A, .press 0x36] % 2 = 1 ↔
          k.held 0x2A = true ∧ k.held 0x36 = true)) :=
  ⟨⟨rfl, rfl⟩, by decide, fun _ hk => shift_tracks_iff ⟨rfl, rfl⟩ hk (by decide)⟩

/-- The left shift key repeats once while it is held: the letter `a` is lower case. -/
theorem shift_repeats : ∃ k, keys.exec ⟨fun _ => false, 0⟩ [.press 0x2A, .autoRepeat 0x2A] = some k ∧
    resultAfter [0x2A, 0x2A] 0x1E ≠ if k.upper then upperCase 'a'.toUInt8 else 'a'.toUInt8 := by
  refine ⟨_, rfl, ?_⟩
  decide

/-! ## Presses and releases -/

/-- The event that is posted for `c` after the stream `pre`. -/
def posted (pre : List UInt8) (c : UInt8) : Option (UserEvents × UInt8) :=
  (keyboardPacket c (scan pre)).1

/-- A make code. -/
def IsMake (key : UInt8) : Prop := key &&& 0x80 = 0

instance (key : UInt8) : Decidable (IsMake key) := inferInstanceAs (Decidable (_ = _))

/-- A key has been pressed and not released since. -/
def Down (codes : List UInt8) (key : UInt8) : Prop :=
  ∃ pre mid, codes = pre ++ key :: mid ∧ key ||| 0x80 ∉ mid

/-- A key has been reported down with a character and has not been released since. -/
def ReportedDown (codes : List UInt8) (key ascii : UInt8) : Prop :=
  ∃ pre mid, codes = pre ++ key :: mid ∧ key ||| 0x80 ∉ mid ∧
    posted pre key = some (.keyCharDown, ascii)

/-- The break code of a key that has been reported down reports it up, and no other scancode does. -/
def Paired (codes : List UInt8) : Prop :=
  ∀ pre c post, codes = pre ++ c :: post →
    (∀ key, IsMake key → c = key ||| 0x80 → (∃ ascii, ReportedDown pre key ascii) →
      ∃ ascii, ReportedDown pre key ascii ∧ posted pre c = some (.keyCharUp, ascii)) ∧
    ∀ ascii, posted pre c = some (.keyCharUp, ascii) →
      ∃ key, IsMake key ∧ c = key ||| 0x80 ∧ ReportedDown pre key ascii

/-- Break codes have no characters, and keys have characters as `keymap` says. -/
theorem toAscii_eq_zero_iff (shift : Bool) (c : UInt8) :
    (c &&& 0x80 ≠ 0 → toAscii shift c = 0) ∧
      (IsMake c → (toAscii shift c = 0 ↔ keymap.getD c.toNat 0 = 0)) := by
  have hall : ∀ c : UInt8, (c &&& 0x80 ≠ 0 → toAscii shift c = 0) ∧
      (IsMake c → (toAscii shift c = 0 ↔ keymap.getD c.toNat 0 = 0)) := by
    apply forall_uint8
    cases shift <;> decide +kernel
  exact hall c

/-- `KEY_CHAR_UP` is never posted. -/
theorem posted_ne_keyCharUp {pre : List UInt8} {c : UInt8} (h : 0xE0 ∉ pre) (hc : c ≠ 0xE0)
    (ascii : UInt8) : posted pre c ≠ some (.keyCharUp, ascii) := by
  obtain ⟨shift, hresult⟩ := resultAfter_of_not_mem h hc
  rw [posted, keyboardPacket, ← resultAfter, hresult]
  by_cases hbreak : c &&& 0x80 ≠ 0
  · simp [(toAscii_eq_zero_iff shift c).1 hbreak]
  · by_cases hascii : toAscii shift c = 0 <;> simp [hascii, hbreak]

/-- `KEY_CHAR_DOWN` is posted for the make codes of all keys that have a character. -/
theorem posted_keyCharDown_iff {pre : List UInt8} {key : UInt8} (h : 0xE0 ∉ pre)
    (hkey : key ≠ 0xE0) (hmake : IsMake key) :
    (∃ ascii, posted pre key = some (.keyCharDown, ascii)) ↔ keymap.getD key.toNat 0 ≠ 0 := by
  obtain ⟨shift, hresult⟩ := resultAfter_of_not_mem h hkey
  have hchar := not_congr ((toAscii_eq_zero_iff shift key).2 hmake)
  rw [posted, keyboardPacket, ← resultAfter, hresult, ne_eq (keymap.getD _ _), ← hchar]
  have hdown : ¬ key &&& 0x80 ≠ 0 := Classical.not_not.mpr hmake
  by_cases hascii : toAscii shift key = 0 <;> simp [hascii, hdown]

/-- **Presses and releases pair up** exactly in the streams in which no key that has a character is
released. -/
theorem releases_iff {codes : List UInt8} (h : 0xE0 ∉ codes) :
    Paired codes ↔ ∀ pre key post, codes = pre ++ (key ||| 0x80) :: post → IsMake key →
      Down pre key → keymap.getD key.toNat 0 = 0 := by
  have hmem : ∀ {pre c post}, codes = pre ++ c :: post → 0xE0 ∉ pre ∧ c ≠ 0xE0 := by
    rintro pre c post rfl
    exact ⟨fun hpre => h (List.mem_append_left _ hpre),
      fun hc => h (hc ▸ List.mem_append_right pre List.mem_cons_self)⟩
  have hreported : ∀ {pre c post key}, codes = pre ++ c :: post → IsMake key →
      ((∃ ascii, ReportedDown pre key ascii) ↔ Down pre key ∧ keymap.getD key.toNat 0 ≠ 0) := by
    intro pre c post key hsplit hmake
    constructor
    · rintro ⟨ascii, p, mid, rfl, hmid, hdown⟩
      obtain ⟨hp, hkey⟩ := hmem (hsplit.trans (List.append_assoc p (key :: mid) (c :: post)))
      exact ⟨⟨p, mid, rfl, hmid⟩, (posted_keyCharDown_iff hp hkey hmake).mp ⟨ascii, hdown⟩⟩
    · rintro ⟨⟨p, mid, rfl, hmid⟩, hchar⟩
      obtain ⟨hp, hkey⟩ := hmem (hsplit.trans (List.append_assoc p (key :: mid) (c :: post)))
      obtain ⟨ascii, hdown⟩ := (posted_keyCharDown_iff hp hkey hmake).mpr hchar
      exact ⟨ascii, p, mid, rfl, hmid, hdown⟩
  constructor
  · intro hpaired pre key post hsplit hmake hdown
    by_contra hchar
    obtain ⟨hpre, hc⟩ := hmem hsplit
    obtain ⟨ascii, -, hup⟩ := (hpaired pre _ post hsplit).1 key hmake rfl
      ((hreported hsplit hmake).mpr ⟨hdown, hchar⟩)
    exact posted_ne_keyCharUp hpre hc ascii hup
  · intro hnone pre c post hsplit
    obtain ⟨hpre, hc⟩ := hmem hsplit
    refine ⟨?_, ?_⟩
    · rintro key hmake rfl hdown
      obtain ⟨hdown, hchar⟩ := (hreported hsplit hmake).mp hdown
      exact absurd (hnone pre key post hsplit hmake hdown) hchar
    · intro ascii hup
      exact absurd hup (posted_ne_keyCharUp hpre hc ascii)

/-- Both shift keys are pressed and released, and `a` is pressed while the first one is down. -/
def heldDown : List UInt8 := [0x2A, 0x1E, 0x36, 0xAA, 0xB6]

theorem releases_heldDown : posted [0x2A] 0x1E = some (.keyCharDown, 'A'.toUInt8) ∧ Paired heldDown := by
  have hreleased : ∀ key : UInt8, IsMake key → key ||| 0x80 ∈ heldDown → keymap.getD key.toNat 0 = 0 := by
    apply forall_uint8
    decide +kernel
  refine ⟨by decide, (releases_iff (by decide)).mpr ?_⟩
  intro pre key post hsplit hmake _
  exact hreleased key hmake (hsplit ▸ List.mem_append_right pre List.mem_cons_self)

/-- The key `a` is pressed and released: nobody learns of the release. -/
theorem release_unreported : (0xE0 : UInt8) ∉ [0x1E, 0x9E] ∧ ¬ Paired [0x1E, 0x9E] := by
  refine ⟨by decide, ?_⟩
  intro h
  obtain ⟨ascii, -, hup⟩ := (h [0x1E] 0x9E [] rfl).1 0x1E (by decide) (by decide)
    ⟨'a'.toUInt8, [], [], rfl, List.not_mem_nil, by decide⟩
  have hnone : posted [0x1E] 0x9E = none := by decide
  rw [hnone] at hup
  cases hup

end Shipwreck.Input
