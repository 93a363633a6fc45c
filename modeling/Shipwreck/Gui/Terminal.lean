import Shipwreck.Gui.LineEditor

/-!
# Typed input

`GUITerminal` hands the keys of the event thread to the threads that read lines, through a ring of 64
characters and the monitor `INPUT_MONITOR`. `key_handler` drops a key when the ring is full; else it
stores the key, moves `input_buf_tail` on and raises the signal. `read` enters the monitor for every key,
where it waits for the signal and takes one off it, and leaves it after the newline.

The threads take their steps in any order. Of the monitor only this is used: one thread at a time is in
it, and it goes on when the signal is positive.

    lines read so far | keys of the current read | keys to be read | key to be counted
                      |                       head              tail

`input_intact` says that nothing gets lost on the way.
-/

namespace Shipwreck.Gui

/-- `GUITerminal` -/
structure Terminal where
  inputBuf : Nat → UInt8
  head : Nat
  tail : Nat
  textbox : TextBox

/-- Where the event thread stands in `key_handler`. -/
inductive HandlerPc where
  | idle
  /-- It is about to compare the size of the ring. -/
  | check (key : UInt8)
  /-- It is about to store the key. -/
  | store (key : UInt8)
  /-- `input_buf_tail++` is next. -/
  | count (key : UInt8)
  /-- `notify(INPUT_MONITOR, 1)` is next. -/
  | notify

/-- Where a thread stands in `read`; `keys` are the ones that this call has taken. -/
inductive ReaderPc where
  | idle
  /-- `monitor` waits for the lock. -/
  | lock (r : LineReader) (keys : List UInt8)
  /-- `monitor` waits for the signal. -/
  | wait (r : LineReader) (keys : List UInt8)
  /-- `nextchar` is about to be fetched. -/
  | fetch (r : LineReader) (keys : List UInt8)
  /-- `input_buf_head++` is next. -/
  | advance (r : LineReader) (keys : List UInt8) (nextchar : UInt8)
  /-- The line is about to be edited. -/
  | edit (r : LineReader) (keys : List UInt8) (nextchar : UInt8)
  /-- `unmonitor` is next. -/
  | unlock (r : LineReader) (keys : List UInt8)

/-- A call of `read` that has returned. -/
structure LineRead where
  reader : LineReader
  keys : List UInt8

/-- The terminal, its monitor and the threads; the keys that have been stored, and the lines that have
been read. -/
structure InputSys (Tid : Type) where
  terminal : Terminal
  owner : Option Tid
  signal : Int
  handler : HandlerPc
  pc : Tid → ReaderPc
  accepted : List UInt8
  lines : List LineRead

/-- `key_handler(key)` is called or goes on; a thread calls `read(buffer, max)` or goes on. -/
inductive InputAct (Tid : Type) where
  | key (key : UInt8)
  | handle
  | read (t : Tid) (buffer : Int → UInt8) (max : UInt32)
  | exec (t : Tid)

namespace InputSys

variable {Tid : Type} [DecidableEq Tid] (W H : Nat) (s : InputSys Tid)

/-- The event thread goes on up to its next access to the terminal. -/
def handle : Option (InputSys Tid) :=
  match s.handler with
  | .idle => none
  | .check key =>
    if s.terminal.tail - s.terminal.head ≥ maxInputBuffer then some { s with handler := .idle }
    else some { s with handler := .store key }
  | .store key =>
    some { s with
      terminal.inputBuf := RingBuffer.write maxInputBuffer s.terminal.tail key s.terminal.inputBuf
      handler := .count key }
  | .count key =>
    some { s with
      terminal.tail := s.terminal.tail + 1
      handler := .notify
      accepted := s.accepted ++ [key] }
  | .notify => some { s with signal := s.signal + 1, handler := .idle }

def goto (t : Tid) (pc : ReaderPc) : InputSys Tid := { s with pc := Function.update s.pc t pc }

/-- A reader goes on up to its next access to the terminal or to the monitor. -/
def exec (t : Tid) : Option (InputSys Tid) :=
  match s.pc t with
  | .idle => none
  | .lock r keys =>
    if s.owner = none ∨ s.owner = some t then
      some ({ s with owner := some t }.goto t (.wait r keys))
    else none
  | .wait r keys =>
    if s.signal > 0 then
      some ({ s with signal := max 0 (s.signal - 1) }.goto t (.fetch r keys))
    else none
  | .fetch r keys =>
    some (s.goto t (.advance r keys (s.terminal.inputBuf (s.terminal.head % maxInputBuffer))))
  | .advance r keys nextchar =>
    some ({ s with terminal.head := s.terminal.head + 1 }.goto t
      (.edit r (keys ++ [nextchar]) nextchar))
  | .edit r keys nextchar =>
    let edited := editChar W H nextchar r s.terminal.textbox
    let s := { s with terminal.textbox := edited.2 }
    if nextchar ≠ newline then some (s.goto t (.lock edited.1 keys))
    else some (s.goto t (.unlock edited.1 keys))
  | .unlock r keys =>
    some ({ s with owner := none, lines := s.lines ++ [LineRead.mk r keys] }.goto t .idle)

def step : InputAct Tid → Option (InputSys Tid)
  | .key key =>
    match s.handler with
    | .idle => some { s with handler := .check key }
    | _ => none
  | .handle => s.handle
  | .read t buffer max =>
    match s.pc t with
    | .idle => if 2 ≤ max.toNat then some (s.goto t (.lock ⟨buffer, max, 0, []⟩ [])) else none
    | _ => none
  | .exec t => s.exec W H t

end InputSys

/-- A terminal with nothing typed and nobody reading. -/
def terminal (Tid : Type) [DecidableEq Tid] (W H : Nat) : Machine (InputSys Tid) (InputAct Tid) where
  init s := s.terminal.head = 0 ∧ s.terminal.tail = 0 ∧ s.owner = none ∧ s.signal = 0 ∧
    s.handler = .idle ∧ (∀ t, s.pc t = .idle) ∧ s.accepted = [] ∧ s.lines = []
  step := InputSys.step W H

/-! ## What holds of one reader -/

/-- A reader has edited the line that these keys make. -/
structure Editing (r : LineReader) (keys : List UInt8) : Prop where
  max : 2 ≤ r.max.toNat
  open' : newline ∉ keys
  holds : r.Holds (editLine r.max.toNat keys)

/-- A reader has finished the line that these keys make, with the newline. -/
def Finished (r : LineReader) (keys : List UInt8) : Prop :=
  ∃ typed, keys = typed ++ [newline] ∧ newline ∉ typed ∧
    r.Holds (editLine r.max.toNat typed ++ [newline])

theorem Editing.start {buffer : Int → UInt8} {max : UInt32} (hmax : 2 ≤ max.toNat) :
    Editing ⟨buffer, max, 0, []⟩ [] where
  max := hmax
  open' := List.not_mem_nil
  holds := by
    refine ⟨rfl, ?_, ?_⟩
    · intro i c hc
      rw [editLine, List.foldl_nil, List.getElem?_nil] at hc
      cases hc
    · intro i hi
      cases hi

section

variable {W H : Nat} {r : LineReader} {keys : List UInt8} {c : UInt8}

/-- A key that does not end the line. -/
theorem Editing.edit (h : Editing r keys) (hc : c ≠ newline) (textbox : TextBox) :
    Editing (editChar W H c r textbox).1 (keys ++ [c]) := by
  obtain ⟨hmax, hholds⟩ := editChar_holds (W := W) (H := H) (c := c) h.max h.holds
    (length_editLine h.max) textbox
  rw [if_neg hc, ← editLine_snoc] at hholds
  refine ⟨?_, ?_, ?_⟩
  · rw [hmax]
    exact h.max
  · simpa [h.open'] using Ne.symm hc
  · rw [hmax]
    exact hholds

/-- The newline. -/
theorem Editing.finish (h : Editing r keys) (textbox : TextBox) :
    Finished (editChar W H newline r textbox).1 (keys ++ [newline]) := by
  obtain ⟨hmax, hholds⟩ := editChar_holds (W := W) (H := H) (c := newline) h.max h.holds
    (length_editLine h.max) textbox
  rw [if_pos rfl] at hholds
  refine ⟨keys, rfl, h.open', ?_⟩
  rw [hmax]
  exact hholds

end

namespace ReaderPc

/-- The keys that the call has taken. -/
def keys : ReaderPc → List UInt8
  | idle => []
  | lock _ keys | wait _ keys | fetch _ keys | advance _ keys _ | edit _ keys _ | unlock _ keys => keys

/-- The signals that the call has taken without having moved `input_buf_head` on. -/
def credit : ReaderPc → Nat
  | fetch .. | advance .. => 1
  | _ => 0

/-- The variables of the call. -/
def reader : ReaderPc → Option LineReader
  | idle => none
  | lock r _ | wait r _ | fetch r _ | advance r _ _ | edit r _ _ | unlock r _ => some r

/-- What holds of a thread that is not in the monitor. -/
def Outside : ReaderPc → Prop
  | idle => True
  | lock r keys => keys = [] ∧ Editing r []
  | _ => False

/-- What holds of the thread that is in the monitor. -/
def Inside (accepted : List UInt8) (head : Nat) : ReaderPc → Prop
  | idle => False
  | lock r keys | wait r keys | fetch r keys => Editing r keys
  | advance r keys nextchar => Editing r keys ∧ accepted[head]? = some nextchar
  | edit r keys nextchar => ∃ before, keys = before ++ [nextchar] ∧ Editing r before
  | unlock r keys => Finished r keys

end ReaderPc

namespace HandlerPc

/-- The places that the event thread has found free and not counted yet. -/
def claimed : HandlerPc → Nat
  | store _ | count _ => 1
  | _ => 0

/-- The keys that it has counted without having raised the signal. -/
def owed : HandlerPc → Nat
  | notify => 1
  | _ => 0

end HandlerPc

/-! ## The invariant -/

section

variable {Tid : Type} [DecidableEq Tid] {W H : Nat} {s s' : InputSys Tid} {t : Tid}

/-- Where the thread in the monitor stands. -/
def InputSys.active (s : InputSys Tid) : ReaderPc :=
  match s.owner with
  | some t => s.pc t
  | none => .idle

/-- All keys that have been taken, in the order in which this has happened. -/
def InputSys.taken (s : InputSys Tid) : List UInt8 := s.lines.flatMap LineRead.keys ++ s.active.keys

/-- The ring holds the keys that are still to be taken, the signal counts them, and the ones that have
been taken are the first ones. -/
structure InputInv (s : InputSys Tid) : Prop where
  tail : s.terminal.tail = s.accepted.length
  cells : RingBuffer.Holds maxInputBuffer s.terminal.inputBuf s.terminal.head s.accepted
  room : s.accepted.length + s.handler.claimed ≤ s.terminal.head + maxInputBuffer
  stored : ∀ key, s.handler = .count key →
    s.terminal.inputBuf (s.terminal.tail % maxInputBuffer) = key
  signal : 0 ≤ s.signal
  count : s.signal + s.handler.owed + s.active.credit + s.terminal.head = s.accepted.length
  taken : s.taken = s.accepted.take s.terminal.head
  outside : ∀ t, s.owner ≠ some t → (s.pc t).Outside
  inside : ∀ t, s.owner = some t → (s.pc t).Inside s.accepted s.terminal.head
  lines : ∀ line ∈ s.lines, Finished line.reader line.keys

omit [DecidableEq Tid] in
theorem active_of_owner (h : s.owner = some t) : s.active = s.pc t := by
  rw [InputSys.active, h]

omit [DecidableEq Tid] in
theorem ReaderPc.Inside.append {accepted : List UInt8} {head : Nat} {pc : ReaderPc} (key : UInt8)
    (h : pc.Inside accepted head) : pc.Inside (accepted ++ [key]) head := by
  cases pc with
  | advance r keys nextchar =>
    obtain ⟨hediting, hget⟩ := h
    have hlt : head < accepted.length := (List.getElem?_eq_some_iff.mp hget).1
    exact ⟨hediting, (List.getElem?_append_left hlt).trans hget⟩
  | idle | lock | wait | fetch | edit | unlock => exact h

namespace InputInv

omit [DecidableEq Tid] in
theorem head_le (h : InputInv s) : s.terminal.head ≤ s.accepted.length := by
  have hcount := h.count
  have hsignal := h.signal
  omega

/-! ### The event thread -/

omit [DecidableEq Tid] in
/-- The handler moves on, and may raise the signal. -/
theorem handler (h : InputInv s) {pc : HandlerPc} {signal : Int}
    (hroom : s.accepted.length + pc.claimed ≤ s.terminal.head + maxInputBuffer)
    (hstored : ∀ key, pc = .count key →
      s.terminal.inputBuf (s.terminal.tail % maxInputBuffer) = key)
    (hsignal : 0 ≤ signal) (hcount : signal + pc.owed = s.signal + s.handler.owed) :
    InputInv { s with handler := pc, signal := signal } :=
  { h with
    room := hroom
    stored := hstored
    signal := hsignal
    count := by
      have hcount' := h.count
      show signal + pc.owed + s.active.credit + s.terminal.head = s.accepted.length
      omega }

omit [DecidableEq Tid] in
theorem handle (h : InputInv s) (hs : s.handle = some s') : InputInv s' := by
  have hroom := h.room
  have hsignal := h.signal
  have hcount := h.count
  rw [InputSys.handle] at hs
  cases hpc : s.handler with
  | idle => simp [hpc] at hs
  | check key =>
    simp only [hpc] at hs hroom hcount
    split at hs
    case isTrue =>
      cases hs
      exact h.handler hroom (fun _ hkey => by cases hkey) hsignal (by rw [hpc]; rfl)
    case isFalse hfree =>
      cases hs
      refine h.handler ?_ (fun _ hkey => by cases hkey) hsignal (by rw [hpc]; rfl)
      rw [h.tail] at hfree
      show s.accepted.length + 1 ≤ _
      omega
  | store key =>
    simp only [hpc] at hs hroom hcount
    cases hs
    have hclaimed : s.accepted.length + 1 ≤ s.terminal.head + maxInputBuffer := hroom
    exact { h with
      -- the cell behind the last key holds no key that is waiting
      cells := h.cells.write_free (Nat.le_of_eq h.tail.symm) (by rw [h.tail]; exact hclaimed)
      room := hclaimed
      stored := by
        rintro _ ⟨⟩
        exact RingBuffer.write_self
      count := hcount }
  | count key =>
    simp only [hpc] at hs hroom hcount
    cases hs
    have hle := h.head_le
    have hclaimed : s.accepted.length + 1 ≤ s.terminal.head + maxInputBuffer := hroom
    have hcount' : s.signal + (0 : Nat) + s.active.credit + s.terminal.head = s.accepted.length := hcount
    -- `tail` goes on, and the key in its cell is accepted by that
    have hlen : (s.accepted ++ [key]).length = s.accepted.length + 1 := by simp
    exact {
      tail := by
        rw [hlen, ← h.tail]
      cells := h.cells.extend (by rw [← h.tail]; exact h.stored key hpc)
      room := by
        rw [hlen]
        exact hclaimed
      stored := fun _ hkey => by cases hkey
      signal := hsignal
      count := by
        show s.signal + (1 : Nat) + s.active.credit + s.terminal.head = (s.accepted ++ [key]).length
        rw [hlen]
        omega
      taken := by
        show s.taken = (s.accepted ++ [key]).take s.terminal.head
        rw [List.take_append_of_le_length hle]
        exact h.taken
      outside := h.outside
      inside := fun t ht => (h.inside t ht).append key
      lines := h.lines }
  | notify =>
    simp only [hpc] at hs hroom hcount
    cases hs
    refine h.handler hroom (fun _ hkey => by cases hkey) (by omega) ?_
    rw [hpc]
    show s.signal + 1 + (0 : Nat) = s.signal + (1 : Nat)
    omega

/-! ### The readers -/

omit [DecidableEq Tid] in
theorem owner_of_not_outside (h : InputInv s) (hpc : ¬ (s.pc t).Outside) : s.owner = some t := by
  by_contra howner
  exact hpc (h.outside t howner)

/-- The thread in the monitor moves on. -/
theorem move (h : InputInv s) (howner : s.owner = some t) (pc : ReaderPc) (head : Nat) (signal : Int)
    (textbox : TextBox) (hhead : s.terminal.head ≤ head) (hsignal : 0 ≤ signal)
    (hcount : signal + pc.credit + head = s.signal + (s.pc t).credit + s.terminal.head)
    (hkeys : s.lines.flatMap LineRead.keys ++ pc.keys = s.accepted.take head)
    (hinside : pc.Inside s.accepted head) :
    InputInv ({ s with
      terminal.head := head, terminal.textbox := textbox, signal := signal }.goto t pc) := by
  have hactive : InputSys.active ({ s with
      terminal.head := head, terminal.textbox := textbox, signal := signal }.goto t pc) = pc :=
    Eq.trans (active_of_owner (by exact howner)) (Function.update_self ..)
  have hcount' := h.count
  rw [active_of_owner howner] at hcount'
  exact { h with
    cells := h.cells.mono hhead
    room := Nat.le_trans h.room (Nat.add_le_add_right hhead _)
    signal := hsignal
    count := by
      rw [hactive]
      show signal + s.handler.owed + pc.credit + head = s.accepted.length
      omega
    taken := by
      rw [InputSys.taken, hactive]
      exact hkeys
    outside := by
      intro u hu
      have hne : u ≠ t := by
        rintro rfl
        exact hu howner
      show (Function.update s.pc t pc u).Outside
      rw [Function.update_of_ne hne]
      exact h.outside u hu
    inside := by
      intro u hu
      cases howner.symm.trans hu
      show (Function.update s.pc t pc t).Inside _ _
      rw [Function.update_self]
      exact hinside }

/-- A thread that is not in the monitor moves on. -/
theorem wander (h : InputInv s) (howner : s.owner ≠ some t) {pc : ReaderPc} (hpc : pc.Outside) :
    InputInv (s.goto t pc) := by
  have hactive : (s.goto t pc).active = s.active := by
    rw [InputSys.active, InputSys.active]
    show (match s.owner with | some u => Function.update s.pc t pc u | none => ReaderPc.idle) = _
    cases hs : s.owner with
    | none => rfl
    | some u =>
      have hne : u ≠ t := by
        rintro rfl
        exact howner hs
      exact Function.update_of_ne hne ..
  exact { h with
    count := by
      rw [hactive]
      exact h.count
    taken := by
      rw [InputSys.taken, hactive]
      exact h.taken
    outside := by
      intro u hu
      show (Function.update s.pc t pc u).Outside
      by_cases hut : u = t
      · rw [hut, Function.update_self]
        exact hpc
      · rw [Function.update_of_ne hut]
        exact h.outside u hu
    inside := by
      intro u hu
      have hne : u ≠ t := by
        rintro rfl
        exact howner hu
      show (Function.update s.pc t pc u).Inside _ _
      rw [Function.update_of_ne hne]
      exact h.inside u hu }

/-- A thread enters the monitor. -/
theorem enter (h : InputInv s) (hfree : s.owner = none) {r : LineReader} {keys : List UInt8}
    (hpc : s.pc t = .lock r keys) :
    InputInv ({ s with owner := some t }.goto t (.wait r keys)) := by
  obtain ⟨rfl, hediting⟩ : keys = [] ∧ Editing r [] := by
    have houtside := h.outside t (by simp [hfree])
    rw [hpc] at houtside
    exact houtside
  have hactive : InputSys.active ({ s with owner := some t }.goto t (.wait r [])) = .wait r [] :=
    Eq.trans (active_of_owner (by exact rfl)) (Function.update_self ..)
  have hidle : s.active = .idle := by rw [InputSys.active, hfree]
  have hcount := h.count
  have htaken := h.taken
  rw [InputSys.taken] at htaken
  rw [hidle] at hcount htaken
  exact { h with
    count := by
      rw [hactive]
      exact hcount
    taken := by
      rw [InputSys.taken, hactive]
      exact htaken
    outside := by
      intro u hu
      have hne : u ≠ t := by
        rintro rfl
        exact hu rfl
      show (Function.update s.pc t _ u).Outside
      rw [Function.update_of_ne hne]
      exact h.outside u (by simp [hfree])
    inside := by
      rintro u ⟨⟩
      show (Function.update s.pc t _ t).Inside _ _
      rw [Function.update_self]
      exact hediting }

/-- A thread leaves the monitor. -/
theorem leave (h : InputInv s) (howner : s.owner = some t) {r : LineReader} {keys : List UInt8}
    (hpc : s.pc t = .unlock r keys) :
    InputInv ({ s with owner := none, lines := s.lines ++ [LineRead.mk r keys] }.goto t .idle) := by
  have hfinished : Finished r keys := by
    have hinside := h.inside t howner
    rw [hpc] at hinside
    exact hinside
  have hcount := h.count
  have htaken := h.taken
  rw [InputSys.taken] at htaken
  rw [active_of_owner howner, hpc] at hcount htaken
  exact { h with
    count := hcount
    taken := by
      show (s.lines ++ [LineRead.mk r keys]).flatMap LineRead.keys ++ [] = _
      rw [List.flatMap_append, List.append_nil, List.flatMap_singleton]
      exact htaken
    outside := by
      intro u _
      show (Function.update s.pc t _ u).Outside
      by_cases hut : u = t
      · rw [hut, Function.update_self]
        trivial
      · rw [Function.update_of_ne hut]
        refine h.outside u ?_
        rw [howner]
        exact fun heq => hut (Option.some.inj heq).symm
    inside := by
      intro u hu
      cases hu
    lines := by
      intro line hline
      rcases List.mem_append.mp hline with hline | hline
      · exact h.lines line hline
      · rw [List.mem_singleton.mp hline]
        exact hfinished }

theorem exec (h : InputInv s) (hs : s.exec W H t = some s') : InputInv s' := by
  have howner' := h.owner_of_not_outside (t := t)
  have hinside := h.inside t
  have htaken : s.owner = some t →
      s.lines.flatMap LineRead.keys ++ (s.pc t).keys = s.accepted.take s.terminal.head := by
    intro howner
    rw [← active_of_owner howner]
    exact h.taken
  have hcount : s.owner = some t → s.signal + s.handler.owed + (s.pc t).credit + s.terminal.head =
      s.accepted.length := by
    intro howner
    rw [← active_of_owner howner]
    exact h.count
  have hsignal := h.signal
  rw [InputSys.exec] at hs
  cases hpc : s.pc t with
  | idle => simp [hpc] at hs
  | lock r keys =>
    simp only [hpc] at hs hinside htaken
    split at hs
    case isTrue hlock =>
      cases hs
      rcases hlock with hfree | howner
      · exact h.enter hfree hpc
      · -- `monitor` is called again by its owner
        have hsame : { s with owner := some t } = s := by rw [← howner]
        rw [hsame]
        exact h.move howner (.wait r keys) s.terminal.head s.signal s.terminal.textbox
          (Nat.le_refl _) hsignal (by rw [hpc]; rfl) (htaken howner) (hinside howner)
    case isFalse => cases hs
  | wait r keys =>
    have howner := howner' (by rw [hpc]; exact id)
    simp only [hpc] at hs hinside htaken
    split at hs
    case isTrue hpos =>
      cases hs
      refine h.move howner (.fetch r keys) s.terminal.head (max 0 (s.signal - 1)) s.terminal.textbox
        (Nat.le_refl _) (Int.le_max_left ..) ?_ (htaken howner) (hinside howner)
      rw [hpc]
      show max 0 (s.signal - 1) + (1 : Nat) + s.terminal.head =
        s.signal + (0 : Nat) + s.terminal.head
      omega
    case isFalse => cases hs
  | fetch r keys =>
    have howner := howner' (by rw [hpc]; exact id)
    simp only [hpc] at hs hinside htaken hcount
    cases hs
    have hcredit : s.signal + s.handler.owed + (1 : Nat) + s.terminal.head = s.accepted.length :=
      hcount howner
    -- the signal that has been taken is for a key that is there
    have hlt : s.terminal.head < s.accepted.length := by omega
    refine h.move howner (.advance r keys _) s.terminal.head s.signal s.terminal.textbox
      (Nat.le_refl _) hsignal (by rw [hpc]; rfl) (htaken howner) ⟨hinside howner, ?_⟩
    rw [h.cells.get (Nat.le_refl _) hlt]
    exact List.getElem?_eq_getElem hlt
  | advance r keys nextchar =>
    have howner := howner' (by rw [hpc]; exact id)
    simp only [hpc] at hs hinside htaken
    cases hs
    obtain ⟨hediting, hget⟩ := hinside howner
    refine h.move howner (.edit r (keys ++ [nextchar]) nextchar) (s.terminal.head + 1) s.signal
      s.terminal.textbox (Nat.le_succ _) hsignal ?_ ?_ ⟨keys, rfl, hediting⟩
    · rw [hpc]
      show s.signal + (0 : Nat) + (s.terminal.head + 1 : Nat) =
        s.signal + (1 : Nat) + s.terminal.head
      omega
    · show s.lines.flatMap LineRead.keys ++ (keys ++ [nextchar]) = _
      rw [List.take_add_one, hget, ← htaken howner, List.append_assoc]
      rfl
  | edit r keys nextchar =>
    have howner := howner' (by rw [hpc]; exact id)
    simp only [hpc] at hs hinside htaken
    obtain ⟨before, rfl, hediting⟩ := hinside howner
    split at hs
    case isTrue hchar =>
      cases hs
      exact h.move howner (.lock _ (before ++ [nextchar])) s.terminal.head s.signal _
        (Nat.le_refl _) hsignal (by rw [hpc]; rfl) (htaken howner) (hediting.edit hchar _)
    case isFalse hchar =>
      obtain rfl : nextchar = newline := not_not.mp hchar
      cases hs
      exact h.move howner (.unlock _ (before ++ [newline])) s.terminal.head s.signal _
        (Nat.le_refl _) hsignal (by rw [hpc]; rfl) (htaken howner) (hediting.finish _)
  | unlock r keys =>
    have howner := howner' (by rw [hpc]; exact id)
    simp only [hpc] at hs
    cases hs
    exact h.leave howner hpc

theorem step {act : InputAct Tid} (h : InputInv s) (hs : s.step W H act = some s') : InputInv s' := by
  cases act with
  | key key =>
    rw [InputSys.step] at hs
    cases hpc : s.handler with
    | idle =>
      simp only [hpc] at hs
      cases hs
      have hroom := h.room
      rw [hpc] at hroom
      exact h.handler hroom (fun _ hkey => by cases hkey) h.signal (by rw [hpc]; rfl)
    | check | store | count | notify => simp [hpc] at hs
  | handle => exact h.handle hs
  | read t buffer max =>
    rw [InputSys.step] at hs
    cases hpc : s.pc t with
    | idle =>
      simp only [hpc] at hs
      split at hs
      case isTrue hmax =>
        cases hs
        refine h.wander ?_ ⟨rfl, .start hmax⟩
        intro howner
        have hinside := h.inside t howner
        rw [hpc] at hinside
        exact hinside
      case isFalse => cases hs
    | lock | wait | fetch | advance | edit | unlock => simp [hpc] at hs
  | exec t => exact h.exec hs

end InputInv

/-- The invariant of all runs. -/
theorem reachable_inputInv (hs : (terminal Tid W H).Reachable s) : InputInv s := by
  refine hs.invariant ?_ fun _ _ _ h hstep => h.step hstep
  rintro s ⟨hhead, htail, howner, hsignal, hhandler, hpc, haccepted, hlines⟩
  have hactive : s.active = .idle := by rw [InputSys.active, howner]
  refine ⟨?_, ?_, ?_, ?_, ?_, ?_, ?_, ?_, ?_, ?_⟩
  · rw [htail, haccepted, List.length_nil]
  · intro p a _ ha
    rw [haccepted, List.getElem?_nil] at ha
    cases ha
  · rw [haccepted, hhandler]
    exact Nat.zero_le _
  · intro key hkey
    rw [hhandler] at hkey
    cases hkey
  · rw [hsignal]
  · rw [hsignal, hhandler, hactive, hhead, haccepted]
    rfl
  · rw [InputSys.taken, hactive, hlines, haccepted, hhead]
    rfl
  · intro t _
    rw [hpc]
    trivial
  · intro t ht
    rw [howner] at ht
    cases ht
  · intro line hline
    rw [hlines] at hline
    cases hline

/-- The line of a call, finished or not, has only been written into its buffer. -/
theorem InputInv.written (h : InputInv s) {r : LineReader} (hr : (s.pc t).reader = some r) :
    ∀ i ∈ r.written, 0 ≤ i ∧ i < r.max.toNat := by
  have hediting : ∀ {keys}, Editing r keys → ∀ i ∈ r.written, 0 ≤ i ∧ i < r.max.toNat :=
    fun hediting => hediting.holds.written
  by_cases howner : s.owner = some t
  · have hinside := h.inside t howner
    cases hpc : s.pc t with
    | idle =>
      rw [hpc] at hr
      cases hr
    | lock | wait | fetch =>
      rw [hpc] at hr hinside
      cases hr
      exact hediting hinside
    | advance =>
      rw [hpc] at hr hinside
      cases hr
      exact hediting hinside.1
    | edit =>
      rw [hpc] at hr hinside
      cases hr
      obtain ⟨before, -, hbefore⟩ := hinside
      exact hediting hbefore
    | unlock =>
      rw [hpc] at hr hinside
      cases hr
      obtain ⟨typed, -, -, hholds⟩ := hinside
      exact hholds.written
  · have houtside := h.outside t howner
    cases hpc : s.pc t with
    | idle =>
      rw [hpc] at hr
      cases hr
    | lock =>
      rw [hpc] at hr houtside
      cases hr
      exact hediting houtside.2
    | wait | fetch | advance | edit | unlock =>
      rw [hpc] at houtside
      exact houtside.elim

/-- **Typed input is intact**, whatever the order of the steps: every call of `read` that has returned
holds the line that its keys make, the keys that have been taken are the first of the ones accepted, in
order, and so is the one that is being taken; nothing is written outside the buffer of a call; and no
call waits while there is a key that has been announced. -/
theorem input_intact (hs : (terminal Tid W H).Reachable s) :
    (∀ line ∈ s.lines, Finished line.reader line.keys) ∧
      s.lines.flatMap LineRead.keys ++ s.active.keys = s.accepted.take s.terminal.head ∧
      (∀ t r keys nextchar, s.pc t = .advance r keys nextchar →
        s.accepted[s.terminal.head]? = some nextchar) ∧
      (∀ t r, (s.pc t).reader = some r → ∀ i ∈ r.written, 0 ≤ i ∧ i < r.max.toNat) ∧
      (∀ t r keys, s.owner = some t → s.pc t = .wait r keys → s.handler ≠ .notify →
        s.terminal.head < s.accepted.length → 0 < s.signal) := by
  have h := reachable_inputInv hs
  refine ⟨h.lines, h.taken, ?_, fun t r => h.written, ?_⟩
  · intro t r keys nextchar hpc
    have howner : s.owner = some t := h.owner_of_not_outside (by rw [hpc]; exact id)
    have hinside := h.inside t howner
    rw [hpc] at hinside
    exact hinside.2
  · intro t r keys howner hpc hhandler hmore
    have hcount := h.count
    have howed : s.handler.owed = 0 := by
      cases hh : s.handler with
      | notify => exact absurd hh hhandler
      | idle | check | store | count => rfl
    rw [active_of_owner howner, hpc, howed] at hcount
    have hcount' : s.signal + (0 : Nat) + (0 : Nat) + s.terminal.head = s.accepted.length := hcount
    omega

end

/-- `'a'`, `'b'` and `'\n'` are typed while a thread reads a line into two bytes: `'b'` takes the place of
`'a'`. -/
def typing : List (InputAct Bool) :=
  [.read true (fun _ => 0) 2, .exec true, .key 97, .handle, .handle, .handle, .handle, .exec true,
    .key 98, .handle, .exec true, .exec true, .handle, .exec true, .handle, .exec true, .handle,
    .exec true, .exec true, .exec true, .exec true, .key 10, .handle, .handle, .exec true, .handle,
    .handle, .exec true, .exec true, .exec true, .exec true, .exec true]

/-- The state before. -/
def InputSys.start (Tid : Type) : InputSys Tid where
  terminal := ⟨fun _ => 0, 0, 0, .empty ⟨0, 0, 64, 40⟩⟩
  owner := none
  signal := 0
  handler := .idle
  pc _ := .idle
  accepted := []
  lines := []

theorem input_intact_example : ∃ s, (terminal Bool 8 2).exec (.start Bool) typing = some s ∧
    s.lines.map LineRead.keys = [[97, 98, 10]] ∧
    ∀ line ∈ s.lines, Finished line.reader line.keys := by
  refine ⟨_, rfl, by decide +kernel, ?_⟩
  exact (input_intact (W := 8) (H := 2)
    ⟨.start Bool, typing, ⟨rfl, rfl, rfl, rfl, rfl, fun _ => rfl, rfl, rfl⟩, rfl⟩).1

end Shipwreck.Gui
