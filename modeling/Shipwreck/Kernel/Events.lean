import Shipwreck.Queue.Wrap
import Shipwreck.Gui.Window

/-!
# The event system and the signal its loop waits for

`system/events.cpp`. Three workers share one kernel thread, which runs them in turn and otherwise
waits in `procs[0].monitor(MSG_MONITOR, 0)`; each has a queue of 16 messages that interrupt handlers,
system calls and the workers themselves post to. One number, `*procs[0].msg_signal`, stands for the
messages in all three queues: a post adds one to it, and a worker subtracts what it has dequeued.

A post adds one also when the queue was full and refused the message. `signal_counts` shows that the
signal is exact in every run whose posts find room; `refusal_uncounted` shows that it stays wrong
after one that does not.
-/

namespace Shipwreck.Kernel

open Queue (Message QueueRange SharedQueue Slot)
open CInt (toUint)

/-! ## Workers and their queues -/

/-- `struct DisplayMsg`. A window to redraw lies in the first word of `update_rect`. -/
structure DisplayMsg where
  event : Int32
  updateRect : Gui.Rect
  deriving DecidableEq, Repr

instance : Slot DisplayMsg where
  zero := ⟨0, ⟨0, 0, 0, 0⟩⟩
  word := DisplayMsg.event
  clear m := { m with event := 0 }
  word_zero := rfl
  word_clear _ := rfl

/-- The workers of `struct EventSystem`. -/
inductive Worker where
  | user
  | callback
  | display
  deriving DecidableEq, Repr

/-- What a worker's queue holds. -/
abbrev Worker.Msg : Worker → Type
  | user => Message
  | callback => Message
  | display => DisplayMsg

instance : (w : Worker) → Slot w.Msg
  | .user => inferInstanceAs (Slot Message)
  | .callback => inferInstanceAs (Slot Message)
  | .display => inferInstanceAs (Slot DisplayMsg)

/-- `MAX_EVENTS`. -/
def maxEvents : Nat := 16

/-- `struct EventSystem` and the message signal of the kernel's process, with the worker that has
dequeued messages and is processing them. The last three fields count the messages a queue has
accepted, those its worker has dequeued, and those it is done with. -/
structure EventState where
  queue : (w : Worker) → SharedQueue w.Msg
  deadline : UInt64
  msgSignal : Int32
  running : Option (Worker × QueueRange)
  accepted : Worker → Nat
  consumed : Worker → Nat
  released : Worker → Nat

namespace EventState

/-- What `init_events` leaves. -/
def start (deadline : UInt64) : EventState where
  queue := fun _ => SharedQueue.new
  deadline := deadline
  msgSignal := 0
  running := none
  accepted := fun _ => 0
  consumed := fun _ => 0
  released := fun _ => 0

/-- A message is put into a worker's queue, and counted in the signal whatever `enqueue` says. -/
def post (s : EventState) (w : Worker) (msg : w.Msg) : EventState :=
  let r := Queue.enqueue maxEvents (s.queue w) msg
  { s with
    queue := Function.update s.queue w r.1
    msgSignal := s.msgSignal + 1
    accepted := Function.update s.accepted w (s.accepted w + if r.2 = -1 then 0 else 1) }

/-- `new_user_event`. -/
def newUserEvent (s : EventState) (msgId data : Int32) : EventState := s.post .user ⟨msgId, data⟩

/-- `new_callback_event`: a message with the handler's address as its id. -/
def newCallbackEvent (s : EventState) (handler data : Int32) : EventState :=
  s.post .callback ⟨handler, data⟩

/-- `new_display_msg`. -/
def newDisplayMsg (s : EventState) (msg : DisplayMsg) : EventState := s.post .display msg

/-- The part of a worker's `run` that comes before its messages are processed. -/
def gatherAndDequeue (s : EventState) (w : Worker) : EventState :=
  let q := (Queue.gatherNewData maxEvents (s.queue w)).1
  if q.qSafe.size = 0 then { s with queue := Function.update s.queue w q }
  else
    let d := Queue.dequeue q 10
    { s with
      queue := Function.update s.queue w d.1
      running := some (w, d.2)
      consumed := Function.update s.consumed w (s.consumed w + d.2.span) }

/-- The beginning of a worker's `run`, at time `tsc`: the display worker first looks at its
deadline. -/
def startRun (s : EventState) (tsc : UInt64) : Worker → EventState
  | .display =>
    if tsc < s.deadline then s
    else { s with deadline := tsc + 0x4000000 }.gatherAndDequeue .display
  | w => s.gatherAndDequeue w

/-- The end of a worker's `run`, when the messages of `qr` have been processed. -/
def endRun (s : EventState) (w : Worker) (qr : QueueRange) : EventState :=
  { s with
    queue := Function.update s.queue w
      (Queue.garbageCollect maxEvents (Queue.release maxEvents (s.queue w) qr))
    msgSignal := s.msgSignal - Int32.ofInt qr.diff
    running := none
    released := Function.update s.released w (s.released w + qr.span) }

end EventState

/-- What can happen: a post, which may come from a message that is being processed, and the two ends
of a worker's `run`. -/
inductive EventOp where
  | newUserEvent (msgId data : Int32)
  | newCallbackEvent (handler data : Int32)
  | newDisplayMsg (msg : DisplayMsg)
  | startRun (w : Worker) (tsc : UInt64)
  | endRun
  deriving DecidableEq, Repr

/-- The queue an operation posts to. -/
def EventOp.posts : EventOp → Option Worker
  | newUserEvent _ _ => some .user
  | newCallbackEvent _ _ => some .callback
  | newDisplayMsg _ => some .display
  | _ => none

def EventState.step (s : EventState) : EventOp → Option EventState
  | .newUserEvent msgId data => some (s.newUserEvent msgId data)
  | .newCallbackEvent handler data => some (s.newCallbackEvent handler data)
  | .newDisplayMsg msg => some (s.newDisplayMsg msg)
  | .startRun w tsc => if s.running.isSome then none else some (s.startRun tsc w)
  | .endRun => s.running.map fun r => s.endRun r.1 r.2

/-- Runs of the event system. -/
def events : Machine EventState EventOp where
  init s := ∃ deadline, s = EventState.start deadline
  step := EventState.step

/-- The sum of a count over the three queues. -/
def overQueues (f : Worker → Int) : Int := f .user + f .callback + f .display

/-- The number of messages accepted and not consumed. -/
def EventState.pending (s : EventState) : Int :=
  overQueues fun w => s.accepted w - s.consumed w

/-- While no worker runs, the signal is the number of messages accepted and not consumed, so that
the event loop waits exactly when every accepted message has been consumed. -/
def EventState.Exact (s : EventState) : Prop :=
  s.running = none →
    s.msgSignal.toInt = s.pending ∧ (s.msgSignal ≤ 0 ↔ ∀ w, s.accepted w = s.consumed w)

/-- A message is posted only to a queue that holds fewer than 16 messages, and not as its 65536th. -/
def EventState.HasRoom (s : EventState) (op : EventOp) : Prop :=
  ∀ w, op.posts = some w → s.accepted w < s.released w + maxEvents ∧ s.accepted w < 65535

instance (s : EventState) (op : EventOp) : Decidable (s.HasRoom op) :=
  match h : op.posts with
  | none => isTrue fun w hw => by rw [h] at hw; cases hw
  | some w =>
    decidable_of_iff (s.accepted w < s.released w + maxEvents ∧ s.accepted w < 65535) <| by
      simp [EventState.HasRoom, h]

/-! ## One queue, by its counts -/

section Counted

variable {T : Type} [Slot T] {N : Nat} {q : SharedQueue T} {accepted consumed released : Nat}

/-- The indices of a queue are the numbers of messages accepted, dequeued and released; nothing has
wrapped, and no slot is used twice. -/
structure Counted (N : Nat) (q : SharedQueue T) (accepted consumed released : Nat) : Prop where
  count : accepted < 65536
  tail : q.qLocked.tail.toNat = accepted
  head : q.qLocked.head.toNat = released
  safe_head : q.qSafe.head.toNat = consumed
  released_le : released ≤ consumed
  consumed_le : consumed ≤ q.qSafe.tail.toNat
  gathered_le : q.qSafe.tail.toNat ≤ accepted
  room : accepted ≤ released + N
  safe_tail_mtx : q.safeTailMtx = 0
  locked_head_mtx : q.lockedHeadMtx = 0

namespace Counted

theorem new : Counted N (SharedQueue.new : SharedQueue T) 0 0 0 where
  count := by decide
  tail := rfl
  head := rfl
  safe_head := rfl
  released_le := Nat.le_refl _
  consumed_le := Nat.le_refl _
  gathered_le := Nat.le_refl _
  room := Nat.zero_le _
  safe_tail_mtx := rfl
  locked_head_mtx := rfl

omit [Slot T] in
/-- A queue with room accepts. -/
theorem enqueue (h : Counted N q accepted consumed released) (hroom : accepted < released + N)
    (hwrap : accepted < 65535) (msg : T) :
    (Queue.enqueue N q msg).2 ≠ -1 ∧
      Counted N (Queue.enqueue N q msg).1 (accepted + 1) consumed released := by
  have htail := h.tail
  have hhead := h.head
  have hrel := h.released_le
  have hcons := h.consumed_le
  have hgat := h.gathered_le
  have hnext : (q.qLocked.tail + 1).toNat = accepted + 1 := by
    rw [Queue.toNat_succ (by omega), htail]
  have hsize : q.qLocked.size = accepted - released := by
    rw [QueueRange.size_of_le (by omega), htail, hhead]
  have hfits : ¬ toUint (q.qLocked.size + 1) > N := by
    rw [hsize, toUint]
    omega
  have hacc : Queue.enqueue N q msg =
      ({ q with
          qLocked := { q.qLocked with tail := q.qLocked.tail + 1 }
          queue := Function.update q.queue (q.qLocked.tail.toNat % N) msg },
        (q.qLocked.tail.toNat : Int)) := if_neg hfits
  rw [hacc]
  refine ⟨by simp only; omega, ?_⟩
  exact
    { count := by omega
      tail := hnext
      head := hhead
      safe_head := h.safe_head
      released_le := hrel
      consumed_le := hcons
      gathered_le := Nat.le_succ_of_le hgat
      room := hroom
      safe_tail_mtx := h.safe_tail_mtx
      locked_head_mtx := h.locked_head_mtx }

/-- The gatherer passes some of the slots before it, and touches nothing else. -/
theorem gatherFrom_passes (n newFound : Nat) (hwrap : q.qSafe.tail.toNat + n < 65536) :
    ∃ k ≤ n, Queue.gatherFrom N n q newFound =
      ({ q with qSafe := { q.qSafe with tail := q.qSafe.tail + UInt16.ofNat k } },
        newFound + k) := by
  induction n generalizing q newFound with
  | zero => exact ⟨0, Nat.le_refl _, by simp [Queue.gatherFrom]⟩
  | succ n ih =>
    rw [Queue.gatherFrom]
    by_cases hword : Queue.word (q.queue (q.qSafe.tail.toNat % N)) = 0
    · refine ⟨0, Nat.zero_le _, ?_⟩
      rw [if_pos hword]
      simp
    · have htail : (q.qSafe.tail + 1).toNat = q.qSafe.tail.toNat + 1 :=
        Queue.toNat_succ (by omega)
      rw [if_neg hword]
      obtain ⟨k, hk, hrun⟩ := ih (q := { q with qSafe := { q.qSafe with tail := q.qSafe.tail + 1 } })
        (newFound + 1) (by simp only [htail]; omega)
      refine ⟨k + 1, Nat.succ_le_succ hk, ?_⟩
      rw [hrun]
      simp only [Queue.succ_add_ofNat]
      congr 1
      omega

theorem gatherNewData (h : Counted N q accepted consumed released) :
    Counted N (Queue.gatherNewData N q).1 accepted consumed released := by
  have htail := h.tail
  have hcount := h.count
  have hcons := h.consumed_le
  have hgat := h.gathered_le
  have hmtx := h.safe_tail_mtx
  have hsize : toUint ((q.qLocked.tail.toNat : Int) - q.qSafe.tail.toNat) =
      accepted - q.qSafe.tail.toNat := by
    rw [htail, toUint]
    omega
  obtain ⟨k, hk, hrun⟩ := gatherFrom_passes (q := { q with safeTailMtx := 1 }) (N := N)
    (accepted - q.qSafe.tail.toNat) 0 (by simp only; omega)
  have hnext : (q.qSafe.tail + UInt16.ofNat k).toNat = q.qSafe.tail.toNat + k :=
    Queue.toNat_add_ofNat (by omega)
  unfold Queue.gatherNewData
  simp only [hmtx, if_true, hsize, hrun]
  exact
    { count := hcount
      tail := htail
      head := h.head
      safe_head := h.safe_head
      released_le := h.released_le
      consumed_le := by simp only [hnext]; omega
      gathered_le := by simp only [hnext]; omega
      room := h.room
      safe_tail_mtx := rfl
      locked_head_mtx := h.locked_head_mtx }

omit [Slot T] in
/-- `dequeue` takes the indices from the number of messages consumed on. -/
theorem dequeue (h : Counted N q accepted consumed released) (hne : q.qSafe.size ≠ 0) (num : Nat) :
    (Queue.dequeue q num).2.head.toNat = consumed ∧
      (Queue.dequeue q num).2.tail.toNat = consumed + (Queue.dequeue q num).2.span ∧
      Counted N (Queue.dequeue q num).1 accepted (consumed + (Queue.dequeue q num).2.span)
        released := by
  have hcons := h.consumed_le
  have hgat := h.gathered_le
  have hrel := h.released_le
  have hcount := h.count
  have hhead := h.safe_head
  have hsize : q.qSafe.size = q.qSafe.tail.toNat - consumed := by
    rw [QueueRange.size_of_le (by omega), hhead]
  obtain ⟨n, hn⟩ : ∃ n, n = if num > q.qSafe.size then q.qSafe.size else num := ⟨_, rfl⟩
  have hle : n ≤ q.qSafe.size := by
    rw [hn]
    split <;> omega
  have hnext : (q.qSafe.head + UInt16.ofNat n).toNat = consumed + n := by
    rw [Queue.toNat_add_ofNat (by omega), hhead]
  have hdeq : Queue.dequeue q num =
      ({ q with qSafe := { q.qSafe with head := q.qSafe.head + UInt16.ofNat n } },
        ⟨q.qSafe.head, q.qSafe.head + UInt16.ofNat n⟩) := by
    rw [hn]
    exact if_neg hne
  have hspan : QueueRange.span ⟨q.qSafe.head, q.qSafe.head + UInt16.ofNat n⟩ = n := by
    rw [QueueRange.span_of_le (by simp only [hnext]; omega)]
    simp only [hnext, hhead]
    omega
  rw [hdeq]
  simp only [hspan]
  refine ⟨hhead, hnext, ?_⟩
  exact
    { count := hcount
      tail := h.tail
      head := h.head
      safe_head := hnext
      released_le := Nat.le_add_right_of_le hrel
      consumed_le := by simp only; omega
      gathered_le := hgat
      room := h.room
      safe_tail_mtx := h.safe_tail_mtx
      locked_head_mtx := h.locked_head_mtx }

/-- Releasing and collecting what was dequeued and not yet released. -/
theorem release (h : Counted N q accepted consumed released) {qr : QueueRange}
    (hhead : qr.head.toNat = released) (htail : qr.tail.toNat = consumed) :
    Counted N (Queue.garbageCollect N (Queue.release N q qr)) accepted consumed consumed := by
  have hrel := h.released_le
  have hcons := h.consumed_le
  have hgat := h.gathered_le
  have hroom := h.room
  have hcount := h.count
  have hlocked := h.head
  have hsafe := h.safe_head
  obtain ⟨q', hq'⟩ : ∃ q', q' = Queue.release N q qr := ⟨_, rfl⟩
  obtain ⟨hsame, hsame', hmtx, hmtx'⟩ :=
    Queue.releaseFrom_indices (N := N) (q := q) (qr.tail.toNat - qr.head.toNat) qr.head.toNat
  rw [← Queue.release, ← hq'] at hsame hsame' hmtx hmtx'
  -- every slot between the two heads has just been cleared
  have hclear : ∀ j, j < consumed - released →
      Queue.word (q'.queue ((q'.qLocked.head.toNat + j) % N)) = 0 := by
    intro j hj
    have hslot := Queue.releaseFrom_queue (N := N) (q := q) released
      (qr.tail.toNat - qr.head.toNat) qr.head.toNat (by omega) (by omega) (released + j) (by omega)
      (by omega)
    rw [if_pos (by omega), ← Queue.release, ← hq'] at hslot
    rw [hsame, hlocked, hslot]
    exact Slot.word_clear _
  have hgc := Queue.garbageCollect_cleared (N := N) (q := q') (n := consumed - released)
    (by rw [hmtx']; exact h.locked_head_mtx) (by rw [hsame, hsame']; omega)
    (by rw [hsame]; omega) hclear
  have hnext : (q'.qLocked.head + UInt16.ofNat (consumed - released)).toNat = consumed := by
    rw [hsame, Queue.toNat_add_ofNat (by omega), hlocked]
    omega
  rw [← hq', hgc]
  exact
    { count := hcount
      tail := by simp only [hsame]; exact h.tail
      head := hnext
      safe_head := by simp only [hsame']; exact hsafe
      released_le := Nat.le_refl _
      consumed_le := by simp only [hsame']; exact hcons
      gathered_le := by simp only [hsame']; exact hgat
      room := by omega
      safe_tail_mtx := by simp only [hmtx]; exact h.safe_tail_mtx
      locked_head_mtx := by simp only [hmtx']; exact h.locked_head_mtx }

end Counted

end Counted

/-! ## The invariant of the event system -/

/-- One count changes by `d`. -/
theorem overQueues_change {f g : Worker → Int} {w : Worker} {d : Int} (hw : g w = f w + d)
    (hne : ∀ w', w' ≠ w → g w' = f w') : overQueues g = overQueues f + d := by
  unfold overQueues
  cases w with
  | user =>
    rw [hw, hne .callback (by decide), hne .display (by decide)]
    omega
  | callback =>
    rw [hw, hne .user (by decide), hne .display (by decide)]
    omega
  | display =>
    rw [hw, hne .user (by decide), hne .callback (by decide)]
    omega

/-- The queues count their messages, and the signal counts those accepted and not released. A worker
that runs holds the range between its two counts. -/
structure EventInv (s : EventState) : Prop where
  counted : ∀ w, Counted maxEvents (s.queue w) (s.accepted w) (s.consumed w) (s.released w)
  signal : s.msgSignal = Int32.ofInt (overQueues fun w => s.accepted w - s.released w)
  done : ∀ w, (∀ qr, s.running ≠ some (w, qr)) → s.released w = s.consumed w
  range : ∀ w qr, s.running = some (w, qr) →
    qr.head.toNat = s.released w ∧ qr.tail.toNat = s.consumed w

namespace EventInv

variable {s s' : EventState} {w : Worker}

theorem start (deadline : UInt64) : EventInv (EventState.start deadline) where
  counted _ := Counted.new
  signal := rfl
  done _ _ := rfl
  range _ _ h := nomatch h

theorem post (h : EventInv s) (hroom : s.accepted w < s.released w + maxEvents)
    (hwrap : s.accepted w < 65535) (msg : w.Msg) : EventInv (s.post w msg) := by
  obtain ⟨haccept, hcounted⟩ := (h.counted w).enqueue hroom hwrap msg
  refine ⟨?_, ?_, h.done, h.range⟩
  · intro w'
    simp only [EventState.post]
    by_cases hw : w' = w
    · subst hw
      simp only [Function.update_self, if_neg haccept]
      exact hcounted
    · simp only [Function.update_of_ne hw]
      exact h.counted w'
  · simp only [EventState.post, if_neg haccept]
    have hone : (1 : Int32) = Int32.ofInt 1 := rfl
    rw [h.signal, hone, ← Int32.ofInt_add]
    congr 1
    symm
    apply overQueues_change (w := w)
    · simp only [Function.update_self]
      push_cast
      omega
    · intro w' hw
      simp only [Function.update_of_ne hw]

theorem gatherAndDequeue (h : EventInv s) (hidle : s.running = none) (w : Worker) :
    EventInv (s.gatherAndDequeue w) := by
  have hgather := (h.counted w).gatherNewData
  unfold EventState.gatherAndDequeue
  by_cases hempty : (Queue.gatherNewData maxEvents (s.queue w)).1.qSafe.size = 0
  · simp only [hempty, if_true]
    refine ⟨?_, h.signal, h.done, h.range⟩
    intro w'
    by_cases hw : w' = w
    · subst hw
      simp only [Function.update_self]
      exact hgather
    · simp only [Function.update_of_ne hw]
      exact h.counted w'
  · simp only [hempty, if_false]
    obtain ⟨hhead, htail, hcounted⟩ := hgather.dequeue hempty 10
    have hdone : s.released w = s.consumed w := h.done w (by rw [hidle]; exact fun _ h => nomatch h)
    refine ⟨?_, h.signal, ?_, ?_⟩
    · intro w'
      by_cases hw : w' = w
      · subst hw
        simp only [Function.update_self]
        exact hcounted
      · simp only [Function.update_of_ne hw]
        exact h.counted w'
    · intro w' hother
      have hw : w' ≠ w := by
        rintro rfl
        exact hother _ rfl
      simp only [Function.update_of_ne hw]
      exact h.done w' (by rw [hidle]; exact fun _ h => nomatch h)
    · intro w' qr hrun
      cases hrun
      simp only [Function.update_self]
      exact ⟨by rw [hhead, hdone], htail⟩

theorem startRun (h : EventInv s) (hidle : s.running = none) (tsc : UInt64) (w : Worker) :
    EventInv (s.startRun tsc w) := by
  cases w with
  | user => exact h.gatherAndDequeue hidle .user
  | callback => exact h.gatherAndDequeue hidle .callback
  | display =>
    rw [EventState.startRun]
    split
    case isTrue => exact h
    case isFalse =>
      have hlater : EventInv { s with deadline := tsc + 0x4000000 } :=
        ⟨h.counted, h.signal, h.done, h.range⟩
      exact hlater.gatherAndDequeue hidle .display

theorem endRun (h : EventInv s) {qr : QueueRange} (hrun : s.running = some (w, qr)) :
    EventInv (s.endRun w qr) := by
  obtain ⟨hhead, htail⟩ := h.range w qr hrun
  have hle := (h.counted w).released_le
  have hspan : s.released w + qr.span = s.consumed w := by
    rw [QueueRange.span_of_le (by omega), hhead, htail]
    omega
  have hcounted := (h.counted w).release hhead htail
  refine ⟨?_, ?_, ?_, fun _ _ h => nomatch h⟩
  · intro w'
    simp only [EventState.endRun]
    by_cases hw : w' = w
    · subst hw
      simp only [Function.update_self, hspan]
      exact hcounted
    · simp only [Function.update_of_ne hw]
      exact h.counted w'
  · simp only [EventState.endRun]
    rw [h.signal, ← Int32.ofInt_sub]
    congr 1
    rw [Int.sub_eq_add_neg]
    symm
    apply overQueues_change (w := w)
    · simp only [Function.update_self, QueueRange.diff]
      omega
    · intro w' hw
      simp only [Function.update_of_ne hw]
  · intro w' _
    simp only [EventState.endRun]
    by_cases hw : w' = w
    · subst hw
      simp only [Function.update_self, hspan]
    · simp only [Function.update_of_ne hw]
      apply h.done
      rw [hrun]
      rintro qr' ⟨⟩
      exact hw rfl

/-- A step whose post finds room keeps the invariant. -/
theorem step (h : EventInv s) {op : EventOp} (hroom : s.HasRoom op)
    (hs : s.step op = some s') : EventInv s' := by
  cases op with
  | newUserEvent msgId data =>
    obtain ⟨hfree, hwrap⟩ := hroom .user rfl
    cases hs
    exact h.post hfree hwrap _
  | newCallbackEvent handler data =>
    obtain ⟨hfree, hwrap⟩ := hroom .callback rfl
    cases hs
    exact h.post hfree hwrap _
  | newDisplayMsg msg =>
    obtain ⟨hfree, hwrap⟩ := hroom .display rfl
    cases hs
    exact h.post hfree hwrap msg
  | startRun w tsc =>
    simp only [EventState.step] at hs
    split at hs
    case isTrue => cases hs
    case isFalse hidle =>
      cases hs
      exact h.startRun (by simpa using hidle) tsc w
  | endRun =>
    simp only [EventState.step] at hs
    obtain ⟨⟨w, qr⟩, hrun, hs⟩ := Option.map_eq_some_iff.mp hs
    subst hs
    exact h.endRun hrun

/-- Outside a worker's run nothing is consumed and not released. -/
theorem exact (h : EventInv s) : s.Exact := by
  intro hidle
  have hdone : ∀ w, s.released w = s.consumed w := by
    intro w
    apply h.done
    rw [hidle]
    exact fun _ h => nomatch h
  -- a queue holds at most 16 messages, so the sum fits an `int`
  have hbound : ∀ w, s.consumed w ≤ s.accepted w ∧ s.accepted w ≤ s.consumed w + 16 := by
    intro w
    have hcounted := h.counted w
    have hcons := hcounted.consumed_le
    have hgat := hcounted.gathered_le
    have hfull := hcounted.room
    rw [hdone] at hfull
    exact ⟨by omega, hfull⟩
  have hu := hbound .user
  have hc := hbound .callback
  have hd := hbound .display
  have hpending : s.pending = (s.accepted .user - s.consumed .user : Int) +
      (s.accepted .callback - s.consumed .callback) +
      (s.accepted .display - s.consumed .display) := rfl
  have hsignal : s.msgSignal.toInt = s.pending := by
    rw [h.signal]
    simp only [hdone]
    apply Int32.toInt_ofInt_of_le
    · show -2147483648 ≤ s.pending
      omega
    · show s.pending < 2147483648
      omega
  have hzero : (0 : Int32).toInt = 0 := rfl
  refine ⟨hsignal, ?_⟩
  rw [Int32.le_iff_toInt_le, hsignal, hzero, hpending]
  constructor
  · intro hle w
    cases w <;> omega
  · intro hall
    rw [hall, hall, hall]
    omega

end EventInv

/-- **The signal counts the messages** in every run whose posts find room. -/
theorem signal_counts (deadline : UInt64) (ops : List EventOp)
    (h : events.Steps EventState.HasRoom (EventState.start deadline) ops) :
    events.States EventState.Exact (EventState.start deadline) ops := by
  apply Machine.states_of_steps (I := EventInv) (fun _ hs => hs.exact) _
    (EventInv.start deadline) h
  intro s op s' hs hroom hstep
  exact hs.step hroom hstep

/-- A mouse event is processed, and its redraw request is run after the deadline. -/
def mouseMoves : List EventOp :=
  [.newUserEvent 3 0, .startRun .display 50, .startRun .user 60, .newDisplayMsg ⟨2, ⟨0, 0, 0, 0⟩⟩,
    .endRun, .startRun .callback 70, .startRun .display 200, .endRun]

theorem mouseMoves_counted :
    events.Steps EventState.HasRoom (EventState.start 100) mouseMoves ∧
      events.States EventState.Exact (EventState.start 100) mouseMoves :=
  have h : events.Steps EventState.HasRoom (EventState.start 100) mouseMoves := by decide +kernel
  ⟨h, signal_counts _ _ h⟩

/-- 17 key presses before the user event worker runs. -/
def keyPresses : List EventOp := List.replicate 17 (.newUserEvent 1 0)

/-- **The signal overtakes the queues**: a message that is refused is counted too. -/
theorem refusal_uncounted :
    ¬ events.States EventState.Exact (EventState.start 0) keyPresses := by
  intro h
  have hlast : (events.exec (EventState.start 0) keyPresses).map
      (fun s => (s.running, s.msgSignal, s.pending)) = some (none, 17, 16) := by decide +kernel
  obtain ⟨s, hrun, hs⟩ := Option.map_eq_some_iff.mp hlast
  simp only [Prod.mk.injEq] at hs
  obtain ⟨hidle, hsignal, hpending⟩ := hs
  have hexact := (h.last hrun hidle).1
  rw [hsignal, hpending] at hexact
  exact absurd hexact (by decide)

end Shipwreck.Kernel
