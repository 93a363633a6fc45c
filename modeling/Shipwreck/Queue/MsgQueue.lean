import Shipwreck.Queue.Basic
import Shipwreck.Lib.Transition
import Mathlib.Data.List.Infix

/-!
# The message queue from the kernel to a process

`MsgQueue` of `include/std/queue.h` is the queue in a process's environment: the kernel puts messages
in with `Process::send_msg`, and a thread of the process takes them out in cycles of `dequeue`,
`get` and `release`. Nothing tells the kernel how far the process has come: `enqueue` always
succeeds, also over a message that nobody has read, and `release` moves an index that only the
process looks at.

* `delivery` is the producer and the consumer, interleaved call by call. `msgQueue_faithful` shows
  that it is a FIFO as long as a message is sent only into a free slot and below the wrap.
* `mailbox` adds the signal that the scheduler looks at. `mailbox_notified` shows that the signal
  never falls behind the queue.
-/

namespace Shipwreck.Queue

open CInt (toUint)

/-- `struct MsgQueue<N>` without its constant `max_size = N`. -/
structure MsgQueue where
  qLocked : QueueRange
  qSafe : QueueRange
  queue : Nat → Message

namespace MsgQueue

/-- The constructor sets the indices only; the slots keep what was in memory. -/
def new (queue : Nat → Message) : MsgQueue := ⟨⟨0, 0⟩, ⟨0, 0⟩, queue⟩

/-- `get`. -/
def get (N : Nat) (q : MsgQueue) (i : Nat) : Message := q.queue (i % N)

/-- `size`. -/
def size (q : MsgQueue) : Nat := q.qSafe.size

/-- `enqueue`. -/
def enqueue (N : Nat) (q : MsgQueue) (msg : Message) : MsgQueue :=
  let tail := q.qLocked.tail.toNat % N
  let queue := Function.update q.queue tail msg
  let qLocked := { q.qLocked with tail := q.qLocked.tail + 1 }
  ⟨qLocked, { q.qSafe with tail := qLocked.tail }, queue⟩

/-- `dequeue`: the range taken. -/
def dequeue (q : MsgQueue) (num : Nat) : MsgQueue × QueueRange :=
  if q.qSafe.size = 0 then (q, QueueRange.empty)
  else
    let myNum := if num > q.qSafe.size then q.qSafe.size else num
    let oldHead := q.qSafe.head
    let head := oldHead + UInt16.ofNat myNum
    ({ q with qSafe := { q.qSafe with head := head } }, ⟨oldHead, head⟩)

/-- `release`: the difference of the two heads is an `int` compared as a `uint`. -/
def release (q : MsgQueue) (num : Nat) : MsgQueue :=
  if num > toUint ((q.qSafe.head.toNat : Int) - q.qLocked.head.toNat) then q
  else { q with qLocked := { q.qLocked with head := q.qLocked.head + UInt16.ofNat num } }

/-! ## What the operations do to the indices -/

variable {N : Nat} {q : MsgQueue}

@[simp] theorem release_qSafe (num : Nat) : (q.release num).qSafe = q.qSafe := by
  unfold release
  split <;> rfl

@[simp] theorem release_queue (num : Nat) : (q.release num).queue = q.queue := by
  unfold release
  split <;> rfl

@[simp] theorem release_locked_tail (num : Nat) :
    (q.release num).qLocked.tail = q.qLocked.tail := by
  unfold release
  split <;> rfl

/-- After `dequeue` the head has moved by the span of the range it returns, which is what was asked
for or else everything there is. -/
theorem dequeue_spec (hle : q.qSafe.head.toNat ≤ q.qSafe.tail.toNat) (num : Nat) :
    (q.dequeue num).2.span = min num q.size ∧
      (q.dequeue num).1.qLocked = q.qLocked ∧ (q.dequeue num).1.queue = q.queue ∧
      (q.dequeue num).1.qSafe.tail = q.qSafe.tail ∧
      (q.dequeue num).1.qSafe.head.toNat = q.qSafe.head.toNat + (q.dequeue num).2.span ∧
      ((q.dequeue num).2 = QueueRange.empty ∨
        (q.dequeue num).2 = ⟨q.qSafe.head, (q.dequeue num).1.qSafe.head⟩) := by
  have hsize : q.size = q.qSafe.tail.toNat - q.qSafe.head.toNat := QueueRange.size_of_le hle
  have hmax := q.qSafe.tail.toNat_lt
  unfold dequeue
  by_cases hempty : q.qSafe.size = 0
  · rw [if_pos hempty]
    have hzero : QueueRange.empty.span = 0 := rfl
    rw [size, hempty, hzero]
    exact ⟨(Nat.min_zero num).symm, rfl, rfl, rfl, rfl, .inl rfl⟩
  · rw [if_neg hempty]
    -- the number of messages taken is at most the size, so the head stays below the tail
    obtain ⟨n, hn⟩ : ∃ n, n = if num > q.qSafe.size then q.qSafe.size else num := ⟨_, rfl⟩
    have hmin : n = min num q.size := by
      rw [hn, size]
      grind
    have hhead : (q.qSafe.head + UInt16.ofNat n).toNat = q.qSafe.head.toNat + n :=
      toNat_add_ofNat (by omega)
    have hspan : QueueRange.span ⟨q.qSafe.head, q.qSafe.head + UInt16.ofNat n⟩ = n := by
      rw [QueueRange.span_of_le (by simp only [hhead]; omega)]
      simp only [hhead]
      omega
    simp only [← hn, hspan]
    exact ⟨hmin, trivial, trivial, trivial, hhead, .inr trivial⟩

end MsgQueue

/-! ## The kernel sends, the process receives -/

/-- Where the consumer is: outside its cycle, or at index `i` of the range it dequeued. -/
inductive Consumer where
  | idle
  | reading (qr : QueueRange) (i : Nat)
  deriving DecidableEq, Repr

/-- The calls of a run. -/
inductive MsgOp where
  | sendMsg (msg : Message)
  | dequeue (num : Nat)
  | get
  | release (num : Nat)

/-- The queue and its consumer, the messages sent and those read so far, and the number of messages
in the ranges dequeued. -/
structure MsgState where
  q : MsgQueue
  consumer : Consumer
  enqueued : List Message
  read : List Message
  dequeued : Nat

def MsgState.start (queue : Nat → Message) : MsgState := ⟨MsgQueue.new queue, .idle, [], [], 0⟩

/-- One call. The consumer reads its range with `for (int i = qr.head; i < qr.tail; i++)` and
releases it, or any other number of messages, when the loop is over. -/
def MsgState.step (N : Nat) (s : MsgState) : MsgOp → Option MsgState
  | .sendMsg msg => some { s with q := s.q.enqueue N msg, enqueued := s.enqueued ++ [msg] }
  | .dequeue num =>
    match s.consumer with
    | .idle =>
      let d := s.q.dequeue num
      some { s with
        q := d.1
        consumer := .reading d.2 d.2.head.toNat
        dequeued := s.dequeued + d.2.span }
    | .reading _ _ => none
  | .get =>
    match s.consumer with
    | .idle => none
    | .reading qr i =>
      if i < qr.tail.toNat then
        some { s with consumer := .reading qr (i + 1), read := s.read ++ [s.q.get N i] }
      else none
  | .release num =>
    match s.consumer with
    | .idle => none
    | .reading qr i =>
      if i < qr.tail.toNat then none else some { s with q := s.q.release num, consumer := .idle }

/-- Runs of the queue between the kernel and one consumer. -/
def delivery (N : Nat) : Machine MsgState MsgOp where
  init s := ∃ queue, s = MsgState.start queue
  step := MsgState.step N

/-- The messages read are the first ones sent, in that order; all that was dequeued has been read
once the consumer is done with its range; and `size()` counts what was not dequeued. -/
def MsgState.Fifo (s : MsgState) : Prop :=
  s.read <+: s.enqueued ∧ (s.consumer = .idle → s.read.length = s.dequeued) ∧
    s.dequeued + s.q.size = s.enqueued.length

/-- A message is sent only when fewer than `N` messages wait to be read, and not as the 65536th. -/
def MsgState.HasRoom (N : Nat) (s : MsgState) : MsgOp → Prop
  | .sendMsg _ => s.enqueued.length < s.read.length + N ∧ s.enqueued.length < 65535
  | _ => True

instance (N : Nat) (s : MsgState) (op : MsgOp) : Decidable (s.HasRoom N op) := by
  cases op <;> unfold MsgState.HasRoom <;> infer_instance

/-- The messages sent and not read sit in their slots, and the indices count messages. -/
structure MsgInv (N : Nat) (s : MsgState) : Prop where
  count : s.enqueued.length < 65536
  locked_tail : s.q.qLocked.tail.toNat = s.enqueued.length
  safe_tail : s.q.qSafe.tail.toNat = s.enqueued.length
  safe_head : s.q.qSafe.head.toNat = s.dequeued
  dequeued_le : s.dequeued ≤ s.enqueued.length
  room : s.enqueued.length ≤ s.read.length + N
  read : s.read = s.enqueued.take s.read.length
  slot : ∀ i, s.read.length ≤ i → i < s.enqueued.length →
    s.enqueued[i]? = some (s.q.queue (i % N))
  idle : s.consumer = .idle → s.read.length = s.dequeued
  reading : ∀ qr i, s.consumer = .reading qr i →
    (i < qr.tail.toNat → s.read.length = i ∧ s.dequeued = qr.tail.toNat) ∧
      (¬ i < qr.tail.toNat → s.read.length = s.dequeued)

namespace MsgInv

variable {N : Nat} {s s' : MsgState}

theorem start (queue : Nat → Message) : MsgInv N (MsgState.start queue) where
  count := Nat.zero_lt_succ _
  locked_tail := rfl
  safe_tail := rfl
  safe_head := rfl
  dequeued_le := Nat.le_refl _
  room := Nat.zero_le _
  read := rfl
  slot _ _ h := absurd h (Nat.not_lt_zero _)
  idle _ := rfl
  reading _ _ h := Consumer.noConfusion h

theorem read_le (h : MsgInv N s) : s.read.length ≤ s.dequeued := by
  cases hc : s.consumer with
  | idle => exact Nat.le_of_eq (h.idle hc)
  | reading qr i =>
    obtain ⟨hmid, hend⟩ := h.reading qr i hc
    by_cases hi : i < qr.tail.toNat
    · obtain ⟨hread, hdeq⟩ := hmid hi
      omega
    · exact Nat.le_of_eq (hend hi)

theorem size_eq (h : MsgInv N s) : s.q.size = s.enqueued.length - s.dequeued := by
  rw [← h.safe_tail, ← h.safe_head]
  apply QueueRange.size_of_le
  rw [h.safe_tail, h.safe_head]
  exact h.dequeued_le

theorem fifo (h : MsgInv N s) : s.Fifo := by
  refine ⟨?_, h.idle, ?_⟩
  · rw [h.read]
    exact List.take_prefix _ _
  · rw [h.size_eq]
    exact Nat.add_sub_of_le h.dequeued_le

theorem sendMsg (h : MsgInv N s) {msg : Message} (hroom : s.HasRoom N (.sendMsg msg)) :
    MsgInv N { s with q := s.q.enqueue N msg, enqueued := s.enqueued ++ [msg] } := by
  obtain ⟨hfree, hwrap⟩ := hroom
  have hread := h.read_le
  have hdeq := h.dequeued_le
  have htail : (s.q.qLocked.tail + 1).toNat = s.enqueued.length + 1 := by
    rw [toNat_succ (by rw [h.locked_tail]; omega), h.locked_tail]
  have hlen : (s.enqueued ++ [msg]).length = s.enqueued.length + 1 := List.length_append
  exact
    { count := by simp only [hlen]; omega
      locked_tail := by rw [hlen]; exact htail
      safe_tail := by rw [hlen]; exact htail
      safe_head := h.safe_head
      dequeued_le := by simp only [hlen]; omega
      room := by simp only [hlen]; omega
      read := by
        simp only
        rw [List.take_append_of_le_length (by omega)]
        exact h.read
      slot := by
        -- the new message goes to a slot that no unread message shares
        intro i hlo hhi
        simp only [MsgQueue.enqueue, h.locked_tail]
        simp only [hlen] at hlo hhi
        by_cases hi : i = s.enqueued.length
        · subst hi
          rw [Function.update_self, List.getElem?_concat_length]
        · have hslot : i % N ≠ s.enqueued.length % N :=
            RingBuffer.mod_ne_of_window hlo (by omega) (by omega) hfree hi
          rw [Function.update_of_ne hslot, List.getElem?_append_left (by omega)]
          exact h.slot i hlo (by omega)
      idle := h.idle
      reading := h.reading }

theorem dequeue (h : MsgInv N s) (hidle : s.consumer = .idle) (num : Nat) :
    MsgInv N { s with
      q := (s.q.dequeue num).1
      consumer := .reading (s.q.dequeue num).2 (s.q.dequeue num).2.head.toNat
      dequeued := s.dequeued + (s.q.dequeue num).2.span } := by
  have hle : s.q.qSafe.head.toNat ≤ s.q.qSafe.tail.toNat := by
    rw [h.safe_head, h.safe_tail]
    exact h.dequeued_le
  obtain ⟨hspan, hlocked, hqueue, htail, hhead, hrange⟩ := MsgQueue.dequeue_spec hle num
  have hdeq := h.dequeued_le
  have hread := h.idle hidle
  have hsize := h.size_eq
  have hnew : s.dequeued + (s.q.dequeue num).2.span = (s.q.dequeue num).1.qSafe.head.toNat := by
    rw [hhead, h.safe_head]
  exact
    { count := h.count
      locked_tail := by simp only [hlocked]; exact h.locked_tail
      safe_tail := by simp only [htail]; exact h.safe_tail
      safe_head := hnew.symm
      dequeued_le := by simp only [hspan]; omega
      room := h.room
      read := h.read
      slot := by simp only [hqueue]; exact h.slot
      idle := fun hc => Consumer.noConfusion hc
      reading := by
        intro qr i hc
        injection hc with hqr hi
        subst hqr hi
        rcases hrange with hempty | hfull
        · rw [hempty]
          exact ⟨fun hlt => absurd hlt (by decide), fun _ => hread⟩
        · simp only [hnew]
          rw [hfull]
          simp only [h.safe_head, hread]
          refine ⟨fun _ => ⟨trivial, trivial⟩, ?_⟩
          intro hnot
          omega }

theorem get (h : MsgInv N s) {qr : QueueRange} {i : Nat} (hc : s.consumer = .reading qr i)
    (hi : i < qr.tail.toNat) :
    MsgInv N { s with consumer := .reading qr (i + 1), read := s.read ++ [s.q.get N i] } := by
  obtain ⟨hread, hdeq⟩ := (h.reading qr i hc).1 hi
  have hle := h.dequeued_le
  have hroom := h.room
  have hslot := h.slot i (by omega) (by omega)
  have hlen : (s.read ++ [s.q.get N i]).length = s.read.length + 1 := List.length_append
  exact
    { count := h.count
      locked_tail := h.locked_tail
      safe_tail := h.safe_tail
      safe_head := h.safe_head
      dequeued_le := h.dequeued_le
      room := by simp only [hlen]; omega
      read := by
        simp only [hlen]
        rw [List.take_add_one, ← h.read, hread, hslot]
        rfl
      slot := by
        intro j hlo hhi
        simp only [hlen] at hlo
        exact h.slot j (by omega) hhi
      idle := fun hc => Consumer.noConfusion hc
      reading := by
        intro qr' i' hc'
        injection hc' with hqr hi'
        subst hqr hi'
        simp only [hlen]
        refine ⟨fun _ => ⟨by omega, hdeq⟩, ?_⟩
        intro hnot
        omega }

theorem release (h : MsgInv N s) {qr : QueueRange} {i : Nat} (hc : s.consumer = .reading qr i)
    (hi : ¬ i < qr.tail.toNat) (num : Nat) :
    MsgInv N { s with q := s.q.release num, consumer := .idle } where
  count := h.count
  locked_tail := by simp only [MsgQueue.release_locked_tail]; exact h.locked_tail
  safe_tail := by simp only [MsgQueue.release_qSafe]; exact h.safe_tail
  safe_head := by simp only [MsgQueue.release_qSafe]; exact h.safe_head
  dequeued_le := h.dequeued_le
  room := h.room
  read := h.read
  slot := by simp only [MsgQueue.release_queue]; exact h.slot
  idle _ := (h.reading qr i hc).2 hi
  reading _ _ hc' := Consumer.noConfusion hc'

/-- Every call made with room keeps the invariant. -/
theorem step (h : MsgInv N s) {op : MsgOp} (hroom : s.HasRoom N op)
    (hs : s.step N op = some s') : MsgInv N s' := by
  cases op with
  | sendMsg msg =>
    cases hs
    exact h.sendMsg hroom
  | dequeue num =>
    simp only [MsgState.step] at hs
    split at hs
    case h_1 hidle =>
      cases hs
      exact h.dequeue hidle num
    case h_2 => cases hs
  | get =>
    simp only [MsgState.step] at hs
    split at hs
    case h_1 => cases hs
    case h_2 qr i hc =>
      split at hs
      case isTrue hi =>
        cases hs
        exact h.get hc hi
      case isFalse => cases hs
  | release num =>
    simp only [MsgState.step] at hs
    split at hs
    case h_1 => cases hs
    case h_2 qr i hc =>
      split at hs
      case isTrue => cases hs
      case isFalse hi =>
        cases hs
        exact h.release hc hi num

end MsgInv

/-- **The message queue is a FIFO in every run whose messages find room.** -/
theorem msgQueue_faithful (N : Nat) (queue : Nat → Message) (ops : List MsgOp)
    (h : (delivery N).Steps (MsgState.HasRoom N) (MsgState.start queue) ops) :
    (delivery N).States MsgState.Fifo (MsgState.start queue) ops := by
  apply Machine.states_of_steps (I := MsgInv N) (fun _ hs => hs.fifo) _ (MsgInv.start queue) h
  intro s op s' hs hroom hstep
  exact hs.step hroom hstep

/-- `MAX_PROC_MSGS`, the number of slots in a process's environment. -/
def maxProcMsgs : Nat := 64

/-- A message arrives while the consumer reads the two before it. -/
def exchange : List MsgOp :=
  [.sendMsg ⟨1, 10⟩, .sendMsg ⟨1, 20⟩, .dequeue 10, .get, .sendMsg ⟨2, 30⟩, .get, .release 2]

theorem exchange_faithful :
    (delivery maxProcMsgs).Steps (MsgState.HasRoom maxProcMsgs) (MsgState.start fun _ => ⟨0, 0⟩)
        exchange ∧
      (delivery maxProcMsgs).States MsgState.Fifo (MsgState.start fun _ => ⟨0, 0⟩) exchange :=
  have h : (delivery maxProcMsgs).Steps (MsgState.HasRoom maxProcMsgs)
      (MsgState.start fun _ => ⟨0, 0⟩) exchange := by decide +kernel
  ⟨h, msgQueue_faithful _ _ _ h⟩

/-- 65 key presses before the process reads the first one. -/
def burst : List MsgOp :=
  (List.range 65).map (fun k => .sendMsg ⟨1, Int32.ofNat k⟩) ++ [.dequeue 1, .get]

/-- **The message queue loses messages**: the last of 65 messages takes the slot of the first. -/
theorem burst_overruns :
    ¬ (delivery maxProcMsgs).States MsgState.Fifo (MsgState.start fun _ => ⟨0, 0⟩) burst := by
  intro h
  have hlast : ((delivery maxProcMsgs).exec (MsgState.start fun _ => ⟨0, 0⟩) burst).map
      (fun s => (s.read, s.enqueued[0]?)) = some ([⟨1, 64⟩], some ⟨1, 0⟩) := by decide +kernel
  obtain ⟨s, hrun, hs⟩ := Option.map_eq_some_iff.mp hlast
  obtain ⟨hread, hfirst⟩ := Prod.mk.inj hs
  obtain ⟨rest, hprefix⟩ := (h.last hrun).1
  rw [hread] at hprefix
  rw [← hprefix, List.singleton_append, List.getElem?_cons_zero] at hfirst
  exact absurd hfirst (by decide)

/-! ## The message signal -/

/-- The event thread's cycle: `monitor(MSG_MONITOR, 10)`, `dequeue(10)`, `release`. -/
inductive EventThread where
  | waiting
  | signalled
  | handling (qr : QueueRange)
  deriving DecidableEq, Repr

/-- The steps of a run. `send_msg` is two of them. -/
inductive MailOp where
  | enqueue (msg : Message)
  | signal
  | monitor
  | dequeue
  | release

/-- The queue, the message signal, the number of `send_msg` calls between their two steps, the
event thread and the number of messages sent so far. -/
structure MailState where
  q : MsgQueue
  msgSignal : Int
  inFlight : Nat
  thread : EventThread
  sent : Nat

/-- One step. `release` is given `qr.tail - qr.head`, an `int` passed as a `uint`. -/
def MailState.step (N : Nat) (s : MailState) : MailOp → Option MailState
  | .enqueue msg =>
    some { s with q := s.q.enqueue N msg, inFlight := s.inFlight + 1, sent := s.sent + 1 }
  | .signal =>
    if 0 < s.inFlight then
      some { s with msgSignal := s.msgSignal + 1, inFlight := s.inFlight - 1 }
    else none
  | .monitor =>
    if s.thread = .waiting ∧ 0 < s.msgSignal then
      let signal := s.msgSignal - 10
      some { s with msgSignal := if signal < 0 then 0 else signal, thread := .signalled }
    else none
  | .dequeue =>
    if s.thread = .signalled then
      let d := s.q.dequeue 10
      some { s with q := d.1, thread := .handling d.2 }
    else none
  | .release =>
    match s.thread with
    | .handling qr => some { s with q := s.q.release (toUint qr.diff), thread := .waiting }
    | _ => none

def MailState.start (queue : Nat → Message) : MailState :=
  ⟨MsgQueue.new queue, 0, 0, .waiting, 0⟩

/-- Runs of `send_msg` calls and one event thread. -/
def mailbox (N : Nat) : Machine MailState MailOp where
  init s := ∃ queue, s = MailState.start queue
  step := MailState.step N

/-- The signal, with what `send_msg` calls under way still add to it, covers the queue; what the
event thread has subtracted and not yet dequeued counts as covered. -/
structure MailInv (s : MailState) : Prop where
  tail : s.q.qLocked.tail.toNat = s.sent
  safe_tail : s.q.qSafe.tail = s.q.qLocked.tail
  head_le : s.q.qSafe.head.toNat ≤ s.sent
  signal_nonneg : 0 ≤ s.msgSignal
  covered : (s.q.size : Int) ≤
    s.msgSignal + s.inFlight + (if s.thread = .signalled then 10 else 0)

namespace MailInv

variable {N : Nat} {s s' : MailState}

theorem start (queue : Nat → Message) : MailInv (MailState.start queue) where
  tail := rfl
  safe_tail := rfl
  head_le := Nat.le_refl _
  signal_nonneg := Int.le_refl _
  covered := by
    show (0 : Int) ≤ 0 + 0 + 0
    decide

theorem size_eq (h : MailInv s) : s.q.size = s.sent - s.q.qSafe.head.toNat := by
  rw [← h.tail, ← h.safe_tail]
  apply QueueRange.size_of_le
  rw [h.safe_tail, h.tail]
  exact h.head_le

/-- The steps of a run that has sent fewer than 65536 messages keep the invariant. -/
theorem step (h : MailInv s) {op : MailOp} (hs : s.step N op = some s')
    (hwrap : s'.sent < 65536) : MailInv s' := by
  have hsize := h.size_eq
  have hle := h.head_le
  have hsignal := h.signal_nonneg
  have hcovered := h.covered
  cases op with
  | enqueue msg =>
    cases hs
    have htail : (s.q.qLocked.tail + 1).toNat = s.sent + 1 := by
      rw [toNat_succ (by rw [h.tail]; exact hwrap), h.tail]
    have hnew : (s.q.enqueue N msg).size = s.sent + 1 - s.q.qSafe.head.toNat := by
      rw [← htail]
      apply QueueRange.size_of_le
      show s.q.qSafe.head.toNat ≤ (s.q.qLocked.tail + 1).toNat
      omega
    refine ⟨htail, rfl, Nat.le_succ_of_le hle, hsignal, ?_⟩
    simp only [hnew]
    push_cast
    omega
  | signal =>
    simp only [MailState.step] at hs
    split at hs
    case isTrue hpos =>
      cases hs
      refine ⟨h.tail, h.safe_tail, hle, by simp only; omega, ?_⟩
      simp only
      omega
    case isFalse => cases hs
  | monitor =>
    simp only [MailState.step] at hs
    split at hs
    case isTrue hcond =>
      cases hs
      obtain ⟨hwait, -⟩ := hcond
      rw [if_neg (by rw [hwait]; decide)] at hcovered
      refine ⟨h.tail, h.safe_tail, hle, by simp only; split <;> omega, ?_⟩
      simp only [if_true]
      split <;> omega
    case isFalse => cases hs
  | dequeue =>
    simp only [MailState.step] at hs
    split at hs
    case isTrue hsig =>
      cases hs
      have hbelow : s.q.qSafe.head.toNat ≤ s.q.qSafe.tail.toNat := by
        rw [h.safe_tail, h.tail]
        exact hle
      obtain ⟨hspan, hlocked, -, htail, hhead, -⟩ := MsgQueue.dequeue_spec hbelow 10
      have hnew : (s.q.dequeue 10).1.qSafe.head.toNat ≤ s.sent := by omega
      have hleft : (s.q.dequeue 10).1.size = s.sent - (s.q.dequeue 10).1.qSafe.head.toNat := by
        rw [← h.tail, ← h.safe_tail, ← htail]
        apply QueueRange.size_of_le
        rw [htail, h.safe_tail, h.tail]
        exact hnew
      -- ten messages go for the ten that the raised signal stands for, or none is left
      rw [if_pos hsig] at hcovered
      refine ⟨by simp only [hlocked]; exact h.tail, ?_, hnew, hsignal, ?_⟩
      · simp only [htail, hlocked]
        exact h.safe_tail
      · simp only [hleft, reduceCtorEq, if_false]
        omega
    case isFalse => cases hs
  | release =>
    simp only [MailState.step] at hs
    split at hs
    case h_1 qr hc =>
      cases hs
      rw [if_neg (by rw [hc]; exact EventThread.noConfusion)] at hcovered
      refine ⟨?_, ?_, ?_, hsignal, ?_⟩
      · rw [MsgQueue.release_locked_tail]
        exact h.tail
      · rw [MsgQueue.release_qSafe, MsgQueue.release_locked_tail]
        exact h.safe_tail
      · rw [MsgQueue.release_qSafe]
        exact hle
      · simp only [MsgQueue.size, MsgQueue.release_qSafe, reduceCtorEq, if_false]
        exact hcovered
    case h_2 => cases hs

end MailInv

/-- No step takes a message back. -/
theorem MailState.sent_le {N : Nat} {s s' : MailState} {op : MailOp}
    (hs : s.step N op = some s') : s.sent ≤ s'.sent := by
  cases op <;> simp only [MailState.step] at hs
  case enqueue msg =>
    cases hs
    exact Nat.le_succ _
  all_goals
    split at hs <;> cases hs
    exact Nat.le_refl _

/-- **No message is stranded**: while the event thread waits, and as long as fewer than 65536
messages were sent, the signal and the `send_msg` calls under way cover the queue, so messages that
nobody is about to announce are announced. -/
theorem mailbox_notified (N : Nat) {s : MailState} (h : (mailbox N).Reachable s)
    (hcount : s.sent < 65536) (hwait : s.thread = .waiting) :
    (s.q.size : Int) ≤ s.msgSignal + s.inFlight ∧
      (0 < s.q.size → s.inFlight = 0 → 0 < s.msgSignal) := by
  have hinv : s.sent < 65536 → MailInv s := by
    refine h.invariant (P := fun s => s.sent < 65536 → MailInv s) ?_ ?_
    · rintro s ⟨queue, rfl⟩ -
      exact MailInv.start queue
    · intro s op s' hs hstep hcount'
      have hle := MailState.sent_le hstep
      exact (hs (by omega)).step hstep hcount'
  have hcovered := (hinv hcount).covered
  rw [if_neg (by rw [hwait]; decide)] at hcovered
  refine ⟨by omega, ?_⟩
  intro hpos hflight
  omega

/-- Eleven messages, ten of them handled, and one more between its two steps. -/
def mailRun : List MailOp :=
  (List.range 11).flatMap (fun k => [.enqueue ⟨1, Int32.ofNat k⟩, .signal]) ++
    [.monitor, .enqueue ⟨2, 0⟩, .dequeue, .release]

theorem mailRun_notified :
    ∃ s, (mailbox maxProcMsgs).exec (MailState.start fun _ => ⟨0, 0⟩) mailRun = some s ∧
      s.thread = .waiting ∧ 0 < s.q.size ∧ (s.q.size : Int) ≤ s.msgSignal + s.inFlight := by
  have hlast : ((mailbox maxProcMsgs).exec (MailState.start fun _ => ⟨0, 0⟩) mailRun).map
      (fun s => (s.sent, s.thread, s.q.size)) = some (12, .waiting, 2) := by decide +kernel
  obtain ⟨s, hrun, hs⟩ := Option.map_eq_some_iff.mp hlast
  simp only [Prod.mk.injEq] at hs
  obtain ⟨hsent, hwait, hsize⟩ := hs
  have hreach : (mailbox maxProcMsgs).Reachable s := ⟨_, mailRun, ⟨_, rfl⟩, hrun⟩
  exact ⟨s, hrun, hwait, by omega, (mailbox_notified _ hreach (by omega) hwait).1⟩

end Shipwreck.Queue
