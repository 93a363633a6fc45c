import Shipwreck.Lib.Transition
import Shipwreck.Queue.Basic

/-!
# The shared queue under interleaving

Each operation of `SharedQueue` is cut at its accesses to shared memory: a program counter `Pc`
stands in front of the next access and carries the local variables that are still live, and
`Pc.run` performs that one access together with the purely local computation up to the next one.
Any number of threads run these programs in any order over one queue (`system`).

Next to the queue and the threads, `Sys` keeps a *history* that no step reads: which message
reserved which index (`log`), where each index is in its life cycle (`stage`), and the ranges
`dequeue` has returned (`taken`).
-/

namespace Shipwreck.Queue

open CInt (toUint)

/-- The next access to shared memory of a thread, with its live local variables. -/
inductive Pc (T : Type) where
  | idle
  -- enqueue
  | enqSnapshot (msg : T) (i : Nat)
  | enqCas (msg : T) (i : Nat) (qTmp : QueueRange)
  | enqStore (msg : T) (myIndex : UInt16)
  -- gather_new_data
  | gatherLock
  | gatherLockedTail
  | gatherSafeTail (lockedTail : UInt16)
  | gatherIndex (newFound : Nat) (qSize : Int)
  | gatherTest (newFound : Nat) (qSize : Int) (index : UInt16)
  | gatherIncr (newFound : Nat) (qSize : Int)
  | gatherUnlock
  -- dequeue
  | deqSnapshot (num : Nat)
  | deqCas (num i : Nat) (qTmp : QueueRange)
  -- release
  | releaseSlot (qr : QueueRange) (i : Nat)
  -- garbage_collect
  | gcLock
  | gcSafeHead
  | gcLockedHead (safeHead : UInt16)
  | gcIndex (i : Nat) (qSize : Int)
  | gcTest (i : Nat) (qSize : Int) (index : UInt16)
  | gcIncr (i : Nat) (qSize : Int)
  | gcUnlock

/-- What a step means for the history. -/
inductive Event (T : Type) where
  | silent
  | reserve (msg : T)
  | store (index : Nat)
  | take (qr : QueueRange)
  | free (index : Nat)

/-- A call a thread can make. -/
inductive Call (T : Type) where
  | enqueue (msg : T)
  | gatherNewData
  | dequeue (num : Nat)
  | release (qr : QueueRange)
  | garbageCollect

namespace Pc

variable {T : Type}

/-- The loop head of `gather_new_data`: `new_found` is unsigned, so the comparison converts
`q_size` to `uint`. -/
def gatherLoop (newFound : Nat) (qSize : Int) : Pc T :=
  if newFound < toUint qSize then gatherIndex newFound qSize else gatherUnlock

/-- The loop head of `dequeue`: give up on an empty snapshot or after the last try, else clamp
`num` (for this and all later tries) and go on to the compare-and-swap. -/
def deqLoop (num i : Nat) (qTmp : QueueRange) : Pc T × Event T :=
  if i < maxRaceTries then
    let myLength := qTmp.size
    if myLength = 0 then (idle, .take QueueRange.empty)
    else (deqCas (if num > myLength then myLength else num) i qTmp, .silent)
  else (idle, .take QueueRange.empty)

/-- The loop head of `release`. -/
def releaseLoop (qr : QueueRange) (i : Nat) : Pc T :=
  if i < qr.tail.toNat then releaseSlot qr i else idle

/-- The loop head of `garbage_collect`. -/
def gcLoop (i : Nat) (qSize : Int) : Pc T :=
  if (i : Int) < qSize then gcIndex i qSize else gcUnlock

/-- The first access of a call. -/
def start : Call T → Pc T
  | .enqueue msg => enqSnapshot msg 0
  | .gatherNewData => gatherLock
  | .dequeue num => deqSnapshot num
  | .release qr => releaseLoop qr qr.head.toNat
  | .garbageCollect => gcLock

variable [Slot T] (N : Nat)

/-- One shared access of a thread in a call, and the local computation after it. -/
def run (q : SharedQueue T) : Pc T → SharedQueue T × Pc T × Event T
  | idle => (q, idle, .silent)
  | enqSnapshot msg i =>
    let qTmp := q.qLocked
    if toUint (qTmp.size + 1) > N then (q, idle, .silent) else (q, enqCas msg i qTmp, .silent)
  | enqCas msg i qTmp =>
    if q.qLocked = qTmp then
      ({ q with qLocked := { qTmp with tail := qTmp.tail + 1 } }, enqStore msg qTmp.tail,
        .reserve msg)
    else if i + 1 < maxRaceTries then (q, enqSnapshot msg (i + 1), .silent)
    else (q, idle, .silent)
  | enqStore msg myIndex =>
    ({ q with queue := Function.update q.queue (myIndex.toNat % N) msg }, idle,
      .store myIndex.toNat)
  | gatherLock =>
    ({ q with safeTailMtx := 1 }, if q.safeTailMtx = 0 then gatherLockedTail else idle, .silent)
  | gatherLockedTail => (q, gatherSafeTail q.qLocked.tail, .silent)
  | gatherSafeTail lockedTail =>
    (q, gatherLoop 0 ((lockedTail.toNat : Int) - q.qSafe.tail.toNat), .silent)
  | gatherIndex newFound qSize => (q, gatherTest newFound qSize q.qSafe.tail, .silent)
  | gatherTest newFound qSize index =>
    (q, if word (q.queue (index.toNat % N)) = 0 then gatherUnlock else gatherIncr newFound qSize,
      .silent)
  | gatherIncr newFound qSize =>
    ({ q with qSafe := { q.qSafe with tail := q.qSafe.tail + 1 } },
      gatherLoop (toUint (newFound + 1)) qSize, .silent)
  | gatherUnlock => ({ q with safeTailMtx := 0 }, idle, .silent)
  | deqSnapshot num => (q, deqLoop num 0 q.qSafe)
  | deqCas num i qTmp =>
    if q.qSafe = qTmp then
      let newHead := qTmp.head + UInt16.ofNat num
      ({ q with qSafe := { qTmp with head := newHead } }, idle, .take ⟨qTmp.head, newHead⟩)
    else (q, deqLoop num (i + 1) q.qSafe)
  | releaseSlot qr i =>
    ({ q with queue := Function.update q.queue (i % N) (clear (q.queue (i % N))) },
      releaseLoop qr (i + 1), .free i)
  | gcLock =>
    ({ q with lockedHeadMtx := 1 }, if q.lockedHeadMtx = 0 then gcSafeHead else idle, .silent)
  | gcSafeHead => (q, gcLockedHead q.qSafe.head, .silent)
  | gcLockedHead safeHead =>
    (q, gcLoop 0 ((safeHead.toNat : Int) - q.qLocked.head.toNat), .silent)
  | gcIndex i qSize => (q, gcTest i qSize q.qLocked.head, .silent)
  | gcTest i qSize index =>
    (q, if word (q.queue (index.toNat % N)) ≠ 0 then gcUnlock else gcIncr i qSize, .silent)
  | gcIncr i qSize =>
    ({ q with qLocked := { q.qLocked with head := q.qLocked.head + 1 } }, gcLoop (i + 1) qSize,
      .silent)
  | gcUnlock => ({ q with lockedHeadMtx := 0 }, idle, .silent)

end Pc

/-! ## The system of threads -/

/-- Where an index is in its life cycle. -/
inductive Stage (Tid : Type) where
  | fresh
  | reserved (t : Tid)
  | written
  | held (t : Tid)
  | freed
  deriving DecidableEq

/-- The queue, the threads, and the history. -/
structure Sys (Tid T : Type) where
  q : SharedQueue T
  pc : Tid → Pc T
  /-- The ranges each thread has dequeued and not begun to release. -/
  held : Tid → List QueueRange
  /-- `log[i]` is the message whose `enqueue` reserved the `i`-th index. -/
  log : List T
  stage : Nat → Stage Tid
  /-- The ranges `dequeue` has returned, latest first. -/
  taken : List QueueRange

variable {Tid T : Type} [DecidableEq Tid]

/-- Enter an event of thread `t` into the history. -/
def Sys.record (s : Sys Tid T) (t : Tid) : Event T → Sys Tid T
  | .silent => s
  | .reserve msg =>
    { s with
      log := s.log ++ [msg]
      stage := Function.update s.stage s.log.length (.reserved t) }
  | .store i => { s with stage := Function.update s.stage i .written }
  | .take qr =>
    { s with
      held := Function.update s.held t (qr :: s.held t)
      stage := fun i => if qr.Has i then .held t else s.stage i
      taken := qr :: s.taken }
  | .free i => { s with stage := Function.update s.stage i .freed }

variable [Slot T] (N : Nat)

/-- A thread inside a call makes its next access. -/
def Sys.advance (s : Sys Tid T) (t : Tid) : Sys Tid T :=
  let r := (s.pc t).run N s.q
  { s with q := r.1, pc := Function.update s.pc t r.2.1 }.record t r.2.2

/-- The calls the users of the queue make: messages have a non-zero first word, and a consumer
releases a range it has dequeued and not released yet. -/
def Sys.Allowed (s : Sys Tid T) (t : Tid) : Call T → Prop
  | .enqueue msg => word msg ≠ 0
  | .release qr => qr ∈ s.held t
  | _ => True

instance (s : Sys Tid T) (t : Tid) : (c : Call T) → Decidable (s.Allowed t c)
  | .enqueue msg => inferInstanceAs (Decidable (word msg ≠ 0))
  | .gatherNewData => inferInstanceAs (Decidable True)
  | .dequeue _ => inferInstanceAs (Decidable True)
  | .release qr => inferInstanceAs (Decidable (qr ∈ s.held t))
  | .garbageCollect => inferInstanceAs (Decidable True)

/-- A thread enters a call; beginning a `release` gives the range up. -/
def Sys.enter (s : Sys Tid T) (t : Tid) (c : Call T) : Sys Tid T :=
  { s with
    pc := Function.update s.pc t (Pc.start c)
    held := match c with
      | .release qr => Function.update s.held t ((s.held t).erase qr)
      | _ => s.held }

def Pc.isIdle : Pc T → Bool
  | .idle => true
  | _ => false

/-- One step of thread `t`: enter the call `c` when it is in none (`some c`), or make the next
access of the call it is in (`none`). -/
def Sys.step (s : Sys Tid T) (l : Tid × Option (Call T)) : Option (Sys Tid T) :=
  match l with
  | (t, some c) => if (s.pc t).isIdle ∧ s.Allowed t c then some (s.enter t c) else none
  | (t, none) => if (s.pc t).isIdle then none else some (s.advance N t)

/-- All slots zero, every thread outside the queue, an empty history. -/
def Sys.start : Sys Tid T where
  q := SharedQueue.new
  pc := fun _ => .idle
  held := fun _ => []
  log := []
  stage := fun _ => .fresh
  taken := []

/-- Any number of threads calling the operations of one queue, in any interleaving. -/
def system (Tid T : Type) [DecidableEq Tid] [Slot T] (N : Nat) :
    Machine (Sys Tid T) (Tid × Option (Call T)) where
  init s := s = Sys.start
  step := Sys.step N

end Shipwreck.Queue
