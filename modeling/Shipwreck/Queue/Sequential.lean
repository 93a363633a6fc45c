import Shipwreck.Queue.Concurrent

/-!
# The operations of the shared queue, called by one thread at a time

The operations of `SharedQueue` as functions, for a caller nobody interferes with: the
compare-and-swaps then see the snapshot they were made from, and the loops run to their end.

They are tied to the interleaved model by `solo_agrees`: a thread that runs one call on its own,
access by access, leaves the queue the function computes.
-/

namespace Shipwreck.Queue

open CInt (toUint)

variable {T : Type} [Slot T] (N : Nat)

/-! ## The operations -/

/-- `enqueue`: the index taken, or `-1` when the queue looks full. -/
def enqueue (q : SharedQueue T) (msg : T) : SharedQueue T × Int :=
  let qTmp := q.qLocked
  if toUint (qTmp.size + 1) > N then (q, -1)
  else
    ({ q with
        qLocked := { qTmp with tail := qTmp.tail + 1 }
        queue := Function.update q.queue (qTmp.tail.toNat % N) msg },
      qTmp.tail.toNat)

/-- The loop of `gather_new_data` with `left` iterations to go. -/
def gatherFrom : Nat → SharedQueue T → Nat → SharedQueue T × Nat
  | 0, q, newFound => (q, newFound)
  | left + 1, q, newFound =>
    if word (q.queue (q.qSafe.tail.toNat % N)) = 0 then (q, newFound)
    else
      gatherFrom left { q with qSafe := { q.qSafe with tail := q.qSafe.tail + 1 } } (newFound + 1)

/-- `gather_new_data`: `q_size` is an `int`, but the loop compares it as a `uint`. -/
def gatherNewData (q : SharedQueue T) : SharedQueue T × Nat :=
  let myTailMtx := q.safeTailMtx
  let q := { q with safeTailMtx := 1 }
  if myTailMtx = 0 then
    let qSize := (q.qLocked.tail.toNat : Int) - q.qSafe.tail.toNat
    let r := gatherFrom N (toUint qSize) q 0
    ({ r.1 with safeTailMtx := 0 }, r.2)
  else (q, 0)

/-- `dequeue`: the range taken. -/
def dequeue (q : SharedQueue T) (num : Nat) : SharedQueue T × QueueRange :=
  let qTmp := q.qSafe
  let myLength := qTmp.size
  if myLength = 0 then (q, QueueRange.empty)
  else
    let num := if num > myLength then myLength else num
    let newHead := qTmp.head + UInt16.ofNat num
    ({ q with qSafe := { qTmp with head := newHead } }, ⟨qTmp.head, newHead⟩)

/-- The loop of `release` from index `i`, with `left` iterations to go. -/
def releaseFrom : Nat → SharedQueue T → Nat → SharedQueue T
  | 0, q, _ => q
  | left + 1, q, i =>
    releaseFrom left
      { q with queue := Function.update q.queue (i % N) (clear (q.queue (i % N))) } (i + 1)

/-- `release`. -/
def release (q : SharedQueue T) (qr : QueueRange) : SharedQueue T :=
  releaseFrom N (qr.tail.toNat - qr.head.toNat) q qr.head.toNat

/-- The loop of `garbage_collect` with `left` iterations to go. -/
def gcFrom : Nat → SharedQueue T → SharedQueue T
  | 0, q => q
  | left + 1, q =>
    if word (q.queue (q.qLocked.head.toNat % N)) ≠ 0 then q
    else gcFrom left { q with qLocked := { q.qLocked with head := q.qLocked.head + 1 } }

/-- `garbage_collect`. -/
def garbageCollect (q : SharedQueue T) : SharedQueue T :=
  let myHeadMtx := q.lockedHeadMtx
  let q := { q with lockedHeadMtx := 1 }
  if myHeadMtx = 0 then
    let qSize := (q.qSafe.head.toNat : Int) - q.qLocked.head.toNat
    { gcFrom N qSize.toNat q with lockedHeadMtx := 0 }
  else q

/-- What a worker sees with `for (int i = qr.head; i < qr.tail; i++) ... get(i)`. -/
def process (q : SharedQueue T) (qr : QueueRange) : List T :=
  (List.range' qr.head.toNat (qr.tail.toNat - qr.head.toNat)).map fun i => q.queue (i % N)

/-! ## Agreement with the interleaved model -/

/-- Running the accesses of one thread alone from `pc` ends outside the call with queue `q'`. -/
inductive Solo : SharedQueue T → Pc T → SharedQueue T → Prop
  | done {q : SharedQueue T} : Solo q .idle q
  | access {q q₁ q' : SharedQueue T} {pc pc₁ : Pc T} {e : Event T} :
      pc.run N q = (q₁, pc₁, e) → Solo q₁ pc₁ q' → Solo q pc q'

/-- The queue a call leaves when nobody interferes. -/
def solo (q : SharedQueue T) : Call T → SharedQueue T
  | .enqueue msg => (enqueue N q msg).1
  | .gatherNewData => (gatherNewData N q).1
  | .dequeue num => (dequeue q num).1
  | .release qr => release N q qr
  | .garbageCollect => garbageCollect N q

variable {N} {q : SharedQueue T}

/-- Nothing but the slots changes in `release`. -/
theorem releaseFrom_indices (n i : Nat) :
    (releaseFrom N n q i).qLocked = q.qLocked ∧ (releaseFrom N n q i).qSafe = q.qSafe ∧
      (releaseFrom N n q i).safeTailMtx = q.safeTailMtx ∧
      (releaseFrom N n q i).lockedHeadMtx = q.lockedHeadMtx := by
  induction n generalizing q i with
  | zero => exact ⟨rfl, rfl, rfl, rfl⟩
  | succ n ih => exact ih (i + 1)

/-- The loop of `gather_new_data`, from the loop head with `left` iterations to go. -/
theorem solo_gatherLoop (left newFound : Nat) {qSize : Int}
    (h : toUint qSize = newFound + left) :
    Solo N q (.gatherLoop newFound qSize)
      { (gatherFrom N left q newFound).1 with safeTailMtx := 0 } := by
  induction left generalizing q newFound with
  | zero =>
    rw [Pc.gatherLoop, if_neg (by omega)]
    exact .access rfl .done
  | succ left ih =>
    have hmax : toUint qSize < 4294967296 := by unfold toUint; omega
    have hnext : toUint ((newFound : Int) + 1) = newFound + 1 := by unfold toUint; omega
    rw [Pc.gatherLoop, if_pos (by omega), gatherFrom]
    refine .access rfl (.access rfl ?_)
    by_cases hword : word (q.queue (q.qSafe.tail.toNat % N)) = 0
    · rw [if_pos hword, if_pos hword]
      exact .access rfl .done
    · rw [if_neg hword, if_neg hword]
      refine .access rfl ?_
      rw [hnext]
      exact ih (newFound + 1) (by omega)

/-- The loop of `release`, from the loop head with `left` iterations to go. -/
theorem solo_releaseLoop (left i : Nat) {qr : QueueRange} (h : qr.tail.toNat - i = left) :
    Solo N q (.releaseLoop qr i) (releaseFrom N left q i) := by
  induction left generalizing q i with
  | zero =>
    rw [Pc.releaseLoop, if_neg (by omega)]
    exact .done
  | succ left ih =>
    rw [Pc.releaseLoop, if_pos (by omega)]
    exact .access rfl (ih (i + 1) (by omega))

/-- The loop of `garbage_collect`, from the loop head with `left` iterations to go. -/
theorem solo_gcLoop (left i : Nat) {qSize : Int} (h : (qSize - i).toNat = left) :
    Solo N q (.gcLoop i qSize) { gcFrom N left q with lockedHeadMtx := 0 } := by
  induction left generalizing q i with
  | zero =>
    rw [Pc.gcLoop, if_neg (by omega)]
    exact .access rfl .done
  | succ left ih =>
    rw [Pc.gcLoop, if_pos (by omega), gcFrom]
    refine .access rfl (.access rfl ?_)
    by_cases hword : word (q.queue (q.qLocked.head.toNat % N)) ≠ 0
    · rw [if_pos hword, if_pos hword]
      exact .access rfl .done
    · rw [if_neg hword, if_neg hword]
      exact .access rfl (ih (i + 1) (by omega))

/-- **A call run on its own computes the function of the same name.** -/
theorem solo_agrees (q : SharedQueue T) (c : Call T) : Solo N q (Pc.start c) (solo N q c) := by
  cases c with
  | enqueue msg =>
    by_cases hfull : toUint (q.qLocked.size + 1) > N
    · have hrun : (Pc.enqSnapshot msg 0).run N q = (q, .idle, .silent) := if_pos hfull
      rw [solo, enqueue, if_pos hfull]
      exact .access hrun .done
    · have hrun : (Pc.enqSnapshot msg 0).run N q = (q, .enqCas msg 0 q.qLocked, .silent) :=
        if_neg hfull
      rw [solo, enqueue, if_neg hfull]
      exact .access hrun (.access (if_pos rfl) (.access rfl .done))
  | gatherNewData =>
    refine .access rfl ?_
    by_cases hmtx : q.safeTailMtx = 0
    · rw [solo, gatherNewData, if_pos hmtx, if_pos hmtx]
      exact .access rfl (.access rfl (solo_gatherLoop _ 0 (Nat.zero_add _).symm))
    · rw [solo, gatherNewData, if_neg hmtx, if_neg hmtx]
      exact .done
  | dequeue num =>
    by_cases hempty : q.qSafe.size = 0
    · have hrun : (Pc.deqSnapshot num).run N q = (q, .idle, .take .empty) := by
        simp [Pc.run, Pc.deqLoop, maxRaceTries, hempty]
      rw [solo, dequeue, if_pos hempty]
      exact .access hrun .done
    · have hrun : (Pc.deqSnapshot num).run N q = (q, .deqCas (if num > q.qSafe.size then
          q.qSafe.size else num) 0 q.qSafe, .silent) := by
        simp [Pc.run, Pc.deqLoop, maxRaceTries, hempty]
      rw [solo, dequeue, if_neg hempty]
      exact .access hrun (.access (if_pos rfl) .done)
  | release qr => exact solo_releaseLoop _ _ rfl
  | garbageCollect =>
    refine .access rfl ?_
    by_cases hmtx : q.lockedHeadMtx = 0
    · rw [solo, garbageCollect, if_pos hmtx, if_pos hmtx]
      exact .access rfl (.access rfl (solo_gcLoop _ 0 (by simp)))
    · rw [solo, garbageCollect, if_neg hmtx, if_neg hmtx]
      exact .done

end Shipwreck.Queue
