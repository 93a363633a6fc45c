import Shipwreck.Lib.Transition
import Shipwreck.Queue.Sequential

/-!
# A queue in memory that has been used before

The constructor of `SharedQueue` in arbitrary memory, and the sequential runs that follow. A slot is free
when its index modulo `N` is that of no index between `q_locked.head` and `q_locked.tail`, and it should
then be marked so, by a zero in its first word (`FreeMarked`):

    j:        0     1     2     3
            | 0 | msg | msg | 0 |        head = 1, tail = 3

The operations keep it this way. The constructor should begin it: it calls `release` for this, but with the
range `{0, 0}`, which has no index in it, so that the slots stay what the memory was
(`free_marked_iff`).
-/

namespace Shipwreck.Queue

variable {T : Type} [Slot T] (N : Nat)

/-! ## The code -/

/-- `SharedQueue::SharedQueue`, in memory with this content. -/
def construct (prior : SharedQueue T) : SharedQueue T :=
  let q := { prior with
    qLocked := ⟨0, 0⟩
    qSafe := ⟨0, 0⟩
    safeTailMtx := 0
    lockedHeadMtx := 0 }
  release N q ⟨0, 0⟩

/-- The queue between two operations, and the ranges that have been dequeued and not released. -/
structure OpState (T : Type) where
  q : SharedQueue T
  held : List QueueRange

/-- One operation. Messages have a non-zero first word, and each dequeued range is released once. -/
def OpState.step (s : OpState T) : Call T → Option (OpState T)
  | .enqueue msg => if word msg = 0 then none else some { s with q := (enqueue N s.q msg).1 }
  | .gatherNewData => some { s with q := (gatherNewData N s.q).1 }
  | .dequeue num => some ⟨(dequeue s.q num).1, (dequeue s.q num).2 :: s.held⟩
  | .release qr => if qr ∈ s.held then some ⟨release N s.q qr, s.held.erase qr⟩ else none
  | .garbageCollect => some { s with q := garbageCollect N s.q }

/-- Sequential runs from the construction on. -/
def operations (T : Type) [Slot T] (N : Nat) : Machine (OpState T) (Call T) where
  init s := ∃ prior, s = ⟨construct N prior, []⟩
  step := OpState.step N

def Call.isEnqueue : Call T → Bool
  | .enqueue _ => true
  | _ => false

/-- Every free slot is marked free. -/
def FreeMarked (q : SharedQueue T) : Prop :=
  ∀ j, j < N → (∀ i, q.qLocked.head.toNat ≤ i → i < q.qLocked.tail.toNat → i % N ≠ j) →
    word (q.queue j) = 0

/-! ## The constructor -/

variable {N} {q : SharedQueue T}

/-- The loop of `release` is not entered. -/
theorem construct_eq (prior : SharedQueue T) :
    construct N prior =
      { qLocked := ⟨0, 0⟩, qSafe := ⟨0, 0⟩, safeTailMtx := 0, lockedHeadMtx := 0, queue := prior.queue } :=
  rfl

/-- In zeroed memory it makes the queue that the other modules start from. -/
theorem construct_zeroed {prior : SharedQueue T} (h : prior.queue = fun _ => Slot.zero) :
    construct N prior = SharedQueue.new := by
  rw [construct_eq, h]
  rfl

theorem freeMarked_construct_iff (prior : SharedQueue T) :
    FreeMarked N (construct N prior) ↔ ∀ j, j < N → word (prior.queue j) = 0 := by
  rw [construct_eq]
  constructor
  · intro h j hj
    apply h j hj
    intro i _ hi
    exact absurd hi (Nat.not_lt_zero i)
  · intro h j hj _
    exact h j hj

/-! ## The loops -/

/-- The gatherer moves the safe tail on, by no more than it has been told. -/
theorem gatherFrom_moves (left newFound : Nat) : ∃ n, n ≤ left ∧ (gatherFrom N left q newFound).1 =
    { q with qSafe := { q.qSafe with tail := q.qSafe.tail + UInt16.ofNat n } } := by
  induction left generalizing q newFound with
  | zero => exact ⟨0, Nat.le_refl 0, by simp [gatherFrom]⟩
  | succ left ih =>
    rw [gatherFrom]
    split
    case isTrue => exact ⟨0, Nat.zero_le _, by simp⟩
    case isFalse =>
      obtain ⟨n, hn, heq⟩ := ih (newFound + 1)
      refine ⟨n + 1, Nat.succ_le_succ hn, ?_⟩
      rw [heq, ← succ_add_ofNat]

/-- The collector moves the locked head on, over slots that are marked. -/
theorem gcFrom_moves (left : Nat) (hwrap : q.qLocked.head.toNat + left < 65536) : ∃ n, n ≤ left ∧
    gcFrom N left q = { q with qLocked := { q.qLocked with head := q.qLocked.head + UInt16.ofNat n } } ∧
    ∀ i, i < n → word (q.queue ((q.qLocked.head.toNat + i) % N)) = 0 := by
  induction left generalizing q with
  | zero => exact ⟨0, Nat.le_refl 0, by simp [gcFrom], fun i hi => absurd hi (Nat.not_lt_zero i)⟩
  | succ left ih =>
    rw [gcFrom]
    split
    case isTrue => exact ⟨0, Nat.zero_le _, by simp, fun i hi => absurd hi (Nat.not_lt_zero i)⟩
    case isFalse hmarked =>
      have hhead : (q.qLocked.head + 1).toNat = q.qLocked.head.toNat + 1 := toNat_succ (by omega)
      obtain ⟨n, hn, heq, hpassed⟩ :=
        ih (q := { q with qLocked := { q.qLocked with head := q.qLocked.head + 1 } })
          (by simp only [hhead]; omega)
      refine ⟨n + 1, Nat.succ_le_succ hn, ?_, ?_⟩
      · rw [heq, ← succ_add_ofNat]
      · intro i hi
        rcases Nat.eq_zero_or_pos i with rfl | hpos
        · exact Classical.not_not.mp hmarked
        · have hword := hpassed (i - 1) (by omega)
          simp only [hhead] at hword
          rwa [show q.qLocked.head.toNat + 1 + (i - 1) = q.qLocked.head.toNat + i by omega] at hword

/-- Releasing only adds marks. -/
theorem word_releaseFrom {j : Nat} (h : word (q.queue j) = 0) (n i : Nat) :
    word ((releaseFrom N n q i).queue j) = 0 := by
  induction n generalizing q i with
  | zero => exact h
  | succ n ih =>
    apply ih
    show word (Function.update q.queue (i % N) (clear (q.queue (i % N))) j) = 0
    rcases eq_or_ne j (i % N) with rfl | hne
    · rw [Function.update_self]
      exact Slot.word_clear _
    · rwa [Function.update_of_ne hne]

/-! ## The operations -/

variable (N) in
/-- The indices are in order, no more than `k` messages have been enqueued, and the free slots are
marked. -/
structure OpInv (k : Nat) (q : SharedQueue T) : Prop where
  collected_le : q.qLocked.head.toNat ≤ q.qSafe.head.toNat
  taken_le : q.qSafe.head.toNat ≤ q.qSafe.tail.toNat
  gathered_le : q.qSafe.tail.toNat ≤ q.qLocked.tail.toNat
  tail_le : q.qLocked.tail.toNat ≤ k
  free : FreeMarked N q

namespace OpInv

variable {k : Nat}

/-- A message goes to the slot of the index that is no longer free. -/
theorem enqueue (h : OpInv N k q) (msg : T) (hk : k + 1 < 65536) :
    OpInv N (k + 1) (Queue.enqueue N q msg).1 := by
  obtain ⟨hcollected, htaken, hgathered, htail, hfree⟩ := h
  rw [Queue.enqueue]
  split
  case isTrue => exact ⟨hcollected, htaken, hgathered, Nat.le_succ_of_le htail, hfree⟩
  case isFalse =>
    have hnext : (q.qLocked.tail + 1).toNat = q.qLocked.tail.toNat + 1 := toNat_succ (by omega)
    refine ⟨hcollected, htaken, ?_, ?_, ?_⟩
    · simp only [hnext]
      omega
    · simp only [hnext]
      omega
    · intro j hj hout
      simp only [hnext] at hout
      have hne : j ≠ q.qLocked.tail.toNat % N := (hout q.qLocked.tail.toNat (by omega) (by omega)).symm
      show word (Function.update q.queue (q.qLocked.tail.toNat % N) msg j) = 0
      rw [Function.update_of_ne hne]
      apply hfree j hj
      intro i hlo hhi
      exact hout i hlo (by omega)

theorem gatherNewData (h : OpInv N k q) : OpInv N k (Queue.gatherNewData N q).1 := by
  obtain ⟨hcollected, htaken, hgathered, htail, hfree⟩ := h
  have hlast := q.qLocked.tail.toNat_lt
  obtain ⟨n, hn, heq⟩ := gatherFrom_moves (N := N) (q := { q with safeTailMtx := 1 })
    (CInt.toUint ((q.qLocked.tail.toNat : Int) - q.qSafe.tail.toNat)) 0
  rw [CInt.toUint_of_nonneg (by omega) (by omega)] at hn
  have hnext : (q.qSafe.tail + UInt16.ofNat n).toNat = q.qSafe.tail.toNat + n :=
    toNat_add_ofNat (by omega)
  rw [Queue.gatherNewData]
  simp only
  split
  case isTrue =>
    rw [heq]
    refine ⟨hcollected, ?_, ?_, htail, hfree⟩
    · simp only [hnext]
      omega
    · simp only [hnext]
      omega
  case isFalse => exact ⟨hcollected, htaken, hgathered, htail, hfree⟩

theorem dequeue (h : OpInv N k q) (num : Nat) : OpInv N k (Queue.dequeue q num).1 := by
  obtain ⟨hcollected, htaken, hgathered, htail, hfree⟩ := h
  have hlast := q.qSafe.tail.toNat_lt
  have hsize := QueueRange.size_of_le htaken
  rw [Queue.dequeue]
  simp only
  split
  case isTrue => exact ⟨hcollected, htaken, hgathered, htail, hfree⟩
  case isFalse =>
    obtain ⟨n, hn⟩ : ∃ n, n = if num > q.qSafe.size then q.qSafe.size else num := ⟨_, rfl⟩
    have hle : n ≤ q.qSafe.tail.toNat - q.qSafe.head.toNat := by
      rw [hn, hsize]
      split <;> omega
    rw [← hn]
    have hhead : (q.qSafe.head + UInt16.ofNat n).toNat = q.qSafe.head.toNat + n :=
      toNat_add_ofNat (by omega)
    refine ⟨?_, ?_, hgathered, htail, hfree⟩
    · simp only [hhead]
      omega
    · simp only [hhead]
      omega

theorem release (h : OpInv N k q) (qr : QueueRange) : OpInv N k (Queue.release N q qr) := by
  obtain ⟨hlocked, hsafe, -, -⟩ :=
    releaseFrom_indices (N := N) (q := q) (qr.tail.toNat - qr.head.toNat) qr.head.toNat
  rw [Queue.release]
  refine ⟨?_, ?_, ?_, ?_, ?_⟩
  · rw [hlocked, hsafe]
    exact h.collected_le
  · rw [hsafe]
    exact h.taken_le
  · rw [hlocked, hsafe]
    exact h.gathered_le
  · rw [hlocked]
    exact h.tail_le
  · intro j hj hout
    rw [hlocked] at hout
    exact word_releaseFrom (h.free j hj hout) _ _

theorem garbageCollect (h : OpInv N k q) : OpInv N k (Queue.garbageCollect N q) := by
  obtain ⟨hcollected, htaken, hgathered, htail, hfree⟩ := h
  have hlast := q.qSafe.head.toNat_lt
  obtain ⟨n, hn, heq, hpassed⟩ := gcFrom_moves (N := N) (q := { q with lockedHeadMtx := 1 })
    ((q.qSafe.head.toNat : Int) - q.qLocked.head.toNat).toNat (by simp only; omega)
  have hnext : (q.qLocked.head + UInt16.ofNat n).toNat = q.qLocked.head.toNat + n :=
    toNat_add_ofNat (by omega)
  rw [Queue.garbageCollect]
  simp only
  split
  case isTrue =>
    rw [heq]
    refine ⟨?_, htaken, hgathered, htail, ?_⟩
    · simp only [hnext]
      omega
    · intro j hj hout
      simp only [hnext] at hout
      by_cases hin : ∃ i, i < n ∧ (q.qLocked.head.toNat + i) % N = j
      · -- a slot that the collector has just passed
        obtain ⟨i, hi, rfl⟩ := hin
        exact hpassed i hi
      · -- a slot that was free before: its index is not one of those passed
        apply hfree j hj
        intro i hlo hhi hslot
        rcases Nat.lt_or_ge i (q.qLocked.head.toNat + n) with hlt | hge
        · apply hin
          refine ⟨i - q.qLocked.head.toNat, by omega, ?_⟩
          rwa [show q.qLocked.head.toNat + (i - q.qLocked.head.toNat) = i by omega]
        · exact hout i hge hhi hslot
  case isFalse => exact ⟨hcollected, htaken, hgathered, htail, hfree⟩

/-- **One operation**, which counts when it is an `enqueue`. -/
theorem step {s s' : OpState T} {c : Call T} (h : OpInv N k s.q)
    (hk : k + [c].countP Call.isEnqueue < 65536) (hs : s.step N c = some s') :
    OpInv N (k + [c].countP Call.isEnqueue) s'.q := by
  cases c with
  | enqueue msg =>
    rw [OpState.step] at hs
    split at hs
    case isTrue => cases hs
    case isFalse =>
      cases hs
      exact h.enqueue msg hk
  | gatherNewData =>
    cases hs
    exact h.gatherNewData
  | dequeue num =>
    cases hs
    exact h.dequeue num
  | release qr =>
    rw [OpState.step] at hs
    split at hs
    case isTrue =>
      cases hs
      exact h.release qr
    case isFalse => cases hs
  | garbageCollect =>
    cases hs
    exact h.garbageCollect

/-- A run with fewer than 65536 messages. -/
theorem states {s : OpState T} (h : OpInv N k s.q) {cs : List (Call T)}
    (hk : k + cs.countP Call.isEnqueue < 65536) :
    (operations T N).States (fun s => FreeMarked N s.q) s cs := by
  induction cs generalizing s k with
  | nil => exact h.free
  | cons c cs ih =>
    rw [show c :: cs = [c] ++ cs from rfl, List.countP_append] at hk
    refine ⟨h.free, ?_⟩
    intro s' hs
    apply ih (h.step (by omega) hs)
    omega

end OpInv

/-- **The free slots are marked in every state of every run exactly if the memory held a zero in the first
word of every slot.** -/
theorem free_marked_iff (N : Nat) (prior : SharedQueue T) :
    (∀ cs : List (Call T), cs.countP Call.isEnqueue < 65536 →
      (operations T N).States (fun s => FreeMarked N s.q) ⟨construct N prior, []⟩ cs) ↔
      ∀ j, j < N → word (prior.queue j) = 0 := by
  rw [← freeMarked_construct_iff]
  constructor
  · intro h
    exact h [] (Nat.zero_lt_succ _)
  · intro h cs hcs
    have hinv : OpInv N 0 (construct N prior) :=
      ⟨Nat.le_refl _, Nat.le_refl _, Nat.le_refl _, Nat.le_refl _, h⟩
    exact hinv.states (by omega)

/-- Memory in which every word has been used. -/
def usedMemory : SharedQueue Message := ⟨⟨3, 1⟩, ⟨4, 1⟩, 5, 9, fun _ => ⟨7, 2⟩⟩

/-- After the construction all slots are free, and none is marked so. -/
theorem construct_used :
    ¬∀ cs : List (Call Message), cs.countP Call.isEnqueue < 65536 →
      (operations Message 4).States (fun s => FreeMarked 4 s.q) ⟨construct 4 usedMemory, []⟩ cs := by
  intro h
  have hfirst : FreeMarked 4 (construct 4 usedMemory) := h [] (by decide)
  have hword := hfirst 0 (by decide) fun i _ hi => absurd hi (Nat.not_lt_zero i)
  exact absurd hword (by decide)

end Shipwreck.Queue
