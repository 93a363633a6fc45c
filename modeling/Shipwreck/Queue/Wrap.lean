import Shipwreck.Queue.Sequential
import Mathlib.Data.List.Infix

/-!
# Sequential runs of the shared queue, up to the wrap and across it

A worker's `run()` is the cycle `dequeue(k)` / process / `release` / `garbage_collect`. The indices
are `ushort`s, and every length is a difference of two of them *promoted to `int`*: it is negative
as soon as the tail has wrapped and the head has not.

`sequential_faithful` shows that the queue is a FIFO as long as nothing is enqueued or gathered
after 65536 messages were accepted; `sequential_wraps` shows that it is not one beyond that.
-/

namespace Shipwreck.Queue

open CInt (toUint)

variable {T : Type} [Slot T] (N : Nat)

/-! ## Runs -/

/-- The calls of a sequential run. -/
inductive Op (T : Type) where
  | enqueue (msg : T)
  | gatherNewData
  | cycle (k : Nat)

/-- The queue, the messages `enqueue` has accepted, those the workers have processed, and how many
indices the collector has passed. -/
structure SeqState (T : Type) where
  q : SharedQueue T
  enqueued : List T
  processed : List T
  collected : Nat

/-- The range a cycle dequeues. -/
def SeqState.cycleRange (s : SeqState T) (k : Nat) : QueueRange := (dequeue s.q k).2

/-- A worker's cycle. -/
def SeqState.cycle (s : SeqState T) (k : Nat) : SeqState T :=
  let d := dequeue s.q k
  let q' := garbageCollect N (release N d.1 d.2)
  { q := q'
    enqueued := s.enqueued
    processed := s.processed ++ process N d.1 d.2
    collected := s.collected + (q'.qLocked.head - s.q.qLocked.head).toNat }

/-- One call; messages have a non-zero first word. -/
def SeqState.step (s : SeqState T) : Op T → Option (SeqState T)
  | .enqueue msg =>
    if word msg = 0 then none
    else
      let r := Queue.enqueue N s.q msg
      some { s with q := r.1, enqueued := if r.2 = -1 then s.enqueued else s.enqueued ++ [msg] }
  | .gatherNewData => some { s with q := (Queue.gatherNewData N s.q).1 }
  | .cycle k => some (s.cycle N k)

def SeqState.start : SeqState T := ⟨SharedQueue.new, [], [], 0⟩

/-- Sequential runs of one queue. -/
def sequential (T : Type) [Slot T] (N : Nat) : Machine (SeqState T) (Op T) where
  init s := s = SeqState.start
  step := SeqState.step N

/-- What a FIFO of capacity `N` promises of a call: `enqueue` refuses only when `N` messages are
enqueued and not collected, `gather_new_data` makes every accepted message available, and a cycle
takes no more than is available and as much of that as it asks for, and processes exactly these
messages, the next ones in the order they were enqueued. -/
def SeqState.FifoOk (s : SeqState T) : Op T → Prop
  | .enqueue msg => (Queue.enqueue N s.q msg).2 = -1 → s.enqueued.length = s.collected + N
  | .gatherNewData =>
    (Queue.gatherNewData N s.q).1.qSafe.span = s.enqueued.length - s.processed.length
  | .cycle k =>
    (s.cycleRange k).span = min k s.q.qSafe.span ∧
      (s.cycle N k).processed = s.enqueued.take (s.processed.length + (s.cycleRange k).span)

/-- The call does not look at a locked range whose tail has wrapped: `enqueue` and
`gather_new_data` are called with fewer than 65536 messages accepted. -/
def SeqState.BeforeWrap (s : SeqState T) : Op T → Prop
  | .cycle _ => True
  | _ => s.enqueued.length < 65536

instance : (s : SeqState T) → (op : Op T) → Decidable (s.BeforeWrap op)
  | _, .cycle _ => isTrue trivial
  | s, .enqueue _ => inferInstanceAs (Decidable (s.enqueued.length < 65536))
  | s, .gatherNewData => inferInstanceAs (Decidable (s.enqueued.length < 65536))

/-! ## The loops, one lemma each -/

variable {N} {q : SharedQueue T}

/-- The gatherer passes `n` marked slots. -/
theorem gatherFrom_marked (n newFound : Nat) (hwrap : q.qSafe.tail.toNat + n < 65536)
    (h : ∀ j, j < n → word (q.queue ((q.qSafe.tail.toNat + j) % N)) ≠ 0) :
    gatherFrom N n q newFound =
      ({ q with qSafe := { q.qSafe with tail := q.qSafe.tail + UInt16.ofNat n } },
        newFound + n) := by
  induction n generalizing q newFound with
  | zero => simp [gatherFrom]
  | succ n ih =>
    have htail : (q.qSafe.tail + 1).toNat = q.qSafe.tail.toNat + 1 := toNat_succ (by omega)
    have hfirst := h 0 (by omega)
    rw [Nat.add_zero] at hfirst
    rw [gatherFrom, if_neg hfirst, ih]
    · simp only [succ_add_ofNat]
      congr 1
      omega
    · simp only [htail]
      omega
    · intro j hj
      simp only [htail]
      have := h (j + 1) (by omega)
      rwa [show q.qSafe.tail.toNat + 1 + j = q.qSafe.tail.toNat + (j + 1) by omega]

/-- Inside one lap, `release` clears the slots of its range and leaves the others alone. -/
theorem releaseFrom_queue (base n i : Nat) (hi : base ≤ i) (hn : i + n ≤ base + N) :
    ∀ j, base ≤ j → j < base + N →
      (releaseFrom N n q i).queue (j % N) =
        if i ≤ j ∧ j < i + n then clear (q.queue (j % N)) else q.queue (j % N) := by
  induction n generalizing q i with
  | zero =>
    intro j _ _
    rw [if_neg (by omega)]
    rfl
  | succ n ih =>
    intro j hj hj'
    rw [releaseFrom, ih (i + 1) (by omega) (by omega) j hj hj']
    by_cases hji : j = i
    · subst hji
      rw [if_neg (by omega), if_pos (by omega)]
      simp only [Function.update_self]
    · have hslot := RingBuffer.mod_ne_of_window hj hj' hi (by omega) hji
      simp only [Function.update_of_ne hslot]
      by_cases hin : i ≤ j ∧ j < i + (n + 1)
      · rw [if_pos (by omega), if_pos hin]
      · rw [if_neg (by omega), if_neg hin]

/-- The collector passes `n` cleared slots. -/
theorem gcFrom_cleared (n : Nat) (hwrap : q.qLocked.head.toNat + n < 65536)
    (h : ∀ j, j < n → word (q.queue ((q.qLocked.head.toNat + j) % N)) = 0) :
    gcFrom N n q =
      { q with qLocked := { q.qLocked with head := q.qLocked.head + UInt16.ofNat n } } := by
  induction n generalizing q with
  | zero => simp [gcFrom]
  | succ n ih =>
    have hhead : (q.qLocked.head + 1).toNat = q.qLocked.head.toNat + 1 := toNat_succ (by omega)
    have hfirst := h 0 (by omega)
    rw [Nat.add_zero] at hfirst
    rw [gcFrom, if_neg (Classical.not_not.mpr hfirst), ih]
    · simp only [succ_add_ofNat]
    · simp only [hhead]
      omega
    · intro j hj
      simp only [hhead]
      have := h (j + 1) (by omega)
      rwa [show q.qLocked.head.toNat + 1 + j = q.qLocked.head.toNat + (j + 1) by omega]

/-- `garbage_collect` when the first `n` slots of the window are cleared and handed out. -/
theorem garbageCollect_cleared {n : Nat} (hm : q.lockedHeadMtx = 0)
    (hn : q.qSafe.head.toNat = q.qLocked.head.toNat + n)
    (hwrap : q.qLocked.head.toNat + n < 65536)
    (h : ∀ j, j < n → word (q.queue ((q.qLocked.head.toNat + j) % N)) = 0) :
    garbageCollect N q =
      { q with qLocked := { q.qLocked with head := q.qLocked.head + UInt16.ofNat n } } := by
  have hsize : ((q.qSafe.head.toNat : Int) - q.qLocked.head.toNat).toNat = n := by omega
  have hloop := gcFrom_cleared (q := { q with lockedHeadMtx := 1 }) n hwrap h
  unfold garbageCollect
  rw [if_pos hm]
  simp only [hsize, hloop, hm]

/-! ## The invariant of sequential runs -/

/-- Between calls, with at most 65536 messages accepted and fewer gathered: the workers have
processed, released and collected the first messages, the rest sit in their slots, and every other
slot is free. -/
structure SeqInv (N : Nat) (s : SeqState T) : Prop where
  count : s.enqueued.length ≤ 65536
  tail : s.q.qLocked.tail.toNat = s.enqueued.length % 65536
  head : s.q.qLocked.head = s.q.qSafe.head
  safe_head : s.q.qSafe.head.toNat = s.processed.length
  collected : s.collected = s.processed.length
  head_le : s.q.qSafe.head.toNat ≤ s.q.qSafe.tail.toNat
  gathered_le : s.q.qSafe.tail.toNat ≤ s.enqueued.length
  room : s.enqueued.length ≤ s.processed.length + N
  processed : s.processed = s.enqueued.take s.processed.length
  word_enqueued : ∀ m ∈ s.enqueued, word m ≠ 0
  slot_full : ∀ i, s.processed.length ≤ i → i < s.enqueued.length →
    s.enqueued[i]? = some (s.q.queue (i % N))
  slot_free : ∀ i, s.enqueued.length ≤ i → i < s.processed.length + N →
    word (s.q.queue (i % N)) = 0
  safe_tail_mtx : s.q.safeTailMtx = 0
  locked_head_mtx : s.q.lockedHeadMtx = 0

theorem SeqInv.start : SeqInv N (SeqState.start : SeqState T) where
  count := Nat.zero_le _
  tail := rfl
  head := rfl
  safe_head := rfl
  collected := rfl
  head_le := Nat.le_refl _
  gathered_le := Nat.le_refl _
  room := Nat.zero_le _
  processed := rfl
  word_enqueued _ h := absurd h List.not_mem_nil
  slot_full _ _ h := absurd h (Nat.not_lt_zero _)
  slot_free _ _ _ := Slot.word_zero
  safe_tail_mtx := rfl
  locked_head_mtx := rfl

/-- The queue when a worker has taken the next `n` messages and released their slots. -/
def SeqState.released (N : Nat) (s : SeqState T) (n : Nat) : SharedQueue T :=
  releaseFrom N n { s.q with qSafe := { s.q.qSafe with head := s.q.qSafe.head + UInt16.ofNat n } } s.processed.length

/-- The run when these messages are processed, and their slots collected. -/
def SeqState.cycled (N : Nat) (s : SeqState T) (n : Nat) : SeqState T where
  q := { s.released N n with qLocked := { s.q.qLocked with head := s.q.qLocked.head + UInt16.ofNat n } }
  enqueued := s.enqueued
  processed := s.enqueued.take (s.processed.length + n)
  collected := s.collected + n

theorem SeqState.released_indices (N : Nat) (s : SeqState T) (n : Nat) :
    (s.released N n).qLocked = s.q.qLocked ∧
      (s.released N n).qSafe = { s.q.qSafe with head := s.q.qSafe.head + UInt16.ofNat n } ∧
      (s.released N n).safeTailMtx = s.q.safeTailMtx ∧ (s.released N n).lockedHeadMtx = s.q.lockedHeadMtx :=
  releaseFrom_indices n s.processed.length

namespace SeqInv

variable {s : SeqState T}

/-- The slot of an accepted message is marked. -/
theorem word_slot (h : SeqInv N s) {i : Nat} (hlo : s.processed.length ≤ i)
    (hhi : i < s.enqueued.length) : word (s.q.queue (i % N)) ≠ 0 :=
  h.word_enqueued _ (List.mem_of_getElem? (h.slot_full i hlo hhi))

/-- `enqueue` before the wrap: refused exactly when `N` messages are outstanding, otherwise the
message goes to the next index. -/
theorem enqueue (h : SeqInv N s) (hcount : s.enqueued.length < 65536) (msg : T) :
    Queue.enqueue N s.q msg =
      if s.enqueued.length = s.collected + N then (s.q, -1)
      else
        ({ s.q with
            qLocked := { s.q.qLocked with tail := s.q.qLocked.tail + 1 }
            queue := Function.update s.q.queue (s.enqueued.length % N) msg },
          (s.enqueued.length : Int)) := by
  have htail : s.q.qLocked.tail.toNat = s.enqueued.length := by
    rw [h.tail]; omega
  have hhead := h.head
  have hsafe := h.safe_head
  have hcol := h.collected
  have hroom := h.room
  have hle := h.head_le
  have hgat := h.gathered_le
  have hsize : s.q.qLocked.size = s.enqueued.length - s.processed.length := by
    rw [QueueRange.size_of_le (by rw [hhead]; omega), hhead, hsafe, htail]
  unfold Queue.enqueue toUint
  simp only [hsize, htail]
  by_cases hfull : s.enqueued.length = s.collected + N
  · rw [if_pos (by omega), if_pos hfull]
  · rw [if_neg (by omega), if_neg hfull]

/-- With fewer than `N` messages outstanding the message is accepted. -/
theorem step_accept (h : SeqInv N s) (hcount : s.enqueued.length < 65536) {msg : T}
    (hw : word msg ≠ 0) (hfull : s.enqueued.length ≠ s.collected + N) :
    s.step N (.enqueue msg) =
      some { s with
        q := { s.q with
          qLocked := { s.q.qLocked with tail := s.q.qLocked.tail + 1 }
          queue := Function.update s.q.queue (s.enqueued.length % N) msg }
        enqueued := s.enqueued ++ [msg] } := by
  have hres : ¬ (s.enqueued.length : Int) = -1 := by omega
  simp only [SeqState.step, if_neg hw, h.enqueue hcount, if_neg hfull, if_neg hres]

theorem step_enqueue (h : SeqInv N s) (hcount : s.enqueued.length < 65536) {msg : T}
    (hw : word msg ≠ 0) {s' : SeqState T} (hs : s.step N (.enqueue msg) = some s') :
    SeqInv N s' := by
  have hcol := h.collected
  have hroom := h.room
  have hsafe := h.safe_head
  have hle := h.head_le
  have hgat := h.gathered_le
  have htail := h.tail
  by_cases hfull : s.enqueued.length = s.collected + N
  · simp only [SeqState.step, if_neg hw, h.enqueue hcount, if_pos hfull, Option.some.injEq] at hs
    subst hs
    exact { h with }
  · rw [h.step_accept hcount hw hfull] at hs
    cases hs
    refine
      { h with
        count := ?_, tail := ?_, gathered_le := ?_, room := ?_, processed := ?_
        word_enqueued := ?_, slot_full := ?_, slot_free := ?_ }
    · simp only [List.length_append, List.length_singleton]
      omega
    · simp only [List.length_append, List.length_singleton, UInt16.toNat_add, htail,
        UInt16.toNat_ofNat]
      omega
    · simp only [List.length_append, List.length_singleton]
      omega
    · simp only [List.length_append, List.length_singleton]
      omega
    · simp only
      rw [List.take_append_of_le_length (by omega)]
      exact h.processed
    · intro m hm
      rcases List.mem_append.mp hm with hm | hm
      · exact h.word_enqueued m hm
      · rw [List.mem_singleton.mp hm]
        exact hw
    · intro i hlo hhi
      simp only [List.length_append, List.length_singleton] at hlo hhi ⊢
      -- the new message is in the slot of its index, which no other index of the window has
      by_cases hi : i = s.enqueued.length
      · rw [hi, Function.update_self, List.getElem?_concat_length]
      · have hslot : i % N ≠ s.enqueued.length % N :=
          RingBuffer.mod_ne_of_window hlo (by omega) (by omega) (by omega) hi
        rw [Function.update_of_ne hslot, List.getElem?_append_left (by omega)]
        exact h.slot_full i hlo (by omega)
    · intro i hlo hhi
      simp only [List.length_append, List.length_singleton] at hlo hhi ⊢
      have hslot : i % N ≠ s.enqueued.length % N :=
        RingBuffer.mod_ne_of_window (by omega) hhi (by omega) (by omega) (by omega)
      rw [Function.update_of_ne hslot]
      exact h.slot_free i (by omega) hhi

/-- `gather_new_data` before the wrap: everything accepted becomes available. -/
theorem gatherNewData (h : SeqInv N s) (hcount : s.enqueued.length < 65536) :
    (Queue.gatherNewData N s.q).1 =
      { s.q with
        qSafe := { s.q.qSafe with tail := UInt16.ofNat s.enqueued.length } } := by
  have htail : s.q.qLocked.tail.toNat = s.enqueued.length := by
    rw [h.tail]; omega
  have hsafe := h.safe_head
  have hle := h.head_le
  have hgat := h.gathered_le
  have hsum : s.q.qSafe.tail + UInt16.ofNat (s.enqueued.length - s.q.qSafe.tail.toNat) =
      UInt16.ofNat s.enqueued.length := by
    apply UInt16.toNat.inj
    rw [toNat_add_ofNat (by omega), UInt16.toNat_ofNat']
    omega
  have hsize : toUint ((s.enqueued.length : Int) - s.q.qSafe.tail.toNat) =
      s.enqueued.length - s.q.qSafe.tail.toNat := by
    unfold toUint
    omega
  have hloop := gatherFrom_marked (N := N) (q := { s.q with safeTailMtx := 1 })
    (s.enqueued.length - s.q.qSafe.tail.toNat) 0 (show s.q.qSafe.tail.toNat + _ < _ by omega)
    (fun j hj => h.word_slot (show _ ≤ s.q.qSafe.tail.toNat + j by omega)
      (show s.q.qSafe.tail.toNat + j < _ by omega))
  unfold Queue.gatherNewData
  rw [if_pos h.safe_tail_mtx]
  simp only [htail, hsize, hloop, hsum, h.safe_tail_mtx]

theorem step_gatherNewData (h : SeqInv N s) (hcount : s.enqueued.length < 65536) {s' : SeqState T}
    (hs : s.step N .gatherNewData = some s') : SeqInv N s' := by
  simp only [SeqState.step, h.gatherNewData hcount, Option.some.injEq] at hs
  subst hs
  have hsafe := h.safe_head
  have hle := h.head_le
  have hgat := h.gathered_le
  refine { h with head_le := ?_, gathered_le := ?_ }
  · simp only [UInt16.toNat_ofNat']
    omega
  · simp only [UInt16.toNat_ofNat']
    omega

/-- `dequeue` takes the next `min k` available indices. An empty queue answers `{0, 0}`, so the
range starts at `q_safe.head` only when it is not empty. -/
theorem dequeue (h : SeqInv N s) (k : Nat) :
    ∃ r, Queue.dequeue s.q k =
        ({ s.q with qSafe :=
            { s.q.qSafe with head := s.q.qSafe.head + UInt16.ofNat (min k s.q.qSafe.size) } }, r) ∧
      r.tail.toNat = r.head.toNat + min k s.q.qSafe.size ∧
      (0 < min k s.q.qSafe.size → r.head = s.q.qSafe.head) := by
  have hsize := QueueRange.size_of_le h.head_le
  have hlast := s.q.qSafe.tail.toNat_lt
  have hle := h.head_le
  unfold Queue.dequeue
  simp only
  split
  · rename_i hempty
    rw [hempty, Nat.min_zero]
    exact ⟨QueueRange.empty, by simp, rfl, fun hpos => absurd hpos (Nat.lt_irrefl 0)⟩
  · have hmin : (if k > s.q.qSafe.size then s.q.qSafe.size else k) = min k s.q.qSafe.size := by
      split <;> omega
    rw [hmin]
    exact ⟨_, rfl, toNat_add_ofNat (by omega), fun _ => rfl⟩

/-- The messages of the next `n` indices, read from their slots. -/
theorem read_slots (h : SeqInv N s) {n : Nat} (hn : s.processed.length + n ≤ s.enqueued.length) :
    s.processed ++ (List.range' s.processed.length n).map (fun i => s.q.queue (i % N)) =
      s.enqueued.take (s.processed.length + n) := by
  have hrest : (List.range' s.processed.length n).map (fun i => s.q.queue (i % N)) =
      (s.enqueued.drop s.processed.length).take n := by
    apply List.ext_getElem?
    intro j
    by_cases hj : j < n
    · have hslot := h.slot_full (s.processed.length + j) (by omega) (by omega)
      rw [List.getElem?_take_of_lt hj, List.getElem?_drop, hslot, List.getElem?_map,
        List.getElem?_range' hj]
      simp
    · rw [List.getElem?_eq_none (by simp; omega), List.getElem?_eq_none (by simp; omega)]
  rw [hrest, List.take_add, ← h.processed]

/-- A loop over a range of `n` messages runs from the first message that is not processed: the range starts there,
or it is empty and where it starts is of no importance. -/
theorem over_range (h : SeqInv N s) {r : QueueRange} {n : Nat} (hlen : r.tail.toNat = r.head.toNat + n)
    (hstart : 0 < n → r.head = s.q.qSafe.head) {α : Type} (loop : Nat → Nat → α)
    (hempty : ∀ i j, loop 0 i = loop 0 j) :
    loop (r.tail.toNat - r.head.toNat) r.head.toNat = loop n s.processed.length := by
  have hdiff : r.tail.toNat - r.head.toNat = n := by omega
  rw [hdiff]
  rcases Nat.eq_zero_or_pos n with hzero | hpos
  · rw [hzero]
    exact hempty _ _
  · rw [hstart hpos, h.safe_head]

/-- The head behind the next `n` messages. -/
theorem toNat_head (h : SeqInv N s) {n : Nat} (hn : s.processed.length + n ≤ s.q.qSafe.tail.toNat) :
    (s.q.qSafe.head + UInt16.ofNat n).toNat = s.processed.length + n := by
  have hlast := s.q.qSafe.tail.toNat_lt
  have hsafe := h.safe_head
  rw [toNat_add_ofNat (by omega), hsafe]

/-- The slots of the next `n` messages are cleared, the others are as they were. -/
theorem released_slot (h : SeqInv N s) {n : Nat} (hn : s.processed.length + n ≤ s.q.qSafe.tail.toNat) {i : Nat}
    (hlo : s.processed.length ≤ i) (hhi : i < s.processed.length + N) :
    (s.released N n).queue (i % N) =
      if i < s.processed.length + n then clear (s.q.queue (i % N)) else s.q.queue (i % N) := by
  have hgat := h.gathered_le
  have hroom := h.room
  rw [SeqState.released, releaseFrom_queue s.processed.length n s.processed.length (Nat.le_refl _) (by omega) i hlo hhi]
  simp only [hlo, true_and]

/-- The collector passes all of them. -/
theorem garbageCollect_released (h : SeqInv N s) {n : Nat} (hn : s.processed.length + n ≤ s.q.qSafe.tail.toNat) :
    garbageCollect N (s.released N n) = (s.cycled N n).q := by
  have hlast := s.q.qSafe.tail.toNat_lt
  have hgat := h.gathered_le
  have hroom := h.room
  obtain ⟨hlocked, hsafe, -, hmtx⟩ := s.released_indices N n
  rw [SeqState.cycled, ← hlocked]
  refine garbageCollect_cleared (by rw [hmtx]; exact h.locked_head_mtx) ?_ ?_ ?_
  · rw [hsafe, hlocked, h.head, h.safe_head]
    exact h.toNat_head hn
  · rw [hlocked, h.head, h.safe_head]
    omega
  · intro j hj
    rw [hlocked, h.head, h.safe_head, h.released_slot hn (by omega) (by omega), if_pos (by omega)]
    exact Slot.word_clear _

/-- After the cycle the next `n` messages are processed. -/
theorem cycled (h : SeqInv N s) {n : Nat} (hn : s.processed.length + n ≤ s.q.qSafe.tail.toNat) :
    SeqInv N (s.cycled N n) := by
  have hgat := h.gathered_le
  have hroom := h.room
  have hcol := h.collected
  obtain ⟨-, hsafe, hmtx, hmtx'⟩ := s.released_indices N n
  have hlength : (s.enqueued.take (s.processed.length + n)).length = s.processed.length + n := by
    rw [List.length_take]
    omega
  have hhead : (s.cycled N n).q.qSafe.head.toNat = s.processed.length + n := by
    rw [SeqState.cycled]
    simp only [hsafe]
    exact h.toNat_head hn
  have htail : (s.cycled N n).q.qSafe.tail = s.q.qSafe.tail := by
    rw [SeqState.cycled]
    simp only [hsafe]
  refine
    { count := h.count, tail := h.tail, word_enqueued := h.word_enqueued
      head := ?_, safe_head := ?_, collected := ?_, head_le := ?_, gathered_le := ?_, room := ?_, processed := ?_
      slot_full := ?_, slot_free := ?_, safe_tail_mtx := ?_, locked_head_mtx := ?_ }
  · simp only [SeqState.cycled, hsafe, h.head]
  · exact hhead.trans hlength.symm
  · exact (congrArg (· + n) hcol).trans hlength.symm
  · rw [hhead, htail]
    exact hn
  · rw [htail]
    exact hgat
  · show s.enqueued.length ≤ (s.enqueued.take (s.processed.length + n)).length + N
    omega
  · show s.enqueued.take _ = s.enqueued.take (s.enqueued.take (s.processed.length + n)).length
    rw [hlength]
  · intro i hlo hhi
    change (s.enqueued.take (s.processed.length + n)).length ≤ i at hlo
    change i < s.enqueued.length at hhi
    show s.enqueued[i]? = some ((s.released N n).queue (i % N))
    rw [h.released_slot hn (by omega) (by omega), if_neg (by omega)]
    exact h.slot_full i (by omega) hhi
  · intro i hlo hhi
    change s.enqueued.length ≤ i at hlo
    change i < (s.enqueued.take (s.processed.length + n)).length + N at hhi
    show word ((s.released N n).queue (i % N)) = 0
    by_cases hi : i < s.processed.length + N
    · rw [h.released_slot hn (by omega) hi, if_neg (by omega)]
      exact h.slot_free i hlo hi
    · -- one of the slots just released, a lap ahead
      have hback : i % N = (i - N) % N := by
        rw [← Nat.add_mod_right (i - N), Nat.sub_add_cancel (by omega)]
      rw [hback, h.released_slot hn (by omega) (by omega), if_pos (by omega)]
      exact Slot.word_clear _
  · exact hmtx.trans h.safe_tail_mtx
  · exact hmtx'.trans h.locked_head_mtx

/-- A cycle processes the range that it dequeues. -/
theorem cycle_eq (h : SeqInv N s) {k n : Nat} (hmin : min k s.q.qSafe.size = n) :
    (s.cycleRange k).span = n ∧ s.cycle N k = s.cycled N n := by
  have hsize := QueueRange.size_of_le h.head_le
  have hlast := s.q.qSafe.tail.toNat_lt
  have hsafe := h.safe_head
  have hle := h.head_le
  have hgat := h.gathered_le
  obtain ⟨r, hdeq, hlen, hstart⟩ := h.dequeue k
  rw [hmin] at hdeq hlen hstart
  have hn : s.processed.length + n ≤ s.q.qSafe.tail.toNat := by omega
  have hrelease : release N (Queue.dequeue s.q k).1 r = s.released N n := by
    rw [hdeq]
    exact h.over_range hlen hstart (fun left i => releaseFrom N left _ i) fun _ _ => rfl
  have hprocess : process N (Queue.dequeue s.q k).1 r =
      (List.range' s.processed.length n).map fun i => s.q.queue (i % N) := by
    rw [hdeq]
    exact h.over_range hlen hstart (fun left i => (List.range' i left).map fun i => s.q.queue (i % N)) fun _ _ => rfl
  -- what the collector has passed is the length of the range
  have hdelta : ((s.cycled N n).q.qLocked.head - s.q.qLocked.head).toNat = n := by
    show (s.q.qLocked.head + UInt16.ofNat n - s.q.qLocked.head).toNat = n
    have hsum := h.toNat_head hn
    rw [h.head, UInt16.toNat_sub_of_le _ _ (by rw [UInt16.le_iff_toNat_le]; omega), hsum, hsafe]
    omega
  have hrange : (Queue.dequeue s.q k).2 = r := by rw [hdeq]
  refine ⟨?_, ?_⟩
  · rw [SeqState.cycleRange, hrange, QueueRange.span,
      UInt16.toNat_sub_of_le _ _ (by rw [UInt16.le_iff_toNat_le]; omega)]
    omega
  · rw [SeqState.cycle]
    simp only [hrange, hrelease, hprocess, h.garbageCollect_released hn, hdelta, h.read_slots (n := n) (by omega)]
    rfl

/-- **A cycle is a FIFO step**: it takes, processes, releases and collects the next `min k`
available messages. -/
theorem cycle (h : SeqInv N s) (k : Nat) :
    (s.cycleRange k).span = min k s.q.qSafe.size ∧
      (s.cycle N k).processed =
        s.enqueued.take (s.processed.length + min k s.q.qSafe.size) ∧
      SeqInv N (s.cycle N k) := by
  obtain ⟨hspan, hcycle⟩ := h.cycle_eq (k := k) rfl
  have hsize := QueueRange.size_of_le h.head_le
  have hsafe := h.safe_head
  have hle := h.head_le
  rw [hcycle]
  exact ⟨hspan, rfl, h.cycled (by omega)⟩

/-- Every call that starts with few enough messages accepted behaves as a FIFO. -/
theorem fifoOk (h : SeqInv N s) {op : Op T} (hg : s.BeforeWrap op) : s.FifoOk N op := by
  cases op with
  | enqueue msg =>
    intro hres
    rw [h.enqueue hg] at hres
    by_contra hfull
    rw [if_neg hfull] at hres
    simp only at hres
    omega
  | gatherNewData =>
    have hgat := h.gathered_le
    have hle := h.head_le
    have hlt : s.enqueued.length < 65536 := hg
    have htail : (UInt16.ofNat s.enqueued.length).toNat = s.enqueued.length := by
      rw [UInt16.toNat_ofNat']
      omega
    simp only [SeqState.FifoOk, h.gatherNewData hg, QueueRange.span]
    rw [UInt16.toNat_sub_of_le _ _ (by rw [UInt16.le_iff_toNat_le]; omega), htail, h.safe_head]
  | cycle k =>
    obtain ⟨hspan, hproc, -⟩ := h.cycle k
    have havail : s.q.qSafe.span = s.q.qSafe.size := by
      rw [QueueRange.span, QueueRange.size_of_le h.head_le,
        UInt16.toNat_sub_of_le _ _ (UInt16.le_iff_toNat_le.mpr h.head_le)]
    simp only [SeqState.FifoOk, havail, hspan, hproc, and_self]

/-- Every such call keeps the invariant. -/
theorem step (h : SeqInv N s) {op : Op T} (hg : s.BeforeWrap op) {s' : SeqState T}
    (hs : s.step N op = some s') : SeqInv N s' := by
  cases op with
  | enqueue msg =>
    by_cases hw : word msg = 0
    · simp [SeqState.step, hw] at hs
    · exact h.step_enqueue hg hw hs
  | gatherNewData => exact h.step_gatherNewData hg hs
  | cycle k =>
    cases hs
    exact (h.cycle k).2.2

end SeqInv

/-! ## Runs up to the wrap, and across it -/

/-- **Below the wrap the queue is a FIFO.** In every sequential run in which every `enqueue` and
every `gather_new_data` is called with fewer than 65536 messages accepted so far, each call keeps
the promises of a FIFO of capacity `N`. -/
theorem sequential_faithful (N : Nat) (ops : List (Op T))
    (h : (sequential T N).Steps SeqState.BeforeWrap SeqState.start ops) :
    (sequential T N).Steps (SeqState.FifoOk N) SeqState.start ops := by
  have hrun : ∀ (s : SeqState T), SeqInv N s →
      (sequential T N).Steps SeqState.BeforeWrap s ops →
      (sequential T N).Steps (SeqState.FifoOk N) s ops := by
    clear h
    induction ops with
    | nil => exact fun _ _ _ => trivial
    | cons op ops ih =>
      intro s hinv hsteps
      refine ⟨hinv.fifoOk hsteps.1, ?_⟩
      intro s' hs
      exact ih s' (hinv.step hsteps.1 hs) (hsteps.2 s' hs)
  exact hrun _ SeqInv.start h

/-- A queue for two messages is full, is emptied one by one, and takes another message meanwhile. -/
def throughFull : List (Op Message) :=
  [.enqueue ⟨1, 10⟩, .enqueue ⟨2, 20⟩, .enqueue ⟨3, 30⟩, .gatherNewData, .cycle 1, .enqueue ⟨4, 40⟩, .gatherNewData,
    .cycle 10]

/-- The third message is refused, and the others come out in their order. -/
theorem throughFull_faithful : (sequential Message 2).Steps (SeqState.FifoOk 2) SeqState.start throughFull ∧
    ((sequential Message 2).exec SeqState.start throughFull).map (fun s => (s.enqueued, s.processed)) =
      some ([⟨1, 10⟩, ⟨2, 20⟩, ⟨4, 40⟩], [⟨1, 10⟩, ⟨2, 20⟩, ⟨4, 40⟩]) := by
  have hbefore : (sequential Message 2).Steps SeqState.BeforeWrap SeqState.start throughFull := by
    decide +kernel
  exact ⟨sequential_faithful 2 throughFull hbefore, by decide +kernel⟩

/-- One message goes through the queue. -/
def round : List (Op Message) := [.enqueue ⟨1, 0⟩, .gatherNewData, .cycle 10]

/-- A run that sends `n` messages through the queue one at a time. -/
def rounds (n : Nat) : List (Op Message) := (List.replicate n round).flatten

theorem rounds_succ (n : Nat) : rounds (n + 1) = rounds n ++ round := by
  simp [rounds, List.replicate_succ', List.flatten_append]

theorem exec_round {s : SeqState Message} (h : SeqInv 16 s)
    (hcount : s.enqueued.length + 1 < 65536) (hdone : s.processed.length = s.enqueued.length) :
    ∃ s', (sequential Message 16).exec s round = some s' ∧ SeqInv 16 s' ∧
      s'.enqueued.length = s.enqueued.length + 1 ∧
      s'.processed.length = s.enqueued.length + 1 := by
  have hcol := h.collected
  have hsafe := h.safe_head
  -- the message is accepted
  obtain ⟨s₁, hs₁, hlen₁, hproc₁⟩ : ∃ s₁, s.step 16 (.enqueue ⟨1, 0⟩) = some s₁ ∧
      s₁.enqueued.length = s.enqueued.length + 1 ∧ s₁.processed = s.processed :=
    ⟨_, h.step_accept (by omega) (by decide) (by omega), by simp, rfl⟩
  have h₁ : SeqInv 16 s₁ := h.step_enqueue (by omega) (by decide) hs₁
  -- it is gathered
  obtain ⟨s₂, hs₂, hq₂, henq₂, hproc₂⟩ : ∃ s₂, s₁.step 16 .gatherNewData = some s₂ ∧
      s₂.q.qSafe = { s₁.q.qSafe with tail := UInt16.ofNat s₁.enqueued.length } ∧
      s₂.enqueued = s₁.enqueued ∧ s₂.processed = s₁.processed := by
    refine ⟨_, rfl, ?_, rfl, rfl⟩
    simp only [h₁.gatherNewData (by omega : s₁.enqueued.length < 65536)]
  have h₂ : SeqInv 16 s₂ := h₁.step_gatherNewData (by omega) hs₂
  -- and the worker takes it
  obtain ⟨-, hproc, h₃⟩ := h₂.cycle 10
  have hsize : s₂.q.qSafe.size = 1 := by
    have hhead := h₁.safe_head
    rw [QueueRange.size_of_le h₂.head_le, hq₂, UInt16.toNat_ofNat', hhead, hlen₁, hproc₁]
    omega
  refine ⟨s₂.cycle 16 10, ?_, h₃, ?_, ?_⟩
  · simp only [round, Machine.exec_cons, sequential, hs₁, Option.bind_some, hs₂]
    rfl
  · show s₂.enqueued.length = _
    rw [henq₂, hlen₁]
  · rw [hproc, hsize, henq₂, hproc₂, hproc₁, List.length_take]
    omega

theorem exec_rounds (n : Nat) (hn : n < 65536) :
    ∃ s, (sequential Message 16).exec SeqState.start (rounds n) = some s ∧ SeqInv 16 s ∧
      s.enqueued.length = n ∧ s.processed.length = n := by
  induction n with
  | zero => exact ⟨_, rfl, SeqInv.start, rfl, rfl⟩
  | succ n ih =>
    obtain ⟨s, hrun, hinv, henq, hproc⟩ := ih (by omega)
    obtain ⟨s', hround, hinv', henq', hproc'⟩ := exec_round hinv (by omega) (by omega)
    refine ⟨s', ?_, hinv', by omega, by omega⟩
    rw [rounds_succ, Machine.exec_append, hrun, Option.bind_some, hround]

/-- A free slot stops the gatherer, however far it was told to go. -/
theorem gatherFrom_stop {T : Type} [Slot T] {N : Nat} {q : SharedQueue T} (n newFound : Nat)
    (h : word (q.queue (q.qSafe.tail.toNat % N)) = 0) :
    gatherFrom N n q newFound = (q, newFound) := by
  cases n with
  | zero => rfl
  | succ n => rw [gatherFrom, if_pos h]

/-- The locked tail has wrapped to 0 behind a safe tail of 65535: `q_size` is `-65535`, the loop
reads it as `2^32 - 65535`, and only the free slot behind the one message stops it. -/
theorem gatherNewData_wrapped {q : SharedQueue Message} (hm : q.safeTailMtx = 0)
    (hl : q.qLocked.tail = 0) (hs : q.qSafe = ⟨65535, 65535⟩) (hmarked : word (q.queue 15) ≠ 0)
    (hfree : word (q.queue 0) = 0) : (gatherNewData 16 q).1.qSafe = ⟨65535, 0⟩ := by
  have hsize : toUint ((q.qLocked.tail.toNat : Int) - q.qSafe.tail.toNat) = 4294901760 + 1 := by
    rw [hl, hs]
    decide
  have hslot : ¬ word (q.queue (q.qSafe.tail.toNat % 16)) = 0 := by
    rw [hs]
    exact hmarked
  unfold gatherNewData
  rw [if_pos hm]
  simp only [hsize]
  rw [gatherFrom, if_neg hslot, gatherFrom_stop]
  · simp only [hs]
    rfl
  · simp only [hs]
    exact hfree

/-- The length of `{65535, 0}` as a `uint` is `2^32 - 65535`, so nothing is clamped. -/
theorem dequeue_wrapped {q : SharedQueue Message} (hs : q.qSafe = ⟨65535, 0⟩) :
    (dequeue q 10).2 = ⟨65535, 9⟩ := by
  have hlen : ¬ (QueueRange.mk 65535 0).size = 0 := by decide
  unfold dequeue
  simp only [hs]
  rw [if_neg hlen]
  rfl

/-- **At the wrap the queue stops being a FIFO.** When message 65535 is the only one in the queue,
`q_safe` is `{65535, 0}`: its length as a `uint` is `2^32 - 65535`, so `dequeue(10)` takes ten
indices where one message is available. -/
theorem sequential_wraps :
    ¬ (sequential Message 16).Steps (SeqState.FifoOk 16) SeqState.start (rounds 65536) := by
  rw [rounds_succ 65535, Machine.steps_append]
  rintro ⟨-, hlast⟩
  obtain ⟨s, hrun, hinv, henq, hproc⟩ := exec_rounds 65535 (by omega)
  have hcol := hinv.collected
  have hhead : s.q.qSafe.head = 65535 := UInt16.toNat.inj (by rw [hinv.safe_head, hproc]; rfl)
  have hltail : s.q.qLocked.tail = 65535 := UInt16.toNat.inj (by rw [hinv.tail, henq]; rfl)
  have hstail : s.q.qSafe.tail = 65535 := by
    have hle := hinv.head_le
    have hgat := hinv.gathered_le
    rw [hinv.safe_head] at hle
    exact UInt16.toNat.inj (show _ = 65535 by omega)
  have hsafe : s.q.qSafe = ⟨65535, 65535⟩ := by
    rw [show s.q.qSafe = ⟨s.q.qSafe.head, s.q.qSafe.tail⟩ from rfl, hhead, hstail]
  -- the last message is accepted at index 65535, and the locked tail wraps
  obtain ⟨-, hrest⟩ := hlast s hrun
  have haccept : word (⟨1, 0⟩ : Message) ≠ 0 := by decide
  obtain ⟨-, hrest⟩ := hrest _ (hinv.step_accept (by omega) haccept (by omega))
  -- the gatherer finds it, and the safe tail wraps
  obtain ⟨⟨hspan, -⟩, -⟩ := hrest _ rfl
  have hgather := gatherNewData_wrapped (q := { s.q with
      qLocked := { s.q.qLocked with tail := s.q.qLocked.tail + 1 }
      queue := Function.update s.q.queue (s.enqueued.length % 16) ⟨1, 0⟩ })
    hinv.safe_tail_mtx (by rw [hltail]; rfl) hsafe
    (by simp only [henq]; rw [Function.update_self]; decide)
    (by
      simp only [henq]
      rw [Function.update_of_ne (by decide)]
      exact hinv.slot_free 65536 (by omega) (by omega))
  -- the worker asks for ten messages and gets ten
  unfold SeqState.cycleRange at hspan
  simp only [hgather, dequeue_wrapped hgather] at hspan
  exact absurd hspan (by decide)

end Shipwreck.Queue
