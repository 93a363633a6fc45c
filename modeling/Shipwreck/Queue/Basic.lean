import Shipwreck.Lib.RingBuffer
import Shipwreck.Lib.CInt

/-!
# The shared queue: messages, ranges and slots

The data of `include/std/queue.h`. A `SharedQueue` is a ring of `N` slots with two pairs of 16-bit
indices that are never reduced modulo `N` by the code itself, only when a slot is addressed:

    q_locked.head  ≤  q_safe.head  ≤  q_safe.tail  ≤  q_locked.tail

Slots from `q_locked.head` on are in use, those from `q_safe.tail` on are reserved by a producer
that may not have stored its message yet, those below `q_safe.head` have been handed to a consumer.
A slot whose first word is zero counts as *free*; this marker, not an index, is what tells the
collector and the gatherer how far they may go.
-/

namespace Shipwreck.Queue

open CInt (toUint)

/-- `MAX_RACE_TRIES`. -/
def maxRaceTries : Nat := 10

/-- `struct Message`. -/
structure Message where
  msgId : Int32
  data : Int32
  deriving DecidableEq, Repr

/-- What the queue relies on in its element type: it copies whole slots, and otherwise only looks
at, or zeroes, the first word `*(int *) &slot`. -/
class Slot (T : Type) where
  zero : T
  word : T → Int32
  clear : T → T
  word_zero : word zero = 0
  word_clear : ∀ m, word (clear m) = 0

export Slot (word clear)

attribute [simp] Slot.word_zero Slot.word_clear

instance : Slot Message where
  zero := ⟨0, 0⟩
  word := Message.msgId
  clear m := { m with msgId := 0 }
  word_zero := rfl
  word_clear _ := rfl

/-- `struct QueueRange`: two `ushort` indices, compared and swapped as one 32-bit word. -/
structure QueueRange where
  head : UInt16
  tail : UInt16
  deriving DecidableEq, Repr

namespace QueueRange

/-- `tail - head` as the compiler sees it: both operands are promoted to `int`, so the difference
is negative once `tail` has wrapped and `head` has not. -/
def diff (r : QueueRange) : Int := (r.tail.toNat : Int) - r.head.toNat

/-- `size()`, and every `uint my_length = tail - head`. -/
def size (r : QueueRange) : Nat := toUint r.diff

/-- The number of indices from `head` to `tail`, counted modulo `2^16` as the indices are. -/
def span (r : QueueRange) : Nat := (r.tail - r.head).toNat

/-- The indices a consumer visits with `for (int i = head; i < tail; i++)`. -/
def Has (r : QueueRange) (i : Nat) : Prop := r.head.toNat ≤ i ∧ i < r.tail.toNat

instance (r : QueueRange) (i : Nat) : Decidable (r.Has i) :=
  inferInstanceAs (Decidable (_ ∧ _))

/-- No index is visited through both ranges. -/
def Disjoint (r r' : QueueRange) : Prop := ∀ i, r.Has i → ¬ r'.Has i

theorem size_of_le {r : QueueRange} (h : r.head.toNat ≤ r.tail.toNat) :
    r.size = r.tail.toNat - r.head.toNat := by
  have := r.tail.toNat_lt
  unfold size diff toUint
  omega

theorem span_of_le {r : QueueRange} (h : r.head.toNat ≤ r.tail.toNat) :
    r.span = r.tail.toNat - r.head.toNat := by
  apply UInt16.toNat_sub_of_le
  rwa [UInt16.le_iff_toNat_le]

/-- The range `{0, 0}` a failed `dequeue` returns. -/
def empty : QueueRange := ⟨0, 0⟩

theorem not_has_empty (i : Nat) : ¬ empty.Has i := by
  rintro ⟨-, h⟩
  exact Nat.not_lt_zero i h

end QueueRange

/-- `struct SharedQueue<T, N>` without its constant `max_size = N`; slots are addressed as
`queue (i % N)` only. -/
structure SharedQueue (T : Type) where
  qLocked : QueueRange
  qSafe : QueueRange
  safeTailMtx : Nat
  lockedHeadMtx : Nat
  queue : Nat → T

/-- The state the constructor leaves in zeroed memory. -/
def SharedQueue.new {T : Type} [Slot T] : SharedQueue T where
  qLocked := ⟨0, 0⟩
  qSafe := ⟨0, 0⟩
  safeTailMtx := 0
  lockedHeadMtx := 0
  queue := fun _ => Slot.zero

/-! ## 16-bit increments below the wrap -/

theorem toNat_succ {u : UInt16} (h : u.toNat + 1 < 65536) : (u + 1).toNat = u.toNat + 1 := by
  rw [UInt16.toNat_add]
  simp only [UInt16.toNat_ofNat]
  omega

theorem toNat_add_ofNat {u : UInt16} {n : Nat} (h : u.toNat + n < 65536) :
    (u + UInt16.ofNat n).toNat = u.toNat + n := by
  rw [UInt16.toNat_add, UInt16.toNat_ofNat']
  omega

theorem succ_add_ofNat (u : UInt16) (n : Nat) :
    u + 1 + UInt16.ofNat n = u + UInt16.ofNat (n + 1) := by
  rw [Nat.add_comm n 1, UInt16.ofNat_add, ← UInt16.add_assoc]
  rfl

end Shipwreck.Queue
