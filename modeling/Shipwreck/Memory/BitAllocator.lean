import Mathlib.Logic.Function.Basic

/-!
# Blocks of the bit allocator

`BitAllocator` keeps its bits in 32-bit blocks. A block is locked by swapping in `-1`, all ones,
which is also the value of a block with no bit left; its true bits are then in a local variable of
the locker until `unlock_block` stores them.

Here are the operations on one block that the page allocator uses, and what they do to its bits.
-/

namespace Shipwreck.Memory

/-- A block; bit `i` says that index `32 * block + i` is used. -/
abbrev Block := BitVec 32

/-- `-1` as a block: locked, or full. -/
def full : Block := BitVec.allOnes 32

/-- `bsf`, from bit `i` with `left` bits to go. -/
def bitscanFrom (data : Block) : Nat → Nat → Nat
  | 0, i => i
  | left + 1, i => if data.getLsbD i then i else bitscanFrom data left (i + 1)

/-- `bitscan_forward`: the lowest bit that is set. -/
def bitscanForward (data : Block) : Nat := bitscanFrom data 32 0

/-- `1 << i`. -/
def bit (i : Nat) : Block := 1#32 <<< i

variable {bits : Block} {i j : Nat}

theorem bitscanFrom_spec {left : Nat} (h : ∃ k, i ≤ k ∧ k < i + left ∧ bits.getLsbD k = true) :
    bits.getLsbD (bitscanFrom bits left i) = true ∧ bitscanFrom bits left i < i + left := by
  induction left generalizing i with
  | zero =>
    obtain ⟨k, hlo, hhi, -⟩ := h
    omega
  | succ left ih =>
    rw [bitscanFrom]
    split
    · rename_i hbit
      exact ⟨hbit, by omega⟩
    · rename_i hbit
      have hrest : ∃ k, i + 1 ≤ k ∧ k < i + 1 + left ∧ bits.getLsbD k = true := by
        obtain ⟨k, hlo, hhi, hk⟩ := h
        have hki : k ≠ i := by
          rintro rfl
          exact hbit hk
        exact ⟨k, by omega, by omega, hk⟩
      obtain ⟨hset, hlt⟩ := ih hrest
      exact ⟨hset, by omega⟩

/-- A block that is not full has a bit left, and `bitscan_forward(~bits)` finds one. -/
theorem bitscanForward_not (h : bits ≠ full) :
    bits.getLsbD (bitscanForward (~~~bits)) = false ∧ bitscanForward (~~~bits) < 32 := by
  have hclear : ∃ k, 0 ≤ k ∧ k < 0 + 32 ∧ (~~~bits).getLsbD k = true := by
    by_contra hnone
    apply h
    apply BitVec.eq_of_getLsbD_eq
    intro k hk
    by_contra hbit
    apply hnone
    refine ⟨k, Nat.zero_le k, by omega, ?_⟩
    simp only [full, BitVec.getLsbD_allOnes, hk, decide_true, Bool.not_eq_true] at hbit
    rw [BitVec.getLsbD_not, hbit]
    simp [hk]
  obtain ⟨hset, hlt⟩ := bitscanFrom_spec hclear
  rw [Nat.zero_add] at hlt
  refine ⟨?_, hlt⟩
  have hset' : (~~~bits).getLsbD (bitscanForward (~~~bits)) = true := hset
  rw [BitVec.getLsbD_not] at hset'
  simpa using (Bool.and_eq_true_iff.mp hset').2

theorem getLsbD_bit : (bit i).getLsbD j = decide (i = j ∧ j < 32) := by
  rw [bit, BitVec.getLsbD_shiftLeft]
  by_cases hj : j < 32
  · by_cases hij : i = j
    · subst hij
      simp [hj]
    · by_cases hlt : j < i
      · simp [hlt, hij]
      · have hne : j - i ≠ 0 := by omega
        simp [hj, hlt, hij, BitVec.getLsbD_one, hne]
  · simp [hj]

/-- Setting a bit. -/
theorem getLsbD_or_bit :
    (bits ||| bit i).getLsbD j = (bits.getLsbD j || decide (i = j ∧ j < 32)) := by
  rw [BitVec.getLsbD_or, getLsbD_bit]

/-- The test `!(bits & testbit)`. -/
theorem and_bit_eq_zero_iff : bits &&& bit i = 0 ↔ ¬ (i < 32 ∧ bits.getLsbD i = true) := by
  constructor
  · rintro hzero ⟨hi, hbit⟩
    have hand : (bits &&& bit i).getLsbD i = true := by
      rw [BitVec.getLsbD_and, getLsbD_bit, hbit]
      simp [hi]
    rw [hzero] at hand
    simp at hand
  · intro hnot
    apply BitVec.eq_of_getLsbD_eq
    intro k hk
    rw [BitVec.getLsbD_and, getLsbD_bit]
    by_cases hik : i = k
    · subst hik
      have hbit : bits.getLsbD i = false := by
        simpa [hk] using hnot
      simp [hbit]
    · simp [hik]

/-- The next `testbit`. -/
theorem bit_succ : bit i <<< 1 = bit (i + 1) := by
  rw [bit, bit, BitVec.shiftLeft_add]

/-- All 32 bits are set in a full block only. -/
theorem eq_full (h : ∀ k, k < 32 → bits.getLsbD k = true) : bits = full := by
  apply BitVec.eq_of_getLsbD_eq
  intro k hk
  rw [h k hk, full, BitVec.getLsbD_allOnes]
  simp [hk]

/-! ## One bit of a pool -/

/-- The outer loop of `lock_next_bit` from `i`, with `left` iterations to go: the index of the bit
it locks, or `-1`. The bound is checked with `i`, which goes beyond the last block, and not with
`block_index`. -/
def lockNextBitFrom (maxBlocks : Nat) (blocks : Nat → Block) : Nat → Nat → Int
  | 0, _ => -1
  | left + 1, i =>
    let blockIndex := i % maxBlocks
    let bits := blocks blockIndex
    if bits = full then lockNextBitFrom maxBlocks blocks left (i + 1)
    else
      let bitIndex := bitscanForward (~~~bits)
      if bitIndex + i * 32 ≥ maxBlocks * 32 then -1 else bitIndex + blockIndex * 32

/-- `lock_next_bit` of an allocator whose last block is whole, when nobody interferes. -/
def lockNextBit (maxBlocks : Nat) (blocks : Nat → Block) (startBlockIndex : Nat) : Int :=
  lockNextBitFrom maxBlocks blocks maxBlocks startBlockIndex

theorem lockNextBitFrom_neg_iff {maxBlocks left i : Nat} {blocks : Nat → Block} :
    lockNextBitFrom maxBlocks blocks left i < 0 ↔
      ∀ k, i ≤ k → k < i + left → k < maxBlocks → blocks k = full := by
  induction left generalizing i with
  | zero =>
    refine ⟨?_, fun _ => Int.negSucc_lt_zero 0⟩
    intro _ k hlo hhi
    omega
  | succ left ih =>
    rw [lockNextBitFrom]
    by_cases hfull : blocks (i % maxBlocks) = full
    · simp only [hfull, if_true]
      rw [ih]
      constructor
      · intro hrest k hlo hhi hk
        by_cases hki : k = i
        · rw [hki] at hk ⊢
          rwa [Nat.mod_eq_of_lt hk] at hfull
        · exact hrest k (by omega) (by omega) hk
      · intro hall k hlo hhi hk
        exact hall k (by omega) (by omega) hk
    · obtain ⟨-, hbit⟩ := bitscanForward_not hfull
      simp only [hfull, if_false]
      by_cases hi : i < maxBlocks
      · -- a block that is not full has a bit in range
        rw [if_neg (by omega)]
        constructor
        · intro hneg
          omega
        · intro hall
          rw [Nat.mod_eq_of_lt hi] at hfull
          exact absurd (hall i (Nat.le_refl i) (by omega) hi) hfull
      · rw [if_pos (by omega)]
        refine ⟨?_, fun _ => by decide⟩
        intro _ k hlo _ hk
        omega

/-- The search fails when there is no bit left from its starting block on, whatever there is before
it. -/
theorem lockNextBit_neg_iff {maxBlocks startBlockIndex : Nat} {blocks : Nat → Block} :
    lockNextBit maxBlocks blocks startBlockIndex < 0 ↔
      ∀ k, startBlockIndex ≤ k → k < maxBlocks → blocks k = full := by
  rw [lockNextBit, lockNextBitFrom_neg_iff]
  constructor
  · intro h k hlo hk
    exact h k hlo (by omega) hk
  · intro h k hlo _ hk
    exact h k hlo hk

end Shipwreck.Memory
