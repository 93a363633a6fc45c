import Shipwreck.Memory.Frames

/-!
# The bit allocator as a whole

`BitAllocator` of `std/bitset.h` in the hands of one thread: `lock_next_bit`, which looks for a clear bit
from a block on, and `lock_bit_range`, which sets all bits of a range. What they do to single blocks is
in `BitAllocator.lean` already; here it is said of the bits, `Marked` or not, by their index.

`lock_next_bit` goes around: behind the last block it goes on with the first. But it compares the index
it has found with `max_bits` before it takes the block number modulo `max_blocks`, so that the blocks
before its starting block are never used. `lockNextBit_iff` says what that means for the pool.
-/

namespace Shipwreck.Memory

/-- `BitAllocator`: the bits beyond `max_bits` in the last block, and the blocks beyond `max_blocks`, are
there as well. -/
structure BitAllocator where
  maxBlocks : Nat
  maxBits : Nat
  bitsetBlocks : Nat → Block
  maxBlocks_eq : maxBlocks = (maxBits + 31) / 32

/-- The allocator that the constructor of `BitAllocator<N>` makes. -/
def BitAllocator.new (N : Nat) : BitAllocator where
  maxBlocks := (N + 31) / 32
  maxBits := N
  bitsetBlocks _ := 0
  maxBlocks_eq := rfl

namespace BitAllocator

variable (a : BitAllocator)

def setBlock (i : Nat) (bits : Block) : BitAllocator :=
  { a with bitsetBlocks := Function.update a.bitsetBlocks i bits }

/-! ## One bit -/

/-- The outer loop of `lock_next_bit` from `i`, with `left` rounds to go: the result, and the allocator.
Nobody interferes, so that the first compare-and-swap takes the bit. -/
def lockNextBitFrom : Nat → Nat → Int × BitAllocator
  | 0, _ => (-1, a)
  | left + 1, i =>
    let blockIndex := i % a.maxBlocks
    let bits := a.bitsetBlocks blockIndex
    if bits = full then lockNextBitFrom left (i + 1)
    else
      let bitIndex := bitscanForward (~~~bits)
      let finalIndex := bitIndex + i * 32
      if finalIndex ≥ a.maxBits then (-1, a)
      else ((bitIndex + blockIndex * 32 : Nat), a.setBlock blockIndex (bits ||| bit bitIndex))

/-- `lock_next_bit(start_block_index)` -/
def lockNextBit (startBlockIndex : Nat) : Int × BitAllocator :=
  a.lockNextBitFrom a.maxBlocks startBlockIndex

/-- `PoolAllocator::alloc`: the index of the element, or null; `rand` is what `prand()` returns. -/
def alloc (rand : Nat) : Option Nat × BitAllocator :=
  let (newIndex, a) := a.lockNextBit (rand % a.maxBlocks)
  if newIndex < 0 then (none, a) else (some newIndex.toNat, a)

/-- All bits are set. -/
def IsFull : Prop := ∀ b, b < a.maxBits → Marked a.bitsetBlocks b

/-- A bit is clear in the block `start` or behind it. -/
def FreeFrom (start : Nat) : Prop :=
  ∃ b, 32 * start ≤ b ∧ b < a.maxBits ∧ ¬ Marked a.bitsetBlocks b

end BitAllocator

instance (blocks : Nat → Block) (b : Nat) : Decidable (Marked blocks b) :=
  inferInstanceAs (Decidable (_ = true))

section

variable {blocks : Nat → Block} {bits : Block} {i b c : Nat}

theorem marked_update : Marked (Function.update blocks i bits) b ↔
    if b / 32 = i then bits.getLsbD (b % 32) = true else Marked blocks b := by
  rw [Marked, Function.update_apply]
  split
  · exact Iff.rfl
  · exact Iff.rfl

theorem marked_of_full (h : blocks (b / 32) = full) : Marked blocks b := by
  rw [Marked, h, full, BitVec.getLsbD_allOnes]
  exact decide_eq_true (Nat.mod_lt b (by decide))

theorem not_full_of_not_marked (h : ¬ Marked blocks b) : blocks (b / 32) ≠ full :=
  fun hfull => h (marked_of_full hfull)

/-- A block that is not full has a clear bit. -/
theorem exists_not_marked (h : blocks i ≠ full) : ∃ b, b / 32 = i ∧ ¬ Marked blocks b := by
  obtain ⟨hclear, hlt⟩ := bitscanForward_not h
  have hdiv : (i * 32 + bitscanForward (~~~blocks i)) / 32 = i := by omega
  have hmod : (i * 32 + bitscanForward (~~~blocks i)) % 32 = bitscanForward (~~~blocks i) := by omega
  refine ⟨i * 32 + bitscanForward (~~~blocks i), hdiv, ?_⟩
  rw [Marked, hdiv, hmod, hclear]
  exact Bool.false_ne_true

/-- A full block stays full while bits are set. -/
theorem full_of_marked_mono {blocks' : Nat → Block} (h : ∀ b, Marked blocks b → Marked blocks' b)
    (hfull : blocks i = full) : blocks' i = full := by
  by_contra hne
  obtain ⟨b, rfl, hclear⟩ := exists_not_marked hne
  exact hclear (h b (marked_of_full hfull))

/-- A bitmap is its marked bits. -/
theorem blocks_ext {blocks' : Nat → Block} (h : ∀ b, Marked blocks b ↔ Marked blocks' b) :
    blocks = blocks' := by
  funext i
  apply BitVec.eq_of_getLsbD_eq
  intro k hk
  have hdiv : (i * 32 + k) / 32 = i := by omega
  have hmod : (i * 32 + k) % 32 = k := by omega
  have hbit := h (i * 32 + k)
  rw [Marked, Marked, hdiv, hmod] at hbit
  exact Bool.eq_iff_iff.mpr hbit

theorem marked_lowUsed (f : Nat) : Marked lowUsed f ↔ f < 1024 := by
  rw [Marked, lowUsed]
  split
  case isTrue hlow =>
    rw [full, BitVec.getLsbD_allOnes, decide_eq_true_iff]
    omega
  case isFalse hhigh =>
    have hclear : (0 : Block).getLsbD (f % 32) = false := BitVec.getLsbD_zero
    rw [hclear]
    exact iff_of_false Bool.false_ne_true (by omega)

theorem bitscanFrom_le {data : Block} {left i k : Nat} (hk : i ≤ k) (hset : data.getLsbD k = true)
    (hlt : k < i + left) : bitscanFrom data left i ≤ k := by
  induction left generalizing i with
  | zero => omega
  | succ left ih =>
    rw [bitscanFrom]
    split
    case isTrue => exact hk
    case isFalse hclear =>
      have hki : i ≠ k := by
        rintro rfl
        exact hclear hset
      exact ih (by omega) (by omega)

/-- The bits below the one that `bitscan_forward(~bits)` finds are set. -/
theorem getLsbD_of_lt_bitscanForward {k : Nat} (hk : k < bitscanForward (~~~bits)) (hk32 : k < 32) :
    bits.getLsbD k = true := by
  by_contra hclear
  have hset : (~~~bits).getLsbD k = true := by
    rw [BitVec.getLsbD_not]
    simpa [hk32] using hclear
  have hle : bitscanForward (~~~bits) ≤ k := bitscanFrom_le (Nat.zero_le k) hset (by omega)
  omega

end

namespace BitAllocator

variable {a : BitAllocator} {start i left : Nat}

/-- The allocator with one bit more. -/
structure Took (a a' : BitAllocator) (b : Nat) : Prop where
  inRange : b < a.maxBits
  clear : ¬ Marked a.bitsetBlocks b
  marked : ∀ c, Marked a'.bitsetBlocks c ↔ Marked a.bitsetBlocks c ∨ c = b
  maxBits : a'.maxBits = a.maxBits

/-- The search takes the first clear bit from block `i` on, or there is none. -/
theorem lockNextBitFrom_spec (a : BitAllocator) (left i : Nat) (hcover : a.maxBlocks ≤ i + left) :
    (∃ (b : Nat) (a' : BitAllocator),
        32 * i ≤ b ∧ a.lockNextBitFrom left i = ((b : Int), a') ∧ a.Took a' b) ∨
      a.lockNextBitFrom left i = (-1, a) ∧ ¬ a.FreeFrom i := by
  have hblocks := a.maxBlocks_eq
  induction left generalizing i with
  | zero =>
    refine .inr ⟨rfl, ?_⟩
    rintro ⟨b, hlo, hhi, -⟩
    omega
  | succ left ih =>
    rw [lockNextBitFrom]
    by_cases hfull : a.bitsetBlocks (i % a.maxBlocks) = full
    · simp only [hfull, if_true]
      rcases ih (i := i + 1) (by omega) with ⟨b, a', hlo, hres, htook⟩ | ⟨hres, hnone⟩
      · exact .inl ⟨b, a', by omega, hres, htook⟩
      · refine .inr ⟨hres, ?_⟩
        rintro ⟨b, hlo, hhi, hclear⟩
        by_cases hb : b / 32 = i
        · have hne := not_full_of_not_marked hclear
          rw [hb] at hne
          rw [Nat.mod_eq_of_lt (by omega)] at hfull
          exact hne hfull
        · exact hnone ⟨b, by omega, hhi, hclear⟩
    · simp only [hfull, if_false]
      obtain ⟨hclear, hlt⟩ := bitscanForward_not hfull
      have hbelow : ∀ k, k < bitscanForward (~~~a.bitsetBlocks (i % a.maxBlocks)) → k < 32 →
          (a.bitsetBlocks (i % a.maxBlocks)).getLsbD k = true :=
        fun _ => getLsbD_of_lt_bitscanForward
      generalize bitscanForward (~~~a.bitsetBlocks (i % a.maxBlocks)) = j at hclear hlt hbelow ⊢
      by_cases hend : j + i * 32 ≥ a.maxBits
      · -- all bits of the allocator that are left are below the clear one
        rw [if_pos hend]
        refine .inr ⟨rfl, ?_⟩
        rintro ⟨b, hlo, hhi, hb⟩
        have hi : b / 32 = i := by omega
        apply hb
        rw [Marked, hi, ← Nat.mod_eq_of_lt (a := i) (b := a.maxBlocks) (by omega)]
        exact hbelow _ (by omega) (by omega)
      · rw [if_neg hend]
        have hi : i % a.maxBlocks = i := Nat.mod_eq_of_lt (by omega)
        rw [hi] at hclear ⊢
        have hdiv : (j + i * 32) / 32 = i := by omega
        have hmod : (j + i * 32) % 32 = j := by omega
        refine .inl ⟨j + i * 32, _, by omega, rfl, ⟨by omega, ?_, ?_, rfl⟩⟩
        · rw [Marked, hdiv, hmod, hclear]
          exact Bool.false_ne_true
        · intro c
          show Marked (Function.update a.bitsetBlocks i _) c ↔ _
          rw [marked_update]
          split
          case isTrue hc =>
            have hpos : (j = c % 32 ∧ c % 32 < 32) ↔ c = j + i * 32 := by omega
            rw [getLsbD_or_bit, Bool.or_eq_true, decide_eq_true_iff, hpos, Marked, hc]
          case isFalse hc =>
            have hne : c ≠ j + i * 32 := by
              rintro rfl
              exact hc hdiv
            simp [hne]

/-- It fails and changes nothing when all bits are set; otherwise it takes a clear bit. -/
def TakesBit (a : BitAllocator) (start : Nat) : Prop :=
  (a.lockNextBit start = (-1, a) ∧ a.IsFull) ∨
    ∃ (b : Nat) (a' : BitAllocator), a.lockNextBit start = ((b : Int), a') ∧ a.Took a' b

theorem lockNextBit_spec (a : BitAllocator) (start : Nat) :
    (∃ (b : Nat) (a' : BitAllocator),
        a.lockNextBit start = ((b : Int), a') ∧ a.Took a' b ∧ a.FreeFrom start) ∨
      a.lockNextBit start = (-1, a) ∧ ¬ a.FreeFrom start := by
  rcases a.lockNextBitFrom_spec a.maxBlocks start (by omega) with
    ⟨b, a', hlo, hres, htook⟩ | hnone
  · exact .inl ⟨b, a', hres, htook, b, hlo, htook.inRange, htook.clear⟩
  · exact .inr hnone

/-- **`lock_next_bit` finds a clear bit** exactly if one is left in its starting block or behind it, or
none at all; and so does the pool. -/
theorem lockNextBit_iff (a : BitAllocator) :
    (∀ start, a.TakesBit start ↔ a.FreeFrom start ∨ a.IsFull) ∧
      ∀ rand, ((a.alloc rand).1 = none → a.IsFull) ↔
        a.FreeFrom (rand % a.maxBlocks) ∨ a.IsFull := by
  refine ⟨?_, ?_⟩
  · intro start
    rcases a.lockNextBit_spec start with ⟨b, a', hres, htook, hfree⟩ | ⟨hres, hnone⟩
    · exact iff_of_true (.inr ⟨b, a', hres, htook⟩) (.inl hfree)
    · rw [TakesBit, hres]
      constructor
      · rintro (⟨-, hfull⟩ | ⟨b, a', heq, -⟩)
        · exact .inr hfull
        · have hneg : (-1 : Int) = b := congrArg Prod.fst heq
          omega
      · rintro (hfree | hfull)
        · exact absurd hfree hnone
        · exact .inl ⟨rfl, hfull⟩
  · intro rand
    rw [alloc]
    rcases a.lockNextBit_spec (rand % a.maxBlocks) with ⟨b, a', hres, -, hfree⟩ | ⟨hres, hnone⟩
    · have hnat : ¬ (b : Int) < 0 := by omega
      simp only [hres, hnat, if_false]
      exact iff_of_true (fun h => absurd h (Option.some_ne_none b)) (.inl hfree)
    · simp [hres, hnone]

/-- A pool of 64 with 32 elements left: the search begins at the other block, and fails. -/
theorem freeBit_missed :
    (((BitAllocator.new 64).setBlock 1 full).alloc 1).1 = none ∧
      ¬ ((BitAllocator.new 64).setBlock 1 full).IsFull ∧
      ¬ ((BitAllocator.new 64).setBlock 1 full).TakesBit 1 := by
  have hfull : ¬ ((BitAllocator.new 64).setBlock 1 full).IsFull := by
    intro h
    exact absurd (h 0 (by decide)) (by decide)
  have hnone : (((BitAllocator.new 64).setBlock 1 full).lockNextBit 1).1 = -1 := by decide +kernel
  refine ⟨by decide +kernel, hfull, ?_⟩
  rintro (⟨-, h⟩ | ⟨b, a', heq, -⟩)
  · exact hfull h
  · rw [heq] at hnone
    omega

/-- With a whole last block this is the search that only looks for the index. -/
theorem lockNextBit_fst (hwhole : a.maxBits = a.maxBlocks * 32) (start : Nat) :
    (a.lockNextBit start).1 = Memory.lockNextBit a.maxBlocks a.bitsetBlocks start := by
  have hfrom : ∀ left i, (a.lockNextBitFrom left i).1 =
      Memory.lockNextBitFrom a.maxBlocks a.bitsetBlocks left i := by
    intro left
    induction left with
    | zero => exact fun _ => rfl
    | succ left ih =>
      intro i
      rw [lockNextBitFrom, Memory.lockNextBitFrom, hwhole]
      simp only [apply_ite Prod.fst, ih]
      norm_cast
  exact hfrom _ _

/-! ## Ranges -/

/-- `high_ones(num_bits)`, with two shifts of less than 32 -/
def highOnes (numBits : Nat) : Block :=
  let invbits := 32 - numBits
  let halfbits := invbits >>> 1
  let mask := (1#32 <<< halfbits) <<< (invbits - halfbits);
  -mask

/-- `low_ones(num_bits)` -/
def lowOnes (numBits : Nat) : Block :=
  let halfbits := numBits >>> 1
  let mask := (1#32 <<< halfbits) <<< (numBits - halfbits)
  mask - 1#32

/-- The blocks of an allocator, and the indices of the blocks that have been accessed. -/
structure Access where
  blocks : Nat → Block
  touched : List Nat

/-- `lock_bitmask(block_index, bitmask)`: the new bits that it has locked, or -1, or 0. -/
def lockBitmask (blockIndex : Nat) (bitmask : Block) (s : Access) : Block × Access :=
  if bitmask = 0 then (0, s)
  else
    let lockedBitmask := s.blocks blockIndex
    let s := ⟨Function.update s.blocks blockIndex full, s.touched ++ [blockIndex]⟩
    if lockedBitmask = full then (full, s)
    else
      ((~~~lockedBitmask) &&& bitmask,
        { s with blocks := Function.update s.blocks blockIndex (lockedBitmask ||| bitmask) })

/-- The body of `lock_bit_range`: whole blocks from `i` on, `left` of them. -/
def lockBlocksFrom : Nat → Nat → Access → Access
  | 0, _, s => s
  | left + 1, i, s => lockBlocksFrom left (i + 1) (lockBitmask i full s).2

/-- `lock_bit_range(start, size)` -/
def lockBitRange (start size : Nat) (s : Access) : Access :=
  let startIndex := start / 32
  let endIndex := (start + size) / 32
  let headBits := 32 - start % 32
  let headMask := highOnes headBits
  let tailBits := (size + 32 - headBits) % 32
  let tailMask := lowOnes tailBits
  if startIndex = endIndex then (lockBitmask startIndex (headMask &&& tailMask) s).2
  else
    let s := (lockBitmask startIndex headMask s).2
    let s := lockBlocksFrom (endIndex - (startIndex + 1)) (startIndex + 1) s
    (lockBitmask endIndex tailMask s).2

section

variable {n k b : Nat} {mask : Block} {s : Access}

theorem shift_twice (n : Nat) : (1#32 <<< (n >>> 1)) <<< (n - n >>> 1) = 1#32 <<< n := by
  have hle : n >>> 1 ≤ n := by
    rw [Nat.shiftRight_eq_div_pow]
    exact Nat.div_le_self n _
  rw [← BitVec.shiftLeft_add, Nat.add_sub_cancel' hle]

/-- `-(1 << n)` is `-1 << n`. -/
theorem getLsbD_neg_shift : (-(1#32 <<< n)).getLsbD k = decide (n ≤ k ∧ k < 32) := by
  rw [← BitVec.shiftLeft_neg, BitVec.neg_one_eq_allOnes, BitVec.getLsbD_shiftLeft,
    BitVec.getLsbD_allOnes, Bool.eq_iff_iff]
  simp
  omega

theorem getLsbD_highOnes : (highOnes n).getLsbD k = decide (32 - n ≤ k ∧ k < 32) := by
  rw [highOnes]
  simp only [shift_twice]
  exact getLsbD_neg_shift

theorem getLsbD_lowOnes (hn : n < 32) : (lowOnes n).getLsbD k = decide (k < n) := by
  rw [lowOnes]
  simp only [shift_twice]
  rw [← BitVec.not_neg, BitVec.getLsbD_not, getLsbD_neg_shift, Bool.eq_iff_iff]
  simp
  omega

/-- The bits of a mask are set, and its block is touched unless the mask is empty. -/
theorem lockBitmask_spec (i : Nat) (mask : Block) (s : Access) :
    (∀ b, Marked (lockBitmask i mask s).2.blocks b ↔
        Marked s.blocks b ∨ b / 32 = i ∧ mask.getLsbD (b % 32) = true) ∧
      (lockBitmask i mask s).2.touched = s.touched ++ if mask = 0 then [] else [i] := by
  rw [lockBitmask]
  by_cases hmask : mask = 0
  · rw [if_pos hmask, if_pos hmask, hmask]
    refine ⟨?_, (List.append_nil _).symm⟩
    intro b
    simp
  · rw [if_neg hmask, if_neg hmask]
    by_cases hfull : s.blocks i = full
    · simp only [hfull, if_true]
      refine ⟨?_, trivial⟩
      intro b
      rw [← hfull, Function.update_eq_self]
      constructor
      · exact .inl
      · rintro (hb | ⟨hb, -⟩)
        · exact hb
        · by_contra hclear
          have hne := not_full_of_not_marked hclear
          rw [hb] at hne
          exact hne hfull
    · simp only [hfull, if_false]
      refine ⟨?_, trivial⟩
      intro b
      rw [Function.update_idem, marked_update]
      split
      case isTrue hb =>
        rw [BitVec.getLsbD_or, Bool.or_eq_true, Marked, hb]
        simp
      case isFalse hb => simp [hb]

theorem full_ne_zero : full ≠ 0 := by decide

theorem lockBlocksFrom_spec (left i : Nat) (s : Access) :
    (∀ b, Marked (lockBlocksFrom left i s).blocks b ↔
        Marked s.blocks b ∨ i ≤ b / 32 ∧ b / 32 < i + left) ∧
      ∀ j ∈ (lockBlocksFrom left i s).touched, j ∈ s.touched ∨ j < i + left := by
  induction left generalizing i s with
  | zero =>
    refine ⟨?_, fun j hj => .inl hj⟩
    intro b
    have hnone : ¬ (i ≤ b / 32 ∧ b / 32 < i + 0) := by omega
    rw [lockBlocksFrom, or_iff_left hnone]
  | succ left ih =>
    obtain ⟨hbits, htouched⟩ := lockBitmask_spec i full s
    obtain ⟨hrest, hrest'⟩ := ih (i + 1) (lockBitmask i full s).2
    rw [lockBlocksFrom]
    refine ⟨?_, ?_⟩
    · intro b
      have hones : full.getLsbD (b % 32) = true := by
        rw [full, BitVec.getLsbD_allOnes]
        exact decide_eq_true (Nat.mod_lt b (by decide))
      have hpos : (b / 32 = i ∨ i + 1 ≤ b / 32 ∧ b / 32 < i + 1 + left) ↔
          i ≤ b / 32 ∧ b / 32 < i + (left + 1) := by omega
      rw [hrest, hbits, hones, and_iff_left rfl, or_assoc, hpos]
    · intro j hj
      rcases hrest' j hj with hj | hj
      · rw [htouched, if_neg full_ne_zero, List.mem_append, List.mem_singleton] at hj
        exact hj.imp_right (by omega)
      · exact .inr (by omega)

/-- The bits of a range. -/
theorem marked_lockBitRange (start size : Nat) (s : Access) (b : Nat) :
    Marked (lockBitRange start size s).blocks b ↔ Marked s.blocks b ∨ start ≤ b ∧ b < start + size := by
  have htail : (size + 32 - (32 - start % 32)) % 32 = (start + size) % 32 := by omega
  have hlow := fun k => getLsbD_lowOnes (n := (start + size) % 32) (k := k)
    (Nat.mod_lt _ (by decide))
  have hhigh := fun k => getLsbD_highOnes (n := 32 - start % 32) (k := k)
  rw [lockBitRange]
  simp only [htail]
  generalize highOnes (32 - start % 32) = headMask at hhigh ⊢
  generalize lowOnes ((start + size) % 32) = tailMask at hlow ⊢
  by_cases hsame : start / 32 = (start + size) / 32
  · have hpos : (b / 32 = start / 32 ∧ (32 - (32 - start % 32) ≤ b % 32 ∧ b % 32 < 32) ∧
        b % 32 < (start + size) % 32) ↔ start ≤ b ∧ b < start + size := by omega
    rw [if_pos hsame, (lockBitmask_spec _ _ s).1, BitVec.getLsbD_and, hhigh, hlow, Bool.and_eq_true,
      decide_eq_true_iff, decide_eq_true_iff, hpos]
  · have hpos : ((b / 32 = start / 32 ∧ (32 - (32 - start % 32) ≤ b % 32 ∧ b % 32 < 32)) ∨
        (start / 32 + 1 ≤ b / 32 ∧
          b / 32 < start / 32 + 1 + ((start + size) / 32 - (start / 32 + 1))) ∨
        (b / 32 = (start + size) / 32 ∧ b % 32 < (start + size) % 32)) ↔
        start ≤ b ∧ b < start + size := by omega
    rw [if_neg hsame, (lockBitmask_spec _ _ _).1, (lockBlocksFrom_spec _ _ _).1,
      (lockBitmask_spec _ _ s).1, hhigh, hlow, decide_eq_true_iff, decide_eq_true_iff, or_assoc,
      or_assoc, hpos]

/-- The block behind a range that ends with a block is not accessed. -/
theorem touched_lockBitRange (start size : Nat) (s : Access) {i : Nat}
    (hi : i ∈ (lockBitRange start size s).touched) : i ∈ s.touched ∨ i * 32 < start + size := by
  have htail : (size + 32 - (32 - start % 32)) % 32 = (start + size) % 32 := by omega
  have hempty : lowOnes ((start + size) % 32) ≠ 0 → (start + size) % 32 ≠ 0 := by
    intro hne hzero
    rw [hzero] at hne
    exact hne (by decide)
  have htouched : ∀ {mask : Block} {j : Nat}, i ∈ (if mask = 0 then [] else [j]) → mask ≠ 0 ∧ i = j := by
    intro mask j hi
    split at hi
    case isTrue => exact absurd hi List.not_mem_nil
    case isFalse hmask => exact ⟨hmask, List.mem_singleton.mp hi⟩
  rw [lockBitRange] at hi
  simp only [htail] at hi
  split at hi
  case isTrue hsame =>
    rw [(lockBitmask_spec _ _ _).2, List.mem_append] at hi
    rcases hi with hi | hi
    · exact .inl hi
    · obtain ⟨hmask, rfl⟩ := htouched hi
      have hrest := hempty fun hzero => hmask ((congrArg _ hzero).trans BitVec.and_zero)
      exact .inr (by omega)
  case isFalse hsame =>
    rw [(lockBitmask_spec _ _ _).2, List.mem_append] at hi
    rcases hi with hi | hi
    · rcases (lockBlocksFrom_spec _ _ _).2 i hi with hi | hi
      · rw [(lockBitmask_spec _ _ _).2, List.mem_append] at hi
        rcases hi with hi | hi
        · exact .inl hi
        · obtain ⟨-, rfl⟩ := htouched hi
          exact .inr (by omega)
      · exact .inr (by omega)
    · obtain ⟨hmask, rfl⟩ := htouched hi
      have hrest := hempty hmask
      exact .inr (by omega)

/-- **`lock_bit_range` sets the bits of its range** and no others, and accesses no block behind the last
one. -/
theorem lockBitRange_exact {N start size : Nat} (hend : start + size ≤ N) (blocks : Nat → Block) :
    (∀ b, Marked (lockBitRange start size ⟨blocks, []⟩).blocks b ↔
        Marked blocks b ∨ start ≤ b ∧ b < start + size) ∧
      ∀ i ∈ (lockBitRange start size ⟨blocks, []⟩).touched, i < (BitAllocator.new N).maxBlocks := by
  refine ⟨marked_lockBitRange start size ⟨blocks, []⟩, ?_⟩
  intro i hi
  have hlt : i * 32 < start + size :=
    (touched_lockBitRange start size ⟨blocks, []⟩ hi).resolve_left List.not_mem_nil
  show i < (N + 31) / 32
  omega

/-- Bits 30 to 95 of 96: the end of a block and two whole ones. -/
theorem lockBitRange_example :
    (lockBitRange 30 66 ⟨fun _ => 0, []⟩).touched = [0, 1, 2] ∧
      (∀ b, Marked (lockBitRange 30 66 ⟨fun _ => 0, []⟩).blocks b ↔
        Marked (fun _ => 0) b ∨ 30 ≤ b ∧ b < 30 + 66) ∧
      ∀ i ∈ (lockBitRange 30 66 ⟨fun _ => 0, []⟩).touched, i < (BitAllocator.new 96).maxBlocks :=
  ⟨by decide +kernel, lockBitRange_exact (by decide) _⟩

end

end BitAllocator

end Shipwreck.Memory
