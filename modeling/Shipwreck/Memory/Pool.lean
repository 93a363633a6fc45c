import Shipwreck.Memory.BitAllocator
import Shipwreck.Lib.Transition

/-!
# Bits of a pool

`lock_next_bit` reads a block and takes a free bit of it with a compare-and-swap; `unlock_bit` reads the
block and stores it without the bit. Each access to a block is a step, and the threads take their steps
in any order.

A compare-and-swap sets a bit only if the block is what the thread has seen. The store of `unlock_bit`
has no such guard: what other threads have done to the block since the read is undone.
`pool_exclusive` says that nothing else can go wrong.
-/

namespace Shipwreck.Memory

/-- Where a thread stands. -/
inductive PoolPc where
  | idle
  /-- `lock_next_bit` is about to read block `i % max_blocks`, if `i` is below `stop`. -/
  | read (i stop : Nat)
  /-- `lock_next_bit` is in round `j` of its inner loop. -/
  | swap (i stop j : Nat) (bits : Block)
  /-- `unlock_bit` is about to read the block. -/
  | unlock (b : Nat)
  /-- `unlock_bit` has read the block. -/
  | store (b : Nat) (bits : Block)
  deriving DecidableEq

/-- The bitset, the threads, and which thread holds a bit: the one that `lock_next_bit` has returned it
to, until its `unlock_bit` is done. -/
structure PoolSys (Tid : Type) where
  blocks : Nat → Block
  pc : Tid → PoolPc
  held : Nat → Option Tid

/-- A thread calls one of the functions or goes on with what it is doing; `start` is
`prand() % max_blocks`. -/
inductive PoolAct (Tid : Type) where
  | lockNextBit (t : Tid) (start : Nat)
  | unlockBit (t : Tid) (b : Nat)
  | exec (t : Tid)
  deriving DecidableEq

namespace PoolSys

variable {Tid : Type} [DecidableEq Tid] (maxBlocks maxBits : Nat) (s : PoolSys Tid)

def goto (t : Tid) (pc : PoolPc) : PoolSys Tid := { s with pc := Function.update s.pc t pc }

/-- A new value of a block, and the new holder of one of its bits. -/
def change (i : Nat) (bits : Block) (b : Nat) (holder : Option Tid) : PoolSys Tid :=
  { s with blocks := Function.update s.blocks i bits, held := Function.update s.held b holder }

/-- A thread goes on up to its next access to a block; the result of `lock_next_bit` if it returns. -/
def exec (t : Tid) : Option (PoolSys Tid × Option Int) :=
  match s.pc t with
  | .idle => none
  | .read i stop =>
    if i < stop then some (s.goto t (.swap i stop 0 (s.blocks (i % maxBlocks))), none)
    else some (s.goto t .idle, some (-1))
  | .swap i stop j bits =>
    if j < 32 ∧ bits ≠ full then
      let blockIndex := i % maxBlocks
      let bitIndex := bitscanForward (~~~bits)
      let finalIndex := bitIndex + i * 32
      if finalIndex ≥ maxBits then some (s.goto t .idle, some (-1))
      else if s.blocks blockIndex = bits then
        let index := bitIndex + blockIndex * 32
        some ((s.change blockIndex (bits ||| bit bitIndex) index (some t)).goto t .idle,
          some (index : Nat))
      else some (s.goto t (.swap i stop (j + 1) (s.blocks blockIndex)), none)
    else some (s.goto t (.read (i + 1) stop), none)
  | .unlock b => some (s.goto t (.store b (s.blocks (b / 32))), none)
  | .store b bits =>
    some ((s.change (b / 32) (bits &&& ~~~bit (b % 32)) b none).goto t .idle, none)

/-- A thread unlocks only a bit that it holds. -/
def step : PoolAct Tid → Option (PoolSys Tid)
  | .lockNextBit t start =>
    match s.pc t with
    | .idle => some (s.goto t (.read start (start + maxBlocks)))
    | _ => none
  | .unlockBit t b =>
    match s.pc t with
    | .idle => if s.held b = some t then some (s.goto t (.unlock b)) else none
    | _ => none
  | .exec t => (s.exec maxBlocks maxBits t).map Prod.fst

end PoolSys

/-- A `BitAllocator` of `maxBits` bits in `maxBlocks` blocks, with all bits cleared. -/
def pool (Tid : Type) [DecidableEq Tid] (maxBlocks maxBits : Nat) :
    Machine (PoolSys Tid) (PoolAct Tid) where
  init s := s = ⟨fun _ => 0, fun _ => .idle, fun _ => none⟩
  step := PoolSys.step maxBlocks maxBits

/-! ## The promise -/

section

variable {Tid : Type} [DecidableEq Tid] {maxBlocks maxBits : Nat} {s s' : PoolSys Tid}

/-- The bit is set. -/
def PoolSys.IsSet (s : PoolSys Tid) (b : Nat) : Prop := (s.blocks (b / 32)).getLsbD (b % 32) = true

/-- A bit that is returned is held by no thread. -/
def Exclusive (maxBlocks maxBits : Nat) (s : PoolSys Tid) : PoolAct Tid → Prop
  | .exec t => ∀ s' b, s.exec maxBlocks maxBits t = some (s', some b) → 0 ≤ b → s.held b.toNat = none
  | _ => True

/-- When no call is in progress, the bits that are set are the ones that are held. -/
def Settled (s : PoolSys Tid) : Prop := (∀ t, s.pc t = .idle) → ∀ b, s.IsSet b ↔ s.held b ≠ none

/-- A thread that is about to store a block in `unlock_bit` has seen its value. -/
def PoolPc.Current (blocks : Nat → Block) : PoolPc → Prop
  | .store b bits => blocks (b / 32) = bits
  | _ => True

/-- Nothing has been done to a block between the read and the store of `unlock_bit`. -/
def Undisturbed (s : PoolSys Tid) : PoolAct Tid → Prop
  | .exec t => (s.pc t).Current s.blocks
  | _ => True

instance (blocks : Nat → Block) : (pc : PoolPc) → Decidable (pc.Current blocks)
  | .store b bits => inferInstanceAs (Decidable (blocks (b / 32) = bits))
  | .idle | .read .. | .swap .. | .unlock _ => isTrue trivial

instance (s : PoolSys Tid) : (act : PoolAct Tid) → Decidable (Undisturbed s act)
  | .exec t => inferInstanceAs (Decidable ((s.pc t).Current s.blocks))
  | .lockNextBit .. | .unlockBit .. => isTrue trivial

/-! ## The invariant -/

/-- The bits that are set are the ones that are held. -/
def Exact (s : PoolSys Tid) : Prop := ∀ b, s.IsSet b ↔ s.held b ≠ none

omit [DecidableEq Tid] in
/-- A change of one bit. -/
theorem Exact.change {i k b : Nat} {bits : Block} {holder : Option Tid} (h : Exact s) (hk : k < 32)
    (hb : b = k + i * 32) (hbit : bits.getLsbD k = true ↔ holder ≠ none)
    (hothers : ∀ j, j ≠ k → bits.getLsbD j = (s.blocks i).getLsbD j) :
    Exact (s.change i bits b holder) := by
  intro b'
  by_cases hsame : b' = b
  · subst hsame
    have hi : b' / 32 = i := by omega
    have hmod : b' % 32 = k := by omega
    simp only [PoolSys.IsSet, PoolSys.change, hi, hmod, Function.update_self]
    exact hbit
  · have hheld : (s.change i bits b holder).held b' = s.held b' := Function.update_of_ne hsame ..
    rw [hheld, ← h b']
    by_cases hi : b' / 32 = i
    · simp only [PoolSys.IsSet, PoolSys.change, hi, Function.update_self]
      rw [hothers _ (by omega)]
    · simp only [PoolSys.IsSet, PoolSys.change, Function.update_of_ne hi]

omit [DecidableEq Tid] in
/-- The compare-and-swap takes a bit that is free. -/
theorem Exact.lock {i : Nat} (h : Exact s) (hfull : s.blocks i ≠ full) (t : Tid) :
    s.held (bitscanForward (~~~s.blocks i) + i * 32) = none ∧
      Exact (s.change i (s.blocks i ||| bit (bitscanForward (~~~s.blocks i)))
        (bitscanForward (~~~s.blocks i) + i * 32) (some t)) := by
  obtain ⟨hclear, hlt⟩ := bitscanForward_not hfull
  generalize bitscanForward (~~~s.blocks i) = k at hclear hlt ⊢
  refine ⟨?_, h.change hlt rfl ?_ ?_⟩
  · by_contra hheld
    have hset := (h (k + i * 32)).mpr hheld
    have hi : (k + i * 32) / 32 = i := by omega
    have hmod : (k + i * 32) % 32 = k := by omega
    rw [PoolSys.IsSet, hi, hmod, hclear] at hset
    cases hset
  · rw [getLsbD_or_bit]
    simp [hlt]
  · intro j hj
    rw [getLsbD_or_bit]
    simp [Ne.symm hj]

omit [DecidableEq Tid] in
/-- The store clears one bit of the block. -/
theorem Exact.unlock (h : Exact s) (b : Nat) :
    Exact (s.change (b / 32) (s.blocks (b / 32) &&& ~~~bit (b % 32)) b none) := by
  have hlt : b % 32 < 32 := Nat.mod_lt _ (by decide)
  refine h.change hlt (by omega) ?_ ?_
  · simp [getLsbD_bit, hlt]
  · intro j hj
    rw [BitVec.getLsbD_and, BitVec.getLsbD_not, getLsbD_bit]
    by_cases hj32 : j < 32
    · simp [hj32, Ne.symm hj]
    · rw [BitVec.getLsbD_of_ge _ _ (by omega), Bool.false_and]

/-- A thread goes on. -/
theorem Exact.exec {t : Tid} {ret : Option Int} (h : Exact s) (hu : (s.pc t).Current s.blocks)
    (hexec : s.exec maxBlocks maxBits t = some (s', ret)) :
    Exact s' ∧ ∀ b, ret = some b → 0 ≤ b → s.held b.toNat = none := by
  rw [PoolSys.exec] at hexec
  cases hpc : s.pc t with
  | idle => simp [hpc] at hexec
  | read i stop =>
    simp only [hpc] at hexec
    split at hexec
    · cases hexec
      exact ⟨h, fun b hret => by cases hret⟩
    · cases hexec
      refine ⟨h, ?_⟩
      rintro b hret hb
      cases hret
      exact absurd hb (by decide)
  | swap i stop j bits =>
    simp only [hpc] at hexec
    split at hexec
    case isTrue hfree =>
      split at hexec
      case isTrue =>
        cases hexec
        refine ⟨h, ?_⟩
        rintro b hret hb
        cases hret
        exact absurd hb (by decide)
      case isFalse =>
        split at hexec
        case isTrue hsame =>
          subst hsame
          cases hexec
          -- the swap has succeeded: the bit was clear, and so nobody held it
          obtain ⟨hnone, hexact⟩ := h.lock hfree.2 t
          refine ⟨hexact, ?_⟩
          rintro b hret -
          cases hret
          exact hnone
        case isFalse =>
          cases hexec
          exact ⟨h, fun b hret => by cases hret⟩
    case isFalse =>
      cases hexec
      exact ⟨h, fun b hret => by cases hret⟩
  | unlock b =>
    simp only [hpc] at hexec
    cases hexec
    exact ⟨h, fun b hret => by cases hret⟩
  | store b bits =>
    simp only [hpc] at hexec
    -- nothing has come between the read and the store
    have hsame : s.blocks (b / 32) = bits := by
      rw [hpc] at hu
      exact hu
    subst hsame
    cases hexec
    exact ⟨h.unlock b, fun b hret => by cases hret⟩

/-- A step. -/
theorem Exact.step {act : PoolAct Tid} (h : Exact s) (hu : Undisturbed s act)
    (hstep : s.step maxBlocks maxBits act = some s') : Exact s' := by
  cases act with
  | lockNextBit t start =>
    rw [PoolSys.step] at hstep
    split at hstep
    · cases hstep
      exact h
    · cases hstep
  | unlockBit t b =>
    rw [PoolSys.step] at hstep
    split at hstep
    · split at hstep
      · cases hstep
        exact h
      · cases hstep
    · cases hstep
  | exec t =>
    obtain ⟨⟨s₁, ret⟩, hexec, rfl⟩ := Option.map_eq_some_iff.mp hstep
    exact (h.exec hu hexec).1

theorem Exact.exclusive {act : PoolAct Tid} (h : Exact s) (hu : Undisturbed s act) :
    Exclusive maxBlocks maxBits s act := by
  cases act with
  | lockNextBit t start => trivial
  | unlockBit t b => trivial
  | exec t =>
    intro s' b hexec hb
    exact (h.exec hu hexec).2 b rfl hb

/-- **A bit has one holder at a time**, in every run in which nothing is done to a block between the read
and the store of an `unlock_bit`; and whenever no call is in progress the bits that are set are the ones
that are held. -/
theorem pool_exclusive (hinit : (pool Tid maxBlocks maxBits).init s) (acts : List (PoolAct Tid))
    (hu : (pool Tid maxBlocks maxBits).Steps Undisturbed s acts) :
    (pool Tid maxBlocks maxBits).Steps (Exclusive maxBlocks maxBits) s acts ∧
      (pool Tid maxBlocks maxBits).States Settled s acts := by
  have hexact : Exact s := by
    rw [show s = ⟨fun _ => 0, fun _ => .idle, fun _ => none⟩ from hinit]
    intro b
    simp [PoolSys.IsSet]
  have hstep : ∀ s act s', Exact s → Undisturbed s act →
      (pool Tid maxBlocks maxBits).step s act = some s' → Exact s' :=
    fun _ _ _ h hu hs => h.step hu hs
  have hsettled : ∀ s : PoolSys Tid, Exact s → Settled s := fun _ h _ => h
  exact ⟨Machine.steps_of_steps (fun _ _ h hu => h.exclusive hu) hstep hexact hu,
    Machine.states_of_steps hsettled hstep hexact hu⟩

end

/-! ## Pointers into the pool -/

/-- `&pool[index]`, for elements of `size` bytes. -/
def element (pool size : UInt32) (index : Nat) : UInt32 := pool + UInt32.ofNat index * size

/-- `PoolAllocator::index_of`. -/
def indexOf (pool size ptr : UInt32) : Int := ((ptr - pool) / size).toInt32.toInt

/-- The bit that `PoolAllocator::free` unlocks. -/
def freedIndex (pool size : UInt32) (max : Nat) (ptr : UInt32) : Option Nat :=
  let index := indexOf pool size ptr
  if index < 0 ∨ index ≥ max then none else some index.toNat

/-- `free` unlocks the bit that `alloc` has locked. -/
theorem freedIndex_element {pool size : UInt32} {max index : Nat} (hindex : index < max)
    (hsize : size ≠ 0) (hmax : max * size.toNat ≤ 2147483648) :
    freedIndex pool size max (element pool size index) = some index := by
  have hpos : 0 < size.toNat := Nat.pos_of_ne_zero fun hzero => hsize (UInt32.toNat.inj hzero)
  have hmul : index * size.toNat < max * size.toNat := Nat.mul_lt_mul_of_pos_right hindex hpos
  have hle : index ≤ index * size.toNat := Nat.le_mul_of_pos_right index hpos
  have hoffset : element pool size index - pool = UInt32.ofNat index * size := by
    rw [element, UInt32.add_comm, UInt32.add_sub_cancel]
  have hnat : ((element pool size index - pool) / size).toNat = index := by
    have hindex' : (UInt32.ofNat index).toNat = index := by
      rw [UInt32.toNat_ofNat']
      omega
    rw [hoffset, UInt32.toNat_div, UInt32.toNat_mul, hindex', Nat.mod_eq_of_lt (by omega),
      Nat.mul_div_cancel _ hpos]
  have hint : indexOf pool size (element pool size index) = index := by
    show ((element pool size index - pool) / size).toBitVec.toInt = index
    rw [BitVec.toInt_eq_toNat_of_lt (by rw [UInt32.toNat_toBitVec, hnat]; omega),
      UInt32.toNat_toBitVec, hnat]
  simp only [freedIndex, hint]
  rw [if_neg (by omega), Int.toNat_natCast]

/-! ## Two threads -/

/-- `true` locks bit 0, and unlocks it while `false` locks bit 1. -/
def interfering : List (PoolAct Bool) :=
  [.lockNextBit true 0, .exec true, .exec true, .unlockBit true 0, .exec true,
    .lockNextBit false 0, .exec false, .exec false, .exec true]

/-- Both look for a bit in block 0, and `false` comes second; it locks a bit of block 1 while `true` unlocks bit 0. -/
def interleaved : List (PoolAct Bool) :=
  [.lockNextBit true 0, .lockNextBit false 0, .exec true, .exec false, .exec true, .exec false, .exec false,
    .unlockBit true 0, .exec true, .lockNextBit false 1, .exec false, .exec false, .exec true]

/-- All of that goes well. -/
theorem pool_exclusive_interleaved :
    (pool Bool 2 64).Steps Undisturbed ⟨fun _ => 0, fun _ => .idle, fun _ => none⟩ interleaved ∧
      (pool Bool 2 64).Steps (Exclusive 2 64) ⟨fun _ => 0, fun _ => .idle, fun _ => none⟩ interleaved ∧
      ∃ s, (pool Bool 2 64).exec ⟨fun _ => 0, fun _ => .idle, fun _ => none⟩ interleaved = some s ∧
        (s.held 0, s.held 1, s.held 32) = (none, some false, some false) ∧ ∀ b, s.IsSet b ↔ s.held b ≠ none := by
  have hu : (pool Bool 2 64).Steps Undisturbed ⟨fun _ => 0, fun _ => .idle, fun _ => none⟩ interleaved := by
    decide +kernel
  obtain ⟨hexclusive, hsettled⟩ := pool_exclusive rfl _ hu
  exact ⟨hu, hexclusive, _, rfl, by decide +kernel, hsettled.last rfl (by decide +kernel)⟩

/-- `true` stores the block without bit 0 as it was before `false` locked bit 1: the bit is lost, and
returned again while `false` holds it. -/
theorem allocation_lost : ∃ s, (pool Bool 1 32).exec ⟨fun _ => 0, fun _ => .idle, fun _ => none⟩
      interfering = some s ∧ (∀ t, s.pc t = .idle) ∧ s.held 1 = some false ∧ ¬ s.IsSet 1 ∧
    ∃ s', (pool Bool 1 32).exec s [.lockNextBit true 0, .exec true, .exec true, .lockNextBit true 0,
        .exec true] = some s' ∧
      (s'.exec 1 32 true).map Prod.snd = some (some 1) ∧ s'.held 1 = some false := by
  refine ⟨_, rfl, by decide +kernel, by decide +kernel, ?_, _, rfl, by decide +kernel,
    by decide +kernel⟩
  rw [PoolSys.IsSet]
  decide +kernel

end Shipwreck.Memory
