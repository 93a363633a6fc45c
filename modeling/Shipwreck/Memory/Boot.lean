import Shipwreck.Memory.Bitset
import Shipwreck.Memory.Reserve

/-!
# What `initialize_memory` lays out

The memory manager puts its own data into the memory from `phys_base_free` on:

    phys_base_free            page table 0
    phys_base_free + 0x1000   the page directory
    phys_base_free + 0x2000   the BitAllocator: max_blocks, max_bits, and the blocks of the page bitmap
    ...                       the static heap, up to the page tables at 0x400000

The page bitmap takes `PAGE_BITMAP_BYTES`, and the static heap begins on the first page boundary behind
so many bytes. The two words in front of the blocks are not counted, so that the last two blocks lie in
the first page of the heap, which is the page copy window (`bitmap_overlapped`).
-/

namespace Shipwreck.Memory

/-- `PAGE_BITMAP_BITS` and `PAGE_BITMAP_BYTES` -/
def pageBitmapBits : Nat := 1048576

def pageBitmapBytes : UInt32 := 131072

/-- `PAGE_KERNEL_DATA`, `PAGE_GLOBAL_DATA` and `PAGE_USER` -/
def pageKernelData : UInt32 := 3

def pageGlobalData : UInt32 := 0x103

def pageUser : UInt32 := 4

/-- The variables of `memory.cpp`, and the memory they speak of. -/
structure KernelMemory where
  space : AddressSpace
  heap : StaticHeap
  pageTables : UInt32
  pageDir : UInt32
  pageAllocator : UInt32
  pageCopyPtr : UInt32

/-- `get_pte_index(vaddr)` -/
def getPteIndex (vaddr : UInt32) : Nat := (vaddr >>> 12).toNat

/-- The page table that `initialize_memory` fills in: the low 4 MB as they are, readable to users as far
as `physAllocPtr`. -/
def identityMap (physAllocPtr : UInt32) (i : Nat) : UInt32 :=
  if i < getPteIndex physAllocPtr then entryOf i (pageGlobalData ||| pageUser)
  else entryOf i pageGlobalData

/-- The directory that it fills in. -/
def firstPageDir (pageTables pageDir : UInt32) (t : Nat) : UInt32 :=
  if t = 0 then pageTables ||| (pageGlobalData ||| pageUser)
  else if t = 1 then pageDir ||| pageKernelData
  else 0

/-- `initialize_memory(phys_base_free)`, from any contents of the memory. -/
def initializeMemory (phys : Nat → Nat → UInt32) (physBaseFree : UInt32) : KernelMemory :=
  let pageTables := physBaseFree
  let pageDir := physBaseFree + 4096
  let bitsetBlocks := physBaseFree + 2 * 4096
  let physAllocPtr := bitsetBlocks + pageBitmapBytes
  let bitStart := bitsetBlocks.toNat / 4096
  let bitEnd := (bitsetBlocks + pageBitmapBytes + 4095).toNat / 4096
  let access : BitAllocator.Access := ⟨(BitAllocator.new pageBitmapBits).bitsetBlocks, []⟩
  let access := BitAllocator.lockBitRange bitStart (bitEnd - bitStart) access
  let access := BitAllocator.lockBitRange 0 1024 access
  let phys := Function.update phys (frameOf pageDir) (firstPageDir pageTables pageDir)
  let phys := Function.update phys (frameOf pageTables) (identityMap physAllocPtr)
  let vPtables : UInt32 := 0x400000
  let heap : StaticHeap := ⟨(physAllocPtr + 4095) &&& 0xFFFFF000, vPtables⟩
  let pageCopy := heap.staticAllocPages 1
  { space := ⟨phys, frameOf pageDir, access.blocks, vPtables + 4096 * 1024⟩
    heap := pageCopy.1
    pageTables := vPtables
    pageDir := vPtables + 4096
    pageAllocator := bitsetBlocks
    pageCopyPtr := pageCopy.2 }

/-- `sizeof(BitAllocator<N>)`: two words and the blocks. -/
def sizeofBitAllocator (N : Nat) : Nat := 8 + 4 * ((N + 31) / 32)

/-- What the memory manager has put behind `phys_base_free`. -/
def ownData (physBaseFree : UInt32) : List Extent :=
  [⟨physBaseFree.toNat, 2 * 4096⟩,
    ⟨physBaseFree.toNat + 2 * 4096, sizeofBitAllocator pageBitmapBits⟩]

/-- The ranges that `static_alloc_pages` returns, to `initialize_memory` and then to `calls`. -/
def KernelMemory.staticRanges (k : KernelMemory) (calls : List UInt32) : List Extent :=
  (if k.pageCopyPtr = 0 then [] else [⟨k.pageCopyPtr.toNat, 4096⟩]) ++
    ranges StaticHeap.staticAllocPages k.heap calls

/-- `phys_base_free` is the beginning of a page, and the data of the memory manager ends below 4 MB. -/
structure BaseOk (physBaseFree : UInt32) : Prop where
  aligned : physBaseFree.toNat % 4096 = 0
  fits : ∀ d ∈ ownData physBaseFree, d.stop ≤ 0x400000

/-- The static heap keeps off the data of the memory manager. -/
def HeapApart (phys : Nat → Nat → UInt32) (physBaseFree : UInt32) (calls : List UInt32) : Prop :=
  ∀ e ∈ (initializeMemory phys physBaseFree).staticRanges calls, ∀ d ∈ ownData physBaseFree, e.Apart d

theorem sizeof_pageBitmap : sizeofBitAllocator pageBitmapBits = 131080 := rfl

theorem mem_ownData {physBaseFree : UInt32} {d : Extent} : d ∈ ownData physBaseFree ↔
    d = ⟨physBaseFree.toNat, 8192⟩ ∨ d = ⟨physBaseFree.toNat + 8192, 131080⟩ := by
  rw [ownData, sizeof_pageBitmap, List.mem_cons, List.mem_singleton]

/-- Clearing the offset in a page. -/
theorem and_pageMask (v : UInt32) : (v &&& 0xFFFFF000).toNat = v.toNat / 4096 * 4096 := by
  have hmask : ∀ i, i < 32 → (0xFFFFF000#32).getLsbD i = decide (12 ≤ i) := by decide
  have hbits : v.toBitVec &&& 0xFFFFF000#32 = (v.toBitVec >>> 12) <<< 12 := by
    apply BitVec.eq_of_getLsbD_eq
    intro i hi
    rw [BitVec.getLsbD_and, hmask i hi, BitVec.getLsbD_shiftLeft, BitVec.getLsbD_ushiftRight]
    by_cases hlow : 12 ≤ i
    · simp [hi, hlow, Nat.add_sub_cancel' hlow]
    · simp [hlow]
  have hlt := v.toNat_lt
  show (v.toBitVec &&& 0xFFFFF000#32).toNat = _
  rw [hbits, BitVec.toNat_shiftLeft, BitVec.toNat_ushiftRight, Nat.shiftLeft_eq,
    Nat.shiftRight_eq_div_pow]
  show v.toNat / 4096 * 4096 % 4294967296 = _
  omega

namespace BaseOk

variable {physBaseFree : UInt32}

/-- `139272` is two pages, the two words and the blocks. -/
theorem le (h : BaseOk physBaseFree) : physBaseFree.toNat ≤ 4194304 - 139272 := by
  have hfits := h.fits _ (mem_ownData.mpr (.inr rfl))
  rw [Extent.stop_mk] at hfits
  omega

/-- The last address of the page in which the blocks end, or of the next one. -/
theorem toNat_heap (h : BaseOk physBaseFree) :
    (physBaseFree + 2 * 4096 + pageBitmapBytes + 4095).toNat = physBaseFree.toNat + 143359 := by
  have hle := h.le
  have hbytes : pageBitmapBytes.toNat = 131072 := rfl
  have h8192 : (2 * 4096 : UInt32).toNat = 8192 := rfl
  have h4095 : (4095 : UInt32).toNat = 4095 := rfl
  rw [UInt32.toNat_add, UInt32.toNat_add, UInt32.toNat_add, hbytes, h8192, h4095]
  omega

/-- The pointer to the static heap, before `initialize_memory` takes a page of it. -/
theorem heap_start (h : BaseOk physBaseFree) :
    ((physBaseFree + 2 * 4096 + pageBitmapBytes + 4095) &&& 0xFFFFF000).toNat =
      physBaseFree.toNat + 139264 := by
  have haligned := h.aligned
  rw [and_pageMask, h.toNat_heap]
  omega

/-- The page copy window is the first page of the heap. -/
theorem pageCopy (h : BaseOk physBaseFree) (phys : Nat → Nat → UInt32) :
    (initializeMemory phys physBaseFree).pageCopyPtr.toNat = physBaseFree.toNat + 139264 ∧
      (initializeMemory phys physBaseFree).heap.staticAllocPtr.toNat = physBaseFree.toNat + 143360 ∧
      (initializeMemory phys physBaseFree).heap.staticAllocLimit = 0x400000 := by
  have hle := h.le
  have haligned := h.aligned
  have hstart := h.heap_start
  have hlimit : (0x400000 : UInt32).toNat = 4194304 := rfl
  have hpage : (1 * 4096 : UInt32).toNat = 4096 := rfl
  obtain ⟨start, hs⟩ : ∃ start, start =
    (physBaseFree + 2 * 4096 + pageBitmapBytes + 4095) &&& 0xFFFFF000 := ⟨_, rfl⟩
  rw [← hs] at hstart
  have hfits : ¬ (1 * 4096 : UInt32) > 0x400000 - start := by
    rw [gt_iff_lt, UInt32.lt_iff_toNat_lt, UInt32.toNat_sub, hpage, hlimit, hstart]
    omega
  have hne : start ≠ 0x400000 := by
    intro heq
    rw [heq, hlimit] at hstart
    omega
  have hreserve : reservePages 0x400000 start 1 = (start + 1 * 4096, start) := by
    rw [reservePages_eq, if_neg hfits, if_neg hne]
  simp only [initializeMemory, StaticHeap.staticAllocPages, ← hs, hreserve]
  refine ⟨hstart, ?_, trivial⟩
  rw [UInt32.toNat_add, hpage, hstart]
  omega

end BaseOk

/-- **The page copy window overlaps the page bitmap**, wherever the data of the memory manager lies: the
last two blocks of the `BitAllocator` are in it. -/
theorem bitmap_overlapped (phys : Nat → Nat → UInt32) (physBaseFree : UInt32)
    (h : BaseOk physBaseFree) (calls : List UInt32) : ¬ HeapApart phys physBaseFree calls := by
  intro hapart
  obtain ⟨hcopy, -, -⟩ := h.pageCopy phys
  have hnull : (initializeMemory phys physBaseFree).pageCopyPtr ≠ 0 := by
    intro hzero
    have hnat : (0 : UInt32).toNat = 0 := rfl
    rw [hzero, hnat] at hcopy
    omega
  have hmem : (⟨physBaseFree.toNat + 139264, 4096⟩ : Extent) ∈
      (initializeMemory phys physBaseFree).staticRanges calls := by
    rw [KernelMemory.staticRanges, if_neg hnull, hcopy]
    exact List.mem_cons_self
  have hblocks := hapart _ hmem _ (mem_ownData.mpr (.inr rfl))
  refine Extent.not_apart (x := physBaseFree.toNat + 139264) ?_ ?_ hblocks
  · rw [Extent.has_mk]
    omega
  · rw [Extent.has_mk]
    omega

/-- The call of `main`. -/
theorem baseOk_main : BaseOk 0x100000 where
  aligned := by decide
  fits := by
    intro d hd
    rcases mem_ownData.mp hd with rfl | rfl
    · decide
    · decide

theorem bitmap_overlapped_main : ¬ HeapApart (fun _ _ => 0) 0x100000 [1, 5] :=
  bitmap_overlapped _ _ baseOk_main _

/-- In `main` the page copy window begins 8 bytes before the end of the page bitmap. -/
theorem heap_not_apart : ¬ ∀ phys physBaseFree, BaseOk physBaseFree →
    ∀ calls, HeapApart phys physBaseFree calls := by
  intro hall
  have hwindow : (⟨0x122000, 4096⟩ : Extent) ∈
      (initializeMemory (fun _ _ => 0) 0x100000).staticRanges [] := by
    decide +kernel
  have hallocator : (⟨0x102000, 131080⟩ : Extent) ∈ ownData 0x100000 := by
    decide +kernel
  refine Extent.not_apart (x := 0x122000) ?_ ?_ (hall _ _ baseOk_main [] _ hwindow _ hallocator)
  · rw [Extent.has_mk]
    decide
  · rw [Extent.has_mk]
    decide

/-- The other ranges of the heap keep off it, as long as no number of bytes is cut off. -/
theorem heap_apart {phys : Nat → Nat → UInt32} {physBaseFree : UInt32} (h : BaseOk physBaseFree)
    {calls : List UInt32} (hfits : (reservations StaticHeap.staticAllocPages).Steps
      (fun heap => PagesFit 0x400000 heap.staticAllocPtr)
      (initializeMemory phys physBaseFree).heap calls) :
    ∀ e ∈ ranges StaticHeap.staticAllocPages (initializeMemory phys physBaseFree).heap calls,
      ∀ d ∈ ownData physBaseFree, e.Apart d := by
  have hle := h.le
  have haligned := h.aligned
  obtain ⟨-, hptr, hlimit⟩ := h.pageCopy phys
  have hbelow : (initializeMemory phys physBaseFree).heap.staticAllocPtr ≤ 0x400000 := by
    have hnat : (0x400000 : UInt32).toNat = 4194304 := rfl
    rw [UInt32.le_iff_toNat_le, hptr, hnat]
    omega
  have hstacked := (StaticHeap.reserves 0x400000).stacked hlimit hbelow hfits
  intro e he d hd
  apply Extent.Apart.symm
  apply Extent.apart_of_le
  have hstart := (hstacked.bounds he).1
  rw [hptr] at hstart
  rcases mem_ownData.mp hd with rfl | rfl
  · rw [Extent.stop_mk]
    omega
  · rw [Extent.stop_mk]
    omega

/-! ## The first address space -/

theorem initializeMemory_blocks (phys : Nat → Nat → UInt32) (physBaseFree : UInt32) :
    (initializeMemory phys physBaseFree).space.blocks =
      (BitAllocator.lockBitRange 0 1024
        (BitAllocator.lockBitRange ((physBaseFree + 2 * 4096).toNat / 4096)
          ((physBaseFree + 2 * 4096 + pageBitmapBytes + 4095).toNat / 4096 -
            (physBaseFree + 2 * 4096).toNat / 4096)
          ⟨(BitAllocator.new pageBitmapBits).bitsetBlocks, []⟩)).blocks := by
  rw [initializeMemory]

/-- The bitmap: the first 4 MB are used. -/
theorem BaseOk.marked {physBaseFree : UInt32} (h : BaseOk physBaseFree) (phys : Nat → Nat → UInt32)
    (f : Nat) : Marked (initializeMemory phys physBaseFree).space.blocks f ↔ f < 1024 := by
  have hle := h.le
  have hend := h.toNat_heap
  have hnew : ¬ Marked (BitAllocator.new pageBitmapBits).bitsetBlocks f := by
    simp [Marked, BitAllocator.new]
  rw [initializeMemory_blocks, BitAllocator.marked_lockBitRange, BitAllocator.marked_lockBitRange,
    or_iff_right hnew]
  omega

/-- **The memory that `main` starts with** is in order. -/
theorem booted_eq (phys : Nat → Nat → UInt32) :
    (initializeMemory phys 0x100000).space = booted phys := by
  have hblocks : (initializeMemory phys 0x100000).space.blocks = lowUsed :=
    blocks_ext fun f => (baseOk_main.marked phys f).trans (marked_lowUsed f).symm
  have hdir : frameOf (0x100000 + 4096) = 257 := by decide +kernel
  have hphys : (initializeMemory phys 0x100000).space.phys = (booted phys).phys := by
    have htable : frameOf 0x100000 = 256 := by decide +kernel
    have hindex : getPteIndex (0x100000 + 2 * 4096 + pageBitmapBytes) = 290 := by decide +kernel
    have huser : pageGlobalData ||| pageUser = 0x107 := by decide
    funext f j
    simp only [initializeMemory, hdir, htable, Function.update_apply, booted]
    by_cases h256 : f = 256
    · rw [if_pos h256, if_neg (by omega), if_pos h256, identityMap, hindex, huser]
      split <;> rfl
    · rw [if_neg h256]
      split
      case isTrue h257 =>
        have h0 : 0x100000 ||| 0x107 = entryOf 256 0x107 := by decide +kernel
        have h1 : 0x100000 + 4096 ||| pageKernelData = entryOf 257 3 := by decide +kernel
        rw [firstPageDir, huser, h0, h1]
      case isFalse => rfl
  have hspace : ∀ m m' : AddressSpace, m.phys = m'.phys → m.dir = m'.dir → m.blocks = m'.blocks →
      m.virtAllocPtr = m'.virtAllocPtr → m = m' := by
    rintro ⟨⟩ ⟨⟩ rfl rfl rfl rfl
    rfl
  have hptr : (0x400000 + 4096 * 1024 : UInt32) = 0x800000 := by decide
  exact hspace _ _ hphys hdir hblocks hptr

end Shipwreck.Memory
