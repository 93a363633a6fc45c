import Shipwreck.Memory.Bitset

/-!
# Page tables and the allocations of a user

`system/memory.cpp`. The page directory has an entry for itself, number 1: through it the 4 MB of
addresses from `0x400000` on are the array `page_tables` of all page table entries, entry `i` being
that of the page `i` of the address space, and the directory is the part of this array that belongs
to this very window.

    page_tables[0 .. 1023]       the low 4 MB: the kernel
    page_tables[1024 .. 2047]    the window: page_dir[0 .. 1023]
    page_tables[2048 .. ]        everything else

`alloc` and `alloc_at` map frames to consecutive pages, wherever these are, and `map_to` does not
look at the entry it overwrites. `allocs_keep` says when no entry in use changes; `alloc_at_zero`
is the call that maps the first page of the kernel to something else.

The frames of an address space are those of a memory whose words the processor finds at `phys`; what
a frame holds when it is handed out is arbitrary.
-/

namespace Shipwreck.Memory

/-! ## Entries -/

/-- `PageMapEntry::present`. -/
def Present (val : UInt32) : Prop := val.toNat % 2 = 1

/-- The number of the frame, `PageMapEntry::page`. -/
def frameOf (val : UInt32) : Nat := val.toNat / 4096

/-- The address of a frame with attributes, `(uint) p_addr | attributes`. -/
def entryOf (frame : Nat) (attributes : UInt32) : UInt32 :=
  UInt32.ofNat (frame * 4096) ||| attributes

instance (val : UInt32) : Decidable (Present val) := inferInstanceAs (Decidable (_ = _))

/-- `PAGE_USER_DATA`. -/
def pageUserData : UInt32 := 7

/-- Physical memory, the frame in `cr3`, the page bitmap and the bump pointer. -/
structure AddressSpace where
  phys : Nat → Nat → UInt32
  dir : Nat
  blocks : Nat → Block
  virtAllocPtr : UInt32

namespace AddressSpace

/-- The word at which the processor finds `page_tables[i]`: the directory entry of the window leads
to a frame, whose entry for the page in question leads to the page table. -/
def word (m : AddressSpace) (i : Nat) : Nat × Nat :=
  (frameOf (m.phys (frameOf (m.phys m.dir 1)) (i / 1024)), i % 1024)

/-- `page_tables[i]`. -/
def load (m : AddressSpace) (i : Nat) : UInt32 := m.phys (m.word i).1 (m.word i).2

/-- `page_tables[i].val = val`. -/
def store (m : AddressSpace) (i : Nat) (val : UInt32) : AddressSpace :=
  let (frame, j) := m.word i
  { m with phys := Function.update m.phys frame (Function.update (m.phys frame) j val) }

/-- `(*page_dir)[k]`, an element of `page_tables[PDIR_SELF_INDEX]`. -/
def getPde (m : AddressSpace) (k : Nat) : UInt32 := m.load (1024 + k)

/-- Page `i` has a page table, and a present entry in it. -/
def Mapped (m : AddressSpace) (i : Nat) : Prop :=
  Present (m.getPde (i / 1024)) ∧ Present (m.load i)

instance (m : AddressSpace) (i : Nat) : Decidable (m.Mapped i) :=
  inferInstanceAs (Decidable (_ ∧ _))

/-! ## The allocator -/

/-- `lock_next_block` from block `i`, with `left` blocks to go: the index it returns, `locked_bits`,
and the bitmap. -/
def lockNextBlockFrom : Nat → Nat → (Nat → Block) → Nat × Block × (Nat → Block)
  | 0, _, blocks => (0, full, blocks)
  | left + 1, i, blocks =>
    let lockedBits := blocks i
    let blocks := Function.update blocks i full
    if lockedBits ≠ full then (i, lockedBits, blocks) else lockNextBlockFrom left (i + 1) blocks

/-- `lock_next_page`: the frame, or 0. -/
def lockNextPage (m : AddressSpace) (start : Fin 256) : Nat × AddressSpace :=
  let (lockedIndex, lockedBits, blocks) := lockNextBlockFrom (maxBlocks - start) start m.blocks
  if lockedBits = full then (0, { m with blocks })
  else
    let bitIndex := bitscanForward (~~~lockedBits)
    (lockedIndex * 32 + bitIndex,
      { m with blocks := Function.update blocks lockedIndex (lockedBits ||| bit bitIndex) })

/-- `ensure_pte`. -/
def ensurePte (m : AddressSpace) (vaddr attributes : UInt32) (start : Fin 256) : AddressSpace :=
  let k := (vaddr >>> 22).toNat
  if Present (m.getPde k) then m
  else
    let (frame, m) := m.lockNextPage start
    m.store (1024 + k) (entryOf frame attributes)

/-- `map_to`. -/
def mapTo (m : AddressSpace) (vaddr : UInt32) (frame : Nat) (attributes : UInt32)
    (start : Fin 256) : AddressSpace :=
  let m := m.ensurePte vaddr attributes start
  m.store (vaddr >>> 12).toNat (entryOf frame attributes)

/-- The variables of `virt_alloc_pages`, and how often `prand` has been called. -/
structure Scan where
  mem : AddressSpace
  virtAddr : UInt32
  pagesLeft : UInt32
  draws : Nat

/-- A free frame has been found. -/
def Scan.mapPage (rand : Nat → Fin 256) (attributes : UInt32) (s : Scan) (frame : Nat) : Scan where
  mem := s.mem.mapTo s.virtAddr frame attributes (rand s.draws)
  virtAddr := s.virtAddr + 4096
  pagesLeft := s.pagesLeft - 1
  draws := s.draws + 1

def Scan.setBlock (s : Scan) (i : Nat) (bits : Block) : Scan :=
  { s with mem := { s.mem with blocks := Function.update s.mem.blocks i bits } }

/-- The inner loop of `virt_alloc_pages` over block `blockIndex`, with `left` bits to go, and whether
all pages have been mapped. -/
def scanFrom (rand : Nat → Fin 256) (attributes : UInt32) (blockIndex : Nat) :
    Nat → Block → Block → Nat → Scan → Scan × Bool
  | 0, _, _, _, s => (s, false)
  | left + 1, lockedBits, testbit, frame, s =>
    if lockedBits = full then (s, false)
    else if lockedBits &&& testbit = 0 then
      let s := s.mapPage rand attributes frame
      let lockedBits := lockedBits ||| testbit
      if s.pagesLeft = 0 then (s.setBlock blockIndex lockedBits, true)
      else scanFrom rand attributes blockIndex left lockedBits (testbit <<< 1) (frame + 1) s
    else scanFrom rand attributes blockIndex left lockedBits (testbit <<< 1) (frame + 1) s

/-- The outer loop of `virt_alloc_pages` from block `i`, with `left` blocks to go. A block that has
been used up is full, so that `lock_next_block` goes on with the next one; and it returns 0 both for
a failure and for block 0, which ends the loop. -/
def searchFrom (rand : Nat → Fin 256) (attributes : UInt32) : Nat → Nat → Scan → Scan × Bool
  | 0, _, s => (s, false)
  | left + 1, i, s =>
    let lockedBits := s.mem.blocks i
    let s := s.setBlock i full
    if lockedBits = full then searchFrom rand attributes left (i + 1) s
    else if i = 0 then (s, false)
    else
      let (s, done) := scanFrom rand attributes i 32 lockedBits (bit 0) (i * 32) s
      if done then (s, true) else searchFrom rand attributes left (i + 1) s

/-- `virt_alloc_pages(pages, address, attributes)`: the address, or null. -/
def virtAllocPages (m : AddressSpace) (pages address attributes : UInt32) (rand : Nat → Fin 256) :
    AddressSpace × UInt32 :=
  let start := rand 0
  let (s, done) := searchFrom rand attributes (maxBlocks - start) start ⟨m, address, pages, 1⟩
  (s.mem, if done then address else 0)

/-- `next_virtual_pages`, by `atomic_add_limit(virt_alloc_ptr, pages * 4096, -1)`. -/
def nextVirtualPages (m : AddressSpace) (pages : UInt32) : AddressSpace × UInt32 :=
  let diff := pages * 4096
  let limit : UInt32 := 0xFFFFFFFF
  if diff > limit - m.virtAllocPtr then (m, 0)
  else
    let newval := m.virtAllocPtr
    ({ m with virtAllocPtr := m.virtAllocPtr + diff }, if newval = limit then 0 else newval)

/-- `syscall_alloc`. -/
def syscallAlloc (m : AddressSpace) (pages : UInt32) (rand : Nat → Fin 256) :
    AddressSpace × UInt32 :=
  let next := m.nextVirtualPages pages
  next.1.virtAllocPages pages next.2 pageUserData rand

/-- `syscall_alloc_at`. -/
def syscallAllocAt (m : AddressSpace) (pages vaddr : UInt32) (rand : Nat → Fin 256) :
    AddressSpace × UInt32 :=
  m.virtAllocPages pages vaddr pageUserData rand

/-! ## The invariant -/

/-- The entry of the window leads to the directory. -/
def SelfMapped (m : AddressSpace) : Prop :=
  Present (m.phys m.dir 1) ∧ frameOf (m.phys m.dir 1) = m.dir

/-- The directory maps itself, and its frame and those of the page tables are marked in the bitmap;
no page table lies in the frame of the directory, and frame 0 is not free. -/
structure InOrder (m : AddressSpace) (bitmap : Nat → Block) : Prop where
  self : Present (m.phys m.dir 1) ∧ frameOf (m.phys m.dir 1) = m.dir
  dir_marked : Marked bitmap m.dir
  dir_pos : m.dir ≠ 0
  zero_marked : Marked bitmap 0
  table_marked : ∀ k, k < 1024 → Present (m.phys m.dir k) →
    Marked bitmap (frameOf (m.phys m.dir k))
  table_ne : ∀ k, k < 1024 → k ≠ 1 → Present (m.phys m.dir k) → frameOf (m.phys m.dir k) ≠ m.dir

variable {m m₀ : AddressSpace} {bitmap bitmap₀ : Nat → Block}

theorem SelfMapped.word_eq (h : m.SelfMapped) (i : Nat) :
    m.word i = (frameOf (m.phys m.dir (i / 1024)), i % 1024) := by
  rw [word, h.2]

theorem SelfMapped.getPde_eq (h : m.SelfMapped) {k : Nat} (hk : k < 1024) :
    m.getPde k = m.phys m.dir k := by
  have hdiv : (1024 + k) / 1024 = 1 := by omega
  have hmod : (1024 + k) % 1024 = k := by omega
  rw [getPde, load, h.word_eq, hdiv, hmod, h.2]

namespace InOrder

theorem selfMapped (h : m.InOrder bitmap) : m.SelfMapped := h.self

/-- Through the window, an entry is found where the directory says. -/
theorem word_eq (h : m.InOrder bitmap) (i : Nat) :
    m.word i = (frameOf (m.phys m.dir (i / 1024)), i % 1024) := h.selfMapped.word_eq i

theorem getPde_eq (h : m.InOrder bitmap) {k : Nat} (hk : k < 1024) :
    m.getPde k = m.phys m.dir k := h.selfMapped.getPde_eq hk

/-- Marking more frames does no harm. -/
theorem mono (h : m.InOrder bitmap) {bitmap' : Nat → Block}
    (hle : ∀ f, Marked bitmap f → Marked bitmap' f) : m.InOrder bitmap' where
  self := h.self
  dir_marked := hle _ h.dir_marked
  dir_pos := h.dir_pos
  zero_marked := hle _ h.zero_marked
  table_marked k hk hp := hle _ (h.table_marked k hk hp)
  table_ne := h.table_ne

end InOrder

/-- No page table lies in frame 0, where `phys_alloc_page` puts one when it finds no frame. -/
def NoLowTable (m : AddressSpace) : Prop :=
  ∀ k, k < 1024 → Present (m.getPde k) → frameOf (m.getPde k) ≠ 0

/-- The `n` pages from that of `vaddr` on, around the end of the address space, are not mapped. -/
def FreeFrom (m : AddressSpace) (vaddr : UInt32) (n : Nat) : Prop :=
  ∀ q, q < n → ¬ m.Mapped ((vaddr.toNat / 4096 + q) % 1048576)

/-- What has become of `m₀` in the middle of a call: the entries that were present are as they were,
and the page tables that were not there lie in frames that were free, or in frame 0. -/
structure Since (m₀ : AddressSpace) (bitmap₀ : Nat → Block) (m : AddressSpace)
    (bitmap : Nat → Block) : Prop where
  inOrder : m.InOrder bitmap
  dir : m.dir = m₀.dir
  grow : ∀ f, Marked bitmap₀ f → Marked bitmap f
  pde : ∀ k, k < 1024 → Present (m₀.phys m₀.dir k) → m.phys m₀.dir k = m₀.phys m₀.dir k
  pte : ∀ k j, k < 1024 → j < 1024 → Present (m₀.phys m₀.dir k) →
    Present (m₀.phys (frameOf (m₀.phys m₀.dir k)) j) →
    m.phys (frameOf (m₀.phys m₀.dir k)) j = m₀.phys (frameOf (m₀.phys m₀.dir k)) j
  fresh : ∀ k, k < 1024 → ¬ Present (m₀.phys m₀.dir k) → Present (m.phys m₀.dir k) →
    frameOf (m.phys m₀.dir k) = 0 ∨ ¬ Marked bitmap₀ (frameOf (m.phys m₀.dir k))

/-- One word of `m` has been changed. -/
structure Wrote (m m' : AddressSpace) (frame j : Nat) (val : UInt32) : Prop where
  dir : m'.dir = m.dir
  self : m'.phys frame j = val
  other : ∀ f i, ¬ (f = frame ∧ i = j) → m'.phys f i = m.phys f i

theorem wrote_store (i : Nat) (val : UInt32) :
    m.Wrote (m.store i val) (m.word i).1 (m.word i).2 val where
  dir := rfl
  self := by
    simp only [store, Function.update_self]
  other f j hne := by
    simp only [store]
    by_cases hf : f = (m.word i).1
    · subst hf
      have hj : j ≠ (m.word i).2 := fun hj => hne ⟨rfl, hj⟩
      rw [Function.update_self, Function.update_of_ne hj]
    · rw [Function.update_of_ne hf]

namespace Since

variable {m' : AddressSpace} {bitmap' : Nat → Block} {val : UInt32} {k j : Nat}

theorem refl (h : m.InOrder bitmap) : Since m bitmap m bitmap where
  inOrder := h
  dir := rfl
  grow _ hf := hf
  pde _ _ _ := rfl
  pte _ _ _ _ _ _ := rfl
  fresh _ _ hno hyes := absurd hyes hno

/-- Only the bitmap changes. -/
theorem mark (h : Since m₀ bitmap₀ m bitmap) (hphys : m'.phys = m.phys) (hdir : m'.dir = m.dir)
    (hle : ∀ f, Marked bitmap f → Marked bitmap' f) : Since m₀ bitmap₀ m' bitmap' := by
  have hin := h.inOrder.mono hle
  exact
    { inOrder := ⟨by rw [hphys, hdir]; exact hin.self, by rw [hdir]; exact hin.dir_marked,
        by rw [hdir]; exact hin.dir_pos, hin.zero_marked, by rw [hphys, hdir]; exact hin.table_marked,
        by rw [hphys, hdir]; exact hin.table_ne⟩
      dir := hdir.trans h.dir
      grow := fun f hf => hle f (h.grow f hf)
      pde := by rw [hphys]; exact h.pde
      pte := by rw [hphys]; exact h.pte
      fresh := by rw [hphys]; exact h.fresh }

/-- An entry of the directory is written that was not present before the call. -/
theorem writePde (h : Since m₀ bitmap₀ m bitmap) (h₀ : m₀.InOrder bitmap₀) (hk : k < 1024)
    (habsent : ¬ Present (m₀.phys m₀.dir k)) (hwrote : m.Wrote m' m.dir k val)
    (hle : ∀ f, Marked bitmap f → Marked bitmap' f) (hmarked : Marked bitmap' (frameOf val))
    (hfresh : frameOf val = 0 ∨ ¬ Marked bitmap (frameOf val)) : Since m₀ bitmap₀ m' bitmap' := by
  have hdir := h.dir
  have hin := h.inOrder
  have hk1 : k ≠ 1 := by
    rintro rfl
    exact habsent h₀.self.1
  have hself : m'.phys m.dir k = val := hwrote.self
  have hother : ∀ f i, ¬ (f = m.dir ∧ i = k) → m'.phys f i = m.phys f i := hwrote.other
  have hne : frameOf val ≠ m.dir := by
    rcases hfresh with hzero | hfree
    · rw [hzero]
      exact hin.dir_pos.symm
    · intro heq
      rw [heq] at hfree
      exact hfree hin.dir_marked
  have hrow : ∀ i, i ≠ k → m'.phys m.dir i = m.phys m.dir i :=
    fun i hi => hother m.dir i fun hboth => hi hboth.2
  exact
    { inOrder :=
        { self := by
            rw [hwrote.dir, hrow 1 hk1.symm]
            exact hin.self
          dir_marked := by
            rw [hwrote.dir]
            exact hle _ hin.dir_marked
          dir_pos := by
            rw [hwrote.dir]
            exact hin.dir_pos
          zero_marked := hle _ hin.zero_marked
          table_marked := by
            intro i hi hp
            rw [hwrote.dir] at hp ⊢
            by_cases hik : i = k
            · rw [hik, hself]
              exact hmarked
            · rw [hrow i hik] at hp ⊢
              exact hle _ (hin.table_marked i hi hp)
          table_ne := by
            intro i hi hi1 hp
            rw [hwrote.dir] at hp ⊢
            by_cases hik : i = k
            · rw [hik, hself]
              exact hne
            · rw [hrow i hik] at hp ⊢
              exact hin.table_ne i hi hi1 hp }
      dir := hwrote.dir.trans hdir
      grow := fun f hf => hle f (h.grow f hf)
      pde := by
        intro i hi hp
        have hik : i ≠ k := by
          rintro rfl
          exact habsent hp
        rw [← hdir, hrow i hik, hdir]
        exact h.pde i hi hp
      pte := by
        intro i j hi hj hp hpj
        rw [hother, h.pte i j hi hj hp hpj]
        -- the directory is the page table of the window, and its entry `k` was not present
        rintro ⟨hframe, rfl⟩
        rw [hframe, hdir] at hpj
        exact habsent hpj
      fresh := by
        intro i hi hno hyes
        rw [← hdir] at hyes ⊢
        by_cases hik : i = k
        · rw [hik, hself]
          exact hfresh.imp_right fun hfree hm => hfree (h.grow _ hm)
        · rw [hrow i hik] at hyes ⊢
          rw [hdir] at hyes ⊢
          exact h.fresh i hi hno hyes }

/-- An entry of another page table is written that was not present before the call. -/
theorem writePte (h : Since m₀ bitmap₀ m bitmap) (h₀ : m₀.InOrder bitmap₀)
    (hlow : ∀ k, k < 1024 → Present (m₀.phys m₀.dir k) → frameOf (m₀.phys m₀.dir k) ≠ 0)
    (hk : k < 1024) (hk1 : k ≠ 1) (hp : Present (m.phys m.dir k))
    (hfree : ¬ (Present (m₀.phys m₀.dir k) ∧ Present (m₀.phys (frameOf (m₀.phys m₀.dir k)) j)))
    (hwrote : m.Wrote m' (frameOf (m.phys m.dir k)) j val) : Since m₀ bitmap₀ m' bitmap := by
  have hdir := h.dir
  have hin := h.inOrder
  have hne := hin.table_ne k hk hk1 hp
  -- the directory is not touched
  have hrow : m'.phys m.dir = m.phys m.dir := by
    funext i
    exact hwrote.other m.dir i fun hboth => hne hboth.1.symm
  exact
    { inOrder := ⟨by rw [hwrote.dir, hrow]; exact hin.self, by rw [hwrote.dir]; exact hin.dir_marked,
        by rw [hwrote.dir]; exact hin.dir_pos, hin.zero_marked,
        by rw [hwrote.dir, hrow]; exact hin.table_marked,
        by rw [hwrote.dir, hrow]; exact hin.table_ne⟩
      dir := hwrote.dir.trans hdir
      grow := h.grow
      pde := by
        rw [← hdir, hrow, hdir]
        exact h.pde
      pte := by
        intro i l hi hl hpi hpl
        rw [hwrote.other, h.pte i l hi hl hpi hpl]
        rintro ⟨hframe, rfl⟩
        rw [hdir] at hframe
        by_cases hold : Present (m₀.phys m₀.dir k)
        · -- the word is that of the page itself, which was not mapped
          rw [h.pde k hk hold] at hframe
          exact hfree ⟨hold, hframe ▸ hpl⟩
        · -- the page table is new, and its frame was free or is frame 0
          rw [hdir] at hp
          rcases h.fresh k hk hold hp with hzero | hnot
          · exact hlow i hi hpi (hframe.trans hzero)
          · exact hnot (hframe ▸ h₀.table_marked i hi hpi)
      fresh := by
        rw [← hdir, hrow, hdir]
        exact h.fresh }

end Since

/-! ## Frames -/

/-- The bitmap with one more frame marked. -/
def markFrame (bitmap : Nat → Block) (f : Nat) : Nat → Block :=
  Function.update bitmap (f / 32) (bitmap (f / 32) ||| bit (f % 32))

theorem marked_markFrame {f g : Nat} : Marked (markFrame bitmap f) g ↔ Marked bitmap g ∨ g = f := by
  unfold Marked markFrame
  by_cases hblock : g / 32 = f / 32
  · rw [hblock, Function.update_self, getLsbD_or_bit, Bool.or_eq_true, decide_eq_true_iff]
    have hpos : (f % 32 = g % 32 ∧ g % 32 < 32) ↔ g = f := by omega
    rw [hpos]
  · rw [Function.update_of_ne hblock]
    constructor
    · exact .inl
    · rintro (hg | rfl)
      · exact hg
      · exact absurd rfl hblock

section

variable {frame : Nat} {attributes : UInt32} (hframe : frame < 1048576) (hattr : attributes.toNat < 4096)

include hframe hattr

/-- Attributes are in the low 12 bits, which the address of a frame leaves free. -/
theorem toNat_entryOf : (entryOf frame attributes).toNat = frame * 4096 + attributes.toNat := by
  have hfit : frame * 4096 % 4294967296 = 2 ^ 12 * frame := by omega
  have hor := Nat.two_pow_add_eq_or_of_lt (show attributes.toNat < 2 ^ 12 from hattr) frame
  rw [entryOf, UInt32.toNat_or, UInt32.toNat_ofNat', hfit, ← hor, Nat.mul_comm]

theorem frameOf_entryOf : frameOf (entryOf frame attributes) = frame := by
  rw [frameOf, toNat_entryOf hframe hattr]
  omega

theorem present_entryOf : Present (entryOf frame attributes) ↔ Present attributes := by
  rw [Present, Present, toNat_entryOf hframe hattr]
  omega

end

theorem pageUserData_lt : pageUserData.toNat < 4096 := by decide

theorem present_pageUserData : Present pageUserData := by decide

/-- `f` is the first free frame from block `start` on, or 0 where there is none. -/
def IsNextFree (blocks : Nat → Block) (start f : Nat) : Prop :=
  (f = 0 ∧ ∀ g, start * 32 ≤ g → g < 1048576 → Marked blocks g) ∨
    (start * 32 ≤ f ∧ f < 1048576 ∧ ¬ Marked blocks f ∧
      ∀ g, start * 32 ≤ g → g < f → Marked blocks g)

theorem lockNextBlockFrom_spec (left i : Nat) (blocks : Nat → Block) :
    ((∀ b, i ≤ b → b < i + left → blocks b = full) ∧
        lockNextBlockFrom left i blocks = (0, full, blocks)) ∨
      ∃ b, i ≤ b ∧ b < i + left ∧ blocks b ≠ full ∧ (∀ c, i ≤ c → c < b → blocks c = full) ∧
        lockNextBlockFrom left i blocks = (b, blocks b, Function.update blocks b full) := by
  induction left generalizing i blocks with
  | zero => exact .inl ⟨fun b hlo hhi => absurd hhi (by omega), rfl⟩
  | succ left ih =>
    rw [lockNextBlockFrom]
    by_cases hfull : blocks i = full
    · have hsame : Function.update blocks i full = blocks := by
        rw [← hfull, Function.update_eq_self]
      have hfirst : ∀ c, i ≤ c → c < i + 1 → blocks c = full := by
        intro c hlo hhi
        rw [show c = i by omega]
        exact hfull
      simp only [hfull, ne_eq, not_true_eq_false, if_false, hsame]
      rcases ih (i + 1) blocks with ⟨hall, hnone⟩ | ⟨b, hlo, hhi, hfree, hbefore, heq⟩
      · refine .inl ⟨?_, hnone⟩
        intro b hb hb'
        by_cases hbi : b < i + 1
        · exact hfirst b hb hbi
        · exact hall b (by omega) (by omega)
      · refine .inr ⟨b, by omega, by omega, hfree, ?_, heq⟩
        intro c hc hcb
        by_cases hci : c < i + 1
        · exact hfirst c hc hci
        · exact hbefore c (by omega) hcb
    · simp only [ne_eq, hfull, not_false_eq_true, if_true]
      exact .inr ⟨i, Nat.le_refl i, by omega, hfull, fun c hlo hhi => absurd hhi (by omega), rfl⟩

/-- `lock_next_page` finds no frame, or marks the first that is free. -/
theorem lockNextPage_spec (m : AddressSpace) (start : Fin 256) :
    (IsNextFree m.blocks start 0 ∧ m.lockNextPage start = (0, m)) ∨
      ∃ f, IsNextFree m.blocks start f ∧ f < 1048576 ∧ ¬ Marked m.blocks f ∧
        m.lockNextPage start = (f, { m with blocks := markFrame m.blocks f }) := by
  have hstart := start.isLt
  have hmax : maxBlocks = 32768 := rfl
  unfold lockNextPage
  rcases lockNextBlockFrom_spec (maxBlocks - start) start m.blocks with
    ⟨hall, hnone⟩ | ⟨b, hlo, hhi, hfree, hbefore, heq⟩
  · rw [hnone]
    refine .inl ⟨.inl ⟨rfl, ?_⟩, if_pos rfl⟩
    intro g hg hg'
    exact marked_of_full (hall (g / 32) (by omega) (by omega))
  · rw [heq]
    simp only [hfree, if_false]
    obtain ⟨hclear, hlt⟩ := bitscanForward_not hfree
    have hdiv : (b * 32 + bitscanForward (~~~m.blocks b)) / 32 = b := by omega
    have hmod : (b * 32 + bitscanForward (~~~m.blocks b)) % 32 = bitscanForward (~~~m.blocks b) := by
      omega
    have hunmarked : ¬ Marked m.blocks (b * 32 + bitscanForward (~~~m.blocks b)) := by
      rw [Marked, hdiv, hmod, hclear]
      exact Bool.false_ne_true
    refine .inr ⟨b * 32 + bitscanForward (~~~m.blocks b), .inr ⟨by omega, by omega, hunmarked, ?_⟩,
      by omega, hunmarked, ?_⟩
    · intro g hg hlt'
      by_cases hgb : g / 32 < b
      · exact marked_of_full (hbefore (g / 32) (by omega) hgb)
      · have hblock : g / 32 = b := by omega
        rw [Marked, hblock]
        exact getLsbD_of_lt_bitscanForward (by omega) (Nat.mod_lt g (by decide))
    · rw [markFrame, hdiv, hmod, Function.update_idem]

/-! ## One page -/

theorem toNat_shiftRight_twelve (vaddr : UInt32) : (vaddr >>> 12).toNat = vaddr.toNat / 4096 := by
  rw [UInt32.toNat_shiftRight, Nat.shiftRight_eq_div_pow]
  rfl

theorem toNat_shiftRight_twentyTwo (vaddr : UInt32) :
    (vaddr >>> 22).toNat = vaddr.toNat / 4096 / 1024 := by
  rw [UInt32.toNat_shiftRight, Nat.shiftRight_eq_div_pow, Nat.div_div_eq_div_mul]
  rfl

/-- Before the call a page is mapped when the directory and its page table say so. -/
theorem InOrder.mapped_iff (h : m.InOrder bitmap) {i : Nat} (hi : i < 1048576) :
    m.Mapped i ↔ Present (m.phys m.dir (i / 1024)) ∧
      Present (m.phys (frameOf (m.phys m.dir (i / 1024))) (i % 1024)) := by
  rw [Mapped, h.getPde_eq (by omega), load, h.word_eq]

namespace Since

variable {truth : Nat → Block} {b frame : Nat} {vaddr : UInt32}

/-- The page table of a page is there; a frame that was free is entered for the page. -/
theorem enter (h : Since m₀ bitmap₀ m bitmap) (h₀ : m₀.InOrder bitmap₀) (hlow : m₀.NoLowTable)
    {i : Nat} (hi : i < 1048576) (hfree : ¬ m₀.Mapped i) (hframe : frame < 1048576)
    (hnew : ¬ Marked bitmap frame) (hp : Present (m.phys m.dir (i / 1024))) :
    Since m₀ bitmap₀ (m.store i (entryOf frame pageUserData)) (markFrame bitmap frame) := by
  have hle : ∀ f, Marked bitmap f → Marked (markFrame bitmap frame) f :=
    fun f hf => marked_markFrame.mpr (.inl hf)
  have hwrote := m.wrote_store i (entryOf frame pageUserData)
  rw [h.inOrder.word_eq] at hwrote
  rw [h₀.mapped_iff hi] at hfree
  by_cases hk : i / 1024 = 1
  · -- a page of the window: its entry is one of the directory
    rw [hk, h.inOrder.self.2] at hwrote
    rw [hk, h₀.self.2] at hfree
    have habsent : ¬ Present (m₀.phys m₀.dir (i % 1024)) := fun hpj => hfree ⟨h₀.self.1, hpj⟩
    refine h.writePde h₀ (by omega) habsent hwrote hle ?_ ?_
    · rw [frameOf_entryOf hframe pageUserData_lt]
      exact marked_markFrame.mpr (.inr rfl)
    · rw [frameOf_entryOf hframe pageUserData_lt]
      exact .inr hnew
  · have hlow' : ∀ k, k < 1024 → Present (m₀.phys m₀.dir k) → frameOf (m₀.phys m₀.dir k) ≠ 0 := by
      intro k hk'
      rw [← h₀.getPde_eq hk']
      exact hlow k hk'
    have hpte := h.writePte h₀ hlow' (by omega) hk hp hfree hwrote
    exact hpte.mark rfl rfl hle

/-- While block `b` is locked, `phys_alloc_page` finds no frame, or one in another block. -/
theorem lockNextPage_beside (hblocks : m.blocks = Function.update truth b full)
    (hzero : Marked truth 0) (start : Fin 256) :
    ∃ table truth₁,
      m.lockNextPage start = (table, { m with blocks := Function.update truth₁ b full }) ∧
        table < 1048576 ∧ (table = 0 ∨ ¬ Marked truth table) ∧ Marked truth₁ table ∧
        (∀ f, Marked truth f → Marked truth₁ f) ∧
        (∀ f, f / 32 = b → Marked truth₁ f → Marked truth f) ∧ truth₁ b = truth b := by
  rcases m.lockNextPage_spec start with ⟨-, hnone⟩ | ⟨f, -, hf, hunmarked, hsome⟩
  · refine ⟨0, truth, ?_, by decide, .inl rfl, hzero, fun _ hf => hf, fun _ _ hf => hf, rfl⟩
    rw [hnone, ← hblocks]
  · -- the locked block looks full
    have hfb : f / 32 ≠ b := by
      intro hfb
      apply hunmarked
      rw [hblocks, Marked, hfb, Function.update_self, full, BitVec.getLsbD_allOnes]
      exact decide_eq_true (Nat.mod_lt f (by decide))
    have hsame : Marked m.blocks f ↔ Marked truth f := by
      rw [hblocks, Marked, Marked, Function.update_of_ne hfb]
    refine ⟨f, markFrame truth f, ?_, hf, .inr (hsame.not.mp hunmarked),
      marked_markFrame.mpr (.inr rfl), fun _ hg => marked_markFrame.mpr (.inl hg), ?_, ?_⟩
    · rw [hsome, hblocks, markFrame, markFrame, Function.update_of_ne hfb,
        Function.update_comm hfb]
    · intro g hg hmarked
      rcases marked_markFrame.mp hmarked with hold | rfl
      · exact hold
      · exact absurd hg hfb
    · rw [markFrame, Function.update_of_ne (Ne.symm hfb)]

/-- `ensure_pte`: afterwards the page table is there. -/
theorem ensurePte (h : Since m₀ bitmap₀ m truth) (h₀ : m₀.InOrder bitmap₀)
    (hblocks : m.blocks = Function.update truth b full) (vaddr : UInt32) (start : Fin 256) :
    ∃ truth₁, Since m₀ bitmap₀ (m.ensurePte vaddr pageUserData start) truth₁ ∧
      (m.ensurePte vaddr pageUserData start).blocks = Function.update truth₁ b full ∧
      (∀ f, f / 32 = b → Marked truth₁ f → Marked truth f) ∧ truth₁ b = truth b ∧
      Present ((m.ensurePte vaddr pageUserData start).phys
        (m.ensurePte vaddr pageUserData start).dir (vaddr.toNat / 4096 / 1024)) := by
  have hlt := vaddr.toNat_lt
  obtain ⟨k, hk⟩ : ∃ k, k = vaddr.toNat / 4096 / 1024 := ⟨_, rfl⟩
  have hk' : k < 1024 := by omega
  unfold AddressSpace.ensurePte
  simp only [toNat_shiftRight_twentyTwo, ← hk, h.inOrder.getPde_eq hk']
  by_cases hp : Present (m.phys m.dir k)
  · simp only [hp, if_true]
    exact ⟨truth, h, hblocks, fun _ _ hf => hf, rfl, trivial⟩
  · have habsent : ¬ Present (m₀.phys m₀.dir k) := by
      intro hp₀
      rw [h.dir, h.pde k hk' hp₀] at hp
      exact hp hp₀
    obtain ⟨table, truth₁, hlock, hlt', hfresh, hmarked, hle, hold, hsame⟩ :=
      lockNextPage_beside hblocks h.inOrder.zero_marked start
    simp only [hp, if_false, hlock]
    have hword : AddressSpace.word { m with blocks := Function.update truth₁ b full } (1024 + k) =
        (m.dir, k) := by
      have hw := h.inOrder.word_eq (1024 + k)
      rw [show (1024 + k) / 1024 = 1 by omega, show (1024 + k) % 1024 = k by omega,
        h.inOrder.self.2] at hw
      exact hw
    have hstore := wrote_store (m := { m with blocks := Function.update truth₁ b full }) (1024 + k)
      (entryOf table pageUserData)
    rw [hword] at hstore
    have hwrote : m.Wrote _ m.dir k (entryOf table pageUserData) :=
      ⟨hstore.dir, hstore.self, hstore.other⟩
    refine ⟨truth₁, h.writePde h₀ hk' habsent hwrote hle ?_ ?_, rfl, hold, hsame, ?_⟩
    · rw [frameOf_entryOf hlt' pageUserData_lt]
      exact hmarked
    · rw [frameOf_entryOf hlt' pageUserData_lt]
      exact hfresh
    · rw [hwrote.dir, hwrote.self]
      exact (present_entryOf hlt' pageUserData_lt).mpr present_pageUserData

/-- **`map_to` keeps what was present**: the page was not mapped before the call, and the frame is
a free one of the block that is locked. -/
theorem mapTo (h : Since m₀ bitmap₀ m truth) (h₀ : m₀.InOrder bitmap₀) (hlow : m₀.NoLowTable)
    (hfree : ¬ m₀.Mapped (vaddr.toNat / 4096)) (hblocks : m.blocks = Function.update truth b full)
    (hframe : frame < 1048576) (hnew : ¬ Marked truth frame) (hb : frame / 32 = b)
    (start : Fin 256) :
    ∃ truth', Since m₀ bitmap₀ (m.mapTo vaddr frame pageUserData start) truth' ∧
      (m.mapTo vaddr frame pageUserData start).blocks = Function.update truth' b full ∧
      truth' b = truth b ||| bit (frame % 32) := by
  have hlt := vaddr.toNat_lt
  obtain ⟨truth₁, hstep, hblocks₁, hold, hsame, hp⟩ := h.ensurePte h₀ hblocks vaddr start
  have hnew₁ : ¬ Marked truth₁ frame := fun hmarked => hnew (hold frame hb hmarked)
  refine ⟨markFrame truth₁ frame, ?_, ?_, ?_⟩
  · rw [AddressSpace.mapTo]
    simp only [toNat_shiftRight_twelve]
    exact hstep.enter h₀ hlow (by omega) hfree hframe hnew₁ hp
  · rw [markFrame, hb, Function.update_idem]
    exact hblocks₁
  · rw [markFrame, hb, Function.update_self, hsame]

/-! ## The loops -/

variable {rand : Nat → Fin 256} {s : Scan}

/-- One turn of the inner loop: a free frame is mapped. -/
theorem mapPage (rand : Nat → Fin 256) (h : Since m₀ bitmap₀ s.mem truth) (h₀ : m₀.InOrder bitmap₀)
    (hlow : m₀.NoLowTable)
    (hblocks : s.mem.blocks = Function.update truth b full) (hb : b < maxBlocks) {n : Nat}
    (hn : n < 32) (hclear : (truth b).getLsbD n = false) (hpages : s.pagesLeft ≠ 0)
    (hfree : m₀.FreeFrom s.virtAddr s.pagesLeft.toNat) :
    ∃ truth', Since m₀ bitmap₀ (s.mapPage rand pageUserData (b * 32 + n)).mem truth' ∧
      (s.mapPage rand pageUserData (b * 32 + n)).mem.blocks = Function.update truth' b full ∧
      truth' b = truth b ||| bit n ∧
      m₀.FreeFrom (s.mapPage rand pageUserData (b * 32 + n)).virtAddr
        (s.mapPage rand pageUserData (b * 32 + n)).pagesLeft.toNat := by
  have hmax : maxBlocks = 32768 := rfl
  have hdiv : (b * 32 + n) / 32 = b := by omega
  have hmod : (b * 32 + n) % 32 = n := by omega
  have hnew : ¬ Marked truth (b * 32 + n) := by
    rw [Marked, hdiv, hmod, hclear]
    exact Bool.false_ne_true
  have hpos : 0 < s.pagesLeft.toNat := by
    rw [Nat.pos_iff_ne_zero]
    exact fun hzero => hpages (UInt32.toNat.inj hzero)
  have haddr := s.virtAddr.toNat_lt
  have hfirst := hfree 0 hpos
  rw [Nat.add_zero, Nat.mod_eq_of_lt (by omega)] at hfirst
  obtain ⟨truth', hsince, hblocks', hbits⟩ :=
    h.mapTo h₀ hlow hfirst hblocks (by omega) hnew hdiv (rand s.draws)
  rw [hmod] at hbits
  refine ⟨truth', hsince, hblocks', hbits, ?_⟩
  -- the pages that are left begin one page further on
  intro q hq
  have hleft : (s.pagesLeft - 1).toNat = s.pagesLeft.toNat - 1 := by
    rw [UInt32.toNat_sub, UInt32.toNat_one]
    have := s.pagesLeft.toNat_lt
    omega
  have hnext := hfree (q + 1) (by rw [Scan.mapPage, hleft] at hq; omega)
  have hpage : ((s.virtAddr + 4096).toNat / 4096 + q) % 1048576 =
      (s.virtAddr.toNat / 4096 + (q + 1)) % 1048576 := by
    have h4096 : (4096 : UInt32).toNat = 4096 := rfl
    rw [UInt32.toNat_add, h4096]
    omega
  rw [Scan.mapPage, hpage]
  exact hnext

/-- The inner loop: a block is used up, or all pages are mapped. -/
theorem scanFrom (h : Since m₀ bitmap₀ s.mem truth) (h₀ : m₀.InOrder bitmap₀)
    (hlow : m₀.NoLowTable) (hblocks : s.mem.blocks = Function.update truth b full)
    (hb : b < maxBlocks) {left n : Nat} (hn : n + left = 32)
    (hbelow : ∀ k, k < n → (truth b).getLsbD k = true) (hpages : s.pagesLeft ≠ 0)
    (hfree : m₀.FreeFrom s.virtAddr s.pagesLeft.toNat) {r : Scan × Bool}
    (hr : AddressSpace.scanFrom rand pageUserData b left (truth b) (bit n) (b * 32 + n) s = r) :
    Since m₀ bitmap₀ r.1.mem r.1.mem.blocks ∧
      (r.2 = false → r.1.pagesLeft ≠ 0 ∧ m₀.FreeFrom r.1.virtAddr r.1.pagesLeft.toNat) := by
  -- a full block is shown as it is
  have hexit : truth b = full → Since m₀ bitmap₀ s.mem s.mem.blocks := by
    intro hfull
    have hshown : s.mem.blocks = truth := by
      rw [hblocks, ← hfull, Function.update_eq_self]
    rw [hshown]
    exact h
  induction left generalizing n truth s with
  | zero =>
    subst hr
    refine ⟨hexit (eq_full ?_), fun _ => ⟨hpages, hfree⟩⟩
    intro k hk
    exact hbelow k (by omega)
  | succ left ih =>
    rw [AddressSpace.scanFrom] at hr
    by_cases hfull : truth b = full
    · rw [if_pos hfull] at hr
      subst hr
      exact ⟨hexit hfull, fun _ => ⟨hpages, hfree⟩⟩
    · rw [if_neg hfull, bit_succ] at hr
      by_cases hbit : truth b &&& bit n = 0
      · have hclear : (truth b).getLsbD n = false := by
          rw [and_bit_eq_zero_iff] at hbit
          simpa [show n < 32 by omega] using hbit
        obtain ⟨truth', hsince, hblocks', hbits, hfree'⟩ :=
          mapPage rand h h₀ hlow hblocks hb (by omega) hclear hpages hfree
        rw [if_pos hbit, ← hbits] at hr
        simp only at hr
        by_cases hdone : (s.mapPage rand pageUserData (b * 32 + n)).pagesLeft = 0
        · rw [if_pos hdone] at hr
          subst hr
          refine ⟨?_, fun hf => nomatch hf⟩
          have hshown : ((s.mapPage rand pageUserData (b * 32 + n)).setBlock b (truth' b)).mem.blocks =
              truth' := by
            rw [Scan.setBlock]
            simp only [hblocks', Function.update_idem, Function.update_eq_self]
          rw [hshown]
          exact hsince.mark rfl rfl fun _ hf => hf
        · rw [if_neg hdone] at hr
          refine ih hsince hblocks' (by omega) ?_ hdone hfree' hr ?_
          · intro k hk
            rw [hbits, getLsbD_or_bit]
            by_cases hkn : k = n
            · simp [hkn, show n < 32 by omega]
            · rw [hbelow k (by omega)]
              rfl
          · intro hfull'
            have hshown : (s.mapPage rand pageUserData (b * 32 + n)).mem.blocks = truth' := by
              rw [hblocks', ← hfull', Function.update_eq_self]
            rw [hshown]
            exact hsince
      · rw [if_neg hbit] at hr
        refine ih h hblocks (by omega) ?_ hpages hfree hr hexit
        intro k hk
        by_cases hkn : k = n
        · rw [and_bit_eq_zero_iff, Classical.not_not] at hbit
          rw [hkn]
          exact hbit.2
        · exact hbelow k (by omega)

/-- The outer loop. -/
theorem searchFrom (rand : Nat → Fin 256) (h : Since m₀ bitmap₀ s.mem s.mem.blocks)
    (h₀ : m₀.InOrder bitmap₀) (hlow : m₀.NoLowTable) {left i : Nat} (hi : i + left ≤ maxBlocks) (hpages : s.pagesLeft ≠ 0)
    (hfree : m₀.FreeFrom s.virtAddr s.pagesLeft.toNat) :
    Since m₀ bitmap₀ (AddressSpace.searchFrom rand pageUserData left i s).1.mem
      (AddressSpace.searchFrom rand pageUserData left i s).1.mem.blocks := by
  induction left generalizing i s with
  | zero => exact h
  | succ left ih =>
    have hlocked : Since m₀ bitmap₀ (s.setBlock i full).mem s.mem.blocks :=
      h.mark rfl rfl fun _ hf => hf
    rw [AddressSpace.searchFrom]
    by_cases hfull : s.mem.blocks i = full
    · have hsame : s.setBlock i full = s := by
        rw [Scan.setBlock, ← hfull, Function.update_eq_self]
      simp only [hfull, if_true, hsame]
      exact ih h (by omega) hpages hfree
    · simp only [hfull, if_false]
      by_cases hzero : i = 0
      · -- block 0 stays locked
        simp only [hzero, if_true]
        subst hzero
        apply hlocked.mark rfl rfl
        intro f hf
        simp only [Scan.setBlock, Marked, Function.update_apply]
        split
        case isTrue =>
          rw [full, BitVec.getLsbD_allOnes]
          exact decide_eq_true (Nat.mod_lt f (by decide))
        case isFalse => exact hf
      · simp only [hzero, if_false]
        obtain ⟨r, hr⟩ : ∃ r, AddressSpace.scanFrom rand pageUserData i 32 (s.mem.blocks i) (bit 0)
            (i * 32) (s.setBlock i full) = r := ⟨_, rfl⟩
        obtain ⟨hsince, hmore⟩ := hlocked.scanFrom (b := i) (n := 0) h₀ hlow rfl (by omega) rfl
          (fun k hk => absurd hk (Nat.not_lt_zero k)) hpages hfree hr
        rw [hr]
        by_cases hdone : r.2 = true
        · rw [if_pos hdone]
          exact hsince
        · obtain ⟨hpages', hfree'⟩ := hmore (by simpa using hdone)
          rw [if_neg hdone]
          exact ih hsince (by omega) hpages' hfree'

end Since

/-! ## The calls -/

/-- Every entry present in `m` is present in `m'` with the same value. -/
def Kept (m m' : AddressSpace) : Prop :=
  ∀ i, i < 1048576 → m.Mapped i → m'.Mapped i ∧ m'.load i = m.load i

theorem Since.kept (h : Since m₀ bitmap₀ m bitmap) (h₀ : m₀.InOrder bitmap₀) : m₀.Kept m := by
  intro i hi hmapped
  rw [h₀.mapped_iff hi] at hmapped
  obtain ⟨hp, hpj⟩ := hmapped
  have hk : i / 1024 < 1024 := by omega
  have hload : m.load i = m₀.load i := by
    rw [load, load, h.inOrder.word_eq, h₀.word_eq, h.dir, h.pde _ hk hp]
    exact h.pte _ _ hk (Nat.mod_lt i (by decide)) hp hpj
  refine ⟨⟨?_, ?_⟩, hload⟩
  · rw [h.inOrder.getPde_eq hk, h.dir, h.pde _ hk hp]
    exact hp
  · rw [hload, load, h₀.word_eq]
    exact hpj

/-- **An allocation of pages that are not mapped** keeps the address space in order and every entry
that was present. -/
theorem virtAllocPages_keeps (h : m.InOrder m.blocks) (hlow : m.NoLowTable) {pages vaddr : UInt32}
    (hpages : pages ≠ 0) (hfree : m.FreeFrom vaddr pages.toNat) (rand : Nat → Fin 256) :
    (m.virtAllocPages pages vaddr pageUserData rand).1.InOrder
        (m.virtAllocPages pages vaddr pageUserData rand).1.blocks ∧
      m.Kept (m.virtAllocPages pages vaddr pageUserData rand).1 := by
  have hstart := (rand 0).isLt
  have hmax : maxBlocks = 32768 := rfl
  have hi : (rand 0).val + (maxBlocks - rand 0) ≤ maxBlocks := by omega
  have hsince := Since.searchFrom (s := ⟨m, vaddr, pages, 1⟩) rand (Since.refl h) h hlow hi hpages
    hfree
  exact ⟨hsince.inOrder, hsince.kept h⟩

end AddressSpace

open AddressSpace

/-- A system call of a user, with what `prand() % 256` returns. -/
inductive MemCall where
  | alloc (pages : UInt32) (rand : Nat → Fin 256)
  | allocAt (pages vaddr : UInt32) (rand : Nat → Fin 256)

/-- The address space a call leaves. -/
def AddressSpace.after (m : AddressSpace) : MemCall → AddressSpace
  | .alloc pages rand => (m.syscallAlloc pages rand).1
  | .allocAt pages vaddr rand => (m.syscallAllocAt pages vaddr rand).1

/-- Sequences of allocations, from any address space in order. -/
def allocations : Machine AddressSpace MemCall where
  init m := m.InOrder m.blocks
  step m c := some (m.after c)

/-- No entry in use is changed by the call. -/
def AddressSpace.Keeps (m : AddressSpace) (c : MemCall) : Prop := m.Kept (m.after c)

/-- The pages asked for are at least one, exist, and are not mapped, and no earlier call has run out
of frames for a page table. -/
def AddressSpace.CallOk (m : AddressSpace) : MemCall → Prop
  | .alloc pages _ =>
    pages ≠ 0 ∧ m.virtAllocPtr.toNat + pages.toNat * 4096 < 4294967296 ∧
      m.FreeFrom m.virtAllocPtr pages.toNat ∧ m.NoLowTable
  | .allocAt pages vaddr _ => pages ≠ 0 ∧ m.FreeFrom vaddr pages.toNat ∧ m.NoLowTable

instance (m : AddressSpace) (vaddr : UInt32) (n : Nat) : Decidable (m.FreeFrom vaddr n) :=
  inferInstanceAs (Decidable (∀ q, q < n → ¬ m.Mapped ((vaddr.toNat / 4096 + q) % 1048576)))

instance (m : AddressSpace) : Decidable m.NoLowTable :=
  decidable_of_iff
    ((List.range 1024).all fun k => Present (m.getPde k) → frameOf (m.getPde k) ≠ 0)
    (by simp only [List.all_eq_true, List.mem_range, decide_eq_true_eq, NoLowTable])

instance (m : AddressSpace) : (c : MemCall) → Decidable (m.CallOk c)
  | .alloc _ _ => inferInstanceAs (Decidable (_ ∧ _ ∧ _ ∧ _))
  | .allocAt _ _ _ => inferInstanceAs (Decidable (_ ∧ _ ∧ _))

/-- Below the end of the address space the bump pointer is what `next_virtual_pages` returns. -/
theorem AddressSpace.nextVirtualPages_eq {m : AddressSpace} {pages : UInt32} (hpages : pages ≠ 0)
    (hfits : m.virtAllocPtr.toNat + pages.toNat * 4096 < 4294967296) :
    m.nextVirtualPages pages =
      ({ m with virtAllocPtr := m.virtAllocPtr + pages * 4096 }, m.virtAllocPtr) := by
  have hlimit : (0xFFFFFFFF : UInt32).toNat = 4294967295 := rfl
  have h4096 : (4096 : UInt32).toNat = 4096 := rfl
  have hpos : pages.toNat ≠ 0 := fun hzero => hpages (UInt32.toNat.inj hzero)
  have hroom : ¬ pages * 4096 > 0xFFFFFFFF - m.virtAllocPtr := by
    rw [gt_iff_lt, UInt32.lt_iff_toNat_lt, UInt32.toNat_mul, UInt32.toNat_sub, hlimit, h4096]
    omega
  have hne : m.virtAllocPtr ≠ 0xFFFFFFFF := by
    intro heq
    rw [heq, hlimit] at hfits
    omega
  simp only [nextVirtualPages, hroom, if_false, hne]

/-- One call. -/
theorem AddressSpace.CallOk.after {m : AddressSpace} {c : MemCall} (h : m.InOrder m.blocks)
    (hok : m.CallOk c) : (m.after c).InOrder (m.after c).blocks ∧ m.Keeps c := by
  cases c with
  | alloc pages rand =>
    obtain ⟨hpages, hfits, hfree, hlow⟩ := hok
    have hbumped : InOrder { m with virtAllocPtr := m.virtAllocPtr + pages * 4096 } m.blocks :=
      ⟨h.self, h.dir_marked, h.dir_pos, h.zero_marked, h.table_marked, h.table_ne⟩
    have hkeeps := virtAllocPages_keeps hbumped hlow hpages hfree rand
    rw [Keeps, AddressSpace.after, syscallAlloc, nextVirtualPages_eq hpages hfits]
    exact hkeeps
  | allocAt pages vaddr rand =>
    obtain ⟨hpages, hfree, hlow⟩ := hok
    exact virtAllocPages_keeps h hlow hpages hfree rand

/-- **Allocations keep what is mapped** in every run whose calls ask for pages that are not. -/
theorem allocs_keep (m : AddressSpace) (h : allocations.init m) (calls : List MemCall)
    (hok : allocations.Steps CallOk m calls) : allocations.Steps Keeps m calls := by
  apply Machine.steps_of_steps (I := fun m => m.InOrder m.blocks) _ _ h hok
  · intro m c hm hc
    exact (hc.after hm).2
  · intro m c m' hm hc hstep
    cases hstep
    exact (hc.after hm).1

/-- What `initialize_memory(0x100000)` leaves: page table 0 in frame 256 with the low 4 MB, the
directory in frame 257, and the low 1024 frames marked. -/
def booted (phys : Nat → Nat → UInt32) : AddressSpace where
  phys f j :=
    if f = 257 then if j = 0 then entryOf 256 0x107 else if j = 1 then entryOf 257 3 else 0
    else if f = 256 then entryOf j (if j < 290 then 0x107 else 0x103)
    else phys f j
  dir := 257
  blocks := lowUsed
  virtAllocPtr := 0x800000

theorem booted_pde (phys : Nat → Nat → UInt32) (k : Nat) : (booted phys).phys (booted phys).dir k =
    if k = 0 then entryOf 256 0x107 else if k = 1 then entryOf 257 3 else 0 := rfl

/-- Entries 0 and 1 are all there are in the directory. -/
theorem booted_pde_spec (phys : Nat → Nat → UInt32) (k : Nat) :
    Present ((booted phys).phys (booted phys).dir k) ∧
        frameOf ((booted phys).phys (booted phys).dir k) = 256 + k ∧ k < 2 ∨
      ¬ Present ((booted phys).phys (booted phys).dir k) ∧ 2 ≤ k := by
  have htable : Present (entryOf 256 0x107) ∧ frameOf (entryOf 256 0x107) = 256 := by decide +kernel
  have hself : Present (entryOf 257 3) ∧ frameOf (entryOf 257 3) = 257 := by decide +kernel
  have habsent : ¬ Present 0 := by decide
  rw [booted_pde]
  by_cases h0 : k = 0
  · rw [if_pos h0]
    exact .inl ⟨htable.1, by rw [htable.2, h0], by omega⟩
  · by_cases h1 : k = 1
    · rw [if_neg h0, if_pos h1]
      exact .inl ⟨hself.1, by rw [hself.2, h1], by omega⟩
    · rw [if_neg h0, if_neg h1]
      exact .inr ⟨habsent, by omega⟩

theorem booted_present {phys : Nat → Nat → UInt32} {k : Nat}
    (h : Present ((booted phys).phys (booted phys).dir k)) :
    frameOf ((booted phys).phys (booted phys).dir k) = 256 + k ∧ k < 2 := by
  rcases booted_pde_spec phys k with ⟨-, hspec⟩ | ⟨hnot, -⟩
  · exact hspec
  · exact absurd h hnot

theorem booted_inOrder (phys : Nat → Nat → UInt32) : allocations.init (booted phys) := by
  have hdir : (booted phys).dir = 257 := rfl
  have hmarked : ∀ f, f < 1024 → Marked (booted phys).blocks f := fun f => (marked_lowUsed f).mpr
  refine ⟨?_, hmarked 257 (by decide), by rw [hdir]; decide, hmarked 0 (by decide), ?_, ?_⟩
  · rcases booted_pde_spec phys 1 with ⟨hp, hframe, -⟩ | ⟨-, hle⟩
    · exact ⟨hp, hframe⟩
    · omega
  · intro k _ hp
    obtain ⟨hframe, hk⟩ := booted_present hp
    rw [hframe]
    exact hmarked _ (by omega)
  · intro k _ hk1 hp
    obtain ⟨hframe, hk⟩ := booted_present hp
    rw [hframe, hdir]
    omega

/-- Two pages at 256 MB, then one wherever there is room. -/
def threePages (rand : Nat → Fin 256) : List MemCall := [.allocAt 2 0x10000000 rand, .alloc 1 rand]

theorem threePages_keep :
    allocations.Steps CallOk (booted fun _ _ => 0) (threePages fun _ => 40) ∧
      allocations.Steps Keeps (booted fun _ _ => 0) (threePages fun _ => 40) :=
  have h : allocations.Steps CallOk (booted fun _ _ => 0) (threePages fun _ => 40) := by decide +kernel
  ⟨h, allocs_keep _ (booted_inOrder _) _ h⟩

/-- **`alloc_at` maps over the kernel**: the first page of memory is mapped to a new frame. -/
theorem alloc_at_zero :
    ¬ allocations.Steps Keeps (booted fun _ _ => 0) [.allocAt 1 0 fun _ => 40] := by
  rintro ⟨hkeeps, -⟩
  obtain ⟨-, hsame⟩ := hkeeps 0 (by decide) (by decide +kernel)
  exact absurd hsame (by decide +kernel)

end Shipwreck.Memory
