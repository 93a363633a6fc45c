import Mathlib.Algebra.GroupWithZero.Nat
import Shipwreck.Memory.PageRange
import Shipwreck.Memory.Rights

/-!
# One memory, several processes

Each process has a page directory of its own. `new_user_process` makes it in a page that it allocates in the
address space which is loaded, and copies the entries of global page tables:

    new_pdir[1]    the directory itself
    new_pdir[k]    page_dir[k] if that is global, and nothing otherwise

All processes take their frames from the one bitmap. Outside of the global page tables the address spaces stay
apart (`private_frames_apart`), and what a process has there is as it was when it is loaded again, whatever has
been allocated or stored in others meanwhile (`switched_out_kept`).

`set_proc` leaves the address space as it is when it goes to the kernel's process. So the page that becomes a
directory may be one of another user process, and there users can write to it (`directory_left`); the results
above hold as long as nobody does.

Frames are handed out as they are. A new page table is one of them, and `ensure_pte` does not clear it: words that
happen to be there are entries. So all this rests on what was in memory that nobody had used when the kernel was
started (`ProcMemory.Blank`), and the kernel does not see to it.
-/

namespace Shipwreck.Memory

/-- `PageMapEntry::global` -/
def Global (val : UInt32) : Prop := val.toNat / 256 % 2 = 1

instance (val : UInt32) : Decidable (Global val) := inferInstanceAs (Decidable (_ = _))

/-- The memory, the page bitmap and the bump pointer, and the frames in `procs[p].cr3`; 0 is a slot that is not
used. `loaded` is the process whose directory is in the register `cr3`. -/
structure ProcMemory where
  phys : Nat → Nat → UInt32
  blocks : Nat → Block
  virtAllocPtr : UInt32
  cr3 : Fin 16 → Nat
  loaded : Fin 16

namespace ProcMemory

/-- The address space of a process. -/
def space (s : ProcMemory) (p : Fin 16) : AddressSpace where
  phys := s.phys
  dir := s.cr3 p
  blocks := s.blocks
  virtAllocPtr := s.virtAllocPtr

/-- What a call in the address space that is loaded leaves. -/
def leave (s : ProcMemory) (m : AddressSpace) : ProcMemory :=
  { s with phys := m.phys, blocks := m.blocks, virtAllocPtr := m.virtAllocPtr }

end ProcMemory

namespace AddressSpace

/-- `get_physical`: the frame. -/
def getPhysical (m : AddressSpace) (vaddr : UInt32) : Nat := frameOf (m.load (vaddr >>> 12).toNat)

/-- The words of a frame. -/
def setFrame (m : AddressSpace) (frame : Nat) (words : Nat → UInt32) : AddressSpace :=
  { m with phys := Function.update m.phys frame words }

/-- A store by the processor to word `j` of page `i`. -/
def storeAt (m : AddressSpace) (i j : Nat) (val : UInt32) : AddressSpace :=
  m.setFrame (frameOf (m.pteOf i)) (Function.update (m.phys (frameOf (m.pteOf i))) j val)

/-- The loop of `new_user_process` over the entries of the new directory, which is page `i`. -/
def copyGlobal (i : Nat) (m : AddressSpace) (k : Nat) : AddressSpace :=
  m.storeAt i k (if Global (m.getPde k) then m.getPde k else 0)

/-- Users may write to page `i`. -/
def UserWritable (m : AddressSpace) (i : Nat) : Prop :=
  Present (m.pdeOf i) ∧ Present (m.pteOf i) ∧ ForUser (m.pdeOf i) ∧ ForUser (m.pteOf i) ∧
    Writable (m.pdeOf i) ∧ Writable (m.pteOf i)

instance (m : AddressSpace) (i : Nat) : Decidable (m.UserWritable i) :=
  inferInstanceAs (Decidable (_ ∧ _))

end AddressSpace

open AddressSpace

/-- What happens to the memory. -/
inductive ProcOp where
  /-- `virt_alloc_pages(pages)` and `virt_alloc_pages(pages, PAGE_KERNEL_DATA)` -/
  | alloc (c : AllocCall)
  /-- `syscall_alloc_at` -/
  | allocAt (pages vaddr : UInt32) (rand : Nat → Fin 256)
  /-- `new_user_process` -/
  | spawn (rand : Nat → Fin 256)
  /-- `set_proc` -/
  | setProc (p : Fin 16)
  /-- A store to word `j` of page `i`, by a user. -/
  | store (i j : Nat) (val : UInt32)

/-- There is a process 0. -/
theorem pid_neZero : NeZero 16 := inferInstance

namespace ProcMemory

section

attribute [local instance] pid_neZero

/-- `new_user_process`, without the files and the environment; `none` is `SPINJMP`. -/
def newUserProcess (s : ProcMemory) (rand : Nat → Fin 256) : Option ProcMemory := do
  let newPid ← (List.finRange 16).find? fun p => s.cr3 p = 0
  if newPid = 0 then none
  else
    let alloc := (s.space s.loaded).virtAllocPagesAnywhere 1 pageUserData rand
    let page := (alloc.2 >>> 12).toNat
    let cr3 := alloc.1.getPhysical alloc.2
    let m := (List.range 1024).foldl (copyGlobal page) alloc.1
    let m := m.storeAt page 1 (entryOf cr3 pageKernelData)
    return { s.leave m with cr3 := Function.update s.cr3 newPid cr3, loaded := newPid }

def step (s : ProcMemory) : ProcOp → Option ProcMemory
  | .alloc c => some (s.leave (c.run (s.space s.loaded)).1)
  | .allocAt pages vaddr rand => some (s.leave ((s.space s.loaded).syscallAllocAt pages vaddr rand).1)
  | .spawn rand => s.newUserProcess rand
  | .setProc p => some { s with loaded := if p = 0 then s.loaded else p }
  | .store i j val =>
    if (s.space s.loaded).UserWritable i then some (s.leave ((s.space s.loaded).storeAt i j val)) else none

end

/-- The entry leads to a page table that the processes have in common. -/
def Shared (val : UInt32) : Prop := Present val ∧ Global val

instance (val : UInt32) : Decidable (Shared val) := inferInstanceAs (Decidable (_ ∧ _))

/-- The first process alone: its page tables are all global. -/
structure Alone (s : ProcMemory) : Prop where
  others : ∀ p, s.cr3 p ≠ 0 ↔ p = 0
  loaded : s.loaded = 0
  low : ∀ b, b < 32 → s.blocks b = full
  tidy : (s.space 0).Tidy
  window : ¬ Global (s.phys (s.cr3 0) 1)
  tables : ∀ k, k < 1024 → k ≠ 1 → Present (s.phys (s.cr3 0) k) → Global (s.phys (s.cr3 0) k)

/-- No frame that is free holds a word with the present bit. This is a condition on the memory of the machine. -/
def Blank (s : ProcMemory) : Prop := ∀ f, ¬ Marked s.blocks f → ∀ j, ¬ Present (s.phys f j)

/-- The `n` pages from `page` on are above the window and outside of the global page tables, and there are frames
enough. -/
def Room (m : AddressSpace) (page n : Nat) : Prop :=
  2048 ≤ page ∧ (∀ q, q < n → ¬ Shared (m.pdeOf (page + q))) ∧ m.Enough page n

/-- A call for at least one page, in a place with room; or a store to a page that is not shared and is not a
directory. -/
def Allowed (s : ProcMemory) : ProcOp → Prop
  | .alloc c => c.pages ≠ 0 ∧ s.virtAllocPtr.toNat + c.pages.toNat * 4096 < 4294967296 ∧
      Room (s.space s.loaded) (s.virtAllocPtr.toNat / 4096) c.pages.toNat
  | .allocAt pages vaddr _ => pages ≠ 0 ∧ vaddr.toNat + pages.toNat * 4096 ≤ 4294967296 ∧
      Room (s.space s.loaded) (vaddr.toNat / 4096) pages.toNat
  | .spawn _ => s.virtAllocPtr.toNat + 4096 < 4294967296 ∧
      Room (s.space s.loaded) (s.virtAllocPtr.toNat / 4096) 1
  | .setProc p => s.cr3 p ≠ 0
  | .store i j _ => 2048 ≤ i ∧ i < 1048576 ∧ j < 1024 ∧ ¬ Shared ((s.space s.loaded).pdeOf i) ∧
      ∀ q, s.cr3 q ≠ frameOf ((s.space s.loaded).pteOf i)

/-- Page `i` of process `p` is mapped, outside of the window and of the global page tables. -/
structure Private (s : ProcMemory) (p : Fin 16) (i : Nat) : Prop where
  range : i < 1048576
  window : i / 1024 ≠ 1
  pde : Present ((s.space p).pdeOf i)
  own : ¬ Global ((s.space p).pdeOf i)
  pte : Present ((s.space p).pteOf i)

/-- The frame of page `i`. -/
def frame (s : ProcMemory) (p : Fin 16) (i : Nat) : Nat := frameOf ((s.space p).pteOf i)

end ProcMemory

/-- Several processes in one memory. -/
def processes : Machine ProcMemory ProcOp where
  init := ProcMemory.Alone
  step := ProcMemory.step

/-! ## What the frames are used for -/

/-- The use of a frame. -/
inductive Use where
  | free
  | kernel
  /-- The directory of `p`, which was loaded by `host` when it was made. -/
  | dir (p host : Fin 16)
  | table (p : Fin 16) (k : Nat)
  | page (p : Fin 16)
  deriving DecidableEq

/-- Whose frame it is. -/
def Use.owner : Use → Option (Fin 16)
  | .free | .kernel => none
  | .dir p _ | .table p _ | .page p => some p

theorem Use.kernel_ne_free : Use.kernel ≠ .free := by
  intro h
  cases h

theorem Use.dir_ne_free {p host : Fin 16} : Use.dir p host ≠ .free := by
  intro h
  cases h

theorem Use.table_ne_free {p : Fin 16} {k : Nat} : Use.table p k ≠ .free := by
  intro h
  cases h

theorem Use.page_ne_free {p : Fin 16} : Use.page p ≠ .free := by
  intro h
  cases h

/-- Every frame has one use. -/
structure Separate (s : ProcMemory) (use : Nat → Use) : Prop where
  free_iff : ∀ f, use f = .free ↔ ¬ Marked s.blocks f
  blank : ∀ f, use f = .free → ∀ j, ¬ Present (s.phys f j)
  low : ∀ b, b < 32 → s.blocks b = full
  loaded : s.cr3 s.loaded ≠ 0
  dir : ∀ p, s.cr3 p ≠ 0 → ∃ host, use (s.cr3 p) = .dir p host
  of_dir : ∀ p host f, use f = .dir p host → s.cr3 p ≠ 0 ∧ s.cr3 p = f
  self : ∀ p, s.cr3 p ≠ 0 →
    Present (s.phys (s.cr3 p) 1) ∧ frameOf (s.phys (s.cr3 p) 1) = s.cr3 p ∧ ¬ Global (s.phys (s.cr3 p) 1)
  shared : ∀ p k, s.cr3 p ≠ 0 → k < 1024 → ProcMemory.Shared (s.phys (s.cr3 p) k) →
    use (frameOf (s.phys (s.cr3 p) k)) = .kernel
  shared_ne : ∀ p k l, s.cr3 p ≠ 0 → k < 1024 → l < 1024 → k ≠ l → ProcMemory.Shared (s.phys (s.cr3 p) k) →
    ProcMemory.Shared (s.phys (s.cr3 p) l) → frameOf (s.phys (s.cr3 p) k) ≠ frameOf (s.phys (s.cr3 p) l)
  own : ∀ p k, s.cr3 p ≠ 0 → k < 1024 → k ≠ 1 → Present (s.phys (s.cr3 p) k) → ¬ Global (s.phys (s.cr3 p) k) →
    use (frameOf (s.phys (s.cr3 p) k)) = .table p k
  pte : ∀ p k f j, use f = .table p k → Present (s.phys f j) →
    use (frameOf (s.phys f j)) = .page p ∨ ∃ q, q ≠ p ∧ use (frameOf (s.phys f j)) = .dir q p

section

variable {s : ProcMemory} {use use' : Nat → Use} {p q : Fin 16} {k i f : Nat}

namespace Separate

theorem marked (h : Separate s use) (hf : use f ≠ .free) : Marked s.blocks f := by
  by_contra hnot
  exact hf ((h.free_iff f).mpr hnot)

/-- Where a directory entry leads. -/
theorem table_use (h : Separate s use) (hp : s.cr3 p ≠ 0) (hk : k < 1024) (hk1 : k ≠ 1)
    (hpresent : Present (s.phys (s.cr3 p) k)) :
    (Global (s.phys (s.cr3 p) k) ∧ use (frameOf (s.phys (s.cr3 p) k)) = .kernel) ∨
      (¬ Global (s.phys (s.cr3 p) k) ∧ use (frameOf (s.phys (s.cr3 p) k)) = .table p k) := by
  by_cases hglobal : Global (s.phys (s.cr3 p) k)
  · exact .inl ⟨hglobal, h.shared p k hp hk ⟨hpresent, hglobal⟩⟩
  · exact .inr ⟨hglobal, h.own p k hp hk hk1 hpresent hglobal⟩

/-- The page tables and the directory of a process are different frames. -/
theorem tidy (h : Separate s use) (hp : s.cr3 p ≠ 0) : (s.space p).Tidy := by
  obtain ⟨hself, hwindow, -⟩ := h.self p hp
  obtain ⟨host, hdir⟩ := h.dir p hp
  -- the frame of a page table is not a directory
  have hne : ∀ k, k < 1024 → k ≠ 1 → Present (s.phys (s.cr3 p) k) →
      frameOf (s.phys (s.cr3 p) k) ≠ s.cr3 p := by
    intro k hk hk1 hpresent heq
    rcases h.table_use hp hk hk1 hpresent with ⟨-, huse⟩ | ⟨-, huse⟩
    · rw [heq, hdir] at huse
      cases huse
    · rw [heq, hdir] at huse
      cases huse
  refine ⟨⟨⟨hself, hwindow⟩, ?_, hp, marked_of_full (h.low 0 (by decide)), ?_, hne⟩, ?_⟩
  · apply h.marked
    rw [show (s.space p).dir = s.cr3 p from rfl, hdir]
    exact Use.dir_ne_free
  · intro k hk hpresent
    apply h.marked
    show use (frameOf (s.phys (s.cr3 p) k)) ≠ .free
    by_cases hk1 : k = 1
    · rw [hk1, hwindow, hdir]
      exact Use.dir_ne_free
    · rcases h.table_use hp hk hk1 hpresent with ⟨-, huse⟩ | ⟨-, huse⟩
      · exact huse ▸ Use.kernel_ne_free
      · exact huse ▸ Use.table_ne_free
  · intro k l hk hl hkl hpk hpl heq
    show False
    have heq' : frameOf (s.phys (s.cr3 p) k) = frameOf (s.phys (s.cr3 p) l) := heq
    by_cases hk1 : k = 1
    · rw [hk1, hwindow] at heq'
      exact hne l hl (by omega) hpl heq'.symm
    by_cases hl1 : l = 1
    · rw [hl1, hwindow] at heq'
      exact hne k hk hk1 hpk heq'
    rcases h.table_use hp hk hk1 hpk with ⟨hgk, huse⟩ | ⟨-, huse⟩
    · rcases h.table_use hp hl hl1 hpl with ⟨hgl, -⟩ | ⟨-, huse'⟩
      · exact h.shared_ne p k l hp hk hl hkl ⟨hpk, hgk⟩ ⟨hpl, hgl⟩ heq'
      · rw [heq', huse'] at huse
        cases huse
    · rcases h.table_use hp hl hl1 hpl with ⟨-, huse'⟩ | ⟨-, huse'⟩
      · rw [heq', huse'] at huse
        cases huse
      · rw [heq', huse'] at huse
        cases huse
        exact hkl rfl

/-- The frame of a private page. -/
theorem private_use (h : Separate s use) (hp : s.cr3 p ≠ 0) (hi : s.Private p i) :
    use (frameOf ((s.space p).pdeOf i)) = .table p (i / 1024) ∧
      (use (s.frame p i) = .page p ∨ ∃ q, q ≠ p ∧ use (s.frame p i) = .dir q p) := by
  have hrange := hi.range
  have htable := h.own p (i / 1024) hp (by omega) hi.window hi.pde hi.own
  exact ⟨htable, h.pte p _ _ _ htable hi.pte⟩

/-- A private page that is not a directory. -/
theorem page_use (h : Separate s use) (hp : s.cr3 p ≠ 0) (hi : s.Private p i)
    (hdirs : ∀ q, s.cr3 q ≠ s.frame p i) : use (s.frame p i) = .page p := by
  obtain ⟨-, hpage⟩ := h.private_use hp hi
  refine hpage.resolve_right ?_
  rintro ⟨q, -, hdir⟩
  exact hdirs q (h.of_dir q p _ hdir).2

/-- Nothing of what the uses speak of depends on the bump pointer and on which address space is loaded. -/
theorem congr {s' : ProcMemory} (h : Separate s use) (hphys : s'.phys = s.phys) (hblocks : s'.blocks = s.blocks)
    (hcr3 : s'.cr3 = s.cr3) (hloaded : s.cr3 s'.loaded ≠ 0) : Separate s' use := by
  obtain ⟨phys, blocks, ptr, cr3, loaded⟩ := s'
  subst hphys hblocks hcr3
  exact { h with loaded := hloaded }

end Separate

end

/-! ## One step -/

/-- What a step in the address space of `p` leaves to the other processes. -/
structure Keeps (p : Fin 16) (s : ProcMemory) (use : Nat → Use) (s' : ProcMemory) (use' : Nat → Use) : Prop where
  cr3 : ∀ q, s.cr3 q ≠ 0 → s'.cr3 q = s.cr3 q
  kept : ∀ q f, q ≠ p → (use f).owner = some q → use' f = use f ∧ s'.phys f = s.phys f

/-! ### Allocation -/

theorem global_entryOf {frame : Nat} {attributes : UInt32} (hframe : frame < 1048576)
    (hattr : attributes.toNat < 4096) : Global (entryOf frame attributes) ↔ Global attributes := by
  rw [Global, Global, toNat_entryOf hframe hattr]
  omega

/-- A call for at least one page in a place with room. -/
theorem virtAllocPages_allocates {m : AddressSpace} {pages address attributes : UInt32} (rand : Nat → Fin 256)
    (h : m.RangeOk pages address) (hattr : attributes.toNat < 4096) (hpresent : Present attributes)
    (hpages : pages ≠ 0) :
    (m.virtAllocPages pages address attributes rand).2 = address ∧
      (m.virtAllocPages pages address attributes rand).1.Tidy ∧ ∃ frames, frames.length = pages.toNat ∧
        m.Allocated (m.virtAllocPages pages address attributes rand).1 (address.toNat / 4096) frames
          attributes := by
  have hfits := h.fits
  have haddr := address.toNat_lt
  have hgo := toGo_callStart m address hpages
  rcases m.virtAllocPages_spec pages address attributes rand with
    ⟨⟨-, hlocked⟩, -⟩ | ⟨frames, s', htakes, hres⟩
  · exact absurd (h.low 0 (by decide)) hlocked
  · have hle : frames.length ≤ pages.toNat := by
      rcases hres with ⟨hlen, -⟩ | ⟨hlen, -, -⟩
      · omega
      · omega
    have hpage : (callStart m pages address).virtAddr.toNat / 4096 = address.toNat / 4096 % 1048576 := by
      show address.toNat / 4096 = _
      omega
    obtain ⟨hall, htidy, henough⟩ := htakes.allocated (address.toNat / 4096) pages.toNat h.tidy h.enough hle
      hattr hpresent hpage (by omega) h.window
    rcases hres with ⟨hlen, heq⟩ | ⟨hlen, hfull, -⟩
    · rw [heq]
      exact ⟨rfl, htidy, frames, by omega, hall⟩
    · -- a frame is left for the next page
      have hleft : 0 < s'.toGo := Nat.succ_pos _
      rw [Enough] at henough
      exact absurd hfull (not_fullFrom_of_card (by omega) _)

/-- From `m` to `m'` pages of process `p` have been mapped. `missing` are the regions that had no page table. -/
structure Fitted (p : Fin 16) (m : AddressSpace) (use : Nat → Use) (missing : Nat → Prop) (m' : AddressSpace)
    (use' : Nat → Use) : Prop where
  dir : m'.dir = m.dir
  free_iff : ∀ f, use' f = .free ↔ ¬ Marked m'.blocks f
  marked : ∀ f, Marked m.blocks f → Marked m'.blocks f
  keep : ∀ f, use f ≠ .free → use' f = use f
  fresh : ∀ f, use' f = use f ∨ use' f = .page p ∨ ∃ k, use' f = .table p k
  absent : ∀ l, missing l → ¬ Present (m.phys m.dir l)
  made : ∀ l, missing l → Present (m'.phys m.dir l) ∧ ¬ Global (m'.phys m.dir l) ∧
    use' (frameOf (m'.phys m.dir l)) = .table p l
  word : ∀ f j, m'.phys f j ≠ m.phys f j → (f = m.dir ∧ missing j) ∨
    ((∃ k, use' f = .table p k) ∧ use' (frameOf (m'.phys f j)) = .page p)

section

variable {p : Fin 16} {m m' : AddressSpace} {use : Nat → Use} {page : Nat} {frames : List Nat}
  {attributes : UInt32}

/-- The frames of the pages, and those of the page tables that were missing, get their use. -/
theorem AddressSpace.Allocated.exists_use (hall : m.Allocated m' page frames attributes) (htidy : m'.Tidy)
    (hattr : attributes.toNat < 4096) (hpresent : Present attributes) (p : Fin 16) (use : Nat → Use) :
    ∃ use' : Nat → Use, (∀ f ∈ frames, use' f = .page p) ∧
      (∀ l, l < 1024 → m.Missing page frames.length l → use' (frameOf (m'.phys m.dir l)) = .table p l) ∧
      ∀ f, f ∉ frames → (∀ l, l < 1024 → m.Missing page frames.length l → f ≠ frameOf (m'.phys m.dir l)) →
        use' f = use f := by
  classical
  refine ⟨fun f => if f ∈ frames then .page p
    else if hl : ∃ l, l < 1024 ∧ m.Missing page frames.length l ∧ f = frameOf (m'.phys m.dir l) then
      .table p hl.choose else use f, fun f hf => if_pos hf, ?_, ?_⟩
  · intro l hl hmissing
    obtain ⟨t, hpde, ht, -, hout⟩ := hall.table l hl hmissing
    have hex : ∃ k, k < 1024 ∧ m.Missing page frames.length k ∧
        frameOf (m'.phys m.dir l) = frameOf (m'.phys m.dir k) := ⟨l, hl, hmissing, rfl⟩
    have hnot : frameOf (m'.phys m.dir l) ∉ frames := by
      rw [hpde, frameOf_entryOf ht hattr]
      exact hout
    simp only [hnot, if_false, dif_pos hex, Use.table.injEq, true_and]
    -- two new page tables are not in one frame
    obtain ⟨hk, hmissing', heq⟩ := hex.choose_spec
    obtain ⟨t', hpde', ht', -, -⟩ := hall.table _ hk hmissing'
    by_contra hne
    refine htidy.tables_ne hex.choose l hk hl hne ?_ ?_ ?_
    · rw [hall.dir, hpde', present_entryOf ht' hattr]
      exact hpresent
    · rw [hall.dir, hpde, present_entryOf ht hattr]
      exact hpresent
    · rw [hall.dir]
      exact heq.symm
  · intro f hf hnew
    simp only [hf, if_false]
    rw [dif_neg]
    rintro ⟨l, hl, hmissing, heq⟩
    exact hnew l hl hmissing heq

/-- **Allocation**, in the terms of the uses. -/
theorem AddressSpace.Allocated.fitted (hall : m.Allocated m' page frames attributes) (htidy : m'.Tidy)
    (hattr : attributes.toNat < 4096) (hpresent : Present attributes) (hprivate : ¬ Global attributes)
    (hfree : ∀ f, use f = .free ↔ ¬ Marked m.blocks f) (habove : 2048 ≤ page)
    (hfits : page + frames.length ≤ 1048576)
    (hroom : ∀ q, q < frames.length → Present (m.pdeOf (page + q)) →
      use (m.tableOf (page + q)) = .table p ((page + q) / 1024)) :
    ∃ use', Fitted p m use (fun l => l < 1024 ∧ m.Missing page frames.length l) m' use' ∧
      (∀ f ∈ frames, use' f = .page p) ∧
      ∀ q, q < frames.length → use' (m'.tableOf (page + q)) = .table p ((page + q) / 1024) := by
  obtain ⟨use', hpages, htables, hothers⟩ := hall.exists_use htidy hattr hpresent p use
  have hkeep : ∀ f, use f ≠ .free → use' f = use f := by
    intro f hf
    rw [Ne, hfree, Classical.not_not] at hf
    apply hothers
    · exact fun hmem => (hall.free f hmem).2 hf
    · rintro l hl hmissing rfl
      obtain ⟨t, hpde, ht, hnot, -⟩ := hall.table l hl hmissing
      rw [hpde, frameOf_entryOf ht hattr] at hf
      exact hnot hf
  -- the directory changes only where a page table was missing
  have hpde : ∀ k, ¬ (k < 1024 ∧ m.Missing page frames.length k) → m'.phys m.dir k = m.phys m.dir k := by
    intro k hk
    by_contra hne
    rcases hall.kept m.dir k hne with ⟨-, hboth⟩ | ⟨q, hq, htable, -⟩
    · exact hk hboth
    · obtain ⟨hpresent', -⟩ := hall.entry q _ (List.getElem?_eq_getElem hq)
      exact htidy.inOrder.table_ne _ (by omega) (by omega) hpresent' (htable.symm.trans hall.dir.symm)
  -- the page tables that entries are written to
  have htable : ∀ q, q < frames.length → use' (m'.tableOf (page + q)) = .table p ((page + q) / 1024) := by
    intro q hq
    rw [tableOf, pdeOf, hall.dir]
    by_cases hmissing : m.Missing page frames.length ((page + q) / 1024)
    · exact htables _ (by omega) hmissing
    · have hpresent' : Present (m.phys m.dir ((page + q) / 1024)) := by
        by_contra hnot
        exact hmissing ⟨⟨q, hq, rfl⟩, hnot⟩
      have huse : use (frameOf (m.phys m.dir ((page + q) / 1024))) = .table p ((page + q) / 1024) :=
        hroom q hq hpresent'
      rw [hpde _ fun hboth => hmissing hboth.2, hkeep _ (huse ▸ Use.table_ne_free), huse]
  refine ⟨use', ⟨hall.dir, ?_, fun f hf => (hall.marked f).mpr (.inl hf), hkeep, ?_, fun l hl => hl.2.2, ?_, ?_⟩,
    hpages, htable⟩
  · intro f
    rw [hall.marked]
    by_cases hf : f ∈ frames
    · rw [hpages f hf]
      simp [hf]
    · by_cases hnew : ∃ l, l < 1024 ∧ m.Missing page frames.length l ∧ f = frameOf (m'.phys m.dir l)
      · obtain ⟨l, hl, hmissing, rfl⟩ := hnew
        rw [htables l hl hmissing]
        exact iff_of_false Use.table_ne_free fun hnot => hnot (.inr (.inr ⟨l, hl, hmissing, rfl⟩))
      · rw [hothers f hf fun l hl hmissing heq => hnew ⟨l, hl, hmissing, heq⟩, hfree]
        simp only [hf, hnew, or_false]
  · intro f
    by_cases hf : f ∈ frames
    · exact .inr (.inl (hpages f hf))
    · by_cases hnew : ∃ l, l < 1024 ∧ m.Missing page frames.length l ∧ f = frameOf (m'.phys m.dir l)
      · obtain ⟨l, hl, hmissing, rfl⟩ := hnew
        exact .inr (.inr ⟨l, htables l hl hmissing⟩)
      · exact .inl (hothers f hf fun l hl hmissing heq => hnew ⟨l, hl, hmissing, heq⟩)
  · rintro l ⟨hl, hmissing⟩
    obtain ⟨t, hpde', ht, -, -⟩ := hall.table l hl hmissing
    have huse := htables l hl hmissing
    rw [hpde'] at huse ⊢
    rw [present_entryOf ht hattr, global_entryOf ht hattr]
    exact ⟨hpresent, hprivate, huse⟩
  · intro f j hne
    rcases hall.kept f j hne with ⟨hf, hj⟩ | ⟨q, hq, rfl, rfl⟩
    · exact .inl ⟨hf, hj⟩
    · obtain ⟨-, hentry⟩ := hall.entry q _ (List.getElem?_eq_getElem hq)
      have hmem : frames[q] ∈ frames := List.getElem_mem hq
      have hframe : frameOf (m'.phys (m'.tableOf (page + q)) ((page + q) % 1024)) = frames[q] := by
        rw [← pteOf, hentry, frameOf_entryOf (hall.free _ hmem).1 hattr]
      exact .inr ⟨⟨_, htable q hq⟩, by rw [hframe, hpages _ hmem]⟩

/-- A call takes a frame for each page, and one for each page table. -/
theorem AddressSpace.Allocated.card_freeFrames (hall : m.Allocated m' page frames attributes) :
    (freeFrames m.blocks).card ≤ (freeFrames m'.blocks).card + frames.length + 1024 := by
  have hsub : freeFrames m.blocks ⊆ (freeFrames m'.blocks ∪ frames.toFinset) ∪
      (Finset.range 1024).image fun l => frameOf (m'.phys m.dir l) := by
    intro f hf
    obtain ⟨hrange, hfree⟩ := mem_freeFrames.mp hf
    rw [Finset.mem_union, Finset.mem_union, mem_freeFrames, List.mem_toFinset, Finset.mem_image]
    by_cases hmarked : Marked m'.blocks f
    · rcases (hall.marked f).mp hmarked with hold | hmem | ⟨l, hl, -, rfl⟩
      · exact absurd hold hfree
      · exact .inl (.inr hmem)
      · exact .inr ⟨l, Finset.mem_range.mpr hl, rfl⟩
    · exact .inl (.inl ⟨hrange, hmarked⟩)
  have hle := Finset.card_le_card hsub
  have hunion := Finset.card_union_le (freeFrames m'.blocks ∪ frames.toFinset)
    ((Finset.range 1024).image fun l => frameOf (m'.phys m.dir l))
  have hunion' := Finset.card_union_le (freeFrames m'.blocks) frames.toFinset
  have htables : ((Finset.range 1024).image fun l => frameOf (m'.phys m.dir l)).card ≤ 1024 := by
    simpa using Finset.card_image_le (s := Finset.range 1024) (f := fun l => frameOf (m'.phys m.dir l))
  have hpages := frames.toFinset_card_le
  omega

end

section

variable {s : ProcMemory} {p q : Fin 16} {m' : AddressSpace} {use use' : Nat → Use} {missing : Nat → Prop}

namespace Fitted

/-- What a frame is used for stays. -/
theorem kept {m : AddressSpace} (hf : Fitted p m use missing m' use') {f : Nat} {u : Use} (huse : use f = u)
    (hu : u ≠ .free) : use' f = u :=
  (hf.keep f (huse ▸ hu)).trans huse

/-- The directories have changed only where a page table was missing. -/
theorem pde (hf : Fitted p (s.space p) use missing m' use') (h : Separate s use) (hq : s.cr3 q ≠ 0) {k : Nat}
    (hk : q = p → ¬ missing k) : m'.phys (s.cr3 q) k = s.phys (s.cr3 q) k := by
  by_contra hne
  obtain ⟨host, hdir⟩ := h.dir q hq
  rcases hf.word (s.cr3 q) k hne with ⟨heq, hmissing⟩ | ⟨⟨l, hl⟩, -⟩
  · have heq' : s.cr3 q = s.cr3 p := heq
    have hp := hq
    rw [heq'] at hp
    obtain ⟨host', hdir'⟩ := h.dir p hp
    rw [← heq', hdir] at hdir'
    exact hk (Use.dir.inj hdir').1 hmissing
  · rw [hf.kept hdir Use.dir_ne_free] at hl
    cases hl

theorem separate (hf : Fitted p (s.space p) use missing m' use') (h : Separate s use) (hp : s.cr3 p ≠ 0) :
    Separate (s.leave m') use' := by
  have hdir : ∀ q, s.cr3 q ≠ 0 → ∃ host, use' (s.cr3 q) = .dir q host := by
    intro q hq
    obtain ⟨host, hdir⟩ := h.dir q hq
    exact ⟨host, hf.kept hdir Use.dir_ne_free⟩
  have hkernel : ∀ f, use f = .kernel → use' f = .kernel := by
    intro f huse
    exact hf.kept huse Use.kernel_ne_free
  -- an entry of a directory is an old one, or that of a new page table
  have hpde : ∀ q k, s.cr3 q ≠ 0 → m'.phys (s.cr3 q) k = s.phys (s.cr3 q) k ∨
      q = p ∧ ¬ Global (m'.phys (s.cr3 q) k) ∧ use' (frameOf (m'.phys (s.cr3 q) k)) = .table q k := by
    intro q k hq
    by_cases hnew : q = p ∧ missing k
    · obtain ⟨rfl, hmissing⟩ := hnew
      exact .inr ⟨rfl, (hf.made k hmissing).2⟩
    · exact .inl (hf.pde h hq fun heq hmissing => hnew ⟨heq, hmissing⟩)
  have hshared : ∀ q k, s.cr3 q ≠ 0 → ProcMemory.Shared (m'.phys (s.cr3 q) k) →
      m'.phys (s.cr3 q) k = s.phys (s.cr3 q) k := by
    intro q k hq hshared
    exact (hpde q k hq).resolve_right fun hnew => hnew.2.1 hshared.2
  refine ⟨hf.free_iff, ?_, ?_, h.loaded, hdir, ?_, ?_, ?_, ?_, ?_, ?_⟩
  · intro f hfree j hpresent
    have hfree' : use f = .free := by
      by_contra hne
      exact hne ((hf.keep f hne).symm.trans hfree)
    have hword : m'.phys f j = s.phys f j := by
      by_contra hne
      rcases hf.word f j hne with ⟨heq, -⟩ | ⟨⟨k, hk⟩, -⟩
      · obtain ⟨host, huse⟩ := hdir p hp
        rw [← show f = s.cr3 p from heq, hfree] at huse
        cases huse
      · rw [hfree] at hk
        cases hk
    exact h.blank f hfree' j (hword ▸ hpresent)
  · exact fun b hb => full_of_marked_mono hf.marked (h.low b hb)
  · intro q host f huse
    rcases hf.fresh f with hsame | hpage | ⟨k, htable⟩
    · exact h.of_dir q host f (hsame.symm.trans huse)
    · rw [hpage] at huse
      cases huse
    · rw [htable] at huse
      cases huse
  · intro q hq
    have hsame : m'.phys (s.cr3 q) 1 = s.phys (s.cr3 q) 1 := by
      apply hf.pde h hq
      rintro rfl hmissing
      exact hf.absent 1 hmissing (h.self q hq).1
    show Present (m'.phys (s.cr3 q) 1) ∧ frameOf (m'.phys (s.cr3 q) 1) = s.cr3 q ∧ ¬ Global (m'.phys (s.cr3 q) 1)
    rw [hsame]
    exact h.self q hq
  · intro q k hq hk hboth
    have hsame := hshared q k hq hboth
    change ProcMemory.Shared (m'.phys (s.cr3 q) k) at hboth
    show use' (frameOf (m'.phys (s.cr3 q) k)) = .kernel
    rw [hsame] at hboth ⊢
    exact hkernel _ (h.shared q k hq hk hboth)
  · intro q k l hq hk hl hkl hbothk hbothl
    have hsamek := hshared q k hq hbothk
    have hsamel := hshared q l hq hbothl
    change ProcMemory.Shared (m'.phys (s.cr3 q) k) at hbothk
    change ProcMemory.Shared (m'.phys (s.cr3 q) l) at hbothl
    show frameOf (m'.phys (s.cr3 q) k) ≠ frameOf (m'.phys (s.cr3 q) l)
    rw [hsamek] at hbothk ⊢
    rw [hsamel] at hbothl ⊢
    exact h.shared_ne q k l hq hk hl hkl hbothk hbothl
  · intro q k hq hk hk1 hpresent hglobal
    rcases hpde q k hq with hsame | ⟨-, -, huse⟩
    · change Present (m'.phys (s.cr3 q) k) at hpresent
      change ¬ Global (m'.phys (s.cr3 q) k) at hglobal
      show use' (frameOf (m'.phys (s.cr3 q) k)) = .table q k
      rw [hsame] at hpresent hglobal ⊢
      exact hf.kept (h.own q k hq hk hk1 hpresent hglobal) Use.table_ne_free
    · exact huse
  · intro q k f j htable hpresent
    change Present (m'.phys f j) at hpresent
    show use' (frameOf (m'.phys f j)) = .page q ∨ ∃ r, r ≠ q ∧ use' (frameOf (m'.phys f j)) = .dir r q
    by_cases hsame : m'.phys f j = s.phys f j
    · rw [hsame] at hpresent ⊢
      have hused : use f ≠ .free := fun hfree => h.blank f hfree j hpresent
      rw [hf.keep f hused] at htable
      rcases h.pte q k f j htable hpresent with hpage | ⟨r, hne, hr⟩
      · exact .inl (hf.kept hpage Use.page_ne_free)
      · exact .inr ⟨r, hne, hf.kept hr Use.dir_ne_free⟩
    · rcases hf.word f j hsame with ⟨heq, -⟩ | ⟨⟨l, hl⟩, hpage⟩
      · obtain ⟨host, huse⟩ := hdir p hp
        rw [← show f = s.cr3 p from heq, htable] at huse
        cases huse
      · rw [htable] at hl
        cases hl
        exact .inl hpage

theorem keeps (hf : Fitted p (s.space p) use missing m' use') (h : Separate s use) (hp : s.cr3 p ≠ 0) :
    Keeps p s use (s.leave m') use' := by
  have hkeep : ∀ q f, (use f).owner = some q → use' f = use f := by
    intro q f howner
    apply hf.keep
    intro hfree
    rw [hfree] at howner
    cases howner
  refine ⟨fun _ _ => rfl, fun q f hqp howner => ⟨hkeep q f howner, ?_⟩⟩
  funext j
  by_contra hne
  rcases hf.word f j hne with ⟨heq, -⟩ | ⟨⟨k, hk⟩, -⟩
  · obtain ⟨host, hdir⟩ := h.dir p hp
    rw [show f = s.cr3 p from heq, hdir] at howner
    exact hqp (Option.some.inj howner).symm
  · rw [← hkeep q f howner, hk] at howner
    exact hqp (Option.some.inj howner).symm

end Fitted

end

/-! ### A new process -/

theorem Keeps.trans {p : Fin 16} {s s₁ s₂ : ProcMemory} {use use₁ use₂ : Nat → Use} (h : Keeps p s use s₁ use₁)
    (h' : Keeps p s₁ use₁ s₂ use₂) : Keeps p s use s₂ use₂ where
  cr3 q hq := by rw [h'.cr3 q (by rw [h.cr3 q hq]; exact hq), h.cr3 q hq]
  kept q f hqp howner := by
    obtain ⟨huse, hphys⟩ := h.kept q f hqp howner
    obtain ⟨huse', hphys'⟩ := h'.kept q f hqp (by rw [huse]; exact howner)
    exact ⟨huse'.trans huse, hphys'.trans hphys⟩

/-- What `new_user_process` stores into the new directory, in frame `cr3`. -/
def newPdir (dir : Nat → UInt32) (cr3 k : Nat) : UInt32 :=
  if k = 1 then entryOf cr3 pageKernelData else if Global (dir k) then dir k else 0

namespace AddressSpace

variable {m : AddressSpace} {i n frame : Nat}

/-- The frame of the new directory after `n` rounds of the loop. -/
def copiedRow (m : AddressSpace) (frame n k : Nat) : UInt32 :=
  if k < n then if Global (m.phys m.dir k) then m.phys m.dir k else 0 else m.phys frame k

/-- Words of a frame that is neither the directory nor the page table of page `i`. -/
theorem setFrame_other (words : Nat → UInt32) (hself : m.SelfMapped) (hdir : frame ≠ m.dir)
    (htable : frame ≠ m.tableOf i) : (m.setFrame frame words).SelfMapped ∧
      (m.setFrame frame words).phys m.dir = m.phys m.dir ∧ (m.setFrame frame words).pteOf i = m.pteOf i := by
  have hold : (m.setFrame frame words).phys m.dir = m.phys m.dir := Function.update_of_ne hdir.symm _ _
  have hpde : (m.setFrame frame words).pdeOf i = m.pdeOf i := congrFun hold _
  refine ⟨?_, hold, ?_⟩
  · show Present ((m.setFrame frame words).phys m.dir 1) ∧
      frameOf ((m.setFrame frame words).phys m.dir 1) = m.dir
    rw [hold]
    exact hself
  · rw [pteOf, tableOf, hpde]
    exact congrFun (Function.update_of_ne htable.symm _ _) _

/-- The loop stores to the new directory, and reads from the old one. -/
theorem copyGlobal_foldl (hself : m.SelfMapped) (hframe : frame = frameOf (m.pteOf i)) (hdir : frame ≠ m.dir)
    (htable : frame ≠ m.tableOf i) (hn : n ≤ 1024) :
    (List.range n).foldl (copyGlobal i) m = m.setFrame frame (m.copiedRow frame n) := by
  induction n with
  | zero =>
    have hrow : m.copiedRow frame 0 = m.phys frame := by
      funext k
      exact if_neg (Nat.not_lt_zero k)
    rw [hrow, setFrame, Function.update_eq_self]
    rfl
  | succ n ih =>
    rw [List.range_succ, List.foldl_append, ih (by omega), List.foldl_cons, List.foldl_nil]
    obtain ⟨hself₁, hold, hpte⟩ := setFrame_other (m.copiedRow frame n) hself hdir htable
    rw [copyGlobal, hself₁.getPde_eq (by omega), storeAt, hpte, ← hframe]
    simp only [setFrame, Function.update_self, Function.update_idem]
    congr 2
    funext k
    by_cases hk : k = n
    · subst hk
      rw [Function.update_self, copiedRow, if_pos (Nat.lt_succ_self k)]
      exact congrArg (fun pde => if Global pde then pde else 0) (congrFun hold k)
    · rw [Function.update_of_ne hk, copiedRow, copiedRow]
      have hlt : k < n + 1 ↔ k < n := by omega
      simp only [hlt]

end AddressSpace

section

variable {s s' : ProcMemory} {p q : Fin 16} {use : Nat → Use} {d : Nat} {row : Nat → UInt32}

/-- The new directory is its own window. -/
theorem newPdir_window (dir : Nat → UInt32) (hlt : d < 1048576) :
    Present (newPdir dir d 1) ∧ frameOf (newPdir dir d 1) = d ∧ ¬ Global (newPdir dir d 1) := by
  rw [newPdir, if_pos rfl, present_entryOf hlt (by decide), frameOf_entryOf hlt (by decide),
    global_entryOf hlt (by decide)]
  exact ⟨by decide, rfl, by decide⟩

/-- Its other entries are those that the old directory shares. -/
theorem newPdir_shares {dir : Nat → UInt32} {k : Nat} (hpresent : Present (newPdir dir d k)) (hk1 : k ≠ 1) :
    newPdir dir d k = dir k ∧ ProcMemory.Shared (dir k) := by
  rw [newPdir, if_neg hk1] at hpresent ⊢
  by_cases hglobal : Global (dir k)
  · rw [if_pos hglobal] at hpresent ⊢
    exact ⟨rfl, hpresent, hglobal⟩
  · rw [if_neg hglobal] at hpresent
    exact absurd hpresent (by decide)

theorem shared_newPdir {dir : Nat → UInt32} {k : Nat} (hlt : d < 1048576)
    (hshared : ProcMemory.Shared (newPdir dir d k)) : newPdir dir d k = dir k ∧ ProcMemory.Shared (dir k) := by
  apply newPdir_shares hshared.1
  rintro rfl
  exact (newPdir_window dir hlt).2.2 hshared.2

/-- Process `q` does not exist; its directory is to be frame `d`, a page of process `p`. -/
structure Adopts (s : ProcMemory) (use : Nat → Use) (p q : Fin 16) (d : Nat) (row : Nat → UInt32) : Prop where
  separate : Separate s use
  parent : s.cr3 p ≠ 0
  page : use d = .page p
  ne_zero : d ≠ 0
  lt : d < 1048576
  unused : s.cr3 q = 0
  row_eq : ∀ k, k < 1024 → row k = newPdir (s.phys (s.cr3 p)) d k

namespace Adopts

/-- The memory with the new directory. -/
def after (s : ProcMemory) (q : Fin 16) (d : Nat) (row : Nat → UInt32) : ProcMemory :=
  { s with phys := Function.update s.phys d row, cr3 := Function.update s.cr3 q d, loaded := q }

/-- The uses of the frames then. -/
def useAfter (use : Nat → Use) (p q : Fin 16) (d : Nat) : Nat → Use := Function.update use d (.dir q p)

variable {r : Fin 16} {k l f j : Nat}

theorem ne (h : Adopts s use p q d row) : q ≠ p := by
  rintro rfl
  exact h.parent h.unused

/-- The old directories are in other frames. -/
theorem dir_ne (h : Adopts s use p q d row) (hr : s.cr3 r ≠ 0) : s.cr3 r ≠ d := by
  intro heq
  obtain ⟨host, hdir⟩ := h.separate.dir r hr
  rw [heq, h.page] at hdir
  cases hdir

theorem use_of_ne (hf : f ≠ d) : useAfter use p q d f = use f := Function.update_of_ne hf _ _

theorem use_self : useAfter use p q d d = .dir q p := Function.update_self _ _ _

/-- A frame with another use keeps it. -/
theorem use_eq (h : Adopts s use p q d row) {u : Use} (hf : use f = u) (hu : u ≠ .page p) :
    useAfter use p q d f = u := by
  rw [use_of_ne, hf]
  rintro rfl
  exact hu (hf.symm.trans h.page)

/-- A frame that is a page table, or is free, is not the new directory. -/
theorem ne_of_use {u : Use} (hf : useAfter use p q d f = u) (hu : u ≠ .dir q p) : f ≠ d := by
  rintro rfl
  exact hu (hf.symm.trans use_self)

/-- The entries of a directory are those of the new one, or they are as they were. -/
theorem entry (h : Adopts s use p q d row) (hr : (after s q d row).cr3 r ≠ 0) (hk : k < 1024) :
    (r = q ∧ (after s q d row).phys ((after s q d row).cr3 r) k = newPdir (s.phys (s.cr3 p)) d k) ∨
      (r ≠ q ∧ s.cr3 r ≠ 0 ∧ (after s q d row).phys ((after s q d row).cr3 r) k = s.phys (s.cr3 r) k) := by
  simp only [after] at hr ⊢
  by_cases hrq : r = q
  · subst hrq
    rw [Function.update_self, Function.update_self]
    exact .inl ⟨rfl, h.row_eq k hk⟩
  · rw [Function.update_of_ne hrq] at hr ⊢
    rw [Function.update_of_ne (h.dir_ne hr)]
    exact .inr ⟨hrq, hr, rfl⟩

theorem free_iff (h : Adopts s use p q d row) (f : Nat) : useAfter use p q d f = .free ↔ ¬ Marked s.blocks f := by
  by_cases hf : f = d
  · rw [hf, use_self]
    exact iff_of_false nofun fun hnot => hnot (h.separate.marked (by rw [h.page]; nofun))
  · rw [use_of_ne hf]
    exact h.separate.free_iff f

theorem blank (h : Adopts s use p q d row) (hfree : useAfter use p q d f = .free) (j : Nat) :
    ¬ Present ((after s q d row).phys f j) := by
  have hf : f ≠ d := ne_of_use hfree nofun
  rw [use_of_ne hf] at hfree
  simp only [after, Function.update_of_ne hf]
  exact h.separate.blank f hfree j

theorem dir (h : Adopts s use p q d row) (hr : (after s q d row).cr3 r ≠ 0) :
    ∃ host, useAfter use p q d ((after s q d row).cr3 r) = .dir r host := by
  simp only [after] at hr ⊢
  by_cases hrq : r = q
  · exact ⟨p, by rw [hrq, Function.update_self, use_self]⟩
  · rw [Function.update_of_ne hrq] at hr ⊢
    obtain ⟨host, hdir⟩ := h.separate.dir r hr
    exact ⟨host, h.use_eq hdir nofun⟩

theorem of_dir (h : Adopts s use p q d row) {host : Fin 16} (huse : useAfter use p q d f = .dir r host) :
    (after s q d row).cr3 r ≠ 0 ∧ (after s q d row).cr3 r = f := by
  simp only [after]
  by_cases hf : f = d
  · rw [hf, use_self] at huse
    obtain ⟨rfl, -⟩ := Use.dir.inj huse
    rw [Function.update_self, hf]
    exact ⟨h.ne_zero, rfl⟩
  · rw [use_of_ne hf] at huse
    obtain ⟨hr, heq⟩ := h.separate.of_dir r host f huse
    have hrq : r ≠ q := by
      rintro rfl
      exact hr h.unused
    rw [Function.update_of_ne hrq]
    exact ⟨hr, heq⟩

theorem self (h : Adopts s use p q d row) (hr : (after s q d row).cr3 r ≠ 0) :
    Present ((after s q d row).phys ((after s q d row).cr3 r) 1) ∧
      frameOf ((after s q d row).phys ((after s q d row).cr3 r) 1) = (after s q d row).cr3 r ∧
      ¬ Global ((after s q d row).phys ((after s q d row).cr3 r) 1) := by
  rcases h.entry hr (show 1 < 1024 by decide) with ⟨rfl, heq⟩ | ⟨hrq, hr', heq⟩
  · have hself : (after s r d row).cr3 r = d := Function.update_self _ _ _
    rw [heq, hself]
    exact newPdir_window _ h.lt
  · have hold : (after s q d row).cr3 r = s.cr3 r := Function.update_of_ne hrq _ _
    rw [heq, hold]
    exact h.separate.self r hr'

/-- A shared entry of any directory is one of an old directory. -/
theorem shared_entry (h : Adopts s use p q d row) (hr : (after s q d row).cr3 r ≠ 0) (hk : k < 1024)
    (hshared : ProcMemory.Shared ((after s q d row).phys ((after s q d row).cr3 r) k)) :
    ∃ r', s.cr3 r' ≠ 0 ∧ (r' = if r = q then p else r) ∧ ProcMemory.Shared (s.phys (s.cr3 r') k) ∧
      (after s q d row).phys ((after s q d row).cr3 r) k = s.phys (s.cr3 r') k := by
  rcases h.entry hr hk with ⟨hrq, heq⟩ | ⟨hrq, hr', heq⟩
  · rw [heq] at hshared ⊢
    obtain ⟨hold, hshared'⟩ := shared_newPdir h.lt hshared
    exact ⟨p, h.parent, (if_pos hrq).symm, hshared', hold⟩
  · rw [heq] at hshared ⊢
    exact ⟨r, hr', (if_neg hrq).symm, hshared, rfl⟩

theorem shared (h : Adopts s use p q d row) (hr : (after s q d row).cr3 r ≠ 0) (hk : k < 1024)
    (hshared : ProcMemory.Shared ((after s q d row).phys ((after s q d row).cr3 r) k)) :
    useAfter use p q d (frameOf ((after s q d row).phys ((after s q d row).cr3 r) k)) = .kernel := by
  obtain ⟨r', hr', -, hold, heq⟩ := h.shared_entry hr hk hshared
  rw [heq]
  exact h.use_eq (h.separate.shared r' k hr' hk hold) nofun

theorem shared_ne (h : Adopts s use p q d row) (hr : (after s q d row).cr3 r ≠ 0) (hk : k < 1024) (hl : l < 1024)
    (hkl : k ≠ l) (hsharedk : ProcMemory.Shared ((after s q d row).phys ((after s q d row).cr3 r) k))
    (hsharedl : ProcMemory.Shared ((after s q d row).phys ((after s q d row).cr3 r) l)) :
    frameOf ((after s q d row).phys ((after s q d row).cr3 r) k) ≠
      frameOf ((after s q d row).phys ((after s q d row).cr3 r) l) := by
  -- both are entries of one old directory
  obtain ⟨r', hr', rfl, hold, heq⟩ := h.shared_entry hr hk hsharedk
  obtain ⟨r'', -, rfl, hold', heq'⟩ := h.shared_entry hr hl hsharedl
  rw [heq, heq']
  exact h.separate.shared_ne _ k l hr' hk hl hkl hold hold'

theorem own (h : Adopts s use p q d row) (hr : (after s q d row).cr3 r ≠ 0) (hk : k < 1024) (hk1 : k ≠ 1)
    (hpresent : Present ((after s q d row).phys ((after s q d row).cr3 r) k))
    (hglobal : ¬ Global ((after s q d row).phys ((after s q d row).cr3 r) k)) :
    useAfter use p q d (frameOf ((after s q d row).phys ((after s q d row).cr3 r) k)) = .table r k := by
  rcases h.entry hr hk with ⟨-, heq⟩ | ⟨-, hr', heq⟩
  · -- a new directory has no tables of its own
    rw [heq] at hpresent hglobal
    obtain ⟨hold, hshared⟩ := newPdir_shares hpresent hk1
    rw [hold] at hglobal
    exact absurd hshared.2 hglobal
  · rw [heq] at hpresent hglobal ⊢
    exact h.use_eq (h.separate.own r k hr' hk hk1 hpresent hglobal) nofun

theorem pte (h : Adopts s use p q d row) (htable : useAfter use p q d f = .table r k)
    (hpresent : Present ((after s q d row).phys f j)) :
    useAfter use p q d (frameOf ((after s q d row).phys f j)) = .page r ∨
      ∃ r', r' ≠ r ∧ useAfter use p q d (frameOf ((after s q d row).phys f j)) = .dir r' r := by
  have hf : f ≠ d := ne_of_use htable nofun
  rw [use_of_ne hf] at htable
  simp only [after, Function.update_of_ne hf] at hpresent ⊢
  have hold := h.separate.pte r k f j htable hpresent
  by_cases hdf : frameOf (s.phys f j) = d
  · -- the entry of `p` for the page that is the directory now
    rw [hdf, h.page] at hold
    obtain hpage | ⟨r', -, hdir⟩ := hold
    · cases hpage
      exact .inr ⟨q, h.ne, by rw [hdf, use_self]⟩
    · cases hdir
  · rwa [use_of_ne hdf]

end Adopts

/-- A page of the process that is loaded becomes the directory of a new one. -/
theorem Separate.adopt (h : Separate s use) (hp : s.cr3 p ≠ 0) (hd : use d = .page p) (hd0 : d ≠ 0)
    (hlt : d < 1048576) (hq : s.cr3 q = 0) (hrow : ∀ k, k < 1024 → row k = newPdir (s.phys (s.cr3 p)) d k) :
    Separate { s with phys := Function.update s.phys d row, cr3 := Function.update s.cr3 q d, loaded := q }
      (Function.update use d (.dir q p)) := by
  have hadopts : Adopts s use p q d row := ⟨h, hp, hd, hd0, hlt, hq, hrow⟩
  have hloaded : Function.update s.cr3 q d q ≠ 0 := by
    rw [Function.update_self]
    exact hd0
  exact
    { free_iff := hadopts.free_iff
      blank := fun f hfree j => hadopts.blank hfree j
      low := h.low
      loaded := hloaded
      dir := fun r hr => hadopts.dir hr
      of_dir := fun r host f huse => hadopts.of_dir huse
      self := fun r hr => hadopts.self hr
      shared := fun r k hr hk hshared => hadopts.shared hr hk hshared
      shared_ne := fun r k l hr hk hl hkl hsharedk hsharedl => hadopts.shared_ne hr hk hl hkl hsharedk hsharedl
      own := fun r k hr hk hk1 hpresent hglobal => hadopts.own hr hk hk1 hpresent hglobal
      pte := fun r k f j htable hpresent => hadopts.pte htable hpresent }

theorem Keeps.adopt (hd : use d = .page p) (hq : s.cr3 q = 0) :
    Keeps p s use { s with phys := Function.update s.phys d row, cr3 := Function.update s.cr3 q d, loaded := q }
      (Function.update use d (.dir q p)) where
  cr3 r hr := by
    apply Function.update_of_ne
    rintro rfl
    exact hr hq
  kept r f hrp howner := by
    have hne : f ≠ d := by
      rintro rfl
      rw [hd] at howner
      exact hrp (Option.some.inj howner).symm
    exact ⟨Function.update_of_ne hne _ _, Function.update_of_ne hne _ _⟩

/-! ### A store -/

/-- Only what directories, page tables and free frames hold is of importance. -/
theorem Separate.stored (h : Separate s use) (hd : use d = .page p) :
    Separate { s with phys := Function.update s.phys d row } use := by
  have hcr3 : ∀ r, s.cr3 r ≠ 0 → Function.update s.phys d row (s.cr3 r) = s.phys (s.cr3 r) := by
    intro r hr
    apply Function.update_of_ne
    intro heq
    obtain ⟨host, hdir⟩ := h.dir r hr
    rw [heq, hd] at hdir
    cases hdir
  refine ⟨h.free_iff, ?_, h.low, h.loaded, h.dir, h.of_dir, ?_, ?_, ?_, ?_, ?_⟩
  · intro f hfree j
    show ¬ Present (Function.update s.phys d row f j)
    rw [Function.update_of_ne (by rintro rfl; rw [hd] at hfree; cases hfree)]
    exact h.blank f hfree j
  · intro r hr
    have hself := h.self r hr
    rwa [← hcr3 r hr] at hself
  · intro r k hr
    have hshared := h.shared r k hr
    rwa [← hcr3 r hr] at hshared
  · intro r k l hr
    have hshared := h.shared_ne r k l hr
    rwa [← hcr3 r hr] at hshared
  · intro r k hr
    have hown := h.own r k hr
    rwa [← hcr3 r hr] at hown
  · intro r k f j htable hpresent
    have hf : Function.update s.phys d row f = s.phys f :=
      Function.update_of_ne (by rintro rfl; rw [hd] at htable; cases htable) _ _
    change Present (Function.update s.phys d row f j) at hpresent
    show use (frameOf (Function.update s.phys d row f j)) = .page r ∨
      ∃ r', r' ≠ r ∧ use (frameOf (Function.update s.phys d row f j)) = .dir r' r
    rw [hf] at hpresent ⊢
    exact h.pte r k f j htable hpresent

theorem Keeps.stored (hd : use d = .page p) :
    Keeps p s use { s with phys := Function.update s.phys d row } use where
  cr3 _ _ := rfl
  kept q f hqp howner := by
    have hne : f ≠ d := by
      rintro rfl
      rw [hd] at howner
      exact hqp (Option.some.inj howner).symm
    exact ⟨rfl, Function.update_of_ne hne _ _⟩

end

/-! ## Runs -/

section

variable {s s' : ProcMemory} {use : Nat → Use} {op : ProcOp} {pages attributes : UInt32}

/-- A call of `virt_alloc_pages`. -/
theorem Separate.alloc (h : Separate s use) (rand : Nat → Fin 256) (address : UInt32) (hpages : pages ≠ 0)
    (hfits : address.toNat + pages.toNat * 4096 ≤ 4294967296)
    (hroom : ProcMemory.Room (s.space s.loaded) (address.toNat / 4096) pages.toNat)
    (hattr : attributes.toNat < 4096) (hpresent : Present attributes) (hprivate : ¬ Global attributes) :
    ∃ (m' : AddressSpace) (use' : Nat → Use) (frames : List Nat),
      (s.space s.loaded).virtAllocPages pages address attributes rand = (m', address) ∧
      (s.space s.loaded).Allocated m' (address.toNat / 4096) frames attributes ∧ frames.length = pages.toNat ∧
      m'.Tidy ∧ (∀ f ∈ frames, use' f = .page s.loaded) ∧
      (∀ q, q < frames.length → use' (m'.tableOf (address.toNat / 4096 + q)) =
        .table s.loaded ((address.toNat / 4096 + q) / 1024)) ∧
      Separate (s.leave m') use' ∧ Keeps s.loaded s use (s.leave m') use' := by
  obtain ⟨habove, hshared, henough⟩ := hroom
  have hrange : (s.space s.loaded).RangeOk pages address :=
    ⟨h.tidy h.loaded, h.low, hfits, fun q _ => by omega, henough⟩
  obtain ⟨haddr, htidy, frames, hlen, hall⟩ := virtAllocPages_allocates rand hrange hattr hpresent hpages
  obtain ⟨use', hfitted, hframes, htable⟩ := hall.fitted (p := s.loaded) htidy hattr hpresent hprivate h.free_iff
    habove (by omega) (by
      intro q hq hpde
      have hglobal : ¬ Global ((s.space s.loaded).pdeOf (address.toNat / 4096 + q)) := fun hglobal =>
        hshared q (by omega) ⟨hpde, hglobal⟩
      exact h.own s.loaded _ h.loaded (by omega) (by omega) hpde hglobal)
  exact ⟨_, use', frames, Prod.ext rfl haddr, hall, hlen, htidy, hframes, htable, hfitted.separate h h.loaded,
    hfitted.keeps h h.loaded⟩

/-- The same wherever there is room. -/
theorem Separate.allocAnywhere (h : Separate s use) (rand : Nat → Fin 256) (hpages : pages ≠ 0)
    (hfits : s.virtAllocPtr.toNat + pages.toNat * 4096 < 4294967296)
    (hroom : ProcMemory.Room (s.space s.loaded) (s.virtAllocPtr.toNat / 4096) pages.toNat)
    (hattr : attributes.toNat < 4096) (hpresent : Present attributes) (hprivate : ¬ Global attributes) :
    ∃ (m' : AddressSpace) (use' : Nat → Use) (frames : List Nat),
      (s.space s.loaded).virtAllocPagesAnywhere pages attributes rand = (m', s.virtAllocPtr) ∧
      m'.dir = s.cr3 s.loaded ∧ frames.length = pages.toNat ∧
      (freeFrames s.blocks).card ≤ (freeFrames m'.blocks).card + pages.toNat + 1024 ∧
      (∀ q f, frames[q]? = some f → Present (m'.pdeOf (s.virtAllocPtr.toNat / 4096 + q)) ∧
        m'.pteOf (s.virtAllocPtr.toNat / 4096 + q) = entryOf f attributes ∧ f < 1048576 ∧ ¬ Marked s.blocks f) ∧
      m'.Tidy ∧ (∀ f ∈ frames, use' f = .page s.loaded) ∧
      (∀ q, q < frames.length → use' (m'.tableOf (s.virtAllocPtr.toNat / 4096 + q)) =
        .table s.loaded ((s.virtAllocPtr.toNat / 4096 + q) / 1024)) ∧
      Separate (s.leave m') use' ∧ Keeps s.loaded s use (s.leave m') use' := by
  obtain ⟨s₁, hs₁⟩ : ∃ s₁ : ProcMemory, s₁ = { s with virtAllocPtr := s.virtAllocPtr + pages * 4096 } := ⟨_, rfl⟩
  have h₁ : Separate s₁ use := by
    subst hs₁
    exact h.congr rfl rfl rfl h.loaded
  have hproc : s₁.loaded = s.loaded := by rw [hs₁]
  have hrun : (s.space s.loaded).virtAllocPagesAnywhere pages attributes rand =
      (s₁.space s₁.loaded).virtAllocPages pages s.virtAllocPtr attributes rand := by
    rw [virtAllocPagesAnywhere, nextVirtualPages_eq hpages hfits, hs₁]
    rfl
  obtain ⟨m', use', frames, heq, hall, hlen, htidy, hframes, htable, hseparate, hkeeps⟩ :=
    h₁.alloc rand s.virtAllocPtr hpages (Nat.le_of_lt hfits) (by rw [hs₁]; exact hroom)
      hattr hpresent hprivate
  subst hs₁
  refine ⟨m', use', frames, hrun.trans heq, hall.dir, hlen, hlen ▸ hall.card_freeFrames, ?_, htidy, hframes,
    htable, hseparate, ⟨hkeeps.cr3, hkeeps.kept⟩⟩
  intro q f hf
  obtain ⟨hpde, hpte⟩ := hall.entry q f hf
  obtain ⟨hlt, hfree⟩ := hall.free f (List.mem_of_getElem? hf)
  exact ⟨hpde, hpte, hlt, hfree⟩

/-- After `new_user_process`: the new directory is filled, and the rest is as the allocation has left it. -/
def ProcMemory.spawned (s : ProcMemory) (rand : Nat → Fin 256) (newPid : Fin 16) : ProcMemory :=
  let m := ((s.space s.loaded).virtAllocPagesAnywhere 1 pageUserData rand).1
  let d := m.getPhysical s.virtAllocPtr
  { s.leave m with
    phys := Function.update m.phys d (Function.update (m.copiedRow d 1024) 1 (entryOf d pageKernelData))
    cr3 := Function.update s.cr3 newPid d
    loaded := newPid }

/-- The allocation of a directory, in frame `d`. -/
structure NewDir (s : ProcMemory) (m : AddressSpace) (use : Nat → Use) (d : Nat) : Prop where
  physical : m.getPhysical s.virtAllocPtr = d
  ne_zero : d ≠ 0
  lt : d < 1048576
  dir : m.dir = s.cr3 s.loaded
  dir_ne : d ≠ m.dir
  table_ne : d ≠ m.tableOf (s.virtAllocPtr.toNat / 4096)
  use_eq : use d = .page s.loaded
  table_use : use (m.tableOf (s.virtAllocPtr.toNat / 4096)) = .table s.loaded (s.virtAllocPtr.toNat / 4096 / 1024)
  pde : Present (m.pdeOf (s.virtAllocPtr.toNat / 4096))
  pte : m.pteOf (s.virtAllocPtr.toNat / 4096) = entryOf d pageUserData
  card : (freeFrames s.blocks).card ≤ (freeFrames m.blocks).card + 1025

theorem Separate.newUserProcess_eq (h : Separate s use) (rand : Nat → Fin 256)
    (hfits : s.virtAllocPtr.toNat + 4096 < 4294967296)
    (hroom : ProcMemory.Room (s.space s.loaded) (s.virtAllocPtr.toNat / 4096) 1) :
    (s.newUserProcess rand = ((List.finRange 16).find? fun p => s.cr3 p = 0).bind fun newPid =>
      if newPid = 0 then none else some (s.spawned rand newPid)) ∧
    ∃ (m' : AddressSpace) (use' : Nat → Use) (d : Nat),
      (s.space s.loaded).virtAllocPagesAnywhere 1 pageUserData rand = (m', s.virtAllocPtr) ∧
      NewDir s m' use' d ∧ Separate (s.leave m') use' ∧ Keeps s.loaded s use (s.leave m') use' := by
  obtain ⟨m', use', frames, hrun, hdir, hlen, hcard, hentries, htidy, hframes, htables, hseparate, hkeeps⟩ :=
    h.allocAnywhere rand (by decide : (1 : UInt32) ≠ 0) (by simpa using hfits) hroom pageUserData_lt
      present_pageUserData (by decide)
  obtain ⟨d, rfl⟩ := List.length_eq_one_iff.mp hlen
  obtain ⟨hpde, hpte, hlt, hfree⟩ := hentries 0 d rfl
  rw [Nat.add_zero] at hpde hpte
  have hd : use' d = .page s.loaded := hframes d (List.mem_singleton_self d)
  have hd0 : d ≠ 0 := by
    rintro rfl
    exact hfree (marked_of_full (h.low 0 (by decide)))
  have hframe : frameOf (m'.pteOf (s.virtAllocPtr.toNat / 4096)) = d := by
    rw [hpte, frameOf_entryOf hlt pageUserData_lt]
  have hphysical : m'.getPhysical s.virtAllocPtr = d := by
    rw [getPhysical, load, htidy.inOrder.word_eq, toNat_shiftRight_twelve]
    exact hframe
  have hcr3 : (s.leave m').cr3 s.loaded = m'.dir := hdir.symm
  -- the new directory is neither the old one nor one of its page tables
  have hdne : d ≠ m'.dir := by
    rintro rfl
    obtain ⟨host, huse⟩ := hseparate.dir s.loaded h.loaded
    rw [hcr3, hd] at huse
    cases huse
  have htable' : use' (m'.tableOf (s.virtAllocPtr.toNat / 4096)) =
      .table s.loaded (s.virtAllocPtr.toNat / 4096 / 1024) := htables 0 (by simp)
  have htable : d ≠ m'.tableOf (s.virtAllocPtr.toNat / 4096) := by
    rintro heq
    rw [← heq, hd] at htable'
    cases htable'
  have hself := htidy.inOrder.selfMapped
  obtain ⟨-, -, hpte'⟩ := setFrame_other (m'.copiedRow d 1024) hself hdne htable
  have hstored : ((List.range 1024).foldl (copyGlobal (s.virtAllocPtr.toNat / 4096)) m').storeAt
      (s.virtAllocPtr.toNat / 4096) 1 (entryOf d pageKernelData) =
        m'.setFrame d (Function.update (m'.copiedRow d 1024) 1 (entryOf d pageKernelData)) := by
    rw [copyGlobal_foldl hself hframe.symm hdne htable (Nat.le_refl _), storeAt, hpte', hframe]
    simp only [setFrame, Function.update_self, Function.update_idem]
  refine ⟨?_, m', use', d, hrun, ⟨hphysical, hd0, hlt, hdir, hdne, htable, hd, htable', hpde, hpte, hcard⟩,
    hseparate, hkeeps⟩
  simp only [ProcMemory.newUserProcess, ProcMemory.spawned, hrun, toNat_shiftRight_twelve, hphysical, hstored]
  rfl

/-- **A new process.** Its directory is left to the old one as a page. -/
theorem Separate.spawn (h : Separate s use) {rand : Nat → Fin 256}
    (hfits : s.virtAllocPtr.toNat + 4096 < 4294967296)
    (hroom : ProcMemory.Room (s.space s.loaded) (s.virtAllocPtr.toNat / 4096) 1)
    (hstep : s.newUserProcess rand = some s') :
    ∃ use', Separate s' use' ∧ Keeps s.loaded s use s' use' ∧ s'.loaded ≠ s.loaded ∧
      s'.cr3 s'.loaded < 1048576 ∧
      Present ((s'.space s.loaded).pdeOf (s.virtAllocPtr.toNat / 4096)) ∧
      ¬ Global ((s'.space s.loaded).pdeOf (s.virtAllocPtr.toNat / 4096)) ∧
      (s'.space s.loaded).pteOf (s.virtAllocPtr.toNat / 4096) = entryOf (s'.cr3 s'.loaded) pageUserData ∧
      (freeFrames s.blocks).card ≤ (freeFrames s'.blocks).card + 1025 := by
  obtain ⟨heq, m', use', d, hrun, hnew, hseparate, hkeeps⟩ := h.newUserProcess_eq rand hfits hroom
  rw [heq, Option.bind_eq_some_iff] at hstep
  obtain ⟨newPid, hfind, hstep⟩ := hstep
  have hunused : s.cr3 newPid = 0 := by simpa using List.find?_some hfind
  split at hstep
  case isTrue => cases hstep
  case isFalse =>
    cases hstep
    have hne : newPid ≠ s.loaded := by
      rintro rfl
      exact h.loaded hunused
    obtain ⟨row, hrow⟩ : ∃ row, row = Function.update (m'.copiedRow d 1024) 1 (entryOf d pageKernelData) :=
      ⟨_, rfl⟩
    have hspawned : s.spawned rand newPid = { s.leave m' with
        phys := Function.update m'.phys d row
        cr3 := Function.update s.cr3 newPid d
        loaded := newPid } := by
      rw [ProcMemory.spawned, hrun, hrow]
      simp only [hnew.physical]
    -- in the old address space the page is as it was
    have hspace : (s.spawned rand newPid).space s.loaded = m'.setFrame d row := by
      have hcr3 : Function.update s.cr3 newPid d s.loaded = m'.dir := by
        rw [Function.update_of_ne hne.symm, hnew.dir]
      rw [hspawned, ProcMemory.space]
      simp only [hcr3]
      rfl
    have htables : m'.SelfMapped := by
      have hself := (hseparate.tidy (p := s.loaded) h.loaded).inOrder.selfMapped
      rwa [show (s.leave m').space s.loaded = m' by
        rw [ProcMemory.space, show (s.leave m').cr3 s.loaded = m'.dir from hnew.dir.symm]; rfl] at hself
    obtain ⟨-, hpdir, hpte⟩ := setFrame_other row htables hnew.dir_ne hnew.table_ne
    rw [hspace, hpte, hspawned]
    refine ⟨_, hseparate.adopt (p := s.loaded) h.loaded hnew.use_eq hnew.ne_zero hnew.lt hunused ?_,
      hkeeps.trans (.adopt hnew.use_eq hunused), hne, ?_, ?_, ?_, ?_, hnew.card⟩
    · intro k hk
      rw [newPdir, hrow]
      by_cases hk1 : k = 1
      · rw [hk1, Function.update_self, if_pos rfl]
      · rw [Function.update_of_ne hk1, if_neg hk1, copiedRow, if_pos hk, hnew.dir]
        rfl
    · show Function.update s.cr3 newPid d newPid < 1048576
      rw [Function.update_self]
      exact hnew.lt
    · have hpde := hnew.pde
      rwa [pdeOf, ← hpdir] at hpde
    · intro hglobal
      have hptr := s.virtAllocPtr.toNat_lt
      have hglobal' : Global (m'.pdeOf (s.virtAllocPtr.toNat / 4096)) := by rwa [pdeOf, ← hpdir]
      have hkernel := hseparate.shared s.loaded (s.virtAllocPtr.toNat / 4096 / 1024) h.loaded (by omega) (by
        rw [show (s.leave m').cr3 s.loaded = m'.dir from hnew.dir.symm]
        exact ⟨hnew.pde, hglobal'⟩)
      rw [show (s.leave m').cr3 s.loaded = m'.dir from hnew.dir.symm] at hkernel
      rw [show use' (frameOf ((s.leave m').phys m'.dir (s.virtAllocPtr.toNat / 4096 / 1024))) = _ from
        hnew.table_use] at hkernel
      cases hkernel
    · show m'.pteOf _ = entryOf (Function.update s.cr3 newPid d newPid) pageUserData
      rw [Function.update_self, hnew.pte]

/-- **One step.** -/
theorem Separate.step (h : Separate s use) (hok : s.Allowed op) (hstep : s.step op = some s') :
    ∃ use', Separate s' use' ∧ Keeps s.loaded s use s' use' := by
  cases op with
  | alloc c =>
    obtain ⟨hpages, hfits, hroom⟩ := hok
    obtain ⟨hattr, hpresent, -, -⟩ := c.attributes_spec
    have hprivate : ¬ Global c.attributes := by
      unfold AllocCall.attributes
      cases c.user
      · decide
      · decide
    obtain ⟨m', use', -, hrun, -, -, -, -, -, -, -, hseparate, hkeeps⟩ :=
      h.allocAnywhere c.rand hpages hfits hroom hattr hpresent hprivate
    rw [ProcMemory.step, AllocCall.run, hrun] at hstep
    cases hstep
    exact ⟨use', hseparate, hkeeps⟩
  | allocAt pages vaddr rand =>
    obtain ⟨hpages, hfits, hroom⟩ := hok
    obtain ⟨m', use', -, hrun, -, -, -, -, -, hseparate, hkeeps⟩ :=
      h.alloc rand vaddr hpages hfits hroom pageUserData_lt present_pageUserData (by decide)
    rw [ProcMemory.step, syscallAllocAt, hrun] at hstep
    cases hstep
    exact ⟨use', hseparate, hkeeps⟩
  | spawn rand =>
    obtain ⟨hfits, hroom⟩ := hok
    obtain ⟨use', hseparate, hkeeps, -⟩ := h.spawn hfits hroom hstep
    exact ⟨use', hseparate, hkeeps⟩
  | setProc p =>
    cases hstep
    refine ⟨use, h.congr rfl rfl rfl ?_, ⟨fun _ _ => rfl, fun _ _ _ _ => ⟨rfl, rfl⟩⟩⟩
    show s.cr3 (if p = 0 then s.loaded else p) ≠ 0
    split
    · exact h.loaded
    · exact hok
  | store i j val =>
    obtain ⟨habove, hi, hj, hshared, hdirs⟩ := hok
    rw [ProcMemory.step] at hstep
    split at hstep
    case isFalse => cases hstep
    case isTrue hwritable =>
      cases hstep
      obtain ⟨hpde, hpte, -⟩ := hwritable
      -- a page of the user: no page table, no directory and no free frame is stored to
      have hprivate : s.Private s.loaded i :=
        ⟨hi, by omega, hpde, fun hglobal => hshared ⟨hpde, hglobal⟩, hpte⟩
      have hd := h.page_use h.loaded hprivate hdirs
      exact ⟨use, h.stored hd, .stored hd⟩

/-- Before the first process has made others. -/
theorem ProcMemory.Alone.separate (h : s.Alone) (hblank : s.Blank) : ∃ use, Separate s use := by
  classical
  have hactive : ∀ p, s.cr3 p ≠ 0 → p = 0 := fun p => (h.others p).mp
  have hloaded : s.cr3 s.loaded ≠ 0 := (h.others _).mpr h.loaded
  have hdir : Marked s.blocks (s.cr3 0) := h.tidy.inOrder.dir_marked
  have hself : Present (s.phys (s.cr3 0) 1) ∧ frameOf (s.phys (s.cr3 0) 1) = s.cr3 0 := h.tidy.inOrder.self
  -- what is marked and is not the directory belongs to the kernel: process 0 has no page tables of its own
  refine ⟨fun f => if f = s.cr3 0 then .dir 0 0 else if Marked s.blocks f then .kernel else .free,
    ?_, ?_, h.low, hloaded, ?_, ?_, ?_, ?_, ?_, ?_, ?_⟩
  · intro f
    by_cases hf : f = s.cr3 0
    · simp [hf, hdir]
    · by_cases hm : Marked s.blocks f
      · simp [hf, hm]
      · simp [hf, hm]
  · intro f hfree
    apply hblank f
    intro hm
    by_cases hf : f = s.cr3 0
    · simp [hf] at hfree
    · simp [hf, hm] at hfree
  · intro p hp
    rw [hactive p hp]
    exact ⟨0, if_pos rfl⟩
  · intro p host f huse
    by_cases hf : f = s.cr3 0
    · rw [if_pos hf] at huse
      obtain ⟨rfl, -⟩ := Use.dir.inj huse
      exact ⟨(h.others 0).mpr rfl, hf.symm⟩
    · by_cases hm : Marked s.blocks f
      · simp [hf, hm] at huse
      · simp [hf, hm] at huse
  · intro p hp
    rw [hactive p hp]
    exact ⟨hself.1, hself.2, h.window⟩
  · intro p k hp hk hboth
    rw [hactive p hp] at hboth ⊢
    have hk1 : k ≠ 1 := by
      rintro rfl
      exact h.window hboth.2
    have hne : frameOf (s.phys (s.cr3 0) k) ≠ s.cr3 0 := h.tidy.inOrder.table_ne k hk hk1 hboth.1
    have hm : Marked s.blocks (frameOf (s.phys (s.cr3 0) k)) := h.tidy.inOrder.table_marked k hk hboth.1
    simp [hne, hm]
  · intro p k l hp hk hl hkl hbothk hbothl
    rw [hactive p hp] at hbothk hbothl ⊢
    exact h.tidy.tables_ne k l hk hl hkl hbothk.1 hbothl.1
  · intro p k hp hk hk1 hpresent hglobal
    rw [hactive p hp] at hpresent hglobal
    exact absurd (h.tables k hk hk1 hpresent) hglobal
  · intro p k f j htable
    by_cases hf : f = s.cr3 0
    · simp [hf] at htable
    · by_cases hm : Marked s.blocks f
      · simp [hf, hm] at htable
      · simp [hf, hm] at htable

/-- The uses along a run. -/
theorem processes_separate {s₀ : ProcMemory} {ops : List ProcOp} (h : s₀.Alone) (hblank : s₀.Blank)
    (hops : processes.Steps ProcMemory.Allowed s₀ ops) (hrun : processes.exec s₀ ops = some s) :
    ∃ use, Separate s use := by
  refine Machine.States.last (P := fun s => ∃ use, Separate s use) ?_ hrun
  apply Machine.states_of_steps (I := fun s => ∃ use, Separate s use) (fun _ hs => hs) _
    (h.separate hblank) hops
  rintro s op s' ⟨use, hs⟩ hok hstep
  obtain ⟨use', hs', -⟩ := hs.step hok hstep
  exact ⟨use', hs'⟩

/-- What is done in other address spaces leaves the frames of process `q` alone. -/
theorem Separate.run {q : Fin 16} {ops : List ProcOp} (h : Separate s use)
    (hops : processes.Steps (fun s op => s.Allowed op ∧ s.loaded ≠ q) s ops)
    (hrun : processes.exec s ops = some s') :
    ∃ use', Separate s' use' ∧ (∀ r, s.cr3 r ≠ 0 → s'.cr3 r = s.cr3 r) ∧
      ∀ f, (use f).owner = some q → use' f = use f ∧ s'.phys f = s.phys f := by
  induction ops generalizing s use with
  | nil =>
    cases hrun
    exact ⟨use, h, fun _ _ => rfl, fun _ _ => ⟨rfl, rfl⟩⟩
  | cons op ops ih =>
    obtain ⟨⟨hok, hother⟩, hrest⟩ := hops
    rw [Machine.exec_cons] at hrun
    obtain ⟨s₁, hstep, hrun⟩ := Option.bind_eq_some_iff.mp hrun
    obtain ⟨use₁, h₁, hkeeps⟩ := h.step hok hstep
    obtain ⟨use', h', hcr3, hframes⟩ := ih h₁ (hrest s₁ hstep) hrun
    refine ⟨use', h', ?_, ?_⟩
    · intro r hr
      have hcr3₁ := hkeeps.cr3 r hr
      rw [hcr3 r (by rw [hcr3₁]; exact hr), hcr3₁]
    · intro f howner
      obtain ⟨huse₁, hphys₁⟩ := hkeeps.kept q f hother.symm howner
      obtain ⟨huse', hphys'⟩ := hframes f (by rw [huse₁]; exact howner)
      exact ⟨huse'.trans huse₁, hphys'.trans hphys₁⟩

/-- The entries of its private pages are among them. -/
theorem Separate.run_entries {q : Fin 16} {ops : List ProcOp} (h : Separate s use) (hactive : s.cr3 q ≠ 0)
    (hops : processes.Steps (fun s op => s.Allowed op ∧ s.loaded ≠ q) s ops)
    (hrun : processes.exec s ops = some s') :
    (∀ i, (s'.space q).pdeOf i = (s.space q).pdeOf i) ∧
      ∀ i, i < 1048576 → i / 1024 ≠ 1 → Present ((s.space q).pdeOf i) → ¬ Global ((s.space q).pdeOf i) →
        (s'.space q).pteOf i = (s.space q).pteOf i := by
  obtain ⟨use', -, hcr3, hframes⟩ := h.run hops hrun
  have hdir : s'.phys (s'.cr3 q) = s.phys (s.cr3 q) := by
    obtain ⟨host, hdir⟩ := h.dir q hactive
    rw [hcr3 q hactive]
    exact (hframes _ (by rw [hdir]; rfl)).2
  have hpde : ∀ i, (s'.space q).pdeOf i = (s.space q).pdeOf i := fun i => congrFun hdir (i / 1024)
  refine ⟨hpde, ?_⟩
  intro i hi hwindow hpresent hglobal
  have htable : use (frameOf ((s.space q).pdeOf i)) = .table q (i / 1024) :=
    h.own q (i / 1024) hactive (by omega) hwindow hpresent hglobal
  show s'.phys (frameOf ((s'.space q).pdeOf i)) (i % 1024) = s.phys (frameOf ((s.space q).pdeOf i)) (i % 1024)
  rw [hpde]
  exact congrFun (hframes _ (by rw [htable]; rfl)).2 _

end

/-! ## After the boot -/

/-- Room can be counted. -/
theorem ProcMemory.Room.of_card {m : AddressSpace} {page n : Nat} (habove : 2048 ≤ page)
    (hshared : ∀ q, q < n → ¬ Shared (m.pdeOf (page + q))) (hcard : n + 1055 ≤ (freeFrames m.blocks).card) :
    Room m page n := by
  refine ⟨habove, hshared, ?_⟩
  have hmissing := Finset.card_filter_le (Finset.range 1024) (m.Missing page n)
  rw [Finset.card_range] at hmissing
  rw [Enough, AddressSpace.missing]
  split
  · omega
  · omega

/-- There is a random number 0. -/
theorem rand_neZero : NeZero 256 := inferInstance

section

attribute [local instance] pid_neZero rand_neZero

/-- The process of the kernel, in a memory of zeros. -/
def firstProcess : ProcMemory where
  phys := (booted fun _ _ => 0).phys
  blocks := lowUsed
  virtAllocPtr := 0x800000
  cr3 p := if p = 0 then 257 else 0
  loaded := 0

theorem alone_firstProcess : firstProcess.Alone where
  others p := by
    rw [show firstProcess.cr3 p = if p = 0 then 257 else 0 from rfl]
    split
    case isTrue h => exact iff_of_true (by decide) h
    case isFalse h => exact iff_of_false (fun hne => hne rfl) h
  loaded := rfl
  low b hb := if_pos hb
  tidy := by
    have hok : (booted fun _ _ => 0).RangeOk 1 0x800000 :=
      rangeOk_booted _ (by decide) (by decide) (by decide)
    exact hok.tidy
  window := by decide +kernel
  tables k _ hk1 hpresent := by
    have hpresent' : Present ((booted fun _ _ => 0).phys (booted fun _ _ => 0).dir k) := hpresent
    obtain ⟨-, hk⟩ := booted_present hpresent'
    have hk0 : k = 0 := by omega
    subst hk0
    decide +kernel

theorem blank_firstProcess : firstProcess.Blank := by
  intro f hf j
  have hle : ¬ f < 1024 := fun hlt => hf ((marked_lowUsed f).mpr hlt)
  have hzero : firstProcess.phys f j = 0 := by
    show (booted fun _ _ => 0).phys f j = 0
    simp only [booted]
    rw [if_neg (by omega), if_neg (by omega)]
  rw [hzero]
  decide

/-- It has made another process, which has allocated a page. -/
def mappedPage : ProcMemory :=
  let s := firstProcess.spawned (fun _ => 40) 1
  s.leave ((s.space s.loaded).virtAllocPages 1 0x40000000 pageUserData fun _ => 40).1

/-- That process has stored to its page. -/
def storedPage : ProcMemory := mappedPage.leave ((mappedPage.space mappedPage.loaded).storeAt 262144 3 7)

theorem step_store {i : Nat} (h : (s.space s.loaded).UserWritable i) (j : Nat) (val : UInt32) :
    processes.step s (.store i j val) = some (s.leave ((s.space s.loaded).storeAt i j val)) := if_pos h

theorem Separate.step_spawn {use : Nat → Use} {rand : Nat → Fin 256} (h : Separate s use) (newPid : Fin 16)
    (hok : s.Allowed (.spawn rand)) (hfind : (List.finRange 16).find? (fun p => s.cr3 p = 0) = some newPid)
    (hnew : newPid ≠ 0) : processes.step s (.spawn rand) = some (s.spawned rand newPid) ∧
      (∃ use', Separate (s.spawned rand newPid) use') ∧
      (freeFrames s.blocks).card ≤ (freeFrames (s.spawned rand newPid).blocks).card + 1025 := by
  obtain ⟨hfits, hroom⟩ := hok
  have hstep : s.newUserProcess rand = some (s.spawned rand newPid) := by
    rw [(h.newUserProcess_eq rand hfits hroom).1, hfind, Option.bind_some, if_neg hnew]
  obtain ⟨use', h', -, -, -, -, -, -, hcard⟩ := h.spawn hfits hroom hstep
  exact ⟨hstep, ⟨use', h'⟩, hcard⟩

/-- Up to the store. -/
def firstRun : List ProcOp := [.spawn fun _ => 40, .allocAt 1 0x40000000 fun _ => 40, .store 262144 3 7]

theorem firstRun_spec : processes.Steps ProcMemory.Allowed firstProcess firstRun ∧
    processes.exec firstProcess firstRun = some storedPage ∧ 1038000 ≤ (freeFrames storedPage.blocks).card := by
  obtain ⟨use, h⟩ := alone_firstProcess.separate blank_firstProcess
  have hfree : (freeFrames firstProcess.blocks).card = 1040384 := freeFrames_lowUsed
  have hspawn : firstProcess.Allowed (.spawn fun _ => 40) :=
    ⟨by decide, .of_card (by decide) (by decide +kernel) (Nat.le_trans (by decide) (Nat.le_of_eq hfree.symm))⟩
  obtain ⟨heq, ⟨use₁, h₁⟩, hcard⟩ := h.step_spawn 1 hspawn (by decide +kernel) (by decide)
  have hroom : ProcMemory.Room ((firstProcess.spawned (fun _ => 40) 1).space 1) 262144 1 :=
    .of_card (by decide) (by decide +kernel) (by
      show 1 + 1055 ≤ (freeFrames (firstProcess.spawned (fun _ => 40) 1).blocks).card
      omega)
  obtain ⟨m, -, frames, hrun, hall, hlen, -⟩ := h₁.alloc (fun _ => 40) 0x40000000 (by decide : (1 : UInt32) ≠ 0)
    (by decide) hroom pageUserData_lt present_pageUserData (by decide)
  obtain rfl : _ = m := congrArg Prod.fst hrun
  have hcard' : (freeFrames (firstProcess.spawned (fun _ => 40) 1).blocks).card ≤
      (freeFrames storedPage.blocks).card + frames.length + 1024 := hall.card_freeFrames
  rw [show frames.length = 1 from hlen] at hcard'
  have hwritable : (mappedPage.space mappedPage.loaded).UserWritable 262144 := by decide +kernel
  refine ⟨⟨hspawn, fun s hs => ?_⟩, ?_, by omega⟩
  · obtain rfl := Option.some.inj (heq.symm.trans hs)
    refine ⟨⟨by decide, by decide, hroom⟩, fun s hs => ?_⟩
    obtain rfl : mappedPage = s := Option.some.inj hs
    exact ⟨⟨by decide, by decide, by decide, by decide +kernel, by decide +kernel⟩, fun _ _ => trivial⟩
  · rw [firstRun, Machine.exec_cons, heq, Option.bind_some, Machine.exec_cons,
      show processes.step (firstProcess.spawned (fun _ => 40) 1) (.allocAt 1 0x40000000 fun _ => 40) =
        some mappedPage from rfl,
      Option.bind_some, Machine.exec_cons, step_store hwritable]
    rfl

/-- While the second process is loaded, a third one is made, which allocates and stores in its turn. -/
def thirdProcess : ProcMemory := storedPage.spawned (fun _ => 40) 2

def secondRun : List ProcOp := [.allocAt 1 0x40000000 fun _ => 40, .store 262144 3 9, .setProc 1]

theorem secondRun_spec : storedPage.Allowed (.spawn fun _ => 40) ∧
    processes.step storedPage (.spawn fun _ => 40) = some thirdProcess ∧
    processes.Steps (fun s op => s.Allowed op ∧ s.loaded ≠ 1) thirdProcess secondRun ∧
    ∃ s', processes.exec thirdProcess secondRun = some s' := by
  obtain ⟨hallowed, hexec, hfree⟩ := firstRun_spec
  obtain ⟨use, h⟩ := processes_separate alone_firstProcess blank_firstProcess hallowed hexec
  have hspawn : storedPage.Allowed (.spawn fun _ => 40) :=
    ⟨by decide +kernel, .of_card (by decide +kernel) (by decide +kernel) (Nat.le_trans (by decide) hfree)⟩
  obtain ⟨heq, ⟨use', h'⟩, hcard⟩ := h.step_spawn 2 hspawn (by decide +kernel) (by decide)
  have hroom : ProcMemory.Room (thirdProcess.space 2) 262144 1 :=
    .of_card (by decide) (by decide +kernel) (by
      show 1 + 1055 ≤ (freeFrames (storedPage.spawned (fun _ => 40) 2).blocks).card
      omega)
  obtain ⟨s, hs⟩ : ∃ s, processes.step thirdProcess (.allocAt 1 0x40000000 fun _ => 40) = some s := ⟨_, rfl⟩
  have hwritable : (s.space s.loaded).UserWritable 262144 := by
    obtain rfl := Option.some.inj hs
    decide +kernel
  refine ⟨hspawn, heq, ⟨⟨⟨by decide, by decide, hroom⟩, by decide⟩, fun s₁ hs₁ => ?_⟩, ?_⟩
  · obtain rfl := Option.some.inj (hs.symm.trans hs₁)
    have hstored := step_store hwritable 3 9
    obtain rfl := Option.some.inj hs
    refine ⟨⟨⟨by decide, by decide, by decide, by decide +kernel, by decide +kernel⟩, by decide⟩,
      fun s₁ hs₁ => ?_⟩
    obtain rfl := Option.some.inj (hstored.symm.trans hs₁)
    exact ⟨⟨show thirdProcess.cr3 1 ≠ 0 by decide +kernel, show (2 : Fin 16) ≠ 1 by decide⟩, fun _ _ => trivial⟩
  · rw [secondRun, Machine.exec_cons, hs, Option.bind_some, Machine.exec_cons, step_store hwritable]
    exact ⟨_, rfl⟩

end

end Shipwreck.Memory
