import Shipwreck.Memory.Allocation
import Shipwreck.Memory.Boot

/-!
# The rights of allocated pages

An access is allowed if both the directory entry and the entry of the page allow it. `virt_alloc_pages`
gives the attributes it is called with to the pages, and to the page tables that it makes for them; a
page table that is there already keeps the rights of the call that made it. The bump pointer is shared
by all calls, so that a user's pages come to lie in a region of 4 MB that a kernel stack was the first
to touch: `alloc_rights` says in which runs this does not happen.
-/

namespace Shipwreck.Memory

/-- `PageMapEntry::write` -/
def Writable (val : UInt32) : Prop := val.toNat / 2 % 2 = 1

/-- `PageMapEntry::user` -/
def ForUser (val : UInt32) : Prop := val.toNat / 4 % 2 = 1

instance (val : UInt32) : Decidable (Writable val) := inferInstanceAs (Decidable (_ = _))

instance (val : UInt32) : Decidable (ForUser val) := inferInstanceAs (Decidable (_ = _))

section

variable {frame : Nat} {attributes : UInt32} (hframe : frame < 1048576) (hattr : attributes.toNat < 4096)

include hframe hattr

theorem writable_entryOf : Writable (entryOf frame attributes) ↔ Writable attributes := by
  rw [Writable, Writable, AddressSpace.toNat_entryOf hframe hattr]
  omega

theorem forUser_entryOf : ForUser (entryOf frame attributes) ↔ ForUser attributes := by
  rw [ForUser, ForUser, AddressSpace.toNat_entryOf hframe hattr]
  omega

end

namespace AddressSpace

/-- Page `i` can be written, and read by users, exactly if the attributes say so. -/
def HasRights (m : AddressSpace) (i : Nat) (attributes : UInt32) : Prop :=
  (Writable (m.pdeOf i) ∧ Writable (m.pteOf i) ↔ Writable attributes) ∧
    (ForUser (m.pdeOf i) ∧ ForUser (m.pteOf i) ↔ ForUser attributes)

instance (m : AddressSpace) (i : Nat) (attributes : UInt32) : Decidable (m.HasRights i attributes) :=
  inferInstanceAs (Decidable (_ ∧ _))

variable {m m' : AddressSpace} {attributes : UInt32} {rand : Nat → Fin 256} {s s' : Scan}
  {frames : List Nat} {page n : Nat}

/-! ## One call -/

/-- What is left of `m` after the pages from `page` on have been given frames: directory entries that
were present, and words outside the directory that have not become entries with these attributes. -/
structure Extends (m m' : AddressSpace) (page n : Nat) (attributes : UInt32) : Prop where
  inOrder : m'.InOrder m'.blocks
  dir : m'.dir = m.dir
  ptr : m'.virtAllocPtr = m.virtAllocPtr
  pde : ∀ l, l < 1024 → m'.phys m.dir l = m.phys m.dir l ∨
    (¬ Present (m.phys m.dir l) ∧ ∃ t, t < 1048576 ∧ m'.phys m.dir l = entryOf t attributes)
  word : ∀ f j, f ≠ m.dir → m'.phys f j = m.phys f j ∨
    ∃ g, g < 1048576 ∧ m'.phys f j = entryOf g attributes
  pte : ∀ q, q < n → Present (m'.pdeOf (page + q)) ∧ m'.tableOf (page + q) ≠ m.dir ∧
    ∃ g, g < 1048576 ∧ m'.pteOf (page + q) = entryOf g attributes

theorem Extends.refl (h : m.InOrder m.blocks) (page : Nat) (attributes : UInt32) :
    m.Extends m page 0 attributes where
  inOrder := h
  dir := rfl
  ptr := rfl
  pde _ _ := .inl rfl
  word _ _ _ := .inl rfl
  pte _ hq := absurd hq (Nat.not_lt_zero _)

theorem mapFrame_virtAllocPtr (m : AddressSpace) (vaddr : UInt32) (frame : Nat) (attributes : UInt32)
    (start : Fin 256) : (m.mapFrame vaddr frame attributes start).virtAllocPtr = m.virtAllocPtr := by
  simp only [mapFrame, mapTo, ensurePte]
  by_cases hp : Present ((m.showLocked (frame / 32)).getPde (vaddr >>> 22).toNat)
  · simp only [hp, if_true]
    rfl
  · simp only [hp, if_false]
    rcases (m.showLocked (frame / 32)).lockNextPage_spec start with
      ⟨-, hnone⟩ | ⟨table, -, -, -, hsome⟩
    · rw [hnone]
      rfl
    · rw [hsome]
      rfl

/-- The first page, and then the others. -/
theorem Extends.cons {m₁ : AddressSpace} {frame : Nat} {start : Fin 256} (hpage : page < 1048576)
    (hframe : frame < 1048576) (hattr : attributes.toNat < 4096) (hpresent : Present attributes)
    (hptr : m₁.virtAllocPtr = m.virtAllocPtr) (he : m.Entered m₁ page frame attributes)
    (ht : m.TableStep m₁ (page / 1024) frame attributes start)
    (h : m₁.Extends m' (page + 1) n attributes) : m.Extends m' page (n + 1) attributes := by
  have hdir := he.dir
  have hpres := ht.present_after hattr hpresent
  -- the directory entry stays as the first step has left it
  have hkeep : m'.phys m.dir (page / 1024) = m₁.phys m.dir (page / 1024) := by
    have hlater := h.pde (page / 1024) (by omega)
    rw [hdir] at hlater
    rcases hlater with heq | ⟨hnot, -⟩
    · exact heq
    · exact absurd hpres hnot
  refine ⟨h.inOrder, h.dir.trans hdir, h.ptr.trans hptr, ?_, ?_, ?_⟩
  · intro l hl
    by_cases hlk : l = page / 1024
    · rw [hlk, hkeep]
      exact ht.pde.imp_left And.right
    · have hlater := h.pde l hl
      rw [hdir, he.pde_other l hlk] at hlater
      exact hlater
  · intro f j hf
    have hlater := h.word f j (by rw [hdir]; exact hf)
    rcases hlater with heq | hnew
    · by_cases hword : f = m₁.tableOf page ∧ j = page % 1024
      · refine .inr ⟨frame, hframe, ?_⟩
        rw [heq, hword.1, hword.2]
        exact he.entry
      · exact .inl (heq.trans (he.other f j hf hword))
    · exact .inr hnew
  · intro q hq
    by_cases hq0 : q = 0
    · subst hq0
      have htable : m'.tableOf page = m₁.tableOf page := by
        rw [tableOf, tableOf, pdeOf, pdeOf, h.dir, hdir, hkeep]
      rw [Nat.add_zero, pdeOf, pteOf, h.dir, hdir, hkeep, htable]
      refine ⟨hpres, he.table_ne, ?_⟩
      rcases h.word (m₁.tableOf page) (page % 1024) (by rw [hdir]; exact he.table_ne) with heq | hnew
      · exact ⟨frame, hframe, heq.trans he.entry⟩
      · exact hnew
    · have hlater := h.pte (q - 1) (by omega)
      rw [hdir, show page + 1 + (q - 1) = page + q by omega] at hlater
      exact hlater

/-- All turns of a call, above the window. -/
theorem Takes.extends (h : Takes rand attributes s frames s') (page : Nat) (hin : s.mem.InOrder s.mem.blocks)
    (hattr : attributes.toNat < 4096) (hpresent : Present attributes)
    (haddr : s.virtAddr.toNat / 4096 = page % 1048576) (habove : 2048 ≤ page)
    (hfits : page + frames.length ≤ 1048576) :
    s.mem.Extends s'.mem page frames.length attributes := by
  induction h generalizing page with
  | nil s => exact .refl hin page attributes
  | @cons s s' frame frames hlt hfree hrest ih =>
    rw [List.length_cons] at hfits ⊢
    have hpage : s.virtAddr.toNat / 4096 = page := by omega
    obtain ⟨he, ht⟩ := hin.mapFrame_spec s.virtAddr (by omega) hattr frame (rand s.draws)
    rw [hpage] at he ht
    refine .cons (by omega) hlt hattr hpresent (s.mem.mapFrame_virtAllocPtr ..) he ht ?_
    refine ih (page + 1) (hin.entered (by omega) hattr he ht) ?_ (by omega) (by omega)
    have hnext : (s.takeFrame rand attributes frame).virtAddr = s.virtAddr + 4096 := rfl
    have h4096 : (4096 : UInt32).toNat = 4096 := rfl
    rw [hnext, UInt32.toNat_add, h4096]
    omega

/-- The directory entries above the window, all of which have been made by `ensure_pte`. -/
structure Above (m : AddressSpace) : Prop where
  inOrder : m.InOrder m.blocks
  ptr : 0x800000 ≤ m.virtAllocPtr.toNat
  writable : ∀ k, 2 ≤ k → k < 1024 → Present (m.phys m.dir k) → Writable (m.phys m.dir k)

theorem Extends.above (h : m.Extends m' page n attributes) (habove : m.Above)
    (hattr : attributes.toNat < 4096) (hwrite : Writable attributes) : m'.Above where
  inOrder := h.inOrder
  ptr := by
    rw [h.ptr]
    exact habove.ptr
  writable k hk hk' hp := by
    rw [h.dir] at hp ⊢
    rcases h.pde k hk' with heq | ⟨-, t, ht, heq⟩
    · rw [heq] at hp ⊢
      exact habove.writable k hk hk' hp
    · rw [heq, writable_entryOf ht hattr]
      exact hwrite

/-- The pages have the rights asked for if the directory entries that were there give them. -/
theorem Extends.hasRights (h : m.Extends m' page n attributes) (habove : m.Above)
    (hattr : attributes.toNat < 4096) (hwrite : Writable attributes) (hpage : 2048 ≤ page)
    (hfits : page + n ≤ 1048576)
    (huser : ForUser attributes → ∀ q, q < n → Present (m.pdeOf (page + q)) →
      ForUser (m.pdeOf (page + q))) {q : Nat} (hq : q < n) : m'.HasRights (page + q) attributes := by
  obtain ⟨hp, -, g, hg, hpte⟩ := h.pte q hq
  have hboth : Writable (m'.pdeOf (page + q)) ∧
      (ForUser attributes → ForUser (m'.pdeOf (page + q))) := by
    rw [pdeOf, h.dir] at hp ⊢
    rcases h.pde ((page + q) / 1024) (by omega) with heq | ⟨-, t, ht, heq⟩
    · rw [heq] at hp ⊢
      exact ⟨habove.writable _ (by omega) (by omega) hp, fun hu => huser hu q hq hp⟩
    · rw [heq, writable_entryOf ht hattr, forUser_entryOf ht hattr]
      exact ⟨hwrite, id⟩
  obtain ⟨hpdeWrite, hpdeUser⟩ := hboth
  rw [HasRights, hpte, writable_entryOf hg hattr, forUser_entryOf hg hattr]
  refine ⟨⟨And.right, fun hw => ⟨hpdeWrite, hw⟩⟩, ⟨And.right, fun hu => ⟨hpdeUser hu, hu⟩⟩⟩

end AddressSpace

open AddressSpace

/-- A call of `virt_alloc_pages` for a user or for the kernel, with what `prand() % 256` returns. -/
structure AllocCall where
  pages : UInt32
  user : Bool
  rand : Nat → Fin 256

/-- `PAGE_USER_DATA` or `PAGE_KERNEL_DATA` -/
def AllocCall.attributes (c : AllocCall) : UInt32 := if c.user then pageUserData else pageKernelData

def AllocCall.run (c : AllocCall) (m : AddressSpace) : AddressSpace × UInt32 :=
  m.virtAllocPagesAnywhere c.pages c.attributes c.rand

/-- Sequences of calls, from an address space without page tables above the window. -/
def allocCalls : Machine AddressSpace AllocCall where
  init m := m.InOrder m.blocks ∧ 0x800000 ≤ m.virtAllocPtr.toNat ∧
    ∀ k, 2 ≤ k → k < 1024 → ¬ Present (m.phys m.dir k)
  step m c := some (c.run m).1

/-- If the call is successful, its pages have the rights it asks for. -/
def GivesRights (m : AddressSpace) (c : AllocCall) : Prop :=
  (c.run m).2 ≠ 0 → ∀ q, q < c.pages.toNat →
    (c.run m).1.HasRights ((c.run m).2.toNat / 4096 + q) c.attributes

/-- The pages asked for are at least one, and exist; and if they are a user's, the page tables that are
there already are users' too. -/
def RegionsOk (m : AddressSpace) (c : AllocCall) : Prop :=
  c.pages ≠ 0 ∧ m.virtAllocPtr.toNat + c.pages.toNat * 4096 < 4294967296 ∧
    (c.user = true → ∀ q, q < c.pages.toNat →
      Present (m.pdeOf (m.virtAllocPtr.toNat / 4096 + q)) →
        ForUser (m.pdeOf (m.virtAllocPtr.toNat / 4096 + q)))

instance (m : AddressSpace) (c : AllocCall) : Decidable (RegionsOk m c) :=
  inferInstanceAs (Decidable (_ ∧ _ ∧ (_ → ∀ q, q < c.pages.toNat → _)))

instance (m : AddressSpace) (c : AllocCall) : Decidable (GivesRights m c) :=
  inferInstanceAs (Decidable (_ → ∀ q, q < c.pages.toNat → _))

namespace AllocCall

variable {m : AddressSpace}

theorem attributes_spec (c : AllocCall) : c.attributes.toNat < 4096 ∧ Present c.attributes ∧
    Writable c.attributes ∧ (ForUser c.attributes → c.user = true) := by
  unfold attributes
  cases c.user
  · decide
  · decide

/-- **One call.** -/
theorem step (c : AllocCall) (h : m.Above) (hok : RegionsOk m c) :
    GivesRights m c ∧ (c.run m).1.Above := by
  obtain ⟨hpages, hfits, hregions⟩ := hok
  obtain ⟨hattr, hpresent, hwrite, huser⟩ := c.attributes_spec
  have hptr := h.ptr
  have h4096 : (4096 : UInt32).toNat = 4096 := rfl
  have hbytes : (m.virtAllocPtr + c.pages * 4096).toNat =
      m.virtAllocPtr.toNat + c.pages.toNat * 4096 := by
    rw [UInt32.toNat_add, UInt32.toNat_mul, h4096]
    omega
  obtain ⟨m₁, hm₁⟩ : ∃ m₁ : AddressSpace,
    m₁ = { m with virtAllocPtr := m.virtAllocPtr + c.pages * 4096 } := ⟨_, rfl⟩
  have habove₁ : m₁.Above := by
    subst hm₁
    refine ⟨⟨h.inOrder.self, h.inOrder.dir_marked, h.inOrder.dir_pos, h.inOrder.zero_marked,
      h.inOrder.table_marked, h.inOrder.table_ne⟩, ?_, h.writable⟩
    show 0x800000 ≤ (m.virtAllocPtr + c.pages * 4096).toNat
    omega
  have hpde : ∀ i, m₁.pdeOf i = m.pdeOf i := by
    subst hm₁
    exact fun _ => rfl
  have hrun : c.run m = m₁.virtAllocPages c.pages m.virtAllocPtr c.attributes c.rand := by
    rw [run, virtAllocPagesAnywhere, nextVirtualPages_eq hpages hfits, hm₁]
  have hgo := toGo_callStart m₁ m.virtAllocPtr hpages
  rw [GivesRights, hrun]
  rcases m₁.virtAllocPages_spec c.pages m.virtAllocPtr c.attributes c.rand with
    ⟨-, heq⟩ | ⟨frames, s', htakes, hres⟩
  · rw [heq]
    refine ⟨fun hnull => absurd rfl hnull, ?_⟩
    exact ⟨habove₁.inOrder.showLocked 0, habove₁.ptr, habove₁.writable⟩
  · have hle : frames.length ≤ c.pages.toNat := by
      rcases hres with ⟨hlen, -⟩ | ⟨hlen, -, -⟩
      · omega
      · omega
    -- the frames that were taken are mapped, whether or not they were enough
    have hext := htakes.extends (m.virtAllocPtr.toNat / 4096) habove₁.inOrder hattr hpresent
      (by
        show m.virtAllocPtr.toNat / 4096 = _
        omega) (by omega) (by omega)
    have habove := hext.above habove₁ hattr hwrite
    rcases hres with ⟨hlen, heq⟩ | ⟨-, -, heq⟩
    · rw [heq]
      refine ⟨fun _ q hq => ?_, habove⟩
      refine hext.hasRights habove₁ hattr hwrite (by omega) (by omega) ?_ (by omega)
      intro hu q hq hp
      have hp' : Present (m₁.pdeOf (m.virtAllocPtr.toNat / 4096 + q)) := hp
      show ForUser (m₁.pdeOf (m.virtAllocPtr.toNat / 4096 + q))
      rw [hpde] at hp' ⊢
      exact hregions (huser hu) q (by omega) hp'
    · rw [heq]
      exact ⟨fun hnull => absurd rfl hnull, habove⟩

end AllocCall

/-- **Allocated pages have the rights asked for** in every run in which no user's page comes to lie in a
region that has a page table of the kernel. -/
theorem alloc_rights (m : AddressSpace) (h : allocCalls.init m) (calls : List AllocCall)
    (hok : allocCalls.Steps RegionsOk m calls) : allocCalls.Steps GivesRights m calls := by
  have habove : m.Above := by
    obtain ⟨hin, hptr, hnone⟩ := h
    exact ⟨hin, hptr, fun k hk hk' hp => absurd hp (hnone k hk hk')⟩
  apply Machine.steps_of_steps (I := Above) _ _ habove hok
  · intro m c hm hc
    exact (c.step hm hc).1
  · intro m c m' hm hc hstep
    cases hstep
    exact (c.step hm hc).2

theorem allocCalls_init_booted (phys : Nat → Nat → UInt32) : allocCalls.init (booted phys) := by
  refine ⟨booted_inOrder phys, Nat.le_refl _, ?_⟩
  intro k hk _ hp
  have hlow := (booted_present hp).2
  omega

/-- Three pages of a user, two of the kernel, and one more of the user in the same region. -/
theorem alloc_rights_example :
    allocCalls.Steps GivesRights (booted fun _ _ => 0)
      [⟨3, true, fun _ => 40⟩, ⟨2, false, fun _ => 41⟩, ⟨1, true, fun _ => 7⟩] :=
  alloc_rights _ (allocCalls_init_booted _) _ (by decide +kernel)

/-- A system call stack first, and then a page of a user: which the user cannot read. -/
theorem user_page_unreadable : ¬ ∀ (m : AddressSpace) (calls : List AllocCall), allocCalls.init m →
    allocCalls.Steps GivesRights m calls := by
  intro hall
  have h := hall _ [⟨16, false, fun _ => 40⟩, ⟨1, true, fun _ => 40⟩]
    (allocCalls_init_booted fun _ _ => 0)
  revert h
  decide +kernel

end Shipwreck.Memory
