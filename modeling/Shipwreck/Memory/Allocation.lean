import Shipwreck.Memory.Mapping
import Shipwreck.Memory.Reserve

/-!
# What a call of `virt_alloc_pages` does

The loop of `virt_alloc_pages` maps one free frame after the other. The block that it walks through is
locked: it looks full to `phys_alloc_page`, which is called for page tables in between, and its true
bits are in the local variable `locked_bits`. Seen with these bits in their place, a turn of the loop is
`Scan.takeFrame`, and a call is a sequence of turns (`Takes`) that ends when the countdown reaches 0 or
when the bitmap is full (`virtAllocPages_spec`).

The countdown is decremented before it is tested. From 0 it takes 2^32 turns.
-/

namespace Shipwreck.Memory

namespace AddressSpace

/-- The memory as others see it while block `b` is locked. -/
def showLocked (m : AddressSpace) (b : Nat) : AddressSpace :=
  { m with blocks := Function.update m.blocks b full }

/-- `map_to` of a free frame whose block is locked, and the bit that is then set in `locked_bits`. -/
def mapFrame (m : AddressSpace) (vaddr : UInt32) (frame : Nat) (attributes : UInt32)
    (start : Fin 256) : AddressSpace :=
  let mapped := (m.showLocked (frame / 32)).mapTo vaddr frame attributes start
  { mapped with
    blocks := Function.update mapped.blocks (frame / 32) (m.blocks (frame / 32) ||| bit (frame % 32)) }

/-- One turn of the loop. -/
def Scan.takeFrame (rand : Nat → Fin 256) (attributes : UInt32) (s : Scan) (frame : Nat) : Scan where
  mem := s.mem.mapFrame s.virtAddr frame attributes (rand s.draws)
  virtAddr := s.virtAddr + 4096
  pagesLeft := s.pagesLeft - 1
  draws := s.draws + 1

/-- From `s` to `s'` these frames have been mapped, each of which was free when it came to it. -/
inductive Takes (rand : Nat → Fin 256) (attributes : UInt32) : Scan → List Nat → Scan → Prop where
  | nil (s : Scan) : Takes rand attributes s [] s
  | cons {s s' : Scan} {frame : Nat} {frames : List Nat} (hlt : frame < 1048576)
      (hfree : ¬ Marked s.mem.blocks frame)
      (hrest : Takes rand attributes (s.takeFrame rand attributes frame) frames s') :
      Takes rand attributes s (frame :: frames) s'

/-- How many turns it takes until the countdown is 0. -/
def Scan.toGo (s : Scan) : Nat := (s.pagesLeft - 1).toNat + 1

variable {m : AddressSpace} {rand : Nat → Fin 256} {attributes vaddr : UInt32} {start : Fin 256}
  {s s' : Scan} {frame b : Nat} {frames : List Nat}

theorem showLocked_blocks (m : AddressSpace) (b : Nat) :
    (m.showLocked b).blocks = Function.update m.blocks b full := rfl

theorem marked_showLocked {f : Nat} (h : Marked m.blocks f) : Marked (m.showLocked b).blocks f := by
  rw [showLocked_blocks, marked_update]
  split
  case isTrue =>
    rw [full, BitVec.getLsbD_allOnes]
    exact decide_eq_true (Nat.mod_lt _ (by decide))
  case isFalse => exact h

theorem InOrder.showLocked (h : m.InOrder m.blocks) (b : Nat) :
    (m.showLocked b).InOrder (m.showLocked b).blocks := by
  have hin : m.InOrder (m.showLocked b).blocks := h.mono fun _ hf => marked_showLocked hf
  exact ⟨hin.self, hin.dir_marked, hin.dir_pos, hin.zero_marked, hin.table_marked, hin.table_ne⟩

/-- `map_to` marks a frame for a page table, or none. -/
theorem mapTo_blocks (m : AddressSpace) (vaddr : UInt32) (frame : Nat) (attributes : UInt32)
    (start : Fin 256) :
    (m.mapTo vaddr frame attributes start).blocks = m.blocks ∨
      ∃ table, ¬ Marked m.blocks table ∧
        (m.mapTo vaddr frame attributes start).blocks = markFrame m.blocks table := by
  simp only [mapTo, ensurePte]
  by_cases hp : Present (m.getPde (vaddr >>> 22).toNat)
  · simp only [hp, if_true]
    exact .inl rfl
  · simp only [hp, if_false]
    rcases m.lockNextPage_spec start with ⟨-, hnone⟩ | ⟨table, -, -, hfree, hsome⟩
    · rw [hnone]
      exact .inl rfl
    · rw [hsome]
      exact .inr ⟨table, hfree, rfl⟩

theorem markFrame_showLocked {table : Nat} (hne : table / 32 ≠ b) :
    markFrame (m.showLocked b).blocks table = Function.update (markFrame m.blocks table) b full := by
  rw [showLocked_blocks, markFrame, markFrame, Function.update_of_ne hne, Function.update_comm hne]

/-- It does not find a frame in the block that is locked. -/
theorem mapTo_showLocked_blocks (m : AddressSpace) (b : Nat) (vaddr : UInt32) (frame : Nat)
    (attributes : UInt32) (start : Fin 256) :
    ((m.showLocked b).mapTo vaddr frame attributes start).blocks = Function.update m.blocks b full ∨
      ∃ table, table / 32 ≠ b ∧ ¬ Marked m.blocks table ∧
        ((m.showLocked b).mapTo vaddr frame attributes start).blocks =
          Function.update (markFrame m.blocks table) b full := by
  rcases (m.showLocked b).mapTo_blocks vaddr frame attributes start with hsame | ⟨table, hfree, heq⟩
  · exact .inl hsame
  · have hne : table / 32 ≠ b := by
      rintro rfl
      exact hfree (marked_of_full (Function.update_self _ _ _))
    rw [showLocked_blocks, marked_update, if_neg hne] at hfree
    exact .inr ⟨table, hne, hfree, heq.trans (markFrame_showLocked hne)⟩

/-- The block is put back. -/
theorem mapFrame_blocks_of {blocks : Nat → Block} (hsame : blocks (frame / 32) = m.blocks (frame / 32))
    (heq : ((m.showLocked (frame / 32)).mapTo vaddr frame attributes start).blocks =
      Function.update blocks (frame / 32) full) :
    (m.mapFrame vaddr frame attributes start).blocks = markFrame blocks frame := by
  simp only [mapFrame]
  rw [heq, Function.update_idem, ← hsame]
  rfl

theorem markFrame_of_ne {blocks : Nat → Block} {f : Nat} (hne : f / 32 ≠ b) :
    markFrame blocks f b = blocks b := by
  rw [markFrame, Function.update_of_ne (Ne.symm hne)]

theorem mapFrame_blocks (m : AddressSpace) (vaddr : UInt32) (frame : Nat) (attributes : UInt32)
    (start : Fin 256) :
    (m.mapFrame vaddr frame attributes start).blocks = markFrame m.blocks frame ∨
      ∃ table, table / 32 ≠ frame / 32 ∧ ¬ Marked m.blocks table ∧
        (m.mapFrame vaddr frame attributes start).blocks = markFrame (markFrame m.blocks table) frame := by
  rcases m.mapTo_showLocked_blocks (frame / 32) vaddr frame attributes start with
    heq | ⟨table, hne, hfree, heq⟩
  · exact .inl (mapFrame_blocks_of rfl heq)
  · exact .inr ⟨table, hne, hfree, mapFrame_blocks_of (markFrame_of_ne hne) heq⟩

/-- Marked frames stay marked, and the frame itself is. -/
theorem marked_mapFrame {f : Nat} (h : Marked m.blocks f ∨ f = frame) :
    Marked (m.mapFrame vaddr frame attributes start).blocks f := by
  rcases m.mapFrame_blocks vaddr frame attributes start with heq | ⟨table, -, -, heq⟩
  · rw [heq, marked_markFrame]
    exact h
  · rw [heq, marked_markFrame, marked_markFrame]
    exact h.imp_left .inl

theorem Takes.marked {f : Nat} (h : Takes rand attributes s frames s')
    (hf : Marked s.mem.blocks f ∨ f ∈ frames) : Marked s'.mem.blocks f := by
  induction h with
  | nil s =>
    rcases hf with hf | hf
    · exact hf
    · exact absurd hf List.not_mem_nil
  | cons hlt hfree hrest ih =>
    apply ih
    rcases hf with hf | hf
    · exact .inl (marked_mapFrame (.inl hf))
    · exact (List.mem_cons.mp hf).imp_left fun heq => marked_mapFrame (.inr heq)

theorem Takes.append {frames' : List Nat} {s'' : Scan} (h : Takes rand attributes s frames s')
    (h' : Takes rand attributes s' frames' s'') : Takes rand attributes s (frames ++ frames') s'' := by
  induction h with
  | nil s => exact h'
  | cons hlt hfree hrest ih => exact .cons hlt hfree (ih h')

/-! ## The loops -/

/-- A turn of the loop, with the block locked. -/
theorem Scan.mapPage_showLocked (rand : Nat → Fin 256) (attributes : UInt32) (s : Scan) (frame : Nat) :
    (s.setBlock (frame / 32) full).mapPage rand attributes frame =
      (s.takeFrame rand attributes frame).setBlock (frame / 32) full := by
  have hblocks : Function.update
      ((s.mem.showLocked (frame / 32)).mapTo s.virtAddr frame attributes (rand s.draws)).blocks
      (frame / 32) full =
      ((s.mem.showLocked (frame / 32)).mapTo s.virtAddr frame attributes (rand s.draws)).blocks := by
    rcases s.mem.mapTo_showLocked_blocks (frame / 32) s.virtAddr frame attributes (rand s.draws) with
      heq | ⟨table, -, -, heq⟩
    · rw [heq, Function.update_idem]
    · rw [heq, Function.update_idem]
  simp only [Scan.mapPage, Scan.takeFrame, Scan.setBlock, mapFrame, Function.update_idem, hblocks]
  rfl

theorem Scan.setBlock_setBlock (s : Scan) (i : Nat) (bits : Block) :
    (s.setBlock i bits).setBlock i (s.mem.blocks i) = s := by
  simp only [Scan.setBlock, Function.update_idem, Function.update_eq_self]

theorem Scan.setBlock_self {i : Nat} {bits : Block} (h : s.mem.blocks i = bits) :
    s.setBlock i bits = s := by
  rw [Scan.setBlock, ← h, Function.update_eq_self]

/-- The block after a turn, in the variable and in the bitmap. -/
theorem Scan.takeFrame_block (rand : Nat → Fin 256) (attributes : UInt32) (s : Scan) (frame : Nat) :
    (s.takeFrame rand attributes frame).mem.blocks (frame / 32) =
      s.mem.blocks (frame / 32) ||| bit (frame % 32) := by
  simp only [Scan.takeFrame, mapFrame, Function.update_self]

theorem Scan.toGo_takeFrame (rand : Nat → Fin 256) (attributes : UInt32) (frame : Nat)
    (h : s.pagesLeft - 1 ≠ 0) :
    (s.takeFrame rand attributes frame).toGo + 1 = s.toGo := by
  have hpos : (s.pagesLeft - 1).toNat ≠ 0 := fun hzero => h (UInt32.toNat.inj hzero)
  have hlt := (s.pagesLeft - 1).toNat_lt
  simp only [Scan.toGo, Scan.takeFrame]
  rw [UInt32.toNat_sub (s.pagesLeft - 1) 1, UInt32.toNat_one]
  omega

/-- The inner loop from bit `n` on: it takes the frames of its block, until all pages are mapped or the
block is full. -/
theorem scanFrom_takes (rand : Nat → Fin 256) (attributes : UInt32) (left n : Nat) (hb : b < maxBlocks)
    (hn : n + left = 32) (s : Scan)
    (hbelow : ∀ k, k < n → (s.mem.blocks b).getLsbD k = true) :
    ∃ frames s', Takes rand attributes s frames s' ∧
      ((scanFrom rand attributes b left (s.mem.blocks b) (bit n) (b * 32 + n) (s.setBlock b full) =
          (s', true) ∧ frames.length = s.toGo) ∨
        (scanFrom rand attributes b left (s.mem.blocks b) (bit n) (b * 32 + n) (s.setBlock b full) =
          (s', false) ∧ s'.toGo + frames.length = s.toGo ∧ s'.mem.blocks b = full)) := by
  have hmax : maxBlocks = 32768 := rfl
  induction left generalizing n s with
  | zero =>
    have hfull : s.mem.blocks b = full := by
      apply eq_full
      intro k hk
      exact hbelow k (by omega)
    refine ⟨[], s, .nil s, .inr ⟨?_, rfl, hfull⟩⟩
    rw [scanFrom, Scan.setBlock_self hfull]
  | succ left ih =>
    rw [scanFrom]
    by_cases hfull : s.mem.blocks b = full
    · rw [if_pos hfull, Scan.setBlock_self hfull]
      exact ⟨[], s, .nil s, .inr ⟨rfl, rfl, hfull⟩⟩
    · rw [if_neg hfull, bit_succ]
      -- the frame of bit `n` is free: it is taken, and the rest of the block follows
      by_cases hbit : s.mem.blocks b &&& bit n = 0
      · have hclear : (s.mem.blocks b).getLsbD n = false := by
          rw [and_bit_eq_zero_iff] at hbit
          simpa [show n < 32 by omega] using hbit
        obtain ⟨frame, hframe⟩ : ∃ frame, frame = b * 32 + n := ⟨_, rfl⟩
        have hdiv : frame / 32 = b := by omega
        have hmod : frame % 32 = n := by omega
        have hfree : ¬ Marked s.mem.blocks frame := by
          rw [Marked, hdiv, hmod, hclear]
          exact Bool.false_ne_true
        have hturn := s.mapPage_showLocked rand attributes frame
        have hblock := s.takeFrame_block rand attributes frame
        rw [hdiv] at hturn hblock
        rw [hmod] at hblock
        rw [if_pos hbit, ← hframe, hturn, ← hblock]
        simp only
        by_cases hdone : (s.takeFrame rand attributes frame).pagesLeft = 0
        · have hlast : ((s.takeFrame rand attributes frame).setBlock b full).pagesLeft = 0 := hdone
          rw [if_pos hlast, Scan.setBlock_setBlock]
          refine ⟨[frame], _, .cons (by omega) hfree (.nil _), .inl ⟨rfl, ?_⟩⟩
          have hone : s.pagesLeft - 1 = 0 := hdone
          rw [Scan.toGo, hone]
          rfl
        · have hmore : ¬ ((s.takeFrame rand attributes frame).setBlock b full).pagesLeft = 0 := hdone
          rw [if_neg hmore]
          have hgo := Scan.toGo_takeFrame rand attributes frame hdone
          -- the bits below are still set, and bit `n` is now
          obtain ⟨frames, s', htakes, hres⟩ := ih (n + 1) (by omega)
            (s.takeFrame rand attributes frame) (by
              intro k hk
              rw [hblock, getLsbD_or_bit]
              by_cases hkn : k = n
              · simp [hkn, show n < 32 by omega]
              · rw [hbelow k (by omega)]
                rfl)
          rw [hframe] at htakes hres hgo hfree ⊢
          refine ⟨(b * 32 + n) :: frames, s', .cons (by omega) hfree htakes, ?_⟩
          rw [List.length_cons]
          rcases hres with ⟨heq, hlen⟩ | ⟨heq, hlen, hfull'⟩
          · exact .inl ⟨heq, by omega⟩
          · exact .inr ⟨heq, by omega, hfull'⟩
      · rw [if_neg hbit]
        refine ih (n + 1) (by omega) s ?_
        intro k hk
        by_cases hkn : k = n
        · rw [and_bit_eq_zero_iff, Classical.not_not] at hbit
          rw [hkn]
          exact hbit.2
        · exact hbelow k (by omega)

/-- The outer loop passes over full blocks. -/
theorem searchFrom_full (rand : Nat → Fin 256) (attributes : UInt32) (s : Scan) (left i : Nat)
    (h : ∀ b, i ≤ b → b < i + left → s.mem.blocks b = full) :
    searchFrom rand attributes left i s = (s, false) := by
  induction left generalizing i with
  | zero => rfl
  | succ left ih =>
    have hfull := h i (Nat.le_refl i) (by omega)
    simp only [searchFrom, hfull, if_true, Scan.setBlock_self hfull]
    apply ih (i + 1)
    intro b hlo hhi
    exact h b (by omega) (by omega)

/-- It ends at block 0 if this has a free frame. -/
theorem searchFrom_zero (rand : Nat → Fin 256) (attributes : UInt32) (s : Scan) {left : Nat}
    (h : s.mem.blocks 0 ≠ full) :
    searchFrom rand attributes (left + 1) 0 s = (s.setBlock 0 full, false) := by
  rw [searchFrom]
  simp only [h, if_false, if_true]

/-- The outer loop, unless it stands at block 0 and this has a free frame. -/
theorem searchFrom_takes (rand : Nat → Fin 256) (attributes : UInt32) {left i : Nat}
    (hi : i + left ≤ maxBlocks) (s : Scan) (hzero : i = 0 → 0 < left → s.mem.blocks 0 = full) :
    ∃ frames s', Takes rand attributes s frames s' ∧
      ((searchFrom rand attributes left i s = (s', true) ∧ frames.length = s.toGo) ∨
        (searchFrom rand attributes left i s = (s', false) ∧ s'.toGo + frames.length = s.toGo ∧
          ∀ b, i ≤ b → b < i + left → s'.mem.blocks b = full)) := by
  induction left generalizing i s with
  | zero => exact ⟨[], s, .nil s, .inr ⟨rfl, rfl, fun b hlo hhi => absurd hhi (by omega)⟩⟩
  | succ left ih =>
    -- the blocks from `i` on are full when `i` is and those behind it are
    have hcons : ∀ {s' : Scan}, s'.mem.blocks i = full →
        (∀ b, i + 1 ≤ b → b < i + 1 + left → s'.mem.blocks b = full) →
          ∀ b, i ≤ b → b < i + (left + 1) → s'.mem.blocks b = full := by
      intro s' hfull hrest b hlo hhi
      by_cases hbi : b = i
      · rw [hbi]
        exact hfull
      · exact hrest b (by omega) (by omega)
    rw [searchFrom]
    by_cases hfull : s.mem.blocks i = full
    · simp only [hfull, if_true, Scan.setBlock_self hfull]
      obtain ⟨frames, s', htakes, hres⟩ := ih (i := i + 1) (by omega) s fun hi0 => absurd hi0 (by omega)
      refine ⟨frames, s', htakes, hres.imp_right ?_⟩
      rintro ⟨heq, hlen, hrest⟩
      exact ⟨heq, hlen, hcons (full_of_marked_mono (fun f hf => htakes.marked (.inl hf)) hfull) hrest⟩
    · have hi0 : i ≠ 0 := by
        rintro rfl
        exact hfull (hzero rfl (by omega))
      simp only [hfull, hi0, if_false]
      obtain ⟨frames, s₁, htakes, hres⟩ := scanFrom_takes rand attributes 32 0
        (show i < maxBlocks by omega) rfl s fun k hk => absurd hk (Nat.not_lt_zero k)
      rw [Nat.add_zero] at hres
      rcases hres with ⟨heq, hlen⟩ | ⟨heq, hlen, hfull₁⟩
      · rw [heq]
        exact ⟨frames, s₁, htakes, .inl ⟨rfl, hlen⟩⟩
      · rw [heq]
        obtain ⟨frames', s', htakes', hres'⟩ :=
          ih (i := i + 1) (by omega) s₁ fun hi0 => absurd hi0 (by omega)
        refine ⟨frames ++ frames', s', htakes.append htakes', ?_⟩
        rw [List.length_append]
        rcases hres' with ⟨heq', hlen'⟩ | ⟨heq', hlen', hrest⟩
        · exact .inl ⟨heq', by omega⟩
        · refine .inr ⟨heq', by omega, hcons ?_ hrest⟩
          exact full_of_marked_mono (fun f hf => htakes'.marked (.inl hf)) hfull₁

/-- The variables at the beginning of a call. -/
def callStart (m : AddressSpace) (pages address : UInt32) : Scan := ⟨m, address, pages, 1⟩

variable {pages address : UInt32}

theorem toGo_callStart (m : AddressSpace) (address : UInt32) (h : pages ≠ 0) : (callStart m pages address).toGo = pages.toNat := by
  have hpos : pages.toNat ≠ 0 := fun hzero => h (UInt32.toNat.inj hzero)
  have hlt := pages.toNat_lt
  show (pages - 1).toNat + 1 = pages.toNat
  rw [UInt32.toNat_sub, UInt32.toNat_one]
  omega

/-- Every block that a call from block `start` on looks at is full. -/
def FullFrom (blocks : Nat → Block) (start : Nat) : Prop :=
  ∀ b, start ≤ b → b < maxBlocks → blocks b = full

/-- **What a call of `virt_alloc_pages` does**: it takes frames until the countdown is 0, or until there
are none; or it leaves block 0 locked. -/
theorem virtAllocPages_spec (m : AddressSpace) (pages address attributes : UInt32)
    (rand : Nat → Fin 256) :
    ((rand 0 = 0 ∧ m.blocks 0 ≠ full) ∧
        m.virtAllocPages pages address attributes rand = (m.showLocked 0, 0)) ∨
      ∃ frames s', Takes rand attributes (callStart m pages address) frames s' ∧
        ((frames.length = (callStart m pages address).toGo ∧
            m.virtAllocPages pages address attributes rand = (s'.mem, address)) ∨
          (s'.toGo + frames.length = (callStart m pages address).toGo ∧
            FullFrom s'.mem.blocks (rand 0) ∧
            m.virtAllocPages pages address attributes rand = (s'.mem, 0))) := by
  have hstart := (rand 0).isLt
  have hmax : maxBlocks = 32768 := rfl
  have hi : (rand 0).val + (maxBlocks - rand 0) ≤ maxBlocks := by omega
  by_cases hlocked : rand 0 = 0 ∧ m.blocks 0 ≠ full
  · refine .inl ⟨hlocked, ?_⟩
    obtain ⟨hzero, hfull⟩ := hlocked
    obtain ⟨left, hleft⟩ : ∃ left, maxBlocks - (rand 0).val = left + 1 :=
      ⟨maxBlocks - (rand 0).val - 1, by omega⟩
    rw [virtAllocPages, ← callStart, hleft, hzero, Fin.val_zero,
      searchFrom_zero rand attributes (callStart m pages address) hfull]
    rfl
  · obtain ⟨frames, s', htakes, hres⟩ := searchFrom_takes rand attributes hi (callStart m pages address)
      (by
        intro hzero _
        by_contra hfull
        exact hlocked ⟨Fin.ext hzero, hfull⟩)
    refine .inr ⟨frames, s', htakes, ?_⟩
    rcases hres with ⟨heq, hlen⟩ | ⟨heq, hlen, hfull⟩
    · refine .inl ⟨hlen, ?_⟩
      rw [virtAllocPages, ← callStart, heq]
      rfl
    · refine .inr ⟨hlen, ?_, ?_⟩
      · intro b hlo hhi
        exact hfull b hlo (by omega)
      · rw [virtAllocPages, ← callStart, heq]
        rfl

/-- A call that finds no free frame. -/
theorem virtAllocPages_full (h : FullFrom m.blocks (rand 0)) :
    m.virtAllocPages pages address attributes rand = (m, 0) := by
  have hstart := (rand 0).isLt
  have hmax : maxBlocks = 32768 := rfl
  rw [virtAllocPages, ← callStart,
    searchFrom_full rand attributes (callStart m pages address) (maxBlocks - rand 0) (rand 0)
      fun b hlo hhi => h b hlo (by omega)]
  rfl

/-- **A call that marks no frame has found none.** -/
theorem fullFrom_of_marked
    (h : ∀ f, f < 1048576 → Marked (m.virtAllocPages pages address attributes rand).1.blocks f →
      Marked m.blocks f) : FullFrom m.blocks (rand 0) := by
  have hmax : maxBlocks = 32768 := rfl
  have hblock : ∀ b, b < maxBlocks →
      (m.virtAllocPages pages address attributes rand).1.blocks b = full → m.blocks b = full := by
    intro b hb hfull
    by_contra hne
    obtain ⟨f, rfl, hclear⟩ := exists_not_marked hne
    exact hclear (h f (by omega) (marked_of_full hfull))
  rcases m.virtAllocPages_spec pages address attributes rand with
    ⟨⟨-, hne⟩, heq⟩ | ⟨frames, s', htakes, ⟨hlen, heq⟩ | ⟨-, hfull, heq⟩⟩
  · have hfull : (m.showLocked 0).blocks 0 = full := by
      rw [showLocked_blocks, Function.update_self]
    rw [heq] at hblock
    exact absurd (hblock 0 (by omega) hfull) hne
  · -- the first frame is a new one
    rw [heq] at h
    cases htakes with
    | nil => exact absurd hlen.symm (Nat.succ_ne_zero _)
    | cons hlt hfree hrest =>
      refine absurd (h _ hlt ?_) hfree
      exact (Takes.cons hlt hfree hrest).marked (.inr List.mem_cons_self)
  · rw [heq] at hblock
    intro b hlo hhi
    exact hblock b hhi (hfull b hlo hhi)

/-! ## Calls that fail -/

/-- `virt_alloc_pages(pages, attributes)`: "doesn't matter where". -/
def virtAllocPagesAnywhere (m : AddressSpace) (pages attributes : UInt32) (rand : Nat → Fin 256) :
    AddressSpace × UInt32 :=
  let next := m.nextVirtualPages pages
  next.1.virtAllocPages pages next.2 attributes rand

/-- All entries of the directory and of the page tables are the same, and all bits of the bitmap. -/
structure Unchanged (m m' : AddressSpace) : Prop where
  load : ∀ i, i < 1048576 → m'.load i = m.load i
  marked : ∀ f, f < 1048576 → (Marked m'.blocks f ↔ Marked m.blocks f)

theorem nextVirtualPages_fst (m : AddressSpace) (pages : UInt32) :
    (m.nextVirtualPages pages).1.phys = m.phys ∧ (m.nextVirtualPages pages).1.dir = m.dir ∧
      (m.nextVirtualPages pages).1.blocks = m.blocks := by
  rw [m.nextVirtualPages_eq_if]
  by_cases hdiff : pages * 4096 > 0xFFFFFFFF - m.virtAllocPtr
  · rw [if_pos hdiff]
    exact ⟨rfl, rfl, rfl⟩
  · rw [if_neg hdiff]
    exact ⟨rfl, rfl, rfl⟩

theorem unchanged_iff {m₁ : AddressSpace} (hphys : m₁.phys = m.phys) (hdir : m₁.dir = m.dir)
    (hblocks : m₁.blocks = m.blocks) (pages address attributes : UInt32) (rand : Nat → Fin 256) :
    m.Unchanged (m₁.virtAllocPages pages address attributes rand).1 ↔ FullFrom m.blocks (rand 0) := by
  rw [← hblocks]
  constructor
  · intro hsame
    apply fullFrom_of_marked
    intro f hf hmarked
    rw [hblocks]
    exact (hsame.marked f hf).mp hmarked
  · intro hfull
    rw [virtAllocPages_full hfull]
    refine ⟨?_, ?_⟩
    · intro i _
      rw [load, load, word, word, hphys, hdir]
    · intro f _
      rw [hblocks]

/-- **A failed allocation changes nothing** exactly if there was no free frame to begin with. -/
theorem failed_alloc_unchanged_iff (m : AddressSpace) (pages attributes : UInt32)
    (rand : Nat → Fin 256) (_hnull : (m.virtAllocPagesAnywhere pages attributes rand).2 = 0) :
    m.Unchanged (m.virtAllocPagesAnywhere pages attributes rand).1 ↔ FullFrom m.blocks (rand 0) := by
  obtain ⟨hphys, hdir, hblocks⟩ := m.nextVirtualPages_fst pages
  exact unchanged_iff hphys hdir hblocks pages _ attributes rand

/-- All frames are in use. -/
def outOfFrames : AddressSpace := { booted (fun _ _ => 0) with blocks := fun _ => full }

theorem failed_alloc_unchanged_example :
    outOfFrames.Unchanged (outOfFrames.virtAllocPagesAnywhere 5 pageUserData fun _ => 40).1 := by
  have hfull : FullFrom outOfFrames.blocks 40 := fun _ _ _ => rfl
  have hnull : (outOfFrames.virtAllocPagesAnywhere 5 pageUserData fun _ => 40).2 = 0 := by
    obtain ⟨-, -, hblocks⟩ := outOfFrames.nextVirtualPages_fst 5
    rw [virtAllocPagesAnywhere, virtAllocPages_full (by rw [hblocks]; exact hfull)]
  exact (failed_alloc_unchanged_iff outOfFrames 5 pageUserData (fun _ => 40) hnull).mpr hfull

/-- The virtual addresses are used up, which nobody notices: the pages are mapped at address 0. -/
theorem page_zero_mapped :
    ¬ ∀ (m : AddressSpace) (pages attributes : UInt32) (rand : Nat → Fin 256),
      (m.virtAllocPagesAnywhere pages attributes rand).2 = 0 →
        m.Unchanged (m.virtAllocPagesAnywhere pages attributes rand).1 := by
  intro hall
  have hsame := hall { booted (fun _ _ => 0) with virtAllocPtr := 0xFFFFF000 } 1 pageUserData
    (fun _ => 40) (by decide +kernel)
  have hload := hsame.load 0 (by decide)
  revert hload
  decide +kernel

/-! ## Page tables -/

/-- The directory entry for the page table of page `i`, the frame of the page table, and the entry of the
page in it. -/
def pdeOf (m : AddressSpace) (i : Nat) : UInt32 := m.phys m.dir (i / 1024)

def tableOf (m : AddressSpace) (i : Nat) : Nat := frameOf (m.pdeOf i)

def pteOf (m : AddressSpace) (i : Nat) : UInt32 := m.phys (m.tableOf i) (i % 1024)

/-- In `m'` page `i` has its entry, and of the words of `m` only this one and the directory entry of its
page table are different. -/
structure Entered (m m' : AddressSpace) (i frame : Nat) (attributes : UInt32) : Prop where
  dir : m'.dir = m.dir
  table_ne : m'.tableOf i ≠ m.dir
  entry : m'.phys (m'.tableOf i) (i % 1024) = entryOf frame attributes
  pde_other : ∀ l, l ≠ i / 1024 → m'.phys m.dir l = m.phys m.dir l
  other : ∀ f j, f ≠ m.dir → ¬ (f = m'.tableOf i ∧ j = i % 1024) → m'.phys f j = m.phys f j

/-- The page table was there, or it is made in another frame that was free. -/
inductive TableMade (m m' : AddressSpace) (k frame : Nat) (attributes : UInt32) : Prop where
  | present (hp : Present (m.phys m.dir k)) (hpde : m'.phys m.dir k = m.phys m.dir k)
      (hblocks : m'.blocks = markFrame m.blocks frame)
  | found (hp : ¬ Present (m.phys m.dir k)) (table : Nat) (hlt : table < 1048576)
      (hpde : m'.phys m.dir k = entryOf table attributes) (hne : table / 32 ≠ frame / 32)
      (hfree : ¬ Marked m.blocks table)
      (hblocks : m'.blocks = markFrame (markFrame m.blocks table) frame)

/-- What has become of the page table: if no other block has a free frame, it is made in frame 0. -/
inductive TableStep (m m' : AddressSpace) (k frame : Nat) (attributes : UInt32) (start : Fin 256) :
    Prop where
  | made (hmade : m.TableMade m' k frame attributes)
  | none (hp : ¬ Present (m.phys m.dir k)) (hpde : m'.phys m.dir k = entryOf 0 attributes)
      (hnone : IsNextFree (m.showLocked (frame / 32)).blocks start 0)
      (hblocks : m'.blocks = markFrame m.blocks frame)

section

variable (h : m.InOrder m.blocks) (vaddr : UInt32) (hk : vaddr.toNat / 4096 / 1024 ≠ 1)
  (hattr : attributes.toNat < 4096) (frame : Nat) (start : Fin 256)

include h hk hattr

/-- **One page, in an address space in order.** -/
theorem InOrder.mapFrame_spec :
    m.Entered (m.mapFrame vaddr frame attributes start) (vaddr.toNat / 4096) frame attributes ∧
      m.TableStep (m.mapFrame vaddr frame attributes start) (vaddr.toNat / 4096 / 1024) frame attributes
        start := by
  have hlt := vaddr.toNat_lt
  have hself : (m.showLocked (frame / 32)).SelfMapped := h.selfMapped
  rcases hself.mapTo_spec hk hattr frame start with
    ⟨hp, heq, hwrote⟩ | ⟨hp, table, m₁, hnext, htable, hmarks, hpte, hwrote⟩
  · have hp' : Present (m.phys m.dir (vaddr.toNat / 4096 / 1024)) := hp
    have hne := h.table_ne _ (by omega) hk hp'
    have hrow : ∀ l, (m.mapFrame vaddr frame attributes start).phys m.dir l = m.phys m.dir l :=
      fun l => hwrote.other m.dir l fun hboth => hne hboth.1.symm
    have htab : (m.mapFrame vaddr frame attributes start).tableOf (vaddr.toNat / 4096) =
        frameOf (m.phys m.dir (vaddr.toNat / 4096 / 1024)) := by
      rw [← hrow, tableOf, pdeOf, show (m.mapFrame vaddr frame attributes start).dir = m.dir from hwrote.dir]
    refine ⟨⟨hwrote.dir, by rw [htab]; exact hne, by rw [htab]; exact hwrote.self, fun l _ => hrow l, ?_⟩,
      .made (.present hp' (hrow _) (mapFrame_blocks_of rfl heq))⟩
    intro f j _ hword
    rw [htab] at hword
    exact hwrote.other f j hword
  · have hp' : ¬ Present (m.phys m.dir (vaddr.toNat / 4096 / 1024)) := hp
    -- the frame of the directory is not handed out
    have hne : table ≠ m.dir := by
      rintro rfl
      rcases hmarks with ⟨hzero, -⟩ | ⟨hfree, -⟩
      · exact h.dir_pos hzero
      · exact hfree (marked_showLocked h.dir_marked)
    have hdir : (m.mapFrame vaddr frame attributes start).dir = m.dir := hwrote.dir.trans hpte.dir
    have hpde : (m.mapFrame vaddr frame attributes start).phys m.dir (vaddr.toNat / 4096 / 1024) =
        entryOf table attributes :=
      (hwrote.other m.dir _ fun hboth => hne hboth.1.symm).trans hpte.self
    have htab : (m.mapFrame vaddr frame attributes start).tableOf (vaddr.toNat / 4096) = table := by
      rw [tableOf, pdeOf, hdir, hpde, frameOf_entryOf htable hattr]
    refine ⟨⟨hdir, by rw [htab]; exact hne, by rw [htab]; exact hwrote.self, ?_, ?_⟩, ?_⟩
    · intro l hl
      exact (hwrote.other m.dir l fun hboth => hne hboth.1.symm).trans
        (hpte.other m.dir l fun hboth => hl hboth.2)
    · intro f j hf hword
      rw [htab] at hword
      exact (hwrote.other f j hword).trans (hpte.other f j fun hboth => hf hboth.1)
    · rcases hmarks with ⟨rfl, heq⟩ | ⟨hfree, heq⟩
      · exact .none hp' hpde hnext (mapFrame_blocks_of rfl heq)
      · have hblock : table / 32 ≠ frame / 32 := by
          intro hblock
          apply hfree
          rw [showLocked_blocks]
          apply marked_of_full
          rw [hblock, Function.update_self]
        rw [showLocked_blocks, marked_update, if_neg hblock] at hfree
        exact .made (.found hp' table htable hpde hblock hfree
          (mapFrame_blocks_of (markFrame_of_ne hblock) (heq.trans (markFrame_showLocked hblock))))

end

theorem TableMade.marked {m' : AddressSpace} {k f : Nat} (h : m.TableMade m' k frame attributes)
    (hf : Marked m.blocks f ∨ f = frame) : Marked m'.blocks f := by
  cases h with
  | present hp hpde hblocks => exact hblocks ▸ marked_markFrame.mpr hf
  | found hp table hlt hpde hne hfree hblocks =>
    exact hblocks ▸ marked_markFrame.mpr (hf.imp_left fun hf => marked_markFrame.mpr (.inl hf))

theorem TableStep.marked {m' : AddressSpace} {k f : Nat} (h : m.TableStep m' k frame attributes start)
    (hf : Marked m.blocks f ∨ f = frame) : Marked m'.blocks f := by
  cases h with
  | made hmade => exact hmade.marked hf
  | none hp hpde hnone hblocks => exact hblocks ▸ marked_markFrame.mpr hf

/-- What the directory entry is. -/
theorem TableStep.pde {m' : AddressSpace} {k : Nat} (h : m.TableStep m' k frame attributes start) :
    (Present (m.phys m.dir k) ∧ m'.phys m.dir k = m.phys m.dir k) ∨
      (¬ Present (m.phys m.dir k) ∧
        ∃ t, t < 1048576 ∧ m'.phys m.dir k = entryOf t attributes) := by
  cases h with
  | made hmade =>
    cases hmade with
    | present hp hpde hblocks => exact .inl ⟨hp, hpde⟩
    | found hp table hlt hpde hne hfree hblocks => exact .inr ⟨hp, table, hlt, hpde⟩
  | none hp hpde hnone hblocks => exact .inr ⟨hp, 0, by decide, hpde⟩

theorem TableStep.present_after {m' : AddressSpace} {k : Nat}
    (h : m.TableStep m' k frame attributes start) (hattr : attributes.toNat < 4096)
    (hpresent : Present attributes) : Present (m'.phys m.dir k) := by
  rcases h.pde with ⟨hp, heq⟩ | ⟨-, t, ht, heq⟩
  · rw [heq]
    exact hp
  · rw [heq, present_entryOf ht hattr]
    exact hpresent

theorem TableMade.present_after {m' : AddressSpace} {k : Nat}
    (h : m.TableMade m' k frame attributes) (hattr : attributes.toNat < 4096)
    (hpresent : Present attributes) : Present (m'.phys m.dir k) :=
  (TableStep.made h : m.TableStep m' k frame attributes 0).present_after hattr hpresent

/-- The frame of a new page table. -/
theorem TableMade.new_table {m' : AddressSpace} {k : Nat} (h : m.TableMade m' k frame attributes)
    (hp : ¬ Present (m.phys m.dir k)) :
    ∃ table, m'.phys m.dir k = entryOf table attributes ∧ table < 1048576 ∧
      ¬ Marked m.blocks table ∧ table ≠ frame ∧ Marked m'.blocks table := by
  cases h with
  | present hp' hpde hblocks => exact absurd hp' hp
  | found hp' table hlt hpde hne hfree hblocks =>
    refine ⟨table, hpde, hlt, hfree, ?_, ?_⟩
    · rintro rfl
      exact hne rfl
    · rw [hblocks, marked_markFrame, marked_markFrame]
      exact .inl (.inr rfl)

/-- The frames that are marked: the page's, and that of a new page table. -/
theorem TableMade.marked_iff {m' : AddressSpace} {k : Nat} (h : m.TableMade m' k frame attributes)
    (hattr : attributes.toNat < 4096) (f : Nat) : Marked m'.blocks f ↔ Marked m.blocks f ∨ f = frame ∨
      (¬ Present (m.phys m.dir k) ∧ f = frameOf (m'.phys m.dir k)) := by
  cases h with
  | present hp hpde hblocks =>
    rw [hblocks, marked_markFrame]
    simp [hp]
  | found hp table hlt hpde hne hfree hblocks =>
    rw [hblocks, marked_markFrame, marked_markFrame, hpde, frameOf_entryOf hlt hattr]
    simp [hp]
    tauto

/-- The address space stays in order. -/
theorem InOrder.entered {m' : AddressSpace} {i : Nat} (h : m.InOrder m.blocks) (hk : i / 1024 ≠ 1)
    (hattr : attributes.toNat < 4096) (he : m.Entered m' i frame attributes)
    (ht : m.TableStep m' (i / 1024) frame attributes start) : m'.InOrder m'.blocks := by
  have hle : ∀ f, Marked m.blocks f → Marked m'.blocks f := fun f hf => ht.marked (.inl hf)
  -- the directory entry of the page leads to a marked frame that is not the directory's
  have hpde : Present (m'.phys m.dir (i / 1024)) → i / 1024 < 1024 →
      Marked m'.blocks (frameOf (m'.phys m.dir (i / 1024))) := by
    intro hpresent hlt
    cases ht with
    | made hmade =>
      cases hmade with
      | present hp hpde hblocks =>
        rw [hpde]
        exact hle _ (h.table_marked _ hlt hp)
      | found hp table htable hpde hne hfree hblocks =>
        rw [hpde, frameOf_entryOf htable hattr, hblocks]
        exact marked_markFrame.mpr (.inl (marked_markFrame.mpr (.inr rfl)))
    | none hp hpde hnone hblocks =>
      rw [hpde, frameOf_entryOf (by decide) hattr]
      exact hle _ h.zero_marked
  have hrow := he.pde_other
  have hself := he.table_ne
  rw [tableOf, pdeOf, he.dir] at hself
  exact
    { self := by
        rw [he.dir, hrow 1 hk.symm]
        exact h.self
      dir_marked := by
        rw [he.dir]
        exact hle _ h.dir_marked
      dir_pos := by
        rw [he.dir]
        exact h.dir_pos
      zero_marked := hle _ h.zero_marked
      table_marked := by
        intro l hl hp
        rw [he.dir] at hp ⊢
        by_cases hlk : l = i / 1024
        · subst hlk
          exact hpde hp hl
        · rw [hrow l hlk] at hp ⊢
          exact hle _ (h.table_marked l hl hp)
      table_ne := by
        intro l hl hl1 hp
        rw [he.dir] at hp ⊢
        by_cases hlk : l = i / 1024
        · subst hlk
          exact hself
        · rw [hrow l hlk] at hp ⊢
          exact h.table_ne l hl hl1 hp }

end AddressSpace

end Shipwreck.Memory
