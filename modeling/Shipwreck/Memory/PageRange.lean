import Shipwreck.Memory.Allocation
import Mathlib.Order.Interval.Finset.Nat

/-!
# The pages that `virt_alloc_pages` maps

A call that is given an address maps as many pages as it is asked for, provided that there are frames
enough (`virtAllocPages_exact_iff`): one for each page, one for each page table that is missing, and 31
more if one is, since the block that the loop has locked is closed to `phys_alloc_page`.

The countdown is decremented before it is tested, so that this is not so if the number of pages is 0.
-/

namespace Shipwreck.Memory

namespace AddressSpace

/-- The free frames of the blocks from 256 on, which every search reaches. -/
def freeFrames (blocks : Nat → Block) : Finset Nat :=
  (Finset.Ico 8192 1048576).filter fun f => ¬ Marked blocks f

section

variable {blocks : Nat → Block} {f b : Nat}

theorem mem_freeFrames :
    f ∈ freeFrames blocks ↔ (8192 ≤ f ∧ f < 1048576) ∧ ¬ Marked blocks f := by
  rw [freeFrames, Finset.mem_filter, Finset.mem_Ico]

/-- Marking a frame takes one free frame at most. -/
theorem card_freeFrames_markFrame (blocks : Nat → Block) (f : Nat) :
    (freeFrames blocks).card ≤ (freeFrames (markFrame blocks f)).card + 1 := by
  have herase : freeFrames (markFrame blocks f) = (freeFrames blocks).erase f := by
    ext g
    rw [Finset.mem_erase, mem_freeFrames, mem_freeFrames, marked_markFrame, not_or]
    constructor
    · rintro ⟨hrange, hfree, hne⟩
      exact ⟨hne, hrange, hfree⟩
    · rintro ⟨hne, hrange, hfree⟩
      exact ⟨hrange, hfree, hne⟩
  have hpred : (freeFrames blocks).card - 1 ≤ ((freeFrames blocks).erase f).card :=
    Finset.pred_card_le_card_erase
  rw [herase]
  omega

/-- There are 32 frames in a block. -/
theorem exists_free_beside (h : 32 < (freeFrames blocks).card) (b : Nat) :
    ∃ g, g ∈ freeFrames blocks ∧ g / 32 ≠ b := by
  by_contra hnone
  have hsub : freeFrames blocks ⊆ Finset.Ico (b * 32) (b * 32 + 32) := by
    intro g hg
    rw [Finset.mem_Ico]
    by_contra hout
    exact hnone ⟨g, hg, by omega⟩
  have hle := Finset.card_le_card hsub
  rw [Nat.card_Ico] at hle
  omega

end

/-- Page tables of different regions are different. -/
structure Tidy (m : AddressSpace) : Prop where
  inOrder : m.InOrder m.blocks
  tables_ne : ∀ k l, k < 1024 → l < 1024 → k ≠ l → Present (m.phys m.dir k) →
    Present (m.phys m.dir l) → frameOf (m.phys m.dir k) ≠ frameOf (m.phys m.dir l)

/-- Region `l` has a page among the `n` pages from `page` on, and no page table. -/
def Missing (m : AddressSpace) (page n l : Nat) : Prop :=
  (∃ q, q < n ∧ (page + q) / 1024 = l) ∧ ¬ Present (m.phys m.dir l)

instance (m : AddressSpace) (page n l : Nat) : Decidable (m.Missing page n l) :=
  inferInstanceAs (Decidable (_ ∧ _))

def missing (m : AddressSpace) (page n : Nat) : Finset Nat :=
  (Finset.range 1024).filter (m.Missing page n)

/-- The frames suffice for `n` pages from `page` on. -/
def Enough (m : AddressSpace) (page n : Nat) : Prop :=
  (m.missing page n).card + n + (if m.missing page n = ∅ then 0 else 31) ≤ (freeFrames m.blocks).card

/-- From `m` to `m'` the pages from `page` on have been mapped to these frames. -/
structure Allocated (m m' : AddressSpace) (page : Nat) (frames : List Nat) (attributes : UInt32) :
    Prop where
  dir : m'.dir = m.dir
  nodup : frames.Nodup
  free : ∀ f ∈ frames, f < 1048576 ∧ ¬ Marked m.blocks f
  /-- The pages have their entries. -/
  entry : ∀ q f, frames[q]? = some f →
    Present (m'.pdeOf (page + q)) ∧ m'.pteOf (page + q) = entryOf f attributes
  /-- The page tables that were missing are in other frames that were free. -/
  table : ∀ l, l < 1024 → m.Missing page frames.length l →
    ∃ t, m'.phys m.dir l = entryOf t attributes ∧ t < 1048576 ∧ ¬ Marked m.blocks t ∧ t ∉ frames
  /-- No other word has changed. -/
  kept : ∀ f j, m'.phys f j ≠ m.phys f j →
    (f = m.dir ∧ j < 1024 ∧ m.Missing page frames.length j) ∨
      ∃ q, q < frames.length ∧ f = m'.tableOf (page + q) ∧ j = (page + q) % 1024
  /-- No other frame has been marked. -/
  marked : ∀ f, Marked m'.blocks f ↔ Marked m.blocks f ∨ f ∈ frames ∨
    ∃ l, l < 1024 ∧ m.Missing page frames.length l ∧ f = frameOf (m'.phys m.dir l)

variable {m m' m₁ : AddressSpace} {page n frame l : Nat} {attributes : UInt32} {frames : List Nat}
  {start : Fin 256} {rand : Nat → Fin 256} {s s' : Scan}

theorem mem_missing : l ∈ m.missing page n ↔ l < 1024 ∧ m.Missing page n l := by
  rw [missing, Finset.mem_filter, Finset.mem_range]

theorem Allocated.refl (m : AddressSpace) (page : Nat) (attributes : UInt32) :
    m.Allocated m page [] attributes where
  dir := rfl
  nodup := List.nodup_nil
  free f hf := absurd hf List.not_mem_nil
  entry q f hq := by simp at hq
  table l _ hmissing := by
    obtain ⟨⟨q, hq, -⟩, -⟩ := hmissing
    exact absurd hq (Nat.not_lt_zero q)
  kept f j hne := absurd rfl hne
  marked f := by
    constructor
    · exact .inl
    · rintro (hf | hf | ⟨l, -, ⟨⟨q, hq, -⟩, -⟩, -⟩)
      · exact hf
      · exact absurd hf List.not_mem_nil
      · exact absurd hq (Nat.not_lt_zero q)

/-! ## The first page of a range -/

section

variable (hattr : attributes.toNat < 4096) (hpresent : Present attributes)
  (he : m.Entered m₁ page frame attributes) (ht : m.TableMade m₁ (page / 1024) frame attributes)

include hattr hpresent he ht

/-- The regions that have no page table. -/
theorem missing_cons : m.Missing page (n + 1) l ↔
    (l = page / 1024 ∧ ¬ Present (m.phys m.dir l)) ∨ m₁.Missing (page + 1) n l := by
  have hafter := ht.present_after hattr hpresent
  have hrow : l ≠ page / 1024 → (m₁.phys m₁.dir l = m.phys m.dir l) := by
    intro hl
    rw [he.dir]
    exact he.pde_other l hl
  constructor
  · rintro ⟨⟨q, hq, hl⟩, hp⟩
    by_cases hlk : l = page / 1024
    · exact .inl ⟨hlk, hp⟩
    · have hq0 : q ≠ 0 := by
        rintro rfl
        exact hlk hl.symm
      refine .inr ⟨⟨q - 1, by omega, ?_⟩, by rw [hrow hlk]; exact hp⟩
      rw [← hl]
      congr 1
      omega
  · rintro (⟨hl, hp⟩ | ⟨⟨q, hq, hl⟩, hp⟩)
    · exact ⟨⟨0, by omega, by rw [Nat.add_zero]; exact hl.symm⟩, hp⟩
    · have hlk : l ≠ page / 1024 := by
        rintro rfl
        rw [he.dir] at hp
        exact hp hafter
      rw [hrow hlk] at hp
      refine ⟨⟨q + 1, by omega, ?_⟩, hp⟩
      rw [← hl]
      congr 1
      omega

omit hpresent in
/-- The page tables stay apart. -/
theorem Tidy.entered (h : m.Tidy) (hk : page / 1024 ≠ 1) (hpage : page < 1048576) : m₁.Tidy where
  inOrder := h.inOrder.entered hk hattr he (.made ht : m.TableStep m₁ _ frame attributes 0)
  tables_ne := by
    have hrow := he.pde_other
    -- a new page table is in a frame that no page table was in
    have hnew : ∀ l, l < 1024 → l ≠ page / 1024 → Present (m.phys m.dir l) →
        Present (m₁.phys m.dir (page / 1024)) →
          frameOf (m.phys m.dir l) ≠ frameOf (m₁.phys m.dir (page / 1024)) := by
      intro l hl hlk hp hpk
      cases ht with
      | present hpk hpde hblocks =>
        rw [hpde]
        exact h.tables_ne l _ hl (by omega) hlk hp hpk
      | found hpk table hlt hpde hne hfree hblocks =>
        rw [hpde, frameOf_entryOf hlt hattr]
        rintro rfl
        exact hfree (h.inOrder.table_marked l hl hp)
    intro k l hk hl hkl hpk hpl
    rw [he.dir] at hpk hpl ⊢
    by_cases hkp : k = page / 1024
    · have hlp : l ≠ page / 1024 := fun hlp => hkl (hkp.trans hlp.symm)
      subst hkp
      rw [hrow l hlp] at hpl ⊢
      exact (hnew l hl hlp hpl hpk).symm
    · rw [hrow k hkp] at hpk ⊢
      by_cases hlp : l = page / 1024
      · subst hlp
        exact hnew k hk hkp hpk hpl
      · rw [hrow l hlp] at hpl ⊢
        exact h.tables_ne k l hk hl hkl hpk hpl

/-- The frames that are left suffice for the pages that are left. -/
theorem Enough.entered (h : m.Enough page (n + 1)) (hpage : page < 1048576) :
    m₁.Enough (page + 1) n := by
  have hsub : m₁.missing (page + 1) n ⊆ m.missing page (n + 1) := by
    intro l hl
    rw [mem_missing] at hl ⊢
    exact ⟨hl.1, (missing_cons hattr hpresent he ht).mpr (.inr hl.2)⟩
  have hle := Finset.card_le_card hsub
  have hempty : m.missing page (n + 1) = ∅ → m₁.missing (page + 1) n = ∅ := by
    intro hnone
    rw [hnone] at hsub
    exact Finset.subset_empty.mp hsub
  have hslack : (if m₁.missing (page + 1) n = ∅ then 0 else 31) ≤
      (if m.missing page (n + 1) = ∅ then 0 else 31) := by
    by_cases hnone : m.missing page (n + 1) = ∅
    · rw [if_pos hnone, if_pos (hempty hnone)]
    · rw [if_neg hnone]
      split
      · omega
      · omega
  rw [Enough] at h ⊢
  cases ht with
  | present hp hpde hblocks =>
    have hfree := card_freeFrames_markFrame m.blocks frame
    rw [hblocks]
    omega
  | found hp table hlt hpde hne hfree hblocks =>
    have hfirst := card_freeFrames_markFrame m.blocks table
    have hsecond := card_freeFrames_markFrame (markFrame m.blocks table) frame
    have hcard : (m₁.missing (page + 1) n).card < (m.missing page (n + 1)).card := by
      apply Finset.card_lt_card
      refine ⟨hsub, fun hsup => ?_⟩
      have hmem : page / 1024 ∈ m.missing page (n + 1) :=
        mem_missing.mpr ⟨by omega, (missing_cons hattr hpresent he
          (.found hp table hlt hpde hne hfree hblocks)).mpr (.inl ⟨rfl, hp⟩)⟩
      have hnot := (mem_missing.mp (hsup hmem)).2.2
      rw [he.dir, hpde, present_entryOf hlt hattr] at hnot
      exact hnot hpresent
    rw [hblocks]
    omega

end

/-- With frames enough there is one for the page table too. -/
theorem TableStep.made_of_enough (h : m.TableStep m₁ (page / 1024) frame attributes start)
    (henough : m.Enough page (n + 1)) (hpage : page < 1048576) (hzero : Marked m.blocks 0) :
    m.TableMade m₁ (page / 1024) frame attributes := by
  cases h with
  | made hmade => exact hmade
  | none hp hpde hnone hblocks =>
    have hmem : page / 1024 ∈ m.missing page (n + 1) :=
      mem_missing.mpr ⟨by omega, ⟨0, by omega, rfl⟩, hp⟩
    have hne : m.missing page (n + 1) ≠ ∅ := Finset.ne_empty_of_mem hmem
    have hpos := Finset.card_pos.mpr ⟨_, hmem⟩
    rw [Enough, if_neg hne] at henough
    have hmany : 32 < (freeFrames m.blocks).card := by omega
    obtain ⟨g, hg, hblock⟩ := exists_free_beside hmany (frame / 32)
    rw [mem_freeFrames] at hg
    have hstart := start.isLt
    rcases hnone with ⟨-, hall⟩ | ⟨-, -, hfree, -⟩
    · have hmarked := hall g (by omega) hg.1.2
      rw [showLocked_blocks, marked_update, if_neg hblock] at hmarked
      exact absurd hmarked hg.2
    · exact absurd (marked_showLocked hzero) hfree

/-! ## A range of pages -/

section

variable (hattr : attributes.toNat < 4096) (hpresent : Present attributes)
  (he : m.Entered m₁ page frame attributes) (ht : m.TableMade m₁ (page / 1024) frame attributes)
  (h : m₁.Allocated m' (page + 1) frames attributes)

/-- A page table that is there stays where it is. -/
theorem Allocated.pde_kept (hm' : m'.Tidy) (hwindow : ∀ q, q < frames.length → (page + 1 + q) / 1024 ≠ 1)
    (hfits : page + 1 + frames.length ≤ 1048576)
    (h : m₁.Allocated m' (page + 1) frames attributes) {k : Nat} (hp : Present (m₁.phys m₁.dir k)) :
    m'.phys m₁.dir k = m₁.phys m₁.dir k := by
  by_contra hne
  rcases h.kept _ _ hne with ⟨-, -, -, hnot⟩ | ⟨q, hq, htable, -⟩
  · exact hnot hp
  · -- the directory is not a page table
    obtain ⟨hpde, -⟩ := h.entry q _ (List.getElem?_eq_getElem hq)
    exact hm'.inOrder.table_ne _ (by omega) (hwindow q hq) hpde (htable.symm.trans h.dir.symm)

include hattr hpresent he ht h

/-- What comes later leaves the entries of the first page alone. -/
theorem Allocated.first_kept (hm' : m'.Tidy)
    (hwindow : ∀ q, q < frames.length → (page + 1 + q) / 1024 ≠ 1)
    (hfits : page + 1 + frames.length ≤ 1048576) :
    m'.phys m.dir (page / 1024) = m₁.phys m.dir (page / 1024) ∧ m'.tableOf page = m₁.tableOf page ∧
      Present (m'.pdeOf page) ∧ m'.pteOf page = entryOf frame attributes := by
  have hpres := ht.present_after hattr hpresent
  have hkept : m'.phys m.dir (page / 1024) = m₁.phys m.dir (page / 1024) := by
    have hsame := h.pde_kept hm' hwindow hfits (k := page / 1024) (by rw [he.dir]; exact hpres)
    rwa [he.dir] at hsame
  have htable : m'.tableOf page = m₁.tableOf page := by
    rw [tableOf, tableOf, pdeOf, pdeOf, h.dir, he.dir, hkept]
  have hpde : Present (m'.pdeOf page) := by
    rw [pdeOf, h.dir, he.dir, hkept]
    exact hpres
  refine ⟨hkept, htable, hpde, ?_⟩
  rw [pteOf, htable, ← he.entry]
  by_contra hne
  rcases h.kept _ _ hne with ⟨hsame, -, -⟩ | ⟨q, hq, hsame, hj⟩
  · exact he.table_ne (hsame.trans he.dir)
  · -- two pages with one word would lie in one region
    obtain ⟨hpq, -⟩ := h.entry q _ (List.getElem?_eq_getElem hq)
    refine hm'.tables_ne (page / 1024) ((page + 1 + q) / 1024) (by omega) (by omega) ?_ hpde hpq
      (htable.trans hsame)
    omega

/-- **The first page, and then the others.** -/
theorem Allocated.cons (hlt : frame < 1048576) (hfree : ¬ Marked m.blocks frame) (hm' : m'.Tidy)
    (hwindow : ∀ q, q < frames.length + 1 → (page + q) / 1024 ≠ 1)
    (hfits : page + (frames.length + 1) ≤ 1048576) : m.Allocated m' page (frame :: frames) attributes := by
  have hdir := he.dir
  have hmissing := fun l => missing_cons (n := frames.length) (l := l) hattr hpresent he ht
  have hnext : ∀ q, page + 1 + q = page + (q + 1) := fun q => by omega
  obtain ⟨hkept, htable, hpde, hpte⟩ := h.first_kept hattr hpresent he ht hm'
    (fun q hq => hnext q ▸ hwindow (q + 1) (by omega)) (by omega)
  have hframe : Marked m₁.blocks frame := ht.marked (.inr rfl)
  have hgrow : ∀ f, Marked m.blocks f → Marked m₁.blocks f := fun f hf => ht.marked (.inl hf)
  refine ⟨h.dir.trans hdir, ?_, ?_, ?_, ?_, ?_, ?_⟩
  · rw [List.nodup_cons]
    exact ⟨fun hmem => (h.free frame hmem).2 hframe, h.nodup⟩
  · intro f hf
    rcases List.mem_cons.mp hf with rfl | hf
    · exact ⟨hlt, hfree⟩
    · exact ⟨(h.free f hf).1, fun hmarked => (h.free f hf).2 (hgrow f hmarked)⟩
  · intro q f hq
    cases q with
    | zero =>
      rw [List.getElem?_cons_zero, Option.some.injEq] at hq
      subst hq
      exact ⟨hpde, hpte⟩
    | succ q =>
      rw [List.getElem?_cons_succ] at hq
      exact hnext q ▸ h.entry q f hq
  · intro l hl hmiss
    rw [List.length_cons, hmissing] at hmiss
    -- a table is new for the first page or for a later one, and no frame is taken twice
    rcases hmiss with ⟨rfl, hp⟩ | hmiss
    · obtain ⟨table, hnew, htable', hfree', hne, hmarked⟩ := ht.new_table hp
      rw [hkept]
      refine ⟨table, hnew, htable', hfree', ?_⟩
      rw [List.mem_cons, not_or]
      exact ⟨hne, fun hmem => (h.free table hmem).2 hmarked⟩
    · obtain ⟨t, hnew, ht', hfree', hmem⟩ := h.table l hl hmiss
      rw [hdir] at hnew
      refine ⟨t, hnew, ht', fun hmarked => hfree' (hgrow t hmarked), ?_⟩
      rw [List.mem_cons, not_or]
      refine ⟨?_, hmem⟩
      rintro rfl
      exact hfree' hframe
  · intro f j hne
    rw [List.length_cons]
    -- what the later pages leave alone was stored for the first one
    by_cases hlater : m'.phys f j = m₁.phys f j
    · rw [hlater] at hne
      by_cases hf : f = m.dir
      · subst hf
        have hj : j = page / 1024 := by
          by_contra hj
          exact hne (he.pde_other j hj)
        subst hj
        refine .inl ⟨rfl, by omega, (hmissing _).mpr (.inl ⟨rfl, ?_⟩)⟩
        intro hp
        cases ht with
        | present hp' hpde hblocks => exact hne hpde
        | found hp' table htable hpde hne' hfree' hblocks => exact hp' hp
      · have hword : f = m₁.tableOf page ∧ j = page % 1024 := by
          by_contra hword
          exact hne (he.other f j hf hword)
        refine .inr ⟨0, by omega, ?_, ?_⟩
        · rw [Nat.add_zero, htable]
          exact hword.1
        · exact hword.2
    · rcases h.kept f j hlater with ⟨hf, hj, hmiss⟩ | ⟨q, hq, hf, hj⟩
      · exact .inl ⟨hf.trans hdir, hj, (hmissing j).mpr (.inr hmiss)⟩
      · rw [hnext] at hf hj
        exact .inr ⟨q + 1, by omega, hf, hj⟩
  · intro f
    rw [h.marked, ht.marked_iff hattr, List.length_cons, List.mem_cons, hdir, ← hkept]
    simp only [hmissing]
    constructor
    · rintro ((hf | rfl | ⟨hp, hf⟩) | hf | ⟨l, hl, hmiss, hf⟩)
      · exact .inl hf
      · exact .inr (.inl (.inl rfl))
      · exact .inr (.inr ⟨page / 1024, by omega, .inl ⟨rfl, hp⟩, hf⟩)
      · exact .inr (.inl (.inr hf))
      · exact .inr (.inr ⟨l, hl, .inr hmiss, hf⟩)
    · rintro (hf | (rfl | hf) | ⟨l, hl, ⟨rfl, hp⟩ | hmiss, hf⟩)
      · exact .inl (.inl hf)
      · exact .inl (.inr (.inl rfl))
      · exact .inr (.inl hf)
      · exact .inl (.inr (.inr ⟨hp, hf⟩))
      · exact .inr (.inr ⟨l, hl, hmiss, hf⟩)

end

/-- The frames that a call takes, as long as there are enough for the pages that are left. -/
theorem Takes.allocated (h : Takes rand attributes s frames s') (page n : Nat) (htidy : s.mem.Tidy)
    (henough : s.mem.Enough page n) (hle : frames.length ≤ n) (hattr : attributes.toNat < 4096)
    (hpresent : Present attributes) (haddr : s.virtAddr.toNat / 4096 = page % 1048576)
    (hfits : page + n ≤ 1048576) (hwindow : ∀ q, q < n → (page + q) / 1024 ≠ 1) :
    s.mem.Allocated s'.mem page frames attributes ∧ s'.mem.Tidy ∧
      s'.mem.Enough (page + frames.length) (n - frames.length) := by
  induction h generalizing page n with
  | nil s => exact ⟨.refl s.mem page attributes, htidy, henough⟩
  | @cons s s' frame frames hlt hfree hrest ih =>
    rw [List.length_cons] at hle ⊢
    obtain ⟨left, rfl⟩ : ∃ left, n = left + 1 := ⟨n - 1, by omega⟩
    have hpage : s.virtAddr.toNat / 4096 = page := by omega
    have hfirst := hwindow 0 (by omega)
    rw [Nat.add_zero] at hfirst
    obtain ⟨he, hstep⟩ := htidy.inOrder.mapFrame_spec s.virtAddr (by rw [hpage]; exact hfirst) hattr
      frame (rand s.draws)
    rw [hpage] at he hstep
    have ht := hstep.made_of_enough henough (by omega) htidy.inOrder.zero_marked
    have hnext : (s.takeFrame rand attributes frame).virtAddr.toNat / 4096 = (page + 1) % 1048576 := by
      have h4096 : (4096 : UInt32).toNat = 4096 := rfl
      show (s.virtAddr + 4096).toNat / 4096 = _
      rw [UInt32.toNat_add, h4096]
      omega
    obtain ⟨hall, htidy', henough'⟩ := ih (page + 1) left
      (htidy.entered hattr he ht hfirst (by omega))
      (henough.entered hattr hpresent he ht (by omega)) (by omega) hnext (by omega) (by
        intro q hq
        rw [show page + 1 + q = page + (q + 1) by omega]
        exact hwindow (q + 1) (by omega))
    refine ⟨hall.cons hattr hpresent he ht hlt hfree htidy' ?_ (by omega), htidy', ?_⟩
    · intro q hq
      exact hwindow q (by omega)
    · rw [show page + (frames.length + 1) = page + 1 + frames.length by omega,
        show left + 1 - (frames.length + 1) = left - frames.length by omega]
      exact henough'

/-- The range ends in the address space and keeps off the window, and there are frames enough for it, none
of them below 4 MB. -/
structure RangeOk (m : AddressSpace) (pages address : UInt32) : Prop where
  tidy : m.Tidy
  low : ∀ b, b < 32 → m.blocks b = full
  fits : address.toNat + pages.toNat * 4096 ≤ 4294967296
  window : ∀ q, q < pages.toNat → (address.toNat / 4096 + q) / 1024 ≠ 1
  enough : m.Enough (address.toNat / 4096) pages.toNat

/-- The call returns its address, and has mapped the pages from there on. -/
def MapsPages (m : AddressSpace) (pages address attributes : UInt32) (rand : Nat → Fin 256) : Prop :=
  (m.virtAllocPages pages address attributes rand).2 = address ∧
    ∃ frames, frames.length = pages.toNat ∧
      m.Allocated (m.virtAllocPages pages address attributes rand).1 (address.toNat / 4096) frames
        attributes

variable {pages address : UInt32}

/-- A bitmap with free frames is not full from any start on. -/
theorem not_fullFrom_of_card {blocks : Nat → Block} (h : 0 < (freeFrames blocks).card)
    (start : Fin 256) : ¬ FullFrom blocks start := by
  intro hfull
  obtain ⟨f, hf⟩ := Finset.card_pos.mp h
  rw [mem_freeFrames] at hf
  have hstart := start.isLt
  have hmax : maxBlocks = 32768 := rfl
  exact hf.2 (marked_of_full (hfull (f / 32) (by omega) (by omega)))

/-- A call for at least one page. -/
theorem mapsPages_of_ne_zero (h : m.RangeOk pages address) (hattr : attributes.toNat < 4096)
    (hpresent : Present attributes) (hpages : pages ≠ 0) :
    m.MapsPages pages address attributes rand := by
  have hfits := h.fits
  have hgo := toGo_callStart m address hpages
  have haddr := address.toNat_lt
  rcases m.virtAllocPages_spec pages address attributes rand with
    ⟨⟨-, hlocked⟩, -⟩ | ⟨frames, s', htakes, hres⟩
  · exact absurd (h.low 0 (by omega)) hlocked
  · have hle : frames.length ≤ pages.toNat := by
      rcases hres with ⟨hlen, -⟩ | ⟨hlen, -, -⟩
      · omega
      · omega
    obtain ⟨hall, -, henough⟩ := htakes.allocated (address.toNat / 4096) pages.toNat h.tidy h.enough hle
      hattr hpresent (by
        show address.toNat / 4096 = _
        omega) (by omega) h.window
    rcases hres with ⟨hlen, heq⟩ | ⟨hlen, hfull, -⟩
    · rw [MapsPages, heq]
      exact ⟨rfl, frames, by omega, hall⟩
    · -- a frame is left for the next page
      have hpos := Nat.succ_pos (s'.pagesLeft - 1).toNat
      rw [Enough] at henough
      have hleft : 0 < s'.toGo := hpos
      exact absurd hfull (not_fullFrom_of_card (by omega) _)

/-- A call for no page that maps none has not found a frame, and returns null. -/
theorem fullFrom_of_mapsPages_zero (h : m.MapsPages 0 address attributes rand) :
    address = 0 ∧ FullFrom m.blocks (rand 0) := by
  obtain ⟨hret, frames, hlen, hall⟩ := h
  obtain rfl := List.length_eq_zero_iff.mp hlen
  have hfull : FullFrom m.blocks (rand 0) := by
    apply fullFrom_of_marked
    intro f _ hmarked
    rcases (hall.marked f).mp hmarked with hf | hf | ⟨l, -, ⟨⟨q, hq, -⟩, -⟩, -⟩
    · exact hf
    · exact absurd hf List.not_mem_nil
    · exact absurd hq (Nat.not_lt_zero q)
  rw [virtAllocPages_full hfull] at hret
  exact ⟨hret.symm, hfull⟩

/-- **`virt_alloc_pages` maps exactly what it was asked for**, unless this is nothing: a count of 0 is
right only when no frame is free and the address is null. -/
theorem virtAllocPages_exact_iff (m : AddressSpace) (pages address attributes : UInt32)
    (rand : Nat → Fin 256) (h : m.RangeOk pages address) (hattr : attributes.toNat < 4096)
    (hpresent : Present attributes) :
    m.MapsPages pages address attributes rand ↔
      pages ≠ 0 ∨ (address = 0 ∧ FullFrom m.blocks (rand 0)) := by
  by_cases hpages : pages = 0
  · subst hpages
    constructor
    · exact fun hmaps => .inr (fullFrom_of_mapsPages_zero hmaps)
    · rintro (hne | ⟨rfl, hfull⟩)
      · exact absurd rfl hne
      · rw [MapsPages, virtAllocPages_full hfull]
        exact ⟨rfl, [], rfl, .refl m _ attributes⟩
  · exact iff_of_true (mapsPages_of_ne_zero h hattr hpresent hpages) (.inl hpages)

theorem freeFrames_lowUsed : (freeFrames lowUsed).card = 1040384 := by
  have hall : freeFrames lowUsed = Finset.Ico 8192 1048576 := by
    apply Finset.filter_true_of_mem
    intro f hf
    rw [Finset.mem_Ico] at hf
    rw [marked_lowUsed]
    omega
  rw [hall, Nat.card_Ico]

/-- After `initialize_memory`. -/
theorem rangeOk_booted (phys : Nat → Nat → UInt32) {pages address : UInt32}
    (hpages : pages.toNat ≤ 1000000) (habove : 0x800000 ≤ address.toNat)
    (hfits : address.toNat + pages.toNat * 4096 ≤ 4294967296) : (booted phys).RangeOk pages address where
  tidy := by
    refine ⟨booted_inOrder phys, ?_⟩
    intro k l _ _ hkl hpk hpl
    rw [(booted_present hpk).1, (booted_present hpl).1]
    omega
  low b hb := if_pos hb
  fits := hfits
  window q _ := by omega
  enough := by
    have hmissing := Finset.card_filter_le (Finset.range 1024)
      ((booted phys).Missing (address.toNat / 4096) pages.toNat)
    have hfree : (freeFrames (booted phys).blocks).card = 1040384 := freeFrames_lowUsed
    rw [Finset.card_range] at hmissing
    rw [Enough, hfree, missing]
    split
    · omega
    · omega

/-- 1500 pages in two regions. -/
theorem virtAllocPages_exact_example :
    (booted fun _ _ => 0).MapsPages 1500 0x10000000 pageUserData fun _ => 40 :=
  (virtAllocPages_exact_iff _ 1500 0x10000000 pageUserData _
    (rangeOk_booted _ (by decide) (by decide) (by decide)) pageUserData_lt present_pageUserData).mpr
    (.inl (by decide))

/-- A call for no page does not come back before it has mapped all frames. -/
theorem no_page_maps : ¬ ∀ (m : AddressSpace) (pages address attributes : UInt32)
    (rand : Nat → Fin 256), m.RangeOk pages address → attributes.toNat < 4096 → Present attributes →
      m.MapsPages pages address attributes rand := by
  intro hall
  have hmaps := hall (booted fun _ _ => 0) 0 0x10000000 pageUserData (fun _ => 40)
    (rangeOk_booted _ (by decide) (by decide) (by decide)) pageUserData_lt present_pageUserData
  have hnull := (fullFrom_of_mapsPages_zero hmaps).1
  exact absurd hnull (by decide)

end AddressSpace

end Shipwreck.Memory
