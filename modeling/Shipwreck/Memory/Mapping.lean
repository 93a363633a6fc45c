import Shipwreck.Memory.Paging

/-!
# What `map_to` maps

The processor translates an address by the directory and one page table. `map_to` writes the entry of
one page, and `ensure_pte` before it that of the page table, if there is none:

    page_dir[k]          = phys_alloc_page() | attributes    if it was not present
    page_tables[page]    = p_addr | attributes

The new page table is a frame that nobody has cleared. Whatever it holds is then what the other 1023
pages of the 4 MB are mapped to (`mapTo_translates_iff`).
-/

namespace Shipwreck.Memory

namespace AddressSpace

/-- What an entry of a page table says: the frame and the attributes. -/
def resolve (pte : UInt32) : Option (Nat × Nat) :=
  if Present pte then some (frameOf pte, pte.toNat % 4096) else none

/-- How the processor translates page `i`. -/
def translate (m : AddressSpace) (i : Nat) : Option (Nat × Nat) :=
  let pde := m.phys m.dir (i / 1024)
  if Present pde then resolve (m.phys (frameOf pde) (i % 1024)) else none

/-- The page table of page `i` is the directory. -/
def InWindow (m : AddressSpace) (i : Nat) : Prop :=
  Present (m.phys m.dir (i / 1024)) ∧ frameOf (m.phys m.dir (i / 1024)) = m.dir

/-- From `m` to `m'` page `i` has been mapped and nothing else has changed, outside the window. -/
structure Maps (m m' : AddressSpace) (i frame : Nat) (attributes : UInt32) : Prop where
  self : m'.translate i = some (frame, attributes.toNat)
  other : ∀ w, w < 1048576 → w ≠ i → w / 1024 ≠ 1 → m'.translate w = m.translate w

/-- Writing `val` into the page table of page `i`, which is the frame `table` if it is a new one, does
not show elsewhere: a new page table maps nothing yet, and no other entry of the directory leads to the
page table, or to the directory while a new entry is made there. -/
def TableOk (m : AddressSpace) (i : Nat) (val : UInt32) (table : Nat) : Prop :=
  let pde := m.phys m.dir
  if Present (pde (i / 1024)) then
    ∀ l, l < 1024 → l ≠ 1 → l ≠ i / 1024 → Present (pde l) →
      frameOf (pde l) = frameOf (pde (i / 1024)) →
        m.phys (frameOf (pde (i / 1024))) (i % 1024) = val
  else
    (∀ j, j < 1024 → j ≠ i % 1024 → ¬ Present (m.phys table j)) ∧
      ∀ l, l < 1024 → l ≠ 1 → Present (pde l) →
        frameOf (pde l) ≠ m.dir ∧ (frameOf (pde l) = table → m.phys table (i % 1024) = val)

instance (m : AddressSpace) (i : Nat) : Decidable (m.InWindow i) :=
  inferInstanceAs (Decidable (_ ∧ _))

variable {m m' : AddressSpace} {vaddr attributes : UInt32} {frame : Nat} {start : Fin 256}

theorem resolve_eq_iff {pte val : UInt32} (h : Present val) :
    resolve pte = resolve val ↔ pte = val := by
  constructor
  · intro heq
    by_cases hp : Present pte
    · simp only [resolve, hp, h, if_true, Option.some.injEq, Prod.mk.injEq, frameOf] at heq
      obtain ⟨hframe, hattr⟩ := heq
      apply UInt32.toNat.inj
      omega
    · simp [resolve, hp, h] at heq
  · rintro rfl
    rfl

theorem resolve_entryOf (hframe : frame < 1048576) (hattr : attributes.toNat < 4096)
    (hpresent : Present attributes) :
    resolve (entryOf frame attributes) = some (frame, attributes.toNat) := by
  rw [resolve, if_pos ((present_entryOf hframe hattr).mpr hpresent), frameOf_entryOf hframe hattr,
    toNat_entryOf hframe hattr]
  congr 2
  omega

theorem resolve_eq_none {pte : UInt32} : resolve pte = none ↔ ¬ Present pte := by
  rw [resolve]
  split <;> simp [*]

/-- There is one such frame. -/
theorem IsNextFree.unique {blocks : Nat → Block} {start f g : Nat} (hf : IsNextFree blocks start f)
    (hg : IsNextFree blocks start g) : f = g := by
  rcases hf with ⟨rfl, hf⟩ | ⟨hflo, hflt, hfree, hf⟩
  · rcases hg with ⟨rfl, -⟩ | ⟨hglo, hglt, hgfree, -⟩
    · rfl
    · exact absurd (hf g hglo hglt) hgfree
  · rcases hg with ⟨rfl, hg⟩ | ⟨hglo, hglt, hgfree, hg⟩
    · exact absurd (hg f hflo hflt) hfree
    · rcases Nat.lt_trichotomy f g with hlt | heq | hgt
      · exact absurd (hg f hflo hlt) hfree
      · exact heq
      · exact absurd (hf g hglo hgt) hgfree

/-- **What `map_to` does**, in a directory with a window: one entry, or first one for a new page table,
in the frame that `phys_alloc_page` finds. -/
theorem SelfMapped.mapTo_spec (h : m.SelfMapped) (hk : vaddr.toNat / 4096 / 1024 ≠ 1)
    (hattr : attributes.toNat < 4096) (frame : Nat) (start : Fin 256) :
    (Present (m.phys m.dir (vaddr.toNat / 4096 / 1024)) ∧
      (m.mapTo vaddr frame attributes start).blocks = m.blocks ∧
      m.Wrote (m.mapTo vaddr frame attributes start)
        (frameOf (m.phys m.dir (vaddr.toNat / 4096 / 1024))) (vaddr.toNat / 4096 % 1024)
        (entryOf frame attributes)) ∨
    (¬ Present (m.phys m.dir (vaddr.toNat / 4096 / 1024)) ∧
      ∃ table m₁, IsNextFree m.blocks start table ∧ table < 1048576 ∧
        (table = 0 ∧ (m.mapTo vaddr frame attributes start).blocks = m.blocks ∨
          ¬ Marked m.blocks table ∧
            (m.mapTo vaddr frame attributes start).blocks = markFrame m.blocks table) ∧
        m.Wrote m₁ m.dir (vaddr.toNat / 4096 / 1024) (entryOf table attributes) ∧
        m₁.Wrote (m.mapTo vaddr frame attributes start) table (vaddr.toNat / 4096 % 1024)
          (entryOf frame attributes)) := by
  have hlt := vaddr.toNat_lt
  obtain ⟨i, hi⟩ : ∃ i, i = vaddr.toNat / 4096 := ⟨_, rfl⟩
  have hk' : i / 1024 < 1024 := by omega
  have hpde := h.getPde_eq hk'
  simp only [mapTo, ensurePte, toNat_shiftRight_twelve, toNat_shiftRight_twentyTwo, ← hi] at hk ⊢
  by_cases hp : Present (m.phys m.dir (i / 1024))
  · refine .inl ⟨hp, ?_, ?_⟩
    · simp only [hpde, hp, if_true]
      rfl
    · simp only [hpde, hp, if_true]
      have hwrote := wrote_store (m := m) i (entryOf frame attributes)
      rwa [h.word_eq] at hwrote
  · refine .inr ⟨hp, ?_⟩
    simp only [hpde, hp, if_false]
    -- the page table that is entered, with `m₂` for the memory in which its frame is marked
    obtain ⟨table, m₂, hlock, hfree, hlt', hdir, hphys, hmarks⟩ :
        ∃ table m₂, m.lockNextPage start = (table, m₂) ∧ IsNextFree m.blocks start table ∧
          table < 1048576 ∧ m₂.dir = m.dir ∧ m₂.phys = m.phys ∧
          (table = 0 ∧ m₂.blocks = m.blocks ∨
            ¬ Marked m.blocks table ∧ m₂.blocks = markFrame m.blocks table) := by
      rcases m.lockNextPage_spec start with ⟨hfree, hnone⟩ | ⟨f, hfree, hf, hunmarked, hsome⟩
      · exact ⟨0, m, hnone, hfree, by decide, rfl, rfl, .inl ⟨rfl, rfl⟩⟩
      · exact ⟨f, _, hsome, hfree, hf, rfl, rfl, .inr ⟨hunmarked, rfl⟩⟩
    have hself₂ : m₂.SelfMapped := by
      rw [SelfMapped, hphys, hdir]
      exact h
    have hword : m₂.word (1024 + i / 1024) = (m.dir, i / 1024) := by
      rw [hself₂.word_eq, hphys, hdir, show (1024 + i / 1024) / 1024 = 1 by omega,
        show (1024 + i / 1024) % 1024 = i / 1024 by omega, h.2]
    have hpte := wrote_store (m := m₂) (1024 + i / 1024) (entryOf table attributes)
    rw [hword] at hpte
    rw [hlock]
    have hwrote : m.Wrote (m₂.store (1024 + i / 1024) (entryOf table attributes)) m.dir (i / 1024)
        (entryOf table attributes) := by
      refine ⟨hdir, hpte.self, ?_⟩
      rw [← hphys]
      exact hpte.other
    refine ⟨table, _, hfree, hlt', hmarks, hwrote, ?_⟩
    have hstore := wrote_store (m := m₂.store (1024 + i / 1024) (entryOf table attributes)) i
      (entryOf frame attributes)
    have hone : (m₂.store (1024 + i / 1024) (entryOf table attributes)).phys m.dir 1 = m.phys m.dir 1 :=
      hwrote.other m.dir 1 fun hboth => hk hboth.2.symm
    have hself₁ : (m₂.store (1024 + i / 1024) (entryOf table attributes)).SelfMapped := by
      rw [SelfMapped, hwrote.dir, hone]
      exact h
    rw [hself₁.word_eq, hwrote.dir, hwrote.self, frameOf_entryOf hlt' hattr] at hstore
    exact hstore

/-! ## One translation -/

section

variable {i : Nat} {val : UInt32} (hval : Present val)
  (hres : resolve val = some (frame, attributes.toNat))

include hval hres

/-- The page table is there. -/
theorem maps_iff_of_present (hi : i < 1048576) (hp : Present (m.phys m.dir (i / 1024)))
    (hne : frameOf (m.phys m.dir (i / 1024)) ≠ m.dir)
    (hwrote : m.Wrote m' (frameOf (m.phys m.dir (i / 1024))) (i % 1024) val) :
    m.Maps m' i frame attributes ↔
      ∀ l, l < 1024 → l ≠ 1 → l ≠ i / 1024 → Present (m.phys m.dir l) →
        frameOf (m.phys m.dir l) = frameOf (m.phys m.dir (i / 1024)) →
          m.phys (frameOf (m.phys m.dir (i / 1024))) (i % 1024) = val := by
  obtain ⟨table, htable⟩ : ∃ table, table = frameOf (m.phys m.dir (i / 1024)) := ⟨_, rfl⟩
  rw [← htable] at hne hwrote ⊢
  -- the directory is not touched
  have hrow : ∀ l, m'.phys m'.dir l = m.phys m.dir l := by
    intro l
    rw [hwrote.dir]
    exact hwrote.other m.dir l fun hboth => hne hboth.1.symm
  constructor
  · intro h l hl hl1 hlk hpl hframe
    have hother := h.other (l * 1024 + i % 1024) (by omega) (by omega) (by omega)
    rw [translate, translate, hrow, show (l * 1024 + i % 1024) / 1024 = l by omega,
      show (l * 1024 + i % 1024) % 1024 = i % 1024 by omega, if_pos hpl, if_pos hpl, hframe,
      hwrote.self, eq_comm, resolve_eq_iff hval] at hother
    exact hother
  · intro h
    refine ⟨?_, ?_⟩
    · rw [translate, hrow, if_pos hp, ← htable, hwrote.self]
      exact hres
    · intro w hw hwi hw1
      rw [translate, translate, hrow]
      by_cases hpw : Present (m.phys m.dir (w / 1024))
      · rw [if_pos hpw, if_pos hpw]
        by_cases hword : frameOf (m.phys m.dir (w / 1024)) = table ∧ w % 1024 = i % 1024
        · obtain ⟨hframe, hj⟩ := hword
          rw [hframe, hj, hwrote.self, h (w / 1024) (by omega) hw1 (by omega) hpw hframe]
        · rw [hwrote.other _ _ hword]
      · rw [if_neg hpw, if_neg hpw]

/-- A page table has been entered first. -/
theorem maps_iff_of_absent {m₁ : AddressSpace} {table : Nat} {pde : UInt32} (hi : i < 1048576)
    (hk : i / 1024 ≠ 1) (hp : ¬ Present (m.phys m.dir (i / 1024))) (hne : table ≠ m.dir)
    (hpde : Present pde) (hframe : frameOf pde = table) (hpte : m.Wrote m₁ m.dir (i / 1024) pde)
    (hwrote : m₁.Wrote m' table (i % 1024) val) :
    m.Maps m' i frame attributes ↔
      (∀ j, j < 1024 → j ≠ i % 1024 → ¬ Present (m.phys table j)) ∧
        ∀ l, l < 1024 → l ≠ 1 → Present (m.phys m.dir l) →
          frameOf (m.phys m.dir l) ≠ m.dir ∧
            (frameOf (m.phys m.dir l) = table → m.phys table (i % 1024) = val) := by
  have hdir : m'.dir = m.dir := hwrote.dir.trans hpte.dir
  have hself : m'.phys m.dir (i / 1024) = pde := by
    rw [hwrote.other _ _ fun hboth => hne hboth.1.symm, hpte.self]
  have hrow : ∀ l, l ≠ i / 1024 → m'.phys m.dir l = m.phys m.dir l := by
    intro l hl
    rw [hwrote.other _ _ fun hboth => hne hboth.1.symm, hpte.other _ _ fun hboth => hl hboth.2]
  -- outside the directory only the entry of the page has changed
  have hentry : ∀ f j, f ≠ m.dir → ¬ (f = table ∧ j = i % 1024) → m'.phys f j = m.phys f j := by
    intro f j hf hword
    rw [hwrote.other _ _ hword, hpte.other _ _ fun hboth => hf hboth.1]
  constructor
  · intro h
    refine ⟨?_, ?_⟩
    · intro j hj hji
      have hother := h.other (i / 1024 * 1024 + j) (by omega) (by omega) (by omega)
      rw [translate, translate, show (i / 1024 * 1024 + j) / 1024 = i / 1024 by omega,
        show (i / 1024 * 1024 + j) % 1024 = j by omega, hdir, hself, if_pos hpde, if_neg hp, hframe,
        hentry _ _ hne fun hboth => hji hboth.2, resolve_eq_none] at hother
      exact hother
    · intro l hl hl1 hpl
      have hlk : l ≠ i / 1024 := by
        rintro rfl
        exact hp hpl
      refine ⟨?_, ?_⟩
      · -- through a second window the new page table itself would appear
        intro hwindow
        have hother := h.other (l * 1024 + i / 1024) (by omega) (by omega) (by omega)
        rw [translate, translate, show (l * 1024 + i / 1024) / 1024 = l by omega,
          show (l * 1024 + i / 1024) % 1024 = i / 1024 by omega, hdir, hrow l hlk, if_pos hpl,
          if_pos hpl, hwindow, hself, resolve_eq_none.mpr hp, resolve_eq_none] at hother
        exact hother hpde
      · intro hshared
        have hother := h.other (l * 1024 + i % 1024) (by omega) (by omega) (by omega)
        rw [translate, translate, show (l * 1024 + i % 1024) / 1024 = l by omega,
          show (l * 1024 + i % 1024) % 1024 = i % 1024 by omega, hdir, hrow l hlk, if_pos hpl,
          if_pos hpl, hshared, hwrote.self, eq_comm, resolve_eq_iff hval] at hother
        exact hother
  · rintro ⟨hclean, hapart⟩
    refine ⟨?_, ?_⟩
    · rw [translate, hdir, hself, if_pos hpde, hframe, hwrote.self]
      exact hres
    · intro w hw hwi hw1
      rw [translate, translate, hdir]
      by_cases hwk : w / 1024 = i / 1024
      · have hj : w % 1024 ≠ i % 1024 := by omega
        rw [hwk, hself, if_pos hpde, if_neg hp, hframe, hentry _ _ hne fun hboth => hj hboth.2,
          resolve_eq_none]
        exact hclean _ (by omega) hj
      · rw [hrow _ hwk]
        by_cases hpw : Present (m.phys m.dir (w / 1024))
        · obtain ⟨hwindow, hshared⟩ := hapart (w / 1024) (by omega) hw1 hpw
          rw [if_pos hpw, if_pos hpw]
          by_cases hword : frameOf (m.phys m.dir (w / 1024)) = table ∧ w % 1024 = i % 1024
          · rw [hword.1, hword.2, hwrote.self, hshared hword.1]
          · rw [hentry _ _ hwindow hword]
        · rw [if_neg hpw, if_neg hpw]

end

/-- **`map_to` changes one translation only** exactly if a page table that it has to make is in a frame
without present entries, and no page table is used twice. -/
theorem mapTo_translates_iff (m : AddressSpace) (h : m.SelfMapped) (vaddr : UInt32)
    (hwindow : ¬ m.InWindow (vaddr.toNat / 4096)) {frame : Nat} (hframe : frame < 1048576)
    {attributes : UInt32} (hattr : attributes.toNat < 4096) (hpresent : Present attributes)
    (start : Fin 256) {table : Nat} (htable : IsNextFree m.blocks start table)
    (hdir : table ≠ m.dir) :
    m.Maps (m.mapTo vaddr frame attributes start) (vaddr.toNat / 4096) frame attributes ↔
      m.TableOk (vaddr.toNat / 4096) (entryOf frame attributes) table := by
  have hlt := vaddr.toNat_lt
  have hval := (present_entryOf hframe hattr).mpr hpresent
  have hres := resolve_entryOf hframe hattr hpresent
  have hk : vaddr.toNat / 4096 / 1024 ≠ 1 := by
    intro hk
    apply hwindow
    rw [InWindow, hk]
    exact h
  rw [TableOk]
  rcases h.mapTo_spec hk hattr frame start with
    ⟨hp, -, hwrote⟩ | ⟨hp, table', m₁, hfree, htable', -, hpte, hwrote⟩
  · have hne : frameOf (m.phys m.dir (vaddr.toNat / 4096 / 1024)) ≠ m.dir :=
      fun heq => hwindow ⟨hp, heq⟩
    simp only [hp, if_true]
    exact maps_iff_of_present hval hres (by omega) hp hne hwrote
  · obtain rfl := htable.unique hfree
    simp only [hp, if_false]
    exact maps_iff_of_absent hval hres (by omega) hk hp hdir
      ((present_entryOf htable' hattr).mpr hpresent) (frameOf_entryOf htable' hattr) hpte hwrote

/-- After `initialize_memory` a page above the window gets a page table of its own. -/
theorem tableOk_booted {phys : Nat → Nat → UInt32} {i table : Nat} (hi : 2 ≤ i / 1024)
    (htable : 1024 ≤ table) (hclean : ∀ j, ¬ Present (phys table j)) (val : UInt32) :
    (booted phys).TableOk i val table := by
  have hdir : (booted phys).dir = 257 := rfl
  have habsent : ¬ Present ((booted phys).phys (booted phys).dir (i / 1024)) := by
    intro hp
    have hlow := (booted_present hp).2
    omega
  rw [TableOk, if_neg habsent]
  refine ⟨?_, ?_⟩
  · intro j _ _
    show ¬ Present (if table = 257 then _ else if table = 256 then _ else phys table j)
    rw [if_neg (by omega), if_neg (by omega)]
    exact hclean j
  · intro l _ hl1 hp
    obtain ⟨hframe, hl⟩ := booted_present hp
    rw [hframe, hdir]
    refine ⟨by omega, ?_⟩
    intro heq
    omega

/-- The first page at 256 MB, with a clean frame for the page table. -/
theorem mapTo_translates_example :
    (booted fun _ _ => 0).Maps ((booted fun _ _ => 0).mapTo 0x10000000 5000 pageUserData 40) 65536 5000
      pageUserData := by
  have hnext : IsNextFree (booted fun _ _ => 0).blocks 40 1280 := by
    refine .inr ⟨by decide, by decide, by decide +kernel, ?_⟩
    intro g hlo hhi
    omega
  refine (mapTo_translates_iff _ (booted_inOrder _).selfMapped 0x10000000 (by decide +kernel) (by decide)
    pageUserData_lt present_pageUserData 40 hnext (by decide)).mpr ?_
  exact tableOk_booted (by decide) (by decide) (fun _ => by decide) _

/-- The frame of the new page table held odd words: the next page is mapped to frame 0. -/
theorem next_page_mapped :
    ¬ ∀ m : AddressSpace, m.SelfMapped → Marked m.blocks m.dir → ∀ vaddr : UInt32,
      ¬ m.InWindow (vaddr.toNat / 4096) → ∀ frame, frame < 1048576 → ∀ attributes : UInt32,
        attributes.toNat < 4096 → Present attributes → ∀ start : Fin 256,
          (∃ f, f < 1048576 ∧ ¬ Marked m.blocks f) →
            m.Maps (m.mapTo vaddr frame attributes start) (vaddr.toNat / 4096) frame attributes := by
  intro hall
  have hin := booted_inOrder fun _ _ => 1
  have hmaps := hall (booted fun _ _ => 1) hin.selfMapped hin.dir_marked 0x10000000 (by decide +kernel)
    5000 (by decide) pageUserData pageUserData_lt present_pageUserData 40
    ⟨1280, by decide, by decide +kernel⟩
  have hother := hmaps.other 65537 (by decide) (by decide) (by decide)
  revert hother
  decide +kernel

end AddressSpace

end Shipwreck.Memory
