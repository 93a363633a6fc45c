import Shipwreck.Memory.BitAllocator
import Shipwreck.Lib.Transition
import Mathlib.Data.List.Nodup

/-!
# No physical frame is handed out twice

Threads allocate frames with `phys_alloc_page` and `virt_alloc_pages`. What they share is the page
bitmap, and what they do to it is one of two atomic steps: the swap in `lock_block` and the store in
`unlock_block`. `virt_alloc_pages` keeps a block locked while it maps the frames of the block one
after the other, and each mapping may allocate a page table with `phys_alloc_page`.

The pseudo-random start of a search, the number of pages asked for and whether the page table of an
address is there already are inputs of the steps, so that every run is covered, whatever the page
directories contain.

A locked block reads all ones, and so does a full one; the bits of a locked block that count are in
the thread that locked it. The invariant `FrameInv` ties the memory to a *true* bitmap and to who
has locked what. `frames_unique` is then the observation that a frame is handed out when its true
bit goes from 0 to 1, and that no step takes a true bit back.
-/

namespace Shipwreck.Memory

/-- `max_blocks` of the page bitmap: `PAGE_BITMAP_BITS / 32`. -/
def maxBlocks : Nat := 32768

/-- The variables of `virt_alloc_pages` while it has a block locked; `frame` is the number of the
frame at `phys_addr_ptr`. -/
structure Held where
  blockIndex : Nat
  lockedBits : Block
  testbit : Block
  frame : Nat
  pagesLeft : UInt32

/-- Where a thread stands. -/
inductive Pc where
  | idle
  /-- `lock_next_page` is about to try block `i`, called by `virt_alloc_pages` or on its own. -/
  | pageSearch (i : Nat) (outer : Option Held)
  /-- `lock_next_page` has locked block `i`. -/
  | pageStore (i : Nat) (lockedBits : Block) (outer : Option Held)
  /-- `virt_alloc_pages` is about to try block `i`. -/
  | virtSearch (i : Nat) (pagesLeft : UInt32)
  /-- `virt_alloc_pages` is at the head of its inner loop. -/
  | virtScan (h : Held)
  /-- `virt_alloc_pages` has all its pages. -/
  | virtStore (h : Held)

/-- The bitmap, the threads, and the frames handed out so far. -/
structure AllocSys (Tid : Type) where
  blocks : Nat → Block
  pc : Tid → Pc
  given : List Nat

/-- A thread calls an allocator or goes on with what it is doing; `start` is `prand() % 256` and
`present` is what `ensure_pte` finds. -/
inductive AllocAct (Tid : Type) where
  | physAllocPage (t : Tid) (start : Fin 256)
  | virtAllocPages (t : Tid) (pages : UInt32) (start : Fin 256)
  | exec (t : Tid) (present : Bool) (start : Fin 256)

/-- `virt_alloc_pages` after `map_to`. -/
def Held.mapped (h : Held) : Pc :=
  let lockedBits := h.lockedBits ||| h.testbit
  let pagesLeft := h.pagesLeft - 1
  if pagesLeft = 0 then .virtStore { h with lockedBits, pagesLeft }
  else .virtScan { h with lockedBits, pagesLeft, frame := h.frame + 1, testbit := h.testbit <<< 1 }

namespace AllocSys

variable {Tid : Type} [DecidableEq Tid] (s : AllocSys Tid)

def goto (t : Tid) (pc : Pc) : AllocSys Tid := { s with pc := Function.update s.pc t pc }

def give (frame : Nat) : AllocSys Tid := { s with given := s.given ++ [frame] }

def setBlock (i : Nat) (bits : Block) : AllocSys Tid :=
  { s with blocks := Function.update s.blocks i bits }

/-- `lock_next_page` returns `frame`, to its caller or to `ensure_pte`; the mapping that waits for
the page table is then made. -/
def pageReturn (t : Tid) (frame : Nat) : Option Held → AllocSys Tid
  | none => (s.give frame).goto t .idle
  | some h => ((s.give frame).give h.frame).goto t h.mapped

/-- A thread goes on up to its next access to the bitmap or to the page tables. -/
def exec (t : Tid) (present : Bool) (start : Fin 256) : Option (AllocSys Tid) :=
  match s.pc t with
  | .idle => none
  | .pageSearch i outer =>
    let lockedBits := s.blocks i
    let s := s.setBlock i full
    if lockedBits ≠ full then some (s.goto t (.pageStore i lockedBits outer))
    else if i + 1 < maxBlocks then some (s.goto t (.pageSearch (i + 1) outer))
    else some (s.pageReturn t 0 outer)
  | .pageStore i lockedBits outer =>
    let bitIndex := bitscanForward (~~~lockedBits)
    let s := s.setBlock i (lockedBits ||| bit bitIndex)
    some (s.pageReturn t (i * 32 + bitIndex) outer)
  | .virtSearch i pagesLeft =>
    let lockedBits := s.blocks i
    let s := s.setBlock i full
    if lockedBits ≠ full then
      -- `lock_next_block` returns `i`, and 0 ends the loop
      if i = 0 then some (s.goto t .idle)
      else some (s.goto t (.virtScan ⟨i, lockedBits, bit 0, i * 32, pagesLeft⟩))
    else if i + 1 < maxBlocks then some (s.goto t (.virtSearch (i + 1) pagesLeft))
    else some (s.goto t .idle)
  | .virtScan h =>
    if h.lockedBits = full then some (s.goto t (.virtSearch h.blockIndex h.pagesLeft))
    else if h.lockedBits &&& h.testbit = 0 then
      if present then some ((s.give h.frame).goto t h.mapped)
      else some (s.goto t (.pageSearch start (some h)))
    else some (s.goto t (.virtScan { h with frame := h.frame + 1, testbit := h.testbit <<< 1 }))
  | .virtStore h => some ((s.setBlock h.blockIndex h.lockedBits).goto t .idle)

def step : AllocAct Tid → Option (AllocSys Tid)
  | .physAllocPage t start =>
    match s.pc t with
    | .idle => some (s.goto t (.pageSearch start none))
    | _ => none
  | .virtAllocPages t pages start =>
    match s.pc t with
    | .idle => some (s.goto t (.virtSearch start pages))
    | _ => none
  | .exec t present start => s.exec t present start

end AllocSys

/-- Allocation by the threads `Tid` from a page bitmap that starts as `used`. -/
def allocator (Tid : Type) [DecidableEq Tid] (used : Nat → Block) :
    Machine (AllocSys Tid) (AllocAct Tid) where
  init s := s = ⟨used, fun _ => .idle, []⟩
  step := AllocSys.step

/-! ## The invariant -/

/-- Frame `f` is marked in a bitmap. -/
def Marked (bitmap : Nat → Block) (f : Nat) : Prop := (bitmap (f / 32)).getLsbD (f % 32) = true

/-- The thread `t` has locked a block, and has its true bits. -/
def Locked {Tid : Type} (truth : Nat → Block) (holder : Nat → Option Tid) (t : Tid) (i : Nat)
    (bits : Block) : Prop :=
  holder i = some t ∧ truth i = bits

/-- `virt_alloc_pages` has passed the first bits of its block, and all of these are set. -/
def Held.Scanning (h : Held) : Prop :=
  ∃ j, h.testbit = bit j ∧ h.frame = h.blockIndex * 32 + j ∧ j ≤ 32 ∧
    ∀ k, k < j → h.lockedBits.getLsbD k = true

variable {Tid : Type}

/-- `virt_alloc_pages` has locked a block and found a free frame in it. -/
structure Outer (truth : Nat → Block) (holder : Nat → Option Tid) (t : Tid) (h : Held) : Prop where
  locked : Locked truth holder t h.blockIndex h.lockedBits
  scanning : h.Scanning
  free : h.lockedBits &&& h.testbit = 0
  notFull : h.lockedBits ≠ full

/-- What a thread has locked, by where it stands. -/
def PcOk (truth : Nat → Block) (holder : Nat → Option Tid) (t : Tid) : Pc → Prop
  | .idle | .virtSearch _ _ => True
  | .pageSearch _ outer => ∀ h, outer = some h → Outer truth holder t h
  | .pageStore i bits outer =>
    Locked truth holder t i bits ∧ bits ≠ full ∧
      ∀ h, outer = some h → Outer truth holder t h ∧ h.blockIndex ≠ i
  | .virtScan h => Locked truth holder t h.blockIndex h.lockedBits ∧ h.Scanning
  | .virtStore h => Locked truth holder t h.blockIndex h.lockedBits

/-- The memory shows the true bits of the blocks nobody has locked, and all ones for the others;
the true bitmap marks the frames that were used initially and, once each, those handed out. -/
structure FrameInv (used : Nat → Block) (s : AllocSys Tid) (truth : Nat → Block)
    (holder : Nat → Option Tid) : Prop where
  unlocked : ∀ i, holder i = none → s.blocks i = truth i
  locked : ∀ i, holder i ≠ none → s.blocks i = full
  pcOk : ∀ t, PcOk truth holder t (s.pc t)
  used_marked : ∀ f, Marked used f → Marked truth f
  given_marked : ∀ f ∈ s.given, f ≠ 0 → Marked truth f
  given_fresh : ∀ f ∈ s.given, f ≠ 0 → ¬ Marked used f
  given_nodup : (s.given.filter (· ≠ 0)).Nodup

section Mono

variable {truth truth' : Nat → Block} {holder holder' : Nat → Option Tid} {t : Tid} {i : Nat}
  {bits : Block} {h : Held} {pc : Pc}

/-- What `t` has locked depends on the blocks it has locked only. -/
theorem Locked.mono (hkeep : ∀ b, holder b = some t → holder' b = some t ∧ truth' b = truth b)
    (hl : Locked truth holder t i bits) : Locked truth' holder' t i bits := by
  obtain ⟨hholder, htruth⟩ := hl
  obtain ⟨hholder', htruth'⟩ := hkeep i hholder
  exact ⟨hholder', htruth'.trans htruth⟩

theorem Outer.mono (hkeep : ∀ b, holder b = some t → holder' b = some t ∧ truth' b = truth b)
    (ho : Outer truth holder t h) : Outer truth' holder' t h :=
  { ho with locked := ho.locked.mono hkeep }

theorem PcOk.mono (hkeep : ∀ b, holder b = some t → holder' b = some t ∧ truth' b = truth b)
    (hpc : PcOk truth holder t pc) : PcOk truth' holder' t pc := by
  cases pc with
  | idle => trivial
  | pageSearch i outer => exact fun h hh => (hpc h hh).mono hkeep
  | pageStore i bits outer =>
    obtain ⟨hl, hfull, houter⟩ := hpc
    refine ⟨hl.mono hkeep, hfull, ?_⟩
    intro h hh
    exact ⟨(houter h hh).1.mono hkeep, (houter h hh).2⟩
  | virtSearch i pagesLeft => trivial
  | virtScan h => exact ⟨hpc.1.mono hkeep, hpc.2⟩
  | virtStore h => exact hpc.mono hkeep

/-- The bit that a scan stands at, if it is free. -/
theorem Outer.free_bit (ho : Outer truth holder t h) :
    ∃ j, j < 32 ∧ h.testbit = bit j ∧ h.frame = h.blockIndex * 32 + j ∧
      h.lockedBits.getLsbD j = false ∧ ∀ k, k < j → h.lockedBits.getLsbD k = true := by
  obtain ⟨j, htest, hframe, hj, hbelow⟩ := ho.scanning
  have hlt : j < 32 := by
    rcases Nat.lt_or_eq_of_le hj with hlt | rfl
    · exact hlt
    · exact absurd (eq_full hbelow) ho.notFull
  refine ⟨j, hlt, htest, hframe, ?_, hbelow⟩
  have hfree := ho.free
  rw [htest, and_bit_eq_zero_iff] at hfree
  simpa [hlt] using hfree

end Mono

namespace FrameInv

variable [DecidableEq Tid] {used : Nat → Block} {s : AllocSys Tid} {truth : Nat → Block}
  {holder : Nat → Option Tid} {t : Tid} {i : Nat} {bits : Block} {held : Held}

/-- A thread moves on without touching the bitmap. -/
theorem goto (h : FrameInv used s truth holder) (pc : Pc) (hpc : PcOk truth holder t pc) :
    FrameInv used (s.goto t pc) truth holder := by
  refine { h with pcOk := ?_ }
  intro u
  simp only [AllocSys.goto, Function.update_apply]
  split
  · rename_i hu
    subst hu
    exact hpc
  · exact h.pcOk u

/-- A thread moves on from a block that it has locked. The others have locked other blocks, and find these
as they were. -/
theorem pcOk_goto (h : FrameInv used s truth holder) {truth' : Nat → Block}
    {holder' : Nat → Option Tid} {pc : Pc} (hholder : holder i = some t)
    (hkeep : ∀ b u, b ≠ i → holder b = some u → holder' b = some u ∧ truth' b = truth b)
    (hpc : PcOk truth' holder' t pc) (u : Tid) :
    PcOk truth' holder' u (Function.update s.pc t pc u) := by
  rw [Function.update_apply]
  split
  case isTrue hu =>
    rw [hu]
    exact hpc
  case isFalse hu =>
    apply (h.pcOk u).mono
    intro b hb
    apply hkeep b u _ hb
    rintro rfl
    exact hu (Option.some.inj (hb.symm.trans hholder))

omit [DecidableEq Tid] in
/-- A swap that finds all ones changes nothing. -/
theorem setBlock_full (hfull : s.blocks i = full) : s.setBlock i full = s := by
  rw [AllocSys.setBlock, ← hfull, Function.update_eq_self]

omit [DecidableEq Tid] in
/-- A swap that finds something else locks the block. -/
theorem acquire (h : FrameInv used s truth holder) (hne : s.blocks i ≠ full) :
    holder i = none ∧ truth i = s.blocks i ∧
      FrameInv used (s.setBlock i full) truth (Function.update holder i (some t)) := by
  have hfree : holder i = none := by
    by_contra hheld
    exact hne (h.locked i hheld)
  refine ⟨hfree, (h.unlocked i hfree).symm, ?_⟩
  refine { h with unlocked := ?_, locked := ?_, pcOk := ?_ }
  · intro b hb
    by_cases hbi : b = i
    · subst hbi
      rw [Function.update_self] at hb
      cases hb
    · rw [Function.update_of_ne hbi] at hb
      simp only [AllocSys.setBlock, Function.update_of_ne hbi]
      exact h.unlocked b hb
  · intro b hb
    simp only [AllocSys.setBlock, Function.update_apply]
    split
    · rfl
    · rename_i hbi
      rw [Function.update_of_ne hbi] at hb
      exact h.locked b hb
  · intro u
    refine (h.pcOk u).mono ?_
    intro b hb
    refine ⟨?_, rfl⟩
    rw [Function.update_of_ne]
    · exact hb
    · rintro rfl
      rw [hfree] at hb
      cases hb

/-- The thread that has locked a block stores its true bits. -/
theorem release (h : FrameInv used s truth holder) (hl : Locked truth holder t i bits) (pc : Pc)
    (hpc : PcOk truth (Function.update holder i none) t pc) :
    FrameInv used ((s.setBlock i bits).goto t pc) truth (Function.update holder i none) := by
  obtain ⟨hholder, htruth⟩ := hl
  refine { h with unlocked := ?_, locked := ?_, pcOk := ?_ }
  · intro b hb
    simp only [AllocSys.goto, AllocSys.setBlock, Function.update_apply]
    split
    · rename_i hbi
      rw [hbi, htruth]
    · rename_i hbi
      rw [Function.update_of_ne hbi] at hb
      exact h.unlocked b hb
  · intro b hb
    by_cases hbi : b = i
    · rw [hbi, Function.update_self] at hb
      exact absurd rfl hb
    · rw [Function.update_of_ne hbi] at hb
      simp only [AllocSys.goto, AllocSys.setBlock, Function.update_of_ne hbi]
      exact h.locked b hb
  · apply h.pcOk_goto hholder _ hpc
    intro b u hbi hb
    rw [Function.update_of_ne hbi]
    exact ⟨hb, rfl⟩

/-- **A frame is handed out when its true bit is set**, by the thread that has its block locked. -/
theorem mark {j : Nat} (h : FrameInv used s truth holder) (hl : Locked truth holder t i bits)
    (hj : j < 32) (hclear : bits.getLsbD j = false) (pc : Pc)
    (hpc : PcOk (Function.update truth i (bits ||| bit j)) holder t pc) :
    FrameInv used ((s.give (i * 32 + j)).goto t pc)
      (Function.update truth i (bits ||| bit j)) holder := by
  obtain ⟨hholder, htruth⟩ := hl
  have hblock : (i * 32 + j) / 32 = i := by omega
  have hbit : (i * 32 + j) % 32 = j := by omega
  have hnew : ¬ Marked truth (i * 32 + j) := by
    rw [Marked, hblock, hbit, htruth, hclear]
    exact Bool.false_ne_true
  -- true bits are only ever set
  have hgrow : ∀ f, Marked truth f → Marked (Function.update truth i (bits ||| bit j)) f := by
    intro f hf
    simp only [Marked, Function.update_apply]
    split
    · rename_i hfi
      rw [Marked, hfi, htruth] at hf
      rw [getLsbD_or_bit, hf, Bool.true_or]
    · exact hf
  have hset : Marked (Function.update truth i (bits ||| bit j)) (i * 32 + j) := by
    rw [Marked, hblock, hbit, Function.update_self, getLsbD_or_bit]
    simp [hj]
  constructor
  case unlocked =>
    intro b hb
    rw [Function.update_of_ne]
    · exact h.unlocked b hb
    · rintro rfl
      rw [hholder] at hb
      cases hb
  case locked => exact h.locked
  case pcOk =>
    apply h.pcOk_goto hholder _ hpc
    intro b u hbi hb
    exact ⟨hb, Function.update_of_ne hbi ..⟩
  case used_marked => exact fun f hf => hgrow f (h.used_marked f hf)
  case given_marked =>
    intro f hf hne
    rcases List.mem_append.mp hf with hf | hf
    · exact hgrow f (h.given_marked f hf hne)
    · rw [List.mem_singleton.mp hf]
      exact hset
  case given_fresh =>
    intro f hf hne
    rcases List.mem_append.mp hf with hf | hf
    · exact h.given_fresh f hf hne
    · rw [List.mem_singleton.mp hf]
      exact fun hused => hnew (h.used_marked _ hused)
  case given_nodup =>
    have hfilter : (s.given ++ [i * 32 + j]).filter (· ≠ 0) =
        s.given.filter (· ≠ 0) ++ [i * 32 + j].filter (· ≠ 0) := List.filter_append ..
    show ((s.given ++ [i * 32 + j]).filter (· ≠ 0)).Nodup
    rw [hfilter]
    refine List.Nodup.append h.given_nodup ((List.nodup_singleton _).filter _) ?_
    intro f hf hf'
    simp only [List.mem_filter, List.mem_singleton, decide_eq_true_eq] at hf hf'
    obtain ⟨rfl, -⟩ := hf'
    exact hnew (h.given_marked _ hf.1 hf.2)

omit [DecidableEq Tid] in
/-- Frame 0 is what a search that fails returns. -/
theorem give_zero (h : FrameInv used s truth holder) : FrameInv used (s.give 0) truth holder := by
  have hfilter : (s.given ++ [0]).filter (· ≠ 0) = s.given.filter (· ≠ 0) := by
    simp
  have hmem : ∀ f ∈ s.given ++ [0], f ≠ 0 → f ∈ s.given := by
    intro f hf hne
    rcases List.mem_append.mp hf with hf | hf
    · exact hf
    · exact absurd (List.mem_singleton.mp hf) hne
  refine { h with given_marked := ?_, given_fresh := ?_, given_nodup := ?_ }
  · exact fun f hf hne => h.given_marked f (hmem f hf hne) hne
  · exact fun f hf hne => h.given_fresh f (hmem f hf hne) hne
  · show ((s.given ++ [0]).filter (· ≠ 0)).Nodup
    rw [hfilter]
    exact h.given_nodup

/-- `virt_alloc_pages` maps the frame it stands at. -/
theorem mapped (h : FrameInv used s truth holder) (ho : Outer truth holder t held) :
    ∃ truth', FrameInv used ((s.give held.frame).goto t held.mapped) truth' holder := by
  obtain ⟨j, hj, htest, hframe, hclear, hbelow⟩ := ho.free_bit
  have hlocked : Locked
      (Function.update truth held.blockIndex (held.lockedBits ||| bit j)) holder t
      held.blockIndex (held.lockedBits ||| bit j) :=
    ⟨ho.locked.1, Function.update_self ..⟩
  rw [hframe]
  refine ⟨_, h.mark ho.locked hj hclear _ ?_⟩
  simp only [Held.mapped, htest]
  split
  · exact hlocked
  · refine ⟨hlocked, j + 1, bit_succ, ?_, by omega, ?_⟩
    · simp only [hframe]
      omega
    · intro k hk
      rw [getLsbD_or_bit]
      rcases Nat.lt_succ_iff_lt_or_eq.mp hk with hlt | rfl
      · rw [hbelow k hlt, Bool.true_or]
      · simp [hj]

/-- `lock_next_page` has handed `frame` out, and the mapping that waits for it is made. -/
theorem pageReturn {frame : Nat} {outer : Option Held}
    (h : FrameInv used ((s.give frame).goto t .idle) truth holder)
    (houter : ∀ held, outer = some held → Outer truth holder t held) :
    ∃ truth', FrameInv used (s.pageReturn t frame outer) truth' holder := by
  cases outer with
  | none => exact ⟨truth, h⟩
  | some held =>
    obtain ⟨truth', h'⟩ := h.mapped (houter held rfl)
    refine ⟨truth', ?_⟩
    simpa [AllocSys.pageReturn, AllocSys.goto, AllocSys.give] using h'

/-- `lock_next_page` tries a block. -/
theorem pageSearch {outer : Option Held} {s' : AllocSys Tid} {present : Bool} {start : Fin 256}
    (h : FrameInv used s truth holder) (hpc : s.pc t = .pageSearch i outer)
    (hs : s.exec t present start = some s') :
    ∃ truth' holder', FrameInv used s' truth' holder' := by
  have houter : ∀ held, outer = some held → Outer truth holder t held := by
    have hok := h.pcOk t
    rwa [hpc] at hok
  simp only [AllocSys.exec, hpc] at hs
  split at hs
  · -- the block is ours
    rename_i hne
    cases hs
    obtain ⟨hfree, htruth, hlocked⟩ := h.acquire (t := t) hne
    refine ⟨truth, _, hlocked.goto _ ⟨⟨Function.update_self .., htruth⟩, hne, ?_⟩⟩
    intro held hheld
    have hother : ∀ b, holder b = some t → b ≠ i := by
      rintro b hb rfl
      rw [hfree] at hb
      cases hb
    refine ⟨(houter held hheld).mono ?_, hother _ (houter held hheld).locked.1⟩
    intro b hb
    exact ⟨by rw [Function.update_of_ne (hother b hb)]; exact hb, rfl⟩
  · rename_i hfull
    rw [setBlock_full (Classical.not_not.mp hfull)] at hs
    split at hs
    · cases hs
      exact ⟨truth, holder, h.goto _ houter⟩
    · cases hs
      obtain ⟨truth', h'⟩ := (h.give_zero.goto (t := t) .idle trivial).pageReturn houter
      exact ⟨truth', holder, h'⟩

/-- `lock_next_page` takes a frame of the block it has locked, and unlocks the block. -/
theorem pageStore {outer : Option Held} {s' : AllocSys Tid} {present : Bool} {start : Fin 256}
    (h : FrameInv used s truth holder) (hpc : s.pc t = .pageStore i bits outer)
    (hs : s.exec t present start = some s') :
    ∃ truth' holder', FrameInv used s' truth' holder' := by
  obtain ⟨hl, hne, houter⟩ : PcOk truth holder t (.pageStore i bits outer) := by
    have hok := h.pcOk t
    rwa [hpc] at hok
  simp only [AllocSys.exec, hpc, Option.some.injEq] at hs
  subst hs
  obtain ⟨hclear, hlt⟩ := bitscanForward_not hne
  generalize bitscanForward (~~~bits) = j at hclear hlt ⊢
  have hmark := h.mark hl hlt hclear .idle trivial
  have hlocked : Locked (Function.update truth i (bits ||| bit j)) holder t i (bits ||| bit j) :=
    ⟨hl.1, Function.update_self ..⟩
  have hrelease := hmark.release hlocked .idle trivial
  have hstate : (((s.give (i * 32 + j)).goto t .idle).setBlock i (bits ||| bit j)).goto t .idle =
      ((s.setBlock i (bits ||| bit j)).give (i * 32 + j)).goto t .idle := by
    simp [AllocSys.goto, AllocSys.give, AllocSys.setBlock]
  rw [hstate] at hrelease
  have houter' : ∀ held, outer = some held →
      Outer (Function.update truth i (bits ||| bit j)) (Function.update holder i none) t held := by
    intro held hheld
    obtain ⟨ho, hdiff⟩ := houter held hheld
    refine { ho with locked := ?_ }
    obtain ⟨hholder, htruth⟩ := ho.locked
    exact ⟨by rw [Function.update_of_ne hdiff]; exact hholder,
      by rw [Function.update_of_ne hdiff]; exact htruth⟩
  obtain ⟨truth', h'⟩ := hrelease.pageReturn houter'
  exact ⟨truth', _, h'⟩

/-- `virt_alloc_pages` tries a block. -/
theorem virtSearch {pagesLeft : UInt32} {s' : AllocSys Tid} {present : Bool} {start : Fin 256}
    (h : FrameInv used s truth holder) (hpc : s.pc t = .virtSearch i pagesLeft)
    (hs : s.exec t present start = some s') :
    ∃ truth' holder', FrameInv used s' truth' holder' := by
  simp only [AllocSys.exec, hpc] at hs
  split at hs
  · rename_i hne
    obtain ⟨-, htruth, hlocked⟩ := h.acquire (t := t) hne
    split at hs
    · cases hs
      exact ⟨truth, _, hlocked.goto _ trivial⟩
    · cases hs
      refine ⟨truth, _, hlocked.goto _ ⟨⟨Function.update_self .., htruth⟩, 0, rfl, rfl, by omega, ?_⟩⟩
      exact fun k hk => absurd hk (Nat.not_lt_zero k)
  · rename_i hfull
    rw [setBlock_full (Classical.not_not.mp hfull)] at hs
    split at hs
    · cases hs
      exact ⟨truth, holder, h.goto _ trivial⟩
    · cases hs
      exact ⟨truth, holder, h.goto _ trivial⟩

/-- `virt_alloc_pages` looks at one bit of its block. -/
theorem virtScan {s' : AllocSys Tid} {present : Bool} {start : Fin 256}
    (h : FrameInv used s truth holder) (hpc : s.pc t = .virtScan held)
    (hs : s.exec t present start = some s') :
    ∃ truth' holder', FrameInv used s' truth' holder' := by
  obtain ⟨hl, hscan⟩ : PcOk truth holder t (.virtScan held) := by
    have hok := h.pcOk t
    rwa [hpc] at hok
  simp only [AllocSys.exec, hpc] at hs
  split at hs
  · -- the block is full, and what it reads is true: it is unlocked without a store
    rename_i hfull
    cases hs
    have hblock : s.blocks held.blockIndex = full := by
      apply h.locked
      rw [hl.1]
      exact Option.some_ne_none t
    rw [hfull] at hl
    have hrelease := h.release hl (.virtSearch held.blockIndex held.pagesLeft) trivial
    rw [setBlock_full hblock] at hrelease
    exact ⟨truth, _, hrelease⟩
  · rename_i hne
    split at hs
    · rename_i hfree
      have ho : Outer truth holder t held := ⟨hl, hscan, hfree, hne⟩
      split at hs
      · cases hs
        obtain ⟨truth', h'⟩ := h.mapped ho
        exact ⟨truth', holder, h'⟩
      · cases hs
        refine ⟨truth, holder, h.goto _ ?_⟩
        rintro held' ⟨rfl⟩
        exact ho
    · rename_i hset
      cases hs
      refine ⟨truth, holder, h.goto _ ⟨hl, ?_⟩⟩
      obtain ⟨j, htest, hframe, -, hbelow⟩ := hscan
      rw [htest, and_bit_eq_zero_iff, Classical.not_not] at hset
      refine ⟨j + 1, ?_, ?_, by omega, ?_⟩
      · simp only [htest]
        exact bit_succ
      · simp only [hframe]
        omega
      · intro k hk
        rcases Nat.lt_succ_iff_lt_or_eq.mp hk with hlt | rfl
        · exact hbelow k hlt
        · exact hset.2

theorem exec {s' : AllocSys Tid} {present : Bool} {start : Fin 256}
    (h : FrameInv used s truth holder) (hs : s.exec t present start = some s') :
    ∃ truth' holder', FrameInv used s' truth' holder' := by
  cases hpc : s.pc t with
  | idle =>
    simp only [AllocSys.exec, hpc] at hs
    cases hs
  | pageSearch i outer => exact h.pageSearch hpc hs
  | pageStore i bits outer => exact h.pageStore hpc hs
  | virtSearch i pagesLeft => exact h.virtSearch hpc hs
  | virtScan held => exact h.virtScan hpc hs
  | virtStore held =>
    have hl : PcOk truth holder t (.virtStore held) := by
      have hok := h.pcOk t
      rwa [hpc] at hok
    simp only [AllocSys.exec, hpc] at hs
    cases hs
    exact ⟨truth, _, h.release hl _ trivial⟩

theorem step {s' : AllocSys Tid} {a : AllocAct Tid} (h : FrameInv used s truth holder)
    (hs : s.step a = some s') : ∃ truth' holder', FrameInv used s' truth' holder' := by
  cases a with
  | physAllocPage t start =>
    simp only [AllocSys.step] at hs
    split at hs
    · cases hs
      refine ⟨truth, holder, h.goto _ ?_⟩
      rintro held ⟨⟩
    · cases hs
  | virtAllocPages t pages start =>
    simp only [AllocSys.step] at hs
    split at hs
    · cases hs
      exact ⟨truth, holder, h.goto _ trivial⟩
    · cases hs
  | exec t present start => exact h.exec hs

omit [DecidableEq Tid] in
/-- What is handed out is marked in memory, locked or not. -/
theorem given_in_bitmap (h : FrameInv used s truth holder) {f : Nat} (hf : f ∈ s.given)
    (hne : f ≠ 0) : Marked s.blocks f := by
  cases hholder : holder (f / 32) with
  | none =>
    rw [Marked, h.unlocked _ hholder]
    exact h.given_marked f hf hne
  | some t =>
    rw [Marked, h.locked _ (by rw [hholder]; exact Option.some_ne_none t), full,
      BitVec.getLsbD_allOnes]
    simpa using Nat.mod_lt f (by decide)

end FrameInv

/-! ## Every run -/

section Runs

variable [DecidableEq Tid] {used : Nat → Block} {s s' : AllocSys Tid}

theorem reachable_frameInv (h : (allocator Tid used).Reachable s) :
    ∃ truth holder, FrameInv used s truth holder := by
  refine h.invariant (P := fun s => ∃ truth holder, FrameInv used s truth holder) ?_ ?_
  · rintro s rfl
    refine ⟨used, fun _ => none, ?_⟩
    constructor
    case unlocked => exact fun i _ => rfl
    case locked => exact fun i hi => absurd rfl hi
    case pcOk => exact fun t => trivial
    case used_marked => exact fun f hf => hf
    case given_marked => exact fun f hf => absurd hf List.not_mem_nil
    case given_fresh => exact fun f hf => absurd hf List.not_mem_nil
    case given_nodup => exact List.nodup_nil
  · rintro s a s' ⟨truth, holder, hinv⟩ hs
    exact hinv.step hs

theorem given_pageReturn (t : Tid) (frame : Nat) (outer : Option Held) :
    s.given ⊆ (s.pageReturn t frame outer).given := by
  intro f hf
  cases outer <;> simp [AllocSys.pageReturn, AllocSys.goto, AllocSys.give, hf]

/-- What is handed out stays handed out. -/
theorem given_step {a : AllocAct Tid} (hs : s.step a = some s') : s.given ⊆ s'.given := by
  cases a with
  | physAllocPage t start =>
    simp only [AllocSys.step] at hs
    split at hs
    · cases hs
      exact List.Subset.refl _
    · cases hs
  | virtAllocPages t pages start =>
    simp only [AllocSys.step] at hs
    split at hs
    · cases hs
      exact List.Subset.refl _
    · cases hs
  | exec t present start =>
    simp only [AllocSys.step, AllocSys.exec] at hs
    split at hs
    · cases hs
    · split at hs
      · cases hs
        exact List.Subset.refl _
      · split at hs
        · cases hs
          exact List.Subset.refl _
        · cases hs
          exact given_pageReturn (s := s.setBlock _ full) t 0 _
    · cases hs
      exact given_pageReturn (s := s.setBlock _ _) t _ _
    · split at hs
      · split at hs <;> cases hs <;> exact List.Subset.refl _
      · split at hs <;> cases hs <;> exact List.Subset.refl _
    · split at hs
      · cases hs
        exact List.Subset.refl _
      · split at hs
        · split at hs
          · cases hs
            exact List.subset_append_left _ _
          · cases hs
            exact List.Subset.refl _
        · cases hs
          exact List.Subset.refl _
    · cases hs
      exact List.Subset.refl _

theorem given_exec {acts : List (AllocAct Tid)}
    (hrun : (allocator Tid used).exec s acts = some s') : s.given ⊆ s'.given := by
  induction acts generalizing s with
  | nil =>
    cases hrun
    exact List.Subset.refl _
  | cons a acts ih =>
    rw [Machine.exec_cons] at hrun
    obtain ⟨s₁, h₁, hrest⟩ := Option.bind_eq_some_iff.mp hrun
    exact List.Subset.trans (given_step h₁) (ih hrest)

/-- **No physical frame is handed out twice**: in every run of any number of threads, the frames
handed out (0 stands for none) are distinct, were not used to begin with, and are marked in the
bitmap for ever after. -/
theorem frames_unique (used : Nat → Block) (s : AllocSys Tid)
    (h : (allocator Tid used).Reachable s) :
    (s.given.filter (· ≠ 0)).Nodup ∧ (∀ f ∈ s.given, f ≠ 0 → ¬ Marked used f) ∧
      ∀ acts s', (allocator Tid used).exec s acts = some s' →
        ∀ f ∈ s.given, f ≠ 0 → Marked s'.blocks f := by
  obtain ⟨truth, holder, hinv⟩ := reachable_frameInv h
  refine ⟨hinv.given_nodup, hinv.given_fresh, ?_⟩
  intro acts s' hrun f hf hne
  obtain ⟨s₀, acts₀, h₀, hrun₀⟩ := h
  have hreach : (allocator Tid used).Reachable s' := by
    refine ⟨s₀, acts₀ ++ acts, h₀, ?_⟩
    rw [Machine.exec_append, hrun₀]
    exact hrun
  obtain ⟨truth', holder', hinv'⟩ := reachable_frameInv hreach
  exact hinv'.given_in_bitmap (given_exec hrun hf) hne

/-- The 1024 low frames are used. -/
def lowUsed : Nat → Block := fun i => if i < 32 then full else 0

/-- Thread `true` maps two pages from block `start` and needs a page table for the first, while thread
`false` allocates a frame. -/
def overlapping (start : Fin 256) : List (AllocAct Bool) :=
  [.virtAllocPages true 2 start, .exec true true start, .exec true false start,
    .physAllocPage false start, .exec false true start, .exec false true start,
    .exec true true start, .exec true true start, .exec true true start, .exec false true start,
    .exec true true start, .exec true true start, .exec true true start]

theorem overlapping_unique :
    ∃ s, (allocator Bool lowUsed).exec ⟨lowUsed, fun _ => .idle, []⟩ (overlapping 200) = some s ∧
      s.given = [6432, 6464, 6400, 6401] ∧ (s.given.filter (· ≠ 0)).Nodup := by
  have hgiven : ((allocator Bool lowUsed).exec ⟨lowUsed, fun _ => .idle, []⟩ (overlapping 200)).map
      (·.given) = some [6432, 6464, 6400, 6401] := by
    decide +kernel
  obtain ⟨s, hrun, hs⟩ := Option.map_eq_some_iff.mp hgiven
  exact ⟨s, hrun, hs, (frames_unique lowUsed s ⟨_, overlapping 200, rfl, hrun⟩).1⟩

end Runs

end Shipwreck.Memory
