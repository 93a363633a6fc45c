import Shipwreck.Lib.Extent
import Shipwreck.Memory.Paging

/-!
# Reserved addresses

`next_virtual_pages` and `static_alloc_pages` reserve addresses: each moves a pointer on by a number of
pages with `atomic_add_limit`, which does not let it go beyond its limit. The number of bytes is
multiplied in 32 bits before the comparison, so that from 2^20 pages on too few addresses are reserved.

A result that is equal to the limit means failure; and both a limit and a pointer at 0 are null
pointers in the end. `reserved_apart_iff` says of which sequences of calls the ranges do not overlap.
-/

namespace Shipwreck.Memory

/-- `MAX_ADD_TRIES` -/
def maxAddTries : Nat := 10

/-- The loop of `atomic_add_limit`, with `left` tries to go: the variable and the result. Nobody else
writes `val`, so that a compare-and-swap that finds `myval` in it comes to an end. -/
def atomicAddLimitFrom (diff limit val : UInt32) : Nat → UInt32 → UInt32 × UInt32
  | 0, _ => (val, limit)
  | left + 1, myval =>
    if diff > limit - myval then (val, limit)
    else if val = myval then (myval + diff, myval)
    else atomicAddLimitFrom diff limit val left val

/-- `atomic_add_limit(val, diff, limit)` -/
def atomicAddLimit (val diff limit : UInt32) : UInt32 × UInt32 :=
  atomicAddLimitFrom diff limit val maxAddTries val

/-- A reservation of pages below a limit: the pointer, and the first address or null. -/
def reservePages (limit ptr pages : UInt32) : UInt32 × UInt32 :=
  let newval := atomicAddLimit ptr (pages * 4096) limit
  (newval.1, if newval.2 = limit then 0 else newval.2)

/-- `static_alloc_ptr` and `static_alloc_limit` -/
structure StaticHeap where
  staticAllocPtr : UInt32
  staticAllocLimit : UInt32
  deriving DecidableEq, Repr

/-- `static_alloc_pages(pages)` -/
def StaticHeap.staticAllocPages (h : StaticHeap) (pages : UInt32) : StaticHeap × UInt32 :=
  let addr := reservePages h.staticAllocLimit h.staticAllocPtr pages
  ({ h with staticAllocPtr := addr.1 }, addr.2)

variable {limit ptr pages diff : UInt32}

theorem atomicAddLimit_eq (val diff limit : UInt32) :
    atomicAddLimit val diff limit =
      if diff > limit - val then (val, limit) else (val + diff, val) := by
  rw [atomicAddLimit, maxAddTries, atomicAddLimitFrom, if_pos rfl]

theorem reservePages_eq (limit ptr pages : UInt32) :
    reservePages limit ptr pages =
      if pages * 4096 > limit - ptr then (ptr, 0)
      else (ptr + pages * 4096, if ptr = limit then 0 else ptr) := by
  rw [reservePages, atomicAddLimit_eq]
  by_cases hdiff : pages * 4096 > limit - ptr
  · simp only [hdiff, if_true]
  · simp only [hdiff, if_false]

theorem AddressSpace.nextVirtualPages_eq_if (m : AddressSpace) (pages : UInt32) :
    m.nextVirtualPages pages =
      if pages * 4096 > 0xFFFFFFFF - m.virtAllocPtr then (m, 0)
      else ({ m with virtAllocPtr := m.virtAllocPtr + pages * 4096 },
        if m.virtAllocPtr = 0xFFFFFFFF then 0 else m.virtAllocPtr) := by
  unfold nextVirtualPages
  rfl

/-- A reservation of virtual addresses below a limit. -/
def AddressSpace.reserveBelow (limit : UInt32) (m : AddressSpace) (pages : UInt32) :
    AddressSpace × UInt32 :=
  let addr := reservePages limit m.virtAllocPtr pages
  ({ m with virtAllocPtr := addr.1 }, addr.2)

/-- The limit of `next_virtual_pages` is `-1`. -/
theorem AddressSpace.nextVirtualPages_eq_reserve :
    nextVirtualPages = reserveBelow 0xFFFFFFFF := by
  funext m pages
  rw [m.nextVirtualPages_eq_if, reserveBelow, reservePages_eq]
  by_cases hdiff : pages * 4096 > 0xFFFFFFFF - m.virtAllocPtr
  · rw [if_pos hdiff, if_pos hdiff]
  · rw [if_neg hdiff, if_neg hdiff]

/-! ## One reservation -/

/-- The number of bytes is not cut off; or so many addresses are not left anyway, or the result is
null whatever the pointer does. -/
def PagesFit (limit ptr pages : UInt32) : Prop :=
  pages.toNat < 1048576 ∨ pages * 4096 > limit - ptr ∨ ptr = 0 ∨ ptr = limit

instance (limit ptr pages : UInt32) : Decidable (PagesFit limit ptr pages) :=
  inferInstanceAs (Decidable (_ ∨ _))

theorem toNat_bytes (pages : UInt32) :
    (pages * 4096).toNat = pages.toNat * 4096 % 4294967296 := by
  rw [UInt32.toNat_mul]
  rfl

/-- The pointer moves on and stays below the limit. -/
theorem reservePages_ptr (pages : UInt32) (h : ptr ≤ limit) :
    ptr.toNat ≤ (reservePages limit ptr pages).1.toNat ∧
      (reservePages limit ptr pages).1.toNat ≤ limit.toNat := by
  have hle : ptr.toNat ≤ limit.toNat := UInt32.le_iff_toNat_le.mp h
  have hlt := limit.toNat_lt
  rw [reservePages_eq]
  by_cases hfits : pages * 4096 > limit - ptr
  · rw [if_pos hfits]
    exact ⟨Nat.le_refl _, hle⟩
  · rw [if_neg hfits]
    rw [gt_iff_lt, UInt32.lt_iff_toNat_lt, UInt32.toNat_sub_of_le _ _ h] at hfits
    rw [UInt32.toNat_add]
    omega

/-- A result that is not null is the old pointer, and the range that fits ends at the new one. -/
theorem reservePages_range (h : ptr ≤ limit) (hres : (reservePages limit ptr pages).2 ≠ 0) :
    (reservePages limit ptr pages).2 = ptr ∧
      (PagesFit limit ptr pages ↔ pages.toNat < 1048576) ∧
      (pages.toNat < 1048576 →
        ptr.toNat + pages.toNat * 4096 = (reservePages limit ptr pages).1.toNat) := by
  have hle : ptr.toNat ≤ limit.toNat := UInt32.le_iff_toNat_le.mp h
  have hlt := limit.toNat_lt
  rw [reservePages_eq] at hres ⊢
  by_cases hfits : pages * 4096 > limit - ptr
  · rw [if_pos hfits] at hres
    exact absurd rfl hres
  · simp only [hfits, if_false] at hres ⊢
    have hlimit : ptr ≠ limit := by
      intro heq
      rw [if_pos heq] at hres
      exact hres rfl
    rw [if_neg hlimit] at hres ⊢
    refine ⟨rfl, ?_, ?_⟩
    · simp [PagesFit, hfits, hres, hlimit]
    · intro hpages
      rw [gt_iff_lt, UInt32.lt_iff_toNat_lt, UInt32.toNat_sub_of_le _ _ h, toNat_bytes] at hfits
      rw [UInt32.toNat_add, toNat_bytes]
      omega

/-! ## Sequences of calls -/

/-- Calls of `static_alloc_pages` or of `next_virtual_pages` with these numbers of pages. -/
def reservations {σ : Type} (reserve : σ → UInt32 → σ × UInt32) : Machine σ UInt32 where
  init _ := True
  step s pages := some (reserve s pages).1

/-- The ranges that the calls return, those of the null pointers left out. -/
def ranges {σ : Type} (reserve : σ → UInt32 → σ × UInt32) : σ → List UInt32 → List Extent
  | _, [] => []
  | s, pages :: calls =>
    let (s, addr) := reserve s pages
    if addr = 0 then ranges reserve s calls
    else ⟨addr.toNat, pages.toNat * 4096⟩ :: ranges reserve s calls

/-- Ranges that have no address in common and end at the limit or before. -/
def Exclusively (limit : UInt32) (es : List Extent) : Prop :=
  es.Pairwise Extent.Apart ∧ ∀ e ∈ es, e.stop ≤ limit.toNat

section

variable {σ : Type} {reserve : σ → UInt32 → σ × UInt32} {getPtr : σ → UInt32}
  {Valid : σ → Prop} {s : σ} {calls : List UInt32}

/-- What the two functions have in common. -/
structure Reserves (limit : UInt32) (getPtr : σ → UInt32) (Valid : σ → Prop)
    (reserve : σ → UInt32 → σ × UInt32) : Prop where
  ptr : ∀ s pages, Valid s → getPtr (reserve s pages).1 = (reservePages limit (getPtr s) pages).1
  addr : ∀ s pages, Valid s → (reserve s pages).2 = (reservePages limit (getPtr s) pages).2
  valid : ∀ s pages, Valid s → Valid (reserve s pages).1

namespace Reserves

variable (hres : Reserves limit getPtr Valid reserve)

include hres

theorem stacked (hs : Valid s) (hle : getPtr s ≤ limit)
    (hfits : (reservations reserve).Steps (fun s => PagesFit limit (getPtr s)) s calls) :
    Extent.Stacked limit.toNat (getPtr s).toNat (ranges reserve s calls) := by
  induction calls generalizing s with
  | nil => exact UInt32.le_iff_toNat_le.mp hle
  | cons pages calls ih =>
    obtain ⟨hfit, hrest⟩ := hfits
    obtain ⟨hlo, hhi⟩ := reservePages_ptr pages hle
    rw [← hres.ptr s pages hs] at hlo hhi
    have hstacked := ih (hres.valid s pages hs) (UInt32.le_iff_toNat_le.mpr hhi) (hrest _ rfl)
    rw [ranges]
    by_cases haddr : (reserve s pages).2 = 0
    · simp only [haddr, if_true]
      exact hstacked.mono hlo
    · simp only [haddr, if_false]
      rw [hres.addr s pages hs] at haddr
      obtain ⟨heq, hiff, hstop⟩ := reservePages_range hle haddr
      rw [← hres.ptr s pages hs] at hstop
      rw [hres.addr s pages hs, heq]
      refine ⟨Nat.le_refl _, ?_⟩
      show Extent.Stacked _ (_ + _) _
      rw [hstop (hiff.mp hfit)]
      exact hstacked

/-- A call whose bytes are cut off returns a range that ends behind the limit. -/
theorem fits_of_bounds (hs : Valid s) (hle : getPtr s ≤ limit)
    (hbounds : ∀ e ∈ ranges reserve s calls, e.stop ≤ limit.toNat) :
    (reservations reserve).Steps (fun s => PagesFit limit (getPtr s)) s calls := by
  induction calls generalizing s with
  | nil => trivial
  | cons pages calls ih =>
    obtain ⟨-, hhi⟩ := reservePages_ptr pages hle
    rw [← hres.ptr s pages hs] at hhi
    rw [ranges] at hbounds
    by_cases haddr : (reserve s pages).2 = 0
    · simp only [haddr, if_true] at hbounds
      refine ⟨?_, ?_⟩
      · by_contra hnot
        rw [hres.addr s pages hs, reservePages_eq] at haddr
        simp only [PagesFit, not_or] at hnot
        obtain ⟨-, hfits, hzero, hlimit⟩ := hnot
        simp [hfits, hlimit] at haddr
        exact hzero haddr
      · rintro s' ⟨⟩
        exact ih (hres.valid s pages hs) (UInt32.le_iff_toNat_le.mpr hhi) hbounds
    · simp only [haddr, if_false] at hbounds
      rw [List.forall_mem_cons] at hbounds
      refine ⟨?_, ?_⟩
      · rw [hres.addr s pages hs] at haddr
        have hrange := reservePages_range hle haddr
        rw [hrange.2.1]
        have hstop := hbounds.1
        simp only [Extent.stop] at hstop
        have hlt := limit.toNat_lt
        omega
      · rintro s' ⟨⟩
        exact ih (hres.valid s pages hs) (UInt32.le_iff_toNat_le.mpr hhi) hbounds.2

/-- The ranges do not overlap exactly if no number of bytes is cut off. -/
theorem exclusively_iff (hs : Valid s) (hle : getPtr s ≤ limit) :
    Exclusively limit (ranges reserve s calls) ↔
      (reservations reserve).Steps (fun s => PagesFit limit (getPtr s)) s calls := by
  constructor
  · intro h
    exact hres.fits_of_bounds hs hle h.2
  · intro h
    have hstacked := hres.stacked hs hle h
    exact ⟨hstacked.pairwise, fun e he => (hstacked.bounds he).2⟩

end Reserves

end

theorem AddressSpace.reserves (limit : UInt32) :
    Reserves limit virtAllocPtr (fun _ => True) (reserveBelow limit) where
  ptr _ _ _ := rfl
  addr _ _ _ := rfl
  valid _ _ _ := trivial

theorem StaticHeap.reserves (limit : UInt32) :
    Reserves limit staticAllocPtr (fun h => h.staticAllocLimit = limit) staticAllocPages where
  ptr _ _ hlimit := by
    rw [← hlimit]
    rfl
  addr _ _ hlimit := by
    rw [← hlimit]
    rfl
  valid _ _ hlimit := hlimit

/-- **Reserved ranges do not overlap** exactly in those sequences of calls in which no call that
returns a range has its number of bytes cut off. -/
theorem reserved_apart_iff (calls : List UInt32) :
    (∀ m : AddressSpace, Exclusively 0xFFFFFFFF (ranges AddressSpace.nextVirtualPages m calls) ↔
      (reservations AddressSpace.nextVirtualPages).Steps
        (fun m => PagesFit 0xFFFFFFFF m.virtAllocPtr) m calls) ∧
    (∀ h : StaticHeap, h.staticAllocPtr ≤ h.staticAllocLimit →
      (Exclusively h.staticAllocLimit (ranges StaticHeap.staticAllocPages h calls) ↔
        (reservations StaticHeap.staticAllocPages).Steps
          (fun h' => PagesFit h.staticAllocLimit h'.staticAllocPtr) h calls)) := by
  refine ⟨?_, ?_⟩
  · intro m
    rw [AddressSpace.nextVirtualPages_eq_reserve]
    apply (AddressSpace.reserves _).exclusively_iff trivial
    rw [UInt32.le_iff_toNat_le]
    exact Nat.le_of_lt_succ m.virtAllocPtr.toNat_lt
  · intro h hle
    exact (StaticHeap.reserves h.staticAllocLimit).exclusively_iff rfl hle

/-- Five pages, more than there are, and all that are left. -/
theorem reserved_apart_example :
    ranges StaticHeap.staticAllocPages ⟨0x122000, 0x400000⟩ [5, 1000, 729] =
        [⟨0x122000, 20480⟩, ⟨0x127000, 2985984⟩] ∧
      Exclusively 0x400000 (ranges StaticHeap.staticAllocPages ⟨0x122000, 0x400000⟩ [5, 1000, 729]) :=
  ⟨by decide +kernel,
    ((reserved_apart_iff [5, 1000, 729]).2 ⟨0x122000, 0x400000⟩ (by decide)).mpr (by decide +kernel)⟩

/-- After five pages of the static heap, 2^20 + 1 more: a range of one page that is not where it seems,
and the sixth page is reserved twice. -/
theorem ranges_overlap :
    ¬ ∀ calls (h : StaticHeap), h.staticAllocPtr ≤ h.staticAllocLimit →
      Exclusively h.staticAllocLimit (ranges StaticHeap.staticAllocPages h calls) := by
  intro hall
  have h := (hall [5, 1048577, 1] ⟨0x122000, 0x400000⟩ (by decide)).2 ⟨0x127000, 4294971392⟩
    (by decide +kernel)
  revert h
  decide +kernel

end Shipwreck.Memory
