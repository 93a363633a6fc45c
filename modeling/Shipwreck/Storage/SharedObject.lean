import Shipwreck.Storage.Elf
import Shipwreck.Storage.ReadBounds

/-!
# Where a shared object is loaded

`ElfModule` of `system/include/elfparser.h`: the program headers are read into `phdrs`, a scan over them
says how many pages to allocate, and the segments are read to their addresses behind the first page.

    base                          base + vaddr      base + vaddr + filesz
    |-----------------------------|=================|
    |---- module_pages -----------|

The three places have three bounds. `phdrs` has 32 entries, and as many program headers are read as the
file says. The number of pages comes from the difference of the highest and the lowest address, while the
segments are placed from address 0 on; and the scan counts the end of no segment that is lower than all
before it. `sharedLibs` has 32 entries, and one of them is taken for each `DT_NEEDED`.
`stays_inside_iff` says for which files all three are kept.
-/

namespace Shipwreck.Storage

open ByteMem (Stores span)

/-! ## The scan -/

/-- `min_address` and `max_address`. -/
structure Bounds where
  minAddress : UInt32
  maxAddress : UInt32
  deriving DecidableEq, Repr

/-- One turn of the scan over the program headers. -/
def scanPhdr (bounds : Bounds) (ph : Phdr) : Bounds :=
  let vBase := ph.pVaddr
  let vEnd := vBase + ph.pMemsz
  if vBase < bounds.minAddress then { bounds with minAddress := vBase }
  else if bounds.maxAddress < vEnd then { bounds with maxAddress := vEnd }
  else bounds

/-- `module_pages`. -/
def modulePages (phdrs : List Phdr) : UInt32 :=
  let bounds := phdrs.foldl scanPhdr ⟨0xFFFFFFFF, 0⟩
  let moduleSize := bounds.maxAddress - bounds.minAddress
  (moduleSize + 4096 - 1) / 4096 + 1

/-! ## Loading -/

/-- What `sysapi::alloc` returns for a number of pages: the address of the first one, or none. -/
abbrev Alloc := UInt32 → Option UInt32

/-- The memory obtained by it. -/
def obtained (alloc : Alloc) (pages : UInt32) : Set UInt32 :=
  match alloc pages with
  | some base => span base (4096 * pages.toNat)
  | none => ∅

section

variable (disk : Disk) (behind : Nat → UInt8)

/-- The loop body of `mapLoadableSegments`. -/
def loadSegment (moduleBaseVaddr : UInt32) (s : FileState) (ph : Phdr) : FileState :=
  if ph.IsLoad then
    let s := perform disk behind s (.seek ph.pOffset.toInt32)
    perform disk behind s (.read (moduleBaseVaddr + ph.pVaddr) ph.pFilesz)
  else s

/-- `ElfModule::mapLoadableSegments`; without memory `alloc` returns the null pointer. -/
def mapLoadableSegments (phdrs : List Phdr) (alloc : Alloc) (s : FileState) : FileState :=
  let moduleBaseVaddr := (alloc (modulePages phdrs)).getD 0
  phdrs.foldl (loadSegment disk behind moduleBaseVaddr) s

/-- `ElfModule::parseSegments` up to the program headers in `phdrs`, which lies at `phdrsAddr`. It waits
forever when they are outside the file. -/
def readPhdrs (phdrsAddr : UInt32) (header : Ehdr) (s : FileState) : Option FileState :=
  if (s.file.seek header.ePhoff.toInt32).1 = 0 then none
  else
    let s := perform disk behind s (.seek header.ePhoff.toInt32)
    some (perform disk behind s (.read phdrsAddr (UInt32.ofNat (32 * header.ePhnum))))

/-- `phdrs[0 .. e_phnum)`. -/
def phdrsIn (mem : ByteMem) (phdrsAddr : UInt32) (header : Ehdr) : List Phdr :=
  (List.range header.ePhnum).map fun i =>
    .ofBytes (fun k => mem (phdrsAddr + UInt32.ofNat k)) (32 * i)

/-- `ElfModule::parseSegments`. -/
def parseSegments (phdrsAddr : UInt32) (header : Ehdr) (alloc : Alloc) (s : FileState) :
    Option FileState :=
  (readPhdrs disk behind phdrsAddr header s).map fun s =>
    mapLoadableSegments disk behind (phdrsIn s.mem phdrsAddr header) alloc s

end

/-- `Elf32_Dyn`. -/
structure Dyn where
  dTag : UInt32
  dVal : UInt32
  deriving DecidableEq, Repr

/-- A call of `loadModule`: the name of the library, by its place in the string table, and the entry of
`sharedLibs`. -/
structure LoadedLib where
  libname : UInt32
  module : UInt32
  deriving DecidableEq, Repr

/-- `loadNeededLibs`: the modules that are loaded, and `numSharedLibs`. `DT_NEEDED` is 1. -/
def loadNeededLibs : List Dyn → UInt32 → List LoadedLib × UInt32
  | [], numSharedLibs => ([], numSharedLibs)
  | dyn :: dynamic, numSharedLibs =>
    if dyn.dTag = 1 then
      let rest := loadNeededLibs dynamic (numSharedLibs + 1)
      (⟨dyn.dVal, numSharedLibs⟩ :: rest.1, rest.2)
    else loadNeededLibs dynamic numSharedLibs

/-! ## What is asked of it -/

/-- An open file with its ELF header, and the program headers as they are in `phdrs`. -/
structure SharedObject where
  file : TarFile
  header : Ehdr
  phdrs : List Phdr
  length_eq : phdrs.length = header.ePhnum
  phnum_lt : header.ePhnum < 65536

/-- The program headers fit into `phdrs`, all that is stored for the segments is in pages of the module,
and the modules are entries of `sharedLibs`. -/
structure StaysInside (disk : Disk) (behind : Nat → UInt8) (obj : SharedObject) (phdrsAddr : UInt32)
    (alloc : Alloc) (dynamic : List Dyn) (numSharedLibs : UInt32) : Prop where
  table : ∀ mem, ∀ s ∈ readPhdrs disk behind phdrsAddr obj.header ⟨obj.file, mem⟩,
    ∀ a ∉ span phdrsAddr (32 * 32), s.mem a = mem a
  segments : ∀ mem, ∀ s ∈ readPhdrs disk behind phdrsAddr obj.header ⟨obj.file, mem⟩,
    ∀ a ∉ obtained alloc (modulePages obj.phdrs), ∀ mem',
      (mapLoadableSegments disk behind obj.phdrs alloc ⟨s.file, mem'⟩).mem a = mem' a
  libs : ∀ lib ∈ (loadNeededLibs dynamic numSharedLibs).1, lib.module.toNat < 32

/-! ## When it is so -/

namespace Phdr

/-- The end of the segment in memory. -/
def vEnd (ph : Phdr) : UInt32 := ph.pVaddr + ph.pMemsz

/-- A seek to the segment succeeds. -/
def Seekable (ph : Phdr) (size : UInt32) : Prop :=
  ph.pOffset.toNat < 2147483648 ∧ ph.pOffset.toNat < size.toNat

instance (ph : Phdr) (size : UInt32) : Decidable (ph.Seekable size) :=
  inferInstanceAs (Decidable (_ ∧ _))

/-- Where the segment is read from: where the handle stands, if the seek fails. -/
def start (ph : Phdr) (size cursor : UInt32) : UInt32 :=
  if ph.Seekable size then ph.pOffset else cursor

/-- The file has the bytes of the segment, in the sense of the check in `read`. -/
def Served (ph : Phdr) (size cursor : UInt32) : Prop :=
  ((ph.start size cursor).toNat + ph.pFilesz.toNat) % 4294967296 ≤ size.toNat

instance (ph : Phdr) (size cursor : UInt32) : Decidable (ph.Served size cursor) :=
  inferInstanceAs (Decidable (_ ≤ _))

/-- Where the handle stands afterwards. -/
def cursorAfter (ph : Phdr) (size cursor : UInt32) : UInt32 :=
  if ph.IsLoad then
    if ph.Served size cursor then ph.start size cursor + ph.pFilesz else ph.start size cursor
  else cursor

/-- The bytes that are stored for the segment end within `room`. -/
def Fits (ph : Phdr) (size : UInt32) (room : Nat) (cursor : UInt32) : Prop :=
  let stored := storedBytes (ph.start size cursor) ph.pFilesz
  stored = 0 ∨ ph.pVaddr.toNat + stored ≤ room ∨ 4294967296 ≤ room

instance (ph : Phdr) (size : UInt32) (room : Nat) (cursor : UInt32) : Decidable (ph.Fits size room cursor) :=
  inferInstanceAs (Decidable (_ ∨ _))

end Phdr

/-- The segments of the file that are loaded, one after the other, end within `room`. -/
def SegmentsFit (size : UInt32) (room : Nat) : UInt32 → List Phdr → Prop
  | _, [] => True
  | cursor, ph :: phdrs =>
    (ph.IsLoad → ph.Served size cursor → ph.Fits size room cursor) ∧
      SegmentsFit size room (ph.cursorAfter size cursor) phdrs

/-- The lowest address of a segment. -/
def lowest (phdrs : List Phdr) : Nat :=
  phdrs.foldr (fun ph low => min ph.pVaddr.toNat low) 4294967295

/-- The ends of the segments that are not lower than all segments before them, and than `low`. -/
def countedEnds : Nat → List Phdr → List Nat
  | _, [] => []
  | low, ph :: phdrs =>
    if ph.pVaddr.toNat < low then countedEnds ph.pVaddr.toNat phdrs
    else ph.vEnd.toNat :: countedEnds low phdrs

/-- The highest one of these ends. -/
def highest (phdrs : List Phdr) : Nat := (countedEnds 4294967295 phdrs).foldr max 0

/-- The pages of the module: one more than its size takes. -/
def pagesOf (phdrs : List Phdr) : Nat :=
  ((highest phdrs + (4294967296 - lowest phdrs)) % 4294967296 + 4095) % 4294967296 / 4096 + 1

/-- The bytes that are allocated from the base of the module on. -/
def roomOf (alloc : Alloc) (phdrs : List Phdr) : Nat :=
  if (alloc (UInt32.ofNat (pagesOf phdrs))).isSome then 4096 * pagesOf phdrs else 0

namespace SharedObject

variable (obj : SharedObject)

/-- The program headers are found in the file. -/
def Seekable : Prop :=
  obj.header.ePhoff.toNat < 2147483648 ∧ obj.header.ePhoff.toNat < obj.file.size.toNat

instance : Decidable obj.Seekable := inferInstanceAs (Decidable (_ ∧ _))

/-- The file has all of the program headers. -/
def Served : Prop := obj.header.ePhoff.toNat + 32 * obj.header.ePhnum ≤ obj.file.size.toNat

instance : Decidable obj.Served := inferInstanceAs (Decidable (_ ≤ _))

/-- Where the handle stands behind the program headers. -/
def cursor : UInt32 :=
  if obj.Served then obj.header.ePhoff + UInt32.ofNat (32 * obj.header.ePhnum) else obj.header.ePhoff

/-- The condition: of program headers that can be found there are 32 at most, if the file has them all, and
their segments end within the pages. -/
def Fits (alloc : Alloc) : Prop :=
  obj.Seekable → (obj.Served → obj.header.ePhnum ≤ 32) ∧
    SegmentsFit obj.file.size (roomOf alloc obj.phdrs) obj.cursor obj.phdrs

end SharedObject

/-- The libraries that are needed. -/
def needed (dynamic : List Dyn) : Nat := dynamic.countP fun dyn => dyn.dTag = 1

/-- They fit into `sharedLibs`, behind those that are there. -/
def LibsFit (dynamic : List Dyn) (numSharedLibs : UInt32) : Prop :=
  needed dynamic = 0 ∨ numSharedLibs.toNat + needed dynamic ≤ 32

/-! ## The result of the scan -/

section

variable {phdrs : List Phdr} {alloc : Alloc}

theorem foldr_low {v low : Nat} :
    phdrs.foldr (fun ph low => min ph.pVaddr.toNat low) (min v low) =
      min v (phdrs.foldr (fun ph low => min ph.pVaddr.toNat low) low) := by
  induction phdrs with
  | nil => rfl
  | cons ph phdrs ih =>
    rw [List.foldr_cons, List.foldr_cons, ih]
    omega

theorem foldr_high {ends : List Nat} {v high : Nat} :
    ends.foldr max (max v high) = max v (ends.foldr max high) := by
  induction ends with
  | nil => rfl
  | cons e ends ih =>
    rw [List.foldr_cons, List.foldr_cons, ih]
    omega

theorem scan_eq (phdrs : List Phdr) (low high : UInt32) :
    (phdrs.foldl scanPhdr ⟨low, high⟩).minAddress.toNat =
        phdrs.foldr (fun ph low => min ph.pVaddr.toNat low) low.toNat ∧
      (phdrs.foldl scanPhdr ⟨low, high⟩).maxAddress.toNat =
        (countedEnds low.toNat phdrs).foldr max high.toNat := by
  induction phdrs generalizing low high with
  | nil => exact ⟨rfl, rfl⟩
  | cons ph phdrs ih =>
    rw [List.foldl_cons, List.foldr_cons, countedEnds]
    by_cases hlow : ph.pVaddr < low
    · -- a new lowest address, and its end is left out
      have hstep : scanPhdr ⟨low, high⟩ ph = ⟨ph.pVaddr, high⟩ := if_pos hlow
      have hlt : ph.pVaddr.toNat < low.toNat := hlow
      have hmin : ph.pVaddr.toNat = min ph.pVaddr.toNat low.toNat := by omega
      rw [hstep, (ih _ _).1, (ih _ _).2, if_pos hlt]
      refine ⟨?_, rfl⟩
      rw [← foldr_low, ← hmin]
    · have hge : ¬ ph.pVaddr.toNat < low.toNat := hlow
      have hstep : scanPhdr ⟨low, high⟩ ph = ⟨low, if high < ph.vEnd then ph.vEnd else high⟩ := by
        rw [scanPhdr]
        simp only [if_neg hlow]
        by_cases hhigh : high < ph.vEnd
        · rw [if_pos hhigh]
          exact if_pos hhigh
        · rw [if_neg hhigh]
          exact if_neg hhigh
      have hmax : (if high < ph.vEnd then ph.vEnd else high).toNat = max ph.vEnd.toNat high.toNat := by
        by_cases hhigh : high < ph.vEnd
        · rw [if_pos hhigh]
          have hlt : high.toNat < ph.vEnd.toNat := hhigh
          omega
        · rw [if_neg hhigh]
          have hle : ¬ high.toNat < ph.vEnd.toNat := hhigh
          omega
      rw [hstep, (ih _ _).1, (ih _ _).2, if_neg hge, hmax]
      refine ⟨?_, foldr_high⟩
      have hmin : low.toNat = min ph.pVaddr.toNat low.toNat := by omega
      rw [← foldr_low, ← hmin]

/-- **The pages that are allocated.** -/
theorem modulePages_eq (phdrs : List Phdr) : modulePages phdrs = UInt32.ofNat (pagesOf phdrs) := by
  obtain ⟨hmin, hmax⟩ := scan_eq phdrs 0xFFFFFFFF 0
  rw [modulePages]
  generalize phdrs.foldl scanPhdr ⟨0xFFFFFFFF, 0⟩ = bounds at *
  have hlow : bounds.minAddress.toNat = lowest phdrs := hmin
  have hhigh : bounds.maxAddress.toNat = highest phdrs := hmax
  have hlt := bounds.minAddress.toNat_lt
  have hround : bounds.maxAddress - bounds.minAddress + 4096 - 1 =
      bounds.maxAddress - bounds.minAddress + 4095 := by
    rw [UInt32.sub_eq_add_neg _ 1, UInt32.add_assoc]
    rfl
  have h4095 : (4095 : UInt32).toNat = 4095 := rfl
  have h4096 : (4096 : UInt32).toNat = 4096 := rfl
  have hone : (1 : UInt32).toNat = 1 := rfl
  apply UInt32.toNat.inj
  simp only [hround]
  rw [UInt32.toNat_add, UInt32.toNat_div, UInt32.toNat_add, UInt32.toNat_sub, hlow, hhigh, h4095, h4096, hone,
    UInt32.toNat_ofNat', pagesOf, Nat.add_comm (4294967296 - _)]

theorem pagesOf_le (phdrs : List Phdr) : pagesOf phdrs ≤ 1048576 := by
  rw [pagesOf]
  omega

theorem obtained_eq (alloc : Alloc) (phdrs : List Phdr) :
    obtained alloc (modulePages phdrs) =
      span ((alloc (modulePages phdrs)).getD 0) (roomOf alloc phdrs) := by
  have hle := pagesOf_le phdrs
  rw [obtained, roomOf, ← modulePages_eq]
  cases halloc : alloc (modulePages phdrs) with
  | none => exact ByteMem.span_zero.symm
  | some base =>
    rw [modulePages_eq, UInt32.toNat_ofNat_of_lt' (show pagesOf phdrs < 4294967296 by omega)]
    rfl

end

/-! ## One segment -/

section

variable {disk : Disk} {behind : Nat → UInt8} {file : TarFile} {mem : ByteMem} {offset dst length base : UInt32}
  {ph : Phdr} {phdrs : List Phdr} {room : Nat}

/-- A seek to an unsigned offset. -/
theorem seek_unsigned (file : TarFile) (offset : UInt32) :
    (file.seek offset.toInt32).2.cursor =
        (if offset.toNat < 2147483648 ∧ offset.toNat < file.size.toNat then offset else file.cursor) ∧
      (file.seek offset.toInt32).2.size = file.size ∧
      ((file.seek offset.toInt32).1 = 0 ↔
        ¬ (offset.toNat < 2147483648 ∧ offset.toNat < file.size.toNat)) := by
  have hlt := offset.toNat_lt
  have hguard : offset.toInt32.toInt < 0 ∨ file.size.toNat ≤ CInt.toUint offset.toInt32.toInt ↔
      ¬ (offset.toNat < 2147483648 ∧ offset.toNat < file.size.toNat) := by
    rw [CInt.toInt_toInt32]
    unfold CInt.toUint CInt.toInt
    omega
  rw [TarFile.seek]
  by_cases hin : offset.toNat < 2147483648 ∧ offset.toNat < file.size.toNat
  · rw [if_neg (mt hguard.mp (not_not_intro hin)), if_pos hin]
    exact ⟨UInt32.toUInt32_toInt32 offset, rfl, iff_of_false Int.one_ne_zero (not_not_intro hin)⟩
  · rw [if_pos (hguard.mpr hin), if_neg hin]
    exact ⟨rfl, rfl, iff_of_true rfl hin⟩

/-- The addresses that the segment is stored at. -/
def Phdr.storedAt (ph : Phdr) (size cursor base : UInt32) : Set UInt32 :=
  if ph.IsLoad ∧ ph.Served size cursor then
    span (base + ph.pVaddr) (storedBytes (ph.start size cursor) ph.pFilesz)
  else ∅

/-- The same operation on every memory, and the file afterwards. -/
structure LoadsTo (op : FileState → FileState) (file file' : TarFile) (addrs : Set UInt32) : Prop where
  file_eq : ∀ mem, (op ⟨file, mem⟩).file = file'
  stores : Stores (fun mem => (op ⟨file, mem⟩).mem) addrs

theorem LoadsTo.comp {op op' : FileState → FileState} {file file' file'' : TarFile}
    {addrs addrs' : Set UInt32} (h' : LoadsTo op' file' file'' addrs') (h : LoadsTo op file file' addrs) :
    LoadsTo (fun s => op' (op s)) file file'' (addrs ∪ addrs') := by
  have hstate (mem : ByteMem) : op ⟨file, mem⟩ = ⟨file', (op ⟨file, mem⟩).mem⟩ := by
    rw [← h.file_eq mem]
  constructor
  · intro mem
    rw [hstate]
    exact h'.file_eq _
  · have hall := h'.stores.comp h.stores
    simp only [← hstate] at hall
    exact hall

/-- What a call of `read` leaves. -/
theorem perform_of_read {r : Nat × TarFile × ByteMem} (hr : file.read disk behind mem dst length = r) :
    (perform disk behind ⟨file, mem⟩ (.read dst length)).file = r.2.1 ∧
      (perform disk behind ⟨file, mem⟩ (.read dst length)).mem = r.2.2 := by
  obtain ⟨s, hs⟩ : ∃ s : FileState, s = ⟨file, mem⟩ := ⟨_, rfl⟩
  have hfile : s.file = file := by rw [hs]
  have hmem : s.mem = mem := by rw [hs]
  rw [← hfile, ← hmem] at hr
  rw [← hs, perform_read behind hr]
  exact ⟨rfl, rfl⟩

/-- A read as an operation on the memory. -/
theorem read_loads (disk : Disk) (behind : Nat → UInt8) (file : TarFile) (dst length : UInt32) :
    ∃ file', file'.size = file.size ∧
      file'.cursor = (if (file.cursor.toNat + length.toNat) % 4294967296 ≤ file.size.toNat then
        file.cursor + length else file.cursor) ∧
      LoadsTo (fun s => perform disk behind s (.read dst length)) file file'
        (if (file.cursor.toNat + length.toNat) % 4294967296 ≤ file.size.toNat then
          span dst (storedBytes file.cursor length) else ∅) := by
  have hperform (mem : ByteMem) := perform_of_read (rfl : file.read disk behind mem dst length = _)
  refine ⟨(file.read disk behind (fun _ => 0) dst length).2.1, (read_place behind).2, ?_, ?_⟩
  · by_cases hserved : (file.cursor.toNat + length.toNat) % 4294967296 ≤ file.size.toNat
    · rw [if_pos hserved, read_accepted hserved]
    · rw [if_neg hserved, read_refused disk behind dst (Nat.lt_of_not_le hserved)]
  · constructor
    · intro mem
      rw [(hperform mem).1]
      exact read_file_eq mem _
    · simp only [hperform]
      by_cases hserved : (file.cursor.toNat + length.toNat) % 4294967296 ≤ file.size.toNat
      · rw [if_pos hserved]
        exact read_stores disk behind dst hserved
      · have hrefused (mem : ByteMem) :=
          read_refused disk behind dst (Nat.lt_of_not_le hserved) mem
        rw [if_neg hserved]
        simp only [hrefused]
        exact .nothing

theorem seek_loads (disk : Disk) (behind : Nat → UInt8) (file : TarFile) (offset : UInt32) :
    LoadsTo (fun s => perform disk behind s (.seek offset.toInt32)) file (file.seek offset.toInt32).2 ∅ :=
  ⟨fun _ => rfl, .nothing⟩

/-- **What is stored for one segment.** -/
theorem loadSegment_loads (disk : Disk) (behind : Nat → UInt8) (file : TarFile) (ph : Phdr) (base : UInt32) :
    ∃ file', file'.size = file.size ∧ file'.cursor = ph.cursorAfter file.size file.cursor ∧
      LoadsTo (fun s => loadSegment disk behind base s ph) file file'
        (ph.storedAt file.size file.cursor base) := by
  by_cases hload : ph.IsLoad
  · obtain ⟨hstart, hsize, -⟩ := seek_unsigned file ph.pOffset
    obtain ⟨file', hsize', hcursor, hread⟩ :=
      read_loads disk behind (file.seek ph.pOffset.toInt32).2 (base + ph.pVaddr) ph.pFilesz
    have hloads := hread.comp (seek_loads disk behind file ph.pOffset)
    have hsought : (file.seek ph.pOffset.toInt32).2.cursor = ph.start file.size file.cursor := hstart
    rw [hsought, hsize] at hcursor hloads
    rw [Set.empty_union] at hloads
    refine ⟨file', by rw [hsize', hsize], ?_, ?_⟩
    · rw [Phdr.cursorAfter, if_pos hload]
      exact hcursor
    · simp only [loadSegment, if_pos hload]
      rw [Phdr.storedAt]
      simp only [hload, true_and]
      exact hloads
  · refine ⟨file, rfl, ?_, ?_⟩
    · rw [Phdr.cursorAfter, if_neg hload]
    · rw [Phdr.storedAt, if_neg (mt And.left hload)]
      simp only [loadSegment, if_neg hload]
      exact ⟨fun _ => rfl, .nothing⟩

/-! ## All segments -/

/-- The addresses that the segments are stored at. -/
def storedAt (size base : UInt32) : UInt32 → List Phdr → Set UInt32
  | _, [] => ∅
  | cursor, ph :: phdrs => ph.storedAt size cursor base ∪ storedAt size base (ph.cursorAfter size cursor) phdrs

theorem loadSegments_loads (disk : Disk) (behind : Nat → UInt8) (file : TarFile) (phdrs : List Phdr) (base : UInt32) :
    ∃ file', LoadsTo (fun s => phdrs.foldl (loadSegment disk behind base) s) file file'
      (storedAt file.size base file.cursor phdrs) := by
  induction phdrs generalizing file with
  | nil => exact ⟨file, fun _ => rfl, .nothing⟩
  | cons ph phdrs ih =>
    obtain ⟨file₁, hsize, hcursor, hfirst⟩ := loadSegment_loads disk behind file ph base
    obtain ⟨file₂, hrest⟩ := ih file₁
    refine ⟨file₂, ?_⟩
    rw [hsize, hcursor] at hrest
    exact hrest.comp hfirst

theorem Phdr.storedAt_subset_iff {size cursor : UInt32} :
    ph.storedAt size cursor base ⊆ span base room ↔
      (ph.IsLoad → ph.Served size cursor → ph.Fits size room cursor) := by
  rw [Phdr.storedAt]
  by_cases hload : ph.IsLoad ∧ ph.Served size cursor
  · rw [if_pos hload, ByteMem.span_subset_iff]
    exact ⟨fun h _ _ => h, fun h => h hload.1 hload.2⟩
  · rw [if_neg hload]
    refine iff_of_true (Set.empty_subset _) ?_
    intro h h'
    exact absurd ⟨h, h'⟩ hload

/-- **The segments are stored within the room** exactly if each of them ends there. -/
theorem storedAt_subset_iff (base : UInt32) {size cursor : UInt32} :
    storedAt size base cursor phdrs ⊆ span base room ↔ SegmentsFit size room cursor phdrs := by
  induction phdrs generalizing cursor with
  | nil => exact iff_of_true (Set.empty_subset _) trivial
  | cons ph phdrs ih => rw [storedAt, Set.union_subset_iff, Phdr.storedAt_subset_iff, ih, SegmentsFit]

/-! ## The program headers -/

variable {obj : SharedObject} {phdrsAddr : UInt32} {alloc : Alloc} {dynamic : List Dyn} {numSharedLibs : UInt32}

theorem readPhdrs_none (h : ¬ obj.Seekable) :
    readPhdrs disk behind phdrsAddr obj.header ⟨obj.file, mem⟩ = none :=
  if_pos ((seek_unsigned obj.file obj.header.ePhoff).2.2.mpr h)

/-- The program headers are stored at `phdrs`, if the file has them, and the handle stands behind them. -/
theorem readPhdrs_loads (disk : Disk) (behind : Nat → UInt8) (phdrsAddr : UInt32) (h : obj.Seekable) :
    ∃ op file', file'.size = obj.file.size ∧ file'.cursor = obj.cursor ∧
      LoadsTo op obj.file file' (if obj.Served then span phdrsAddr (32 * obj.header.ePhnum) else ∅) ∧
      ∀ mem, readPhdrs disk behind phdrsAddr obj.header ⟨obj.file, mem⟩ = some (op ⟨obj.file, mem⟩) := by
  obtain ⟨hcursor, hsize, hfound⟩ := seek_unsigned obj.file obj.header.ePhoff
  obtain ⟨file', hsize', hcursor', hread⟩ := read_loads disk behind
    (obj.file.seek obj.header.ePhoff.toInt32).2 phdrsAddr (UInt32.ofNat (32 * obj.header.ePhnum))
  have hnum := obj.phnum_lt
  have htotal : (UInt32.ofNat (32 * obj.header.ePhnum)).toNat = 32 * obj.header.ePhnum :=
    UInt32.toNat_ofNat_of_lt' (show 32 * obj.header.ePhnum < 4294967296 by omega)
  have hoff := h.1
  have hserved : (obj.header.ePhoff.toNat + 32 * obj.header.ePhnum) % 4294967296 ≤ obj.file.size.toNat ↔
      obj.Served := by
    rw [SharedObject.Served, Nat.mod_eq_of_lt (by omega)]
  have hstored : storedBytes obj.header.ePhoff (UInt32.ofNat (32 * obj.header.ePhnum)) =
      32 * obj.header.ePhnum := by
    rw [storedBytes, htotal, if_neg (by omega)]
  rw [if_pos (show _ ∧ _ from h)] at hcursor
  rw [hcursor, hsize, htotal] at hcursor' hread
  rw [hstored] at hread
  simp only [hserved] at hcursor' hread
  refine ⟨fun s => perform disk behind (perform disk behind s (.seek obj.header.ePhoff.toInt32))
    (.read phdrsAddr (UInt32.ofNat (32 * obj.header.ePhnum))), file', by rw [hsize', hsize], hcursor', ?_, ?_⟩
  · have hall := hread.comp (seek_loads disk behind obj.file obj.header.ePhoff)
    rwa [Set.empty_union] at hall
  · intro mem
    exact if_neg (mt hfound.mp (not_not_intro h))

theorem span_phdrs_subset_iff {n : Nat} : span phdrsAddr (32 * n) ⊆ span phdrsAddr (32 * 32) ↔ n ≤ 32 := by
  have hzero : phdrsAddr = phdrsAddr + 0 := (UInt32.add_zero _).symm
  have hiff := ByteMem.span_subset_iff (p := phdrsAddr) (v := 0) (n := 32 * n) (k := 32 * 32)
  rw [← hzero, UInt32.toNat_zero] at hiff
  rw [hiff]
  omega

/-- **The program headers stay in `phdrs`** exactly if there are 32 at most, or the file does not have them. -/
theorem table_inside_iff (h : obj.Seekable) :
    (∀ mem, ∀ s ∈ readPhdrs disk behind phdrsAddr obj.header ⟨obj.file, mem⟩,
      ∀ a ∉ span phdrsAddr (32 * 32), s.mem a = mem a) ↔
      (obj.Served → obj.header.ePhnum ≤ 32) := by
  obtain ⟨op, file', -, -, hloads, hread⟩ := readPhdrs_loads disk behind phdrsAddr h
  have hsubset : (if obj.Served then span phdrsAddr (32 * obj.header.ePhnum) else ∅) ⊆
      span phdrsAddr (32 * 32) ↔ (obj.Served → obj.header.ePhnum ≤ 32) := by
    by_cases hserved : obj.Served
    · rw [if_pos hserved, span_phdrs_subset_iff]
      exact ⟨fun h _ => h, fun h => h hserved⟩
    · rw [if_neg hserved]
      exact iff_of_true (Set.empty_subset _) fun h => absurd h hserved
  rw [← hsubset, ← hloads.stores.subset_iff]
  constructor
  · intro hall a ha mem
    exact hall mem _ (hread mem) a ha
  · intro hall mem s hs a ha
    rw [hread mem, Option.mem_some_iff] at hs
    rw [← hs]
    exact hall a ha mem

/-- **The segments stay in the pages of the module** exactly if they end there. -/
theorem segments_inside_iff (h : obj.Seekable) :
    (∀ mem, ∀ s ∈ readPhdrs disk behind phdrsAddr obj.header ⟨obj.file, mem⟩,
      ∀ a ∉ obtained alloc (modulePages obj.phdrs), ∀ mem',
        (mapLoadableSegments disk behind obj.phdrs alloc ⟨s.file, mem'⟩).mem a = mem' a) ↔
      SegmentsFit obj.file.size (roomOf alloc obj.phdrs) obj.cursor obj.phdrs := by
  obtain ⟨op, file', hsize, hcursor, hloads, hread⟩ := readPhdrs_loads disk behind phdrsAddr h
  obtain ⟨file'', hsegments⟩ := loadSegments_loads disk behind file' obj.phdrs
    ((alloc (modulePages obj.phdrs)).getD 0)
  rw [hsize, hcursor] at hsegments
  rw [← storedAt_subset_iff ((alloc (modulePages obj.phdrs)).getD 0), ← obtained_eq,
    ← hsegments.stores.subset_iff]
  constructor
  · intro hall a ha mem
    have hinside := hall (fun _ => 0) _ (hread _) a ha mem
    rw [hloads.file_eq] at hinside
    exact hinside
  · intro hall mem s hs a ha mem'
    rw [hread mem, Option.mem_some_iff] at hs
    rw [← hs, hloads.file_eq]
    exact hall a ha mem'

/-! ## The libraries -/

theorem libs_fit_iff :
    (∀ lib ∈ (loadNeededLibs dynamic numSharedLibs).1, lib.module.toNat < 32) ↔
      LibsFit dynamic numSharedLibs := by
  induction dynamic generalizing numSharedLibs with
  | nil => exact iff_of_true (fun lib hlib => absurd hlib List.not_mem_nil) (.inl rfl)
  | cons dyn dynamic ih =>
    rw [loadNeededLibs, LibsFit, needed, List.countP_cons]
    by_cases htag : dyn.dTag = 1
    · have hone : (1 : UInt32).toNat = 1 := rfl
      have hlt := numSharedLibs.toNat_lt
      rw [if_pos htag, if_pos (decide_eq_true htag), List.forall_mem_cons, ih, LibsFit, needed,
        UInt32.toNat_add, hone]
      show numSharedLibs.toNat < 32 ∧ _ ↔ _
      omega
    · rw [if_neg htag, if_neg (by simpa using htag), ih, LibsFit, needed, Nat.add_zero]

/-- The whole of `parseSegments` stores to `phdrs` and to the pages of the module. -/
theorem parseSegments_inside {s s' : FileState}
    (hread : readPhdrs disk behind phdrsAddr obj.header ⟨obj.file, mem⟩ = some s)
    (hphdrs : obj.phdrs = phdrsIn s.mem phdrsAddr obj.header) (hfits : obj.Fits alloc)
    (hparse : parseSegments disk behind phdrsAddr obj.header alloc ⟨obj.file, mem⟩ = some s') {a : UInt32}
    (htable : a ∉ span phdrsAddr (32 * 32)) (hpages : a ∉ obtained alloc (modulePages obj.phdrs)) :
    s'.mem a = mem a := by
  have hfound : obj.Seekable := by
    by_contra hnot
    rw [readPhdrs_none hnot] at hread
    cases hread
  obtain ⟨hnum, hsegs⟩ := hfits hfound
  rw [parseSegments, hread, Option.map_some, Option.some.injEq, ← hphdrs] at hparse
  calc s'.mem a
      = (mapLoadableSegments disk behind obj.phdrs alloc s).mem a := by rw [hparse]
    _ = s.mem a := (segments_inside_iff hfound).mpr hsegs mem s hread a hpages s.mem
    _ = mem a := (table_inside_iff hfound).mpr hnum mem s hread a htable

end

/-- **A shared object is loaded inside its own memory** exactly if its program headers fit into `phdrs`, its
segments into the pages, and its libraries into `sharedLibs`. -/
theorem stays_inside_iff (disk : Disk) (behind : Nat → UInt8) (obj : SharedObject) (phdrsAddr : UInt32)
    (alloc : Alloc) (dynamic : List Dyn) (numSharedLibs : UInt32) :
    StaysInside disk behind obj phdrsAddr alloc dynamic numSharedLibs ↔
      obj.Fits alloc ∧ LibsFit dynamic numSharedLibs := by
  constructor
  · intro h
    refine ⟨?_, libs_fit_iff.mp h.libs⟩
    intro hfound
    exact ⟨(table_inside_iff hfound).mp h.table, (segments_inside_iff hfound).mp h.segments⟩
  · rintro ⟨hfits, hlibs⟩
    by_cases hfound : obj.Seekable
    · obtain ⟨hnum, hsegs⟩ := hfits hfound
      exact ⟨(table_inside_iff hfound).mpr hnum, (segments_inside_iff hfound).mpr hsegs,
        libs_fit_iff.mpr hlibs⟩
    · -- the loader waits forever, and nothing is stored
      have hnone (mem : ByteMem) (s : FileState)
          (hs : s ∈ readPhdrs disk behind phdrsAddr obj.header ⟨obj.file, mem⟩) : False := by
        rw [readPhdrs_none hfound] at hs
        exact Option.not_mem_none s hs
      exact ⟨fun mem s hs => (hnone mem s hs).elim, fun mem s hs => (hnone mem s hs).elim,
        libs_fit_iff.mpr hlibs⟩

/-! ### One segment -/

/-- A file with one segment of two pages. Its address is the lowest one, so that its end is not counted, and
one page is allocated. -/
def lowSegment : SharedObject where
  file := { headerSector := 1, currentSector := 2, cursor := 52, size := 8192 }
  header := { ePhoff := 52, ePhnum := 1 }
  phdrs := [{ pType := 1, pOffset := 0, pVaddr := 0, pFilesz := 8192, pMemsz := 8192 }]
  length_eq := rfl
  phnum_lt := by decide

/-- The second page of the segment is stored behind the one that is allocated. -/
theorem low_segment_outside :
    ¬ ∀ (disk : Disk) (behind : Nat → UInt8) (obj : SharedObject) (phdrsAddr : UInt32) (alloc : Alloc)
      (dynamic : List Dyn) (numSharedLibs : UInt32),
        StaysInside disk behind obj phdrsAddr alloc dynamic numSharedLibs := by
  intro hall
  have hinside := hall (fun _ _ => 0) (fun _ => 0) lowSegment 0x8000 (fun _ => some 0x10000000) [] 0
  have hfound : lowSegment.Seekable := by decide
  obtain ⟨hfirst, -⟩ := (segments_inside_iff hfound).mp hinside.segments
  have hout := hfirst (by decide) (by decide)
  revert hout
  decide

end Shipwreck.Storage
