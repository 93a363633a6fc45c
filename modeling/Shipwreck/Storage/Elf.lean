import Shipwreck.Lib.Bytes
import Mathlib.Data.List.Pairwise
import Mathlib.Order.Interval.Finset.Nat

/-!
# Loading an executable

The loading loop of `elf_exec` in `system/include/elfparser.h`. For every segment of type `PT_LOAD`
it allocates the pages that the bytes of the file need, and reads these bytes:

    page          vaddr                 vaddr + filesz        vaddr + memsz
    |-------------|---------------------|---------------------|
    | allocated by alloc_at(pages, page)      | not looked at |
                  | read from the file  |  should be zero     |

What a new frame holds is arbitrary, and `alloc_at` replaces a page that is there already. So the
image comes out right for every content of the frames if and only if no segment is larger than its
part of the file and no segment has bytes in a page that is allocated for a later one
(`elfExec_builds_iff`).

`alloc_at`, `seek` and `read` are taken at what they promise: the pages asked for have new frames,
and the bytes of the file are delivered. `alloc_at` of no pages does nothing.
-/

namespace Shipwreck.Storage

/-! ## The file -/

/-- The bytes of a file. -/
structure ElfFile where
  bytes : List UInt8
  length_lt : bytes.length < 4294967296

namespace ElfFile

def size (file : ElfFile) : Nat := file.bytes.length

def byte (file : ElfFile) (i : Nat) : UInt8 := file.bytes.getD i 0

end ElfFile

/-- `Elf32_Ehdr`, the fields that are used. -/
structure Ehdr where
  ePhoff : UInt32
  ePhnum : Nat
  deriving DecidableEq, Repr

/-- `Elf32_Phdr`, the fields that are used. -/
structure Phdr where
  pType : UInt32
  pOffset : UInt32
  pVaddr : UInt32
  pFilesz : UInt32
  pMemsz : UInt32
  deriving DecidableEq, Repr

/-- The word at `i`. -/
def elfWord (f : Nat → UInt8) (i : Nat) : UInt32 := ⟨ByteMem.loadWord f i⟩

/-- The structure at `0` of 52 bytes. -/
def Ehdr.ofBytes (f : Nat → UInt8) : Ehdr where
  ePhoff := elfWord f 28
  ePhnum := (f 44).toNat + 256 * (f 45).toNat

/-- The structure at `i` of 32 bytes. -/
def Phdr.ofBytes (f : Nat → UInt8) (i : Nat) : Phdr where
  pType := elfWord f i
  pOffset := elfWord f (i + 4)
  pVaddr := elfWord f (i + 8)
  pFilesz := elfWord f (i + 16)
  pMemsz := elfWord f (i + 20)

namespace ElfFile

variable (file : ElfFile)

/-- What `read` delivers at `cursor` to a buffer of zeros: nothing when the file ends before. -/
def readZeroed (cursor length : Nat) : Nat → UInt8 :=
  fun i => if cursor + length ≤ file.size then file.byte (cursor + i) else 0

/-- `readElfHeader`. -/
def header : Ehdr := .ofBytes (file.readZeroed 0 52)

/-- `executable.phdrs[0 .. e_phnum)`. -/
def phdrs : List Phdr :=
  let total := 32 * file.header.ePhnum
  let table := file.readZeroed file.header.ePhoff.toNat total
  (List.range file.header.ePhnum).map fun i => .ofBytes table (32 * i)

end ElfFile

/-! ## The address space -/

/-- What is mapped, and the bytes there. -/
structure UserSpace where
  mapped : UInt32 → Bool
  bytes : ByteMem

/-- The address `a` lies in one of the pages from that of `vaddr` on. -/
def InPages (pages vaddr a : UInt32) : Prop :=
  (a.toNat / 4096 + 1048576 - vaddr.toNat / 4096) % 1048576 < pages.toNat

instance (pages vaddr a : UInt32) : Decidable (InPages pages vaddr a) :=
  inferInstanceAs (Decidable (_ < _))

/-- `alloc_at(pages, vaddr)`, with new frames that hold `fresh`. -/
def UserSpace.allocAt (space : UserSpace) (pages vaddr : UInt32) (fresh : ByteMem) :
    UserSpace where
  mapped a := decide (InPages pages vaddr a) || space.mapped a
  bytes a := if InPages pages vaddr a then fresh a else space.bytes a

/-- The address space and the cursor of the file. -/
structure Loading where
  space : UserSpace
  cursor : Nat

namespace ElfFile

variable (file : ElfFile)

/-- `seek`. -/
def seek (offset : UInt32) (s : Loading) : Loading :=
  if offset.toNat < file.size then { s with cursor := offset.toNat } else s

/-- `read(filehandle, dst, length)`: a page that is not mapped is a fault. -/
def read (dst length : UInt32) (s : Loading) : Option Loading :=
  if s.cursor + length.toNat > file.size then some s
  else if ∀ i, i < length.toNat → s.space.mapped (dst + UInt32.ofNat i) = true then
    some {
      space := { s.space with
        bytes := s.space.bytes.fill dst length.toNat fun i => file.byte (s.cursor + i) }
      cursor := s.cursor + length.toNat }
  else none

end ElfFile

/-! ## The loop -/

namespace Phdr

/-- `PT_LOAD`. -/
def IsLoad (ph : Phdr) : Prop := ph.pType = 1

instance (ph : Phdr) : Decidable ph.IsLoad := inferInstanceAs (Decidable (_ = _))

/-- `pages`. -/
def pages (ph : Phdr) : UInt32 := ((ph.pVaddr &&& 0xFFF) + ph.pFilesz + 4096 - 1) / 4096

/-- `vaddr`, the address of the first page. -/
def page (ph : Phdr) : UInt32 := ph.pVaddr &&& 0xFFFFF000

end Phdr

section

variable (file : ElfFile) (fresh : Nat → ByteMem)

/-- The body of the loop, for the program header `i`. -/
def loadPhdr (i : Nat) (ph : Phdr) (s : Loading) : Option Loading :=
  if ph.IsLoad then
    let s := { s with space := s.space.allocAt ph.pages ph.page (fresh i) }
    file.read ph.pVaddr ph.pFilesz (file.seek ph.pOffset s)
  else some s

/-- The loop from the program header `i` on. -/
def loadFrom : Nat → List Phdr → Loading → Option Loading
  | _, [], s => some s
  | i, ph :: phs, s => (loadPhdr file fresh i ph s).bind (loadFrom (i + 1) phs)

/-- `elf_exec` up to the end of the loop. It waits forever when the program headers lie outside the
file, and writes behind `phdrs` when there are more than 32. -/
def elfExec (space : UserSpace) : Option UserSpace :=
  if file.size ≤ file.header.ePhoff.toNat ∨ 32 < file.header.ePhnum then none
  else (loadFrom file fresh 0 file.phdrs
    ⟨space, file.header.ePhoff.toNat + 32 * file.header.ePhnum⟩).map (·.space)

end

/-! ## What the file describes -/

namespace Phdr

/-- The address `a` belongs to the segment. -/
def Covers (ph : Phdr) (a : Nat) : Prop :=
  ph.pVaddr.toNat ≤ a ∧ a < ph.pVaddr.toNat + ph.pMemsz.toNat

/-- Pages are allocated for the part of the segment that is in the file. -/
def Touches (ph : Phdr) (p : Nat) : Prop :=
  ph.pVaddr.toNat / 4096 ≤ p ∧ p < (ph.pVaddr.toNat + ph.pFilesz.toNat + 4095) / 4096

/-- The segment is in memory. -/
def Placed (ph : Phdr) (file : ElfFile) (space : UserSpace) : Prop :=
  ∀ k, k < ph.pMemsz.toNat → space.mapped (ph.pVaddr + UInt32.ofNat k) = true ∧
    space.bytes (ph.pVaddr + UInt32.ofNat k) =
      if k < ph.pFilesz.toNat then file.byte (ph.pOffset.toNat + k) else 0

/-- The segment lies within the file and within memory. -/
structure Within (ph : Phdr) (file : ElfFile) : Prop where
  filesz_le : ph.pFilesz.toNat ≤ ph.pMemsz.toNat
  file_le : ph.pOffset.toNat + ph.pFilesz.toNat ≤ file.size
  memory_le : ph.pVaddr.toNat + ph.pMemsz.toNat ≤ 4294967296

end Phdr

/-- An executable: at most 32 program headers, with segments that lie within the file and do not
overlap in memory. -/
structure Executable (file : ElfFile) : Prop where
  phnum_le : file.header.ePhnum ≤ 32
  phoff_lt : file.header.ePhoff.toNat < file.size
  within : ∀ ph ∈ file.phdrs, ph.IsLoad → ph.Within file
  disjoint : file.phdrs.Pairwise fun ph ph' =>
    ph.IsLoad → ph'.IsLoad → ∀ a, ¬ (ph.Covers a ∧ ph'.Covers a)

/-- **The loop builds the image** the file describes, whatever the memory and the new frames hold. -/
def Builds (file : ElfFile) : Prop :=
  ∀ (fresh : Nat → ByteMem) (space : UserSpace), ∃ space', elfExec file fresh space = some space' ∧
    ∀ ph ∈ file.phdrs, ph.IsLoad → ph.Placed file space'

/-- No segment is larger than its part of the file or nearly as large as memory, and none has bytes
in a page of a later one. -/
structure Plain (file : ElfFile) : Prop where
  memsz_eq : ∀ ph ∈ file.phdrs, ph.IsLoad → ph.pMemsz = ph.pFilesz
  pages_fit : ∀ ph ∈ file.phdrs, ph.IsLoad →
    ph.pVaddr.toNat % 4096 + ph.pFilesz.toNat + 4095 < 4294967296
  pages_apart : file.phdrs.Pairwise fun ph ph' =>
    ph.IsLoad → ph'.IsLoad → ∀ a, ph.Covers a → ¬ ph'.Touches (a / 4096)

/-! ## Pages -/

namespace Phdr

variable {ph : Phdr}

theorem toNat_page_div : ph.page.toNat / 4096 = ph.pVaddr.toNat / 4096 := by
  have hmask : (0xFFFFF000 : UInt32).toNat >>> 12 = 2 ^ 20 - 1 := by decide
  have hlt := ph.pVaddr.toNat_lt
  have hshift : ∀ n : Nat, n / 4096 = n >>> 12 := fun n => (Nat.shiftRight_eq_div_pow n 12).symm
  rw [page, UInt32.toNat_and, hshift, Nat.shiftRight_and_distrib, hmask,
    Nat.and_two_pow_sub_one_eq_mod, ← hshift]
  omega

theorem toNat_pages :
    ph.pages.toNat = (ph.pVaddr.toNat % 4096 + ph.pFilesz.toNat + 4095) % 4294967296 / 4096 := by
  have hoffset : (ph.pVaddr &&& 0xFFF).toNat = ph.pVaddr.toNat % 4096 :=
    Nat.and_two_pow_sub_one_eq_mod _ 12
  have h4096 : (4096 : UInt32).toNat = 4096 := rfl
  rw [pages, UInt32.toNat_div, UInt32.toNat_sub, UInt32.toNat_add, UInt32.toNat_add, hoffset, h4096,
    UInt32.toNat_one]
  omega

/-- The pages that are allocated. -/
theorem inPages_iff {file : ElfFile} (hwithin : ph.Within file)
    (hfit : ph.pVaddr.toNat % 4096 + ph.pFilesz.toNat + 4095 < 4294967296) {a : UInt32} :
    InPages ph.pages ph.page a ↔ ph.Touches (a.toNat / 4096) := by
  have hfile := hwithin.filesz_le
  have hmemory := hwithin.memory_le
  have ha := a.toNat_lt
  rw [InPages, toNat_page_div, toNat_pages, Nat.mod_eq_of_lt hfit, Touches]
  omega

/-- The address of byte `k` of the segment. -/
theorem toNat_add_ofNat {file : ElfFile} (hwithin : ph.Within file) {k : Nat}
    (hk : k < ph.pMemsz.toNat) : (ph.pVaddr + UInt32.ofNat k).toNat = ph.pVaddr.toNat + k := by
  have hmemory := hwithin.memory_le
  have hlt := ph.pMemsz.toNat_lt
  rw [UInt32.toNat_add, UInt32.toNat_ofNat']
  omega

theorem covers_add {file : ElfFile} (hwithin : ph.Within file) {k : Nat}
    (hk : k < ph.pMemsz.toNat) : ph.Covers (ph.pVaddr + UInt32.ofNat k).toNat := by
  rw [toNat_add_ofNat hwithin hk, Covers]
  omega

end Phdr

/-! ## One segment -/

section

variable {file : ElfFile} {fresh : Nat → ByteMem} {ph : Phdr} {i : Nat} {s s' : Loading}

/-- `seek` and `read` within the file. -/
theorem map_space_read_seek {dst offset length : UInt32}
    (hfile : offset.toNat + length.toNat ≤ file.size) :
    (file.read dst length (file.seek offset s)).map (·.space) =
      if ∀ i, i < length.toNat → s.space.mapped (dst + UInt32.ofNat i) = true then
        some { s.space with
          bytes := s.space.bytes.fill dst length.toNat fun i => file.byte (offset.toNat + i) }
      else none := by
  by_cases hoffset : offset.toNat < file.size
  · rw [ElfFile.seek, if_pos hoffset, ElfFile.read]
    simp only [Nat.not_lt.mpr hfile, if_false]
    split
    case isTrue => rfl
    case isFalse => rfl
  · -- at the end of the file there is nothing to read
    have hlength : length.toNat = 0 := by omega
    have hnone : ∀ i, ¬ i < length.toNat := fun i hi => by omega
    rw [ElfFile.seek, if_neg hoffset, ElfFile.read, if_pos fun i hi => absurd hi (hnone i),
      if_pos fun i hi => absurd hi (hnone i), hlength, ByteMem.fill_zero, ByteMem.fill_zero]
    split
    case isTrue => rfl
    case isFalse => rfl

/-- What the loop does for one segment. -/
theorem map_space_loadPhdr (fresh : Nat → ByteMem) (i : Nat) (s : Loading) (hload : ph.IsLoad)
    (hwithin : ph.Within file) :
    (loadPhdr file fresh i ph s).map (·.space) =
      let space := s.space.allocAt ph.pages ph.page (fresh i)
      if ∀ k, k < ph.pFilesz.toNat → space.mapped (ph.pVaddr + UInt32.ofNat k) = true then
        some { space with
          bytes := space.bytes.fill ph.pVaddr ph.pFilesz.toNat
            fun k => file.byte (ph.pOffset.toNat + k) }
      else none := by
  rw [loadPhdr, if_pos hload]
  exact map_space_read_seek hwithin.file_le

theorem loadPhdr_eq_some (hload : ph.IsLoad) (hwithin : ph.Within file)
    (h : loadPhdr file fresh i ph s = some s') :
    (∀ k, k < ph.pFilesz.toNat → s'.space.mapped (ph.pVaddr + UInt32.ofNat k) = true) ∧
      (∀ a, s'.space.mapped a = true ↔ InPages ph.pages ph.page a ∨ s.space.mapped a = true) ∧
      s'.space.bytes = (s.space.allocAt ph.pages ph.page (fresh i)).bytes.fill ph.pVaddr
        ph.pFilesz.toNat fun k => file.byte (ph.pOffset.toNat + k) := by
  have hspace := map_space_loadPhdr fresh i s hload hwithin
  dsimp only at hspace
  rw [h, Option.map_some] at hspace
  split at hspace
  case isTrue hall =>
    rw [Option.some_inj] at hspace
    rw [hspace]
    refine ⟨hall, fun a => ?_, rfl⟩
    simp only [UserSpace.allocAt, Bool.or_eq_true, decide_eq_true_eq]
  case isFalse => cases hspace

/-- A byte outside the segment is not read. -/
theorem fill_of_not_covers (hwithin : ph.Within file) {mem : ByteMem} {f : Nat → UInt8}
    {a : UInt32} (ha : ¬ (ph.pVaddr.toNat ≤ a.toNat ∧
      a.toNat < ph.pVaddr.toNat + ph.pFilesz.toNat)) :
    mem.fill ph.pVaddr ph.pFilesz.toNat f a = mem a := by
  have hmemory := hwithin.memory_le
  have hfile := hwithin.filesz_le
  have halt := a.toNat_lt
  have hvlt := ph.pVaddr.toNat_lt
  rw [ByteMem.fill, if_neg]
  rw [UInt32.toNat_sub]
  omega

/-- A segment that is as large as its part of the file is loaded. -/
theorem loadPhdr_placed (fresh : Nat → ByteMem) (i : Nat) (s : Loading) (hload : ph.IsLoad)
    (hwithin : ph.Within file)
    (hfit : ph.pVaddr.toNat % 4096 + ph.pFilesz.toNat + 4095 < 4294967296)
    (hmemsz : ph.pMemsz = ph.pFilesz) :
    ∃ s', loadPhdr file fresh i ph s = some s' ∧ ph.Placed file s'.space := by
  have hpages : ∀ k, k < ph.pFilesz.toNat →
      InPages ph.pages ph.page (ph.pVaddr + UInt32.ofNat k) := by
    intro k hk
    rw [Phdr.inPages_iff hwithin hfit, Phdr.toNat_add_ofNat hwithin (by rw [hmemsz]; exact hk),
      Phdr.Touches]
    omega
  have hspace := map_space_loadPhdr fresh i s hload hwithin
  dsimp only at hspace
  rw [if_pos fun k hk => by simp [UserSpace.allocAt, hpages k hk], Option.map_eq_some_iff] at hspace
  obtain ⟨s', hs', -⟩ := hspace
  obtain ⟨hmapped, -, hbytes⟩ := loadPhdr_eq_some hload hwithin hs'
  refine ⟨s', hs', ?_⟩
  intro k hk
  rw [hmemsz] at hk
  have hlt := ph.pFilesz.toNat_lt
  refine ⟨hmapped k hk, ?_⟩
  rw [hbytes, ByteMem.fill_apply hk (Nat.le_of_lt hlt), if_pos hk]

end

/-! ## The loop -/

section

variable {file : ElfFile} {fresh : Nat → ByteMem} {phs : List Phdr} {i : Nat} {s s' : Loading}

/-- What every segment keeps, the loop keeps. -/
theorem loadFrom_induct {P : Loading → Prop}
    (hstep : ∀ j, ∀ ph ∈ phs, ∀ s s', P s → loadPhdr file fresh j ph s = some s' → P s')
    (h : loadFrom file fresh i phs s = some s') (hs : P s) : P s' := by
  induction phs generalizing i s with
  | nil =>
    cases h
    exact hs
  | cons ph phs ih =>
    rw [loadFrom, Option.bind_eq_some_iff] at h
    obtain ⟨s₁, hfirst, hrest⟩ := h
    apply ih (fun j ph' hph' => hstep j ph' (List.mem_cons_of_mem _ hph')) hrest
    exact hstep i ph List.mem_cons_self s s₁ hs hfirst

theorem loadFrom_append {phs' : List Phdr} :
    loadFrom file fresh i (phs ++ phs') s =
      (loadFrom file fresh i phs s).bind (loadFrom file fresh (i + phs.length) phs') := by
  induction phs generalizing i s with
  | nil => rfl
  | cons ph phs ih =>
    rw [List.cons_append, loadFrom, loadFrom, Option.bind_assoc, List.length_cons]
    congr 1
    funext s₁
    rw [ih]
    congr 2
    omega

theorem loadPhdr_of_not_isLoad {ph : Phdr} (h : ¬ ph.IsLoad) :
    loadPhdr file fresh i ph s = some s := if_neg h

/-- What is mapped stays mapped. -/
theorem loadPhdr_mapped {ph : Phdr} (hwithin : ph.IsLoad → ph.Within file)
    (h : loadPhdr file fresh i ph s = some s') {a : UInt32} (ha : s.space.mapped a = true) :
    s'.space.mapped a = true := by
  by_cases hload : ph.IsLoad
  · exact ((loadPhdr_eq_some hload (hwithin hload) h).2.1 a).mpr (Or.inr ha)
  · rw [loadPhdr_of_not_isLoad hload, Option.some_inj] at h
    rw [← h]
    exact ha

/-- A byte that is not read holds what it held, or what the new frame holds. -/
theorem loadPhdr_bytes {ph : Phdr} (hwithin : ph.IsLoad → ph.Within file)
    (h : loadPhdr file fresh i ph s = some s') {a : UInt32}
    (ha : ph.IsLoad → ¬ (ph.pVaddr.toNat ≤ a.toNat ∧
      a.toNat < ph.pVaddr.toNat + ph.pFilesz.toNat)) :
    s'.space.bytes a =
      if ph.IsLoad ∧ InPages ph.pages ph.page a then fresh i a else s.space.bytes a := by
  by_cases hload : ph.IsLoad
  · rw [(loadPhdr_eq_some hload (hwithin hload) h).2.2,
      fill_of_not_covers (hwithin hload) (ha hload), UserSpace.allocAt]
    simp only [hload, true_and]
  · rw [loadPhdr_of_not_isLoad hload, Option.some_inj] at h
    rw [← h, if_neg fun hboth => hload hboth.1]

/-- **The loop builds the image** of segments that are as large as their part of the file and have
no bytes in the pages of later ones. -/
theorem loadFrom_placed (fresh : Nat → ByteMem) (hwithin : ∀ ph ∈ phs, ph.IsLoad → ph.Within file)
    (hdisjoint : phs.Pairwise fun ph ph' =>
      ph.IsLoad → ph'.IsLoad → ∀ a, ¬ (ph.Covers a ∧ ph'.Covers a))
    (hmemsz : ∀ ph ∈ phs, ph.IsLoad → ph.pMemsz = ph.pFilesz)
    (hfit : ∀ ph ∈ phs, ph.IsLoad →
      ph.pVaddr.toNat % 4096 + ph.pFilesz.toNat + 4095 < 4294967296)
    (hapart : phs.Pairwise fun ph ph' =>
      ph.IsLoad → ph'.IsLoad → ∀ a, ph.Covers a → ¬ ph'.Touches (a / 4096))
    (i : Nat) (s : Loading) :
    ∃ s', loadFrom file fresh i phs s = some s' ∧
      ∀ ph ∈ phs, ph.IsLoad → ph.Placed file s'.space := by
  induction phs generalizing i s with
  | nil => exact ⟨s, rfl, fun _ hph => nomatch hph⟩
  | cons ph phs ih =>
    rw [List.forall_mem_cons] at hwithin hmemsz hfit
    rw [List.pairwise_cons] at hdisjoint hapart
    have hfirst : ∃ s₁, loadPhdr file fresh i ph s = some s₁ ∧
        (ph.IsLoad → ph.Placed file s₁.space) := by
      by_cases hload : ph.IsLoad
      · obtain ⟨s₁, hs₁, hplaced⟩ := loadPhdr_placed fresh i s hload (hwithin.1 hload)
          (hfit.1 hload) (hmemsz.1 hload)
        exact ⟨s₁, hs₁, fun _ => hplaced⟩
      · exact ⟨s, loadPhdr_of_not_isLoad hload, fun hyes => absurd hyes hload⟩
    obtain ⟨s₁, hs₁, hplaced⟩ := hfirst
    obtain ⟨s', hs', hrest⟩ := ih hwithin.2 hdisjoint.2 hmemsz.2 hfit.2 hapart.2 (i + 1) s₁
    refine ⟨s', ?_, ?_⟩
    · rw [loadFrom, hs₁]
      exact hs'
    · rw [List.forall_mem_cons]
      refine ⟨fun hload k hk => ?_, hrest⟩
      -- the segments that follow leave byte `k` alone
      have hcovers := Phdr.covers_add (hwithin.1 hload) hk
      apply loadFrom_induct (P := fun s => s.space.mapped (ph.pVaddr + UInt32.ofNat k) = true ∧
        s.space.bytes (ph.pVaddr + UInt32.ofNat k) = _) _ hs' (hplaced hload k hk)
      intro j ph' hph' s₂ s₃ hbyte hstep
      have hwithin' := hwithin.2 ph' hph'
      have hnot : ph'.IsLoad → ¬ ph'.Covers (ph.pVaddr + UInt32.ofNat k).toNat :=
        fun hload' hboth => hdisjoint.1 ph' hph' hload hload' _ ⟨hcovers, hboth⟩
      refine ⟨loadPhdr_mapped hwithin' hstep hbyte.1, ?_⟩
      rw [loadPhdr_bytes hwithin' hstep, if_neg, hbyte.2]
      · rintro ⟨hload', hin⟩
        rw [Phdr.inPages_iff (hwithin' hload') (hfit.2 ph' hph' hload')] at hin
        exact hapart.1 ph' hph' hload hload' _ hcovers hin
      · intro hload' hpart
        have hle := (hwithin' hload').filesz_le
        exact hnot hload' ⟨hpart.1, by omega⟩

/-- A byte that no segment reads holds what the new frames hold, once it is in one. -/
theorem loadFrom_fresh (hwithin : ∀ ph ∈ phs, ph.IsLoad → ph.Within file) {a : UInt32}
    (hread : ∀ ph ∈ phs, ph.IsLoad → ¬ (ph.pVaddr.toNat ≤ a.toNat ∧
      a.toNat < ph.pVaddr.toNat + ph.pFilesz.toNat))
    {c : UInt8} (hfresh : ∀ j, fresh j a = c) (h : loadFrom file fresh i phs s = some s')
    (hc : s.space.bytes a = c ∨ ∃ ph ∈ phs, ph.IsLoad ∧ InPages ph.pages ph.page a) :
    s'.space.bytes a = c := by
  induction phs generalizing i s with
  | nil =>
    cases h
    simpa using hc
  | cons ph phs ih =>
    rw [List.forall_mem_cons] at hwithin hread
    rw [loadFrom, Option.bind_eq_some_iff] at h
    obtain ⟨s₁, hfirst, hrest⟩ := h
    have hbytes := loadPhdr_bytes hwithin.1 hfirst hread.1
    apply ih hwithin.2 hread.2 hrest
    by_cases hin : ph.IsLoad ∧ InPages ph.pages ph.page a
    · rw [if_pos hin, hfresh] at hbytes
      exact Or.inl hbytes
    · rw [if_neg hin] at hbytes
      rw [hbytes]
      rcases hc with hc | ⟨ph', hph', hin'⟩
      · exact Or.inl hc
      · rcases List.mem_cons.mp hph' with rfl | hmem
        · exact absurd hin' hin
        · exact Or.inr ⟨ph', hmem, hin'⟩

/-- Only pages that are allocated get mapped. -/
theorem loadFrom_mapped (hwithin : ∀ ph ∈ phs, ph.IsLoad → ph.Within file)
    (h : loadFrom file fresh i phs s = some s') {a : UInt32} (ha : s'.space.mapped a = true)
    (hnone : s.space.mapped a = false) :
    ∃ ph ∈ phs, ph.IsLoad ∧ InPages ph.pages ph.page a := by
  by_contra hno
  have hkeep : s'.space.mapped a = false := by
    apply loadFrom_induct (P := fun s => s.space.mapped a = false) _ h hnone
    intro j ph hph s₁ s₂ hs₁ hstep
    by_cases hload : ph.IsLoad
    · obtain ⟨-, hmapped, -⟩ := loadPhdr_eq_some hload (hwithin ph hph hload) hstep
      rw [Bool.eq_false_iff, Ne, hmapped a]
      rintro (hin | hmapped₁)
      · exact hno ⟨ph, hph, hload, hin⟩
      · rw [hs₁] at hmapped₁
        cases hmapped₁
    · rw [loadPhdr_of_not_isLoad hload, Option.some_inj] at hstep
      rw [← hstep]
      exact hs₁
  rw [hkeep] at ha
  cases ha

end

/-! ## Which executables are built -/

/-- An address belongs to one segment only. -/
theorem Executable.eq_of_covers {file : ElfFile} (h : Executable file) {ph ph' : Phdr}
    (hph : ph ∈ file.phdrs) (hph' : ph' ∈ file.phdrs) (hload : ph.IsLoad) (hload' : ph'.IsLoad)
    {a : Nat} (ha : ph.Covers a) (ha' : ph'.Covers a) : ph = ph' := by
  by_contra hne
  have hsymm : Std.Symm fun ph ph' : Phdr =>
      ph.IsLoad → ph'.IsLoad → ∀ a, ¬ (ph.Covers a ∧ ph'.Covers a) :=
    ⟨fun _ _ hd hl' hl a hboth => hd hl hl' a hboth.symm⟩
  exact h.disjoint.forall hph hph' hne hload hload' a ⟨ha, ha'⟩

namespace Builds

variable {file : ElfFile}

/-- The loop, with the state it leaves. -/
theorem loadFrom (h : Builds file) (hexe : Executable file) (fresh : Nat → ByteMem)
    (space : UserSpace) :
    ∃ s s', s.space = space ∧ Storage.loadFrom file fresh 0 file.phdrs s = some s' ∧
      ∀ ph ∈ file.phdrs, ph.IsLoad → ph.Placed file s'.space := by
  obtain ⟨space', hrun, hplaced⟩ := h fresh space
  rw [elfExec, if_neg (by have := hexe.phnum_le; have := hexe.phoff_lt; omega),
    Option.map_eq_some_iff] at hrun
  obtain ⟨s', hs', rfl⟩ := hrun
  exact ⟨_, s', rfl, hs', hplaced⟩

/-- The bytes behind the part of the file are never written. -/
theorem memsz_eq (h : Builds file) (hexe : Executable file) {ph : Phdr} (hph : ph ∈ file.phdrs)
    (hload : ph.IsLoad) : ph.pMemsz = ph.pFilesz := by
  have hwithin := hexe.within ph hph hload
  by_contra hne
  have hlt : ph.pFilesz.toNat < ph.pMemsz.toNat := by
    have hle := hwithin.filesz_le
    have hne' : ph.pMemsz.toNat ≠ ph.pFilesz.toNat := fun heq => hne (UInt32.toNat.inj heq)
    omega
  obtain ⟨s, s', hs, hrun, hplaced⟩ := h.loadFrom hexe (fun _ _ => 1) ⟨fun _ => false, fun _ => 1⟩
  have hzero := (hplaced ph hph hload _ hlt).2
  rw [if_neg (Nat.lt_irrefl _)] at hzero
  have hone := loadFrom_fresh (a := ph.pVaddr + UInt32.ofNat ph.pFilesz.toNat) (c := 1) hexe.within
    ?_ (fun _ => rfl) hrun (Or.inl (by rw [hs]))
  · rw [hone] at hzero
    cases hzero
  · intro ph' hph' hload' hpart
    have hle := (hexe.within ph' hph' hload').filesz_le
    have hcovers' : ph'.Covers (ph.pVaddr + UInt32.ofNat ph.pFilesz.toNat).toNat :=
      ⟨hpart.1, by omega⟩
    have heq := hexe.eq_of_covers hph hph' hload hload' (Phdr.covers_add hwithin hlt) hcovers'
    subst heq
    rw [Phdr.toNat_add_ofNat hwithin hlt] at hpart
    omega

/-- A page that is allocated again loses its bytes. -/
theorem pages_apart (h : Builds file) (hexe : Executable file) :
    file.phdrs.Pairwise fun ph ph' =>
      ph.IsLoad → ph'.IsLoad → ∀ a, ph.Covers a → ¬ InPages ph'.pages ph'.page (UInt32.ofNat a) := by
  rw [List.pairwise_iff_getElem]
  intro n m hn hm hlt hload hload' a hcovers hin
  obtain ⟨ph, hph⟩ : ∃ ph, file.phdrs[n] = ph := ⟨_, rfl⟩
  have hmem : ph ∈ file.phdrs := hph ▸ List.getElem_mem hn
  rw [hph] at hload hcovers
  have hwithin := hexe.within ph hmem hload
  have hmemory := hwithin.memory_le
  have hmemsz := h.memsz_eq hexe hmem hload
  have haddr : ph.pVaddr + UInt32.ofNat (a - ph.pVaddr.toNat) = UInt32.ofNat a := by
    apply UInt32.toNat.inj
    rw [Phdr.toNat_add_ofNat hwithin (by unfold Phdr.Covers at hcovers; omega), UInt32.toNat_ofNat']
    unfold Phdr.Covers at hcovers
    omega
  -- the new frames hold anything but the byte of the file
  let c := file.byte (ph.pOffset.toNat + (a - ph.pVaddr.toNat)) + 1
  obtain ⟨s, s', -, hrun, hplaced⟩ := h.loadFrom hexe (fun _ _ => c) ⟨fun _ => false, fun _ => c⟩
  have hbyte := (hplaced ph hmem hload (a - ph.pVaddr.toNat) (by
    unfold Phdr.Covers at hcovers; omega)).2
  rw [← List.take_append_drop (n + 1) file.phdrs, loadFrom_append, Option.bind_eq_some_iff] at hrun
  obtain ⟨s₁, -, hrest⟩ := hrun
  have hlost : s'.space.bytes (UInt32.ofNat a) = c := by
    apply loadFrom_fresh (fun q hq => hexe.within q (List.mem_of_mem_drop hq)) _ (fun _ => rfl) hrest
    · right
      refine ⟨file.phdrs[m], ?_, hload', hin⟩
      rw [List.mem_drop_iff_getElem]
      exact ⟨m - (n + 1), by omega, by congr 1; omega⟩
    · intro q hq hloadq hpart
      have hle := (hexe.within q (List.mem_of_mem_drop hq) hloadq).filesz_le
      obtain ⟨k, hk, rfl⟩ := List.mem_drop_iff_getElem.mp hq
      have hapart := List.pairwise_iff_getElem.mp hexe.disjoint n (n + 1 + k) hn (by omega) (by omega)
      rw [hph] at hapart
      rw [UInt32.toNat_ofNat', Nat.mod_eq_of_lt (by unfold Phdr.Covers at hcovers; omega)] at hpart
      exact hapart hload hloadq a ⟨hcovers, hpart.1, by omega⟩
  rw [haddr, hlost, if_pos (by rw [← hmemsz]; unfold Phdr.Covers at hcovers; omega)] at hbyte
  exact absurd (UInt8.add_eq_left.mp hbyte) (by decide)

/-- A segment nearly as large as memory would need the pages of the other segments, but these are
too few. -/
theorem pages_fit (h : Builds file) (hexe : Executable file) {ph : Phdr} (hph : ph ∈ file.phdrs)
    (hload : ph.IsLoad) :
    ph.pVaddr.toNat % 4096 + ph.pFilesz.toNat + 4095 < 4294967296 := by
  have hwithin := hexe.within ph hph hload
  have hmemory := hwithin.memory_le
  have hfile := hwithin.filesz_le
  by_contra hlarge
  -- the page `p` is allocated by a segment without bytes
  have hpage : ∀ p, 16 ≤ p → p ≤ 48 → ∃ q ∈ file.phdrs, q.pVaddr.toNat / 4096 = p := by
    intro p hp₁ hp₂
    obtain ⟨s, s', hs, hrun, hplaced⟩ :=
      h.loadFrom hexe (fun _ _ => 0) ⟨fun _ => false, fun _ => 0⟩
    have hk : p * 4096 - ph.pVaddr.toNat < ph.pMemsz.toNat := by omega
    have hmapped := (hplaced ph hph hload _ hk).1
    obtain ⟨q, hq, hloadq, hin⟩ := loadFrom_mapped hexe.within hrun hmapped (by rw [hs])
    refine ⟨q, hq, ?_⟩
    have hwithinq := hexe.within q hq hloadq
    have hmemoryq := hwithinq.memory_le
    have hfileq := hwithinq.filesz_le
    have hqlt := q.pVaddr.toNat_lt
    rw [InPages, Phdr.toNat_add_ofNat hwithin hk, Phdr.toNat_page_div, Phdr.toNat_pages] at hin
    by_cases heq : q = ph
    · subst heq
      omega
    · by_cases hempty : q.pMemsz.toNat = 0
      · omega
      · have hfirst : ¬ ph.Covers q.pVaddr.toNat := fun hc =>
          heq (hexe.eq_of_covers hq hph hloadq hload ⟨Nat.le_refl _, by omega⟩ hc)
        have hother : ¬ q.Covers ph.pVaddr.toNat := fun hc =>
          heq (hexe.eq_of_covers hq hph hloadq hload hc ⟨Nat.le_refl _, by omega⟩)
        unfold Phdr.Covers at hfirst hother
        omega
  have hsubset : Finset.Icc 16 48 ⊆
      (file.phdrs.map fun q => q.pVaddr.toNat / 4096).toFinset := by
    intro p hp
    obtain ⟨hp₁, hp₂⟩ := Finset.mem_Icc.mp hp
    rw [List.mem_toFinset, List.mem_map]
    exact hpage p hp₁ hp₂
  have hcard := (Finset.card_le_card hsubset).trans (List.toFinset_card_le _)
  have hphnum := hexe.phnum_le
  rw [Nat.card_Icc, List.length_map, ElfFile.phdrs, List.length_map, List.length_range] at hcard
  omega

end Builds

/-- **`elf_exec` builds the image** that the file describes, whatever the new frames hold, if and
only if no segment has more bytes in memory than in the file or nearly fills memory, and none has
bytes in a page of a later one. -/
theorem elfExec_builds_iff (file : ElfFile) (hexe : Executable file) :
    Builds file ↔ Plain file := by
  constructor
  · intro h
    have hfit : ∀ ph ∈ file.phdrs, ph.IsLoad →
        ph.pVaddr.toNat % 4096 + ph.pFilesz.toNat + 4095 < 4294967296 :=
      fun ph hph hload => h.pages_fit hexe hph hload
    refine ⟨fun ph hph hload => h.memsz_eq hexe hph hload, hfit, ?_⟩
    apply (h.pages_apart hexe).imp_of_mem
    intro ph ph' hph hph' hapart hload hload' a hcovers htouches
    have hmemory := (hexe.within ph hph hload).memory_le
    apply hapart hload hload' a hcovers
    rw [Phdr.inPages_iff (hexe.within ph' hph' hload') (hfit ph' hph' hload'), UInt32.toNat_ofNat',
      Nat.mod_eq_of_lt (by unfold Phdr.Covers at hcovers; omega)]
    exact htouches
  · intro h fresh space
    obtain ⟨s', hs', hplaced⟩ := loadFrom_placed fresh hexe.within hexe.disjoint h.memsz_eq
      h.pages_fit h.pages_apart 0 ⟨space, file.header.ePhoff.toNat + 32 * file.header.ePhnum⟩
    refine ⟨s'.space, ?_, hplaced⟩
    rw [elfExec, if_neg (by have := hexe.phnum_le; have := hexe.phoff_lt; omega), hs']
    rfl

/-- A file with one segment: two bytes of the file at `0x10000000`, and `memsz` bytes in memory. -/
def oneSegment (memsz : UInt8) : ElfFile where
  bytes :=
    List.replicate 28 0 ++ [52, 0, 0, 0] ++ List.replicate 12 0 ++ [1, 0] ++ List.replicate 6 0 ++
      [1, 0, 0, 0, 84, 0, 0, 0, 0, 0, 0, 0x10, 0, 0, 0, 0, 2, 0, 0, 0, memsz, 0, 0, 0, 7, 0, 0, 0,
        0, 0x10, 0, 0] ++ [0xAB, 0xCD]
  length_lt := by simp

theorem executable_oneSegment {memsz : UInt8} {ph : Phdr} (hphdrs : (oneSegment memsz).phdrs = [ph])
    (hheader : (oneSegment memsz).header = ⟨52, 1⟩) (hwithin : ph.Within (oneSegment memsz)) :
    Executable (oneSegment memsz) where
  phnum_le := by
    rw [hheader]
    decide
  phoff_lt := by
    rw [hheader]
    show 52 < (oneSegment memsz).bytes.length
    simp [oneSegment]
  within := by
    rw [hphdrs, List.forall_mem_singleton]
    exact fun _ => hwithin
  disjoint := by
    rw [hphdrs]
    exact List.pairwise_singleton _ _

theorem twoBytes_built : Executable (oneSegment 2) ∧ Builds (oneSegment 2) := by
  have hphdrs : (oneSegment 2).phdrs = [⟨1, 84, 0x10000000, 2, 2⟩] := by decide +kernel
  have hexe := executable_oneSegment hphdrs (by decide +kernel) ⟨by decide, by decide, by decide⟩
  refine ⟨hexe, (elfExec_builds_iff _ hexe).mpr ⟨?_, ?_, ?_⟩⟩
  · rw [hphdrs, List.forall_mem_singleton]
    exact fun _ => rfl
  · rw [hphdrs, List.forall_mem_singleton]
    exact fun _ => by decide
  · rw [hphdrs]
    exact List.pairwise_singleton _ _

/-- **The byte behind the part of the file is not zero**: the new frame holds something else. -/
theorem bss_not_zero : Executable (oneSegment 3) ∧ ¬ Builds (oneSegment 3) := by
  have hphdrs : (oneSegment 3).phdrs = [⟨1, 84, 0x10000000, 2, 3⟩] := by decide +kernel
  have hexe := executable_oneSegment hphdrs (by decide +kernel) ⟨by decide, by decide, by decide⟩
  refine ⟨hexe, fun hbuilds => ?_⟩
  have hmem : (⟨1, 84, 0x10000000, 2, 3⟩ : Phdr) ∈ (oneSegment 3).phdrs := by
    rw [hphdrs]
    exact List.mem_singleton_self _
  exact absurd (hbuilds.memsz_eq hexe hmem rfl) (by decide)

end Shipwreck.Storage
