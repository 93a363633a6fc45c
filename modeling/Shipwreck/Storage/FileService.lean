import Shipwreck.Lib.Refines
import Shipwreck.Storage.Handles
import Mathlib.Data.List.Find

/-!
# The files of the processes

`syscall_open`, `syscall_seek` and `syscall_read` of `system/syscall.cpp` over the table of `TarFS`: a process names
a file by a handle, the handle leads to a slot, the slot knows where the file is on the disk and which sector is
next:

    handles p f  -->  slot i:  header_sector, current_sector, cursor, size  -->  sectors of the disk

What a process wants to see of it are bytes and a position (`OpenFiles`). `files_refine` says that it sees no more
than that, whatever the other processes and its own other handles do.
-/

namespace Shipwreck.Storage

/-! ## The system calls -/

/-- A call of a process. -/
inductive FileCall where
  | openFile (name : Bytes)
  | seek (fh offset : Int32)
  | read (fh : Int32) (buffer length : UInt32)

/-- Who calls, and what. -/
structure ProcCall where
  process : Nat
  call : FileCall

/-- The tables of the kernel, and the memory of each process. -/
structure FileKernel where
  tables : FileTables
  mems : Nat → ByteMem

/-- `get_file_by_handle`. -/
def getFileByHandle {α : Type} (files : Nat → Option α) (fh : Int32) : Option α :=
  if fh < 0 ∨ 16 ≤ fh then none else files fh.toInt.toNat

/-- A slot of the table is written to. -/
def FileKernel.setFile (s : FileKernel) (i : Nat) (file : TarFile) : FileKernel :=
  { s with tables := { s.tables with files := Function.update s.tables.files i file } }

/-- The system calls. What another file of the system does is not said here. -/
def fileKernel (disk : Disk) (behind : Nat → UInt8) (fuel : Nat) : Server FileKernel ProcCall Int where
  answer s c :=
    match c.call with
    | .openFile name =>
      (syscallOpen disk fuel ⟨c.process, name⟩ s.tables).map fun r => (r.1, { s with tables := r.2 })
    | .seek fh offset =>
      match getFileByHandle (s.tables.handles c.process) fh with
      | none => some (-1, s)
      | some (.slot i) =>
        let r := (s.tables.files i).seek offset
        some (r.1, s.setFile i r.2)
      | some (.device _) => none
    | .read fh buffer length =>
      match getFileByHandle (s.tables.handles c.process) fh with
      | none => some (-1, s)
      | some (.slot i) =>
        let r := (s.tables.files i).read disk behind (s.mems c.process) buffer length
        some (r.1, { s.setFile i r.2.1 with mems := Function.update s.mems c.process r.2.2 })
      | some (.device _) => none

/-! ## What a process sees -/

/-- Files with names. -/
structure Contents (ι : Type) where
  named : Bytes → Option ι
  size : ι → Nat
  byte : ι → Nat → UInt8

/-- A handle: a position in a file, or another file of the system. -/
inductive OpenHandle (ι : Type) where
  | file (t : ι) (cursor : Nat)
  | device (n : Nat)

/-- The handles of all processes, how many files have been opened, and the memory of each process. -/
structure OpenFiles (ι : Type) where
  handles : Nat → Nat → Option (OpenHandle ι)
  used : Nat
  mems : Nat → ByteMem

/-- The first free handle. -/
def freeEntry {α : Type} (handles : Nat → Option α) : Option Nat :=
  (List.range maxProcFiles).find? fun f => (handles f).isNone

section

variable {ι : Type}

/-- A handle is set. -/
def OpenFiles.setHandle (a : OpenFiles ι) (p f : Nat) (h : OpenHandle ι) : OpenFiles ι :=
  { a with handles := Function.update a.handles p (Function.update (a.handles p) f (some h)) }

/-- The service: a file is opened at its start, a seek to a byte of the file goes there, and a read of bytes that
are all there delivers them and goes on behind them. -/
def fileService (files : Contents ι) : Server (OpenFiles ι) ProcCall Int where
  answer a c :=
    match c.call with
    | .openFile name =>
      match freeEntry (a.handles c.process), files.named name with
      | some f, some t => some ((f : Int), { a.setHandle c.process f (.file t 0) with used := a.used + 1 })
      | _, _ => none
    | .seek fh offset =>
      match getFileByHandle (a.handles c.process) fh with
      | none => some (-1, a)
      | some (.file t _) =>
        if 0 ≤ offset.toInt ∧ offset.toInt < files.size t then
          some (1, a.setHandle c.process fh.toInt.toNat (.file t offset.toInt.toNat))
        else some (0, a)
      | some (.device _) => none
    | .read fh buffer length =>
      match getFileByHandle (a.handles c.process) fh with
      | none => some (-1, a)
      | some (.file t cursor) =>
        if cursor + length.toNat ≤ files.size t then
          some (length.toNat,
            { a.setHandle c.process fh.toInt.toNat (.file t (cursor + length.toNat)) with
              mems := Function.update a.mems c.process
                ((a.mems c.process).fill buffer length.toNat fun i => files.byte t (cursor + i)) })
        else some (0, a)
      | some (.device _) => none

end

/-- The files of an archive with these headers, named by their header sectors. -/
def archiveFiles (disk : Disk) (sectors : List UInt32) : Contents UInt32 where
  named := fileAt disk sectors
  size t := (getSize (disk t)).toNat
  byte t i := disk (t + 1 + UInt32.ofNat (i / 512)) (i % 512)

/-- A call that the kernel answers well. A file is opened while a handle of the process and a slot of the table
are free, by a name that no other file before it begins with, and is not empty; a read that starts inside a sector
reads to the end of it, and its length is an `int`. -/
def Allowed (disk : Disk) (sectors : List UInt32) (a : OpenFiles UInt32) (c : ProcCall) : Prop :=
  match c.call with
  | .openFile name => (freeEntry (a.handles c.process)).isSome ∧ a.used < maxFiles ∧
      ∃ t ∈ foundAt disk sectors name, fileAt disk sectors name = some t ∧ getSize (disk t) ≠ 0
  | .seek fh _ =>
    match getFileByHandle (a.handles c.process) fh with
    | some (.device _) => False
    | _ => True
  | .read fh _ length =>
    match getFileByHandle (a.handles c.process) fh with
    | some (.device _) => False
    | some (.file t cursor) => length.toNat < 2147483648 ∧ (cursor + length.toNat ≤ (getSize (disk t)).toNat →
        cursor % 512 = 0 ∨ (512 ≤ cursor % 512 + length.toNat ∧ cursor % 512 + length.toNat < 2147483648))
    | none => True

instance (disk : Disk) (sectors : List UInt32) (a : OpenFiles UInt32) : (c : ProcCall) →
    Decidable (Allowed disk sectors a c)
  | ⟨p, .openFile name⟩ => inferInstanceAs (Decidable ((freeEntry (a.handles p)).isSome ∧ a.used < maxFiles ∧
      ∃ t ∈ foundAt disk sectors name, fileAt disk sectors name = some t ∧ getSize (disk t) ≠ 0))
  | ⟨p, .seek fh offset⟩ =>
    match h : getFileByHandle (a.handles p) fh with
    | some (.device _) => isFalse (by simp [Allowed, h])
    | some (.file _ _) => isTrue (by simp [Allowed, h])
    | none => isTrue (by simp [Allowed, h])
  | ⟨p, .read fh _ length⟩ =>
    match h : getFileByHandle (a.handles p) fh with
    | some (.device _) => isFalse (by simp [Allowed, h])
    | some (.file t cursor) =>
      decidable_of_iff (length.toNat < 2147483648 ∧ (cursor + length.toNat ≤ (getSize (disk t)).toNat →
        cursor % 512 = 0 ∨ (512 ≤ cursor % 512 + length.toNat ∧ cursor % 512 + length.toNat < 2147483648)))
        (by simp [Allowed, h])
    | none => isTrue (by simp [Allowed, h])

/-! ## The relation -/

/-- The slot stands at this position of the file. -/
structure StandsAt (disk : Disk) (t : UInt32) (cursor : Nat) (file : TarFile) : Prop where
  header : file.headerSector = t
  size : file.size = getSize (disk t)
  cursor_eq : file.cursor.toNat = cursor
  cursor_le : cursor ≤ (getSize (disk t)).toNat
  aligned : file.Aligned

/-- A handle of the kernel and one that a process sees. -/
def SameHandle (disk : Disk) (sectors : List UInt32) (files : Nat → TarFile) (used : Nat) :
    Option FileRef → Option (OpenHandle UInt32) → Prop
  | none, none => True
  | some (.device n), some (.device m) => n = m
  | some (.slot i), some (.file t cursor) =>
    i < used ∧ i < maxFiles ∧ t ∈ sectors ∧ StandsAt disk t cursor (files i)
  | _, _ => False

/-- The kernel and what the processes see of it: slots are used from the first on, and no two handles have the
same one. -/
structure Shows (disk : Disk) (sectors : List UInt32) (s : FileKernel) (a : OpenFiles UInt32) : Prop where
  mems : s.mems = a.mems
  used : ∀ i, i < maxFiles → ((s.tables.files i).size ≠ 0 ↔ i < a.used)
  handles : ∀ p f, SameHandle disk sectors s.tables.files a.used (s.tables.handles p f) (a.handles p f)
  distinct : ∀ p f p' f' i, s.tables.handles p f = some (.slot i) → s.tables.handles p' f' = some (.slot i) →
    p = p' ∧ f = f'

/-! ## Slots and handles -/

theorem FileKernel.setFile_self (s : FileKernel) (i : Nat) : s.setFile i (s.tables.files i) = s := by
  rw [setFile, Function.update_eq_self]

/-- Another handle than the one that is set. -/
theorem update_entry_of_ne {α : Type} {handles : Nat → Nat → α} {p f p' f' : Nat} {h : α}
    (hne : ¬ (p' = p ∧ f' = f)) :
    Function.update handles p (Function.update (handles p) f h) p' f' = handles p' f' := by
  by_cases hp : p' = p
  · subst hp
    rw [Function.update_self, Function.update_of_ne fun hf => hne ⟨rfl, hf⟩]
  · rw [Function.update_of_ne hp]

theorem update_entry_self {α : Type} {handles : Nat → Nat → α} {p f : Nat} {h : α} :
    Function.update handles p (Function.update (handles p) f h) p f = h := by
  rw [Function.update_self, Function.update_self]

/-- An entry behind a change is the one that was set, or an old one. -/
theorem update_entry_cases {α : Type} {handles : Nat → Nat → α} {p f p' f' : Nat} {h h' : α}
    (hentry : Function.update handles p (Function.update (handles p) f h) p' f' = h') :
    (p' = p ∧ f' = f ∧ h = h') ∨ handles p' f' = h' := by
  by_cases hone : p' = p ∧ f' = f
  · obtain ⟨rfl, rfl⟩ := hone
    exact Or.inl ⟨rfl, rfl, update_entry_self.symm.trans hentry⟩
  · exact Or.inr ((update_entry_of_ne hone).symm.trans hentry)

section

variable {disk : Disk} {behind : Nat → UInt8} {sectors : List UInt32} {fuel : Nat} {s : FileKernel}
  {a : OpenFiles UInt32} {t : UInt32} {cursor p i : Nat} {fh : Int32} {file file' : TarFile}

theorem getFileByHandle_some {α : Type} {files : Nat → Option α} {h : α}
    (hfile : getFileByHandle files fh = some h) : files fh.toInt.toNat = some h := by
  rw [getFileByHandle] at hfile
  split at hfile
  · cases hfile
  · exact hfile

namespace StandsAt

/-- The bytes of the file are those of its sectors. -/
theorem stored (h : StandsAt disk t cursor file) : Stored disk ((archiveFiles disk sectors).byte t) file := by
  intro i _
  rw [TarFile.sectorOf, h.header]
  rfl

/-- A seek to a byte of the file goes there. -/
theorem seek (h : StandsAt disk t cursor file) {offset : Int32} (hlo : 0 ≤ offset.toInt)
    (hhi : offset.toInt < (getSize (disk t)).toNat) :
    (file.seek offset).1 = 1 ∧ StandsAt disk t offset.toInt.toNat (file.seek offset).2 := by
  have hin : Within file (.seek offset) := ⟨hlo, by rw [h.size]; exact hhi⟩
  obtain ⟨hret, hcursor, haligned⟩ := seek_within hin
  have hplace : (file.seek offset).2.headerSector = file.headerSector ∧ (file.seek offset).2.size = file.size :=
    seek_place
  exact ⟨hret, ⟨hplace.1.trans h.header, hplace.2.trans h.size, by omega, by omega, haligned⟩⟩

/-- Any other one fails. -/
theorem seek_outside (h : StandsAt disk t cursor file) {offset : Int32}
    (hout : ¬ (0 ≤ offset.toInt ∧ offset.toInt < (getSize (disk t)).toNat)) : file.seek offset = (0, file) := by
  have hguard : offset.toInt < 0 ∨ file.size.toNat ≤ CInt.toUint offset.toInt := by
    rw [h.size]
    by_cases hlo : offset.toInt < 0
    · exact Or.inl hlo
    · refine Or.inr ?_
      have hlt := offset.toInt_lt
      rw [CInt.toUint_of_nonneg (by omega) (by omega)]
      omega
  rw [TarFile.seek, if_pos hguard]

/-- A read of bytes that are all there delivers them. -/
theorem read (h : StandsAt disk t cursor file) (behind : Nat → UInt8) (sectors : List UInt32) (mem : ByteMem)
    (buffer : UInt32) {length : UInt32}
    (hlength : length.toNat < 2147483648) (hin : cursor + length.toNat ≤ (getSize (disk t)).toNat)
    (hwhole : cursor % 512 = 0 ∨ (512 ≤ cursor % 512 + length.toNat ∧ cursor % 512 + length.toNat < 2147483648)) :
    ∃ file', file.read disk behind mem buffer length =
        (length.toNat, file', mem.fill buffer length.toNat fun i => (archiveFiles disk sectors).byte t (cursor + i)) ∧
      StandsAt disk t (cursor + length.toNat) file' := by
  have hcursor := h.cursor_eq
  have hsize : file.cursor.toNat + length.toNat ≤ file.size.toNat := by
    rw [hcursor, h.size]
    exact hin
  have hmax := file.size.toNat_lt
  have hstored : Stored disk ((archiveFiles disk sectors).byte t) file := h.stored
  have hwithin : Within file (.read buffer length) := ⟨hsize, hlength⟩
  have hread : file.read disk behind mem buffer length = _ := read_whole behind hstored h.aligned hwithin
    (by rw [hcursor]; exact hwhole)
  have hnext : (file.cursor + length).toNat = cursor + length.toNat := by
    rw [UInt32.toNat_add, hcursor]
    exact Nat.mod_eq_of_lt (by omega)
  rw [hcursor] at hread
  refine ⟨_, hread, h.header, h.size, hnext, hin, ?_⟩
  rw [TarFile.Aligned, hnext]
  rfl

/-- Any other one, of a length that is an `int`, reads nothing. -/
theorem read_outside (h : StandsAt disk t cursor file) {mem : ByteMem} {buffer length : UInt32}
    (hfile : (getSize (disk t)).toNat < 2147483648) (hlength : length.toNat < 2147483648)
    (hout : ¬ cursor + length.toNat ≤ (getSize (disk t)).toNat) :
    file.read disk behind mem buffer length = (0, file, mem) := by
  have hcursor := h.cursor_le
  have hlen : CInt.toInt length.toNat = length.toNat := CInt.toInt_of_fits (by omega) (by omega)
  have hend : CInt.toUint (file.cursor.toNat + (length.toNat : Int)) > file.size.toNat := by
    rw [h.cursor_eq, h.size, CInt.toUint_of_nonneg (by omega) (by omega)]
    omega
  simp only [TarFile.read, hlen, if_pos hend]

end StandsAt

/-! ## The tables -/

/-- Other slots do not matter to a handle. -/
theorem SameHandle.mono {files files' : Nat → TarFile} {used used' : Nat} {ref : Option FileRef}
    {handle : Option (OpenHandle UInt32)} (h : SameHandle disk sectors files used ref handle)
    (hfiles : ∀ i, ref = some (.slot i) → files' i = files i) (hused : used ≤ used') :
    SameHandle disk sectors files' used' ref handle := by
  match ref, handle, h with
  | none, none, _ => trivial
  | some (.device _), some (.device _), hn => exact hn
  | some (.slot i), some (.file _ _), ⟨hi, hmax, ht, hstands⟩ =>
    refine ⟨Nat.lt_of_lt_of_le hi hused, hmax, ht, ?_⟩
    rwa [hfiles i rfl]

theorem SameHandle.cases {files : Nat → TarFile} {used : Nat} {ref : Option FileRef}
    {handle : Option (OpenHandle UInt32)} (h : SameHandle disk sectors files used ref handle) :
    (ref = none ∧ handle = none) ∨ (∃ n, ref = some (.device n) ∧ handle = some (.device n)) ∨
      ∃ i t cursor, ref = some (.slot i) ∧ handle = some (.file t cursor) ∧ t ∈ sectors ∧
        StandsAt disk t cursor (files i) := by
  match ref, handle, h with
  | none, none, _ => exact Or.inl ⟨rfl, rfl⟩
  | some (.device n), some (.device _), hn =>
    cases hn
    exact Or.inr (Or.inl ⟨n, rfl, rfl⟩)
  | some (.slot i), some (.file t cursor), ⟨_, _, ht, hstands⟩ =>
    exact Or.inr (Or.inr ⟨i, t, cursor, rfl, rfl, ht, hstands⟩)

theorem SameHandle.isNone {files : Nat → TarFile} {used : Nat} {ref : Option FileRef}
    {handle : Option (OpenHandle UInt32)} (h : SameHandle disk sectors files used ref handle) :
    ref.isNone = handle.isNone := by
  match ref, handle, h with
  | none, none, _ => rfl
  | some (.device _), some (.device _), _ => rfl
  | some (.slot _), some (.file _ _), _ => rfl

namespace Shows

/-- The handle that is free is the same one. -/
theorem freeHandle_eq (h : Shows disk sectors s a) :
    freeHandle (s.tables.handles p) = freeEntry (a.handles p) :=
  List.find?_congr fun f _ => (h.handles p f).isNone

/-- The slot that is free is the next one. -/
theorem allocFile_eq (h : Shows disk sectors s a) (hused : a.used < maxFiles) :
    TarFS.allocFile s.tables.files = some a.used := by
  rw [TarFS.allocFile, List.find?_range_eq_some]
  refine ⟨?_, List.mem_range.mpr hused, ?_⟩
  · have hfree := mt (h.used a.used hused).mp (Nat.lt_irrefl _)
    simpa using hfree
  · intro j hj
    have htaken := (h.used j (Nat.lt_trans hj hused)).mpr hj
    simpa using htaken

/-- What is behind a handle. -/
theorem lookup (h : Shows disk sectors s a) (p : Nat) (fh : Int32) :
    SameHandle disk sectors s.tables.files a.used (getFileByHandle (s.tables.handles p) fh)
      (getFileByHandle (a.handles p) fh) := by
  rw [getFileByHandle, getFileByHandle]
  split
  · trivial
  · exact h.handles p _

/-- **A handle moves**, and no other one. -/
theorem setFile (h : Shows disk sectors s a) {f cursor' : Nat}
    (hslot : s.tables.handles p f = some (.slot i)) (hhandle : a.handles p f = some (.file t cursor))
    (hstands : StandsAt disk t cursor' file') (mems : Nat → ByteMem) :
    Shows disk sectors { s.setFile i file' with mems := mems }
      { a.setHandle p f (.file t cursor') with mems := mems } := by
  have hsame := h.handles p f
  rw [hslot, hhandle] at hsame
  obtain ⟨hiused, hi, ht, hold⟩ := hsame
  refine ⟨rfl, ?_, ?_, h.distinct⟩
  · intro j hj
    have hsize : (Function.update s.tables.files i file' j).size = (s.tables.files j).size := by
      by_cases hji : j = i
      · rw [hji, Function.update_self, hstands.size, hold.size]
      · rw [Function.update_of_ne hji]
    show (Function.update s.tables.files i file' j).size ≠ 0 ↔ j < a.used
    rw [hsize]
    exact h.used j hj
  · intro p' f'
    show SameHandle disk sectors (Function.update s.tables.files i file') a.used (s.tables.handles p' f')
      (Function.update a.handles p (Function.update (a.handles p) f _) p' f')
    by_cases hone : p' = p ∧ f' = f
    · obtain ⟨rfl, rfl⟩ := hone
      rw [update_entry_self, hslot]
      refine ⟨hiused, hi, ht, ?_⟩
      rw [Function.update_self]
      exact hstands
    · rw [update_entry_of_ne hone]
      apply (h.handles p' f').mono _ (Nat.le_refl _)
      intro j hj
      apply Function.update_of_ne
      rintro rfl
      exact hone (h.distinct p' f' p f j hj hslot)

/-- A handle moves while the memories stay. -/
theorem moved (h : Shows disk sectors s a) {f cursor' : Nat} (hslot : s.tables.handles p f = some (.slot i))
    (hhandle : a.handles p f = some (.file t cursor)) (hstands : StandsAt disk t cursor' file') :
    Shows disk sectors (s.setFile i file') (a.setHandle p f (.file t cursor')) := by
  have hset := h.setFile hslot hhandle hstands s.mems
  exact ⟨h.mems, hset.used, hset.handles, hset.distinct⟩

/-- **A file is opened** in the next slot, and no other handle has it. -/
theorem opened (h : Shows disk sectors s a) {f : Nat} (hused : a.used < maxFiles)
    (hf : s.tables.handles p f = none) (ht : t ∈ sectors) (hsize : getSize (disk t) ≠ 0) :
    Shows disk sectors
      ⟨⟨Function.update s.tables.files a.used ⟨t, t + 1, 0, getSize (disk t)⟩, Function.update s.tables.handles p
        (Function.update (s.tables.handles p) f (some (.slot a.used)))⟩, s.mems⟩
      { a.setHandle p f (.file t 0) with used := a.used + 1 } := by
  -- no handle has the slot yet
  have hfresh (p' f' : Nat) : s.tables.handles p' f' ≠ some (.slot a.used) := by
    intro hslot
    have hsame := h.handles p' f'
    rw [hslot] at hsame
    match ha : a.handles p' f' with
    | none => rw [ha] at hsame; exact hsame
    | some (.device _) => rw [ha] at hsame; exact hsame
    | some (.file _ _) => rw [ha] at hsame; exact Nat.lt_irrefl _ hsame.1
  refine ⟨h.mems, ?_, ?_, ?_⟩
  · intro j hj
    show (Function.update s.tables.files a.used _ j).size ≠ 0 ↔ j < a.used + 1
    by_cases hja : j = a.used
    · rw [hja, Function.update_self]
      exact iff_of_true hsize (Nat.lt_succ_self _)
    · rw [Function.update_of_ne hja, h.used j hj]
      omega
  · intro p' f'
    show SameHandle disk sectors (Function.update s.tables.files a.used _) (a.used + 1)
      (Function.update s.tables.handles p _ p' f') (Function.update a.handles p _ p' f')
    by_cases hone : p' = p ∧ f' = f
    · obtain ⟨rfl, rfl⟩ := hone
      rw [update_entry_self, update_entry_self]
      refine ⟨Nat.lt_succ_self _, hused, ht, ?_⟩
      rw [Function.update_self]
      refine ⟨rfl, rfl, rfl, Nat.zero_le _, ?_⟩
      show t + 1 = t + 1 + UInt32.ofNat ((0 : UInt32).toNat / 512)
      exact (UInt32.add_zero _).symm
    · rw [update_entry_of_ne hone, update_entry_of_ne hone]
      apply (h.handles p' f').mono _ (Nat.le_succ _)
      intro j hj
      apply Function.update_of_ne
      rintro rfl
      exact hfresh p' f' hj
  · intro p₁ f₁ p₂ f₂ j h₁ h₂
    rcases update_entry_cases h₁ with ⟨rfl, rfl, hj⟩ | hold₁
    · rcases update_entry_cases h₂ with ⟨rfl, rfl, -⟩ | hold₂
      · exact ⟨rfl, rfl⟩
      · cases hj
        exact absurd hold₂ (hfresh p₂ f₂)
    · rcases update_entry_cases h₂ with ⟨rfl, rfl, hj⟩ | hold₂
      · cases hj
        exact absurd hold₁ (hfresh p₁ f₁)
      · exact h.distinct p₁ f₁ p₂ f₂ j hold₁ hold₂

end Shows

/-! ## Refinement -/

/-- A file that is found is one of the archive. -/
theorem mem_of_fileAt {name : Bytes} (h : fileAt disk sectors name = some t) : t ∈ sectors :=
  List.mem_of_find?_eq_some h

/-- **The kernel's calls are those of the service.** -/
theorem fileKernel_simulates (behind : Nat → UInt8) (hdisk : Headers disk 1 sectors) (hfuel : sectors.length < fuel)
    (hsizes : ∀ t ∈ sectors, (getSize (disk t)).toNat < 2147483648) :
    (fileKernel disk behind fuel).Simulates (fileService (archiveFiles disk sectors)) (Shows disk sectors)
      (Allowed disk sectors) := by
  rintro s a ⟨p, call⟩ h hallowed
  cases call with
  | openFile name =>
    obtain ⟨hfree, hused, t, hfound, hfile, hsize⟩ := hallowed
    obtain ⟨f, hf⟩ := Option.isSome_iff_exists.mp hfree
    have hhandle : freeHandle (s.tables.handles p) = some f := h.freeHandle_eq.trans hf
    have hslot : TarFS.openFile disk fuel (OpenCall.mk p name).name s.tables.files = _ :=
      openFile_found hdisk hfuel (h.allocFile_eq hused) hfound hsize
    have hopen : syscallOpen disk fuel ⟨p, name⟩ s.tables = _ := syscallOpen_granted hslot hhandle
    refine ⟨f, _, _, ?_, ?_, h.opened hused (freeHandle_free hhandle).2 (mem_of_fileAt hfile) hsize⟩
    · show (syscallOpen disk fuel ⟨p, name⟩ s.tables).map _ = _
      rw [hopen]
      rfl
    · have hnamed : (archiveFiles disk sectors).named name = some t := hfile
      simp only [fileService, hf, hnamed]
  | seek fh offset =>
    dsimp only [Allowed] at hallowed
    -- no open file, a file of the system, or one of the archive
    rcases (h.lookup p fh).cases with ⟨hs, ha⟩ | ⟨n, -, ha⟩ | ⟨i, t, cursor, hs, ha, ht, hstands⟩
    · refine ⟨-1, s, a, ?_, ?_, h⟩
      · simp only [fileKernel, hs]
      · simp only [fileService, ha]
    · rw [ha] at hallowed
      exact hallowed.elim
    · by_cases hin : 0 ≤ offset.toInt ∧ offset.toInt < (getSize (disk t)).toNat
      · obtain ⟨hret, hmoved⟩ := hstands.seek hin.1 hin.2
        refine ⟨1, _, _, ?_, ?_, h.moved (getFileByHandle_some hs) (getFileByHandle_some ha) hmoved⟩
        · simp only [fileKernel, hs, hret]
        · simp only [fileService, ha]
          exact if_pos hin
      · refine ⟨0, s, a, ?_, ?_, h⟩
        · simp only [fileKernel, hs, hstands.seek_outside hin, FileKernel.setFile_self]
        · simp only [fileService, ha]
          exact if_neg hin
  | read fh buffer length =>
    dsimp only [Allowed] at hallowed
    rcases (h.lookup p fh).cases with ⟨hs, ha⟩ | ⟨n, -, ha⟩ | ⟨i, t, cursor, hs, ha, ht, hstands⟩
    · refine ⟨-1, s, a, ?_, ?_, h⟩
      · simp only [fileKernel, hs]
      · simp only [fileService, ha]
    · rw [ha] at hallowed
      exact hallowed.elim
    · rw [ha] at hallowed
      obtain ⟨hlength, hwhole⟩ := hallowed
      -- inside of the file both read; past its end both refuse
      by_cases hin : cursor + length.toNat ≤ (getSize (disk t)).toNat
      · obtain ⟨file', hread, hmoved⟩ := hstands.read behind sectors (s.mems p) buffer hlength hin
          (hwhole hin)
        refine ⟨length.toNat, _, _, ?_, ?_, h.setFile (getFileByHandle_some hs) (getFileByHandle_some ha) hmoved
          (Function.update s.mems p ((s.mems p).fill buffer length.toNat fun i =>
            (archiveFiles disk sectors).byte t (cursor + i)))⟩
        · simp only [fileKernel, hs, hread]
        · simp only [fileService, ha, h.mems]
          exact if_pos hin
      · refine ⟨0, s, a, ?_, ?_, h⟩
        · simp only [fileKernel, hs, hstands.read_outside (hsizes t ht) hlength hin, FileKernel.setFile_self,
            Function.update_eq_self]
          rfl
        · simp only [fileService, ha]
          exact if_neg hin

end

/-- Nothing is open but other files of the system. -/
structure NothingOpen (s : FileKernel) : Prop where
  files : ∀ i, i < maxFiles → (s.tables.files i).size = 0
  handles : ∀ p f i, s.tables.handles p f ≠ some (.slot i)

/-- What the processes see then. -/
def FileKernel.seen (s : FileKernel) : OpenFiles UInt32 where
  handles p f :=
    match s.tables.handles p f with
    | some (.device n) => some (.device n)
    | _ => none
  used := 0
  mems := s.mems

theorem NothingOpen.shows {s : FileKernel} (h : NothingOpen s) (disk : Disk) (sectors : List UInt32) :
    Shows disk sectors s s.seen := by
  refine ⟨rfl, ?_, ?_, fun p f _ _ i hslot => absurd hslot (h.handles p f i)⟩
  · intro i hi
    exact iff_of_false (not_not_intro (h.files i hi)) (Nat.not_lt_zero i)
  · intro p f
    show SameHandle disk sectors s.tables.files 0 (s.tables.handles p f) (match s.tables.handles p f with
      | some (.device n) => some (.device n)
      | _ => none)
    match hs : s.tables.handles p f with
    | none => trivial
    | some (.device n) => rfl
    | some (.slot i) => exact absurd hs (h.handles p f i)

/-- Both processes open `notes`; the second reads the end of it, and the first the beginning. -/
def notesCalls : List ProcCall :=
  [⟨0, .openFile (cString [110, 111, 116, 101, 115])⟩, ⟨1, .openFile (cString [110, 111, 116, 101, 115])⟩,
    ⟨1, .seek 0 512⟩, ⟨1, .read 0 0x1000 88⟩, ⟨0, .read 0 0x2000 512⟩, ⟨1, .read 0 0x1000 88⟩]

/-- Only the terminal is open. -/
def terminalOnly : FileKernel where
  tables := { files := fun _ => ⟨0, 0, 0, 0⟩, handles := fun _ f => if f = 1 then some (.device 0) else none }
  mems _ _ := 0

theorem terminalOnly_open : NothingOpen terminalOnly := by
  refine ⟨fun _ _ => rfl, ?_⟩
  intro p f i
  show (if f = 1 then some (FileRef.device 0) else none) ≠ some (.slot i)
  split <;> simp

end Shipwreck.Storage
