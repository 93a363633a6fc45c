import Shipwreck.Storage.Archive

/-!
# File handles

`syscall_open` allocates twice: `TarFS::open` a slot of its table of files (free if its size is 0), and
then `alloc_proc_filehandle` a handle of the process (free if it is null). It hands the result of the
first to the second as it is, so that a null pointer is stored as well, and does not take the first back
when the second fails. `opens_faithful` says of which runs the calls keep their promise.
-/

namespace Shipwreck.Storage

/-! ## The tables -/

/-- `max_files` and `MAX_PROC_FILES` -/
def maxFiles : Nat := 0x10

def maxProcFiles : Nat := 16

/-- A `File *`: a slot of `TarFS::files`, or another file of the system. -/
inductive FileRef where
  | slot (i : Nat)
  | device (n : Nat)
  deriving DecidableEq, Repr

/-- `TarFS::files`, and `files` of each process. -/
structure FileTables where
  files : Nat → TarFile
  handles : Nat → Nat → Option FileRef

/-- `TarFS::alloc_file`. -/
def TarFS.allocFile (files : Nat → TarFile) : Option Nat :=
  (List.range maxFiles).find? fun i => (files i).size == 0

/-- `TarFS::open`: what it returns, and the table. `free_file` sets the device of the slot only. -/
def TarFS.openFile (disk : Disk) (fuel : Nat) (name : Bytes) (files : Nat → TarFile) :
    Option (Option FileRef × (Nat → TarFile)) :=
  match allocFile files with
  | none => some (none, files)
  | some i =>
    (findFileSector disk name fuel).map fun search =>
      let file := { files i with headerSector := search.sector }
      if search.sector = 0 then (none, Function.update files i file)
      else
        let file := { file with size := getSize search.header }
        (some (.slot i), Function.update files i (file.seek 0).2)

/-- The first null pointer of a table of handles. -/
def freeHandle (handles : Nat → Option FileRef) : Option Nat :=
  (List.range maxProcFiles).find? fun f => (handles f).isNone

/-- `alloc_proc_filehandle`. -/
def allocProcFilehandle (file : Option FileRef) (handles : Nat → Option FileRef) :
    Int × (Nat → Option FileRef) :=
  match freeHandle handles with
  | some f => (f, Function.update handles f file)
  | none => (-1, handles)

/-- A call of `syscall_open`. -/
structure OpenCall where
  process : Nat
  name : Bytes

/-- `syscall_open`. -/
def syscallOpen (disk : Disk) (fuel : Nat) (call : OpenCall) (s : FileTables) :
    Option (Int × FileTables) :=
  (TarFS.openFile disk fuel call.name s.files).map fun (file, files) =>
    let result := allocProcFilehandle file (s.handles call.process)
    (result.1, ⟨files, Function.update s.handles call.process result.2⟩)

/-! ## The archive -/

/-- From sector `s` on the disk holds files with the headers `sectors`, and the end behind them. -/
inductive Headers (disk : Disk) : UInt32 → List UInt32 → Prop
  | done {s : UInt32} (hname : disk s 0 = 0) : Headers disk s []
  | entry {s : UInt32} {sectors : List UInt32} (hsector : s ≠ 0) (hname : disk s 0 ≠ 0)
      (hrest : Headers disk (s + (1 + (getSize (disk s) + 512 - 1) / 512)) sectors) :
      Headers disk s (s :: sectors)

/-- `TarHeader::name`, with a NUL behind its 100 bytes. -/
def nameField (header : Bytes) : Bytes := fun j => if j < 100 then header j else 0

/-- The file has this name. -/
def SameName (header name : Bytes) : Prop :=
  ∀ j, j < 101 → (∀ k, k < j → nameField header k ≠ 0) → nameField header j = name j

instance (header name : Bytes) : Decidable (SameName header name) :=
  inferInstanceAs (Decidable (∀ j, j < 101 → _ → _))

/-- The header sector of the file of this name. -/
def fileAt (disk : Disk) (sectors : List UInt32) (name : Bytes) : Option UInt32 :=
  sectors.find? fun s => SameName (disk s) name

/-- The comparison of `find_file_sector`: the name of the file begins with this one. -/
def beginsWith (header name : Bytes) : Bool := strncmp header name (strnlen name 0x100) == 0

/-- The header sector that `find_file_sector` looks for. -/
def foundAt (disk : Disk) (sectors : List UInt32) (name : Bytes) : Option UInt32 :=
  sectors.find? fun s => beginsWith (disk s) name

section

variable {disk : Disk} {sectors : List UInt32} {name header : Bytes}

/-- A name begins with itself. -/
theorem SameName.beginsWith (h : SameName header name) : beginsWith header name = true := by
  obtain ⟨-, -, hchars⟩ := strnlenFrom_spec name 0x100 0
  rw [Storage.beginsWith, beq_iff_eq, strncmp_eq_zero_iff]
  intro j hj hbefore
  have hname : name j ≠ 0 := hchars j (Nat.zero_le j) hj
  have hfield : ∀ k, k < 100 → nameField header k = header k := fun k hk => if_pos hk
  by_cases hlow : j < 100
  · rw [← hfield j hlow]
    apply h j (by omega)
    intro k hk
    rw [hfield k (by omega)]
    exact hbefore k hk
  · -- all of the field is used, and the name is longer
    have hend := h 100 (by omega) fun k hk => by
      rw [hfield k hk]
      exact hbefore k (by omega)
    have hname100 : name 100 ≠ 0 := hchars 100 (Nat.zero_le _) (by rw [strnlen] at hj; omega)
    exact absurd hend.symm hname100

theorem Headers.ne_zero {s : UInt32} (h : Headers disk s sectors) : ∀ t ∈ sectors, t ≠ 0 := by
  induction h with
  | done => simp
  | entry hsector hname hrest ih => simpa [hsector] using ih

/-- The search comes to an end, at the first file whose name begins with this one. -/
theorem Headers.search {s : UInt32} {fuel : Nat} (h : Headers disk s sectors) (name : Bytes)
    (hfuel : sectors.length < fuel) :
    ∃ search, findFileFrom disk name fuel s = some search ∧
      search.sector = (foundAt disk sectors name).getD 0 ∧
      ∀ t ∈ foundAt disk sectors name, search.header = disk t := by
  induction h generalizing fuel with
  | done hname =>
    obtain ⟨fuel, rfl⟩ := Nat.exists_eq_add_one_of_ne_zero (Nat.ne_of_gt hfuel)
    rw [findFileFrom, if_pos hname]
    exact ⟨_, rfl, rfl, by simp [foundAt]⟩
  | @entry s sectors hsector hname hrest ih =>
    rw [List.length_cons] at hfuel
    obtain ⟨fuel, rfl⟩ := Nat.exists_eq_add_one_of_ne_zero (Nat.ne_of_gt (Nat.zero_lt_of_lt hfuel))
    rw [findFileFrom, if_neg hname]
    by_cases hmatch : strncmp (disk s) name (strnlen name 0x100) = 0
    · have hfound : foundAt disk (s :: sectors) name = some s :=
        List.find?_cons_of_pos (by simp [Storage.beginsWith, hmatch])
      rw [if_pos hmatch, hfound]
      exact ⟨_, rfl, rfl, by simp⟩
    · have hfound : foundAt disk (s :: sectors) name = foundAt disk sectors name :=
        List.find?_cons_of_neg (by rw [Storage.beginsWith, beq_iff_eq]; exact hmatch)
      obtain ⟨search, hsearch, hsector', hheader⟩ := ih (Nat.lt_of_succ_lt_succ hfuel)
      rw [if_neg hmatch, hfound]
      simp only [hsearch]
      exact ⟨_, rfl, hsector', hheader⟩

end

/-! ## The promise -/

/-- No slot of the table is free. -/
def TableFull (files : Nat → TarFile) : Prop := ∀ i, i < maxFiles → (files i).size ≠ 0

/-- No handle of the process is free. -/
def HandlesFull (handles : Nat → Option FileRef) : Prop := ∀ f, f < maxProcFiles → handles f ≠ none

/-- The handle `f` has been opened, with the slot `i` at the start of the file. -/
structure Opened (disk : Disk) (sectors : List UInt32) (call : OpenCall) (s s' : FileTables)
    (f i : Nat) : Prop where
  inTable : f < maxProcFiles
  free : s.handles call.process f = none
  opened : s'.handles call.process f = some (.slot i)
  start : ∃ sector, fileAt disk sectors call.name = some sector ∧
    s'.files i = ⟨sector, sector + 1, 0, getSize (disk sector)⟩
  distinct : ∀ p g, (p, g) ≠ (call.process, f) → s'.handles p g ≠ some (.slot i)
  others : ∀ p g, (p, g) ≠ (call.process, f) → s'.handles p g = s.handles p g
  files : ∀ j, j ≠ i → s'.files j = s.files j

/-- A call opens the file, or changes nothing; and it fails if the file is absent or one of the tables is
full. -/
def OpenFaithful (disk : Disk) (sectors : List UInt32) (fuel : Nat) (s : FileTables)
    (call : OpenCall) : Prop :=
  ∃ ret s', syscallOpen disk fuel call s = some (ret, s') ∧
    ((∃ f i, ret = (f : Nat) ∧ Opened disk sectors call s s' f i) ∨
      ret = -1 ∧ s' = s) ∧
    (ret = -1 ↔ fileAt disk sectors call.name = none ∨ TableFull s.files ∨
      HandlesFull (s.handles call.process))

/-- With a free handle there is a free slot too, and the first file whose name begins with this one has
exactly this name and is not empty. Without a free handle there is no free slot either, or the name is
found nowhere and the slot has no header sector already. -/
def Openable (disk : Disk) (sectors : List UInt32) (s : FileTables) (call : OpenCall) : Prop :=
  if (freeHandle (s.handles call.process)).isSome then
    (TarFS.allocFile s.files).isSome ∧ ∃ t ∈ foundAt disk sectors call.name,
      fileAt disk sectors call.name = some t ∧ getSize (disk t) ≠ 0
  else
    ∀ i ∈ TarFS.allocFile s.files,
      foundAt disk sectors call.name = none ∧ (s.files i).headerSector = 0

instance (disk : Disk) (sectors : List UInt32) (s : FileTables) (call : OpenCall) :
    Decidable (Openable disk sectors s call) :=
  inferInstanceAs (Decidable (if (freeHandle (s.handles call.process)).isSome then
      (TarFS.allocFile s.files).isSome ∧ ∃ t ∈ foundAt disk sectors call.name,
        fileAt disk sectors call.name = some t ∧ getSize (disk t) ≠ 0
    else
      ∀ i ∈ TarFS.allocFile s.files,
        foundAt disk sectors call.name = none ∧ (s.files i).headerSector = 0))

/-- Runs of `syscall_open`, from tables in which no process has opened a file. -/
def opens (disk : Disk) (fuel : Nat) : Machine FileTables OpenCall where
  init s := ∀ p f i, s.handles p f ≠ some (.slot i)
  step s call := (syscallOpen disk fuel call s).map Prod.snd

/-- A slot behind a handle is in use. -/
def SlotsUsed (s : FileTables) : Prop :=
  ∀ p f i, s.handles p f = some (.slot i) → (s.files i).size ≠ 0

section

variable {disk : Disk} {sectors : List UInt32} {fuel : Nat} {s : FileTables} {call : OpenCall}

theorem allocFile_eq_none {files : Nat → TarFile} : TarFS.allocFile files = none ↔ TableFull files := by
  simp [TarFS.allocFile, TableFull]

theorem freeHandle_eq_none {handles : Nat → Option FileRef} :
    freeHandle handles = none ↔ HandlesFull handles := by
  simp [freeHandle, HandlesFull]

theorem allocFile_free {files : Nat → TarFile} {i : Nat} (h : TarFS.allocFile files = some i) :
    (files i).size = 0 := by
  have hfree := List.find?_some h
  simpa using hfree

theorem freeHandle_free {handles : Nat → Option FileRef} {f : Nat} (h : freeHandle handles = some f) :
    f < maxProcFiles ∧ handles f = none := by
  refine ⟨?_, ?_⟩
  · exact List.mem_range.mp (List.mem_of_find?_eq_some h)
  · have hfree := List.find?_some h
    simpa using hfree

/-- The slot of a file that is not empty. -/
theorem seek_start (file : TarFile) (h : file.size ≠ 0) :
    (file.seek 0).2 = { file with cursor := 0, currentSector := file.headerSector + 1 } := by
  have hpos : file.size.toNat ≠ 0 := fun hzero => h (UInt32.toNat.inj hzero)
  rw [TarFile.seek, if_neg (by simpa [CInt.toUint] using hpos)]
  simp only [TarFile.mk.injEq, true_and, and_true]
  exact ⟨UInt32.add_zero _, rfl⟩

theorem openFile_full {name : Bytes} {files : Nat → TarFile} (h : TarFS.allocFile files = none) :
    TarFS.openFile disk fuel name files = some (none, files) := by
  rw [TarFS.openFile, h]

theorem openFile_absent {name : Bytes} {files : Nat → TarFile} {i : Nat}
    (hdisk : Headers disk 1 sectors) (hfuel : sectors.length < fuel)
    (h : TarFS.allocFile files = some i) (hfound : foundAt disk sectors name = none) :
    TarFS.openFile disk fuel name files =
      some (none, Function.update files i { files i with headerSector := 0 }) := by
  obtain ⟨search, hsearch, hsector, -⟩ := hdisk.search name hfuel
  rw [hfound, Option.getD_none] at hsector
  rw [TarFS.openFile, h]
  simp only [findFileSector, hsearch, Option.map_some, hsector, if_true]

theorem openFile_found {name : Bytes} {files : Nat → TarFile} {i : Nat} {t : UInt32}
    (hdisk : Headers disk 1 sectors) (hfuel : sectors.length < fuel)
    (h : TarFS.allocFile files = some i) (hfound : foundAt disk sectors name = some t)
    (hsize : getSize (disk t) ≠ 0) :
    TarFS.openFile disk fuel name files =
      some (some (.slot i), Function.update files i ⟨t, t + 1, 0, getSize (disk t)⟩) := by
  obtain ⟨search, hsearch, hsector, hheader⟩ := hdisk.search name hfuel
  have ht : t ≠ 0 := hdisk.ne_zero t (List.mem_of_find?_eq_some hfound)
  rw [hfound, Option.getD_some] at hsector
  rw [TarFS.openFile, h]
  simp only [findFileSector, hsearch, Option.map_some, hsector, if_neg ht, hheader t hfound]
  rw [seek_start _ (by exact hsize)]

theorem syscallOpen_granted {file : Option FileRef} {files : Nat → TarFile} {f : Nat}
    (hopen : TarFS.openFile disk fuel call.name s.files = some (file, files))
    (hhandle : freeHandle (s.handles call.process) = some f) :
    syscallOpen disk fuel call s = some ((f : Int), ⟨files, Function.update s.handles call.process
      (Function.update (s.handles call.process) f file)⟩) := by
  simp only [syscallOpen, hopen, Option.map_some, allocProcFilehandle, hhandle]

theorem syscallOpen_refused {file : Option FileRef} {files : Nat → TarFile}
    (hopen : TarFS.openFile disk fuel call.name s.files = some (file, files))
    (hhandle : freeHandle (s.handles call.process) = none) :
    syscallOpen disk fuel call s = some (-1, ⟨files, s.handles⟩) := by
  simp only [syscallOpen, hopen, Option.map_some, allocProcFilehandle, hhandle,
    Function.update_eq_self]

/-- The handle of another process, or another handle of this one. -/
theorem update_handle_of_ne {p q f g : Nat} {file : Option FileRef}
    {handles : Nat → Nat → Option FileRef} (h : (q, g) ≠ (p, f)) :
    Function.update handles p (Function.update (handles p) f file) q g = handles q g := by
  by_cases hq : q = p
  · subst hq
    rw [Function.update_self, Function.update_of_ne]
    rintro rfl
    exact h rfl
  · rw [Function.update_of_ne hq]

/-- A call that opens the file. -/
theorem open_succeeds {i f : Nat} {t : UInt32} (hdisk : Headers disk 1 sectors)
    (hfuel : sectors.length < fuel) (hused : SlotsUsed s)
    (hslot : TarFS.allocFile s.files = some i) (hhandle : freeHandle (s.handles call.process) = some f)
    (hfound : foundAt disk sectors call.name = some t)
    (hfile : fileAt disk sectors call.name = some t) (hsize : getSize (disk t) ≠ 0) :
    ∃ s', syscallOpen disk fuel call s = some ((f : Int), s') ∧ Opened disk sectors call s s' f i := by
  obtain ⟨hf, hnull⟩ := freeHandle_free hhandle
  refine ⟨_, syscallOpen_granted (openFile_found hdisk hfuel hslot hfound hsize) hhandle,
    hf, hnull, ?_, ⟨t, hfile, Function.update_self ..⟩, ?_, fun p g => update_handle_of_ne,
    fun j hj => Function.update_of_ne hj ..⟩
  · show Function.update s.handles _ _ call.process f = _
    rw [Function.update_self, Function.update_self]
  · intro p g hne
    show Function.update s.handles _ _ p g ≠ _
    rw [update_handle_of_ne hne]
    -- the slot is free, so that no handle has it
    exact fun hslot' => hused p g i hslot' (allocFile_free hslot)

/-- A call that finds no free handle, and no free slot that it would spoil. -/
theorem open_refused (hdisk : Headers disk 1 sectors) (hfuel : sectors.length < fuel)
    (hhandle : freeHandle (s.handles call.process) = none)
    (hslot : ∀ i ∈ TarFS.allocFile s.files,
      foundAt disk sectors call.name = none ∧ (s.files i).headerSector = 0) :
    syscallOpen disk fuel call s = some (-1, s) := by
  cases halloc : TarFS.allocFile s.files with
  | none => exact syscallOpen_refused (openFile_full halloc) hhandle
  | some i =>
    obtain ⟨hfound, hsector⟩ := hslot i halloc
    have hsame : Function.update s.files i { s.files i with headerSector := 0 } = s.files := by
      rw [← hsector]
      exact Function.update_eq_self i s.files
    rw [syscallOpen_refused (openFile_absent hdisk hfuel halloc hfound) hhandle, hsame]

theorem Opened.used {s' : FileTables} {f i : Nat} (h : Opened disk sectors call s s' f i)
    (hsize : ∀ t ∈ fileAt disk sectors call.name, getSize (disk t) ≠ 0) (hused : SlotsUsed s) :
    SlotsUsed s' := by
  obtain ⟨t, hfile, hstart⟩ := h.start
  intro p g j hj
  by_cases hpg : (p, g) = (call.process, f)
  · cases hpg
    cases h.opened.symm.trans hj
    rw [hstart]
    exact hsize t hfile
  · have hji : j ≠ i := by
      rintro rfl
      exact h.distinct p g hpg hj
    rw [h.files j hji]
    exact hused p g j ((h.others p g hpg).symm.trans hj)

/-- One call. -/
theorem open_step (hdisk : Headers disk 1 sectors) (hfuel : sectors.length < fuel)
    (hused : SlotsUsed s) (h : Openable disk sectors s call) :
    OpenFaithful disk sectors fuel s call ∧
      ∀ s', (opens disk fuel).step s call = some s' → SlotsUsed s' := by
  rw [Openable] at h
  cases hhandle : freeHandle (s.handles call.process) with
  | none =>
    rw [hhandle, if_neg (by simp)] at h
    have hcall := open_refused hdisk hfuel hhandle h
    refine ⟨⟨-1, s, hcall, .inr ⟨rfl, rfl⟩, ?_⟩, ?_⟩
    · exact iff_of_true rfl (.inr (.inr (freeHandle_eq_none.mp hhandle)))
    · intro s' hstep
      simp only [opens, hcall, Option.map_some, Option.some.injEq] at hstep
      exact hstep ▸ hused
  | some f =>
    rw [hhandle, if_pos Option.isSome_some] at h
    obtain ⟨halloc, t, hfound, hfile, hsize⟩ := h
    obtain ⟨i, hslot⟩ := Option.isSome_iff_exists.mp halloc
    obtain ⟨s₁, hcall, hopened⟩ :=
      open_succeeds hdisk hfuel hused hslot hhandle hfound hfile hsize
    refine ⟨⟨f, s₁, hcall, .inl ⟨f, i, rfl, hopened⟩, ?_⟩, ?_⟩
    · refine iff_of_false (by omega) ?_
      rintro (habsent | hfull | hfull)
      · cases habsent.symm.trans hfile
      · cases (allocFile_eq_none.mpr hfull).symm.trans hslot
      · cases (freeHandle_eq_none.mpr hfull).symm.trans hhandle
    · intro s' hstep
      simp only [opens, hcall, Option.map_some, Option.some.injEq] at hstep
      subst hstep
      refine hopened.used ?_ hused
      intro u hu
      cases hfile.symm.trans hu
      exact hsize

end

/-- **File handles are faithful** in every run of `syscall_open` whose calls are `Openable`. -/
theorem opens_faithful {disk : Disk} {sectors : List UInt32} (hdisk : Headers disk 1 sectors)
    {fuel : Nat} (hfuel : sectors.length < fuel) {s : FileTables} (hinit : (opens disk fuel).init s)
    (calls : List OpenCall) (hcalls : (opens disk fuel).Steps (Openable disk sectors) s calls) :
    (opens disk fuel).Steps (OpenFaithful disk sectors fuel) s calls :=
  Machine.steps_of_steps (I := SlotsUsed) (fun _ _ hused h => (open_step hdisk hfuel hused h).1)
    (fun _ _ s' hused h => (open_step hdisk hfuel hused h).2 s')
    (fun p f i hslot => absurd hslot (hinit p f i)) hcalls

theorem twoFiles_headers : Headers twoFiles 1 [1, 4] := by
  refine .entry (by decide) (by decide) ?_
  refine .entry (by decide) (by decide) ?_
  exact .done (by decide)

/-- The bytes of a C string. -/
def cString (cs : List UInt8) : Bytes := fun i => cs.getD i 0

/-- Tables in which nothing is open. -/
def FileTables.empty : FileTables where
  files _ := ⟨0, 0, 0, 0⟩
  handles _ _ := none

/-- Two processes open `kernel`, and one of them `notes`. -/
theorem opens_faithful_example :
    (opens twoFiles 3).Steps (Openable twoFiles [1, 4]) .empty
        [⟨0, Boot.kernelName⟩, ⟨1, Boot.kernelName⟩, ⟨0, cString [110, 111, 116, 101, 115]⟩] ∧
      (opens twoFiles 3).Steps (OpenFaithful twoFiles [1, 4] 3) .empty
        [⟨0, Boot.kernelName⟩, ⟨1, Boot.kernelName⟩, ⟨0, cString [110, 111, 116, 101, 115]⟩] := by
  have hcalls : (opens twoFiles 3).Steps (Openable twoFiles [1, 4]) .empty
      [⟨0, Boot.kernelName⟩, ⟨1, Boot.kernelName⟩, ⟨0, cString [110, 111, 116, 101, 115]⟩] := by
    decide +kernel
  exact ⟨hcalls, opens_faithful twoFiles_headers (by decide) (fun _ _ _ h => by cases h) _ hcalls⟩

/-- A file that is absent is opened with the handle 0. -/
theorem absent_file_opened :
    fileAt twoFiles [1, 4] (cString [120]) = none ∧
      (syscallOpen twoFiles 3 ⟨0, cString [120]⟩ .empty).map Prod.fst = some 0 ∧
      ¬ OpenFaithful twoFiles [1, 4] 3 .empty ⟨0, cString [120]⟩ := by
  have habsent : fileAt twoFiles [1, 4] (cString [120]) = none := by decide +kernel
  have hret : (syscallOpen twoFiles 3 ⟨0, cString [120]⟩ .empty).map Prod.fst = some 0 := by
    decide +kernel
  refine ⟨habsent, hret, ?_⟩
  rintro ⟨ret, s', hcall, -, hiff⟩
  rw [hcall, Option.map_some, Option.some.injEq] at hret
  have hfail := hiff.mpr (.inl habsent)
  exact absurd (hret.symm.trans hfail) (by decide)

end Shipwreck.Storage
