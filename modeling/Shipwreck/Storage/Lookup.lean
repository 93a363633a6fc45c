import Shipwreck.Storage.Handles

/-!
# Which file a name finds

`find_file_sector` goes from header to header until the name in one of them matches. The names are
compared over the length of the one that is looked for, so that a file matches whose name begins with
it (`find_file_iff`).

The way to the next header is as long as the size field says. It may have twelve octal digits, which is
more than the 32 bits of `get_size`.
-/

namespace Shipwreck.Storage

/-- The size field states this size: up to twelve octal digits, and a NUL or a space if there is room. -/
def SizeIs (header : Bytes) (size : Nat) : Prop :=
  ∃ n, n ≤ 12 ∧ (∀ i, i < n → 48 ≤ (sizeField header i).toNat ∧ (sizeField header i).toNat ≤ 55) ∧
    (n < 12 → sizeField header n = 0 ∨ sizeField header n = 32) ∧
    size = octalValue (sizeField header) n

/-- A file of an archive: the sector of its header, and its size. -/
structure FileEntry where
  sector : Nat
  size : Nat

def FileEntry.header (disk : Disk) (f : FileEntry) : Bytes := disk (UInt32.ofNat f.sector)

/-- From sector `s` on the disk holds an archive with these files: each header is followed by the file in
as many sectors as it needs, and the last file by a header without a name. -/
inductive TarArchive (disk : Disk) : Nat → List FileEntry → Prop
  | done {s : Nat} (hend : s < 4294967296) (hname : disk (UInt32.ofNat s) 0 = 0) : TarArchive disk s []
  | entry {s size : Nat} {files : List FileEntry} (hname : disk (UInt32.ofNat s) 0 ≠ 0)
      (hsize : SizeIs (disk (UInt32.ofNat s)) size)
      (hrest : TarArchive disk (s + 1 + (size + 511) / 512) files) :
      TarArchive disk s (⟨s, size⟩ :: files)

/-- The file of this name. -/
def byName (disk : Disk) (files : List FileEntry) (name : Bytes) : Option FileEntry :=
  files.find? fun f => SameName (f.header disk) name

/-- The first file whose name begins with this one, and the files before it. -/
def firstMatch (disk : Disk) (files : List FileEntry) (name : Bytes) : Option FileEntry :=
  files.find? fun f => beginsWith (f.header disk) name

def passed (disk : Disk) (files : List FileEntry) (name : Bytes) : List FileEntry :=
  files.takeWhile fun f => !beginsWith (f.header disk) name

/-- The sizes of the files that are passed fit into the 32-bit arithmetic of the search. -/
def SizesFit (disk : Disk) (files : List FileEntry) (name : Bytes) : Prop :=
  ∀ f ∈ passed disk files name, f.size + 511 < 4294967296

/-- The search ends with the header sector of the file of this name and its header, or with 0. -/
def Finds (disk : Disk) (files : List FileEntry) (name : Bytes) : Prop :=
  ∃ search, (∀ fuel, files.length < fuel → findFileSector disk name fuel = some search) ∧
    search.sector.toNat = ((byName disk files name).map FileEntry.sector).getD 0 ∧
    ∀ f ∈ byName disk files name, search.header = f.header disk

variable {disk : Disk} {files : List FileEntry} {name header : Bytes} {s size : Nat} {f : FileEntry}

theorem SizeIs.getSize_eq (h : SizeIs header size) : getSize header = UInt32.ofNat size := by
  obtain ⟨n, hn, hdigits, hstop, rfl⟩ := h
  obtain ⟨extra, hextra⟩ : ∃ extra, n + extra = 12 := ⟨12 - n, by omega⟩
  have hend : extra = 0 ∨ ¬ (48 ≤ sizeField header (0 + n) ∧ sizeField header (0 + n) ≤ 57) := by
    by_cases hlt : n < 12
    · refine .inr ?_
      rw [Nat.zero_add]
      rcases hstop hlt with heq | heq
      · rw [heq]
        decide
      · rw [heq]
        decide
    · exact .inl (by omega)
  have hparse := parseOctalFrom_digits (i := 0) (fun j _ hj => hdigits j (by omega)) hend
  rw [hextra, Nat.zero_add] at hparse
  exact hparse

/-- The search goes on to the next header exactly if the size fits. -/
theorem SizeIs.sectors_eq_iff (h : SizeIs header size) :
    ((getSize header + 512 - 1) / 512).toNat = (size + 511) / 512 ↔ size + 511 < 4294967296 := by
  have h512 : (512 : UInt32).toNat = 512 := rfl
  rw [h.getSize_eq, UInt32.toNat_div, UInt32.toNat_sub, UInt32.toNat_add, UInt32.toNat_ofNat', h512,
    UInt32.toNat_one]
  omega

theorem TarArchive.lt (h : TarArchive disk s files) : s < 4294967296 := by
  induction h with
  | done hend _ => exact hend
  | entry _ _ _ ih => omega

theorem TarArchive.sector_lt (h : TarArchive disk s files) :
    ∀ f ∈ files, s ≤ f.sector ∧ f.sector < 4294967296 := by
  induction h with
  | done => simp
  | @entry s size files hname hsize hrest ih =>
    rw [List.forall_mem_cons]
    have hlt := hrest.lt
    refine ⟨⟨Nat.le_refl s, show s < 4294967296 by omega⟩, ?_⟩
    intro f hf
    have hrange := ih f hf
    omega

/-- **The search comes to an end**, at the first file whose name begins with this one. -/
theorem TarArchive.search (h : TarArchive disk s files) (name : Bytes)
    (hfits : SizesFit disk files name) :
    ∃ search, (∀ fuel, files.length < fuel → findFileFrom disk name fuel (UInt32.ofNat s) = some search) ∧
      search.sector.toNat = ((firstMatch disk files name).map FileEntry.sector).getD 0 ∧
      ∀ f ∈ firstMatch disk files name, search.header = f.header disk := by
  induction h with
  | @done s hend hname =>
    refine ⟨⟨[UInt32.ofNat s], 0, disk (UInt32.ofNat s)⟩, ?_, rfl, by simp [firstMatch]⟩
    intro fuel hfuel
    obtain ⟨fuel, rfl⟩ := Nat.exists_eq_add_one_of_ne_zero (Nat.ne_of_gt hfuel)
    rw [findFileFrom, if_pos hname]
  | @entry s size files hname hsize hrest ih =>
    have hlt := hrest.lt
    by_cases hmatch : beginsWith (disk (UInt32.ofNat s)) name = true
    · have hfirst : firstMatch disk (⟨s, size⟩ :: files) name = some ⟨s, size⟩ :=
        List.find?_cons_of_pos hmatch
      refine ⟨⟨[UInt32.ofNat s], UInt32.ofNat s, disk (UInt32.ofNat s)⟩, ?_, ?_, ?_⟩
      · intro fuel hfuel
        obtain ⟨fuel, rfl⟩ := Nat.exists_eq_add_one_of_ne_zero (Nat.ne_of_gt (Nat.zero_lt_of_lt hfuel))
        rw [beginsWith, beq_iff_eq] at hmatch
        rw [findFileFrom, if_neg hname, if_pos hmatch]
      · rw [hfirst]
        exact UInt32.toNat_ofNat_of_lt' (show s < 4294967296 by omega)
      · rw [hfirst]
        rintro f ⟨⟩
        rfl
    · have hfirst : firstMatch disk (⟨s, size⟩ :: files) name = firstMatch disk files name :=
        List.find?_cons_of_neg hmatch
      have hpassed : passed disk (⟨s, size⟩ :: files) name = ⟨s, size⟩ :: passed disk files name :=
        List.takeWhile_cons_of_pos (by simpa [FileEntry.header] using hmatch)
      rw [SizesFit, hpassed, List.forall_mem_cons] at hfits
      obtain ⟨hfit, hfits'⟩ := hfits
      obtain ⟨search, hsearch, hsector, hheader⟩ := ih hfits'
      -- the next header is where the archive goes on
      have hnext : UInt32.ofNat s + (1 + (getSize (disk (UInt32.ofNat s)) + 512 - 1) / 512) =
          UInt32.ofNat (s + 1 + (size + 511) / 512) := by
        apply UInt32.toNat.inj
        rw [UInt32.toNat_add, UInt32.toNat_add, hsize.sectors_eq_iff.mpr hfit, UInt32.toNat_one,
          UInt32.toNat_ofNat_of_lt' hlt, UInt32.toNat_ofNat']
        omega
      refine ⟨{ search with visited := UInt32.ofNat s :: search.visited }, ?_, ?_, ?_⟩
      · intro fuel hfuel
        rw [List.length_cons] at hfuel
        obtain ⟨fuel, rfl⟩ := Nat.exists_eq_add_one_of_ne_zero (Nat.ne_of_gt (Nat.zero_lt_of_lt hfuel))
        rw [beginsWith, beq_iff_eq] at hmatch
        rw [findFileFrom, if_neg hname, if_neg hmatch]
        simp only [hnext, hsearch fuel (Nat.lt_of_succ_lt_succ hfuel), Option.map_some]
      · rw [hfirst]
        exact hsector
      · rw [hfirst]
        exact hheader

/-- A file of this name is a match, and if the first match is one it is the first of this name. -/
theorem byName_of_firstMatch (hfirst : firstMatch disk files name = some f)
    (hsame : SameName (f.header disk) name) : byName disk files name = some f := by
  induction files with
  | nil => exact absurd hfirst (by simp [firstMatch])
  | cons g files ih =>
    by_cases hmatch : beginsWith (g.header disk) name = true
    · have hg : firstMatch disk (g :: files) name = some g := List.find?_cons_of_pos hmatch
      rw [hg, Option.some.injEq] at hfirst
      subst hfirst
      exact List.find?_cons_of_pos (decide_eq_true hsame)
    · have hg : firstMatch disk (g :: files) name = firstMatch disk files name :=
        List.find?_cons_of_neg hmatch
      have hother : byName disk (g :: files) name = byName disk files name := by
        refine List.find?_cons_of_neg ?_
        intro hsame'
        exact hmatch (SameName.beginsWith (of_decide_eq_true hsame'))
      rw [hother]
      exact ih (hg ▸ hfirst)

theorem byName_eq_none (hfirst : firstMatch disk files name = none) :
    byName disk files name = none := by
  rw [firstMatch, List.find?_eq_none] at hfirst
  rw [byName, List.find?_eq_none]
  intro f hf hsame
  exact hfirst f hf (SameName.beginsWith (of_decide_eq_true hsame))

/-- **`find_file_sector` finds the file of this name** exactly if no file comes first whose name goes on
behind it. -/
theorem find_file_iff (disk : Disk) (files : List FileEntry) (h : TarArchive disk 1 files)
    (name : Bytes) (hfits : SizesFit disk files name) :
    Finds disk files name ↔ ∀ f ∈ firstMatch disk files name, SameName (f.header disk) name := by
  obtain ⟨search, hsearch, hsector, hheader⟩ := h.search name hfits
  constructor
  · rintro ⟨search', hsearch', hsector', -⟩ f hf
    have heq : search' = search := by
      have hrun := hsearch' (files.length + 1) (Nat.lt_succ_self _)
      rw [findFileSector] at hrun
      rw [← Option.some.injEq, ← hrun]
      exact hsearch _ (Nat.lt_succ_self _)
    rw [Option.mem_def] at hf
    rw [heq, hsector, hf, Option.map_some, Option.getD_some] at hsector'
    have hpos := (h.sector_lt f (List.mem_of_find?_eq_some hf)).1
    cases hname : byName disk files name with
    | none =>
      rw [hname, Option.map_none, Option.getD_none] at hsector'
      omega
    | some g =>
      rw [hname, Option.map_some, Option.getD_some] at hsector'
      have hfind : files.find? (fun f => decide (SameName (f.header disk) name)) = some g := hname
      have hsame := List.find?_some hfind
      rw [FileEntry.header, hsector']
      exact of_decide_eq_true hsame
  · intro hexact
    refine ⟨search, hsearch, ?_, ?_⟩
    · rw [hsector]
      cases hfirst : firstMatch disk files name with
      | none => rw [byName_eq_none hfirst]
      | some f => rw [byName_of_firstMatch hfirst (hexact f hfirst)]
    · intro f hf
      cases hfirst : firstMatch disk files name with
      | none =>
        rw [byName_eq_none hfirst] at hf
        exact absurd hf (Option.not_mem_none f)
      | some g =>
        rw [byName_of_firstMatch hfirst (hexact g hfirst), Option.mem_some_iff] at hf
        subst hf
        exact hheader g hfirst

/-- `kernel` behind `notes`. -/
theorem find_file_example : Finds twoFiles [⟨1, 600⟩, ⟨4, 5⟩] Boot.kernelName := by
  have harchive : TarArchive twoFiles 1 [⟨1, 600⟩, ⟨4, 5⟩] := by
    refine .entry (by decide) ⟨11, by decide, by decide, fun _ => .inl (by decide), by decide⟩ ?_
    refine .entry (by decide) ⟨11, by decide, by decide, fun _ => .inl (by decide), by decide⟩ ?_
    exact .done (by decide) (by decide)
  refine (find_file_iff twoFiles _ harchive Boot.kernelName ?_).mpr ?_
  · show ∀ f ∈ passed twoFiles [⟨1, 600⟩, ⟨4, 5⟩] Boot.kernelName, f.size + 511 < 4294967296
    decide +kernel
  · decide +kernel

/-- An archive of two empty files, `kernel2` and `kernel`. -/
def kernelTwice : Disk := fun s i =>
  if s = 1 then if i = 6 then 50 else if i = 124 then 48 else Boot.kernelName i
  else if s = 2 then if i = 124 then 48 else Boot.kernelName i
  else 0

/-- `kernel` finds `kernel2`. -/
theorem kernel2_found :
    ¬ ∀ disk files, TarArchive disk 1 files → ∀ name : Bytes,
      (∃ len, len ≤ 99 ∧ name len = 0 ∧ ∀ i, i < len → name i ≠ 0) → Finds disk files name := by
  intro hall
  have harchive : TarArchive kernelTwice 1 [⟨1, 0⟩, ⟨2, 0⟩] := by
    refine .entry (by decide) ⟨1, by decide, by decide, fun _ => .inl (by decide), by decide⟩ ?_
    refine .entry (by decide) ⟨1, by decide, by decide, fun _ => .inl (by decide), by decide⟩ ?_
    exact .done (by decide) (by decide)
  obtain ⟨search, hsearch, hsector, -⟩ := hall kernelTwice _ harchive Boot.kernelName
    ⟨6, by decide, by decide, by decide⟩
  have hrun : (findFileSector kernelTwice Boot.kernelName 3).map FileSearch.sector = some 1 := by
    decide +kernel
  rw [hsearch 3 (by decide), Option.map_some, Option.some.injEq] at hrun
  have hname : ((byName kernelTwice [⟨1, 0⟩, ⟨2, 0⟩] Boot.kernelName).map FileEntry.sector).getD 0 = 2 := by
    decide +kernel
  rw [hrun, hname] at hsector
  exact absurd hsector (by decide)

end Shipwreck.Storage
