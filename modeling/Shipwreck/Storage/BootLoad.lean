import Shipwreck.Lib.Footprint
import Shipwreck.Storage.Geometry

/-!
# Loading the kernel

The whole of `boot/bootsector.nasm`: header after header is read to `FILE_HEADER_ADDRESS` until the name is that
of the kernel, then sector after sector of the file to `LOADER_ADDRESS`, with the segment register going on by a
sector each time:

    0x0500    header         | 0x7C00  boot sector | 0x7E00  sector 0, sector 1, ...
              (512 bytes)                             es:   0x7E0    0x800

The variables of the program are in the boot sector and its stack is below; `println` writes to the screen, and the
BIOS has data of its own. What is stored there is not followed (`Others`); all that matters is that it lies apart from
the header and the file.

`boot_loads` is about the drives whose first tracks hold the archive up to the end of the kernel: behind them
other sectors are read than those that are asked for.
-/

namespace Shipwreck.Storage

open ByteMem (span)

namespace Boot

/-! ## The program -/

/-- The address `seg:off` of real mode. -/
def linear (seg off : UInt16) : UInt32 := 16 * seg.toUInt32 + off.toUInt32

/-- `LOADER_ADDRESS`. -/
def loaderAddress : UInt16 := 0x7E00

/-- `FILE_HEADER_ADDRESS`. -/
def fileHeaderAddress : UInt16 := 0x0500

/-- The sector is one of the drive. -/
def Valid (g : Geometry) (call : Int13) : Prop :=
  call.cylinder < g.cylinders ∧ call.head < g.heads ∧ 1 ≤ call.sector ∧ call.sector ≤ g.sectors

instance (g : Geometry) (call : Int13) : Decidable (Valid g call) := inferInstanceAs (Decidable (_ ∧ _))

/-- What the program and the BIOS store beside the sectors that are read: the variables and the stack, the screen, the
data of the BIOS. `store k` is what is stored between one sector and the next, when `k` have been read. -/
structure Others where
  region : Set UInt32
  store : Nat → ByteMem → ByteMem
  inside : ∀ k mem a, a ∉ region → store k mem a = mem a

/-- Nothing else is stored at these places. -/
def Others.Apart (others : Others) (places : Set UInt32) : Prop := ∀ ⦃a⦄, a ∈ places → a ∉ others.region

section

variable (g : Geometry) (disk : Disk) (vars : DriveVars) (others : Others)

/-- `int 0x13`, function 02h, for one sector: a sector that is not there is an error, and nothing is read. -/
def int13 (es bx : UInt16) (call : Int13) (mem : ByteMem) : ByteMem :=
  if Valid g call then mem.fill (linear es bx) 512 (sectorRead g disk call) else mem

/-- `readsectorLBA`, with the read; whether it failed is not looked at. -/
def readsector (es bx ax : UInt16) (mem : ByteMem) : Option ByteMem :=
  (readsectorLBA vars ax).map fun call => int13 g disk es bx call mem

/-- `findLoaderLoop` in memory, when `k` sectors have been read: how many have been read then, and
`fileheaderSector` and `filesizeSectors` at `kernelFound`. -/
def findLoaderLoop : Nat → Nat → UInt16 → ByteMem → Option (ByteMem × Nat × Option (UInt16 × UInt16))
  | 0, _, _, _ => none
  | fuel + 1, k, fileheaderSector, mem =>
    match readsector g disk vars 0 fileHeaderAddress fileheaderSector mem with
    | none => none
    | some mem =>
      let mem := others.store (k + 1) mem
      let header := mem.view fileHeaderAddress.toUInt32
      if header 0 = 0 then some (mem, k + 1, none)
      else if strncmpFrom kernelName header 6 0 then
        some (mem, k + 1, some (fileheaderSector, filesizeSectors header))
      else
        let ax := filesizeSectors header + 1
        findLoaderLoop fuel (k + 1) (fileheaderSector + ax) mem

/-- `loadFileLoop`. -/
def loadFileLoop : Nat → Nat → UInt16 → UInt16 → UInt16 → ByteMem → Option ByteMem
  | 0, _, _, _, _, _ => none
  | fuel + 1, k, es, ax, filesizeSectors, mem =>
    match readsector g disk vars es 0 ax mem with
    | none => none
    | some mem =>
      let mem := others.store (k + 1) mem
      let ax := ax + 1
      let di := es + 0x20
      let filesizeSectors := filesizeSectors - 1
      if filesizeSectors ≠ 0 then loadFileLoop fuel (k + 1) di ax filesizeSectors mem else some mem

end

/-- The boot sector on a drive that reports `r`: the memory, and whether it comes to the jump to the kernel. -/
def boot (g : Geometry) (disk : Disk) (r : DriveParameters) (others : Others) (fuel : Nat) (mem : ByteMem) :
    Option (ByteMem × Bool) :=
  match findLoaderLoop g disk (driveVars r) others fuel 0 1 (others.store 0 mem) with
  | none => none
  | some (mem, _, none) => some (mem, false)
  | some (mem, k, some (fileheaderSector, filesizeSectors)) =>
    let es := loaderAddress >>> 0x04
    let ax := fileheaderSector + 1
    (loadFileLoop g disk (driveVars r) others fuel k es ax filesizeSectors mem).map fun mem => (mem, true)

/-! ## One sector -/

variable {g : Geometry} {disk : Disk} {r : DriveParameters} {others : Others} {mem mem₁ : ByteMem}
  {es bx lba : UInt16} {k : Nat}

/-- The sectors whose address is right. -/
def FirstTracks (g : Geometry) (lba : UInt16) : Prop := lba.toNat < (g.heads - 1) * g.sectors

instance (g : Geometry) (lba : UInt16) : Decidable (FirstTracks g lba) := inferInstanceAs (Decidable (_ < _))

/-- **A sector of the first tracks is read** to `es:bx`. -/
theorem readsector_eq (h : g.Reported r) (hcylinders : 0 < g.cylinders) (hlba : FirstTracks g lba) (es bx : UInt16)
    (mem : ByteMem) :
    readsector g disk (driveVars r) es bx lba mem = some (mem.fill (linear es bx) 512 (disk lba.toUInt32)) := by
  have htrack : lba.toNat / g.sectors < g.heads - 1 := (Nat.div_lt_iff_lt_mul g.sectors_pos).mpr hlba
  obtain ⟨call, hcall, haddress⟩ := (addresses_iff h).mpr htrack
  have hsector : UInt32.ofNat lba.toNat = lba.toUInt32 := by
    apply UInt32.toNat.inj
    rw [UInt16.toNat_toUInt32, UInt32.toNat_ofNat_of_lt' (Nat.lt_trans lba.toNat_lt (by decide))]
  -- the first tracks are those of cylinder 0
  have hzero : call.cylinder = 0 := by
    by_contra hne
    have hheads := g.heads_pos
    have hle : 1 * g.heads ≤ call.cylinder * g.heads := Nat.mul_le_mul_right _ (Nat.pos_of_ne_zero hne)
    have hmul : g.heads * g.sectors ≤ (call.cylinder * g.heads + call.head) * g.sectors :=
      Nat.mul_le_mul_right _ (by omega)
    have hless : (g.heads - 1) * g.sectors ≤ g.heads * g.sectors := Nat.mul_le_mul_right _ (Nat.sub_le _ _)
    have heq := haddress.lba_eq
    rw [FirstTracks] at hlba
    omega
  have hvalid : Valid g call := ⟨hzero ▸ hcylinders, haddress.head_lt, haddress.sector_pos, haddress.sector_le⟩
  rw [readsector, hcall, Option.map_some, int13, if_pos hvalid, sectorRead, haddress.lba_eq, hsector]

/-! ## The headers -/

/-- What is looked at of a header are its first 512 bytes. -/
theorem strncmpFrom_congr {str header header' : Bytes} (heq : ∀ i, i < 512 → header' i = header i) {cx i : Nat}
    (hi : i + cx ≤ 512) : strncmpFrom str header' cx i = strncmpFrom str header cx i := by
  induction cx generalizing i with
  | zero => rfl
  | succ cx ih => rw [strncmpFrom, strncmpFrom, heq i (by omega), ih (by omega)]

theorem parseOctalFrom_congr {str str' : Bytes} {cx si : Nat} {ebx : UInt32}
    (heq : ∀ i, si ≤ i → i < si + cx → str' i = str i) :
    parseOctalFrom str' cx si ebx = parseOctalFrom str cx si ebx := by
  induction cx generalizing si ebx with
  | zero => rfl
  | succ cx ih =>
    rw [parseOctalFrom, parseOctalFrom, heq si (Nat.le_refl si) (by omega)]
    apply ih
    intro i hi hlt
    exact heq i (by omega) (by omega)

theorem filesizeSectors_congr {header header' : Bytes} (heq : ∀ i, i < 512 → header' i = header i) :
    filesizeSectors header' = filesizeSectors header := by
  have hsize : parseOctal (sizeField header') 0x0B = parseOctal (sizeField header) 0x0B :=
    parseOctalFrom_congr fun i _ hi => heq (124 + i) (by omega)
  rw [filesizeSectors, filesizeSectors, hsize]

theorem linear_header : linear 0 fileHeaderAddress = fileHeaderAddress.toUInt32 := by decide

/-- Two memories that differ at most where others store. -/
def Others.Same (others : Others) (mem mem' : ByteMem) : Prop := Set.EqOn mem' mem others.regionᶜ

theorem Others.same_store (k : Nat) (mem : ByteMem) : others.Same mem (others.store k mem) :=
  fun a ha => others.inside k mem a ha

/-- What is read makes them the same where it is put. -/
theorem Others.Same.fill (h : others.Same mem mem₁) {p : UInt32} {n : Nat} {f : Nat → UInt8} :
    others.Same (mem.fill p n f) (mem₁.fill p n f) := by
  intro a ha
  simp only [ByteMem.fill]
  split
  · rfl
  · exact h ha

/-- A sector over another one. -/
theorem fill_same {p : UInt32} {n : Nat} {f f' : Nat → UInt8} : (mem.fill p n f).fill p n f' = mem.fill p n f' := by
  funext a
  simp only [ByteMem.fill]
  split <;> rfl

/-- The header that has been read is there. -/
theorem Others.Same.header {header : Nat → UInt8} (hclear : others.Apart (span 0x500 512))
    (h : others.Same (mem.fill fileHeaderAddress.toUInt32 512 header) mem₁) {i : Nat} (hi : i < 512) :
    mem₁.view fileHeaderAddress.toUInt32 i = header i := by
  have hin : fileHeaderAddress.toUInt32 + UInt32.ofNat i ∈ span 0x500 512 := by
    show (fileHeaderAddress.toUInt32 + UInt32.ofNat i - 0x500).toNat < 512
    rw [show fileHeaderAddress.toUInt32 = 0x500 by decide, UInt32.add_comm, UInt32.add_sub_cancel,
      UInt32.toNat_ofNat_of_lt' (Nat.lt_trans hi (by decide))]
    exact hi
  exact (h (hclear hin)).trans (ByteMem.fill_apply hi (by decide))

/-- **The headers are looked at one after the other**, in the same place of memory. -/
theorem findLoaderLoop_eq (h : g.Reported r) (hcylinders : 0 < g.cylinders)
    (hclear : others.Apart (span 0x500 512)) {enough : Nat} {fileheaderSector : UInt16} {b : Search}
    (hsearch : findLoaderFrom disk enough fileheaderSector = some b) (htracks : ∀ v ∈ b.visited, FirstTracks g v)
    (k : Nat) (mem : ByteMem) :
    ∃ mem' k' header, others.Same (mem.fill fileHeaderAddress.toUInt32 512 header) mem' ∧ ∀ fuel, enough ≤ fuel →
      findLoaderLoop g disk (driveVars r) others fuel k fileheaderSector mem = some (mem', k', b.found) := by
  induction enough generalizing fileheaderSector b k mem with
  | zero => cases hsearch
  | succ enough ih =>
    obtain ⟨header, hheader⟩ : ∃ header, disk fileheaderSector.toUInt32 = header := ⟨_, rfl⟩
    obtain ⟨mem₁, hmem₁⟩ : ∃ mem₁,
        others.store (k + 1) (mem.fill fileHeaderAddress.toUInt32 512 header) = mem₁ := ⟨_, rfl⟩
    have hsame : others.Same (mem.fill fileHeaderAddress.toUInt32 512 header) mem₁ :=
      hmem₁ ▸ others.same_store (k + 1) _
    have hbytes (i : Nat) (hi : i < 512) : mem₁.view fileHeaderAddress.toUInt32 i = header i := hsame.header hclear hi
    have hread (hfirst : FirstTracks g fileheaderSector) :
        readsector g disk (driveVars r) 0 fileHeaderAddress fileheaderSector mem =
          some (mem.fill fileHeaderAddress.toUInt32 512 header) := by
      rw [readsector_eq h hcylinders hfirst, linear_header, hheader]
    have hsucc {fuel : Nat} (hfuel : enough + 1 ≤ fuel) : ∃ fuel', fuel = fuel' + 1 :=
      Nat.exists_eq_add_one_of_ne_zero (Nat.ne_of_gt (Nat.lt_of_lt_of_le (Nat.succ_pos enough) hfuel))
    rw [findLoaderFrom, hheader] at hsearch
    by_cases hname : header 0 = 0
    · -- the end of the archive
      rw [if_pos hname] at hsearch
      cases hsearch
      refine ⟨mem₁, k + 1, header, hsame, fun fuel hfuel => ?_⟩
      obtain ⟨fuel, rfl⟩ := hsucc hfuel
      rw [findLoaderLoop, hread (htracks _ (List.mem_singleton_self _))]
      dsimp only
      rw [hmem₁, hbytes 0 (by decide), if_pos hname]
    · by_cases hmatch : strncmpFrom kernelName header 6 0 = true
      · -- the header of the kernel
        rw [if_neg hname, if_pos hmatch] at hsearch
        cases hsearch
        refine ⟨mem₁, k + 1, header, hsame, fun fuel hfuel => ?_⟩
        obtain ⟨fuel, rfl⟩ := hsucc hfuel
        rw [findLoaderLoop, hread (htracks _ (List.mem_singleton_self _))]
        dsimp only
        rw [hmem₁, hbytes 0 (by decide), if_neg hname, strncmpFrom_congr hbytes (by decide), if_pos hmatch,
          filesizeSectors_congr hbytes]
      · -- another one: the header behind its file is read over it
        rw [if_neg hname, if_neg hmatch, Option.map_eq_some_iff] at hsearch
        obtain ⟨rest, hrest, rfl⟩ := hsearch
        rw [List.forall_mem_cons] at htracks
        obtain ⟨mem', k', last, hlast, hloop⟩ := ih hrest htracks.2 (k + 1) mem₁
        have hover : others.Same (mem.fill fileHeaderAddress.toUInt32 512 last) mem' := by
          have hfill := Others.Same.fill (p := fileHeaderAddress.toUInt32) (n := 512) (f := last) hsame
          rw [fill_same] at hfill
          exact hlast.trans hfill
        refine ⟨mem', k', last, hover, fun fuel hfuel => ?_⟩
        obtain ⟨fuel, rfl⟩ := hsucc hfuel
        rw [findLoaderLoop, hread htracks.1]
        dsimp only
        rw [hmem₁, hbytes 0 (by decide), if_neg hname, strncmpFrom_congr hbytes (by decide), if_neg hmatch,
          filesizeSectors_congr hbytes, hloop fuel (Nat.le_of_succ_le_succ hfuel)]

/-! ## The file -/

/-- The bytes from sector `first` on. -/
def sectorBytes (disk : Disk) (first : Nat) : Nat → UInt8 := fun k => disk (UInt32.ofNat (first + k / 512)) (k % 512)

/-- Sector `i` of the file is read to its place. The segment register holds the place of 1985 sectors. -/
theorem linear_segment {i : Nat} (hi : i < 1985) :
    linear (UInt16.ofNat (0x7E0 + 32 * i)) 0 = 0x7E00 + UInt32.ofNat (512 * i) := by
  apply UInt32.toNat.inj
  rw [linear, UInt32.toNat_add, UInt32.toNat_add, UInt32.toNat_mul, UInt16.toNat_toUInt32, UInt16.toNat_toUInt32,
    UInt16.toNat_ofNat', UInt32.toNat_ofNat']
  show (16 * ((2016 + 32 * i) % 65536) % 4294967296 + 0) % 4294967296 = (32256 + 512 * i % 4294967296) % 4294967296
  omega

/-- **The loop extends what is loaded** by a sector at a time. -/
theorem loadFileLoop_eq (h : g.Reported r) (hcylinders : 0 < g.cylinders) {i left : Nat} {first : Nat}
    (hleft : 0 < left) (htracks : ∀ j, j < left → first + i + j < (g.heads - 1) * g.sectors)
    (hlba : first + i + left ≤ 65536) (hfits : i + left ≤ 1985) (k : Nat)
    (hmem : others.Same (mem.fill 0x7E00 (512 * i) (sectorBytes disk first)) mem₁) :
    ∃ mem', others.Same (mem.fill 0x7E00 (512 * (i + left)) (sectorBytes disk first)) mem' ∧ ∀ fuel, left ≤ fuel →
      loadFileLoop g disk (driveVars r) others fuel k (UInt16.ofNat (0x7E0 + 32 * i)) (UInt16.ofNat (first + i))
        (UInt16.ofNat left) mem₁ = some mem' := by
  induction left generalizing i k mem₁ with
  | zero => exact absurd hleft (Nat.lt_irrefl 0)
  | succ left ih =>
    have hsector : (UInt16.ofNat (first + i)).toNat = first + i := UInt16.toNat_ofNat_of_lt' (by
      show first + i < 65536
      omega)
    have hfirst : FirstTracks g (UInt16.ofNat (first + i)) := by
      rw [FirstTracks, hsector]
      exact htracks 0 hleft
    have hcontent : ∀ j, j < 512 → disk (UInt16.ofNat (first + i)).toUInt32 j =
        sectorBytes disk first (512 * i + j) := by
      intro j hj
      have hwide : (UInt16.ofNat (first + i)).toUInt32 = UInt32.ofNat (first + i) := (ofNat_agree (by omega)).1
      rw [hwide, sectorBytes, Nat.mul_add_div (by decide), Nat.div_eq_of_lt hj, Nat.add_zero,
        Nat.mul_add_mod, Nat.mod_eq_of_lt hj]
    have hmore : (mem.fill 0x7E00 (512 * i) (sectorBytes disk first)).fill
        (linear (UInt16.ofNat (0x7E0 + 32 * i)) 0) 512 (disk (UInt16.ofNat (first + i)).toUInt32) =
          mem.fill 0x7E00 (512 * (i + 1)) (sectorBytes disk first) := by
      have hsize : 512 * i + 512 ≤ 4294967296 := by omega
      rw [linear_segment (by omega), Nat.mul_add, Nat.mul_one]
      exact ByteMem.fill_more hsize hcontent
    -- the sector is added to what is loaded, and others store beside it
    obtain ⟨mem₂, hmem₂⟩ : ∃ mem₂, others.store (k + 1) (mem₁.fill (linear (UInt16.ofNat (0x7E0 + 32 * i)) 0) 512
        (disk (UInt16.ofNat (first + i)).toUInt32)) = mem₂ := ⟨_, rfl⟩
    have hsame : others.Same (mem.fill 0x7E00 (512 * (i + 1)) (sectorBytes disk first)) mem₂ := by
      rw [← hmore, ← hmem₂]
      exact (others.same_store (k + 1) _).trans hmem.fill
    have hes : UInt16.ofNat (0x7E0 + 32 * i) + 0x20 = UInt16.ofNat (0x7E0 + 32 * (i + 1)) := by
      rw [Nat.mul_add, Nat.mul_one, ← Nat.add_assoc, UInt16.ofNat_add (0x7E0 + 32 * i) 32]
      rfl
    have hax : UInt16.ofNat (first + i) + 1 = UInt16.ofNat (first + (i + 1)) := by
      rw [← Nat.add_assoc, UInt16.ofNat_add (first + i) 1]
      rfl
    have hcount : UInt16.ofNat (left + 1) - 1 = UInt16.ofNat left := by
      rw [UInt16.ofNat_add]
      exact UInt16.add_sub_cancel _ _
    have hstep (fuel : Nat) :
        loadFileLoop g disk (driveVars r) others (fuel + 1) k (UInt16.ofNat (0x7E0 + 32 * i))
          (UInt16.ofNat (first + i)) (UInt16.ofNat (left + 1)) mem₁ =
        if UInt16.ofNat left ≠ 0 then loadFileLoop g disk (driveVars r) others fuel (k + 1)
          (UInt16.ofNat (0x7E0 + 32 * (i + 1))) (UInt16.ofNat (first + (i + 1))) (UInt16.ofNat left) mem₂
        else some mem₂ := by
      rw [loadFileLoop, readsector_eq h hcylinders hfirst]
      dsimp only
      rw [hmem₂, hes, hax, hcount]
    have hsucc {fuel : Nat} (hfuel : left + 1 ≤ fuel) : ∃ fuel', fuel = fuel' + 1 :=
      Nat.exists_eq_add_one_of_ne_zero (Nat.ne_of_gt (Nat.lt_of_lt_of_le (Nat.succ_pos left) hfuel))
    by_cases hzero : left = 0
    · subst hzero
      refine ⟨mem₂, hsame, fun fuel hfuel => ?_⟩
      obtain ⟨fuel, rfl⟩ := hsucc hfuel
      rw [hstep]
      rfl
    · have hne : UInt16.ofNat left ≠ 0 := by
        intro heq
        have hnat := congrArg UInt16.toNat heq
        rw [UInt16.toNat_ofNat_of_lt' (show left < 65536 by omega)] at hnat
        exact hzero hnat
      have hrest : ∀ j, j < left → first + (i + 1) + j < (g.heads - 1) * g.sectors := by
        intro j hj
        have hnext := htracks (j + 1) (by omega)
        omega
      obtain ⟨mem', hmem', hloop⟩ := ih (Nat.pos_of_ne_zero hzero) hrest (by omega) (by omega) (k + 1) hsame
      refine ⟨mem', ?_, fun fuel hfuel => ?_⟩
      · rwa [show i + (left + 1) = i + 1 + left by omega]
      · obtain ⟨fuel, rfl⟩ := hsucc hfuel
        rw [hstep, if_pos hne, hloop fuel (Nat.le_of_succ_le_succ hfuel)]

/-- The place of the first sector. -/
theorem loader_segment : loaderAddress >>> 0x04 = UInt16.ofNat (0x7E0 + 32 * 0) := by decide

/-- With more fuel the search is the same. -/
theorem findLoaderFrom_mono {fuel fuel' : Nat} {fileheaderSector : UInt16} {b : Search}
    (hsearch : findLoaderFrom disk fuel fileheaderSector = some b) (hle : fuel ≤ fuel') :
    findLoaderFrom disk fuel' fileheaderSector = some b := by
  induction fuel generalizing fileheaderSector b fuel' with
  | zero => cases hsearch
  | succ fuel ih =>
    obtain ⟨fuel', rfl⟩ := Nat.exists_eq_add_one_of_ne_zero (Nat.ne_of_gt (Nat.lt_of_lt_of_le (Nat.succ_pos fuel) hle))
    rw [findLoaderFrom] at hsearch ⊢
    split
    · rename_i hname
      rwa [if_pos hname] at hsearch
    · rename_i hname
      rw [if_neg hname] at hsearch
      split
      · rename_i hmatch
        rwa [if_pos hmatch] at hsearch
      · rename_i hmatch
        rw [if_neg hmatch, Option.map_eq_some_iff] at hsearch
        obtain ⟨rest, hrest, rfl⟩ := hsearch
        rw [Option.map_eq_some_iff]
        exact ⟨rest, ih hrest (Nat.le_of_succ_le_succ hle), rfl⟩

/-- The boot sector on the first tracks of a drive. -/
theorem boot_eq (h : g.Reported r) (hcylinders : 0 < g.cylinders)
    (hclear : others.Apart (span 0x500 512)) {enough : Nat} {visited : List UInt16} {s n : UInt16}
    (hsearch : findLoader disk enough = some ⟨visited, some (s, n)⟩) (htracks : ∀ v ∈ visited, FirstTracks g v)
    (hfile : s.toNat + n.toNat < (g.heads - 1) * g.sectors) (hn : n ≠ 0) (hfits : n.toNat ≤ 1985) (mem : ByteMem) :
    ∃ mem' header, others.Same ((mem.fill 0x500 512 header).fill 0x7E00 (512 * n.toNat)
        (sectorBytes disk (s.toNat + 1))) mem' ∧
      ∀ fuel, enough ≤ fuel → n.toNat ≤ fuel → boot g disk r others fuel mem = some (mem', true) := by
  obtain ⟨mem₁, k, header, hsame, hloop⟩ :=
    findLoaderLoop_eq h hcylinders hclear hsearch htracks 0 (others.store 0 mem)
  have hbuffer : fileHeaderAddress.toUInt32 = 0x500 := by decide
  rw [hbuffer] at hsame
  have hstart : others.Same (mem.fill 0x500 512 header) mem₁ := hsame.trans (others.same_store 0 mem).fill
  have hpos : 0 < n.toNat := Nat.pos_of_ne_zero fun hzero => hn (UInt16.toNat.inj hzero)
  have hdrive : (g.heads - 1) * g.sectors ≤ 255 * 63 :=
    Nat.mul_le_mul (by have := g.heads_le; omega) g.sectors_le
  -- nothing is loaded yet
  have hnothing : others.Same ((mem.fill 0x500 512 header).fill 0x7E00 (512 * 0) (sectorBytes disk (s.toNat + 1)))
      mem₁ := by
    rw [Nat.mul_zero, ByteMem.fill_zero]
    exact hstart
  obtain ⟨mem', hmem', hload⟩ := loadFileLoop_eq (i := 0) h hcylinders hpos (fun j hj => by omega) (by omega)
    (by omega) k hnothing
  have hnext : UInt16.ofNat (s.toNat + 1 + 0) = s + 1 := by
    rw [Nat.add_zero, UInt16.ofNat_add, UInt16.ofNat_toNat]
    rfl
  rw [Nat.zero_add] at hmem'
  rw [hnext, UInt16.ofNat_toNat, ← loader_segment] at hload
  refine ⟨mem', header, hmem', fun fuel henough hfuel => ?_⟩
  rw [boot, hloop fuel henough]
  dsimp only
  rw [hload fuel hfuel]
  rfl

end Boot

/-- `kernel` of 513 bytes, in sectors 5 and 6 behind its header. -/
def longKernel : Disk := fun s i =>
  if s = 4 then
    if i < 124 then [107, 101, 114, 110, 101, 108].getD i 0
    else [48, 48, 48, 48, 48, 48, 48, 49, 48, 48, 49].getD (i - 124) 0
  else if s = 5 then 0xEB
  else if s = 6 then if i = 0 then 0x90 else 0
  else twoFiles s i

theorem longKernel_archive : Archive longKernel 1 := by
  refine .entry (by decide) ⟨by decide, by decide⟩ ?_
  refine .entry (by decide) ⟨by decide, by decide⟩ ?_
  exact .done (by decide) (by decide)

/-- The vectors and the data of the BIOS, the stack and the boot sector, and the screen. What is stored there: a
character for each sector, and a word on the stack. -/
def printed : Boot.Others where
  region := {a | a < 0x500 ∨ 0x700 ≤ a ∧ a < 0x7E00 ∨ 0xA0000 ≤ a}
  store k mem := Function.update (Function.update mem 0xB8000 (UInt8.ofNat k)) 0x7BFE 1
  inside k mem a ha := by
    have hscreen : a ≠ 0xB8000 := by
      rintro rfl
      exact ha (.inr (.inr (by decide)))
    have hstack : a ≠ 0x7BFE := by
      rintro rfl
      exact ha (.inr (.inl (by decide)))
    rw [Function.update_of_ne hstack, Function.update_of_ne hscreen]

theorem printed_apart {p : UInt32} {n : Nat}
    (hp : 0x500 ≤ p.toNat ∧ p.toNat + n ≤ 0x700 ∨ 0x7E00 ≤ p.toNat ∧ p.toNat + n ≤ 0xA0000) :
    printed.Apart (span p n) := by
  intro a ha hregion
  have hlt := a.toNat_lt
  have hplt := p.toNat_lt
  rw [ByteMem.mem_span, UInt32.toNat_sub] at ha
  rcases hregion with hlow | ⟨hstack, hsector⟩ | hhigh
  · have hlow' : a.toNat < 0x500 := hlow
    omega
  · have hstack' : 0x700 ≤ a.toNat := hstack
    have hsector' : a.toNat < 0x7E00 := hsector
    omega
  · have hhigh' : 0xA0000 ≤ a.toNat := hhigh
    omega

end Shipwreck.Storage
