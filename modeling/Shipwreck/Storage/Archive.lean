import Shipwreck.Storage.TarFile

/-!
# Two readers of one archive

The disk holds a tar archive from sector 1 on: a header of one sector, the file in as many sectors
as it needs, the next header, and so on up to a header without a name. Two programs walk along it to
find the file `kernel`: the boot sector (`bootsector.nasm`), in 16-bit code with a sector number of
16 bits, and later the kernel itself (`TarFS::find_file_sector`).

Both searches are loops without a bound, here with the number of headers they may still read; on an
archive that ends (`Archive`) both come to an end, and `searches_agree` says that they have then
read the same headers and found the same file.
-/

namespace Shipwreck.Storage

/-- The bytes of a string or of a sector. -/
abbrev Bytes := Nat → UInt8

/-! ## `string.cpp` -/

/-- The loop of `strnlen` from `i`, with `left` iterations to go. -/
def strnlenFrom (s : Bytes) : Nat → Nat → Nat
  | 0, i => i
  | left + 1, i => if s i = 0 then i else strnlenFrom s left (i + 1)

/-- `strnlen`. -/
def strnlen (s : Bytes) (len : Nat) : Nat := strnlenFrom s len 0

/-- The first loop of `strncmp`, over words: the first difference, or zero. -/
def cmpWordsFrom (a b : Bytes) : Nat → Nat → BitVec 32
  | 0, _ => 0
  | left + 1, i =>
    let diff := ByteMem.loadWord a (4 * i) - ByteMem.loadWord b (4 * i)
    if diff ≠ 0 then diff else cmpWordsFrom a b left (i + 1)

/-- The second loop of `strncmp`, over the bytes that are left. -/
def cmpBytesFrom (a b : Bytes) : Nat → Nat → BitVec 32
  | 0, _ => 0
  | left + 1, i =>
    let diff := BitVec.ofInt 32 ((a i).toInt8.toInt - (b i).toInt8.toInt)
    if diff ≠ 0 then diff
    else if a i = 0 then 0
    else cmpBytesFrom a b left (i + 1)

/-- `strncmp`. -/
def strncmp (a b : Bytes) (len : Nat) : BitVec 32 :=
  let dwords := strnlen a len / 4
  let diff := cmpWordsFrom a b dwords 0
  if diff ≠ 0 then diff else cmpBytesFrom a b (len - dwords * 4) (dwords * 4)

/-! ## The kernel's search -/

/-- The loop of `TarHeader::parse_octal` from `i`, with `left` iterations to go. -/
def parseOctalFrom (str : Bytes) : Nat → Nat → UInt32 → UInt32
  | 0, _, result => result
  | left + 1, i, result =>
    if 48 ≤ str i ∧ str i ≤ 57 then
      parseOctalFrom str left (i + 1) ((result <<< 3) + ((str i).toUInt32 - 48))
    else result

/-- `TarHeader::parse_octal`. -/
def parseOctal (str : Bytes) (len : Nat) : UInt32 := parseOctalFrom str len 0 0

/-- `TarHeader::size`, at its offset in the header. -/
def sizeField (header : Bytes) : Bytes := fun i => header (124 + i)

/-- `TarHeader::get_size`. -/
def getSize (header : Bytes) : UInt32 := parseOctal (sizeField header) 12

/-- What a search has read and found; the last header read stays in `tar_header`. -/
structure FileSearch where
  visited : List UInt32
  sector : UInt32
  header : Bytes

/-- The loop of `TarFS::find_file_sector` from `currentSector`. -/
def findFileFrom (disk : Disk) (name : Bytes) : Nat → UInt32 → Option FileSearch
  | 0, _ => none
  | fuel + 1, currentSector =>
    let tarHeader := disk currentSector
    if tarHeader 0 = 0 then some ⟨[currentSector], 0, tarHeader⟩
    else if strncmp tarHeader name (strnlen name 0x100) = 0 then
      some ⟨[currentSector], currentSector, tarHeader⟩
    else
      let nextSector := currentSector + (1 + (getSize tarHeader + 512 - 1) / 512)
      (findFileFrom disk name fuel nextSector).map fun r =>
        { r with visited := currentSector :: r.visited }

/-- `TarFS::find_file_sector`; `root_sector` is 1. -/
def findFileSector (disk : Disk) (name : Bytes) (fuel : Nat) : Option FileSearch :=
  findFileFrom disk name fuel 1

/-! ## The boot sector's search -/

namespace Boot

/-- `add bl, al`: the carry out of the low byte of `ebx` is lost. -/
def addLow (ebx : UInt32) (al : UInt8) : UInt32 :=
  UInt32.ofNat (ebx.toNat / 256 * 256 + (ebx.toUInt8 + al).toNat)

/-- The loop of `parseOctal`, with `cx` digits to go from `si` on. -/
def parseOctalFrom (str : Bytes) : Nat → Nat → UInt32 → UInt32
  | 0, _, ebx => ebx
  | cx + 1, si, ebx =>
    let ebx := ebx <<< 3
    let al := (str si - 48) &&& 7
    parseOctalFrom str cx (si + 1) (addLow ebx al)

/-- `parseOctal`. -/
def parseOctal (str : Bytes) (cx : Nat) : UInt32 := parseOctalFrom str cx 0 0

/-- The loop of `strncmp`, with `cx` bytes to go: the zero flag it leaves. -/
def strncmpFrom (str1 str2 : Bytes) : Nat → Nat → Bool
  | 0, _ => true
  | cx + 1, i => if str1 i = str2 i then strncmpFrom str1 str2 cx (i + 1) else false

/-- `kernelName`, as the assembler lays it out. -/
def kernelName : Bytes := fun i => [107, 101, 114, 110, 101, 108].getD i 0

/-- The number of sectors of a file: the low word of the quotient. -/
def filesizeSectors (header : Bytes) : UInt16 :=
  let eax := parseOctal (sizeField header) 0x0B + 511
  (eax / 512).toUInt16

/-- What the search has read, and `fileheaderSector` and `filesizeSectors` at `kernelFound`. -/
structure Search where
  visited : List UInt16
  found : Option (UInt16 × UInt16)
  deriving DecidableEq, Repr

/-- `findLoaderLoop` from `fileheaderSector`. -/
def findLoaderFrom (disk : Disk) : Nat → UInt16 → Option Search
  | 0, _ => none
  | fuel + 1, fileheaderSector =>
    let header := disk fileheaderSector.toUInt32
    if header 0 = 0 then some ⟨[fileheaderSector], none⟩
    else if strncmpFrom kernelName header 6 0 then
      some ⟨[fileheaderSector], some (fileheaderSector, filesizeSectors header)⟩
    else
      let ax := filesizeSectors header + 1
      (findLoaderFrom disk fuel (fileheaderSector + ax)).map fun r =>
        { r with visited := fileheaderSector :: r.visited }

/-- `findLoader`, which starts at sector 1. -/
def findLoader (disk : Disk) (fuel : Nat) : Option Search := findLoaderFrom disk fuel 1

end Boot

/-! ## Archives -/

/-- The number that `n` octal digits denote. -/
def octalValue (str : Bytes) : Nat → Nat
  | 0 => 0
  | n + 1 => 8 * octalValue str n + ((str n).toNat - 48)

/-- The size field holds eleven octal digits and a NUL. -/
structure SizeOk (header : Bytes) : Prop where
  digits : ∀ i, i < 11 → 48 ≤ (sizeField header i).toNat ∧ (sizeField header i).toNat ≤ 55
  nul : sizeField header 11 = 0

/-- The sectors of the file behind a header. -/
def fileSectors (header : Bytes) : Nat := (octalValue (sizeField header) 11 + 511) / 512

/-- From sector `s` on the disk holds an archive that ends within the first 65536 sectors. -/
inductive Archive (disk : Disk) : Nat → Prop
  | done {s : Nat} (hend : s < 65536) (hname : disk (UInt32.ofNat s) 0 = 0) : Archive disk s
  | entry {s : Nat} (hname : disk (UInt32.ofNat s) 0 ≠ 0) (hsize : SizeOk (disk (UInt32.ofNat s)))
      (hrest : Archive disk (s + 1 + fileSectors (disk (UInt32.ofNat s)))) : Archive disk s

/-! ## The names -/

theorem strnlenFrom_spec (s : Bytes) (left i : Nat) :
    i ≤ strnlenFrom s left i ∧ strnlenFrom s left i ≤ i + left ∧
      ∀ j, i ≤ j → j < strnlenFrom s left i → s j ≠ 0 := by
  induction left generalizing i with
  | zero =>
    rw [strnlenFrom]
    refine ⟨Nat.le_refl i, Nat.le_refl i, ?_⟩
    intro j hlo hhi
    omega
  | succ left ih =>
    rw [strnlenFrom]
    split
    case isTrue =>
      refine ⟨Nat.le_refl i, Nat.le_add_right i _, ?_⟩
      intro j hlo hhi
      omega
    case isFalse hne =>
      obtain ⟨hlo, hhi, hall⟩ := ih (i := i + 1)
      refine ⟨by omega, by omega, ?_⟩
      intro j hj hj'
      by_cases hji : j = i
      · rw [hji]
        exact hne
      · exact hall j (by omega) hj'

theorem cmpWordsFrom_eq_zero_iff {a b : Bytes} {left i : Nat} :
    cmpWordsFrom a b left i = 0 ↔ ∀ j, 4 * i ≤ j → j < 4 * (i + left) → a j = b j := by
  induction left generalizing i with
  | zero =>
    refine ⟨?_, fun _ => rfl⟩
    intro _ j hlo hhi
    omega
  | succ left ih =>
    have hword : ByteMem.loadWord a (4 * i) - ByteMem.loadWord b (4 * i) = 0 ↔
        ∀ j, j < 4 → a (4 * i + j) = b (4 * i + j) := by
      rw [← ByteMem.loadWord_eq_iff]
      rw [BitVec.sub_eq_iff_eq_add]
      exact Eq.congr_right (BitVec.zero_add _)
    rw [cmpWordsFrom]
    by_cases hdiff : ByteMem.loadWord a (4 * i) - ByteMem.loadWord b (4 * i) = 0
    · rw [if_neg (Classical.not_not.mpr hdiff), ih]
      have hfirst := hword.mp hdiff
      constructor
      · intro hrest j hlo hhi
        by_cases hj : j < 4 * (i + 1)
        · have heq := hfirst (j - 4 * i) (by omega)
          rwa [show 4 * i + (j - 4 * i) = j by omega] at heq
        · exact hrest j (by omega) (by omega)
      · intro hall j hlo hhi
        exact hall j (by omega) (by omega)
    · rw [if_pos hdiff]
      refine iff_of_false hdiff ?_
      intro hall
      apply hdiff
      rw [hword]
      intro j hj
      exact hall (4 * i + j) (by omega) (by omega)

/-- The difference of two characters is zero when they are equal. -/
theorem charDiff_eq_zero_iff {x y : UInt8} :
    BitVec.ofInt 32 (x.toInt8.toInt - y.toInt8.toInt) = 0 ↔ x = y := by
  have hx := x.toInt8.toInt_lt
  have hx' := x.toInt8.le_toInt
  have hy := y.toInt8.toInt_lt
  have hy' := y.toInt8.le_toInt
  constructor
  · intro h
    have hnat := congrArg BitVec.toNat h
    have hzero : (0 : BitVec 32).toNat = 0 := rfl
    rw [BitVec.toNat_ofInt, hzero] at hnat
    have heq : x.toInt8.toInt = y.toInt8.toInt := by omega
    have hchar : x.toInt8 = y.toInt8 := Int8.toInt_inj.mp heq
    rw [← UInt8.toUInt8_toInt8 x, hchar, UInt8.toUInt8_toInt8]
  · rintro rfl
    simp

theorem cmpBytesFrom_eq_zero_iff {a b : Bytes} {left i : Nat} :
    cmpBytesFrom a b left i = 0 ↔
      ∀ j, i ≤ j → j < i + left → (∀ k, i ≤ k → k < j → a k ≠ 0) → a j = b j := by
  induction left generalizing i with
  | zero =>
    refine ⟨?_, fun _ => rfl⟩
    intro _ j hlo hhi
    omega
  | succ left ih =>
    rw [cmpBytesFrom]
    by_cases hab : a i = b i
    · rw [if_neg (Classical.not_not.mpr (charDiff_eq_zero_iff.mpr hab))]
      by_cases hend : a i = 0
      · -- the string ends here: nothing behind counts
        rw [if_pos hend]
        refine iff_of_true rfl ?_
        intro j hlo hhi hbefore
        by_cases hji : j = i
        · rw [hji]
          exact hab
        · exact absurd hend (hbefore i (Nat.le_refl i) (by omega))
      · rw [if_neg hend, ih]
        constructor
        · intro hrest j hlo hhi hbefore
          by_cases hji : j = i
          · rw [hji]
            exact hab
          · apply hrest j (by omega) (by omega)
            intro k hk hkj
            exact hbefore k (by omega) hkj
        · intro hall j hlo hhi hbefore
          apply hall j (by omega) (by omega)
          intro k hk hkj
          by_cases hki : k = i
          · rw [hki]
            exact hend
          · exact hbefore k (by omega) hkj
    · have hdiff := mt charDiff_eq_zero_iff.mp hab
      rw [if_pos hdiff]
      refine iff_of_false hdiff ?_
      intro hall
      apply hab
      apply hall i (Nat.le_refl i) (by omega)
      intro k hk hki
      omega

/-- `strncmp` compares up to the length, or up to the end of the first string. -/
theorem strncmp_eq_zero_iff {a b : Bytes} {len : Nat} :
    strncmp a b len = 0 ↔ ∀ j, j < len → (∀ k, k < j → a k ≠ 0) → a j = b j := by
  obtain ⟨-, hle, hbody⟩ := strnlenFrom_spec a len 0
  rw [← strnlen] at hle hbody
  obtain ⟨dwords, hdw⟩ : ∃ dwords, dwords = strnlen a len / 4 := ⟨_, rfl⟩
  rw [strncmp]
  simp only [← hdw]
  by_cases hwords : cmpWordsFrom a b dwords 0 = 0
  · rw [if_neg (Classical.not_not.mpr hwords), cmpBytesFrom_eq_zero_iff]
    rw [cmpWordsFrom_eq_zero_iff] at hwords
    constructor
    · intro hbytes j hj hbefore
      by_cases hlow : j < 4 * dwords
      · exact hwords j (by omega) (by omega)
      · apply hbytes j (by omega) (by omega)
        intro k _ hk
        exact hbefore k hk
    · intro hall j hlo hhi hbefore
      apply hall j (by omega)
      intro k hk
      by_cases hlow : k < 4 * dwords
      · exact hbody k (Nat.zero_le k) (by omega)
      · exact hbefore k (by omega) hk
  · rw [if_pos hwords]
    refine iff_of_false hwords ?_
    intro hall
    apply hwords
    rw [cmpWordsFrom_eq_zero_iff]
    intro j _ hj
    apply hall j (by omega)
    intro k hk
    exact hbody k (Nat.zero_le k) (by omega)

/-- The zero flag after the boot sector's `strncmp`. -/
theorem Boot.strncmpFrom_iff {str1 str2 : Bytes} {cx i : Nat} :
    strncmpFrom str1 str2 cx i = true ↔ ∀ j, i ≤ j → j < i + cx → str1 j = str2 j := by
  induction cx generalizing i with
  | zero =>
    refine ⟨?_, fun _ => rfl⟩
    intro _ j hlo hhi
    omega
  | succ cx ih =>
    rw [strncmpFrom]
    split
    case isTrue heq =>
      rw [ih]
      constructor
      · intro hrest j hlo hhi
        by_cases hji : j = i
        · rw [hji]
          exact heq
        · exact hrest j (by omega) (by omega)
      · intro hall j hlo hhi
        exact hall j (by omega) (by omega)
    case isFalse hne =>
      refine iff_of_false Bool.false_ne_true ?_
      intro hall
      exact hne (hall i (Nat.le_refl i) (by omega))

/-- **The two comparisons with `kernel` agree.** -/
theorem names_agree (header : Bytes) :
    strncmp header Boot.kernelName (strnlen Boot.kernelName 0x100) = 0 ↔
      Boot.strncmpFrom Boot.kernelName header 6 0 = true := by
  have hlen : strnlen Boot.kernelName 0x100 = 6 := by decide
  have hletters : ∀ i, i < 6 → Boot.kernelName i ≠ 0 := by decide
  rw [hlen, strncmp_eq_zero_iff, Boot.strncmpFrom_iff]
  constructor
  · -- by induction every byte before `j` is a letter of `kernel`, so the comparison goes on
    intro h
    have hall : ∀ j, j < 6 → header j = Boot.kernelName j := by
      intro j
      induction j using Nat.strongRecOn with
      | ind j ih =>
        intro hj
        apply h j hj
        intro k hk
        rw [ih k hk (by omega)]
        exact hletters k (by omega)
    intro j _ hj
    exact (hall j (by omega)).symm
  · intro h j hj _
    exact (h j (Nat.zero_le j) (by omega)).symm

/-! ## The sizes -/

theorem toNat_shift_three (x : UInt32) : (x <<< 3).toNat = x.toNat * 8 % 4294967296 := by
  rw [UInt32.toNat_shiftLeft, Nat.shiftLeft_eq]
  rfl

/-- A step of `parse_octal` on a digit. -/
theorem shift_add_digit {x : Nat} {d : UInt8} (hd : 48 ≤ d.toNat) :
    (UInt32.ofNat x <<< 3) + (d.toUInt32 - 48) = UInt32.ofNat (8 * x + (d.toNat - 48)) := by
  have hlt := d.toNat_lt
  have h48 : (48 : UInt32).toNat = 48 := rfl
  apply UInt32.toNat.inj
  simp only [UInt32.toNat_add, toNat_shift_three, UInt32.toNat_sub, UInt32.toNat_ofNat',
    UInt8.toNat_toUInt32, h48]
  omega

/-- A step of the boot sector's `parseOctal` on an octal digit: the masked digit fits into the three
bits that the shift has left, so that no carry is lost. -/
theorem Boot.addLow_digit {x : Nat} {d : UInt8} (hlo : 48 ≤ d.toNat) (hhi : d.toNat ≤ 55) :
    addLow (UInt32.ofNat x <<< 3) ((d - 48) &&& 7) = UInt32.ofNat (8 * x + (d.toNat - 48)) := by
  have hmask : ((d - 48) &&& 7).toNat = d.toNat - 48 := by
    have h48 : (48 : UInt8).toNat = 48 := rfl
    have h7 : (7 : UInt8).toNat = 2 ^ 3 - 1 := rfl
    rw [UInt8.toNat_and, UInt8.toNat_sub, h48, h7, Nat.and_two_pow_sub_one_eq_mod]
    omega
  rw [addLow]
  apply UInt32.toNat.inj
  simp only [UInt32.toNat_ofNat', UInt8.toNat_add, UInt32.toNat_toUInt8, hmask, toNat_shift_three]
  omega

/-- The digits are read up to something else, or to the end of the field. -/
theorem parseOctalFrom_digits {str : Bytes} {left i extra : Nat}
    (hdigits : ∀ j, i ≤ j → j < i + left → 48 ≤ (str j).toNat ∧ (str j).toNat ≤ 55)
    (hstop : extra = 0 ∨ ¬ (48 ≤ str (i + left) ∧ str (i + left) ≤ 57)) :
    parseOctalFrom str (left + extra) i (UInt32.ofNat (octalValue str i)) =
      UInt32.ofNat (octalValue str (i + left)) := by
  induction left generalizing i with
  | zero =>
    rw [Nat.add_zero] at hstop
    rw [Nat.zero_add, Nat.add_zero]
    cases extra with
    | zero => rfl
    | succ extra => rw [parseOctalFrom, if_neg (hstop.resolve_left (Nat.succ_ne_zero extra))]
  | succ left ih =>
    obtain ⟨hlo, hhi⟩ := hdigits i (Nat.le_refl i) (by omega)
    have hdigit : 48 ≤ str i ∧ str i ≤ 57 := by
      rw [UInt8.le_iff_toNat_le, UInt8.le_iff_toNat_le]
      exact ⟨hlo, Nat.le_trans hhi (by decide)⟩
    have hshift : i + (left + 1) = i + 1 + left := by omega
    rw [show left + 1 + extra = left + extra + 1 by omega, parseOctalFrom, if_pos hdigit,
      shift_add_digit hlo, hshift]
    rw [hshift] at hstop
    apply ih _ hstop
    intro j hj hj'
    exact hdigits j (by omega) (by omega)

theorem Boot.parseOctalFrom_digits {str : Bytes} {cx i : Nat}
    (hdigits : ∀ j, i ≤ j → j < i + cx → 48 ≤ (str j).toNat ∧ (str j).toNat ≤ 55) :
    parseOctalFrom str cx i (UInt32.ofNat (octalValue str i)) =
      UInt32.ofNat (octalValue str (i + cx)) := by
  induction cx generalizing i with
  | zero => rfl
  | succ cx ih =>
    obtain ⟨hlo, hhi⟩ := hdigits i (Nat.le_refl i) (by omega)
    have hshift : i + (cx + 1) = i + 1 + cx := by omega
    rw [parseOctalFrom, addLow_digit hlo hhi, hshift]
    apply ih
    intro j hj hj'
    exact hdigits j (by omega) (by omega)

/-- **Both parsers read the size that the header states.** -/
theorem sizes_agree {header : Bytes} (h : SizeOk header) :
    getSize header = UInt32.ofNat (octalValue (sizeField header) 11) ∧
      Boot.parseOctal (sizeField header) 0x0B =
        UInt32.ofNat (octalValue (sizeField header) 11) := by
  have hdigits : ∀ j, 0 ≤ j → j < 0 + 11 →
      48 ≤ (sizeField header j).toNat ∧ (sizeField header j).toNat ≤ 55 := by
    intro j _ hj
    exact h.digits j (by omega)
  have hstop : ¬ (48 ≤ sizeField header (0 + 11) ∧ sizeField header (0 + 11) ≤ 57) := by
    rw [h.nul]
    decide
  have hkernel : parseOctalFrom (sizeField header) (11 + 1) 0
      (UInt32.ofNat (octalValue (sizeField header) 0)) =
        UInt32.ofNat (octalValue (sizeField header) (0 + 11)) :=
    parseOctalFrom_digits hdigits (.inr hstop)
  exact ⟨hkernel, Boot.parseOctalFrom_digits hdigits⟩

/-- Below 65536 sectors neither the 32-bit size nor the 16-bit number of sectors is cut off. -/
theorem sectors_agree {header : Bytes} (h : SizeOk header) (hfits : fileSectors header < 65536) :
    ((getSize header + 512 - 1) / 512).toNat = fileSectors header ∧
      (Boot.filesizeSectors header).toNat = fileSectors header := by
  obtain ⟨hkernel, hboot⟩ := sizes_agree h
  have h512 : (512 : UInt32).toNat = 512 := rfl
  have h511 : (511 : UInt32).toNat = 511 := rfl
  have h1 : (1 : UInt32).toNat = 1 := rfl
  rw [Boot.filesizeSectors, hkernel, hboot]
  unfold fileSectors at hfits ⊢
  refine ⟨?_, ?_⟩
  · rw [UInt32.toNat_div, UInt32.toNat_sub, UInt32.toNat_add, UInt32.toNat_ofNat', h512, h1]
    omega
  · rw [UInt32.toNat_toUInt16, UInt32.toNat_div, UInt32.toNat_add, UInt32.toNat_ofNat', h512, h511]
    omega

/-! ## The searches -/

/-- Two searches have read the same headers, agree on whether the file is there and in which sector
its header is, and on the number of its sectors. -/
structure Agree (b : Boot.Search) (k : FileSearch) : Prop where
  visited : b.visited.map UInt16.toNat = k.visited.map UInt32.toNat
  found : b.found = none ↔ k.sector = 0
  file : ∀ sector sectors, b.found = some (sector, sectors) →
    sector.toNat = k.sector.toNat ∧
      sectors.toNat = ((getSize k.header + 512 - 1) / 512).toNat

theorem Archive.lt {disk : Disk} {s : Nat} (h : Archive disk s) : s < 65536 := by
  induction h with
  | done hend _ => exact hend
  | entry _ _ _ ih => omega

/-- Sector numbers of both widths. -/
theorem ofNat_agree {s : Nat} (h : s < 65536) :
    (UInt16.ofNat s).toUInt32 = UInt32.ofNat s ∧ (UInt16.ofNat s).toNat = s ∧
      (UInt32.ofNat s).toNat = s := by
  have h16 : (UInt16.ofNat s).toNat = s := UInt16.toNat_ofNat_of_lt' h
  have h32 : (UInt32.ofNat s).toNat = s := UInt32.toNat_ofNat_of_lt' (Nat.lt_trans h (by decide))
  refine ⟨?_, h16, h32⟩
  apply UInt32.toNat.inj
  rw [UInt16.toNat_toUInt32, h16, h32]

/-- From the same header on, the searches come to an end and agree. -/
theorem Archive.agree {disk : Disk} {s : Nat} (h : Archive disk s) (hs : 0 < s) :
    ∃ n b k, (∀ fuel, n ≤ fuel →
      Boot.findLoaderFrom disk fuel (UInt16.ofNat s) = some b ∧
        findFileFrom disk Boot.kernelName fuel (UInt32.ofNat s) = some k) ∧ Agree b k := by
  induction h with
  | @done s hend hname =>
    obtain ⟨hsame, h16, h32⟩ := ofNat_agree hend
    refine ⟨1, ⟨[UInt16.ofNat s], none⟩, ⟨[UInt32.ofNat s], 0, disk (UInt32.ofNat s)⟩, ?_, ?_⟩
    · intro fuel hfuel
      obtain ⟨fuel, rfl⟩ : ∃ m, fuel = m + 1 := ⟨fuel - 1, by omega⟩
      rw [Boot.findLoaderFrom, findFileFrom, hsame, if_pos hname, if_pos hname]
      exact ⟨rfl, rfl⟩
    · exact ⟨by simp [h16, h32], iff_of_true rfl rfl, fun _ _ hf => nomatch hf⟩
  | @entry s hname hsize hrest ih =>
    have hnext := hrest.lt
    obtain ⟨hsame, h16, h32⟩ := ofNat_agree (s := s) (by omega)
    obtain ⟨hkernel, hboot⟩ := sectors_agree hsize (by omega)
    by_cases hmatch : Boot.strncmpFrom Boot.kernelName (disk (UInt32.ofNat s)) 6 0 = true
    · -- both stop here
      refine ⟨1, ⟨[UInt16.ofNat s],
          some (UInt16.ofNat s, Boot.filesizeSectors (disk (UInt32.ofNat s)))⟩,
        ⟨[UInt32.ofNat s], UInt32.ofNat s, disk (UInt32.ofNat s)⟩, ?_, ?_⟩
      · intro fuel hfuel
        obtain ⟨fuel, rfl⟩ : ∃ m, fuel = m + 1 := ⟨fuel - 1, by omega⟩
        rw [Boot.findLoaderFrom, findFileFrom, hsame, if_neg hname, if_neg hname, if_pos hmatch,
          if_pos ((names_agree _).mpr hmatch)]
        exact ⟨rfl, rfl⟩
      · refine ⟨by simp [h16, h32], iff_of_false (fun hf => nomatch hf) ?_, ?_⟩
        · intro hzero
          have hnat := congrArg UInt32.toNat hzero
          rw [h32] at hnat
          exact absurd hnat (Nat.ne_of_gt hs)
        · intro sector sectors hf
          cases hf
          exact ⟨by rw [h16, h32], by rw [hkernel, hboot]⟩
    · -- both go on, to the same header
      obtain ⟨n, b, k, hrun, hagree⟩ := ih (by omega)
      have hstep16 : UInt16.ofNat s + (Boot.filesizeSectors (disk (UInt32.ofNat s)) + 1) =
          UInt16.ofNat (s + 1 + fileSectors (disk (UInt32.ofNat s))) := by
        apply UInt16.toNat.inj
        rw [(ofNat_agree hnext).2.1, UInt16.toNat_add, UInt16.toNat_add, UInt16.toNat_one, h16,
          hboot]
        omega
      have hstep32 : UInt32.ofNat s +
          (1 + (getSize (disk (UInt32.ofNat s)) + 512 - 1) / 512) =
          UInt32.ofNat (s + 1 + fileSectors (disk (UInt32.ofNat s))) := by
        apply UInt32.toNat.inj
        rw [(ofNat_agree hnext).2.2, UInt32.toNat_add, UInt32.toNat_add, UInt32.toNat_one, h32,
          hkernel]
        omega
      refine ⟨n + 1, { b with visited := UInt16.ofNat s :: b.visited },
        { k with visited := UInt32.ofNat s :: k.visited }, ?_, ?_⟩
      · intro fuel hfuel
        obtain ⟨fuel, rfl⟩ : ∃ m, fuel = m + 1 := ⟨fuel - 1, by omega⟩
        obtain ⟨hb, hk⟩ := hrun fuel (by omega)
        rw [Boot.findLoaderFrom, findFileFrom, hsame, if_neg hname, if_neg hname, if_neg hmatch,
          if_neg (mt (names_agree _).mp hmatch)]
        simp only [hstep16, hstep32, hb, hk]
        exact ⟨rfl, rfl⟩
      · refine ⟨?_, hagree.found, hagree.file⟩
        simp only [List.map_cons, h16, h32, hagree.visited]

/-- **The boot sector and the kernel find the same file**: on every archive from sector 1 on that
ends within 65536 sectors both searches come to an end, having read the same headers, and agree on
the header sector of `kernel` and on the number of its sectors. -/
theorem searches_agree (disk : Disk) (h : Archive disk 1) :
    ∃ n b k, (∀ fuel, n ≤ fuel → Boot.findLoader disk fuel = some b ∧
      findFileSector disk Boot.kernelName fuel = some k) ∧ Agree b k :=
  h.agree (by decide)

/-- A disk with two files: a name and the digits of the size for each header, other sectors zero. -/
def twoFiles : Disk := fun s i =>
  let header (name size : List UInt8) : UInt8 :=
    if i < 124 then name.getD i 0 else size.getD (i - 124) 0
  -- `notes` of 600 bytes in sectors 2 and 3, `kernel` of 5 bytes in sector 5
  if s = 1 then header [110, 111, 116, 101, 115] [48, 48, 48, 48, 48, 48, 48, 49, 49, 51, 48]
  else if s = 4 then
    header [107, 101, 114, 110, 101, 108] [48, 48, 48, 48, 48, 48, 48, 48, 48, 48, 53]
  else 0

theorem twoFiles_archive : Archive twoFiles 1 := by
  refine .entry (by decide) ⟨by decide, by decide⟩ ?_
  refine .entry (by decide) ⟨by decide, by decide⟩ ?_
  exact .done (by decide) (by decide)

theorem twoFiles_agree :
    Boot.findLoader twoFiles 2 = some ⟨[1, 4], some (4, 1)⟩ ∧
      ∃ n b k, (∀ fuel, n ≤ fuel → Boot.findLoader twoFiles fuel = some b ∧
        findFileSector twoFiles Boot.kernelName fuel = some k) ∧ Agree b k :=
  ⟨by decide +kernel, searches_agree twoFiles twoFiles_archive⟩

end Shipwreck.Storage
