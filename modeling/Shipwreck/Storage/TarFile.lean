import Shipwreck.Lib.Bytes
import Shipwreck.Lib.CInt
import Shipwreck.Lib.Transition

/-!
# Files in a tar archive

`TarFile` of `devices/tar.h`: a file is stored in consecutive 512-byte sectors after its header, and
is read through a cursor. `read` takes the bytes up to the next sector boundary, then whole sectors,
then the beginning of one more sector. The sector it goes on with is not computed from the cursor
but kept in `current_sector`, which only `seek` sets afresh: what a read delivers depends on what the
reads before it left there.

    header_sector | header_sector + 1 | header_sector + 2 | ...
                  | bytes 0 .. 511    | bytes 512 .. 1023 | ...

A file is in order when `current_sector` is the sector the cursor lies in (`Aligned`). A read that
starts inside a sector counts this sector as finished even when it ends before the boundary; this is
the only way to leave the order (`fileOk_iff`), and so `reads_faithful` says of which runs the
promise of a file is kept.

The sector device delivers sector `s` as `disk s`. Signed overflow wraps, and `behind` is whatever
the stack holds behind the sector buffer `tmp`. A copy that goes on there does not end before the stack
does, and the process with it (`TarFile.Overruns`): what `read` says of such a copy is said of no process.
-/

namespace Shipwreck.Storage

open CInt (toUint toInt)

/-! ## `memcpy` -/

/-- The first loop of `memcpy`: `n` words. -/
def copyWords (mem : ByteMem) (dst : UInt32) (src : Nat → UInt8) : Nat → ByteMem
  | 0 => mem
  | n + 1 => (copyWords mem dst src n).storeWord (dst + UInt32.ofNat (4 * n))
      (ByteMem.loadWord src (4 * n))

/-- The second loop of `memcpy`: `n` bytes from index `i` on. -/
def copyBytes (mem : ByteMem) (dst : UInt32) (src : Nat → UInt8) (i : Nat) : Nat → ByteMem
  | 0 => mem
  | n + 1 => Function.update (copyBytes mem dst src i n) (dst + UInt32.ofNat (i + n)) (src (i + n))

/-- `memcpy(dst, src, num)`, where `src` gives the bytes at the source address. -/
def memcpy (mem : ByteMem) (dst : UInt32) (src : Nat → UInt8) (num : Nat) : ByteMem :=
  let numDwords := num / 4
  let i := numDwords * 4
  copyBytes (copyWords mem dst src numDwords) dst src i (num - i)

theorem copyWords_eq {mem : ByteMem} {dst : UInt32} {src : Nat → UInt8} {n : Nat}
    (hn : 4 * n ≤ 4294967296) : copyWords mem dst src n = mem.fill dst (4 * n) src := by
  induction n with
  | zero => simp [copyWords]
  | succ n ih =>
    rw [copyWords, ih (by omega), ByteMem.storeWord_loadWord]
    exact ByteMem.fill_more (by omega) fun _ _ => rfl

theorem copyBytes_eq {mem : ByteMem} {dst : UInt32} {src : Nat → UInt8} {i n : Nat}
    (hn : i + n ≤ 4294967296) :
    copyBytes (mem.fill dst i src) dst src i n = mem.fill dst (i + n) src := by
  induction n with
  | zero => rfl
  | succ n ih =>
    rw [copyBytes, ih (by omega)]
    exact ByteMem.update_fill (by omega)

/-- `memcpy` copies. -/
theorem memcpy_eq {mem : ByteMem} {dst : UInt32} {src : Nat → UInt8} {num : Nat}
    (hn : num ≤ 4294967296) : memcpy mem dst src num = mem.fill dst num src := by
  have hwords : num / 4 * 4 + (num - num / 4 * 4) = num := by omega
  simp only [memcpy]
  rw [copyWords_eq (by omega), Nat.mul_comm 4, copyBytes_eq (by omega), hwords]

/-! ## The file -/

/-- What the sectors of the device hold: `disk s` are the 512 bytes of sector `s`. -/
abbrev Disk := UInt32 → Nat → UInt8

/-- `class TarFile`. -/
structure TarFile where
  headerSector : UInt32
  currentSector : UInt32
  cursor : UInt32
  size : UInt32
  deriving DecidableEq, Repr

/-- `TarFile::seek`. -/
def TarFile.seek (file : TarFile) (offset : Int32) : Int × TarFile :=
  if offset.toInt < 0 ∨ file.size.toNat ≤ toUint offset.toInt then (0, file)
  else (1, { file with
    cursor := offset.toUInt32
    currentSector := file.headerSector + 1 + (offset / 512).toUInt32 })

/-- The variables of `read`, and the memory it writes to. -/
structure Reading where
  mem : ByteMem
  currentSector : UInt32
  dstptr : UInt32
  len : Int

section

variable (disk : Disk) (behind : Nat → UInt8)

/-- `char tmp[BYTES_PER_SECTOR]` after `readsector(&tmp, s)`. -/
def tmp (s : UInt32) : Nat → UInt8 := fun i => if i < 512 then disk s i else behind i

/-- `readsector(dstptr, current_sector)`. -/
def readsector (mem : ByteMem) (dstptr s : UInt32) : ByteMem := mem.fill dstptr 512 (disk s)

/-- `bytes_to_read`. -/
def bytesToRead (cursorMod512 : Nat) (len : Int) : Int :=
  let end' := toInt (cursorMod512 + len)
  let max := if end' > 512 then 512 else end'
  toInt (max - cursorMod512)

/-- All the bytes up to the next 512 boundary. -/
def readHead (cursor : UInt32) (r : Reading) : Reading :=
  let cursorMod512 := cursor.toNat % 512
  if cursorMod512 = 0 then r
  else
    let bytesToRead := bytesToRead cursorMod512 r.len
    { mem := memcpy r.mem r.dstptr (fun i => tmp disk behind r.currentSector (cursorMod512 + i))
        (toUint bytesToRead)
      currentSector := r.currentSector + 1
      dstptr := r.dstptr + UInt32.ofNat (toUint bytesToRead)
      len := toInt (r.len - bytesToRead) }

/-- The loop over whole sectors. -/
def readSects : Nat → Reading → Reading
  | 0, r => r
  | n + 1, r =>
    readSects n { r with
      mem := readsector disk r.mem r.dstptr r.currentSector
      currentSector := r.currentSector + 1
      dstptr := r.dstptr + 512 }

/-- The end, when it is not aligned. `len & 0x1FF` is a remainder also for a negative `len`. -/
def readTail (r : Reading) : Reading :=
  let endMod512 := (r.len % 512).toNat
  if endMod512 = 0 then r
  else { r with mem := memcpy r.mem r.dstptr (tmp disk behind r.currentSector) endMod512 }

/-- `TarFile::read`: the value returned, the file and the memory. -/
def TarFile.read (file : TarFile) (mem : ByteMem) (dst length : UInt32) :
    Nat × TarFile × ByteMem :=
  let len := toInt length.toNat
  if toUint (file.cursor.toNat + len) > file.size.toNat then (0, file, mem)
  else
    let r := readHead disk behind file.cursor
      { mem := mem, currentSector := file.currentSector, dstptr := dst, len := len }
    -- `len / BYTES_PER_SECTOR` rounds towards zero
    let r := readSects disk (toUint (r.len.tdiv 512)) r
    let r := readTail disk behind r
    (length.toNat, { file with currentSector := r.currentSector, cursor := file.cursor + length },
      r.mem)

end

/-- The copy up to the boundary goes on behind the 512 bytes of `tmp`. -/
def TarFile.Overruns (file : TarFile) (length : UInt32) : Prop :=
  let cursorMod512 := file.cursor.toNat % 512
  cursorMod512 ≠ 0 ∧ 512 < cursorMod512 + toUint (bytesToRead cursorMod512 (toInt length.toNat))

instance (file : TarFile) (length : UInt32) : Decidable (file.Overruns length) :=
  inferInstanceAs (Decidable (_ ∧ _))

/-- `TarFile::read` with the page fault that a copy behind `tmp` ends in: `none` is the end of the process. -/
def TarFile.readOrFault (disk : Disk) (file : TarFile) (mem : ByteMem) (dst length : UInt32) :
    Option (Nat × TarFile × ByteMem) :=
  if toUint (file.cursor.toNat + toInt length.toNat) ≤ file.size.toNat ∧ file.Overruns length then none
  else some (file.read disk (fun _ => 0) mem dst length)

/-! ## What a file promises -/

/-- The file and the memory its bytes are read to. -/
structure FileState where
  file : TarFile
  mem : ByteMem

/-- The calls of a user of the file. -/
inductive Call where
  | seek (offset : Int32)
  | read (dst length : UInt32)
  deriving DecidableEq, Repr

/-- The call stays within the file. -/
def Within (file : TarFile) : Call → Prop
  | .seek offset => 0 ≤ offset.toInt ∧ offset.toInt < file.size.toNat
  | .read _ length => file.cursor.toNat + length.toNat ≤ file.size.toNat ∧
      length.toNat < 2147483648

instance (file : TarFile) : (c : Call) → Decidable (Within file c)
  | .seek _ => inferInstanceAs (Decidable (_ ∧ _))
  | .read _ _ => inferInstanceAs (Decidable (_ ∧ _))

/-- The sector that byte `i` of the file lies in. -/
def TarFile.sectorOf (file : TarFile) (i : Nat) : UInt32 :=
  file.headerSector + 1 + UInt32.ofNat (i / 512)

/-- The next sector to be read is the one the cursor lies in. -/
def TarFile.Aligned (file : TarFile) : Prop :=
  file.currentSector = file.sectorOf file.cursor.toNat

/-- The bytes of `content` are stored in the sectors after the header. -/
def Stored (disk : Disk) (content : Nat → UInt8) (file : TarFile) : Prop :=
  ∀ i, i < file.size.toNat → disk (file.sectorOf i) (i % 512) = content i

section

variable (disk : Disk) (behind : Nat → UInt8)

/-- The state after a call. -/
def perform (s : FileState) : Call → FileState
  | .seek offset => { s with file := (s.file.seek offset).2 }
  | .read dst length =>
    let r := s.file.read disk behind s.mem dst length
    { file := r.2.1, mem := r.2.2 }

/-- An open file, called within its bounds. -/
def openFile : Machine FileState Call where
  init s := s.file.Aligned
  step s c := if Within s.file c then some (perform disk behind s c) else none

/-- What a call delivers: a seek sets the cursor, a read stores the bytes from the cursor on at
`dst`, touches nothing else, and advances the cursor. -/
def Delivers (content : Nat → UInt8) (s : FileState) : Call → Prop
  | .seek offset => (s.file.seek offset).1 = 1 ∧
      ((s.file.seek offset).2.cursor.toNat : Int) = offset.toInt
  | .read dst length =>
    let r := s.file.read disk behind s.mem dst length
    r.1 = length.toNat ∧
      r.2.2 = s.mem.fill dst length.toNat (fun i => content (s.file.cursor.toNat + i)) ∧
      r.2.1.cursor.toNat = s.file.cursor.toNat + length.toNat

/-- The promise for one call within the file. -/
def FileOk (content : Nat → UInt8) (s : FileState) (c : Call) : Prop :=
  Within s.file c →
    Delivers disk behind content s c ∧ (perform disk behind s c).file.Aligned

end

/-- A read that starts inside a sector reads to the end of it, and the end of the read, counted from
the beginning of that sector, is an `int`. -/
def ReadsWhole (s : FileState) : Call → Prop
  | .seek _ => True
  | .read dst length =>
    Within s.file (.read dst length) → s.file.cursor.toNat % 512 = 0 ∨
      (512 ≤ s.file.cursor.toNat % 512 + length.toNat ∧
        s.file.cursor.toNat % 512 + length.toNat < 2147483648)

instance (s : FileState) : (c : Call) → Decidable (ReadsWhole s c)
  | .seek _ => inferInstanceAs (Decidable True)
  | .read _ _ => inferInstanceAs (Decidable (_ → _))

/-! ## One call -/

section

variable {disk : Disk} (behind : Nat → UInt8) {content : Nat → UInt8} {file : TarFile}
  {mem : ByteMem} {dst : UInt32} {n k : Nat} {r : Reading}

theorem TarFile.sectorOf_next {i j : Nat} (h : j / 512 = i / 512 + 1) :
    file.sectorOf j = file.sectorOf i + 1 := by
  have hone : UInt32.ofNat 1 = 1 := rfl
  rw [sectorOf, sectorOf, h, UInt32.ofNat_add, hone, ← UInt32.add_assoc]

/-- The first `n` bytes of a read at `dst` are there, and the read goes on in the sector of the
next one. -/
structure Got (content : Nat → UInt8) (file : TarFile) (mem : ByteMem) (dst : UInt32) (n : Nat)
    (r : Reading) : Prop where
  mem_eq : r.mem = mem.fill dst n fun i => content (file.cursor.toNat + i)
  dstptr_eq : r.dstptr = dst + UInt32.ofNat n
  sector_eq : r.currentSector = file.sectorOf (file.cursor.toNat + n)

namespace Got

/-- Storing the next `k` bytes at `dstptr`. -/
theorem fill (h : Got content file mem dst n r) (hk : n + k ≤ 4294967296) {f : Nat → UInt8}
    (hf : ∀ i, i < k → f i = content (file.cursor.toNat + (n + i))) :
    r.mem.fill r.dstptr k f =
      mem.fill dst (n + k) fun i => content (file.cursor.toNat + i) := by
  rw [h.mem_eq, h.dstptr_eq, ByteMem.fill_fill hk]
  apply ByteMem.fill_congr
  intro i hi
  split
  · rfl
  · rw [hf _ (by omega)]
    congr 2
    omega

/-- Byte `i` of the current sector, when the next byte to be read is its byte `m`. -/
theorem sector_byte (h : Got content file mem dst n r) (hst : Stored disk content file) {m i : Nat}
    (hm : (file.cursor.toNat + n) % 512 = m) (hi : m + i < 512)
    (hsize : file.cursor.toNat + n + i < file.size.toNat) :
    disk r.currentSector (m + i) = content (file.cursor.toNat + (n + i)) := by
  have hsect : (file.cursor.toNat + n + i) / 512 = (file.cursor.toNat + n) / 512 := by omega
  have hbyte : (file.cursor.toNat + n + i) % 512 = m + i := by omega
  have hread := hst (file.cursor.toNat + n + i) hsize
  rw [hbyte, TarFile.sectorOf, hsect] at hread
  rw [h.sector_eq, TarFile.sectorOf, hread, Nat.add_assoc]

/-- The same byte read from the buffer `tmp`. -/
theorem tmp_byte (h : Got content file mem dst n r) (hst : Stored disk content file) {m i : Nat}
    (hm : (file.cursor.toNat + n) % 512 = m) (hi : m + i < 512)
    (hsize : file.cursor.toNat + n + i < file.size.toNat) :
    tmp disk behind r.currentSector (m + i) = content (file.cursor.toNat + (n + i)) := by
  rw [tmp, if_pos hi, h.sector_byte hst hm hi hsize]

/-- The loop over whole sectors, started on a sector boundary. -/
theorem readSects (h : Got content file mem dst n r) (hst : Stored disk content file)
    (haligned : (file.cursor.toNat + n) % 512 = 0)
    (hsize : file.cursor.toNat + n + 512 * k ≤ file.size.toNat) :
    Got content file mem dst (n + 512 * k) (readSects disk k r) := by
  have hmax := file.size.toNat_lt
  induction k generalizing n r with
  | zero => exact h
  | succ k ih =>
    have hsucc : n + 512 * (k + 1) = n + 512 + 512 * k := by omega
    have hroom : n + 512 ≤ 4294967296 := by grind
    rw [hsucc]
    apply ih _ (by omega) (by omega)
    constructor
    · have hbytes : ∀ i, i < 512 →
          disk r.currentSector i = content (file.cursor.toNat + (n + i)) := by
        intro i hi
        rw [← h.sector_byte hst haligned (by omega) (by omega), Nat.zero_add]
      exact h.fill hroom hbytes
    · rw [UInt32.ofNat_add, ← UInt32.add_assoc, ← h.dstptr_eq]
      rfl
    · rw [TarFile.sectorOf_next (i := file.cursor.toNat + n) (by omega), ← h.sector_eq]

end Got

theorem readSects_len : (readSects disk k r).len = r.len := by
  induction k generalizing r with
  | zero => rfl
  | succ k ih => exact ih

/-- The read up to the next boundary, when it gets there. -/
theorem readHead_got (h : Got content file mem dst 0 r)
    (hst : Stored disk content file) (length : Nat) (hlen : r.len = length)
    (hsize : file.cursor.toNat + length ≤ file.size.toNat)
    (hlong : 512 ≤ file.cursor.toNat % 512 + length)
    (hfits : file.cursor.toNat % 512 + length < 2147483648)
    (hmod : file.cursor.toNat % 512 ≠ 0) :
    Got content file mem dst (512 - file.cursor.toNat % 512)
        (readHead disk behind file.cursor r) ∧
      (readHead disk behind file.cursor r).len =
        (length - (512 - file.cursor.toNat % 512) : Nat) := by
  have hmax := file.size.toNat_lt
  generalize hm : file.cursor.toNat % 512 = m at *
  have hend : toInt (m + r.len) = m + length := by
    rw [hlen]
    exact CInt.toInt_of_fits (by omega) (by omega)
  have hmaxv : (if (m : Int) + length > 512 then 512 else (m : Int) + length) = 512 := by
    split <;> omega
  have hbytes : toInt (512 - m) = (512 - m : Nat) := by
    rw [CInt.toInt_of_fits (by omega) (by omega)]
    omega
  have hcount : toUint (512 - m : Nat) = 512 - m := CInt.toUint_of_nonneg (by omega) (by omega)
  simp only [readHead, bytesToRead, hm, if_neg hmod, hend, hmaxv, hbytes, hcount]
  refine ⟨⟨?_, ?_, ?_⟩, ?_⟩
  · have hfill := h.fill (k := 512 - m)
      (f := fun i => tmp disk behind r.currentSector (m + i)) (by omega) ?_
    · rw [memcpy_eq (by omega), hfill, Nat.zero_add]
    · intro i hi
      exact h.tmp_byte behind hst hm (by omega) (by omega)
  · have hzero : dst + UInt32.ofNat 0 = dst := UInt32.add_zero dst
    rw [h.dstptr_eq, hzero]
  · rw [TarFile.sectorOf_next (i := file.cursor.toNat + 0) (by omega), ← h.sector_eq]
  · rw [hlen, CInt.toInt_of_fits (by omega) (by omega)]
    omega

/-- A read that ends inside the sector it started in, or whose end is no `int`, takes all its bytes
from the buffer of the first sector, and counts this sector as read. -/
theorem readHead_all (length : Nat) (hlen : r.len = length) (hlength : length < 2147483648)
    (hmod : file.cursor.toNat % 512 ≠ 0)
    (hshort : file.cursor.toNat % 512 + length < 512 ∨
      2147483648 ≤ file.cursor.toNat % 512 + length) :
    readHead disk behind file.cursor r =
      { mem := r.mem.fill r.dstptr length
          fun i => tmp disk behind r.currentSector (file.cursor.toNat % 512 + i)
        currentSector := r.currentSector + 1
        dstptr := r.dstptr + UInt32.ofNat length
        len := 0 } := by
  generalize hm : file.cursor.toNat % 512 = m at *
  have hend : ¬ toInt (m + r.len) > 512 := by
    rw [hlen]
    unfold toInt
    omega
  have hbytes : bytesToRead m r.len = length := by
    simp only [bytesToRead, if_neg hend]
    rw [hlen]
    unfold toInt
    omega
  have hcount : toUint length = length := by
    rw [CInt.toUint_of_nonneg (by omega) (by omega), Int.toNat_natCast]
  have hleft : toInt (r.len - length) = 0 := by
    rw [hlen, Int.sub_self]
    rfl
  simp only [readHead, hm, if_neg hmod, hbytes, hcount, hleft]
  rw [memcpy_eq (by omega)]

/-- What comes after the first boundary: whole sectors, and the beginning of the last one. -/
theorem readTail_readSects (h : Got content file mem dst n r) (hst : Stored disk content file)
    (length : Nat) (hn : n ≤ length) (hlen : r.len = (length - n : Nat))
    (hlength : length < 2147483648) (haligned : (file.cursor.toNat + n) % 512 = 0)
    (hsize : file.cursor.toNat + length ≤ file.size.toNat) :
    let r' := readTail disk behind (readSects disk (toUint (r.len.tdiv 512)) r)
    r'.mem = mem.fill dst length (fun i => content (file.cursor.toNat + i)) ∧
      r'.currentSector = file.sectorOf (file.cursor.toNat + length) := by
  have hmax := file.size.toNat_lt
  have hcount : toUint (r.len.tdiv 512) = (length - n) / 512 := by
    rw [hlen, Int.tdiv_eq_ediv_of_nonneg (by omega), CInt.toUint_of_nonneg (by omega) (by omega)]
    omega
  have hwhole := h.readSects (k := (length - n) / 512) hst haligned (by omega)
  have hmod : ((readSects disk ((length - n) / 512) r).len % 512).toNat = (length - n) % 512 := by
    rw [readSects_len, hlen]
    omega
  have hsect : file.sectorOf (file.cursor.toNat + (n + 512 * ((length - n) / 512))) =
      file.sectorOf (file.cursor.toNat + length) := by
    have hdiv : (file.cursor.toNat + (n + 512 * ((length - n) / 512))) / 512 =
        (file.cursor.toNat + length) / 512 := by omega
    rw [TarFile.sectorOf, TarFile.sectorOf, hdiv]
  intro r'
  simp only [r', hcount, readTail, hmod]
  split
  · rename_i hzero
    have hall : n + 512 * ((length - n) / 512) = length := by omega
    rw [hwhole.mem_eq, hwhole.sector_eq, hall]
    exact ⟨rfl, rfl⟩
  · have hsum : n + 512 * ((length - n) / 512) + (length - n) % 512 = length := by omega
    have hfill := hwhole.fill (k := (length - n) % 512)
      (f := tmp disk behind (readSects disk ((length - n) / 512) r).currentSector) (by omega) ?_
    · rw [memcpy_eq (by omega), hfill, hwhole.sector_eq, hsum, hsect]
      exact ⟨rfl, rfl⟩
    · intro i hi
      have hbyte := hwhole.tmp_byte behind hst (m := 0) (i := i) (by omega) (by omega) (by omega)
      rwa [Nat.zero_add] at hbyte

/-- `read` with its bounds check and its `int` length resolved. -/
theorem read_within {length : UInt32} (hin : Within file (.read dst length)) :
    file.read disk behind mem dst length =
      let r := readHead disk behind file.cursor ⟨mem, file.currentSector, dst, length.toNat⟩
      let r' := readTail disk behind (readSects disk (toUint (r.len.tdiv 512)) r)
      (length.toNat, { file with
        currentSector := r'.currentSector, cursor := file.cursor + length }, r'.mem) := by
  obtain ⟨hsize, hlength⟩ := hin
  have hmax := file.size.toNat_lt
  have hlen : toInt length.toNat = length.toNat := CInt.toInt_of_fits (by omega) (by omega)
  have hend : toUint (file.cursor.toNat + (length.toNat : Int)) =
      file.cursor.toNat + length.toNat := by
    rw [CInt.toUint_of_nonneg (by omega) (by omega)]
    omega
  simp only [TarFile.read, hlen, hend, if_neg (Nat.not_lt.mpr hsize)]

theorem got_start (hfile : file.Aligned) {len : Int} :
    Got content file mem dst 0 ⟨mem, file.currentSector, dst, len⟩ where
  mem_eq := ByteMem.fill_zero.symm
  dstptr_eq := (UInt32.add_zero dst).symm
  sector_eq := hfile

/-- A read that finishes the sector it starts in. -/
theorem read_whole {length : UInt32} (hst : Stored disk content file) (hfile : file.Aligned)
    (hin : Within file (.read dst length))
    (hwhole : file.cursor.toNat % 512 = 0 ∨
      (512 ≤ file.cursor.toNat % 512 + length.toNat ∧
        file.cursor.toNat % 512 + length.toNat < 2147483648)) :
    file.read disk behind mem dst length =
      (length.toNat, { file with
        currentSector := file.sectorOf (file.cursor.toNat + length.toNat)
        cursor := file.cursor + length },
      mem.fill dst length.toNat fun i => content (file.cursor.toNat + i)) := by
  have hstart : Got content file mem dst 0 ⟨mem, file.currentSector, dst, length.toNat⟩ :=
    got_start hfile
  rw [read_within behind hin]
  obtain ⟨hsize, hlength⟩ := hin
  by_cases hmod : file.cursor.toNat % 512 = 0
  · obtain ⟨hmem, hsect⟩ := readTail_readSects behind hstart hst length.toNat (Nat.zero_le _) rfl
      hlength hmod hsize
    simp only [readHead, if_pos hmod]
    rw [hmem, hsect]
  · obtain ⟨hlong, hfits⟩ := hwhole.resolve_left hmod
    obtain ⟨hgot, hlen⟩ := readHead_got behind hstart hst length.toNat rfl hsize hlong hfits hmod
    obtain ⟨hmem, hsect⟩ := readTail_readSects behind hgot hst length.toNat (by omega) hlen hlength
      (by omega) hsize
    dsimp only
    rw [hmem, hsect]

/-- A read that starts inside a sector and does not finish it. -/
theorem read_short {length : UInt32} (hin : Within file (.read dst length))
    (hmod : file.cursor.toNat % 512 ≠ 0)
    (hshort : file.cursor.toNat % 512 + length.toNat < 512 ∨
      2147483648 ≤ file.cursor.toNat % 512 + length.toNat) :
    (file.read disk behind mem dst length).2.1 =
      { file with currentSector := file.currentSector + 1, cursor := file.cursor + length } := by
  rw [read_within behind hin, readHead_all behind length.toNat rfl hin.2 hmod hshort]
  rfl

/-- A seek within the file. -/
theorem seek_within {offset : Int32} (hin : Within file (.seek offset)) :
    (file.seek offset).1 = 1 ∧
      ((file.seek offset).2.cursor.toNat : Int) = offset.toInt ∧ (file.seek offset).2.Aligned := by
  obtain ⟨hlo, hhi⟩ := hin
  have hmax := file.size.toNat_lt
  have hcursor := CInt.toNat_toUInt32 hlo
  have hdiv : (offset / 512).toUInt32 = UInt32.ofNat (offset.toUInt32.toNat / 512) := by
    have htoInt : (offset / 512).toInt = offset.toInt / 512 := by
      rw [Int32.toInt_div_of_ne_right offset 512 (by decide), Int.tdiv_eq_ediv_of_nonneg hlo]
      rfl
    have hquot := CInt.toNat_toUInt32 (x := offset / 512) (by omega)
    apply UInt32.toNat_inj.mp
    rw [UInt32.toNat_ofNat']
    omega
  have hoffset : toUint offset.toInt = offset.toInt.toNat :=
    CInt.toUint_of_nonneg hlo (by omega)
  have hguard : ¬(offset.toInt < 0 ∨ file.size.toNat ≤ toUint offset.toInt) := by
    rw [hoffset]
    omega
  simp only [TarFile.seek, if_neg hguard]
  refine ⟨trivial, hcursor, ?_⟩
  rw [TarFile.Aligned, hdiv]
  rfl

/-- The place of the file on the device stays. -/
theorem read_place {length : UInt32} :
    (file.read disk behind mem dst length).2.1.headerSector = file.headerSector ∧
      (file.read disk behind mem dst length).2.1.size = file.size := by
  simp only [TarFile.read]
  generalize toUint (file.cursor.toNat + toInt length.toNat) = e
  by_cases hend : e > file.size.toNat
  · rw [if_pos hend]
    exact ⟨rfl, rfl⟩
  · rw [if_neg hend]
    exact ⟨rfl, rfl⟩

theorem seek_place {offset : Int32} :
    (file.seek offset).2.headerSector = file.headerSector ∧
      (file.seek offset).2.size = file.size := by
  rw [TarFile.seek]
  split
  · exact ⟨rfl, rfl⟩
  · exact ⟨rfl, rfl⟩

theorem Stored.congr {file' : TarFile} (h : Stored disk content file)
    (hplace : file'.headerSector = file.headerSector ∧ file'.size = file.size) :
    Stored disk content file' := by
  obtain ⟨hheader, hsize⟩ := hplace
  intro i hi
  rw [hsize] at hi
  rw [TarFile.sectorOf, hheader]
  exact h i hi

theorem perform_read {s : FileState} {length : UInt32} {r : Nat × TarFile × ByteMem}
    (hr : s.file.read disk behind s.mem dst length = r) :
    perform disk behind s (.read dst length) = ⟨r.2.1, r.2.2⟩ := by
  subst hr
  rfl

theorem Stored.perform {s : FileState} (h : Stored disk content s.file) (c : Call) :
    Stored disk content (perform disk behind s c).file := by
  cases c with
  | seek offset => exact h.congr seek_place
  | read dst length =>
    obtain ⟨r, hr⟩ : ∃ r, s.file.read disk behind s.mem dst length = r := ⟨_, rfl⟩
    have hplace := @read_place disk behind s.file s.mem dst length
    rw [hr] at hplace
    rw [perform_read behind hr]
    exact h.congr hplace

/-- **A call keeps the promise of the file exactly when it does not leave a sector that it started
inside unfinished.** -/
theorem fileOk_iff {s : FileState} (hst : Stored disk content s.file) (hfile : s.file.Aligned)
    (c : Call) : FileOk disk behind content s c ↔ ReadsWhole s c := by
  cases c with
  | seek offset =>
    refine ⟨fun _ => trivial, fun _ hin => ?_⟩
    obtain ⟨hret, hcursor, haligned⟩ := seek_within hin
    exact ⟨⟨hret, hcursor⟩, haligned⟩
  | read dst length =>
    have hcursor (hin : Within s.file (.read dst length)) :
        (s.file.cursor + length).toNat = s.file.cursor.toNat + length.toNat := by
      have hmax := s.file.size.toNat_lt
      rw [UInt32.toNat_add, Nat.mod_eq_of_lt (Nat.lt_of_le_of_lt hin.1 hmax)]
    constructor
    · intro hok hin
      by_contra hnot
      rw [not_or] at hnot
      obtain ⟨hmod, hshort⟩ := hnot
      have hafter := (hok hin).2
      rw [perform, TarFile.Aligned, read_short behind hin hmod (by omega), hfile, TarFile.sectorOf,
        TarFile.sectorOf, hcursor hin, UInt32.add_assoc, UInt32.add_right_inj] at hafter
      -- the cursor stays in the sector, or it goes on for at least `2^22` of them
      have hsect := congrArg UInt32.toNat hafter
      have hmax := s.file.size.toNat_lt
      have hsize := hin.1
      rw [UInt32.toNat_add, UInt32.toNat_ofNat', UInt32.toNat_ofNat', UInt32.toNat_one] at hsect
      omega
    · intro hwhole hin
      have hread := @read_whole disk behind content s.file s.mem _ _ hst hfile hin (hwhole hin)
      refine ⟨?_, ?_⟩
      · simp only [Delivers, hread]
        exact ⟨trivial, trivial, hcursor hin⟩
      · simp only [perform, hread, TarFile.Aligned, hcursor hin]
        rfl

end

/-- **A file of an archive behaves as a file in exactly the runs whose reads finish the sector they
start inside.** -/
theorem reads_faithful (disk : Disk) (behind content : Nat → UInt8) (s : FileState)
    (hst : Stored disk content s.file) (hfile : s.file.Aligned) (calls : List Call) :
    (openFile disk behind).Steps (FileOk disk behind content) s calls ↔
      (openFile disk behind).Steps ReadsWhole s calls := by
  refine Machine.steps_iff_steps (I := fun s => Stored disk content s.file ∧ s.file.Aligned)
    (fun s c hI => fileOk_iff behind hI.1 hI.2 c) ?_ ⟨hst, hfile⟩
  intro s c s' hI hok hstep
  simp only [openFile] at hstep
  split at hstep
  · rename_i hin
    cases hstep
    exact ⟨hI.1.perform behind c, (hok hin).2⟩
  · cases hstep

/-! ### A file of two sectors

The bytes of the first sector are 0, those of the second are 1. -/

def twoSectors : Nat → UInt8 := fun i => UInt8.ofNat (i / 512)

def twoSectorDisk : Disk := fun s _ => UInt8.ofNat (s.toNat - 2)

/-- The file as it is opened, its header in sector 1. -/
def twoSectorFile : FileState where
  file := { headerSector := 1, currentSector := 2, cursor := 0, size := 1024 }
  mem _ := 255

theorem twoSectorFile_stored : Stored twoSectorDisk twoSectors twoSectorFile.file := by
  intro i hi
  have hi : i < 1024 := hi
  have hsect : i / 512 = 0 ∨ i / 512 = 1 := by omega
  rw [twoSectorDisk, twoSectors, TarFile.sectorOf]
  rcases hsect with h | h
  · rw [h]
    rfl
  · rw [h]
    rfl

/-- Reads within one sector, whole sectors and across the boundary, with seeks in between. -/
theorem mixed_reads_faithful :
    (openFile twoSectorDisk fun _ => 0).Steps (FileOk twoSectorDisk (fun _ => 0) twoSectors)
      twoSectorFile
      [.read 0 10, .seek 512, .read 16 100, .seek 10, .read 0 600, .seek 0, .read 0 1024] :=
  (reads_faithful twoSectorDisk (fun _ => 0) twoSectors twoSectorFile twoSectorFile_stored rfl
    _).mpr (by decide +kernel)

/-- Three small reads in a row: the second one starts inside the first sector and leaves
`current_sector` behind it, so that the third one delivers a byte of the second sector. -/
theorem small_reads_astray :
    Stored twoSectorDisk twoSectors twoSectorFile.file ∧ twoSectorFile.file.Aligned ∧
      ¬(openFile twoSectorDisk fun _ => 0).Steps (FileOk twoSectorDisk (fun _ => 0) twoSectors)
        twoSectorFile [.read 0 10, .read 16 10, .read 32 10] ∧
      (∃ s ∈ (openFile twoSectorDisk fun _ => 0).exec twoSectorFile
        [.read 0 10, .read 16 10, .read 32 10], s.mem 32 = 1) ∧ twoSectors 20 = 0 := by
  refine ⟨twoSectorFile_stored, rfl, ?_, by decide +kernel, by decide⟩
  rintro ⟨-, hrest⟩
  have hin : Within twoSectorFile.file (.read 0 10) := by decide
  have hfirst : (openFile twoSectorDisk fun _ => 0).step twoSectorFile (.read 0 10) =
      some (perform twoSectorDisk (fun _ => 0) twoSectorFile (.read 0 10)) := by
    simp only [openFile, if_pos hin]
  obtain ⟨hsecond, -⟩ := hrest _ hfirst
  have haligned := (hsecond (by decide +kernel)).2
  revert haligned
  unfold TarFile.Aligned
  decide +kernel

end Shipwreck.Storage
