import Shipwreck.Lib.Footprint
import Shipwreck.Storage.TarFile

/-!
# Reads that are refused

`TarFile::read` refuses a read that goes past the end of the file. The length comes from the user as
32 bits, is kept as an `int`, added to the cursor and compared as a `uint`:

    cursor + length      < 2^32       the sum is compared
    cursor + length      >= 2^32      what is left of it is compared: as a rule, the read is accepted

A length from `2^31` on is negative for everything that comes after the check. If the read starts inside a
sector, all its bytes are copied from the buffer of this sector, which ends long before them: this is a page
fault (`overruns_iff`). If it starts on a boundary, the number of whole sectors is one below `2^32`, or the
read stops after the last of its bytes that do not fill a sector.
-/

namespace Shipwreck.Storage

open CInt (toUint toInt)
open ByteMem (Stores span)

section

variable (disk : Disk) (file : TarFile) (dst length : UInt32)

/-- The read returns 0, and changes neither the file nor the memory. -/
def Refuses : Prop := ∀ mem, file.readOrFault disk mem dst length = some (0, file, mem)

/-- The read returns its length and stores as many bytes. -/
def Completes : Prop :=
  ∃ op, Stores op (span dst length.toNat) ∧
    ∀ mem, ∃ file', file.readOrFault disk mem dst length = some (length.toNat, file', op mem)

/-- A read past the end of the file is refused, and any other one is completed. -/
def ReadsCleanly : Prop :=
  (file.size.toNat < file.cursor.toNat + length.toNat → Refuses disk file dst length) ∧
    (file.cursor.toNat + length.toNat ≤ file.size.toNat → Completes disk file dst length)

end

/-- Where the sum of cursor and length is 32 bits long, the end of a read within the file, counted from the
beginning of the sector that it starts in, is an `int`; where it is longer, what is left of it is still past
the end. -/
def LengthOk (file : TarFile) (length : UInt32) : Prop :=
  (file.cursor.toNat + length.toNat ≤ file.size.toNat →
    file.cursor.toNat % 512 + length.toNat < 2147483648) ∧
  (4294967296 ≤ file.cursor.toNat + length.toNat →
    file.size.toNat < file.cursor.toNat + length.toNat - 4294967296)

instance (file : TarFile) (length : UInt32) : Decidable (LengthOk file length) :=
  inferInstanceAs (Decidable (_ ∧ _))

/-- The number of bytes that an accepted read stores. -/
def storedBytes (cursor length : UInt32) : Nat :=
  if cursor.toNat % 512 = 0 ∧ 2147483648 ≤ length.toNat then
    512 * toUint ((toInt length.toNat).tdiv 512) + length.toNat % 512
  else length.toNat

variable {disk : Disk} {behind : Nat → UInt8} {file : TarFile} {mem : ByteMem} {dst length cursor : UInt32}
  {r : Reading} {k : Nat}

/-! ## The check -/

theorem checked_end :
    toUint (file.cursor.toNat + toInt length.toNat) =
      (file.cursor.toNat + length.toNat) % 4294967296 := by
  unfold toUint toInt
  omega

variable (disk behind dst) in
/-- The check refuses the read. -/
theorem read_refused (h : file.size.toNat < (file.cursor.toNat + length.toNat) % 4294967296) (mem : ByteMem) :
    file.read disk behind mem dst length = (0, file, mem) := by
  rw [TarFile.read, checked_end]
  exact if_pos h

/-- The check lets the read pass. -/
theorem read_accepted (h : (file.cursor.toNat + length.toNat) % 4294967296 ≤ file.size.toNat) :
    file.read disk behind mem dst length =
      let r := readHead disk behind file.cursor ⟨mem, file.currentSector, dst, toInt length.toNat⟩
      let r' := readTail disk behind (readSects disk (toUint (r.len.tdiv 512)) r)
      (length.toNat, { file with
        currentSector := r'.currentSector, cursor := file.cursor + length }, r'.mem) := by
  rw [TarFile.read, checked_end]
  exact if_neg (Nat.not_lt.mpr h)

/-! ## What the parts of a read store -/

theorem readSects_place :
    (readSects disk k r).dstptr = r.dstptr + UInt32.ofNat (512 * k) ∧
      (readSects disk k r).currentSector = r.currentSector + UInt32.ofNat k := by
  induction k generalizing r with
  | zero => exact ⟨(UInt32.add_zero _).symm, (UInt32.add_zero _).symm⟩
  | succ k ih =>
    rw [readSects, ih.1, ih.2, Nat.mul_succ, Nat.add_comm (512 * k), Nat.add_comm k, UInt32.ofNat_add,
      UInt32.ofNat_add, ← UInt32.add_assoc, ← UInt32.add_assoc]
    exact ⟨rfl, rfl⟩

variable (disk) in
theorem readSects_stores :
    Stores (fun mem => (readSects disk k { r with mem := mem }).mem) (span r.dstptr (512 * k)) := by
  induction k generalizing r with
  | zero =>
    rw [Nat.mul_zero, ByteMem.span_zero]
    exact .nothing
  | succ k ih =>
    have hsect : Stores (fun mem => readsector disk mem r.dstptr r.currentSector) (span r.dstptr 512) :=
      .fill
    have hall := (ih (r := { r with
      currentSector := r.currentSector + 1, dstptr := r.dstptr + 512 })).comp hsect
    have hspan : span r.dstptr 512 ∪ span (r.dstptr + 512) (512 * k) = span r.dstptr (512 * (k + 1)) := by
      have hunion := ByteMem.span_union (p := r.dstptr) (n := 512) (k := 512 * k)
      rwa [Nat.add_comm 512, ← Nat.mul_succ] at hunion
    rw [hspan] at hall
    exact hall

theorem readTail_mem :
    (readTail disk behind r).mem =
      r.mem.fill r.dstptr (r.len % 512).toNat (tmp disk behind r.currentSector) := by
  have hlt : (r.len % 512).toNat < 512 := by omega
  rw [readTail]
  by_cases hzero : (r.len % 512).toNat = 0
  · simp only [hzero, if_pos, ByteMem.fill_zero]
  · simp only [if_neg hzero]
    exact memcpy_eq (by omega)

variable (disk behind) in
/-- Whole sectors, and the beginning of one more. -/
theorem rest_stores :
    Stores (fun mem => (readTail disk behind (readSects disk k { r with mem := mem })).mem)
      (span r.dstptr (512 * k + (r.len % 512).toNat)) := by
  have htail : Stores (fun mem => mem.fill (r.dstptr + UInt32.ofNat (512 * k)) (r.len % 512).toNat
      (tmp disk behind (r.currentSector + UInt32.ofNat k)))
      (span (r.dstptr + UInt32.ofNat (512 * k)) (r.len % 512).toNat) := .fill
  have hall := htail.comp (readSects_stores disk (k := k) (r := r))
  rw [ByteMem.span_union] at hall
  simp only [readTail_mem, readSects_place, readSects_len]
  exact hall

variable (disk behind) in
/-- What the part up to the boundary leaves. -/
theorem readHead_eq {n : Nat} {bytes : Int} (hmod : cursor.toNat % 512 ≠ 0)
    (hbytes : bytesToRead (cursor.toNat % 512) r.len = bytes) (hn : toUint bytes = n) :
    readHead disk behind cursor r =
      { mem := r.mem.fill r.dstptr n
          fun i => tmp disk behind r.currentSector (cursor.toNat % 512 + i)
        currentSector := r.currentSector + 1
        dstptr := r.dstptr + UInt32.ofNat n
        len := toInt (r.len - bytes) } := by
  have hlt : n ≤ 4294967296 := by
    rw [← hn]
    unfold toUint
    omega
  simp only [readHead, if_neg hmod, hbytes, hn]
  rw [memcpy_eq hlt]

/-! ## How many bytes -/

theorem storedBytes_aligned (h : cursor.toNat % 512 = 0) :
    storedBytes cursor length =
      512 * toUint ((toInt length.toNat).tdiv 512) + (toInt length.toNat % 512).toNat := by
  have hlength := length.toNat_lt
  rw [storedBytes]
  by_cases hlong : 2147483648 ≤ length.toNat
  · have hmod : (toInt length.toNat % 512).toNat = length.toNat % 512 := by
      unfold toInt
      omega
    rw [if_pos ⟨h, hlong⟩, hmod]
  · have hlen : toInt length.toNat = length.toNat := CInt.toInt_of_fits (by omega) (by omega)
    have hcount : toUint ((length.toNat : Int).tdiv 512) = length.toNat / 512 := by
      rw [Int.tdiv_eq_ediv_of_nonneg (by omega), CInt.toUint_of_nonneg (by omega) (by omega)]
      omega
    rw [if_neg (by omega), hlen, hcount]
    omega

/-- The part up to the boundary, when the read goes on behind it. -/
theorem head_bytes_long {m : Nat} (hm : m < 512) (hfits : m + length.toNat < 2147483648)
    (hlong : 512 ≤ m + length.toNat) :
    bytesToRead m (toInt length.toNat) = (512 - m : Nat) := by
  have hlen : toInt length.toNat = length.toNat := CInt.toInt_of_fits (by omega) (by omega)
  have hend : toInt (m + (length.toNat : Int)) = m + length.toNat :=
    CInt.toInt_of_fits (by omega) (by omega)
  have hmax : (if (m : Int) + length.toNat > 512 then 512 else (m : Int) + length.toNat) = 512 := by
    split <;> omega
  rw [bytesToRead, hlen]
  simp only [hend, hmax]
  rw [CInt.toInt_of_fits (by omega) (by omega)]
  omega

/-- Otherwise all bytes are taken from the sector that the read starts in. -/
theorem head_bytes_short {m : Nat} (hm : m < 512)
    (hshort : m + length.toNat < 512 ∨ 2147483648 ≤ m + length.toNat) :
    bytesToRead m (toInt length.toNat) = toInt length.toNat := by
  have hlength := length.toNat_lt
  have hend : ¬ toInt (m + toInt length.toNat) > 512 := by
    unfold toInt
    omega
  simp only [bytesToRead, if_neg hend]
  unfold toInt
  omega

variable (disk behind dst) in
/-- The parts of a read one after another, with `n` bytes up to the boundary. -/
theorem parts_store {n : Nat} {bytes : Int} (cs : UInt32) {len : Int} (hmod : cursor.toNat % 512 ≠ 0)
    (hbytes : bytesToRead (cursor.toNat % 512) len = bytes) (hn : toUint bytes = n) :
    Stores (fun mem =>
      let r := readHead disk behind cursor ⟨mem, cs, dst, len⟩
      (readTail disk behind (readSects disk (toUint (r.len.tdiv 512)) r)).mem)
      (span dst (n + (512 * toUint ((toInt (len - bytes)).tdiv 512) + (toInt (len - bytes) % 512).toNat))) := by
  have hhead : Stores (fun mem => mem.fill dst n fun i => tmp disk behind cs (cursor.toNat % 512 + i))
      (span dst n) := .fill
  have hrest := rest_stores disk behind (k := toUint ((toInt (len - bytes)).tdiv 512))
    (r := ⟨fun _ => 0, cs + 1, dst + UInt32.ofNat n, toInt (len - bytes)⟩)
  have hall := hrest.comp hhead
  rw [ByteMem.span_union] at hall
  have hop (mem : ByteMem) := readHead_eq disk behind (r := ⟨mem, cs, dst, len⟩) hmod hbytes hn
  simp only [hop]
  exact hall

/-- On a boundary there are whole sectors and the beginning of the last one. -/
theorem parts_store_aligned {cs : UInt32} {len : Int} (hmod : cursor.toNat % 512 = 0) :
    Stores (fun mem =>
      let r := readHead disk behind cursor ⟨mem, cs, dst, len⟩
      (readTail disk behind (readSects disk (toUint (r.len.tdiv 512)) r)).mem)
      (span dst (512 * toUint (len.tdiv 512) + (len % 512).toNat)) := by
  have hrest := rest_stores disk behind (k := toUint (len.tdiv 512))
    (r := ⟨fun _ => 0, cs, dst, len⟩)
  have hop (mem : ByteMem) : readHead disk behind cursor ⟨mem, cs, dst, len⟩ = ⟨mem, cs, dst, len⟩ := by
    rw [readHead]
    exact if_pos hmod
  simp only [hop]
  exact hrest

/-- The whole read, when it starts inside a sector. -/
theorem length_parts (length : UInt32) {m : Nat} (hm : m < 512) :
    ∃ bytes n, bytesToRead m (toInt length.toNat) = bytes ∧ toUint bytes = n ∧
      n + (512 * toUint ((toInt (toInt length.toNat - bytes)).tdiv 512) +
        (toInt (toInt length.toNat - bytes) % 512).toNat) = length.toNat := by
  have hlength := length.toNat_lt
  by_cases hlong : 512 ≤ m + length.toNat ∧ m + length.toNat < 2147483648
  · -- across the boundary
    refine ⟨_, 512 - m, head_bytes_long hm hlong.2 hlong.1, CInt.toUint_of_nonneg (by omega) (by omega), ?_⟩
    have hlen : toInt (toInt length.toNat - (512 - m : Nat)) = (length.toNat - (512 - m) : Nat) := by
      unfold toInt
      omega
    have hcount : toUint (((length.toNat - (512 - m) : Nat) : Int).tdiv 512) =
        (length.toNat - (512 - m)) / 512 := by
      rw [Int.tdiv_eq_ediv_of_nonneg (by omega), CInt.toUint_of_nonneg (by omega) (by omega)]
      omega
    rw [hlen, hcount]
    omega
  · -- from the sector that the read starts in
    refine ⟨_, length.toNat, head_bytes_short hm (by omega), ?_, ?_⟩
    · unfold toUint toInt
      omega
    · have hzero : 512 * toUint ((toInt 0).tdiv 512) + (toInt 0 % 512).toNat = 0 := by decide
      rw [Int.sub_self, hzero, Nat.add_zero]

variable (disk behind dst) in
/-- **The bytes of an accepted read.** -/
theorem read_stores (h : (file.cursor.toNat + length.toNat) % 4294967296 ≤ file.size.toNat) :
    Stores (fun mem => (file.read disk behind mem dst length).2.2)
      (span dst (storedBytes file.cursor length)) := by
  have hm : file.cursor.toNat % 512 < 512 := Nat.mod_lt _ (by decide)
  simp only [read_accepted h]
  by_cases hmod : file.cursor.toNat % 512 = 0
  · rw [storedBytes_aligned hmod]
    exact parts_store_aligned hmod
  · obtain ⟨bytes, n, hbytes, hn, hsum⟩ := length_parts length hm
    have hparts := parts_store disk behind dst file.currentSector hmod hbytes hn
    rw [hsum] at hparts
    rw [storedBytes, if_neg (mt And.left hmod)]
    exact hparts

/-- What becomes of the file does not depend on the memory. -/
theorem read_file_eq (mem mem' : ByteMem) :
    (file.read disk behind mem dst length).2.1 = (file.read disk behind mem' dst length).2.1 := by
  by_cases h : file.size.toNat < (file.cursor.toNat + length.toNat) % 4294967296
  · rw [read_refused disk behind dst h mem, read_refused disk behind dst h mem']
  · have htail (r : Reading) : (readTail disk behind r).currentSector = r.currentSector := by
      rw [readTail]
      by_cases hzero : (r.len % 512).toNat = 0
      · simp only [if_pos hzero]
      · simp only [if_neg hzero]
    obtain ⟨len, hlen⟩ : ∃ len, toInt length.toNat = len := ⟨_, rfl⟩
    have hhead : (readHead disk behind file.cursor ⟨mem, file.currentSector, dst, len⟩).currentSector =
          (readHead disk behind file.cursor ⟨mem', file.currentSector, dst, len⟩).currentSector ∧
        (readHead disk behind file.cursor ⟨mem, file.currentSector, dst, len⟩).len =
          (readHead disk behind file.cursor ⟨mem', file.currentSector, dst, len⟩).len := by
      rw [readHead, readHead]
      by_cases hmod : file.cursor.toNat % 512 = 0
      · simp only [if_pos hmod]
        exact ⟨trivial, trivial⟩
      · simp only [if_neg hmod]
        exact ⟨trivial, trivial⟩
    rw [read_accepted (Nat.not_lt.mp h), read_accepted (Nat.not_lt.mp h)]
    simp only [hlen, htail, readSects_place, hhead]

/-- An accepted read stores its length exactly if this is shorter than `2^31` or it starts inside a sector. -/
theorem span_storedBytes_iff :
    span dst (storedBytes cursor length) = span dst length.toNat ↔
      length.toNat < 2147483648 ∨ cursor.toNat % 512 ≠ 0 := by
  have hlength := length.toNat_lt
  rw [ByteMem.span_eq_iff]
  by_cases hbad : cursor.toNat % 512 = 0 ∧ 2147483648 ≤ length.toNat
  · have hcount : toUint ((toInt length.toNat).tdiv 512) = 0 ∨
        4290772992 ≤ toUint ((toInt length.toNat).tdiv 512) := by
      have hlen : toInt length.toNat = -((4294967296 - length.toNat : Nat) : Int) := by
        unfold toInt
        omega
      rw [hlen, Int.neg_tdiv, Int.tdiv_eq_ediv_of_nonneg (by omega)]
      unfold toUint
      omega
    rw [storedBytes, if_pos hbad]
    omega
  · rw [storedBytes, if_neg hbad]
    omega

/-! ## The page fault -/

/-- The copy goes on behind `tmp` exactly if the read starts inside a sector and its end is no `int`. -/
theorem overruns_iff :
    file.Overruns length ↔
      file.cursor.toNat % 512 ≠ 0 ∧ 2147483648 ≤ file.cursor.toNat % 512 + length.toNat := by
  have hlength := length.toNat_lt
  have hm : file.cursor.toNat % 512 < 512 := Nat.mod_lt _ (by decide)
  rw [TarFile.Overruns]
  by_cases hlong : 512 ≤ file.cursor.toNat % 512 + length.toNat ∧
      file.cursor.toNat % 512 + length.toNat < 2147483648
  · rw [head_bytes_long hm hlong.2 hlong.1, CInt.toUint_of_nonneg (by omega) (by omega)]
    omega
  · have hcount : toUint (toInt length.toNat) = length.toNat := by
      unfold toUint toInt
      omega
    rw [head_bytes_short hm (by omega), hcount]
    omega

/-- What the stack holds behind `tmp` is of no importance to any other read. -/
theorem read_behind (h : ¬ file.Overruns length) (behind behind' : Nat → UInt8) (mem : ByteMem) :
    file.read disk behind mem dst length = file.read disk behind' mem dst length := by
  have htmp {s : UInt32} {i : Nat} (hi : i < 512) : tmp disk behind s i = tmp disk behind' s i := by
    rw [tmp, tmp, if_pos hi, if_pos hi]
  have htail (r : Reading) : readTail disk behind r = readTail disk behind' r := by
    have hmod : (r.len % 512).toNat < 512 := by omega
    rw [readTail, readTail]
    by_cases hzero : (r.len % 512).toNat = 0
    · simp only [if_pos hzero]
    · simp only [if_neg hzero]
      rw [memcpy_eq (by omega), memcpy_eq (by omega)]
      congr 1
      exact ByteMem.fill_congr fun i hi => htmp (Nat.lt_trans hi hmod)
  have hhead : readHead disk behind file.cursor ⟨mem, file.currentSector, dst, toInt length.toNat⟩ =
      readHead disk behind' file.cursor ⟨mem, file.currentSector, dst, toInt length.toNat⟩ := by
    by_cases hmod : file.cursor.toNat % 512 = 0
    · rw [readHead, readHead]
      simp only [if_pos hmod]
    · have hinside : file.cursor.toNat % 512 +
          toUint (bytesToRead (file.cursor.toNat % 512) (toInt length.toNat)) ≤ 512 :=
        Nat.not_lt.mp fun hlt => h ⟨hmod, hlt⟩
      have hfill : mem.fill dst (toUint (bytesToRead (file.cursor.toNat % 512) (toInt length.toNat)))
          (fun i => tmp disk behind file.currentSector (file.cursor.toNat % 512 + i)) =
          mem.fill dst (toUint (bytesToRead (file.cursor.toNat % 512) (toInt length.toNat)))
            fun i => tmp disk behind' file.currentSector (file.cursor.toNat % 512 + i) :=
        ByteMem.fill_congr fun i hi => htmp (Nat.lt_of_lt_of_le (Nat.add_lt_add_left hi _) hinside)
      rw [readHead_eq disk behind hmod rfl rfl, readHead_eq disk behind' hmod rfl rfl]
      simp only [hfill]
  rw [TarFile.read, TarFile.read]
  simp only [hhead, htail]

/-- A read that the check refuses. -/
theorem readOrFault_refused (h : file.size.toNat < (file.cursor.toNat + length.toNat) % 4294967296) (mem : ByteMem) :
    file.readOrFault disk mem dst length = some (0, file, mem) := by
  rw [TarFile.readOrFault, checked_end, if_neg fun hboth => Nat.not_le.mpr h hboth.1, read_refused _ _ _ h]

/-- A read that the check lets pass returns if it does not end in a page fault. -/
theorem readOrFault_accepted (h : (file.cursor.toNat + length.toNat) % 4294967296 ≤ file.size.toNat)
    (mem : ByteMem) : file.readOrFault disk mem dst length =
      if file.Overruns length then none else some (file.read disk (fun _ => 0) mem dst length) := by
  rw [TarFile.readOrFault, checked_end]
  simp only [h, true_and]

variable (disk dst) in
/-- The reads that the check lets pass: the memory is written to as `op` says. -/
theorem exists_read (h : (file.cursor.toNat + length.toNat) % 4294967296 ≤ file.size.toNat) :
    ∃ op, Stores op (span dst (storedBytes file.cursor length)) ∧ ∀ mem, ∃ file',
      file.readOrFault disk mem dst length =
        if file.Overruns length then none else some (length.toNat, file', op mem) := by
  refine ⟨_, read_stores disk (fun _ => 0) dst h, fun mem => ⟨(file.read disk (fun _ => 0) mem dst length).2.1, ?_⟩⟩
  obtain ⟨r, hr⟩ : ∃ r, file.read disk (fun _ => 0) mem dst length = r := ⟨_, rfl⟩
  have hret : r.1 = length.toNat := by rw [← hr, read_accepted h]
  rw [readOrFault_accepted h, hr, ← hret]

/-- Such a read is completed if it returns and stores its length. -/
theorem completes_iff (h : (file.cursor.toNat + length.toNat) % 4294967296 ≤ file.size.toNat) :
    Completes disk file dst length ↔
      ¬ file.Overruns length ∧ span dst (storedBytes file.cursor length) = span dst length.toNat := by
  obtain ⟨op, hop, hread⟩ := exists_read disk dst h
  constructor
  · rintro ⟨op', hop', hread'⟩
    have hreturns : ¬ file.Overruns length := by
      intro hfault
      obtain ⟨file₁, hnone⟩ := hread fun _ => 0
      obtain ⟨file₂, hsome⟩ := hread' fun _ => 0
      rw [hnone, if_pos hfault] at hsome
      cases hsome
    have hsame : op = op' := by
      funext mem
      obtain ⟨file₁, hleft⟩ := hread mem
      obtain ⟨file₂, hright⟩ := hread' mem
      rw [hleft, if_neg hreturns, Option.some.injEq, Prod.mk.injEq, Prod.mk.injEq] at hright
      exact hright.2.2
    exact ⟨hreturns, (hsame ▸ hop).unique hop'⟩
  · rintro ⟨hreturns, hspan⟩
    simp only [if_neg hreturns] at hread
    exact ⟨op, hspan ▸ hop, hread⟩

/-- **`read` is clean** exactly for these lengths. -/
theorem reads_cleanly_iff (disk : Disk) (file : TarFile) (dst length : UInt32) :
    ReadsCleanly disk file dst length ↔ LengthOk file length := by
  have hlength := length.toNat_lt
  have hcursor := file.cursor.toNat_lt
  have hsize := file.size.toNat_lt
  constructor
  · rintro ⟨hrefuses, hcompletes⟩
    constructor
    · intro hin
      obtain ⟨hreturns, hspan⟩ := (completes_iff (by omega)).mp (hcompletes hin)
      rw [overruns_iff] at hreturns
      have hshort := span_storedBytes_iff.mp hspan
      omega
    · intro hlong
      by_contra hin
      -- the rest of the sum is within the file: the read returns its length, which is not 0, or not at all
      obtain ⟨op, -, hread⟩ := exists_read disk dst
        (show (file.cursor.toNat + length.toNat) % 4294967296 ≤ file.size.toNat by omega)
      obtain ⟨file', hread⟩ := hread fun _ => 0
      rw [hrefuses (by omega)] at hread
      by_cases hfault : file.Overruns length
      · rw [if_pos hfault] at hread
        cases hread
      · rw [if_neg hfault, Option.some.injEq, Prod.mk.injEq] at hread
        omega
  · rintro ⟨hshort, hlong⟩
    constructor
    · intro hpast mem
      exact readOrFault_refused (by omega) mem
    · intro hin
      have hend := hshort hin
      refine (completes_iff (by omega)).mpr ⟨fun hfault => ?_, span_storedBytes_iff.mpr (by omega)⟩
      exact absurd (overruns_iff.mp hfault).2 (Nat.not_le.mpr hend)

/-- A file of two sectors, with the cursor at the second one. -/
def secondSector : TarFile where
  headerSector := 1
  currentSector := 3
  cursor := 512
  size := 1024

/-- A read of `2^32 - 12` bytes is accepted. -/
theorem wrapped_read_accepted :
    ¬ ∀ (disk : Disk) (file : TarFile) (dst length : UInt32), ReadsCleanly disk file dst length := by
  intro hall
  obtain ⟨op, -, hread⟩ := exists_read (fun _ _ => 0) 0
    (show (secondSector.cursor.toNat + (0xFFFFFFF4 : UInt32).toNat) % 4294967296 ≤ secondSector.size.toNat by decide)
  obtain ⟨file', hread⟩ := hread fun _ => 0
  rw [(hall (fun _ _ => 0) secondSector 0 0xFFFFFFF4).1 (by decide), if_neg (by decide), Option.some.injEq,
    Prod.mk.injEq] at hread
  exact absurd hread.1 (by decide)

end Shipwreck.Storage
