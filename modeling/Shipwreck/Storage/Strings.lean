import Shipwreck.Storage.Archive

/-!
# The string functions on memory

`string.cpp` as it runs: pointers into one memory of bytes, and the counters of the code's own types.
Every function takes four bytes at a time as long as it can and the rest one by one, with the counter
scaled in between:

    i:       0       1       2        i *= 4
    bytes:   0 1 2 3 4 5 6 7 8 9 ..   8  9  10
             \_word_/\_word_/         \_single_/

`strnlen` and `strncmp` are those of the archive, seen from the two pointers (`strnlen_eq`,
`strncmp_eq`); so that the answer of `strncmp` is zero exactly when the strings are the same up to the
first NUL or the length. `memcpy` and `memset` fill their buffer and nothing else.

A counter of type `int` is converted to `uint` wherever it is compared with a length.
-/

namespace Shipwreck.Storage

open CInt (forUint forInt)

/-- The word at `p`. -/
def word (mem : ByteMem) (p : UInt32) : BitVec 32 := ByteMem.loadWord (mem.view p) 0

namespace Strings

/-! ## The code -/

/-- The loop of `strnlen` from `i`, with at most `fuel` iterations. -/
def strnlenFrom (mem : ByteMem) (s len : UInt32) : Nat → Int32 → Int32
  | 0, i => i
  | fuel + 1, i =>
    if i.toUInt32 < len then
      if mem (s + i.toUInt32) = 0 then i else strnlenFrom mem s len fuel (i + 1)
    else i

/-- `strnlen`. -/
def strnlen (mem : ByteMem) (s len : UInt32) : Int32 := strnlenFrom mem s len len.toNat 0

/-- The first loop of `strncmp`: it returns a difference, or goes on with its counter. -/
def cmpWordsFrom (mem : ByteMem) (a b dwords : UInt32) : Nat → Int32 → Except (BitVec 32) Int32
  | 0, i => .ok i
  | fuel + 1, i =>
    if i.toUInt32 < dwords then
      let diff := word mem (a + 4 * i.toUInt32) - word mem (b + 4 * i.toUInt32)
      if diff ≠ 0 then .error diff else cmpWordsFrom mem a b dwords fuel (i + 1)
    else .ok i

/-- The second loop of `strncmp`. -/
def cmpBytesFrom (mem : ByteMem) (a b len : UInt32) : Nat → Int32 → BitVec 32
  | 0, _ => 0
  | fuel + 1, i =>
    if i.toUInt32 < len then
      let ai := mem (a + i.toUInt32)
      let bi := mem (b + i.toUInt32)
      let diff := BitVec.ofInt 32 (ai.toInt8.toInt - bi.toInt8.toInt)
      if diff ≠ 0 then diff
      else if ai = 0 then 0
      else cmpBytesFrom mem a b len fuel (i + 1)
    else 0

/-- `strncmp`; the bits of the result. -/
def strncmp (mem : ByteMem) (a b len : UInt32) : BitVec 32 :=
  let aLen := strnlen mem a len
  let dwords := (aLen / 4).toUInt32
  match cmpWordsFrom mem a b dwords dwords.toNat 0 with
  | .error diff => diff
  | .ok i =>
    let i := i * 4 -- the position of the character
    cmpBytesFrom mem a b len (len.toNat - i.toUInt32.toNat) i

/-- `memcpy`: the pointer it returns, and the memory. -/
def memcpy (mem : ByteMem) (dst src num : UInt32) : UInt32 × ByteMem :=
  let numDwords := num / 4
  let (i, mem) := forUint numDwords
    (fun i mem => mem.storeWord (dst + 4 * i) (word mem (src + 4 * i))) numDwords.toNat 0 mem
  let i := i * 4
  let (_, mem) := forUint num
    (fun i mem => Function.update mem (dst + i) (mem (src + i))) (num.toNat - i.toNat) i mem
  (dst, mem)

/-- `ch4`, four copies of the byte. -/
def ch4 (value : Int32) : BitVec 32 :=
  let ch4 := value.toBitVec &&& 0xFF
  let ch4 := ch4 ||| ch4 <<< 16
  ch4 ||| ch4 <<< 8

/-- `(char) value`. -/
def char (value : Int32) : UInt8 := value.toUInt32.toUInt8

/-- `memset`: the pointer it returns, and the memory. -/
def memset (mem : ByteMem) (buffer : UInt32) (value : Int32) (numChars : UInt32) :
    UInt32 × ByteMem :=
  let numDwords := numChars >>> 2
  let (i, mem) := forInt numDwords
    (fun i mem => mem.storeWord (buffer + 4 * i.toUInt32) (ch4 value)) numDwords.toNat 0 mem
  let i := i <<< 2
  let (_, mem) := forInt numChars
    (fun i mem => Function.update mem (buffer + i.toUInt32) (char value))
    (numChars.toNat - i.toUInt32.toNat) i mem
  (buffer, mem)

/-! ## `strnlen` and `strncmp` -/

section

variable {mem : ByteMem} {a b s len : UInt32}

/-- A counter is its number, and the next one the next number. -/
theorem ofNat_succ (i : Nat) : Int32.ofNat i + 1 = Int32.ofNat (i + 1) := (Int32.ofNat_add i 1).symm

theorem toNat_counter {i : Nat} (hi : i < 4294967296) : (Int32.ofNat i).toUInt32.toNat = i := by
  rw [Int32.toUInt32_ofNat', UInt32.toNat_ofNat_of_lt' hi]

theorem lt_iff {i : Nat} (hi : i ≤ len.toNat) : (Int32.ofNat i).toUInt32 < len ↔ i < len.toNat := by
  rw [UInt32.lt_iff_toNat_lt, toNat_counter (Nat.lt_of_le_of_lt hi len.toNat_lt)]

theorem strnlenFrom_eq {fuel i : Nat} (hi : i + fuel = len.toNat) :
    strnlenFrom mem s len fuel (Int32.ofNat i) =
      Int32.ofNat (Storage.strnlenFrom (mem.view s) fuel i) := by
  induction fuel generalizing i with
  | zero => rfl
  | succ fuel ih =>
    rw [strnlenFrom, Storage.strnlenFrom, if_pos ((lt_iff (by omega)).mpr (by omega)), ofNat_succ,
      ih (by omega)]
    show (if mem.view s i = 0 then _ else _) = _
    split <;> rfl

theorem strnlen_eq : strnlen mem s len = Int32.ofNat (Storage.strnlen (mem.view s) len.toNat) :=
  strnlenFrom_eq (Nat.zero_add _)

/-- The byte offset of a word. -/
theorem offset_eq (i : UInt32) : 4 * i = UInt32.ofNat (4 * i.toNat) := by
  rw [UInt32.ofNat_mul, UInt32.ofNat_toNat]
  rfl

theorem word_eq (p i : UInt32) :
    word mem (p + 4 * i) = ByteMem.loadWord (mem.view p) (4 * i.toNat) := by
  rw [word, ByteMem.loadWord_eq_iff]
  intro j _
  rw [offset_eq, ByteMem.view_add, Nat.zero_add]

theorem cmpWordsFrom_eq {dwords : UInt32} {fuel i : Nat} (hi : i + fuel = dwords.toNat) :
    cmpWordsFrom mem a b dwords fuel (Int32.ofNat i) =
      let diff := Storage.cmpWordsFrom (mem.view a) (mem.view b) fuel i
      if diff ≠ 0 then .error diff else .ok (Int32.ofNat dwords.toNat) := by
  have hdwords := dwords.toNat_lt
  induction fuel generalizing i with
  | zero =>
    rw [← hi]
    rfl
  | succ fuel ih =>
    rw [cmpWordsFrom, Storage.cmpWordsFrom, if_pos ((lt_iff (by omega)).mpr (by omega)), ofNat_succ,
      ih (by omega), word_eq, word_eq, toNat_counter (by omega)]
    by_cases hdiff : ByteMem.loadWord (mem.view a) (4 * i) - ByteMem.loadWord (mem.view b) (4 * i) = 0
    · simp only [hdiff, ne_eq, not_true_eq_false, if_false]
    · simp only [hdiff, ne_eq, not_false_eq_true, if_true]

theorem cmpBytesFrom_eq {fuel i : Nat} (hi : i + fuel = len.toNat) :
    cmpBytesFrom mem a b len fuel (Int32.ofNat i) =
      Storage.cmpBytesFrom (mem.view a) (mem.view b) fuel i := by
  induction fuel generalizing i with
  | zero => rfl
  | succ fuel ih =>
    rw [cmpBytesFrom, Storage.cmpBytesFrom, if_pos ((lt_iff (by omega)).mpr (by omega)), ofNat_succ,
      ih (by omega)]
    rfl

/-- The comparison on memory is the one of the two strings. -/
theorem strncmp_eq (hlen : len.toNat < 2147483648) :
    strncmp mem a b len = Storage.strncmp (mem.view a) (mem.view b) len.toNat := by
  obtain ⟨-, hle, -⟩ := strnlenFrom_spec (mem.view a) len.toNat 0
  rw [← Storage.strnlen] at hle
  obtain ⟨aLen, haLen⟩ : ∃ aLen, aLen = Storage.strnlen (mem.view a) len.toNat := ⟨_, rfl⟩
  rw [← haLen] at hle
  -- `a_len / 4` is a signed division, and its result is counted as `uint`
  have hdwords : (Int32.ofNat aLen / 4).toUInt32.toNat = aLen / 4 := by
    have hquot : (Int32.ofNat aLen / 4).toInt = (aLen : Int).tdiv 4 :=
      CInt.toInt_div_of_one_lt (Int32.toInt_ofNat_of_lt (by omega)) rfl (by decide)
    have hnonneg : 0 ≤ (aLen : Int).tdiv 4 := Int.tdiv_nonneg (by omega) (by decide)
    have hnat := CInt.toNat_toUInt32 (hquot ▸ hnonneg)
    rw [hquot] at hnat
    exact Int.ofNat_inj.mp hnat
  rw [strncmp, Storage.strncmp, strnlen_eq]
  simp only [← haLen]
  rw [show (0 : Int32) = Int32.ofNat 0 from rfl, cmpWordsFrom_eq (Nat.zero_add _), hdwords]
  simp only
  by_cases hdiff : Storage.cmpWordsFrom (mem.view a) (mem.view b) (aLen / 4) 0 = 0
  · have hscale : Int32.ofNat (aLen / 4) * 4 = Int32.ofNat (aLen / 4 * 4) := (Int32.ofNat_mul _ 4).symm
    have hnat : (Int32.ofNat (aLen / 4 * 4)).toUInt32.toNat = aLen / 4 * 4 :=
      toNat_counter (by omega)
    simp only [hdiff, ne_eq, not_true_eq_false, if_false]
    rw [hscale, hnat, cmpBytesFrom_eq (by omega)]
  · simp only [hdiff, ne_eq, not_false_eq_true, if_true]

/-- Two strings agree on every position below `len`, up to and including the first NUL. -/
def Same (f g : Bytes) (len : Nat) : Prop := ∀ j, j < len → (∀ k, k < j → f k ≠ 0) → f j = g j

instance {f g : Bytes} {len : Nat} : Decidable (Same f g len) :=
  inferInstanceAs (Decidable (∀ j, j < len → (∀ k, k < j → f k ≠ 0) → f j = g j))

/-- **`strncmp` finds two strings equal exactly when they are the same byte by byte.** -/
theorem strncmp_same_iff (hlen : len.toNat < 2147483648) :
    strncmp mem a b len = 0 ↔ Same (mem.view a) (mem.view b) len.toNat := by
  rw [strncmp_eq hlen]
  exact strncmp_eq_zero_iff

/-- `"horse"` and `"horse"`, with different bytes behind the NUL in the same word. -/
theorem strncmp_same_iff_horse :
    strncmp (fun p => [104, 111, 114, 115, 101, 0, 1, 2, 104, 111, 114, 115, 101, 0, 3, 4].getD p.toNat 9)
      0 8 20 = 0 :=
  (strncmp_same_iff (by decide)).mpr (by decide +kernel)

end

/-! ## `memcpy` -/

section

variable {mem : ByteMem} {dst src num : UInt32}

/-- The two buffers have no byte in common. -/
def Apart (dst src num : UInt32) : Prop :=
  ∀ i, i < num.toNat → ∀ j, j < num.toNat → dst + UInt32.ofNat i ≠ src + UInt32.ofNat j

instance : Decidable (Apart dst src num) :=
  inferInstanceAs (Decidable (∀ i, i < num.toNat → ∀ j, j < num.toNat →
    dst + UInt32.ofNat i ≠ src + UInt32.ofNat j))

/-- What has been copied does not change what is still to be copied. -/
theorem view_fill (h : Apart dst src num) {f : Nat → UInt8} {n j : Nat} (hn : n ≤ num.toNat)
    (hj : j < num.toNat) : (mem.fill dst n f).view src j = mem.view src j := by
  apply ByteMem.fill_of_ne
  intro i hi
  exact (h i (Nat.lt_of_lt_of_le hi hn) j hj).symm

/-- The first loop copies the whole words. -/
theorem copyWords_fill (h : Apart dst src num) :
    forUint (num / 4) (fun i mem => mem.storeWord (dst + 4 * i) (word mem (src + 4 * i)))
      (num / 4).toNat 0 mem = (num / 4, mem.fill dst (4 * (num / 4).toNat) (mem.view src)) := by
  have hnum := num.toNat_lt
  have hdwords : (num / 4).toNat = num.toNat / 4 := UInt32.toNat_div num 4
  apply CInt.forUint_eq fun k => mem.fill dst (4 * k) (mem.view src)
  · intro i hi
    have hlt : i.toNat < (num / 4).toNat := hi
    rw [word_eq, offset_eq, Nat.mul_succ]
    apply ByteMem.storeWord_fill (by omega)
    intro j hj
    rw [ByteMem.wordByte_loadWord _ _ hj]
    exact view_fill h (by omega) (by omega)
  · exact UInt32.zero_le
  · omega
  · simp

/-- The second loop copies what is left. -/
theorem copyBytes_fill (h : Apart dst src num) {i : UInt32} (hi : i ≤ num) :
    forUint num (fun i mem => Function.update mem (dst + i) (mem (src + i)))
      (num.toNat - i.toNat) i (mem.fill dst i.toNat (mem.view src)) =
      (num, mem.fill dst num.toNat (mem.view src)) := by
  have hnum := num.toNat_lt
  apply CInt.forUint_eq fun k => mem.fill dst k (mem.view src)
  · intro i hi
    have hlt : i.toNat < num.toNat := hi
    have hread : mem.fill dst i.toNat (mem.view src) (src + i) = mem.view src i.toNat := by
      rw [← view_fill h (Nat.le_of_lt hlt) hlt, ByteMem.view, UInt32.ofNat_toNat]
    have haddr : dst + i = dst + UInt32.ofNat i.toNat := by rw [UInt32.ofNat_toNat]
    rw [hread, haddr]
    exact ByteMem.update_fill (by omega)
  · exact hi
  · omega
  · rfl

/-- `memcpy` fills its destination with the bytes of the source. -/
theorem memcpy_fill (h : Apart dst src num) :
    memcpy mem dst src num = (dst, mem.fill dst num.toNat (mem.view src)) := by
  have hnum := num.toNat_lt
  have hdwords : (num / 4).toNat = num.toNat / 4 := UInt32.toNat_div num 4
  have hscale : (num / 4 * 4).toNat = 4 * (num / 4).toNat := by
    rw [UInt32.toNat_mul]
    show (num / 4).toNat * 4 % 4294967296 = _
    omega
  have hle : num / 4 * 4 ≤ num := by
    show (num / 4 * 4).toNat ≤ num.toNat
    omega
  rw [memcpy]
  simp only [copyWords_fill h]
  rw [← hscale, copyBytes_fill h hle]

end

/-! ## `memset` -/

section

variable {mem : ByteMem} {buffer num : UInt32} {value : Int32}

/-- Bit `i` of the first copy. -/
theorem getLsbD_low (w : BitVec 32) (i : Nat) : (w &&& 0xFF).getLsbD i = (decide (i < 8) && w.getLsbD i) := by
  have hmask : (0xFF : BitVec 32).getLsbD i = decide (i < 8) := by
    show (BitVec.ofNat 32 (2 ^ 8 - 1)).getLsbD i = decide (i < 8)
    rw [BitVec.getLsbD_ofNat, Nat.testBit_two_pow_sub_one]
    grind
  rw [BitVec.getLsbD_and, hmask, Bool.and_comm]

/-- Every byte of `ch4` is the byte to be stored. -/
theorem wordByte_ch4 {j : Nat} (hj : j < 4) : ByteMem.wordByte (ch4 value) j = char value := by
  apply UInt8.toBitVec_inj.mp
  apply BitVec.eq_of_getLsbD_eq
  intro b hb
  have hchar : (char value).toBitVec.getLsbD b = value.toBitVec.getLsbD b := by
    show (value.toBitVec.setWidth 8).getLsbD b = _
    rw [BitVec.getLsbD_setWidth, decide_eq_true hb, Bool.true_and]
  rw [hchar]
  simp only [ByteMem.wordByte, ch4, BitVec.getLsbD_extractLsb', BitVec.getLsbD_or,
    BitVec.getLsbD_shiftLeft, getLsbD_low]
  obtain rfl | rfl | rfl | rfl : j = 0 ∨ j = 1 ∨ j = 2 ∨ j = 3 := by omega
  · grind
  · grind
  · grind
  · grind

/-- `i <<= 2` on a counter. -/
theorem toNat_shiftLeft_two {i : UInt32} (hi : 4 * i.toNat < 4294967296) :
    (i.toInt32 <<< 2).toUInt32.toNat = 4 * i.toNat := by
  show (i.toBitVec <<< BitVec.smod 2#32 32).toNat = _
  have htwo : BitVec.smod 2#32 32 = 2#32 := by decide
  rw [htwo, BitVec.shiftLeft_eq', BitVec.toNat_shiftLeft, UInt32.toNat_toBitVec, Nat.shiftLeft_eq]
  show i.toNat * 4 % 4294967296 = _
  omega

/-- The first loop fills the whole words. -/
theorem setWords_fill {dwords : UInt32} (h : 4 * dwords.toNat < 4294967296) :
    forInt dwords (fun i mem => mem.storeWord (buffer + 4 * i.toUInt32) (ch4 value)) dwords.toNat 0 mem =
      (dwords.toInt32, mem.fill buffer (4 * dwords.toNat) fun _ => char value) := by
  apply CInt.forInt_eq fun k => mem.fill buffer (4 * k) fun _ => char value
  · intro i hi
    have hlt : i.toNat < dwords.toNat := hi
    rw [UInt32.toUInt32_toInt32, offset_eq, Nat.mul_succ]
    apply ByteMem.storeWord_fill (by omega)
    intro j hj
    exact wordByte_ch4 hj
  · exact UInt32.zero_le
  · omega
  · exact ByteMem.fill_zero.symm

/-- The second loop fills what is left. -/
theorem setBytes_fill {i : Int32} (hi : i.toUInt32 ≤ num) :
    forInt num (fun i mem => Function.update mem (buffer + i.toUInt32) (char value))
      (num.toNat - i.toUInt32.toNat) i (mem.fill buffer i.toUInt32.toNat fun _ => char value) =
      (num.toInt32, mem.fill buffer num.toNat fun _ => char value) := by
  have hnum := num.toNat_lt
  apply CInt.forInt_eq fun k => mem.fill buffer k fun _ => char value
  · intro i hi
    have hlt : i.toNat < num.toNat := hi
    have haddr : buffer + i = buffer + UInt32.ofNat i.toNat := by rw [UInt32.ofNat_toNat]
    rw [UInt32.toUInt32_toInt32, haddr]
    exact ByteMem.update_fill (by omega)
  · exact hi
  · omega
  · rfl

/-- `memset` fills its buffer with the low byte of the value. -/
theorem memset_fill :
    memset mem buffer value num = (buffer, mem.fill buffer num.toNat fun _ => char value) := by
  have hnum := num.toNat_lt
  have hdwords : (num >>> 2).toNat = num.toNat / 4 := by
    rw [UInt32.toNat_shiftRight, Nat.shiftRight_eq_div_pow]
    rfl
  have hscale : ((num >>> 2).toInt32 <<< 2).toUInt32.toNat = 4 * (num >>> 2).toNat :=
    toNat_shiftLeft_two (by omega)
  have hle : ((num >>> 2).toInt32 <<< 2).toUInt32 ≤ num := by
    show ((num >>> 2).toInt32 <<< 2).toUInt32.toNat ≤ num.toNat
    omega
  have hfits : 4 * (num >>> 2).toNat < 4294967296 := by omega
  rw [memset]
  simp only [setWords_fill hfits]
  rw [← hscale, setBytes_fill hle]

end

/-! ## Both, byte by byte -/

/-- `memcpy` on memory is the one that is given the bytes of its source. -/
theorem memcpy_eq_storage {mem : ByteMem} {dst src num : UInt32} (h : Apart dst src num) :
    (memcpy mem dst src num).2 = Storage.memcpy mem dst (mem.view src) num.toNat := by
  rw [memcpy_fill h, memcpy_eq (Nat.le_of_lt num.toNat_lt)]

/-- **`memcpy` and `memset` do what they are defined to do byte by byte.** -/
theorem copy_and_set_bytewise (mem : ByteMem) (p num : UInt32) :
    (∀ src, Apart p src num →
      (∀ i, i < num.toNat →
        (memcpy mem p src num).2 (p + UInt32.ofNat i) = mem (src + UInt32.ofNat i)) ∧
      ∀ a, (∀ i, i < num.toNat → a ≠ p + UInt32.ofNat i) → (memcpy mem p src num).2 a = mem a) ∧
    ∀ value,
      (∀ i, i < num.toNat → (memset mem p value num).2 (p + UInt32.ofNat i) = char value) ∧
      ∀ a, (∀ i, i < num.toNat → a ≠ p + UInt32.ofNat i) → (memset mem p value num).2 a = mem a := by
  have hnum := Nat.le_of_lt num.toNat_lt
  constructor
  · intro src h
    simp only [memcpy_fill h]
    exact ⟨fun i hi => ByteMem.fill_apply hi hnum, fun a ha => ByteMem.fill_of_ne ha⟩
  · intro value
    simp only [memset_fill]
    exact ⟨fun i hi => ByteMem.fill_apply hi hnum, fun a ha => ByteMem.fill_of_ne ha⟩

/-- Seven bytes, one word and three more; a value with bits above the low byte. -/
theorem copy_and_set_bytewise_seven :
    (memcpy (fun p => p.toUInt8) 20 4 7).2 26 = 10 ∧ (memset (fun _ => 0) 20 0x1FF 7).2 26 = 0xFF :=
  ⟨((copy_and_set_bytewise (fun p => p.toUInt8) 20 7).1 4 (by decide)).1 6 (by decide),
    ((copy_and_set_bytewise (fun _ => 0) 20 7).2 0x1FF).1 6 (by decide)⟩

end Strings

end Shipwreck.Storage
