import Shipwreck.Lib.Footprint
import Shipwreck.Lib.Numeral
import Shipwreck.Storage.Symbols

/-!
# Printing

`sprint` of `std/string.h` with its overloads, and the two functions that print through a buffer of 64
bytes: `kprint` in the kernel and `print` in user programs. The arguments of a call are a list; each
overload writes at `dst`, which it moves on, and takes what it has written off `len`:

    dst ------------------------> dst'
     | 'x' '=' | '0' 'x' '1' 'F' |         len' = len - 6
       string    hex

What is written is a prefix followed by a numeral (`Arg.lead`, `Arg.number`). When the space ends inside
the prefix, the rest is cut off at the end; but a numeral that does not fit loses its first digits
(`cut`). The strings of a call are not in the buffer.
-/

namespace Shipwreck.Print

open Numeral (digitChar numeral)
open Storage (CString)

/-! ## `sprint` -/

/-- What a call has made of the memory, `dst` and `len`, and what it returns. -/
structure Printed where
  mem : ByteMem
  dst : UInt32
  len : Int32
  ret : Int32

section

variable (mem : ByteMem) (dst : UInt32) (len : Int32)

/-- `sprint(dst, len, char)`. -/
def sprintChar (c : UInt8) : Printed :=
  if len ≤ 0 then ⟨mem, dst, len, 0⟩
  else ⟨Function.update mem dst c, dst + 1, len - 1, 1⟩

/-- The loop of `sprint(dst, len, str)` from `i`, where `chars` are the rest of the string. -/
def strFrom (mem : ByteMem) : List UInt8 → Int32 → Int32 × ByteMem
  | [], i => (i, mem)
  | c :: chars, i =>
    if i < len then strFrom (Function.update mem (dst + i.toUInt32) c) chars (i + 1) else (i, mem)

/-- `sprint(dst, len, const char *)`. -/
def sprintStr (str : CString) : Printed :=
  if len ≤ 0 then ⟨mem, dst, len, 0⟩
  else
    let (i, mem) := strFrom dst len mem str.chars 0
    ⟨mem, dst + i.toUInt32, len - i, i⟩

/-- The first loop of `_sprint_radix`: the characters in `tmp_str`. A number has at most 32 digits. -/
def tmpStr (radix : UInt32) : Nat → UInt32 → List UInt8
  | 0, _ => []
  | left + 1, num =>
    let digit := num % radix
    let num := num / radix
    digitChar digit.toNat :: if num ≠ 0 then tmpStr radix left num else []

/-- The second loop: `tmp_str` is copied, last character first. -/
def copyDigits (tmp : List UInt8) (digitsPrinted : Nat) : ByteMem :=
  (List.range digitsPrinted).foldl
    (fun mem i => Function.update mem (dst + UInt32.ofNat i) (tmp.getD (digitsPrinted - i - 1) 0)) mem

/-- `_sprint_radix`. -/
def sprintRadix (num : UInt32) (radix : UInt32) : Printed :=
  if len ≤ 0 then ⟨mem, dst, len, 0⟩
  else
    let tmp := tmpStr radix 32 num
    let digitsPrinted := if len.toInt < tmp.length then len.toInt.toNat else tmp.length
    ⟨copyDigits mem dst tmp digitsPrinted, dst + UInt32.ofNat digitsPrinted,
      len - Int32.ofNat digitsPrinted, Int32.ofNat digitsPrinted⟩

/-- `_sprint_dec`. -/
def sprintDec (num : UInt32) : Printed := sprintRadix mem dst len num 10

/-- `_sprint_hex`. -/
def sprintHex (num : UInt32) : Printed := sprintRadix mem dst len num 16

/-- An argument, by its type. -/
inductive Arg where
  | char (c : UInt8)
  | uchar (c : UInt8)
  | str (s : CString)
  | ptr (p : UInt32)
  | uint (num : UInt32)
  | short (num : Int16)
  | ushort (num : UInt16)
  | int (num : Int32)
  | hex (num : Int32)

/-- `'-'`. -/
def minus : UInt8 := 45

/-- `"0x"`. -/
def hexPrefix : CString := ⟨[48, 120], by simp⟩

/-- One call behind another; the results are added. -/
def Printed.andThen (first : Printed) (rest : ByteMem → UInt32 → Int32 → Printed) : Printed :=
  let r := rest first.mem first.dst first.len
  { r with ret := first.ret + r.ret }

/-- The overloads of `sprint` for one argument. -/
def sprintArg : Arg → Printed
  | .char c => sprintChar mem dst len c
  | .uchar c => sprintChar mem dst len c
  | .str s => sprintStr mem dst len s
  | .ptr p => sprintRadix mem dst len p 16
  | .uint num => sprintDec mem dst len num
  | .short num => sprintDec mem dst len num.toInt32.toUInt32
  | .ushort num => sprintDec mem dst len num.toUInt32
  | .int num =>
    if num < 0 then
      (sprintChar mem dst len minus).andThen fun mem dst len => sprintDec mem dst len (-num).toUInt32
    else sprintDec mem dst len num.toUInt32
  | .hex num =>
    if len ≤ 0 then ⟨mem, dst, len, 0⟩
    else
      (sprintStr mem dst len hexPrefix).andThen fun mem dst len => sprintHex mem dst len num.toUInt32

/-- `sprint(dst, len, first, rest...)`. -/
def sprint (mem : ByteMem) (dst : UInt32) (len : Int32) : List Arg → Printed
  | [] => ⟨mem, dst, len, 0⟩
  | first :: rest =>
    (sprintArg mem dst len first).andThen fun mem dst len => sprint mem dst len rest

end

/-! ## `kprint` and `print` -/

/-- The memory behind a call, what the device or the system call is given, and the result. -/
structure Output where
  mem : ByteMem
  written : Option (List UInt8)
  ret : Int32

/-- The bytes at `p`. -/
def textAt (mem : ByteMem) (p : UInt32) (n : Nat) : List UInt8 := (List.range n).map (mem.view p)

/-- `MAX_PRINT_CHARS`. -/
def maxPrintChars : Int32 := 64

/-- `kprint` with its `print_buffer` at `buffer`; `write` is what the device returns. -/
def kprint (write : List UInt8 → Int32) (mem : ByteMem) (buffer : UInt32) (args : List Arg) : Output :=
  let r := sprint mem buffer maxPrintChars args
  let len := r.ret
  let mem := Function.update r.mem (buffer + len.toUInt32) 0
  if len > 0 then
    let text := textAt mem buffer len.toUInt32.toNat
    ⟨mem, some text, write text⟩
  else ⟨mem, none, len⟩

/-- `print`, with its `print_buffer` at `buffer`. -/
def print (mem : ByteMem) (buffer : UInt32) (args : List Arg) : Output :=
  let r := sprint mem buffer maxPrintChars args
  let len := r.ret
  let mem := Function.update r.mem (buffer + len.toUInt32) 0
  if len > 0 then ⟨mem, some (textAt mem buffer len.toUInt32.toNat), len⟩
  else ⟨mem, none, len⟩

/-! ## What is written -/

/-- What stands before the digits: all of a character or a string, the sign, or `0x`. -/
def Arg.lead : Arg → List UInt8
  | .char c => [c]
  | .uchar c => [c]
  | .str s => s.chars
  | .int num => if num < 0 then [minus] else []
  | .hex _ => hexPrefix.chars
  | _ => []

/-- The digits. -/
def Arg.number : Arg → List UInt8
  | .ptr p => numeral 16 p.toNat
  | .uint num => numeral 10 num.toNat
  | .short num => numeral 10 num.toInt32.toUInt32.toNat
  | .ushort num => numeral 10 num.toNat
  | .int num => numeral 10 num.toInt.natAbs
  | .hex num => numeral 16 num.toUInt32.toNat
  | _ => []

/-- An argument written out in full. -/
def Arg.render (a : Arg) : List UInt8 := a.lead ++ a.number

/-- All arguments written out in full, one behind the other. -/
def rendering (args : List Arg) : List UInt8 := args.flatMap Arg.render

/-- What `_sprint_radix` keeps of a numeral in a space of `n`: its end. -/
def cut (n : Nat) (digits : List UInt8) : List UInt8 := digits.drop (digits.length - n)

/-- What is written of one argument in a space of `n`. -/
def Arg.emit (n : Nat) (a : Arg) : List UInt8 := a.lead.take n ++ cut (n - a.lead.length) a.number

/-- What is written of a list of arguments. -/
def emits : Nat → List Arg → List UInt8
  | _, [] => []
  | n, a :: args => a.emit n ++ emits (n - (a.emit n).length) args

theorem length_cut (n : Nat) (digits : List UInt8) : (cut n digits).length = min n digits.length := by
  rw [cut, List.length_drop]
  omega

theorem length_emit (n : Nat) (a : Arg) : (a.emit n).length = min n a.render.length := by
  rw [Arg.emit, Arg.render, List.length_append, List.length_append, List.length_take, length_cut]
  omega

theorem emit_of_fits {n : Nat} {a : Arg} (h : a.render.length ≤ n) : a.emit n = a.render := by
  rw [Arg.render, List.length_append] at h
  rw [Arg.emit, Arg.render, cut, List.take_of_length_le (by omega)]
  rw [show a.number.length - (n - a.lead.length) = 0 by omega, List.drop_zero]

/-- All the space is used that is needed. -/
theorem length_emits (n : Nat) (args : List Arg) : (emits n args).length = min n (rendering args).length := by
  induction args generalizing n with
  | nil => exact (Nat.min_zero n).symm
  | cons a args ih =>
    rw [emits, rendering, List.flatMap_cons, List.length_append, List.length_append, ih, length_emit,
      ← rendering]
    omega

theorem emits_of_fits {n : Nat} {args : List Arg} (h : (rendering args).length ≤ n) :
    emits n args = rendering args := by
  induction args generalizing n with
  | nil => rfl
  | cons a args ih =>
    rw [rendering, List.flatMap_cons, List.length_append, ← rendering] at h
    have ha : a.emit n = a.render := emit_of_fits (by omega)
    rw [emits, rendering, List.flatMap_cons, ha, ih (by omega), ← rendering]

/-! ## What a call does -/

section

variable {mem : ByteMem} {dst : UInt32} {len : Int32}

/-- A call that writes this text. -/
def wrote (mem : ByteMem) (dst : UInt32) (len : Int32) (text : List UInt8) : Printed where
  mem := mem.fill dst text.length fun i => text.getD i 0
  dst := dst + UInt32.ofNat text.length
  len := len - Int32.ofNat text.length
  ret := Int32.ofNat text.length

theorem wrote_nil : wrote mem dst len [] = ⟨mem, dst, len, 0⟩ := by
  simp [wrote]

/-- Two texts one behind the other are one text. -/
theorem wrote_andThen {text text' : List UInt8} (h : text.length + text'.length ≤ 4294967296) :
    (wrote mem dst len text).andThen (fun mem dst len => wrote mem dst len text') =
      wrote mem dst len (text ++ text') := by
  have hmem : (mem.fill dst text.length fun i => text.getD i 0).fill
      (dst + UInt32.ofNat text.length) text'.length (fun i => text'.getD i 0) =
      mem.fill dst (text ++ text').length fun i => (text ++ text').getD i 0 := by
    rw [ByteMem.fill_fill h, List.length_append]
    apply ByteMem.fill_congr
    intro i hi
    split
    case isTrue hlt => rw [List.getD_append _ _ _ _ hlt]
    case isFalse hge => rw [List.getD_append_right _ _ _ _ (Nat.le_of_not_lt hge)]
  have hret : Int32.ofNat text.length + Int32.ofNat text'.length = Int32.ofNat (text ++ text').length := by
    rw [List.length_append, Int32.ofNat_add]
  have hdst : dst + UInt32.ofNat text.length + UInt32.ofNat text'.length =
      dst + UInt32.ofNat (text ++ text').length := by
    rw [List.length_append, UInt32.ofNat_add, UInt32.add_assoc]
  have hlen : len - Int32.ofNat text.length - Int32.ofNat text'.length =
      len - Int32.ofNat (text ++ text').length := by
    rw [← hret, Int32.sub_sub]
  simp only [Printed.andThen, wrote, hmem, hret, hdst, hlen]

/-- The space that is left. -/
theorem toNat_sub_length {k : Nat} (hk : k ≤ len.toInt.toNat) :
    (len - Int32.ofNat k).toInt.toNat = len.toInt.toNat - k := by
  have hlen := len.toInt_lt
  have hk' : (Int32.ofNat k).toInt = k := Int32.toInt_ofNat_of_lt (by omega)
  by_cases hneg : len.toInt < 0
  · obtain rfl : k = 0 := by omega
    simp
  · rw [CInt.toInt_sub_of_fits (by omega) (by omega), hk']
    omega

/-- The space of a call that writes nothing because there is none. -/
theorem toNat_of_le_zero (h : len ≤ 0) : len.toInt.toNat = 0 := by
  have hle : len.toInt ≤ 0 := Int32.le_iff_toInt_le.mp h
  omega

theorem toInt_pos (h : ¬len ≤ 0) : 0 < len.toInt := by
  rw [Int32.le_iff_toInt_le] at h
  exact Int.not_le.mp h

theorem sprintChar_eq (c : UInt8) :
    sprintChar mem dst len c = wrote mem dst len ([c].take len.toInt.toNat) := by
  rw [sprintChar]
  split
  case isTrue h => rw [toNat_of_le_zero h, List.take_zero, wrote_nil]
  case isFalse h =>
    have hpos := toInt_pos h
    rw [List.take_of_length_le (show [c].length ≤ len.toInt.toNat by rw [List.length_singleton]; omega)]
    rw [wrote, List.length_singleton, ByteMem.update_eq_fill]
    congr 1
    apply ByteMem.fill_congr
    intro i hi
    obtain rfl : i = 0 := by omega
    rfl

/-- The loop over the rest of a string, with the beginning written already. -/
theorem strFrom_eq {chars : List UInt8} {f : Nat → UInt8} {i : Nat} (hi : i ≤ len.toInt.toNat)
    (hf : ∀ j, j < chars.length → f (i + j) = chars.getD j 0) :
    strFrom dst len (mem.fill dst i f) chars (Int32.ofNat i) =
      (Int32.ofNat (min (i + chars.length) len.toInt.toNat),
        mem.fill dst (min (i + chars.length) len.toInt.toNat) f) := by
  have hlen := len.toInt_lt
  induction chars generalizing i with
  | nil => rw [strFrom, List.length_nil, Nat.add_zero, Nat.min_eq_left hi]
  | cons c chars ih =>
    have hlt : Int32.ofNat i < len ↔ i < len.toInt.toNat := by
      rw [Int32.lt_iff_toInt_lt, Int32.toInt_ofNat_of_lt (by omega)]
      omega
    rw [strFrom, List.length_cons]
    by_cases h : i < len.toInt.toNat
    · have hc : f i = c := hf 0 (Nat.zero_lt_succ _)
      rw [if_pos (hlt.mpr h), Int32.toUInt32_ofNat', ← hc, ByteMem.update_fill (by omega)]
      have hnext : Int32.ofNat i + 1 = Int32.ofNat (i + 1) := (Int32.ofNat_add i 1).symm
      rw [hnext, ih h, show i + 1 + chars.length = i + (chars.length + 1) by omega]
      intro j hj
      rw [show i.succ + j = i + (j + 1) by omega, hf (j + 1) (Nat.succ_lt_succ hj)]
      rfl
    · rw [if_neg (mt hlt.mp h), show min (i + (chars.length + 1)) len.toInt.toNat = i by omega]

theorem sprintStr_eq (s : CString) :
    sprintStr mem dst len s = wrote mem dst len (s.chars.take len.toInt.toNat) := by
  rw [sprintStr]
  split
  case isTrue h => rw [toNat_of_le_zero h, List.take_zero, wrote_nil]
  case isFalse h =>
    have hloop : strFrom dst len (mem.fill dst 0 fun i => s.chars.getD i 0) s.chars (Int32.ofNat 0) = _ :=
      strFrom_eq (Nat.zero_le _) fun j _ => by rw [Nat.zero_add]
    rw [ByteMem.fill_zero, Nat.zero_add] at hloop
    have hlength : (s.chars.take len.toInt.toNat).length = min s.chars.length len.toInt.toNat := by
      rw [List.length_take, Nat.min_comm]
    have hmem : mem.fill dst (min s.chars.length len.toInt.toNat) (fun i => s.chars.getD i 0) =
        mem.fill dst (min s.chars.length len.toInt.toNat)
          fun i => (s.chars.take len.toInt.toNat).getD i 0 := by
      apply ByteMem.fill_congr
      intro i hi
      rw [List.getD_eq_getElem?_getD, List.getD_eq_getElem?_getD, List.getElem?_take_of_lt (by omega)]
    show (let (i, mem) := strFrom dst len mem s.chars (Int32.ofNat 0)
      (⟨mem, dst + i.toUInt32, len - i, i⟩ : Printed)) = _
    rw [hloop, wrote, hlength, hmem]
    rfl

/-! ## The digits -/

/-- The first loop takes the digits off from the end. -/
theorem tmpStr_eq {radix : UInt32} (hradix : 1 < radix.toNat) {fuel : Nat} (hfuel : 0 < fuel)
    {num : UInt32} (hnum : num.toNat < radix.toNat ^ fuel) :
    tmpStr radix fuel num = (numeral radix.toNat num.toNat).reverse := by
  induction fuel generalizing num with
  | zero => exact absurd hfuel (Nat.lt_irrefl 0)
  | succ fuel ih =>
    have hquot : (num / radix).toNat = num.toNat / radix.toNat := UInt32.toNat_div num radix
    have hzero : num / radix = 0 ↔ num.toNat / radix.toNat = 0 := by
      rw [← UInt32.toNat_inj, hquot]
      rfl
    rw [tmpStr, Numeral.numeral_eq hradix, List.reverse_append, List.reverse_singleton,
      List.singleton_append, UInt32.toNat_mod]
    -- the loop stores the last digit first, so that the numeral comes out reversed
    by_cases h : num / radix = 0
    · rw [if_neg (not_not_intro h), if_pos (hzero.mp h)]
      rfl
    · have hlt : num.toNat / radix.toNat < radix.toNat ^ fuel := by
        apply Nat.div_lt_of_lt_mul
        rwa [Nat.pow_succ, Nat.mul_comm] at hnum
      have hfuel' : 0 < fuel := by
        rcases Nat.eq_zero_or_pos fuel with rfl | hpos
        · rw [Nat.pow_zero] at hlt
          exact absurd (Nat.lt_one_iff.mp hlt) (mt hzero.mpr h)
        · exact hpos
      rw [if_pos h, if_neg (mt hzero.mpr h), ih hfuel' (hquot ▸ hlt), hquot]

theorem tmpStr_numeral {radix num : UInt32} (hradix : 1 < radix.toNat) :
    tmpStr radix 32 num = (numeral radix.toNat num.toNat).reverse := by
  apply tmpStr_eq hradix (by decide)
  calc num.toNat < 2 ^ 32 := num.toNat_lt
    _ ≤ radix.toNat ^ 32 := Nat.pow_le_pow_left hradix 32

/-- The 32 characters of `tmp_str` are enough. -/
theorem length_tmpStr_le {radix num : UInt32} (hradix : 1 < radix.toNat) :
    (tmpStr radix 32 num).length ≤ 32 := by
  rw [tmpStr_numeral hradix, List.length_reverse]
  apply Numeral.length_numeral_le hradix (by decide)
  calc num.toNat < 2 ^ 32 := num.toNat_lt
    _ ≤ radix.toNat ^ 32 := Nat.pow_le_pow_left hradix 32

/-- A numeral that does not fit is written without its first digits. -/
theorem sprintRadix_eq {radix num : UInt32} (hradix : 1 < radix.toNat) :
    sprintRadix mem dst len num radix =
      wrote mem dst len (cut len.toInt.toNat (numeral radix.toNat num.toNat)) := by
  rw [sprintRadix]
  split
  case isTrue h =>
    rw [toNat_of_le_zero h, cut, Nat.sub_zero, List.drop_length, wrote_nil]
  case isFalse h =>
    have hpos := toInt_pos h
    have hlen := len.toInt_lt
    obtain ⟨digits, hdigits⟩ : ∃ digits, digits = numeral radix.toNat num.toNat := ⟨_, rfl⟩
    have htmp : tmpStr radix 32 num = digits.reverse := by rw [tmpStr_numeral hradix, hdigits]
    obtain ⟨k, hk⟩ : ∃ k, k = min len.toInt.toNat digits.length := ⟨_, rfl⟩
    have hprinted : (if len.toInt < (digits.reverse.length : Int) then len.toInt.toNat
        else digits.reverse.length) = k := by
      rw [List.length_reverse]
      split <;> omega
    have hcut : (cut len.toInt.toNat digits).length = k := by rw [length_cut, hk]
    rw [← hdigits, htmp]
    simp only [hprinted]
    rw [wrote, hcut, copyDigits, ByteMem.foldl_update_eq_fill (by omega)]
    congr 1
    apply ByteMem.fill_congr
    intro i hi
    -- what does not fit is missing at the front: the loop counts down from the end of `tmp_str`
    have hplace : digits.length - 1 - (k - i - 1) = digits.length - len.toInt.toNat + i := by omega
    rw [cut, List.getD_eq_getElem?_getD, List.getD_eq_getElem?_getD, List.getElem?_reverse (by omega),
      List.getElem?_drop, hplace]

/-! ## Arguments and lists of arguments -/

/-- Two writers one behind the other, where the second has the space that is left. -/
theorem andThen_eq {text : List UInt8} {rest : ByteMem → UInt32 → Int32 → Printed}
    {text' : Nat → List UInt8} (htext : text.length ≤ len.toInt.toNat)
    (htext' : ∀ n, (text' n).length ≤ n)
    (hrest : ∀ mem dst len, rest mem dst len = wrote mem dst len (text' len.toInt.toNat)) :
    (wrote mem dst len text).andThen rest =
      wrote mem dst len (text ++ text' (len.toInt.toNat - text.length)) := by
  have hlen := len.toInt_lt
  have hle := htext' (len.toInt.toNat - text.length)
  have hspace : (wrote mem dst len text).len.toInt.toNat = len.toInt.toNat - text.length :=
    toNat_sub_length htext
  rw [← wrote_andThen (by omega), Printed.andThen, hrest, hspace]
  rfl

/-- The digits of a negated number. -/
theorem toNat_neg {num : Int32} (h : num < 0) : (-num).toUInt32.toNat = num.toInt.natAbs := by
  have hlt : num.toInt < 0 := Int32.lt_iff_toInt_lt.mp h
  have hint : num.toInt = num.toBitVec.toInt := rfl
  rw [hint, BitVec.toInt_eq_toNat_cond] at hlt ⊢
  show (-num.toBitVec).toNat = _
  rw [BitVec.toNat_neg]
  have hbits := num.toBitVec.isLt
  split at hlt <;> omega

theorem toNat_of_nonneg {num : Int32} (h : ¬num < 0) : num.toUInt32.toNat = num.toInt.natAbs := by
  have hle : 0 ≤ num.toInt := by
    rw [Int32.lt_iff_toInt_lt] at h
    exact Int.not_lt.mp h
  have hnat := CInt.toNat_toUInt32 hle
  omega

theorem sprintDec_eq {num : UInt32} :
    sprintDec mem dst len num = wrote mem dst len (cut len.toInt.toNat (numeral 10 num.toNat)) :=
  sprintRadix_eq (by decide)

theorem sprintHex_eq {num : UInt32} :
    sprintHex mem dst len num = wrote mem dst len (cut len.toInt.toNat (numeral 16 num.toNat)) :=
  sprintRadix_eq (by decide)

theorem length_cut_le (digits : List UInt8) (n : Nat) : (cut n digits).length ≤ n := by
  rw [length_cut]
  exact Nat.min_le_left _ _

/-- An argument without a numeral. -/
theorem emit_text {n : Nat} {a : Arg} (h : a.number = []) : a.emit n = a.lead.take n := by
  rw [Arg.emit, h, cut, List.drop_nil, List.append_nil]

/-- An argument that is nothing but a numeral. -/
theorem emit_number {n : Nat} {a : Arg} (h : a.lead = []) : a.emit n = cut n a.number := by
  rw [Arg.emit, h, List.take_nil, List.nil_append, List.length_nil, Nat.sub_zero]

/-- A sign or `0x` and the digits: the digits have what the prefix has left. -/
theorem andThen_digits {text : List UInt8} {digits : List UInt8}
    {rest : ByteMem → UInt32 → Int32 → Printed}
    (hrest : ∀ mem dst len, rest mem dst len = wrote mem dst len (cut len.toInt.toNat digits)) :
    (wrote mem dst len (text.take len.toInt.toNat)).andThen rest =
      wrote mem dst len (text.take len.toInt.toNat ++ cut (len.toInt.toNat - text.length) digits) := by
  have htext : (text.take len.toInt.toNat).length ≤ len.toInt.toNat := List.length_take_le _ _
  have hspace : len.toInt.toNat - (text.take len.toInt.toNat).length =
      len.toInt.toNat - text.length := by
    rw [List.length_take]
    omega
  rw [andThen_eq htext (length_cut_le digits) hrest, hspace]

/-- **What each overload does.** -/
theorem sprintArg_eq (a : Arg) : sprintArg mem dst len a = wrote mem dst len (a.emit len.toInt.toNat) := by
  cases a with
  | char c =>
    rw [emit_text rfl]
    exact sprintChar_eq c
  | uchar c =>
    rw [emit_text rfl]
    exact sprintChar_eq c
  | str s =>
    rw [emit_text rfl]
    exact sprintStr_eq s
  | ptr p =>
    rw [emit_number rfl]
    exact sprintRadix_eq (by decide)
  | uint num =>
    rw [emit_number rfl]
    exact sprintDec_eq
  | short num =>
    rw [emit_number rfl]
    exact sprintDec_eq
  | ushort num =>
    rw [emit_number rfl, sprintArg, sprintDec_eq, UInt16.toNat_toUInt32]
    rfl
  | int num =>
    rw [sprintArg, Arg.emit]
    by_cases h : num < 0
    · -- `'-'`, and then the digits in the space that is left
      rw [if_pos h, sprintChar_eq, andThen_digits fun _ _ _ => sprintDec_eq, toNat_neg h]
      simp only [Arg.lead, if_pos h, Arg.number]
    · rw [if_neg h, sprintDec_eq, toNat_of_nonneg h]
      simp only [Arg.lead, if_neg h, Arg.number, List.take_nil, List.nil_append, List.length_nil,
        Nat.sub_zero]
  | hex num =>
    rw [sprintArg]
    split
    case isTrue h =>
      rw [Arg.emit, toNat_of_le_zero h, List.take_zero, Nat.zero_sub, cut, Nat.sub_zero, List.drop_length,
        List.append_nil, wrote_nil]
    case isFalse =>
      rw [sprintStr_eq, andThen_digits fun _ _ _ => sprintHex_eq]
      rfl

/-- **A call writes what fits, and accounts for it.** -/
theorem sprint_eq (args : List Arg) :
    sprint mem dst len args = wrote mem dst len (emits len.toInt.toNat args) := by
  induction args generalizing mem dst len with
  | nil => exact wrote_nil.symm
  | cons a args ih =>
    have ha : (a.emit len.toInt.toNat).length ≤ len.toInt.toNat := by
      rw [length_emit]
      exact Nat.min_le_left _ _
    have hargs : ∀ n, (emits n args).length ≤ n := by
      intro n
      rw [length_emits]
      exact Nat.min_le_left _ _
    rw [sprint, sprintArg_eq, andThen_eq ha hargs fun _ _ _ => ih]
    rfl

/-- The text that a call has written. -/
theorem textAt_fill {text : List UInt8} {n : Nat} (hn : text.length ≤ n) (hn' : n ≤ 4294967296) :
    textAt (mem.fill dst n fun i => text.getD i 0) dst text.length = text := by
  apply List.ext_getElem
  · simp [textAt]
  · intro i hi hi'
    simp only [textAt, List.getElem_map, List.getElem_range, ByteMem.view]
    rw [ByteMem.fill_apply (Nat.lt_of_lt_of_le hi' hn) hn', List.getD_eq_getElem _ _ hi']

end

/-! ## Reading a numeral back -/

/-- The number that a text with or without a sign denotes. -/
def readInt (text : List UInt8) : Option Int :=
  if text.head? = some minus then (Numeral.parse 10 text.tail).map fun n => -(n : Int)
  else (Numeral.parse 10 text).map fun n => (n : Int)

/-- The number that a text behind `0x` denotes. -/
def readHex (text : List UInt8) : Option Nat :=
  if text.take 2 = hexPrefix.chars then Numeral.parse 16 (text.drop 2) else none

/-- Reading an unsigned number. -/
theorem read_uint (n : Nat) : readInt (numeral 10 n) = some n := by
  have hread := Numeral.parse_numeral (b := 10) (by decide) (by decide) n
  rw [readInt, if_neg ?_, hread]
  · rfl
  · -- a sign is not a digit
    intro hhead
    obtain ⟨rest, hrest⟩ : ∃ rest, numeral 10 n = minus :: rest := by
      cases hnum : numeral 10 n with
      | nil => exact absurd hnum Numeral.numeral_ne_nil
      | cons c rest =>
        rw [hnum] at hhead
        exact ⟨rest, congrArg (· :: rest) (Option.some.inj hhead)⟩
    rw [hrest] at hread
    exact absurd hread (by simp [Numeral.parse, Numeral.parseFrom, Numeral.digitValue, minus])

/-- Every `int` is read back, the most negative one too. -/
theorem read_int (num : Int32) : readInt (Arg.int num).render = some num.toInt := by
  by_cases h : num < 0
  · have hneg : num.toInt < 0 := Int32.lt_iff_toInt_lt.mp h
    have htext : (Arg.int num).render = minus :: numeral 10 num.toInt.natAbs := by
      simp [Arg.render, Arg.lead, Arg.number, if_pos h]
    rw [htext, readInt, List.head?_cons, if_pos rfl, List.tail_cons,
      Numeral.parse_numeral (by decide) (by decide)]
    show some (-(num.toInt.natAbs : Int)) = some num.toInt
    congr 1
    omega
  · have hpos : ¬num.toInt < 0 := fun hlt => h (Int32.lt_iff_toInt_lt.mpr hlt)
    have htext : (Arg.int num).render = numeral 10 num.toInt.natAbs := by
      simp [Arg.render, Arg.lead, Arg.number, if_neg h]
    rw [htext, read_uint]
    exact congrArg some (Int.natAbs_of_nonneg (Int.not_lt.mp hpos))

theorem read_hex (num : Int32) : readHex (Arg.hex num).render = some num.toUInt32.toNat := by
  have hlead : (Arg.hex num).render.take 2 = hexPrefix.chars := rfl
  rw [readHex, if_pos hlead]
  exact Numeral.parse_numeral (by decide) (by decide) _

/-- A negative `short` is read back as another number: it is converted to `uint` without a sign. -/
theorem read_short (num : Int16) :
    readInt (Arg.short num).render = some (CInt.toUint num.toInt : Int) := by
  rw [← Int16.toInt_toInt32, ← CInt.toNat_toUInt32_eq]
  exact read_uint _

/-- **Every character is accounted for, and numerals read back.** -/
theorem sprint_accounts (dst : UInt32) (len : Int32) (args : List Arg) :
    (∃ k : Nat, (k : Int) ≤ max len.toInt 0 ∧
      ByteMem.Stores (fun mem => (sprint mem dst len args).mem) (ByteMem.span dst k) ∧
      ∀ mem, (sprint mem dst len args).ret.toInt = k ∧
        (sprint mem dst len args).dst = dst + UInt32.ofNat k ∧
        (sprint mem dst len args).len.toInt = len.toInt - k ∧
        ((rendering args).length ≤ len.toInt →
          textAt (sprint mem dst len args).mem dst k = rendering args)) ∧
    (∀ num, Numeral.parse 10 (Arg.uint num).render = some num.toNat ∧
      Numeral.Plain (Arg.uint num).number) ∧
    (∀ num, Numeral.parse 10 (Arg.ushort num).render = some num.toNat ∧
      Numeral.Plain (Arg.ushort num).number) ∧
    (∀ num, readInt (Arg.int num).render = some num.toInt ∧ Numeral.Plain (Arg.int num).number) ∧
    (∀ num, readHex (Arg.hex num).render = some num.toUInt32.toNat ∧
      Numeral.Plain (Arg.hex num).number) := by
  have hlen := len.toInt_lt
  have hk : (emits len.toInt.toNat args).length ≤ len.toInt.toNat := by
    rw [length_emits]
    exact Nat.min_le_left _ _
  refine ⟨⟨(emits len.toInt.toNat args).length, by omega, ?_, ?_⟩, ?_, ?_, ?_, ?_⟩
  · simp only [sprint_eq, wrote]
    exact ByteMem.Stores.fill
  · intro mem
    rw [sprint_eq]
    have hret : (Int32.ofNat (emits len.toInt.toNat args).length).toInt =
        (emits len.toInt.toNat args).length := Int32.toInt_ofNat_of_lt (by omega)
    refine ⟨hret, rfl, ?_, ?_⟩
    · show (len - Int32.ofNat _).toInt = _
      -- nothing is stored into a buffer of negative length
      rcases Int.lt_or_le len.toInt 0 with hneg | hpos
      · rw [List.length_eq_zero_iff.mp (show (emits len.toInt.toNat args).length = 0 by omega)]
        simp
      · rw [CInt.toInt_sub_of_fits (by omega) (by omega), hret]
    · intro hfits
      rw [wrote, textAt_fill (Nat.le_refl _) (by omega)]
      exact emits_of_fits (by omega)
  · intro num
    exact ⟨Numeral.parse_numeral (by decide) (by decide) _,
      Numeral.plain_numeral (by decide) (by decide) _⟩
  · intro num
    exact ⟨Numeral.parse_numeral (by decide) (by decide) _,
      Numeral.plain_numeral (by decide) (by decide) _⟩
  · intro num
    exact ⟨read_int num, Numeral.plain_numeral (by decide) (by decide) _⟩
  · intro num
    exact ⟨read_hex num, Numeral.plain_numeral (by decide) (by decide) _⟩

/-! ## The buffer of `kprint` and `print` -/

/-- A prefix of `full` of at most `n` characters, and none is longer. -/
structure LongestPrefix (n : Nat) (text full : List UInt8) : Prop where
  isPrefix : text <+: full
  fits : text.length ≤ n
  longest : ∀ other, other <+: full → other.length ≤ n → other.length ≤ text.length

/-- Nothing is stored outside of the buffer, and what is handed on is as much of the full text as fits in
there together with the NUL. -/
structure PrintsSafely (out : ByteMem → Output) (buffer : UInt32) (args : List Arg) : Prop where
  inside : ∃ addrs, ByteMem.Stores (fun mem => (out mem).mem) addrs ∧ addrs ⊆ ByteMem.span buffer 64
  text : ∀ mem, LongestPrefix 63 ((out mem).written.getD []) (rendering args)

section

variable {mem : ByteMem} {buffer : UInt32} {args : List Arg}

theorem length_emits_le (n : Nat) (args : List Arg) : (emits n args).length ≤ n := by
  rw [length_emits]
  exact Nat.min_le_left _ _

/-- What `sprint` does with the whole buffer. -/
theorem sprint_buffer : sprint mem buffer maxPrintChars args = wrote mem buffer maxPrintChars (emits 64 args) :=
  sprint_eq args

/-- The memory behind a call: the text and a NUL. -/
theorem update_sprint :
    Function.update (sprint mem buffer maxPrintChars args).mem
      (buffer + (sprint mem buffer maxPrintChars args).ret.toUInt32) 0 =
      mem.fill buffer ((emits 64 args).length + 1) fun i => (emits 64 args).getD i 0 := by
  have hle := length_emits_le 64 args
  have hnul : (emits 64 args).getD (emits 64 args).length 0 = 0 := List.getD_eq_default _ _ (Nat.le_refl _)
  have hfill : Function.update (mem.fill buffer (emits 64 args).length fun i => (emits 64 args).getD i 0)
      (buffer + UInt32.ofNat (emits 64 args).length) ((emits 64 args).getD (emits 64 args).length 0) =
      mem.fill buffer ((emits 64 args).length + 1) fun i => (emits 64 args).getD i 0 :=
    ByteMem.update_fill (by omega)
  rw [hnul] at hfill
  rw [sprint_buffer]
  exact hfill

variable (mem buffer args) in
/-- The number of characters as the `int` that the code goes by. -/
theorem ret_sprint :
    (sprint mem buffer maxPrintChars args).ret.toUInt32.toNat = (emits 64 args).length ∧
      ((sprint mem buffer maxPrintChars args).ret > 0 ↔ emits 64 args ≠ []) := by
  have hle := length_emits_le 64 args
  have hret : (Int32.ofNat (emits 64 args).length).toInt = (emits 64 args).length :=
    Int32.toInt_ofNat_of_lt (by omega)
  have hnat := CInt.toNat_toUInt32 (x := Int32.ofNat (emits 64 args).length) (by omega)
  rw [sprint_buffer]
  constructor
  · show (Int32.ofNat (emits 64 args).length).toUInt32.toNat = _
    omega
  · show 0 < Int32.ofNat (emits 64 args).length ↔ _
    rw [Int32.lt_iff_toInt_lt, hret, ← List.length_pos_iff]
    exact Int.natCast_pos

/-- The text in the buffer, in front of the NUL. -/
theorem textAt_buffer :
    textAt (mem.fill buffer ((emits 64 args).length + 1) fun i => (emits 64 args).getD i 0) buffer
      (emits 64 args).length = emits 64 args := by
  have hle := length_emits_le 64 args
  exact textAt_fill (Nat.le_succ _) (by omega)

/-- `kprint` prints the text if there is any. -/
theorem kprint_eq (write : List UInt8 → Int32) :
    kprint write mem buffer args =
      { mem := mem.fill buffer ((emits 64 args).length + 1) fun i => (emits 64 args).getD i 0
        written := if emits 64 args = [] then none else some (emits 64 args)
        ret := if emits 64 args = [] then 0 else write (emits 64 args) } := by
  obtain ⟨hlen, hpos⟩ := ret_sprint mem buffer args
  simp only [kprint, update_sprint, hlen, textAt_buffer]
  by_cases h : emits 64 args = []
  · have hret : (sprint mem buffer maxPrintChars args).ret = 0 := by
      rw [sprint_buffer, h]
      rfl
    rw [if_neg (mt hpos.mp (not_not_intro h)), if_pos h, if_pos h, hret]
  · rw [if_pos (hpos.mpr h), if_neg h, if_neg h]

theorem print_eq :
    print mem buffer args =
      { mem := mem.fill buffer ((emits 64 args).length + 1) fun i => (emits 64 args).getD i 0
        written := if emits 64 args = [] then none else some (emits 64 args)
        ret := Int32.ofNat (emits 64 args).length } := by
  obtain ⟨hlen, hpos⟩ := ret_sprint mem buffer args
  have hret : (sprint mem buffer maxPrintChars args).ret = Int32.ofNat (emits 64 args).length := by
    rw [sprint_buffer]
    rfl
  simp only [print, update_sprint, hlen, textAt_buffer]
  by_cases h : emits 64 args = []
  · rw [if_neg (mt hpos.mp (not_not_intro h)), if_pos h, hret]
  · rw [if_pos (hpos.mpr h), if_neg h, hret]

/-- The text is as long as it can be, if it is a part of the rendering. -/
theorem longestPrefix_emits (h : (rendering args).length < 64) :
    LongestPrefix 63 (emits 64 args) (rendering args) := by
  rw [emits_of_fits (Nat.le_of_lt h)]
  constructor
  · exact List.prefix_rfl
  · omega
  · intro other hother _
    exact hother.length_le

/-- A function that writes the text and a NUL, and hands on the text, is safe exactly if the arguments
and the NUL fit. -/
theorem printsSafely_iff {out : ByteMem → Output}
    (hmem : ∀ mem, (out mem).mem =
      mem.fill buffer ((emits 64 args).length + 1) fun i => (emits 64 args).getD i 0)
    (hwritten : ∀ mem, (out mem).written = if emits 64 args = [] then none else some (emits 64 args)) :
    PrintsSafely out buffer args ↔ (rendering args).length < 64 := by
  have hlength := length_emits 64 args
  have hstores : ByteMem.Stores (fun mem => (out mem).mem)
      (ByteMem.span buffer ((emits 64 args).length + 1)) := by
    simp only [hmem]
    exact ByteMem.Stores.fill
  have hspan : ByteMem.span buffer ((emits 64 args).length + 1) ⊆ ByteMem.span buffer 64 ↔
      (emits 64 args).length < 64 := by
    have hzero : (0 : UInt32).toNat = 0 := rfl
    have hsub := ByteMem.span_subset_iff (p := buffer) (v := 0) (n := (emits 64 args).length + 1) (k := 64)
    rw [UInt32.add_zero, hzero] at hsub
    rw [hsub]
    omega
  have htext (mem : ByteMem) : (out mem).written.getD [] = emits 64 args := by
    rw [hwritten]
    by_cases h : emits 64 args = []
    · rw [if_pos h, h]
      rfl
    · rw [if_neg h]
      rfl
  constructor
  · -- the NUL goes behind the text, also when the text has filled the buffer
    intro hsafe
    obtain ⟨addrs, hstores', hsub⟩ := hsafe.inside
    rw [hstores'.unique hstores, hspan] at hsub
    omega
  · intro hfits
    refine ⟨⟨_, hstores, hspan.mpr (by omega)⟩, ?_⟩
    intro mem
    rw [htext]
    exact longestPrefix_emits hfits

end

/-- **Printing is safe exactly when the arguments, written out in full, have less than 64 characters.** -/
theorem print_safely_iff (write : List UInt8 → Int32) (buffer : UInt32) (args : List Arg) :
    (PrintsSafely (fun mem => kprint write mem buffer args) buffer args ↔ (rendering args).length < 64) ∧
      (PrintsSafely (fun mem => print mem buffer args) buffer args ↔ (rendering args).length < 64) := by
  constructor
  · apply printsSafely_iff
    · intro mem
      rw [kprint_eq]
    · intro mem
      rw [kprint_eq]
  · apply printsSafely_iff
    · intro mem
      rw [print_eq]
    · intro mem
      rw [print_eq]

/-- 62 characters and a number of five digits. -/
def longLine : List Arg := [.str ⟨List.replicate 62 97, by decide +kernel⟩, .uint 12345]

/-- The NUL is stored behind the buffer, and of the number the last two digits are printed. -/
theorem print_longLine_unsafe :
    ¬PrintsSafely (fun mem => kprint (fun _ => 0) mem 0x8000 longLine) 0x8000 longLine ∧
      ¬PrintsSafely (fun mem => print mem 0x8000 longLine) 0x8000 longLine ∧
      (print (fun _ => 1) 0x8000 longLine).written = some (List.replicate 62 97 ++ [52, 53]) := by
  have hbehind : (0x8040 : UInt32) ∉ ByteMem.span 0x8000 64 := by
    rw [ByteMem.mem_span]
    decide
  refine ⟨?_, ?_, by decide +kernel⟩
  · intro hsafe
    obtain ⟨addrs, hstores, hsub⟩ := hsafe.inside
    have hkept := hstores.outside 0x8040 (fun hmem => hbehind (hsub hmem)) fun _ => 1
    have hnul : (kprint (fun _ => 0) (fun _ => 1) 0x8000 longLine).mem 0x8040 = 0 := by decide +kernel
    rw [hnul] at hkept
    exact absurd hkept (by decide)
  · intro hsafe
    obtain ⟨addrs, hstores, hsub⟩ := hsafe.inside
    have hkept := hstores.outside 0x8040 (fun hmem => hbehind (hsub hmem)) fun _ => 1
    have hnul : (print (fun _ => 1) 0x8000 longLine).mem 0x8040 = 0 := by decide +kernel
    rw [hnul] at hkept
    exact absurd hkept (by decide)

end Shipwreck.Print
