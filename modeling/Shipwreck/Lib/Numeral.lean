import Mathlib.Data.Nat.Digits.Lemmas

/-!
# Numerals

The numeral of a number in a base of at most sixteen, in ASCII, and the number that a text denotes. The
digits are those of `Nat.digits`, turned around:

    numeral 10 470 = '4' '7' '0'          Nat.digits 10 470 = [0, 7, 4]

Reading a numeral gives the number back (`parse_numeral`), and no numeral is longer than it has to be
(`plain_numeral`). A loop that takes the digits off a number one by one follows `numeral_eq`.
-/

namespace Numeral

/-- The character of a digit, `'0' .. '9'` and `'A' .. 'F'`. -/
def digitChar (d : Nat) : UInt8 := UInt8.ofNat (if d < 10 then 48 + d else 55 + d)

/-- The digit that a character stands for. -/
def digitValue (c : UInt8) : Option Nat :=
  if 48 ≤ c.toNat ∧ c.toNat ≤ 57 then some (c.toNat - 48)
  else if 65 ≤ c.toNat ∧ c.toNat ≤ 70 then some (c.toNat - 55)
  else none

/-- The numeral of `n`. -/
def numeral (b n : Nat) : List UInt8 :=
  if n = 0 then [digitChar 0] else (Nat.digits b n).reverse.map digitChar

/-- The number that a text denotes behind a text that denotes `value`. -/
def parseFrom (b value : Nat) : List UInt8 → Option Nat
  | [] => some value
  | c :: cs =>
    match digitValue c with
    | some d => if d < b then parseFrom b (b * value + d) cs else none
    | none => none

/-- The number that a text denotes: at least one digit, and nothing else. -/
def parse (b : Nat) (text : List UInt8) : Option Nat :=
  if text = [] then none else parseFrom b 0 text

/-- There are no superfluous zeros at the beginning. -/
def Plain (text : List UInt8) : Prop := text.head? = some (digitChar 0) → text = [digitChar 0]

variable {b n k : Nat}

theorem digitValue_digitChar {d : Nat} (hd : d < 16) : digitValue (digitChar d) = some d := by
  revert d
  decide

theorem digitChar_inj {d d' : Nat} (hd : d < 16) (hd' : d' < 16) (h : digitChar d = digitChar d') :
    d = d' := by
  have hval := congrArg digitValue h
  rw [digitValue_digitChar hd, digitValue_digitChar hd'] at hval
  exact Option.some.inj hval

/-! ## The recursion -/

theorem numeral_ne_nil : numeral b n ≠ [] := by
  rw [numeral]
  split
  case isTrue => exact List.cons_ne_nil _ _
  case isFalse h =>
    intro hnil
    rw [List.map_eq_nil_iff, List.reverse_eq_nil_iff] at hnil
    exact Nat.digits_ne_nil_iff_ne_zero.mpr h hnil

/-- The last digit is the remainder, and the quotient has the others. -/
theorem numeral_eq (hb : 1 < b) (n : Nat) :
    numeral b n = (if n / b = 0 then [] else numeral b (n / b)) ++ [digitChar (n % b)] := by
  by_cases hn : n = 0
  · subst hn
    rw [Nat.zero_div, if_pos rfl, Nat.zero_mod]
    rfl
  · rw [numeral, if_neg hn, Nat.digits_eq_cons_digits_div hb hn, List.reverse_cons, List.map_append]
    by_cases hq : n / b = 0
    · rw [if_pos hq, hq, Nat.digits_zero]
      rfl
    · rw [if_neg hq, numeral, if_neg hq]
      rfl

theorem length_numeral_le (hb : 1 < b) (hk : 0 < k) (hn : n < b ^ k) : (numeral b n).length ≤ k := by
  rw [numeral]
  split
  case isTrue => exact hk
  case isFalse =>
    rw [List.length_map, List.length_reverse]
    exact (Nat.digits_length_le_iff hb n).mpr hn

/-! ## Reading -/

/-- Reading digits is evaluating them from the most significant one on. -/
theorem parseFrom_digits (hb : b ≤ 16) {digits : List Nat} (h : ∀ d ∈ digits, d < b) (value : Nat) :
    parseFrom b value (digits.map digitChar) = some (digits.foldl (fun v d => b * v + d) value) := by
  induction digits generalizing value with
  | nil => rfl
  | cons d digits ih =>
    have hd : d < b := h d List.mem_cons_self
    rw [List.map_cons, parseFrom, digitValue_digitChar (Nat.lt_of_lt_of_le hd hb)]
    simp only [hd, if_true]
    exact ih (fun d' hd' => h d' (List.mem_cons_of_mem _ hd')) _

/-- **A numeral is read as its number.** -/
theorem parse_numeral (hb : 1 < b) (hb' : b ≤ 16) (n : Nat) : parse b (numeral b n) = some n := by
  rw [parse, if_neg numeral_ne_nil, numeral]
  split
  case isTrue hn =>
    rw [parseFrom, digitValue_digitChar (by decide), hn]
    simp [parseFrom, Nat.lt_of_succ_lt hb]
  case isFalse =>
    rw [parseFrom_digits hb' fun d hd => Nat.digits_lt_base hb (List.mem_reverse.mp hd)]
    rw [List.foldl_reverse]
    have hvalue : Nat.ofDigits b (Nat.digits b n) = n := Nat.ofDigits_digits b n
    have hfun : (fun (d : Nat) (v : Nat) => b * v + d) = fun d v => (d : Nat) + b * v := by
      funext d v
      exact Nat.add_comm _ _
    rw [Nat.ofDigits_eq_foldr] at hvalue
    rw [hfun]
    exact congrArg some hvalue

/-- **A numeral has no superfluous zeros.** -/
theorem plain_numeral (hb : 1 < b) (hb' : b ≤ 16) (n : Nat) : Plain (numeral b n) := by
  intro hhead
  rw [numeral] at hhead ⊢
  split
  case isTrue => rfl
  case isFalse hn =>
    have hne : Nat.digits b n ≠ [] := Nat.digits_ne_nil_iff_ne_zero.mpr hn
    rw [if_neg hn, List.head?_map, List.head?_reverse, List.getLast?_eq_getLast_of_ne_nil hne] at hhead
    have hlast := Nat.getLast_digit_ne_zero b hn
    have hlt : (Nat.digits b n).getLast hne < b := Nat.digits_lt_base hb (List.getLast_mem hne)
    have hzero := digitChar_inj (Nat.lt_of_lt_of_le hlt hb') (by decide) (Option.some.inj hhead)
    exact absurd hzero hlast

end Numeral
