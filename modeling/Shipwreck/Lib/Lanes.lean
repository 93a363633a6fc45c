import Mathlib.Data.Nat.Digits.Lemmas

/-!
# Lanes of a word

Several small numbers in one word, `w` bits for each:

    | ... | lane 2 | lane 1 | lane 0 |

Such a word is `Nat.ofDigits (2 ^ w)` of its lanes. Sums and multiples of words are those of the lanes
as long as no lane grows beyond its `w` bits; `&` works lane by lane (`and_ofDigits`), and with the high
bits of each lane as the mask it rounds all lanes down (`and_replicate_high`).
-/

namespace Lanes

/-- Lane `i` of the word `n`. -/
def lane (w i n : Nat) : Nat := n / 2 ^ (w * i) % 2 ^ w

variable {w f k n i : Nat} {l m : List Nat}

theorem lane_lt : lane w i n < 2 ^ w := Nat.mod_lt _ (Nat.two_pow_pos w)

theorem lane_zero : lane w 0 n = n % 2 ^ w := by
  rw [lane, Nat.mul_zero, Nat.pow_zero, Nat.div_one]

/-- The lanes above the first one are those of the word without it. -/
theorem lane_succ : lane w (i + 1) n = lane w i (n / 2 ^ w) := by
  rw [lane, lane, Nat.mul_succ, Nat.pow_add, Nat.mul_comm, Nat.div_div_eq_div_mul]

/-! ## Packing -/

theorem add_mul_mod {x : Nat} (hx : x < 2 ^ w) (y : Nat) : (x + 2 ^ w * y) % 2 ^ w = x := by
  rw [Nat.add_mul_mod_self_left, Nat.mod_eq_of_lt hx]

theorem add_mul_div {x : Nat} (hx : x < 2 ^ w) (y : Nat) : (x + 2 ^ w * y) / 2 ^ w = y := by
  rw [Nat.add_mul_div_left _ _ (Nat.two_pow_pos w), Nat.div_eq_of_lt hx, Nat.zero_add]

/-- The lanes of a packed word. -/
theorem lane_ofDigits (hl : ∀ x ∈ l, x < 2 ^ w) (i : Nat) :
    lane w i (Nat.ofDigits (2 ^ w) l) = l.getD i 0 := by
  induction l generalizing i with
  | nil =>
    rw [Nat.ofDigits_nil, lane, Nat.zero_div, Nat.zero_mod]
    rfl
  | cons x l ih =>
    rw [List.forall_mem_cons] at hl
    rw [Nat.ofDigits_cons]
    cases i with
    | zero => exact lane_zero.trans (add_mul_mod hl.1 _)
    | succ i =>
      rw [lane_succ, add_mul_div hl.1, ih hl.2]
      rfl

/-- A word of `k` lanes is packed from them. -/
theorem ofDigits_lanes (hn : n < 2 ^ (w * k)) :
    Nat.ofDigits (2 ^ w) ((List.range k).map fun i => lane w i n) = n := by
  induction k generalizing n with
  | zero =>
    rw [Nat.mul_zero, Nat.pow_zero, Nat.lt_one_iff] at hn
    rw [hn]
    rfl
  | succ k ih =>
    have hrest : n / 2 ^ w < 2 ^ (w * k) := by
      apply Nat.div_lt_of_lt_mul
      rwa [← Nat.pow_add, Nat.add_comm, ← Nat.mul_succ]
    have hlanes : (List.range (k + 1)).map (fun i => lane w i n) =
        n % 2 ^ w :: (List.range k).map fun i => lane w i (n / 2 ^ w) := by
      rw [List.range_succ_eq_map, List.map_cons, List.map_map, lane_zero]
      simp only [Function.comp_def, Nat.succ_eq_add_one, lane_succ]
    rw [hlanes, Nat.ofDigits_cons, ih hrest, Nat.mod_add_div]

/-! ## Masks -/

/-- `&` of two words, the first lane and the others. -/
theorem and_add_mul {x x' : Nat} (hx : x < 2 ^ w) (hx' : x' < 2 ^ w) (y y' : Nat) :
    (x + 2 ^ w * y) &&& (x' + 2 ^ w * y') = (x &&& x') + 2 ^ w * (y &&& y') := by
  rw [← Nat.mod_add_div ((x + 2 ^ w * y) &&& (x' + 2 ^ w * y')) (2 ^ w), Nat.and_mod_two_pow,
    Nat.and_div_two_pow, add_mul_mod hx, add_mul_mod hx', add_mul_div hx, add_mul_div hx']

/-- **`&` works lane by lane.** -/
theorem and_ofDigits (hlen : l.length = m.length) (hl : ∀ x ∈ l, x < 2 ^ w)
    (hm : ∀ x ∈ m, x < 2 ^ w) :
    Nat.ofDigits (2 ^ w) l &&& Nat.ofDigits (2 ^ w) m =
      Nat.ofDigits (2 ^ w) (List.zipWith (· &&& ·) l m) := by
  induction l generalizing m with
  | nil => exact Nat.zero_and _
  | cons x l ih =>
    cases m with
    | nil => cases hlen
    | cons x' m =>
      rw [List.forall_mem_cons] at hl hm
      rw [List.zipWith_cons_cons, Nat.ofDigits_cons, Nat.ofDigits_cons, Nat.ofDigits_cons,
        ← ih (Nat.succ_inj.mp hlen) hl.2 hm.2]
      exact and_add_mul hl.1 hm.1 _ _

/-- Only as much of a mask matters as the word has bits. -/
theorem and_mod_of_lt (hn : n < 2 ^ k) (mask : Nat) : n &&& (mask % 2 ^ k) = n &&& mask := by
  have hlt : n &&& mask < 2 ^ k := Nat.lt_of_le_of_lt Nat.and_le_left hn
  rw [← Nat.mod_eq_of_lt hlt, Nat.and_mod_two_pow, Nat.mod_eq_of_lt hn]

/-- The high bits of a number. -/
theorem and_high {x : Nat} (hf : f ≤ w) (hx : x < 2 ^ w) :
    x &&& (2 ^ w - 2 ^ f) = 2 ^ f * (x / 2 ^ f) := by
  have hmask : 2 ^ w - 2 ^ f = 0 + 2 ^ f * (2 ^ (w - f) - 1) := by
    rw [Nat.zero_add, Nat.mul_sub, ← Nat.pow_add, Nat.add_sub_cancel' hf, Nat.mul_one]
  have hquot : x / 2 ^ f < 2 ^ (w - f) := by
    apply Nat.div_lt_of_lt_mul
    rwa [← Nat.pow_add, Nat.add_sub_cancel' hf]
  have hlow : x % 2 ^ f < 2 ^ f := Nat.mod_lt _ (Nat.two_pow_pos f)
  conv_lhs => rw [← Nat.mod_add_div x (2 ^ f), hmask]
  rw [and_add_mul hlow (Nat.two_pow_pos f), Nat.and_zero, Nat.zero_add,
    Nat.and_two_pow_sub_one_of_lt_two_pow hquot]

/-- **The high bits of all lanes.** -/
theorem and_replicate_high (hf : f ≤ w) (hl : ∀ x ∈ l, x < 2 ^ w) :
    Nat.ofDigits (2 ^ w) l &&& Nat.ofDigits (2 ^ w) (List.replicate l.length (2 ^ w - 2 ^ f)) =
      2 ^ f * Nat.ofDigits (2 ^ w) (l.map (· / 2 ^ f)) := by
  have hpos := Nat.two_pow_pos f
  have hpow := Nat.two_pow_pos w
  have hmask : ∀ x ∈ List.replicate l.length (2 ^ w - 2 ^ f), x < 2 ^ w := by
    intro x hx
    rw [List.eq_of_mem_replicate hx]
    exact Nat.sub_lt hpow hpos
  rw [and_ofDigits List.length_replicate.symm hl hmask, Nat.mul_ofDigits, List.map_map]
  congr 1
  apply List.ext_getElem
  · simp
  · intro i hi hi'
    rw [List.getElem_zipWith, List.getElem_replicate, List.getElem_map]
    exact and_high hf (hl _ (List.getElem_mem _))

end Lanes
