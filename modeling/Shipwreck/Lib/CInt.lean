import Mathlib.Data.Int.Basic
import Mathlib.Data.List.Nodup

/-!
# 32-bit `int` and `uint` values

Values of both types are kept as plain numbers; `toUint` and `toInt` are the conversions, and say
what is left of a result that does not fit. Where an `int` is kept as an `Int32`, the operations are those
on numbers as long as their results fit.
-/

namespace CInt

/-- An `int` converted to `uint`: its residue modulo `2^32`. -/
def toUint (i : Int) : Nat := (i % 4294967296).toNat

/-- The `int` with the same 32 bits as `i`. -/
def toInt (i : Int) : Int := (i + 2147483648) % 4294967296 - 2147483648

theorem toUint_of_nonneg {i : Int} (h0 : 0 ≤ i) (h : i < 4294967296) : toUint i = i.toNat := by
  unfold toUint
  omega

theorem toInt_of_fits {i : Int} (hlo : -2147483648 ≤ i) (hhi : i < 2147483648) : toInt i = i := by
  unfold toInt
  omega

theorem toNat_toUInt32 {x : Int32} (h : 0 ≤ x.toInt) : (x.toUInt32.toNat : Int) = x.toInt := by
  have h0 : 0 ≤ x := by
    rw [Int32.le_iff_toInt_le]
    exact h
  rw [Int32.toNat_toUInt32_of_le h0]
  exact Int.toNat_of_nonneg h

theorem toNat_toUInt32_eq (x : Int32) : x.toUInt32.toNat = toUint x.toInt := by
  have hbits : x.toInt = x.toBitVec.toInt := rfl
  have hlt := x.toBitVec.isLt
  show x.toBitVec.toNat = _
  rw [hbits, BitVec.toInt_eq_toNat_cond]
  unfold toUint
  split <;> omega

theorem toInt_toInt32 (x : UInt32) : x.toInt32.toInt = toInt x.toNat := by
  have hlt := x.toNat_lt
  have hbits : x.toInt32.toInt = x.toBitVec.toInt := rfl
  rw [hbits, BitVec.toInt_eq_toNat_cond, UInt32.toNat_toBitVec]
  unfold toInt
  split <;> omega

/-! ## Results that fit -/

section

variable {a b : Int32}

theorem toInt_add_of_fits (hlo : -2147483648 ≤ a.toInt + b.toInt) (hhi : a.toInt + b.toInt < 2147483648) :
    (a + b).toInt = a.toInt + b.toInt := by
  rw [← Int32.ofInt_toInt a, ← Int32.ofInt_toInt b, ← Int32.ofInt_add, Int32.ofInt_toInt,
    Int32.ofInt_toInt, Int32.toInt_ofInt_of_le hlo hhi]

theorem toInt_sub_of_fits (hlo : -2147483648 ≤ a.toInt - b.toInt) (hhi : a.toInt - b.toInt < 2147483648) :
    (a - b).toInt = a.toInt - b.toInt := by
  rw [← Int32.ofInt_toInt a, ← Int32.ofInt_toInt b, ← Int32.ofInt_sub, Int32.ofInt_toInt,
    Int32.ofInt_toInt, Int32.toInt_ofInt_of_le hlo hhi]

theorem toInt_mul_of_fits (hlo : -2147483648 ≤ a.toInt * b.toInt) (hhi : a.toInt * b.toInt < 2147483648) :
    (a * b).toInt = a.toInt * b.toInt := by
  rw [← Int32.ofInt_toInt a, ← Int32.ofInt_toInt b, ← Int32.ofInt_mul, Int32.ofInt_toInt,
    Int32.ofInt_toInt, Int32.toInt_ofInt_of_le hlo hhi]

/-- A multiple from an offset on, the product taken on its own. -/
theorem toInt_mul_add_of_fits {n k : Nat} (hk : a.toInt = k) (hhi : b.toInt + n * k < 2147483648) :
    (Int32.ofNat n * a + b).toInt = b.toInt + n * k := by
  have hlo := b.le_toInt
  have hnonneg : (0 : Int) ≤ (n : Int) * k := Int.mul_nonneg (Int.natCast_nonneg n) (Int.natCast_nonneg k)
  have heq : Int32.ofNat n * a + b = Int32.ofInt (b.toInt + n * k) := by
    rw [← Int32.ofInt_eq_ofNat, ← Int32.ofInt_toInt a, hk, ← Int32.ofInt_mul, ← Int32.ofInt_toInt b,
      ← Int32.ofInt_add, Int32.ofInt_toInt, Int.add_comm]
  rw [heq, Int32.toInt_ofInt_of_le (by omega) (by omega)]

theorem toInt_div_of_one_lt {i k : Int} (ha : a.toInt = i) (hb : b.toInt = k) (hk : 1 < k) :
    (a / b).toInt = i.tdiv k := by
  rw [Int32.toInt_div_of_ne_right _ _ ?_, ha, hb]
  rintro rfl
  have hneg : (-1 : Int32).toInt = -1 := rfl
  omega

end

/-! ## Division

`idiv` faults when it divides by zero, and when the quotient is no `int`. -/

/-- The operands for which `idiv` does not fault. -/
def Divides (a b : Int32) : Prop := b ≠ 0 ∧ ¬(a = Int32.minValue ∧ b = -1)

instance (a b : Int32) : Decidable (Divides a b) := inferInstanceAs (Decidable (_ ∧ _))

theorem divides_of_pos {a b : Int32} (hb : 0 < b.toInt) : Divides a b := by
  constructor
  · rintro rfl
    exact absurd hb (by decide)
  · rintro ⟨-, rfl⟩
    exact absurd hb (by decide)

theorem divides_of_nonneg {a b : Int32} (ha : 0 ≤ a.toInt) (hb : b ≠ 0) : Divides a b := by
  refine ⟨hb, ?_⟩
  rintro ⟨rfl, -⟩
  exact absurd ha (by decide)

/-- Quotient and remainder of numbers that are not negative. -/
theorem toInt_div_mod_of_nonneg {a b : Int32} (ha : 0 ≤ a.toInt) (hb : 0 < b.toInt) :
    (a / b).toInt = a.toInt / b.toInt ∧ (a % b).toInt = a.toInt % b.toInt := by
  constructor
  · rw [Int32.toInt_div_of_ne_right a b ?_, Int.tdiv_eq_ediv_of_nonneg ha]
    rintro rfl
    exact absurd hb (by decide)
  · rw [Int32.toInt_mod, Int.tmod_eq_emod_of_nonneg ha]

/-- Division rounds towards zero: the blocks of `k` numbers that meet an interval are among those from the
quotient of its one end to that of the other. -/
theorem tdiv_le_and_le_tdiv {lo hi i n k : Int} (hk : 0 < k) (hn : 0 ≤ n) (hlo : lo ≤ i) (hhi : i < hi)
    (hblock : n * k ≤ i) (hblock' : i < (n + 1) * k) : lo.tdiv k ≤ n ∧ n ≤ hi.tdiv k := by
  have hi0 : 0 ≤ i := Int.le_trans (Int.mul_nonneg hn (Int.le_of_lt hk)) hblock
  constructor
  · rcases Int.lt_or_le lo 0 with hneg | hpos
    · have hquot : 0 ≤ (-lo).tdiv k := Int.tdiv_nonneg (by omega) (Int.le_of_lt hk)
      rw [Int.neg_tdiv] at hquot
      omega
    · rw [Int.tdiv_eq_ediv_of_nonneg hpos]
      exact Int.lt_add_one_iff.mp (Int.ediv_lt_of_lt_mul hk (by omega))
  · rw [Int.tdiv_eq_ediv_of_nonneg (by omega)]
    exact (Int.le_ediv_iff_mul_le hk).mpr (by omega)

/-! ## Loops -/

/-- The values of `i` in `for (int i = first; i <= last; i++)`. -/
def upTo (first last : Int32) : List Int32 :=
  (List.range (last.toInt + 1 - first.toInt).toNat).map fun k => first + Int32.ofNat k

/-- The values of `i` in `for (int i = first; i < last; i++)`. -/
def below (first last : Int32) : List Int32 :=
  (List.range (last.toInt - first.toInt).toNat).map fun k => first + Int32.ofNat k

theorem forall_mem_upTo {P : Int32 → Prop} {first last : Int32} (hle : first.toInt ≤ last.toInt) :
    (∀ i ∈ upTo first last, P i) ↔
      ∀ k ≤ (last.toInt - first.toInt).toNat, P (first + Int32.ofNat k) := by
  simp only [upTo, List.forall_mem_map, List.mem_range]
  have hcount : (last.toInt + 1 - first.toInt).toNat = (last.toInt - first.toInt).toNat + 1 := by
    omega
  rw [hcount]
  constructor
  · intro h k hk
    exact h k (Nat.lt_succ_of_le hk)
  · intro h k hk
    exact h k (Nat.le_of_lt_succ hk)

theorem toInt_count {first : Int32} {n k : Nat} (hn : first.toInt + n ≤ 2147483648) (hk : k < n) :
    (first + Int32.ofNat k).toInt = first.toInt + k := by
  have hfirst := first.le_toInt
  rw [← Int32.ofInt_toInt first, ← Int32.ofInt_eq_ofNat, ← Int32.ofInt_add, Int32.ofInt_toInt,
    Int32.toInt_ofInt_of_le (by omega) (by omega)]

/-- Counting from `first` on, as long as it fits. -/
theorem mem_count {first i : Int32} {n : Nat} (hn : first.toInt + n ≤ 2147483648) :
    i ∈ (List.range n).map (fun k => first + Int32.ofNat k) ↔
      first.toInt ≤ i.toInt ∧ i.toInt < first.toInt + n := by
  have hadd (k : Nat) (hk : k < n) := toInt_count hn hk
  simp only [List.mem_map, List.mem_range]
  constructor
  · rintro ⟨k, hk, rfl⟩
    rw [hadd k hk]
    omega
  · rintro ⟨hle, hlt⟩
    refine ⟨(i.toInt - first.toInt).toNat, by omega, ?_⟩
    rw [← Int32.toInt_inj, hadd _ (by omega)]
    omega

theorem mem_below {first last i : Int32} :
    i ∈ below first last ↔ first.toInt ≤ i.toInt ∧ i.toInt < last.toInt := by
  have hlast := last.toInt_lt
  have hfirst := first.toInt_lt
  rw [below, mem_count (by omega)]
  omega

/-- No value comes twice. -/
theorem nodup_below (first last : Int32) : (below first last).Nodup := by
  have hlast := last.toInt_lt
  have hfirst := first.toInt_lt
  apply List.Nodup.map_on _ List.nodup_range
  intro k hk j hj heq
  have hfits : first.toInt + (last.toInt - first.toInt).toNat ≤ 2147483648 := by omega
  have hval := congrArg Int32.toInt heq
  rw [toInt_count hfits (List.mem_range.mp hk), toInt_count hfits (List.mem_range.mp hj)] at hval
  omega

/-- The `s` numbers from the `x`th multiple of `s` on. -/
theorem mem_below_block {x s i : Int32} (hx : 0 ≤ x.toInt) (hs : 0 < s.toInt)
    (hfits : (x.toInt + 1) * s.toInt < 2147483648) :
    i ∈ below (x * s) ((x + 1) * s) ↔
      x.toInt * s.toInt ≤ i.toInt ∧ i.toInt < (x.toInt + 1) * s.toInt := by
  have hone : (1 : Int32).toInt = 1 := rfl
  have hblock : (x.toInt + 1) * s.toInt = x.toInt * s.toInt + s.toInt := by
    rw [Int.add_mul, Int.one_mul]
  have hstart : 0 ≤ x.toInt * s.toInt := Int.mul_nonneg hx (Int.le_of_lt hs)
  have hle : (x.toInt + 1) * 1 ≤ (x.toInt + 1) * s.toInt :=
    Int.mul_le_mul_of_nonneg_left (by omega) (by omega)
  have hsucc : (x + 1).toInt = x.toInt + 1 := by
    rw [toInt_add_of_fits (by omega) (by omega), hone]
  rw [mem_below, toInt_mul_of_fits (by omega) (by omega),
    toInt_mul_of_fits (by rw [hsucc]; omega) (by rw [hsucc]; omega), hsucc]

theorem mem_upTo {first last i : Int32} :
    i ∈ upTo first last ↔ first.toInt ≤ i.toInt ∧ i.toInt ≤ last.toInt := by
  have hlast := last.toInt_lt
  have hfirst := first.toInt_lt
  rw [upTo, mem_count (by omega)]
  omega

section

variable {σ : Type} (n : UInt32)

/-- `for (; i < n; i++)` with a `uint` counter: the counter and the state it leaves. There are at most
`fuel` iterations. -/
def forUint (body : UInt32 → σ → σ) : Nat → UInt32 → σ → UInt32 × σ
  | 0, i, s => (i, s)
  | fuel + 1, i, s => if i < n then forUint body fuel (i + 1) (body i s) else (i, s)

/-- The same loop with an `int` counter, which the comparison converts to `uint`. -/
def forInt (body : Int32 → σ → σ) : Nat → Int32 → σ → Int32 × σ
  | 0, i, s => (i, s)
  | fuel + 1, i, s => if i.toUInt32 < n then forInt body fuel (i + 1) (body i s) else (i, s)

variable {n} {fuel : Nat}

/-- A loop comes to its end with `i = n`, and what every iteration keeps holds there. -/
theorem forUint_rule {P : Nat → σ → Prop} {body : UInt32 → σ → σ}
    (hstep : ∀ i s, i < n → P i.toNat s → P (i.toNat + 1) (body i s)) {i : UInt32} {s : σ}
    (hi : i ≤ n) (hfuel : n.toNat ≤ i.toNat + fuel) (h : P i.toNat s) :
    ∃ s', forUint n body fuel i s = (n, s') ∧ P n.toNat s' := by
  induction fuel generalizing i s with
  | zero =>
    have hend : i = n := UInt32.toNat_inj.mp (Nat.le_antisymm hi hfuel)
    subst hend
    exact ⟨s, rfl, h⟩
  | succ fuel ih =>
    rw [forUint]
    split
    case isTrue hlt =>
      have hnat : i.toNat < n.toNat := hlt
      have hn := n.toNat_lt
      have hnext : (i + 1).toNat = i.toNat + 1 := by
        rw [UInt32.toNat_add, UInt32.toNat_one]
        omega
      apply ih
      · show (i + 1).toNat ≤ n.toNat
        omega
      · omega
      · rw [hnext]
        exact hstep i s hlt h
    case isFalse hge =>
      have hend : i = n := UInt32.toNat_inj.mp (Nat.le_antisymm hi (Nat.le_of_not_lt hge))
      subst hend
      exact ⟨s, rfl, h⟩

/-- A loop whose state before iteration `k` is `f k`. -/
theorem forUint_eq (f : Nat → σ) {body : UInt32 → σ → σ}
    (hstep : ∀ i, i < n → body i (f i.toNat) = f (i.toNat + 1)) {i : UInt32} {s : σ}
    (hi : i ≤ n) (hfuel : n.toNat ≤ i.toNat + fuel) (h : s = f i.toNat) :
    forUint n body fuel i s = (n, f n.toNat) := by
  obtain ⟨s', heq, rfl⟩ := forUint_rule (P := fun k s => s = f k)
    (fun i s hlt hs => hs ▸ hstep i hlt) hi hfuel h
  exact heq

/-- The two loops do the same with the same bits. -/
theorem forInt_eq_forUint {body : Int32 → σ → σ} {i : Int32} {s : σ} :
    forInt n body fuel i s =
      ((forUint n (fun k => body k.toInt32) fuel i.toUInt32 s).1.toInt32,
        (forUint n (fun k => body k.toInt32) fuel i.toUInt32 s).2) := by
  induction fuel generalizing i s with
  | zero => simp [forInt, forUint]
  | succ fuel ih =>
    have hnext : (i + 1).toUInt32 = i.toUInt32 + 1 := rfl
    rw [forInt, forUint]
    split
    · rw [ih, hnext, Int32.toInt32_toUInt32]
    · rw [Int32.toInt32_toUInt32]

theorem forInt_eq (f : Nat → σ) {body : Int32 → σ → σ}
    (hstep : ∀ i : UInt32, i < n → body i.toInt32 (f i.toNat) = f (i.toNat + 1)) {i : Int32} {s : σ}
    (hi : i.toUInt32 ≤ n) (hfuel : n.toNat ≤ i.toUInt32.toNat + fuel) (h : s = f i.toUInt32.toNat) :
    forInt n body fuel i s = (n.toInt32, f n.toNat) := by
  rw [forInt_eq_forUint, forUint_eq f hstep hi hfuel h]

end

end CInt
