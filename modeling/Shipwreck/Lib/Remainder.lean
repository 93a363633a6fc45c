import Shipwreck.Lib.CInt

/-!
# Remainders as indices

`a[i % max]` with `int` operands. The remainder has the sign of `i`, whatever the sign of `max`, so that a
negative `i` is an index only if it is a multiple of `max`; and the index is below `max`, which says
nothing about the number of cells.

`runIndexes_iff` says when all of some consecutive `i` are in order. They are counted with wrap-around:
the last one may be the least `int`.
-/

namespace CInt

/-- Consecutive numbers have remainders below a bound only if all remainders are, or if they end before the
bound. -/
theorem add_mod_lt_iff {m cap s n : Nat} (hm : 0 < m) :
    (∀ k ≤ n, (s + k) % m < cap) ↔ m ≤ cap ∨ s % m + n < cap := by
  constructor
  · intro h
    by_contra hnot
    rw [not_or, Nat.not_le, Nat.not_lt] at hnot
    have hfirst := h 0 (Nat.zero_le n)
    -- the first number whose remainder is no longer below the bound
    have hbad : (s + (cap - s % m)) % m = cap := by
      have hsplit : s + (cap - s % m) = m * (s / m) + cap := by
        have hs := Nat.div_add_mod s m
        rw [Nat.add_zero] at hfirst
        omega
      rw [hsplit, Nat.mul_add_mod, Nat.mod_eq_of_lt hnot.1]
    have hlt := h (cap - s % m) (by omega)
    omega
  · rintro (hall | hroom) k hk
    · exact Nat.lt_of_lt_of_le (Nat.mod_lt _ hm) hall
    · have hle : (s % m + k) % m ≤ s % m + k := Nat.mod_le _ _
      rw [Nat.mod_add_mod] at hle
      omega

theorem toInt_add_ofNat (s : Int32) {k : Nat} (hk : k < 2147483648) :
    (s + Int32.ofNat k).toInt =
      if s.toInt + k < 2147483648 then s.toInt + k else s.toInt + k - 4294967296 := by
  have hlo := s.le_toInt
  have hhi := s.toInt_lt
  have hofNat : (Int32.ofNat k).toInt = k := Int32.toInt_ofNat_of_lt hk
  rw [Int32.toInt_add, hofNat, Int.bmod_def]
  split <;> split <;> omega

/-- A remainder is not negative if the number is not, or if it is a multiple. -/
theorem tmod_nonneg_iff {a b : Int} : 0 ≤ a.tmod b ↔ 0 ≤ a ∨ b ∣ a := by
  rcases Int.le_total 0 a with ha | ha
  · exact iff_of_true (Int.tmod_nonneg b ha) (Or.inl ha)
  · have hneg : 0 ≤ (-a).tmod b := Int.tmod_nonneg b (by omega)
    rw [Int.neg_tmod] at hneg
    rw [Int.dvd_iff_tmod_eq_zero]
    constructor
    · intro h
      exact Or.inr (by omega)
    · rintro (h | h)
      · have hzero : a = 0 := Int.le_antisymm ha h
        have hrem : a.tmod b = 0 := by rw [hzero, Int.zero_tmod]
        exact Int.le_of_eq hrem.symm
      · exact Int.le_of_eq h.symm

/-! ## Remainders as indices

`a[i % max]` with `int` operands: the remainder has the sign of `i`, whatever the sign of `max`. -/

/-- `i % max` does not fault, and is the index of one of `cap` cells. -/
def Indexes (cap : Nat) (max i : Int32) : Prop :=
  Divides i max ∧ 0 ≤ (i % max).toInt ∧ (i % max).toInt < cap

instance (cap : Nat) (max i : Int32) : Decidable (Indexes cap max i) :=
  inferInstanceAs (Decidable (_ ∧ _))

/-- The same for the `n + 1` numbers from `first` on, which are counted with wrap-around. -/
def RunIndexes (cap : Nat) (max first : Int32) (n : Nat) : Prop :=
  if n = 0 then Indexes cap max first
  else if max.toInt.natAbs = 1 then
    0 < cap ∧ (max = -1 → first ≠ Int32.minValue ∧
      (0 ≤ first.toInt → first.toInt + n < 2147483648))
  else
    max ≠ 0 ∧ 0 ≤ first.toInt ∧
      (first.toInt + n < 2147483648 ∨
        first.toInt + n = 2147483648 ∧ max.toInt.natAbs ∣ 2147483648) ∧
      (max.toInt.natAbs ≤ cap ∨ first.toInt.toNat % max.toInt.natAbs + n < cap)

instance (cap : Nat) (max first : Int32) (n : Nat) : Decidable (RunIndexes cap max first n) :=
  inferInstanceAs (Decidable (ite _ _ (ite _ _ _)))

section

variable {cap : Nat} {max i first : Int32} {n : Nat}

theorem natAbs_pos_of_ne (hmax : max ≠ 0) : 0 < max.toInt.natAbs :=
  Int.natAbs_pos.mpr fun hzero => hmax (Int32.toInt_inj.mp hzero)

/-- The remainder of a number that is not negative. -/
theorem toInt_mod_of_nonneg (hi : 0 ≤ i.toInt) :
    (i % max).toInt = (i.toInt.toNat % max.toInt.natAbs : Nat) := by
  rw [Int32.toInt_mod, Int.tmod_eq_emod_of_nonneg hi, Int.natCast_emod, Int.toNat_of_nonneg hi]
  rcases Int.natAbs_eq max.toInt with hpos | hneg
  · rw [← hpos]
  · conv_lhs => rw [hneg, Int.emod_neg]

theorem indexes_of_nonneg (hmax : max ≠ 0) (hi : 0 ≤ i.toInt) :
    Indexes cap max i ↔ i.toInt.toNat % max.toInt.natAbs < cap := by
  rw [Indexes, toInt_mod_of_nonneg hi, and_iff_right (divides_of_nonneg hi hmax),
    and_iff_right (Int.natCast_nonneg _), Int.ofNat_lt]

/-- A negative number has to be a multiple. -/
theorem indexes_of_neg (hi : i.toInt < 0) :
    Indexes cap max i ↔ Divides i max ∧ max.toInt ∣ i.toInt ∧ 0 < cap := by
  rw [Indexes, Int32.toInt_mod, tmod_nonneg_iff, or_iff_right (Int.not_le.mpr hi)]
  apply and_congr_right
  intro _
  apply and_congr_right
  intro hdvd
  rw [Int.dvd_iff_tmod_eq_zero.mp hdvd]
  omega

end

section

variable {cap : Nat} {max first : Int32} {n : Nat}

/-- All numbers leave the remainder 0. -/
theorem indexes_of_one {i : Int32} (hone : max.toInt.natAbs = 1) :
    Indexes cap max i ↔ 0 < cap ∧ (max = -1 → i ≠ Int32.minValue) := by
  have hne : max ≠ 0 := by
    rintro rfl
    cases hone
  have hrem : (i % max).toInt = 0 := by
    rw [Int32.toInt_mod]
    apply Int.dvd_iff_tmod_eq_zero.mp
    exact Int.natAbs_dvd.mp (hone ▸ Int.one_dvd _)
  rw [Indexes, hrem, Divides, and_iff_right hne, and_iff_right (Int.le_refl 0)]
  constructor
  · rintro ⟨hdiv, hcap⟩
    exact ⟨by omega, fun hmax hi => hdiv ⟨hi, hmax⟩⟩
  · rintro ⟨hcap, hdiv⟩
    exact ⟨fun h => hdiv h.2 h.1, by omega⟩

/-- Numbers counted from `first` on reach the least `int` only from there, or by wrapping around. -/
theorem count_ne_minValue_iff (hn : n < 2147483648) :
    (∀ k ≤ n, first + Int32.ofNat k ≠ Int32.minValue) ↔
      first ≠ Int32.minValue ∧ (0 ≤ first.toInt → first.toInt + n < 2147483648) := by
  have hmin : Int32.minValue.toInt = -2147483648 := rfl
  have hlo := first.le_toInt
  have hhi := first.toInt_lt
  have hcount (k : Nat) (hk : k ≤ n) := toInt_add_ofNat first (k := k) (by omega)
  constructor
  · -- `first` itself, and the number after the greatest `int`
    intro h
    refine ⟨?_, fun hpos => ?_⟩
    · have hzero := h 0 (Nat.zero_le n)
      have hadd : first + Int32.ofNat 0 = first := Int32.add_zero first
      rw [hadd] at hzero
      exact hzero
    · by_contra hwrap
      have hk : (2147483648 - first.toInt).toNat ≤ n := by omega
      apply h _ hk
      apply Int32.toInt_inj.mp
      rw [hcount _ hk, hmin]
      split <;> omega
  · rintro ⟨hne, hroom⟩ k hk heq
    have hsum := hcount k hk
    rw [heq, hmin] at hsum
    split at hsum
    · apply hne
      apply Int32.toInt_inj.mp
      rw [hmin]
      omega
    · omega

/-- No two neighbours are multiples. -/
theorem natAbs_eq_one_of_dvd {a b : Int} (ha : b ∣ a) (ha' : b ∣ a + 1) : b.natAbs = 1 := by
  have hone : b ∣ 1 := by
    have hsub := Int.dvd_sub ha' ha
    have heq : a + 1 - a = 1 := by omega
    rwa [heq] at hsub
  exact Nat.dvd_one.mp (Int.natAbs_dvd_natAbs.mpr hone)

/-- Where a remainder can be something else than 0, the numbers are not negative, and no more than the
last one wraps around. -/
theorem run_nonneg (hn : n < 2147483648) (hn0 : n ≠ 0) (hone : max.toInt.natAbs ≠ 1)
    (h : ∀ k ≤ n, Indexes cap max (first + Int32.ofNat k)) :
    0 ≤ first.toInt ∧ (first.toInt + n < 2147483648 ∨
      first.toInt + n = 2147483648 ∧ max.toInt.natAbs ∣ 2147483648) := by
  have hlo := first.le_toInt
  have hhi := first.toInt_lt
  have hcount (k : Nat) (hk : k ≤ n) := toInt_add_ofNat first (k := k) (by omega)
  -- a number that has come out negative is a multiple
  have hdvd (k : Nat) (hk : k ≤ n) (hneg : (first + Int32.ofNat k).toInt < 0) :
      max.toInt ∣ (first + Int32.ofNat k).toInt := ((indexes_of_neg hneg).mp (h k hk)).2.1
  have hpos : 0 ≤ first.toInt := by
    by_contra hneg
    have h0 := hcount 0 (Nat.zero_le n)
    have h1 := hcount 1 (by omega)
    rw [if_pos (by omega)] at h0 h1
    have hd0 := hdvd 0 (Nat.zero_le n) (by omega)
    rw [h0] at hd0
    apply hone
    -- 0 is a multiple too, so that two neighbours are
    apply natAbs_eq_one_of_dvd hd0
    rcases Int.lt_or_le (first.toInt + 1) 0 with hlt | hge
    · have hd1 := hdvd 1 (by omega) (by omega)
      have heq : first.toInt + (0 : Nat) + 1 = first.toInt + (1 : Nat) := by omega
      rw [h1] at hd1
      rw [heq]
      exact hd1
    · have hzero : first.toInt + (0 : Nat) + 1 = 0 := by omega
      rw [hzero]
      exact Int.dvd_zero _
  refine ⟨hpos, ?_⟩
  rcases Int.lt_or_le (first.toInt + n) 2147483648 with hlt | hge
  · exact Or.inl hlt
  · right
    have hk : (2147483648 - first.toInt).toNat ≤ n := by omega
    have hmin := hcount _ hk
    rw [if_neg (by omega)] at hmin
    have hd := hdvd _ hk (by omega)
    have hval : first.toInt + ((2147483648 - first.toInt).toNat : Nat) - 4294967296 =
        -2147483648 := by omega
    rw [hmin, hval] at hd
    refine ⟨?_, Int.natAbs_dvd_natAbs.mpr hd⟩
    by_contra hmore
    have hnext := hcount ((2147483648 - first.toInt).toNat + 1) (by omega)
    rw [if_neg (by omega)] at hnext
    have hd' := hdvd ((2147483648 - first.toInt).toNat + 1) (by omega) (by omega)
    have hval' : first.toInt + ((2147483648 - first.toInt).toNat + 1 : Nat) - 4294967296 =
        -2147483648 + 1 := by omega
    rw [hnext, hval'] at hd'
    exact hone (natAbs_eq_one_of_dvd hd hd')

/-- **Consecutive numbers as indices.** -/
theorem runIndexes_iff (hn : n < 2147483648) :
    (∀ k ≤ n, Indexes cap max (first + Int32.ofNat k)) ↔ RunIndexes cap max first n := by
  unfold RunIndexes
  split
  case isTrue hzero =>
    subst hzero
    have hadd : first + Int32.ofNat 0 = first := Int32.add_zero first
    constructor
    · intro h
      rw [← hadd]
      exact h 0 (Nat.le_refl 0)
    · intro h k hk
      rw [Nat.le_zero.mp hk, hadd]
      exact h
  case isFalse hn0 =>
    split
    case isTrue hone =>
      rw [← count_ne_minValue_iff hn]
      simp only [indexes_of_one hone]
      constructor
      · intro h
        exact ⟨(h 0 (Nat.zero_le n)).1, fun hmax k hk => (h k hk).2 hmax⟩
      · rintro ⟨hcap, h⟩ k hk
        exact ⟨hcap, fun hmax => h hmax k hk⟩
    case isFalse hone =>
      have hcount (k : Nat) (hk : k ≤ n) := toInt_add_ofNat first (k := k) (by omega)
      constructor
      · intro h
        have hmax : max ≠ 0 := (h 0 (Nat.zero_le n)).1.1
        obtain ⟨hpos, hroom⟩ := run_nonneg hn hn0 hone h
        refine ⟨hmax, hpos, hroom, ?_⟩
        apply (add_mod_lt_iff (natAbs_pos_of_ne hmax)).mp
        intro k hk
        have hsum := hcount k hk
        split at hsum
        case isTrue =>
          have hindex := (indexes_of_nonneg hmax (by omega)).mp (h k hk)
          have hval : (first + Int32.ofNat k).toInt.toNat = first.toInt.toNat + k := by omega
          rwa [hval] at hindex
        case isFalse =>
          -- the one number that has wrapped around leaves the remainder 0
          obtain ⟨-, -, hcap⟩ := (indexes_of_neg (by omega)).mp (h k hk)
          have hval : first.toInt.toNat + k = 2147483648 := by omega
          rw [hval, Nat.mod_eq_zero_of_dvd (by omega)]
          exact hcap
      · rintro ⟨hmax, hpos, hroom, hbound⟩ k hk
        have hrem := (add_mod_lt_iff (natAbs_pos_of_ne hmax)).mpr hbound
        have hsum := hcount k hk
        split at hsum
        case isTrue =>
          rw [indexes_of_nonneg hmax (by omega)]
          have hval : (first + Int32.ofNat k).toInt.toNat = first.toInt.toNat + k := by omega
          rw [hval]
          exact hrem k hk
        case isFalse =>
          rw [indexes_of_neg (by omega)]
          have hfirst := hrem 0 (Nat.zero_le n)
          refine ⟨⟨hmax, ?_⟩, ?_, by omega⟩
          · rintro ⟨-, rfl⟩
            exact hone rfl
          · have hval : (first + Int32.ofNat k).toInt = -2147483648 := by omega
            rw [hval]
            exact Int.natAbs_dvd_natAbs.mp (hroom.resolve_left (by omega)).2

end

end CInt
