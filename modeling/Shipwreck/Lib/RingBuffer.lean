import Mathlib.Data.List.Induction
import Mathlib.Logic.Function.Basic

/-!
# Ring buffers

A sequence that grows at its end is kept in `n` cells, the element at position `p` in cell `p % n`. The
cells hold the positions from some `lo` on, no more than `n`; a write at a position behind them within one
lap of `lo` does no harm (`Holds.write_free`), and one directly behind them makes the sequence longer
(`Holds.push`). When a whole list is written, `writes_eq_self_iff` says which cells are as before.
-/

namespace RingBuffer

variable {α : Type*} {n lo lo' p q : Nat} {cells : Nat → α} {xs : List α} {a : α}

/-- Two positions at most one lap apart share a cell only if they are equal. -/
theorem mod_ne_of_window {N base i j : Nat} (hi : base ≤ i) (hi' : i < base + N) (hj : base ≤ j)
    (hj' : j < base + N) (hne : i ≠ j) : i % N ≠ j % N := by
  -- equal residues make the distance of the two positions a multiple of `N`, and it is below `N`
  have key : ∀ a b : Nat, a < b → b < a + N → a % N ≠ b % N := by
    intro a b hab hba hmod
    have hdvd : N ∣ b - a := Nat.dvd_of_mod_eq_zero (Nat.sub_mod_eq_zero_of_mod_eq hmod.symm)
    have hzero : b - a = 0 := Nat.eq_zero_of_dvd_of_lt hdvd (by omega)
    omega
  rcases Nat.lt_or_gt_of_ne hne with hlt | hgt
  · exact key i j hlt (by omega)
  · exact (key j i hgt (by omega)).symm

/-- Store the element of position `p`. -/
def write (n p : Nat) (a : α) (cells : Nat → α) : Nat → α := Function.update cells (p % n) a

/-- The cells hold the sequence from position `lo` on. -/
def Holds (n : Nat) (cells : Nat → α) (lo : Nat) (xs : List α) : Prop :=
  ∀ p a, lo ≤ p → xs[p]? = some a → cells (p % n) = a

@[simp] theorem write_self : write n p a cells (p % n) = a := Function.update_self ..

theorem write_of_window (hp : lo ≤ p) (hp' : p < lo + n) (hq : lo ≤ q) (hq' : q < lo + n)
    (hne : q ≠ p) : write n p a cells (q % n) = cells (q % n) :=
  Function.update_of_ne (mod_ne_of_window hq hq' hp hp' hne) ..

theorem Holds.mono (h : Holds n cells lo xs) (hle : lo ≤ lo') : Holds n cells lo' xs :=
  fun p a hp => h p a (Nat.le_trans hle hp)

theorem Holds.get (h : Holds n cells lo xs) (hp : lo ≤ p) (hp' : p < xs.length) :
    cells (p % n) = xs[p] :=
  h p xs[p] hp (List.getElem?_eq_getElem hp')

/-- A write behind the sequence and within a lap of `lo`. -/
theorem Holds.write_free (h : Holds n cells lo xs) (hq : xs.length ≤ q) (hq' : q < lo + n) :
    Holds n (write n q a cells) lo xs := by
  intro p b hp hb
  have hlen : p < xs.length := (List.getElem?_eq_some_iff.mp hb).1
  rw [write_of_window (by omega) hq' hp (by omega) (by omega)]
  exact h p b hp hb

/-- The next element, if it is in its cell already. -/
theorem Holds.extend (h : Holds n cells lo xs) (hcell : cells (xs.length % n) = a) :
    Holds n cells lo (xs ++ [a]) := by
  intro p b hp hb
  rcases Nat.lt_trichotomy p xs.length with hlt | heq | hgt
  · rw [List.getElem?_append_left hlt] at hb
    exact h p b hp hb
  · subst heq
    rw [List.getElem?_concat_length] at hb
    exact hcell.trans (Option.some.inj hb)
  · rw [List.getElem?_eq_none (by simp; omega)] at hb
    cases hb

/-- The next element. -/
theorem Holds.push (h : Holds n cells lo xs) (hroom : xs.length < lo + n) :
    Holds n (write n xs.length a cells) lo (xs ++ [a]) :=
  (h.write_free (Nat.le_refl _) hroom).extend write_self

/-- Without its last element. -/
theorem Holds.pop (h : Holds n cells lo xs) : Holds n cells lo xs.dropLast := by
  intro p b hp hb
  refine h p b hp ?_
  rw [List.getElem?_dropLast] at hb
  split at hb
  · exact hb
  · cases hb

/-! ## Writing a list -/

/-- Store the elements from position `p` on. -/
def writes (n : Nat) : Nat → List α → (Nat → α) → Nat → α
  | _, [], cells => cells
  | p, a :: xs, cells => writes n (p + 1) xs (write n p a cells)

theorem writes_append (xs ys : List α) :
    writes n p (xs ++ ys) cells = writes n (p + xs.length) ys (writes n p xs cells) := by
  induction xs generalizing p cells with
  | nil => rfl
  | cons a xs ih =>
    show writes n (p + 1) (xs ++ ys) (write n p a cells) = _
    rw [ih, List.length_cons]
    congr 1
    omega

theorem write_comm {b : α} (hne : p % n ≠ q % n) :
    write n p a (write n q b cells) = write n q b (write n p a cells) :=
  Function.update_comm hne.symm ..

/-- A later write to a position to which nothing else has gone. -/
theorem write_writes {b : α} (hlen : xs.length < n) :
    write n p b (writes n p (a :: xs) cells) = writes n p (b :: xs) cells := by
  have hlater : ∀ (ys : List α) q cells, p < q → q + ys.length ≤ p + n →
      write n p b (writes n q ys cells) = writes n q ys (write n p b cells) := by
    intro ys
    induction ys with
    | nil => exact fun _ _ _ _ => rfl
    | cons c ys ih =>
      intro q cells hq hys
      rw [List.length_cons] at hys
      show write n p b (writes n (q + 1) ys (write n q c cells)) = writes n (q + 1) ys _
      rw [ih (q + 1) _ (by omega) (by omega),
        write_comm (mod_ne_of_window (Nat.le_refl _) (by omega) (by omega) (by omega) (by omega))]
  show write n p b (writes n (p + 1) xs (write n p a cells)) = writes n (p + 1) xs (write n p b cells)
  rw [hlater xs (p + 1) _ (by omega) (by omega), write, write, Function.update_idem, write]

/-- **What the cells hold afterwards**: in each cell only the last element that goes there counts, one of
the last `n`. -/
theorem writes_eq_self_iff {c : Nat} (hn : 0 < n) : writes n p xs cells c = cells c ↔
    ∀ i a, xs[i]? = some a → xs.length ≤ i + n → (p + i) % n = c → a = cells c := by
  induction xs using List.reverseRecOn with
  | nil => simp [writes]
  | append_singleton xs b ih =>
    rw [writes_append, List.length_append, List.length_singleton]
    show write n (p + xs.length) b (writes n p xs cells) c = _ ↔ _
    have hsplit : ∀ {i a}, (xs ++ [b])[i]? = some a → xs[i]? = some a ∧ i < xs.length ∨
        a = b ∧ i = xs.length := by
      intro i a ha
      rcases Nat.lt_trichotomy i xs.length with hlt | heq | hgt
      · rw [List.getElem?_append_left hlt] at ha
        exact .inl ⟨ha, hlt⟩
      · rw [heq, List.getElem?_concat_length] at ha
        exact .inr ⟨(Option.some.inj ha).symm, heq⟩
      · rw [List.getElem?_eq_none (by simp; omega)] at ha
        cases ha
    by_cases hc : (p + xs.length) % n = c
    · subst hc
      rw [write_self]
      constructor
      · intro hb i a ha hi hcell
        rcases hsplit ha with ⟨-, hlt⟩ | ⟨rfl, -⟩
        · -- within a lap of the end there is no second position for this cell
          exact absurd hcell
            (mod_ne_of_window (Nat.le_refl _) (by omega) (by omega) (by omega) (by omega))
        · exact hb
      · intro h
        exact h _ b List.getElem?_concat_length (by omega) rfl
    · rw [write, Function.update_of_ne (Ne.symm hc), ih]
      constructor
      · intro h i a ha hi hcell
        rcases hsplit ha with ⟨ha, -⟩ | ⟨-, rfl⟩
        · exact h i a ha (by omega) hcell
        · exact absurd hcell hc
      · intro h i a ha hi hcell
        have hlt := (List.getElem?_eq_some_iff.mp ha).1
        refine h i a ((List.getElem?_append_left hlt).trans ha) ?_ hcell
        -- an element a whole lap before `b` would be for the cell of `b`
        by_contra hlap
        have hlen : xs.length = i + n := by omega
        rw [hlen, ← Nat.add_assoc, Nat.add_mod_right] at hc
        exact hc hcell

end RingBuffer
