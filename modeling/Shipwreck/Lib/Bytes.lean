import Mathlib.Logic.Function.Basic

/-!
# Byte memory with 32-bit addresses

A memory is a function from addresses to bytes. Code that fills a buffer piece by piece is described
by `fill mem p n f`: the `n` bytes from `p` on, counted around the end of the address space, become
`f 0, f 1, ...`, and every other byte stays. A fill that starts where another one ended extends it
(`fill_fill`), so that a loop over consecutive pieces is one induction.
-/

/-- A byte-addressed memory. -/
abbrev ByteMem := UInt32 → UInt8

namespace ByteMem

/-- The bytes `f 0 .. f (n - 1)` are stored from `p` on. -/
def fill (mem : ByteMem) (p : UInt32) (n : Nat) (f : Nat → UInt8) : ByteMem :=
  fun a => if (a - p).toNat < n then f (a - p).toNat else mem a

variable {mem : ByteMem} {p : UInt32} {n k : Nat} {f g : Nat → UInt8}

@[simp] theorem fill_zero : mem.fill p 0 f = mem := by
  funext a
  simp [fill]

/-- Reading a stored byte. -/
theorem fill_apply {i : Nat} (hi : i < n) (hn : n ≤ 4294967296) :
    mem.fill p n f (p + UInt32.ofNat i) = f i := by
  have hsub : (p + UInt32.ofNat i - p).toNat = i := by
    rw [UInt32.add_comm, UInt32.add_sub_cancel, UInt32.toNat_ofNat']
    omega
  rw [fill, hsub, if_pos hi]

theorem fill_congr (h : ∀ i, i < n → f i = g i) : mem.fill p n f = mem.fill p n g := by
  funext a
  simp only [fill]
  split
  · rename_i hlt
    exact h _ hlt
  · rfl

/-- **A fill that starts where another one ended extends it.** -/
theorem fill_fill (h : n + k ≤ 4294967296) :
    (mem.fill p n f).fill (p + UInt32.ofNat n) k g =
      mem.fill p (n + k) fun i => if i < n then f i else g (i - n) := by
  funext a
  -- seen from the second piece, the addresses of the first lie behind the end of the second
  have hoff : (a - (p + UInt32.ofNat n)).toNat =
      ((a - p).toNat + (4294967296 - n)) % 4294967296 := by
    have ha := a.toNat_lt
    have hp := p.toNat_lt
    simp only [UInt32.toNat_sub, UInt32.toNat_add, UInt32.toNat_ofNat']
    omega
  have hlt := (a - p).toNat_lt
  simp only [fill, hoff]
  rcases Nat.lt_or_ge (a - p).toNat n with hd | hd
  · rw [if_neg (by omega), if_pos hd, if_pos (by omega), if_pos hd]
  · have hback : ((a - p).toNat + (4294967296 - n)) % 4294967296 = (a - p).toNat - n := by
      omega
    rw [hback]
    by_cases hk : (a - p).toNat - n < k
    · rw [if_pos hk, if_pos (by omega), if_neg (by omega)]
    · rw [if_neg hk, if_neg (by omega), if_neg (by omega)]

/-- The next piece of the same bytes. -/
theorem fill_more (hn : n + k ≤ 4294967296) (hg : ∀ i, i < k → g i = f (n + i)) :
    (mem.fill p n f).fill (p + UInt32.ofNat n) k g = mem.fill p (n + k) f := by
  rw [fill_fill hn]
  apply fill_congr
  intro i hi
  split
  case isTrue => rfl
  case isFalse hge => rw [hg (i - n) (by omega), Nat.add_sub_cancel' (Nat.le_of_not_lt hge)]

/-- Storing a single byte. -/
theorem update_eq_fill {b : UInt8} : Function.update mem p b = mem.fill p 1 fun _ => b := by
  funext a
  have hzero : (a - p).toNat < 1 ↔ a = p := by
    rw [Nat.lt_one_iff, ← UInt32.toNat_zero, UInt32.toNat_inj, UInt32.sub_eq_iff_eq_add,
      UInt32.zero_add]
  by_cases h : a = p
  · subst h
    simp [fill]
  · rw [Function.update_of_ne h, fill, if_neg fun hlt => h (hzero.mp hlt)]

/-- One more byte. -/
theorem update_fill (hn : n + 1 ≤ 4294967296) :
    Function.update (mem.fill p n f) (p + UInt32.ofNat n) (f n) = mem.fill p (n + 1) f := by
  rw [update_eq_fill]
  apply fill_more hn
  intro i hi
  rw [Nat.lt_one_iff.mp hi, Nat.add_zero]

/-- Storing byte after byte. -/
theorem foldl_update_eq_fill (hn : n ≤ 4294967296) :
    (List.range n).foldl (fun mem i => Function.update mem (p + UInt32.ofNat i) (f i)) mem =
      mem.fill p n f := by
  induction n with
  | zero => rw [fill_zero]; rfl
  | succ n ih =>
    rw [List.range_succ, List.foldl_append, ih (Nat.le_of_succ_le hn)]
    exact update_fill hn

/-- The bytes from `p` on. -/
def view (mem : ByteMem) (p : UInt32) : Nat → UInt8 := fun i => mem (p + UInt32.ofNat i)

/-- Seen from further on. -/
theorem view_add {i j : Nat} : mem.view (p + UInt32.ofNat i) j = mem.view p (i + j) := by
  rw [view, view, UInt32.ofNat_add, UInt32.add_assoc]

/-- A fill leaves the bytes it does not store. -/
theorem fill_of_ne {a : UInt32} (h : ∀ i, i < n → a ≠ p + UInt32.ofNat i) :
    mem.fill p n f a = mem a := by
  rw [fill]
  split
  case isTrue hlt =>
    have haddr : a = p + UInt32.ofNat (a - p).toNat := by
      rw [UInt32.ofNat_toNat, UInt32.add_comm, UInt32.sub_add_cancel]
    exact absurd haddr (h _ hlt)
  case isFalse => rfl

/-! ## Words -/

/-- Four bytes read as a little-endian word. -/
def loadWord (f : Nat → UInt8) (i : Nat) : BitVec 32 :=
  (f (i + 3)).toBitVec ++ (f (i + 2)).toBitVec ++ (f (i + 1)).toBitVec ++ (f i).toBitVec

/-- Byte `j` of a word. -/
def wordByte (w : BitVec 32) (j : Nat) : UInt8 := ⟨w.extractLsb' (8 * j) 8⟩

/-- A little-endian word is stored at `p`. -/
def storeWord (mem : ByteMem) (p : UInt32) (w : BitVec 32) : ByteMem := mem.fill p 4 (wordByte w)

theorem wordByte_loadWord (i j : Nat) (hj : j < 4) : wordByte (loadWord f i) j = f (i + j) := by
  apply UInt8.toBitVec_inj.mp
  apply BitVec.eq_of_getLsbD_eq
  intro b hb
  have hfirst : i + 0 = i := rfl
  simp only [wordByte, loadWord, BitVec.getLsbD_extractLsb', BitVec.getLsbD_append, hb, decide_true,
    Bool.true_and]
  obtain rfl | rfl | rfl | rfl : j = 0 ∨ j = 1 ∨ j = 2 ∨ j = 3 := by omega
  · rw [if_pos (by omega), hfirst, show 8 * 0 + b = b by omega]
  · rw [if_neg (by omega), if_pos (by omega), show 8 * 1 + b - 8 = b by omega]
  · rw [if_neg (by omega), if_neg (by omega), if_pos (by omega),
      show 8 * 2 + b - 8 - 8 = b by omega]
  · rw [if_neg (by omega), if_neg (by omega), if_neg (by omega),
      show 8 * 3 + b - 8 - 8 - 8 = b by omega]

/-- Words are equal when their bytes are. -/
theorem loadWord_eq_iff {i k : Nat} :
    loadWord f i = loadWord g k ↔ ∀ j, j < 4 → f (i + j) = g (k + j) := by
  constructor
  · intro h j hj
    have hf : wordByte (loadWord f i) j = f (i + j) := wordByte_loadWord i j hj
    have hg : wordByte (loadWord g k) j = g (k + j) := wordByte_loadWord k j hj
    rw [← hf, h, hg]
  · intro h
    have h0 : f i = g k := h 0 (by decide)
    rw [loadWord, loadWord, h0, h 1 (by decide), h 2 (by decide), h 3 (by decide)]

/-- Four more bytes. -/
theorem storeWord_fill {w : BitVec 32} (hn : n + 4 ≤ 4294967296)
    (hw : ∀ j, j < 4 → wordByte w j = f (n + j)) :
    (mem.fill p n f).storeWord (p + UInt32.ofNat n) w = mem.fill p (n + 4) f :=
  fill_more hn hw

/-- Copying a word copies its four bytes. -/
theorem storeWord_loadWord (i : Nat) :
    mem.storeWord p (loadWord f i) = mem.fill p 4 fun j => f (i + j) :=
  fill_congr fun j hj => wordByte_loadWord i j hj

end ByteMem
