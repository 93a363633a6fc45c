import Shipwreck.Lib.Footprint
import Mathlib.Data.List.Pairwise

/-!
# Words of a byte memory

Four bytes of a memory are a word. Stores of words that lie apart do not see each other, so that a pass over
many of them, one after the other, changes each once and nothing else (`mapWords`).
-/

namespace ByteMem

/-! ## Intervals that lie apart -/

/-- The `m` addresses from `p` on and the `n` from `q` on have none in common. -/
def Apart (p : UInt32) (m : Nat) (q : UInt32) (n : Nat) : Prop := m ≤ (q - p).toNat ∧ n ≤ (p - q).toNat

instance (p : UInt32) (m : Nat) (q : UInt32) (n : Nat) : Decidable (Apart p m q n) :=
  inferInstanceAs (Decidable (_ ∧ _))

variable {mem mem' : ByteMem} {p q a w : UInt32} {m n : Nat}

theorem Apart.symm (h : Apart p m q n) : Apart q n p m := ⟨h.2, h.1⟩

theorem Apart.not_mem (h : Apart p m q n) (ha : a ∈ span p m) : a ∉ span q n := by
  have h₁ := h.1
  have h₂ := h.2
  have hp := p.toNat_lt
  have hq := q.toNat_lt
  have hlt := a.toNat_lt
  rw [mem_span] at ha ⊢
  simp only [UInt32.toNat_sub] at *
  omega

/-! ## One word -/

/-- The word at `p`. -/
def word (mem : ByteMem) (p : UInt32) : UInt32 := ⟨loadWord (mem.view p) 0⟩

/-- A word is stored at `p`. -/
def setWord (mem : ByteMem) (p w : UInt32) : ByteMem := mem.storeWord p w.toBitVec

theorem word_eq_iff : mem'.word q = mem.word p ↔
    ∀ j, j < 4 → mem' (q + UInt32.ofNat j) = mem (p + UInt32.ofNat j) := by
  rw [word, word, UInt32.ofBitVec.injEq, loadWord_eq_iff]
  simp only [Nat.zero_add, view]

theorem word_congr (h : ∀ a ∈ span p 4, mem' a = mem a) : mem'.word p = mem.word p := by
  rw [word_eq_iff]
  intro j hj
  apply h
  rw [mem_span, UInt32.add_comm, UInt32.add_sub_cancel, UInt32.toNat_ofNat_of_lt' (show j < 4294967296 by omega)]
  exact hj

theorem setWord_outside (h : a ∉ span p 4) : mem.setWord p w a = mem a :=
  if_neg (mt mem_span.mpr h)

/-- The stored word is read back. -/
@[simp] theorem word_setWord : (mem.setWord p w).word p = w := by
  have hbytes (j : Nat) (hj : j < 4) : (mem.setWord p w).view p j = wordByte w.toBitVec j :=
    fill_apply hj (by decide)
  apply UInt32.toBitVec_inj.mp
  apply BitVec.eq_of_getLsbD_eq
  intro b hb
  simp only [word, loadWord, Nat.zero_add, hbytes 0 (by decide), hbytes 1 (by decide), hbytes 2 (by decide),
    hbytes 3 (by decide), wordByte, BitVec.getLsbD_append, BitVec.getLsbD_extractLsb']
  rcases Nat.lt_or_ge b 8 with h | h
  · simp [h]
  · rcases Nat.lt_or_ge b 16 with h' | h'
    · have hlt : b - 8 < 8 := by omega
      simp [Nat.not_lt.mpr h, hlt, show 8 + (b - 8) = b by omega]
    · rcases Nat.lt_or_ge b 24 with h'' | h''
      · simp [Nat.not_lt.mpr h, show ¬ b - 8 < 8 by omega, show b - 8 - 8 < 8 by omega,
          show 16 + (b - 8 - 8) = b by omega]
      · simp [Nat.not_lt.mpr h, show ¬ b - 8 < 8 by omega, show ¬ b - 8 - 8 < 8 by omega,
          show b - 8 - 8 - 8 < 8 by omega, show 24 + (b - 8 - 8 - 8) = b by omega]

/-- A store does not reach a word that lies apart. -/
theorem word_setWord_of_apart (h : Apart p 4 q 4) : (mem.setWord p w).word q = mem.word q :=
  word_congr fun _ ha => setWord_outside (h.symm.not_mem ha)

/-! ## Many words -/

/-- Each of these words is replaced by its value under `f`, one after the other. -/
def mapWords (f : UInt32 → UInt32) (ps : List UInt32) (mem : ByteMem) : ByteMem :=
  ps.foldl (fun mem p => mem.setWord p (f (mem.word p))) mem

section

variable {f : UInt32 → UInt32} {ps qs : List UInt32}

theorem mapWords_cons :
    mem.mapWords f (p :: ps) = (mem.setWord p (f (mem.word p))).mapWords f ps := rfl

theorem mapWords_append : mem.mapWords f (ps ++ qs) = (mem.mapWords f ps).mapWords f qs :=
  List.foldl_append

/-- **Nothing else changes.** -/
theorem mapWords_outside (h : ∀ p ∈ ps, a ∉ span p 4) : mem.mapWords f ps a = mem a := by
  induction ps generalizing mem with
  | nil => rfl
  | cons p ps ih =>
    rw [List.forall_mem_cons] at h
    rw [mapWords_cons, ih h.2, setWord_outside h.1]

theorem word_mapWords_of_apart (h : ∀ p ∈ ps, Apart p 4 q 4) : (mem.mapWords f ps).word q = mem.word q :=
  word_congr fun _ ha => mapWords_outside fun p hp => (h p hp).symm.not_mem ha

/-- **Each word changes once**, if they lie apart. -/
theorem word_mapWords (h : ps.Pairwise fun p q => Apart p 4 q 4) (hp : p ∈ ps) :
    (mem.mapWords f ps).word p = f (mem.word p) := by
  induction ps generalizing mem with
  | nil => exact absurd hp List.not_mem_nil
  | cons q ps ih =>
    rw [List.pairwise_cons] at h
    rw [mapWords_cons]
    rcases List.mem_cons.mp hp with rfl | hp
    · have hlater : ∀ q ∈ ps, Apart q 4 p 4 := fun q hq => (h.1 q hq).symm
      rw [word_mapWords_of_apart hlater, word_setWord]
    · rw [ih h.2 hp, word_setWord_of_apart (h.1 p hp)]

end

/-! ## Memories that agree -/

/-- The bytes in these intervals are the same. -/
def Keeps (tables : List (UInt32 × Nat)) (mem mem' : ByteMem) : Prop :=
  ∀ t ∈ tables, ∀ a ∈ span t.1 t.2, mem' a = mem a

section

variable {tables : List (UInt32 × Nat)} {mem'' : ByteMem}

theorem Keeps.refl (tables : List (UInt32 × Nat)) (mem : ByteMem) : Keeps tables mem mem :=
  fun _ _ _ _ => rfl

theorem Keeps.trans (h : Keeps tables mem mem') (h' : Keeps tables mem' mem'') : Keeps tables mem mem'' :=
  fun t ht a ha => (h' t ht a ha).trans (h t ht a ha)

/-- A word that lies in one of the intervals. -/
theorem Keeps.word (h : Keeps tables mem mem') (ht : (p, n) ∈ tables) (hw : w.toNat + 4 ≤ n) :
    mem'.word (p + w) = mem.word (p + w) :=
  word_congr fun a ha => h _ ht a (span_subset_iff.mpr (Or.inr (Or.inl hw)) ha)

/-- A byte that lies in one of the intervals. -/
theorem Keeps.view (h : Keeps tables mem mem') (ht : (p, n) ∈ tables) {i : Nat} (hi : i < n) :
    mem'.view p i = mem.view p i := by
  apply h _ ht
  rw [mem_span, UInt32.add_comm, UInt32.add_sub_cancel, UInt32.toNat_ofNat']
  exact Nat.lt_of_le_of_lt (Nat.mod_le _ _) hi

theorem keeps_setWord (h : ∀ t ∈ tables, Apart p 4 t.1 t.2) : Keeps tables mem (mem.setWord p w) :=
  fun t ht _ ha => setWord_outside ((h t ht).symm.not_mem ha)

theorem keeps_mapWords {f : UInt32 → UInt32} {ps : List UInt32}
    (h : ∀ p ∈ ps, ∀ t ∈ tables, Apart p 4 t.1 t.2) : Keeps tables mem (mem.mapWords f ps) :=
  fun t ht _ ha => mapWords_outside fun p hp => (h p hp t ht).symm.not_mem ha

end

end ByteMem
