import Shipwreck.Lib.Bytes
import Mathlib.Data.Set.Basic

/-!
# What an operation stores

An operation on a memory stores to a set of addresses if the bytes there do not depend on what was there
before, and all others stay (`Stores`). The set belongs to the operation (`Stores.unique`), whatever it
stores: a byte that is replaced by the same one counts.
-/

namespace ByteMem

/-- The operation overwrites the bytes at these addresses, and no others. -/
structure Stores (op : ByteMem → ByteMem) (addrs : Set UInt32) : Prop where
  inside : ∀ a ∈ addrs, ∀ mem mem', op mem a = op mem' a
  outside : ∀ a ∉ addrs, ∀ mem, op mem a = mem a

/-- The `n` addresses from `p` on, counted around the end of the address space. -/
def span (p : UInt32) (n : Nat) : Set UInt32 := {a | (a - p).toNat < n}

variable {op op' : ByteMem → ByteMem} {addrs addrs' : Set UInt32} {p : UInt32} {n k : Nat}

@[simp] theorem mem_span {a : UInt32} : a ∈ span p n ↔ (a - p).toNat < n := Iff.rfl

namespace Stores

theorem nothing : Stores (fun mem => mem) ∅ := by
  constructor
  · intro a ha
    exact absurd ha (Set.notMem_empty a)
  · intro a _ mem
    rfl

theorem fill {f : Nat → UInt8} : Stores (fun mem => mem.fill p n f) (span p n) := by
  constructor
  · intro a ha mem mem'
    simp only [ByteMem.fill, if_pos (mem_span.mp ha)]
  · intro a ha mem
    exact if_neg (mt mem_span.mpr ha)

/-- One operation after another stores to the addresses of both. -/
theorem comp (h' : Stores op' addrs') (h : Stores op addrs) :
    Stores (fun mem => op' (op mem)) (addrs ∪ addrs') := by
  constructor
  · intro a ha mem mem'
    by_cases ha' : a ∈ addrs'
    · exact h'.inside a ha' _ _
    · rw [h'.outside a ha', h'.outside a ha']
      exact h.inside a (ha.resolve_right ha') mem mem'
  · intro a ha mem
    rw [Set.mem_union, not_or] at ha
    rw [h'.outside a ha.2, h.outside a ha.1]

/-- All bytes outside `kept` stay exactly if the operation stores inside. -/
theorem subset_iff (h : Stores op addrs) (kept : Set UInt32) :
    (∀ a ∉ kept, ∀ mem, op mem a = mem a) ↔ addrs ⊆ kept := by
  constructor
  · intro hkept a ha
    by_contra hout
    -- the same byte for a memory of zeros and a memory of ones
    have hsame := h.inside a ha (fun _ => 0) (fun _ => 1)
    rw [hkept a hout, hkept a hout] at hsame
    exact absurd hsame (by decide)
  · intro hsub a ha mem
    exact h.outside a (mt (@hsub a) ha) mem

/-- **The addresses belong to the operation.** -/
theorem unique (h : Stores op addrs) (h' : Stores op addrs') : addrs = addrs' :=
  Set.Subset.antisymm ((h.subset_iff addrs').mp h'.outside) ((h'.subset_iff addrs).mp h.outside)

end Stores

/-! ## Intervals -/

theorem span_zero : span p 0 = ∅ := by
  ext a
  simp

theorem span_union : span p n ∪ span (p + UInt32.ofNat n) k = span p (n + k) := by
  ext a
  have ha := (a - p).toNat_lt
  have hoff : (a - (p + UInt32.ofNat n)).toNat =
      ((a - p).toNat + (4294967296 - n % 4294967296)) % 4294967296 := by
    have ha' := a.toNat_lt
    have hp := p.toNat_lt
    simp only [UInt32.toNat_sub, UInt32.toNat_add, UInt32.toNat_ofNat']
    omega
  rw [Set.mem_union, mem_span, mem_span, mem_span, hoff]
  omega

/-- Two intervals from one address on are the same if they have the same length, or both are all there is. -/
theorem span_eq_iff : span p n = span p k ↔ min n 4294967296 = min k 4294967296 := by
  constructor
  · intro h
    have hat (i : Nat) (hi : i < 4294967296) : i < n ↔ i < k := by
      have hmem : p + UInt32.ofNat i ∈ span p n ↔ p + UInt32.ofNat i ∈ span p k := by rw [h]
      rwa [mem_span, mem_span, UInt32.add_comm, UInt32.add_sub_cancel,
        UInt32.toNat_ofNat_of_lt' (show i < 4294967296 from hi)] at hmem
    rcases Nat.lt_trichotomy n k with hlt | heq | hgt
    · by_contra hne
      have hn : n < n ↔ n < k := hat n (by omega)
      omega
    · rw [heq]
    · by_contra hne
      have hk : k < n ↔ k < k := hat k (by omega)
      omega
  · intro h
    ext a
    have ha := (a - p).toNat_lt
    rw [mem_span, mem_span]
    omega

/-- An interval that begins at `p + v` is part of the one of `k` addresses from `p` on if it ends there. -/
theorem span_subset_iff {v : UInt32} :
    span (p + v) n ⊆ span p k ↔ n = 0 ∨ v.toNat + n ≤ k ∨ 4294967296 ≤ k := by
  have hv := v.toNat_lt
  have hoff (a : UInt32) : (a - (p + v)).toNat = ((a - p).toNat + (4294967296 - v.toNat)) % 4294967296 := by
    have ha := a.toNat_lt
    have hp := p.toNat_lt
    simp only [UInt32.toNat_sub, UInt32.toNat_add]
    omega
  constructor
  · intro h
    by_contra hne
    -- the first address of the interval that does not lie before the end of the other one
    obtain ⟨i, hi⟩ : ∃ i, i = max v.toNat k := ⟨_, rfl⟩
    have hat : (p + UInt32.ofNat i - p).toNat = i := by
      rw [UInt32.add_comm, UInt32.add_sub_cancel, UInt32.toNat_ofNat_of_lt' (show i < 4294967296 by omega)]
    have hmem : p + UInt32.ofNat i ∈ span (p + v) n := by
      rw [mem_span, hoff, hat]
      omega
    have hin := h hmem
    rw [mem_span, hat] at hin
    omega
  · intro h a ha
    have hlt := (a - p).toNat_lt
    rw [mem_span, hoff] at ha
    rw [mem_span]
    omega

end ByteMem
