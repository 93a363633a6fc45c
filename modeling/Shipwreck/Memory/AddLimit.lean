import Mathlib.Algebra.GroupWithZero.Nat
import Shipwreck.Lib.Extent
import Shipwreck.Lib.Transition
import Shipwreck.Memory.Reserve

/-!
# Threads that add to one value

`atomic_add_limit` of `std/atomic.h` when any number of threads call it with one limit, again and again.
A thread reads `val`, and from then on works with `myval`, what it saw last:

    idle --call--> read --(test)--> cas 0 --(test)--> cas 1 --> ... --> idle
                                      \_ val = myval: val becomes myval + diff

The test against the limit is local, so that it goes with the access before it; between two accesses of
a thread the others may do anything. What the threads are given are intervals one behind the other, from
the initial value up to what `val` is now (`Inv`).

A call that nobody interferes with is `atomicAddLimit` (`solo_run`).
-/

namespace Shipwreck.Memory.AddLimit

/-- The next access of a thread. -/
inductive Pc where
  | idle
  | read (diff : UInt32)
  | cas (diff myval : UInt32) (i : Nat)
  deriving DecidableEq

/-- A call that has returned, and whether its compare-and-swap has stored. -/
structure Return where
  diff : UInt32
  ret : UInt32
  stored : Bool
  deriving DecidableEq

/-- The addresses from `ret` to `ret + diff`. -/
def Return.interval (r : Return) : Extent := ⟨r.ret.toNat, r.diff.toNat⟩

/-- The value, the threads and the calls that have returned, in their order. -/
structure Sys (Tid : Type) where
  val : UInt32
  pc : Tid → Pc
  returns : List Return

/-- A thread calls, or does its next access. -/
inductive Act where
  | call (diff : UInt32)
  | run
  deriving DecidableEq

section

variable {Tid : Type} [DecidableEq Tid]

namespace Sys

def goto (s : Sys Tid) (t : Tid) (pc : Pc) : Sys Tid := { s with pc := Function.update s.pc t pc }

def return' (s : Sys Tid) (t : Tid) (r : Return) : Sys Tid :=
  { s.goto t .idle with returns := s.returns ++ [r] }

/-- The head of the loop: the tries are used up, or the limit is too close, or a compare-and-swap. -/
def tryAt (limit : UInt32) (s : Sys Tid) (t : Tid) (diff myval : UInt32) (i : Nat) : Sys Tid :=
  if i < maxAddTries then
    if diff > limit - myval then s.return' t ⟨diff, limit, false⟩
    else s.goto t (.cas diff myval i)
  else s.return' t ⟨diff, limit, false⟩

/-- One step of thread `t`. -/
def step (limit : UInt32) (s : Sys Tid) (t : Tid) : Act → Option (Sys Tid)
  | .call diff =>
    match s.pc t with
    | .idle => if 0 < diff then some (s.goto t (.read diff)) else none
    | _ => none
  | .run =>
    match s.pc t with
    | .idle => none
    | .read diff => some (s.tryAt limit t diff s.val 0)
    | .cas diff myval i =>
      if s.val = myval then
        some ({ s with val := myval + diff }.return' t ⟨diff, myval, true⟩)
      else some (s.tryAt limit t diff s.val (i + 1))

end Sys

/-- The system: at first nobody is in a call, and the value is not above the limit. -/
def machine (Tid : Type) [DecidableEq Tid] (limit : UInt32) : Machine (Sys Tid) (Tid × Act) where
  init s := s.val ≤ limit ∧ (∀ t, s.pc t = .idle) ∧ s.returns = []
  step s a := s.step limit a.1 a.2

/-! ## The invariant -/

variable {limit lo : UInt32} {s s' : Sys Tid} {t : Tid}

/-- The difference is positive, and where the test is passed the sum does not exceed the limit. -/
def Pc.Ok (limit : UInt32) : Pc → Prop
  | .idle => True
  | .read diff => 0 < diff
  | .cas diff myval _ => 0 < diff ∧ myval.toNat + diff.toNat ≤ limit.toNat

/-- The calls whose compare-and-swap has stored. -/
def Sys.intervals (s : Sys Tid) : List Extent :=
  (s.returns.filter fun r => r.stored).map Return.interval

/-- The intervals lie one behind the other between `lo` and the value. -/
structure Inv (limit lo : UInt32) (s : Sys Tid) : Prop where
  val_le : s.val ≤ limit
  pc_ok : ∀ t, (s.pc t).Ok limit
  stacked : Extent.Stacked s.val.toNat lo.toNat s.intervals
  /-- Nothing else is added to the value. -/
  total : s.val.toNat = lo.toNat + (s.intervals.map Extent.size).sum
  ret_ne : ∀ r ∈ s.returns, (r.stored = true ↔ r.ret ≠ limit)

theorem Inv.goto (h : Inv limit lo s) {pc : Pc} (hpc : pc.Ok limit) : Inv limit lo (s.goto t pc) where
  val_le := h.val_le
  pc_ok t' := by
    show (Function.update s.pc t pc t').Ok limit
    rcases eq_or_ne t' t with rfl | ht
    · rw [Function.update_self]
      exact hpc
    · rw [Function.update_of_ne ht]
      exact h.pc_ok t'
  stacked := h.stacked
  total := h.total
  ret_ne := h.ret_ne

/-- A call gives up. -/
theorem Inv.fail (h : Inv limit lo s) (diff : UInt32) : Inv limit lo (s.return' t ⟨diff, limit, false⟩) := by
  have hidle : Inv limit lo (s.goto t .idle) := h.goto trivial
  have hkeep : (s.return' t ⟨diff, limit, false⟩).intervals = s.intervals := by
    simp [Sys.intervals, Sys.return']
  refine ⟨h.val_le, hidle.pc_ok, ?_, ?_, ?_⟩
  · rw [hkeep]
    exact h.stacked
  · rw [hkeep]
    exact h.total
  · intro r hr
    rcases List.mem_append.mp hr with hr | hr
    · exact h.ret_ne r hr
    · rw [List.mem_singleton.mp hr]
      simp

/-- The next try, or none. -/
theorem Inv.tryAt (h : Inv limit lo s) {diff myval : UInt32} {i : Nat} (hdiff : 0 < diff)
    (hmyval : myval ≤ limit) : Inv limit lo (s.tryAt limit t diff myval i) := by
  rw [Sys.tryAt]
  split
  case isTrue =>
    split
    case isTrue => exact h.fail diff
    case isFalse hfits =>
      apply h.goto
      refine ⟨hdiff, ?_⟩
      -- the subtraction does not wrap
      have hle : diff.toNat ≤ (limit - myval).toNat := UInt32.le_iff_toNat_le.mp (UInt32.not_lt.mp hfits)
      have hmyval' : myval.toNat ≤ limit.toNat := UInt32.le_iff_toNat_le.mp hmyval
      rw [UInt32.toNat_sub_of_le _ _ hmyval] at hle
      omega
  case isFalse => exact h.fail diff

/-- A compare-and-swap stores: the new interval begins where the last one ends. -/
theorem Inv.store (h : Inv limit lo s) {diff : UInt32} (hdiff : 0 < diff)
    (hfits : s.val.toNat + diff.toNat ≤ limit.toNat) :
    Inv limit lo ({ s with val := s.val + diff }.return' t ⟨diff, s.val, true⟩) ∧
      s.val ≤ s.val + diff := by
  have hlimit := limit.toNat_lt
  have hpos : 0 < diff.toNat := UInt32.lt_iff_toNat_lt.mp hdiff
  have hval : (s.val + diff).toNat = s.val.toNat + diff.toNat := by
    rw [UInt32.toNat_add]
    exact Nat.mod_eq_of_lt (Nat.lt_of_le_of_lt hfits hlimit)
  have hidle : Inv limit lo (s.goto t .idle) := h.goto trivial
  have hnew : ({ s with val := s.val + diff }.return' t ⟨diff, s.val, true⟩).intervals =
      s.intervals ++ [⟨s.val.toNat, diff.toNat⟩] := by
    simp [Sys.intervals, Sys.return', Return.interval]
  refine ⟨⟨?_, hidle.pc_ok, ?_, ?_, ?_⟩, ?_⟩
  · show (s.val + diff).toNat ≤ limit.toNat
    omega
  · rw [hnew]
    apply h.stacked.snoc
    show s.val.toNat + diff.toNat ≤ (s.val + diff).toNat
    omega
  · -- the new interval ends where the value is now
    have htotal := h.total
    rw [hnew, List.map_append, List.sum_append]
    show (s.val + diff).toNat = lo.toNat + (_ + (diff.toNat + 0))
    omega
  · intro r hr
    rcases List.mem_append.mp hr with hr | hr
    · exact h.ret_ne r hr
    · rw [List.mem_singleton.mp hr]
      have hne : s.val ≠ limit := by
        rintro heq
        rw [heq] at hfits
        omega
      simp [hne]
  · show s.val.toNat ≤ (s.val + diff).toNat
    omega

/-- **One step** keeps the invariant, and the value does not decrease. -/
theorem Inv.step (h : Inv limit lo s) {a : Act} (hs : s.step limit t a = some s') :
    Inv limit lo s' ∧ s.val ≤ s'.val := by
  have hok := h.pc_ok t
  -- the test against the limit stores nothing
  have htry (diff myval : UInt32) (i : Nat) : (s.tryAt limit t diff myval i).val = s.val := by
    rw [Sys.tryAt]
    split
    · split <;> rfl
    · rfl
  cases a with
  | call diff =>
    rw [Sys.step] at hs
    cases hpc : s.pc t with
    | idle =>
      simp only [hpc] at hs
      split at hs
      case isTrue hdiff =>
        cases hs
        exact ⟨h.goto hdiff, UInt32.le_refl _⟩
      case isFalse => cases hs
    | read _ =>
      simp only [hpc] at hs
      cases hs
    | cas _ _ _ =>
      simp only [hpc] at hs
      cases hs
  | run =>
    rw [Sys.step] at hs
    cases hpc : s.pc t with
    | idle =>
      simp only [hpc] at hs
      cases hs
    | read diff =>
      rw [hpc] at hok
      simp only [hpc] at hs
      cases hs
      refine ⟨h.tryAt hok h.val_le, ?_⟩
      rw [htry]
      exact UInt32.le_refl _
    | cas diff myval i =>
      rw [hpc] at hok
      simp only [hpc] at hs
      split at hs
      case isTrue heq =>
        subst heq
        cases hs
        exact h.store hok.1 hok.2
      case isFalse =>
        -- what another thread has left becomes `myval`
        cases hs
        refine ⟨h.tryAt hok.1 h.val_le, ?_⟩
        rw [htry]
        exact UInt32.le_refl _

/-! ## Runs -/

theorem Inv.init (h : (machine Tid limit).init s) : Inv limit s.val s where
  val_le := h.1
  pc_ok t := by
    rw [h.2.1 t]
    trivial
  stacked := by
    rw [Sys.intervals, h.2.2]
    exact Nat.le_refl _
  total := by
    rw [Sys.intervals, h.2.2]
    rfl
  ret_ne r hr := by
    rw [h.2.2] at hr
    cases hr

/-- A run keeps the invariant, and the value does not decrease on the way. -/
theorem Inv.exec (h : Inv limit lo s) {as : List (Tid × Act)}
    (hrun : (machine Tid limit).exec s as = some s') : Inv limit lo s' ∧ s.val ≤ s'.val := by
  induction as generalizing s with
  | nil =>
    cases hrun
    exact ⟨h, UInt32.le_refl _⟩
  | cons a as ih =>
    rw [Machine.exec_cons] at hrun
    obtain ⟨s₁, h₁, hrest⟩ := Option.bind_eq_some_iff.mp hrun
    obtain ⟨hinv, hle⟩ := h.step h₁
    obtain ⟨hinv', hle'⟩ := ih hinv hrest
    exact ⟨hinv', UInt32.le_trans hle hle'⟩

/-- The calls that have not returned the limit. -/
def Sys.successes (limit : UInt32) (s : Sys Tid) : List Return := s.returns.filter fun r => r.ret ≠ limit

omit [DecidableEq Tid] in
theorem Inv.map_successes (h : Inv limit lo s) :
    (s.successes limit).map Return.interval = s.intervals := by
  rw [Sys.successes, Sys.intervals]
  congr 1
  apply List.filter_congr
  intro r hr
  rw [Bool.eq_iff_iff, decide_eq_true_iff]
  exact (h.ret_ne r hr).symm

/-- **The calls that succeed are given disjoint intervals** between the initial value and the limit; the
value never decreases, and is made up of what these calls have added. -/
theorem add_limit_disjoint {s₀ : Sys Tid} (h₀ : (machine Tid limit).init s₀) {as : List (Tid × Act)}
    (hrun : (machine Tid limit).exec s₀ as = some s) :
    (s.val ≤ limit ∧ ∀ bs s', (machine Tid limit).exec s bs = some s' → s.val ≤ s'.val) ∧
      ((s.successes limit).map Return.interval).Pairwise Extent.Apart ∧
      (∀ r ∈ s.successes limit, s₀.val.toNat ≤ r.interval.start ∧ r.interval.stop ≤ limit.toNat) ∧
      (∀ r ∈ s.returns, r.ret = limit → r.stored = false) ∧
      s.val.toNat = s₀.val.toNat + ((s.successes limit).map fun r => r.diff.toNat).sum := by
  obtain ⟨hinv, -⟩ := (Inv.init h₀).exec hrun
  refine ⟨⟨hinv.val_le, ?_⟩, ?_, ?_, ?_, ?_⟩
  · intro bs s' hbs
    exact (hinv.exec hbs).2
  · rw [hinv.map_successes]
    exact hinv.stacked.pairwise
  · intro r hr
    have hmem : r.interval ∈ s.intervals := by
      rw [← hinv.map_successes]
      exact List.mem_map_of_mem hr
    obtain ⟨hlo, hhi⟩ := hinv.stacked.bounds hmem
    exact ⟨hlo, Nat.le_trans hhi (UInt32.le_iff_toNat_le.mp hinv.val_le)⟩
  · intro r hr heq
    have hnot := mt (hinv.ret_ne r hr).mp (not_not_intro heq)
    exact Bool.eq_false_iff.mpr hnot
  · have htotal := hinv.total
    rw [← hinv.map_successes, List.map_map] at htotal
    exact htotal

/-! ## A call alone -/

/-- **Without interference** a call does what `atomicAddLimit` says. -/
theorem solo_run (hidle : s.pc t = .idle) {diff : UInt32} (hdiff : 0 < diff) :
    ∃ n s', (machine Tid limit).exec s ((t, .call diff) :: List.replicate n (t, .run)) = some s' ∧
      s'.val = (atomicAddLimit s.val diff limit).1 ∧
      ∃ stored, s'.returns = s.returns ++ [⟨diff, (atomicAddLimit s.val diff limit).2, stored⟩] := by
  obtain ⟨s₁, hs₁⟩ : ∃ s₁, s₁ = s.goto t (.read diff) := ⟨_, rfl⟩
  have hval₁ : s₁.val = s.val := by rw [hs₁]; rfl
  have hreturns₁ : s₁.returns = s.returns := by rw [hs₁]; rfl
  have hcall : (machine Tid limit).step s (t, .call diff) = some s₁ := by
    show s.step limit t (.call diff) = _
    simp only [Sys.step, hidle, if_pos hdiff, hs₁]
  have hread : (machine Tid limit).step s₁ (t, .run) = some (s₁.tryAt limit t diff s.val 0) := by
    have hpc : s₁.pc t = .read diff := by rw [hs₁]; exact Function.update_self _ _ _
    show s₁.step limit t .run = _
    simp only [Sys.step, hpc, hval₁]
  have htry : s₁.tryAt limit t diff s.val 0 =
      if diff > limit - s.val then s₁.return' t ⟨diff, limit, false⟩ else s₁.goto t (.cas diff s.val 0) :=
    if_pos (by decide)
  rw [atomicAddLimit_eq]
  -- alone, a thread needs one try: two accesses, or one if there is no room
  by_cases hfail : diff > limit - s.val
  · rw [htry, if_pos hfail] at hread
    rw [if_pos hfail]
    refine ⟨1, s₁.return' t ⟨diff, limit, false⟩, ?_, hval₁, false, ?_⟩
    · rw [Machine.exec_cons, hcall, Option.bind_some, List.replicate_one, Machine.exec_cons, hread]
      rfl
    · rw [← hreturns₁]
      rfl
  · rw [htry, if_neg hfail] at hread
    obtain ⟨s₂, hs₂⟩ : ∃ s₂, s₂ = s₁.goto t (.cas diff s.val 0) := ⟨_, rfl⟩
    have hval₂ : s₂.val = s.val := by rw [hs₂]; exact hval₁
    have hcas : (machine Tid limit).step s₂ (t, .run) =
        some ({ s₂ with val := s.val + diff }.return' t ⟨diff, s.val, true⟩) := by
      have hpc : s₂.pc t = .cas diff s.val 0 := by rw [hs₂]; exact Function.update_self _ _ _
      show s₂.step limit t .run = _
      simp only [Sys.step, hpc, hval₂, if_true]
    rw [← hs₂] at hread
    rw [if_neg hfail]
    refine ⟨2, { s₂ with val := s.val + diff }.return' t ⟨diff, s.val, true⟩, ?_, rfl, true, ?_⟩
    · rw [Machine.exec_cons, hcall, Option.bind_some, List.replicate_succ, Machine.exec_cons, hread,
        Option.bind_some, List.replicate_one, Machine.exec_cons, hcas]
      rfl
    · rw [← hreturns₁, hs₂]
      rfl

end

/-- Two threads that have read the same value: the second one has to try again, and the third call fails. -/
def twoThreads : List (Bool × Act) :=
  [(false, .call 4), (true, .call 4), (false, .run), (true, .run), (false, .run), (true, .run),
    (true, .run), (false, .call 4), (false, .run)]

theorem add_limit_disjoint_two : ∃ s, (machine Bool 10).exec ⟨0, fun _ => .idle, []⟩ twoThreads = some s ∧
    s.returns = [⟨4, 0, true⟩, ⟨4, 4, true⟩, ⟨4, 10, false⟩] ∧
    ((s.successes 10).map Return.interval).Pairwise Extent.Apart := by
  have h₀ : (machine Bool 10).init ⟨0, fun _ => .idle, []⟩ := ⟨by decide, fun _ => rfl, rfl⟩
  have hrun : (machine Bool 10).exec ⟨0, fun _ => .idle, []⟩ twoThreads = some _ := rfl
  exact ⟨_, hrun, by decide, (add_limit_disjoint h₀ hrun).2.1⟩

end Shipwreck.Memory.AddLimit
