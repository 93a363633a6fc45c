import Shipwreck.Kernel.Process
import Shipwreck.Lib.Transition

/-!
# Locks are mutually exclusive and first come, first served

Any number of threads call `lock` and `unlock` on any number of locks. A thread inside a `lock(l)`
that did not return at once sits in `yield()`: it returns when it is scheduled with its run state
back at `RUNNING`. Threads unlock only what they own.

The queue of a lock is threaded through the one `lock_next` field each thread has.
`locks_exclusive` shows that it is exactly the list of the threads blocked in `lock(l)`, in the
order of their calls, that `unlock` hands the lock to the one that has waited longest, and that a
thread that has returned from `lock(l)` is alone in having done so until it calls `unlock(l)`.
-/

namespace Shipwreck.Kernel

/-- What a caller of the lock functions observes. -/
inductive LockEvent (Tid Lid Mid : Type) where
  | locked (t : Tid) (l : LockRef Lid Mid)
  | unlocked (t : Tid) (l : LockRef Lid Mid)

/-- The process, the `lock` call each thread is waiting in, the time of that call, and the history
of returns from `lock` and of calls of `unlock`. -/
structure LockSys (Tid Lid Mid : Type) where
  proc : Process Tid Lid Mid
  waits : Tid → Option (LockRef Lid Mid)
  clock : Nat
  ticket : Tid → Nat
  trace : List (LockEvent Tid Lid Mid)

/-- A thread calls `lock`, leaves the `yield()` inside it, or calls `unlock`. -/
inductive LockAct (Tid Lid Mid : Type) where
  | lock (t : Tid) (l : LockRef Lid Mid)
  | resume (t : Tid)
  | unlock (t : Tid) (l : LockRef Lid Mid)

variable {Tid Lid Mid : Type}

/-- `t` has called `lock(l)` and has not been given the lock yet. -/
def LockSys.Blocked (s : LockSys Tid Lid Mid) (t : Tid) (l : LockRef Lid Mid) : Prop :=
  s.waits t = some l ∧ (s.proc.lockAt l).owner ≠ some t

/-- Between a return of one thread from `lock(l)` and a return of another, the first has called
`unlock(l)`. -/
def Exclusive (trace : List (LockEvent Tid Lid Mid)) : Prop :=
  ∀ (a b c : List (LockEvent Tid Lid Mid)) (t u : Tid) (l : LockRef Lid Mid),
    trace = a ++ .locked t l :: b ++ .locked u l :: c → u ≠ t → .unlocked t l ∈ b

/-- `t` has returned from `lock(l)` and not called `unlock(l)` since. -/
def Holds (trace : List (LockEvent Tid Lid Mid)) (t : Tid) (l : LockRef Lid Mid) : Prop :=
  ∃ a b, trace = a ++ .locked t l :: b ∧ .unlocked t l ∉ b

variable [DecidableEq Tid] [DecidableEq Lid] [DecidableEq Mid] [Fintype Tid]

def LockSys.step (s : LockSys Tid Lid Mid) : LockAct Tid Lid Mid → Option (LockSys Tid Lid Mid)
  | .lock t l =>
    if s.waits t = none then
      (s.proc.lock l t).map fun r =>
        { proc := r.1
          waits := Function.update s.waits t (if r.2 then none else some l)
          clock := s.clock + 1
          ticket := Function.update s.ticket t s.clock
          trace := if r.2 then s.trace ++ [.locked t l] else s.trace }
    else none
  | .resume t =>
    match s.waits t with
    | none => none
    | some l =>
      if s.proc.runState t = .running then
        some { s with
          waits := Function.update s.waits t none
          trace := s.trace ++ [.locked t l] }
      else none
  | .unlock t l =>
    if s.waits t = none ∧ (s.proc.lockAt l).owner = some t then
      some { s with
        proc := s.proc.unlock l
        trace := s.trace ++ [.unlocked t l] }
    else none

/-- Locks that start out free, with no thread inside a call. -/
def lockMachine (Tid Lid Mid : Type) [DecidableEq Tid] [DecidableEq Lid] [DecidableEq Mid]
    [Fintype Tid] : Machine (LockSys Tid Lid Mid) (LockAct Tid Lid Mid) where
  init s := (∀ l, s.proc.lockAt l = ⟨none, none⟩) ∧ (∀ t, s.waits t = none) ∧ s.trace = []
  step := LockSys.step

/-! ## Histories -/

omit [DecidableEq Tid] [DecidableEq Lid] [DecidableEq Mid] [Fintype Tid] in
/-- A new event at the end of a history that is split at an older one. -/
theorem concat_eq_append_cons {α : Type} {tr a b : List α} {e e' : α}
    (h : tr ++ [e] = a ++ e' :: b) :
    (b = [] ∧ tr = a ∧ e = e') ∨ ∃ b', b = b' ++ [e] ∧ tr = a ++ e' :: b' := by
  rcases List.eq_nil_or_concat b with rfl | ⟨b', x, rfl⟩
  · obtain ⟨htr, he⟩ := List.append_inj' h rfl
    exact .inl ⟨rfl, htr, by simpa using he⟩
  · rw [List.concat_eq_append, ← List.cons_append, ← List.append_assoc] at h
    obtain ⟨htr, he⟩ := List.append_inj' h rfl
    cases he
    exact .inr ⟨b', by simp, htr⟩

section History

omit [DecidableEq Tid] [DecidableEq Lid] [DecidableEq Mid] [Fintype Tid]

variable {tr : List (LockEvent Tid Lid Mid)} {e : LockEvent Tid Lid Mid} {t : Tid}
  {l : LockRef Lid Mid}

/-- Who holds a lock after one more event held it before, or has just returned from `lock`. -/
theorem Holds.of_concat (h : Holds (tr ++ [e]) t l) :
    e = .locked t l ∨ (Holds tr t l ∧ e ≠ .unlocked t l) := by
  obtain ⟨a, b, heq, hnot⟩ := h
  rcases concat_eq_append_cons heq with ⟨-, -, he⟩ | ⟨b', rfl, htr⟩
  · exact .inl he
  · right
    simp only [List.mem_append, List.mem_singleton, not_or] at hnot
    exact ⟨⟨a, b', htr, hnot.1⟩, fun he => hnot.2 he.symm⟩

/-- A return from `lock(l)` keeps the history exclusive if nobody else holds `l`. -/
theorem Exclusive.concat (h : Exclusive tr)
    (hnew : ∀ u l, e = .locked u l → ∀ t, Holds tr t l → t = u) : Exclusive (tr ++ [e]) := by
  intro a b c t u l heq hne
  rcases concat_eq_append_cons heq with ⟨-, htr, he⟩ | ⟨c', rfl, htr⟩
  · by_contra hnot
    exact hne (hnew u l he t ⟨a, b, htr, hnot⟩).symm
  · exact h a b c' t u l htr hne

theorem exclusive_nil : Exclusive ([] : List (LockEvent Tid Lid Mid)) := by
  intro a b c t u l heq
  simp at heq

theorem not_holds_nil : ¬ Holds ([] : List (LockEvent Tid Lid Mid)) t l := by
  rintro ⟨a, b, heq, -⟩
  simp at heq

end History

/-! ## The invariant -/

/-- The queue of every lock, and how it fits the threads' states and the history. -/
structure LockInv (s : LockSys Tid Lid Mid) (queue : LockRef Lid Mid → List Tid) : Prop where
  chain : ∀ l, Chain s.proc.lockNext (s.proc.lockAt l).next (queue l)
  mem : ∀ l t, t ∈ queue l ↔ s.waits t = some l ∧ s.proc.runState t = .waiting
  order : ∀ l, (queue l).Pairwise fun t u => s.ticket t < s.ticket u
  called : ∀ l, ∀ t ∈ queue l, s.ticket t < s.clock
  owner_not_mem : ∀ l t, (s.proc.lockAt l).owner = some t → t ∉ queue l
  free : ∀ l, (s.proc.lockAt l).owner = none → queue l = []
  granted : ∀ t l, s.waits t = some l → s.proc.runState t ≠ .waiting →
    (s.proc.lockAt l).owner = some t
  holds : ∀ t l, Holds s.trace t l → (s.proc.lockAt l).owner = some t
  exclusive : Exclusive s.trace

namespace LockInv

omit [DecidableEq Tid] [DecidableEq Lid] [DecidableEq Mid] [Fintype Tid]

variable {s : LockSys Tid Lid Mid} {queue : LockRef Lid Mid → List Tid} {t : Tid}
  {l l' : LockRef Lid Mid}

/-- A thread outside a call is in no queue. -/
theorem not_mem_of_idle (h : LockInv s queue) (ht : s.waits t = none) : t ∉ queue l := by
  intro hmem
  have hw := ((h.mem l t).mp hmem).1
  rw [ht] at hw
  exact absurd hw (Option.some_ne_none l).symm

/-- The queues of two locks share no thread. -/
theorem disjoint (h : LockInv s queue) (hne : l' ≠ l) : (queue l).Disjoint (queue l') := by
  intro t ht ht'
  have hl := ((h.mem l t).mp ht).1
  have hl' := ((h.mem l' t).mp ht').1
  rw [hl] at hl'
  exact hne (Option.some.inj hl').symm

/-- The queue is exactly the blocked threads. -/
theorem mem_iff_blocked (h : LockInv s queue) : t ∈ queue l ↔ s.Blocked t l := by
  constructor
  · intro hmem
    exact ⟨((h.mem l t).mp hmem).1, fun howner => h.owner_not_mem l t howner hmem⟩
  · rintro ⟨hw, howner⟩
    apply (h.mem l t).mpr
    refine ⟨hw, ?_⟩
    by_contra hrun
    exact howner (h.granted t l hw hrun)

variable [DecidableEq Tid]

/-! The caller of `lock` gets a new ticket, and is in no queue yet. -/

theorem ticket_update (h : LockInv s queue) (ht : s.waits t = none) {u : Tid} (hu : u ∈ queue l) :
    Function.update s.ticket t s.clock u = s.ticket u :=
  Function.update_of_ne (ne_of_mem_of_not_mem hu (h.not_mem_of_idle ht)) _ _

theorem order_update (h : LockInv s queue) (ht : s.waits t = none) (l : LockRef Lid Mid) :
    (queue l).Pairwise fun u v =>
      Function.update s.ticket t s.clock u < Function.update s.ticket t s.clock v := by
  apply (h.order l).imp_of_mem
  intro u v hu hv huv
  rw [h.ticket_update ht hu, h.ticket_update ht hv]
  exact huv

theorem called_update (h : LockInv s queue) (ht : s.waits t = none) {u : Tid} (hu : u ∈ queue l) :
    Function.update s.ticket t s.clock u < s.clock + 1 := by
  rw [h.ticket_update ht hu]
  exact Nat.lt_succ_of_lt (h.called l u hu)

variable [DecidableEq Lid] [DecidableEq Mid]

/-- A call that finds the lock free, or owned by the caller. -/
theorem lock_acquire (h : LockInv s queue) (ht : s.waits t = none)
    (howner : (s.proc.lockAt l).owner = some t ∨ (s.proc.lockAt l).owner = none) :
    LockInv
      { proc := s.proc.setLock l { s.proc.lockAt l with owner := some t }
        waits := Function.update s.waits t none
        clock := s.clock + 1
        ticket := Function.update s.ticket t s.clock
        trace := s.trace ++ [.locked t l] } queue := by
  have hwaits : Function.update s.waits t none = s.waits := by
    rw [← ht, Function.update_eq_self]
  -- only the owner of `l` has changed, and it was the caller or nobody
  have hother : ∀ r u, (s.proc.lockAt r).owner = some u →
      ((Function.update s.proc.lockAt l { s.proc.lockAt l with owner := some t } r).owner =
        some u) := by
    intro r u hu
    rw [Function.update_apply]
    split
    · rename_i hr
      subst hr
      rcases howner with ho | ho
      · rw [← ho]
        exact hu
      · rw [ho] at hu
        exact absurd hu (Option.some_ne_none u).symm
    · exact hu
  constructor
  case chain =>
    intro r
    simp only [Process.lockNext_setLock, Process.lockAt_setLock, Function.update_apply]
    split
    · rename_i hr
      subst hr
      exact h.chain r
    · exact h.chain r
  case mem =>
    intro r u
    simp only [hwaits, Process.runState_setLock]
    exact h.mem r u
  case order => exact h.order_update ht
  case called => exact fun r u hu => h.called_update ht hu
  case owner_not_mem =>
    intro r u hu
    simp only [Process.lockAt_setLock, Function.update_apply] at hu
    split at hu
    · cases hu
      exact h.not_mem_of_idle ht
    · exact h.owner_not_mem r u hu
  case free =>
    intro r hr
    simp only [Process.lockAt_setLock, Function.update_apply] at hr
    split at hr
    · exact absurd hr (Option.some_ne_none t)
    · exact h.free r hr
  case granted =>
    intro u r hu hrun
    simp only [hwaits, Process.runState_setLock, Process.lockAt_setLock] at hu hrun ⊢
    exact hother r u (h.granted u r hu hrun)
  case holds =>
    intro u r hu
    simp only [Process.lockAt_setLock]
    rcases hu.of_concat with he | ⟨hold, -⟩
    · cases he
      rw [Function.update_self]
    · exact hother r u (h.holds u r hold)
  case exclusive =>
    apply h.exclusive.concat
    intro u r he v hv
    cases he
    have hv' := h.holds v l hv
    rcases howner with ho | ho
    · rw [ho] at hv'
      exact (Option.some.inj hv').symm
    · rw [ho] at hv'
      exact absurd hv' (Option.some_ne_none v).symm

omit [DecidableEq Tid] in
/-- One queue has changed, and the threads of all others are linked as before. -/
theorem chain_update (h : LockInv s queue) {p' : Process Tid Lid Mid} {L : List Tid}
    (hchain : Chain p'.lockNext (p'.lockAt l).next L)
    (hlocks : ∀ r, r ≠ l → p'.lockAt r = s.proc.lockAt r)
    (hnexts : ∀ r, r ≠ l → ∀ u ∈ queue r, p'.lockNext u = s.proc.lockNext u) (r : LockRef Lid Mid) :
    Chain p'.lockNext (p'.lockAt r).next (Function.update queue l L r) := by
  by_cases hr : r = l
  · subst hr
    rw [Function.update_self]
    exact hchain
  · rw [Function.update_of_ne hr, hlocks r hr]
    exact (h.chain r).congr (hnexts r hr)

/-- A call that finds the lock taken: the walk over the queue ends, and the caller is behind
everybody else. -/
theorem lock_block [Fintype Tid] (h : LockInv s queue) (ht : s.waits t = none)
    (howner : ¬((s.proc.lockAt l).owner = some t ∨ (s.proc.lockAt l).owner = none)) :
    ∃ p', s.proc.lock l t = some (p', false) ∧
      LockInv
        { proc := p'
          waits := Function.update s.waits t (some l)
          clock := s.clock + 1
          ticket := Function.update s.ticket t s.clock
          trace := s.trace } (Function.update queue l (queue l ++ [t])) := by
  have hidle : ∀ r, t ∉ queue r := fun r => h.not_mem_of_idle ht
  obtain ⟨p', hlock, hchain, hlocks, hnexts⟩ := Process.lock_enqueue (h.chain l) (hidle l) howner
  rcases Process.lock_cases hlock with ⟨hgot, -⟩ | ⟨-, hrun, -, howners, -⟩
  · cases hgot
  refine ⟨p', hlock, ?_⟩
  -- the caller waits for `l` now, and everybody else for what it waited for
  have hmem : ∀ r u, u ∈ Function.update queue l (queue l ++ [t]) r ↔
      u ∈ queue r ∨ (r = l ∧ u = t) := by
    intro r u
    rw [Function.update_apply]
    split
    · rename_i hr
      subst hr
      simp
    · rename_i hr
      simp [hr]
  constructor
  case chain =>
    apply h.chain_update hchain hlocks
    intro r hr u hu
    exact hnexts u (ne_of_mem_of_not_mem hu (hidle r)) fun hul => h.disjoint hr hul hu
  case mem =>
    intro r u
    rw [hmem, hrun]
    by_cases hut : u = t
    · subst hut
      simp [hidle r, eq_comm]
    · simp only [Function.update_of_ne hut, hut, and_false, or_false]
      exact h.mem r u
  case order =>
    intro r
    simp only [Function.update_apply queue]
    split
    · rename_i hr
      subst hr
      refine List.pairwise_append.mpr ⟨h.order_update ht r, List.pairwise_singleton _ t, ?_⟩
      intro u hu v hv
      rw [List.mem_singleton.mp hv, h.ticket_update ht hu, Function.update_self]
      exact h.called r u hu
    · exact h.order_update ht r
  case called =>
    intro r u hu
    rcases (hmem r u).mp hu with hu | ⟨-, rfl⟩
    · exact h.called_update ht hu
    · simp only [Function.update_self]
      exact Nat.lt_succ_self _
  case owner_not_mem =>
    intro r u hu hin
    rw [howners r] at hu
    rcases (hmem r u).mp hin with hin | ⟨rfl, rfl⟩
    · exact h.owner_not_mem r u hu hin
    · exact howner (.inl hu)
  case free =>
    intro r hr
    rw [howners r] at hr
    rw [Function.update_apply, if_neg, h.free r hr]
    rintro rfl
    exact howner (.inr hr)
  case granted =>
    intro u r hu hur
    rw [hrun] at hur
    rw [howners r]
    by_cases hut : u = t
    · subst hut
      simp at hur
    · simp only [Function.update_of_ne hut] at hu hur
      exact h.granted u r hu hur
  case holds =>
    intro u r hu
    rw [howners r]
    exact h.holds u r hu
  case exclusive => exact h.exclusive

omit [DecidableEq Lid] [DecidableEq Mid] in
/-- A thread that was given the lock while it waited returns. -/
theorem resume (h : LockInv s queue) (hw : s.waits t = some l)
    (hrun : s.proc.runState t = .running) :
    LockInv
      { s with
        waits := Function.update s.waits t none
        trace := s.trace ++ [.locked t l] } queue := by
  have howner : (s.proc.lockAt l).owner = some t := by
    apply h.granted t l hw
    rw [hrun]
    decide
  refine { h with mem := ?_, granted := ?_, holds := ?_, exclusive := ?_ }
  · intro r u
    simp only [Function.update_apply]
    split
    · rename_i hu
      subst hu
      simp only [reduceCtorEq, false_and, iff_false]
      intro hin
      have hwait := ((h.mem r u).mp hin).2
      rw [hrun] at hwait
      cases hwait
    · exact h.mem r u
  · intro u r hu hur
    simp only [Function.update_apply] at hu
    split at hu
    · cases hu
    · exact h.granted u r hu hur
  · intro u r hu
    rcases hu.of_concat with he | ⟨hold, -⟩
    · cases he
      exact howner
    · exact h.holds u r hold
  · apply h.exclusive.concat
    intro u r he v hv
    cases he
    have hv' := h.holds v l hv
    rw [howner] at hv'
    exact (Option.some.inj hv').symm

omit [DecidableEq Tid] in
/-- The first thread leaves the queue of `l`, and it is in no other. -/
theorem mem_update_tail (h : LockInv s queue) {r : LockRef Lid Mid} {u : Tid} :
    u ∈ Function.update queue l (queue l).tail r ↔ u ∈ queue r ∧ (queue l).head? ≠ some u := by
  by_cases hr : r = l
  · subst hr
    rw [Function.update_self]
    constructor
    · intro hu
      exact ⟨List.mem_of_mem_tail hu, fun hhd => (h.chain r).head_not_mem_tail hhd hu⟩
    · rintro ⟨hu, hhd⟩
      cases hq : queue r with
      | nil =>
        rw [hq] at hu
        cases hu
      | cons v rest =>
        rw [hq] at hu hhd
        rcases List.mem_cons.mp hu with rfl | hrest
        · exact absurd rfl hhd
        · exact hrest
  · rw [Function.update_of_ne hr]
    exact ⟨fun hu => ⟨hu, fun hhd => h.disjoint hr (List.mem_of_head? hhd) hu⟩, And.left⟩

/-- The owner gives the lock to the first thread of the queue. -/
theorem unlock (h : LockInv s queue) (ht : s.waits t = none)
    (howner : (s.proc.lockAt l).owner = some t) :
    LockInv
      { s with
        proc := s.proc.unlock l
        trace := s.trace ++ [.unlocked t l] }
      (Function.update queue l (queue l).tail) := by
  obtain ⟨hnew, hchain, hlocks, hnexts, hrun⟩ := Process.unlock_handOff (h.chain l)
  have hhead : ∀ u, (queue l).head? = some u → u ∈ queue l := fun u => List.mem_of_head?
  have hsublist : ∀ r, (Function.update queue l (queue l).tail r).Sublist (queue r) := by
    intro r
    rw [Function.update_apply]
    split
    · rename_i hr
      subst hr
      exact List.tail_sublist _
    · exact List.Sublist.refl _
  constructor
  case chain =>
    apply h.chain_update hchain hlocks
    intro r hr u hu
    apply hnexts
    intro hhd
    exact h.disjoint hr (hhead u hhd) hu
  case mem =>
    intro r u
    simp only [hrun]
    rw [h.mem_update_tail, h.mem r u]
    by_cases hhd : (queue l).head? = some u
    · -- the new owner runs, and has left the queue
      simp only [hhd, ne_eq, not_true, and_false, if_true, reduceCtorEq]
    · simp only [hhd, ne_eq, not_false_eq_true, and_true, if_false]
  case order =>
    intro r
    exact (h.order r).sublist (hsublist r)
  case called =>
    intro r u hu
    exact h.called r u (h.mem_update_tail.mp hu).1
  case owner_not_mem =>
    intro r u hu hin
    by_cases hr : r = l
    · subst hr
      rw [hnew] at hu
      exact (h.mem_update_tail.mp hin).2 hu
    · rw [hlocks r hr] at hu
      exact h.owner_not_mem r u hu (h.mem_update_tail.mp hin).1
  case free =>
    intro r hr
    by_cases hrl : r = l
    · subst hrl
      rw [hnew] at hr
      rw [Function.update_self, List.head?_eq_none_iff.mp hr]
      rfl
    · rw [hlocks r hrl] at hr
      rw [Function.update_of_ne hrl]
      exact h.free r hr
  case granted =>
    intro u r hu hur
    simp only [hrun] at hur
    by_cases hhd : (queue l).head? = some u
    · have hl := ((h.mem l u).mp (hhead u hhd)).1
      have hrl : r = l := by
        have hu' : s.waits u = some r := hu
        rw [hl] at hu'
        exact (Option.some.inj hu').symm
      rw [hrl, hnew, hhd]
    · rw [if_neg hhd] at hur
      have hold := h.granted u r hu hur
      by_cases hrl : r = l
      · -- `u` would be the owner that unlocks, but that one is not inside `lock`
        subst hrl
        rw [howner] at hold
        cases hold
        have hu' : s.waits t = some r := hu
        rw [ht] at hu'
        cases hu'
      · rw [hlocks r hrl]
        exact hold
  case holds =>
    intro u r hu
    rcases hu.of_concat with he | ⟨hold, hne⟩
    · cases he
    · have hold' := h.holds u r hold
      by_cases hrl : r = l
      · subst hrl
        rw [howner] at hold'
        cases hold'
        exact absurd rfl hne
      · rw [hlocks r hrl]
        exact hold'
  case exclusive =>
    apply h.exclusive.concat
    intro u r he
    cases he

/-- Every step keeps the invariant, for the queues it leaves. -/
theorem step [Fintype Tid] (h : LockInv s queue) {a : LockAct Tid Lid Mid}
    {s' : LockSys Tid Lid Mid} (hs : s.step a = some s') : ∃ queue', LockInv s' queue' := by
  cases a with
  | lock t l =>
    simp only [LockSys.step] at hs
    split at hs
    · rename_i ht
      by_cases howner : (s.proc.lockAt l).owner = some t ∨ (s.proc.lockAt l).owner = none
      · rw [Process.lock_acquire howner] at hs
        cases hs
        exact ⟨queue, h.lock_acquire ht howner⟩
      · obtain ⟨p', hlock, hinv⟩ := h.lock_block ht howner
        rw [hlock] at hs
        cases hs
        exact ⟨_, hinv⟩
    · cases hs
  | resume t =>
    simp only [LockSys.step] at hs
    split at hs
    · cases hs
    · rename_i l hw
      split at hs
      · rename_i hrun
        cases hs
        exact ⟨queue, h.resume hw hrun⟩
      · cases hs
  | unlock t l =>
    simp only [LockSys.step] at hs
    split at hs
    · rename_i hcall
      cases hs
      exact ⟨_, h.unlock hcall.1 hcall.2⟩
    · cases hs

end LockInv

/-! ## Every reachable state -/

/-- What locks promise in one state. -/
structure LocksOk (s : LockSys Tid Lid Mid) : Prop where
  /-- The queue of `l` is a finite list without repetitions, of exactly the threads blocked in
  `lock(l)`, in the order they called it, all of them waiting; the owner is not in it, and it is
  empty if there is no owner. -/
  queue : ∀ l, ∃ L, Chain s.proc.lockNext (s.proc.lockAt l).next L ∧ L.Nodup ∧
    (∀ t, t ∈ L ↔ s.Blocked t l) ∧
    (L.Pairwise fun t u => s.ticket t < s.ticket u) ∧
    (∀ t ∈ L, s.proc.runState t = .waiting) ∧
    (∀ t, (s.proc.lockAt l).owner = some t → t ∉ L) ∧
    ((s.proc.lockAt l).owner = none → L = [])
  /-- Two locks' queues share no thread. -/
  disjoint : ∀ l l' L L', l' ≠ l → Chain s.proc.lockNext (s.proc.lockAt l).next L →
    Chain s.proc.lockNext (s.proc.lockAt l').next L' → L.Disjoint L'
  /-- `unlock` makes the blocked thread that called first the owner. -/
  handOff : ∀ l t, ((s.proc.unlock l).lockAt l).owner = some t ↔
    s.Blocked t l ∧ ∀ u, s.Blocked u l → s.ticket t ≤ s.ticket u
  /-- A call of `lock` gets to its end. -/
  lock_ends : ∀ l t, s.waits t = none → (s.proc.lock l t).isSome
  exclusive : Exclusive s.trace

omit [DecidableEq Tid] [DecidableEq Lid] [DecidableEq Mid] [Fintype Tid] in
/-- The first thread of the queue is the one that has waited longest. -/
theorem LockInv.head_iff {s : LockSys Tid Lid Mid} {queue : LockRef Lid Mid → List Tid}
    (h : LockInv s queue) (l : LockRef Lid Mid) (t : Tid) :
    (queue l).head? = some t ↔
      s.Blocked t l ∧ ∀ u, s.Blocked u l → s.ticket t ≤ s.ticket u := by
  have horder := h.order l
  have hmem : ∀ u, s.Blocked u l ↔ u ∈ queue l := fun u => h.mem_iff_blocked.symm
  simp only [hmem]
  cases hq : queue l with
  | nil => simp
  | cons v rest =>
    rw [hq] at horder
    have hfirst := (List.pairwise_cons.mp horder).1
    simp only [List.head?_cons, Option.some.injEq]
    constructor
    · rintro rfl
      refine ⟨List.mem_cons_self, ?_⟩
      intro u hu
      rcases List.mem_cons.mp hu with rfl | hu
      · exact Nat.le_refl _
      · exact Nat.le_of_lt (hfirst u hu)
    · rintro ⟨ht, hleast⟩
      rcases List.mem_cons.mp ht with rfl | ht
      · rfl
      · have hlt := hfirst t ht
        have hle := hleast v List.mem_cons_self
        omega

theorem LockInv.locksOk {s : LockSys Tid Lid Mid} {queue : LockRef Lid Mid → List Tid}
    (h : LockInv s queue) : LocksOk s := by
  constructor
  case queue =>
    intro l
    refine ⟨queue l, h.chain l, (h.chain l).nodup, fun t => h.mem_iff_blocked, h.order l, ?_,
      h.owner_not_mem l, h.free l⟩
    intro t ht
    exact ((h.mem l t).mp ht).2
  case disjoint =>
    intro l l' L L' hne hL hL'
    rw [hL.unique (h.chain l), hL'.unique (h.chain l')]
    exact h.disjoint hne
  case handOff =>
    intro l t
    rw [(Process.unlock_handOff (h.chain l)).1]
    exact h.head_iff l t
  case lock_ends =>
    intro l t ht
    by_cases howner : (s.proc.lockAt l).owner = some t ∨ (s.proc.lockAt l).owner = none
    · rw [Process.lock_acquire howner]
      rfl
    · obtain ⟨p', hlock, -⟩ := h.lock_block ht howner
      rw [hlock]
      rfl
  case exclusive => exact h.exclusive

theorem LockInv.init {s : LockSys Tid Lid Mid} (h : (lockMachine Tid Lid Mid).init s) :
    LockInv s fun _ => [] := by
  obtain ⟨hlocks, hwaits, htrace⟩ := h
  constructor
  case chain =>
    intro l
    simp [hlocks l]
  case mem =>
    intro l t
    simp [hwaits t]
  case order => exact fun l => List.Pairwise.nil
  case called => simp
  case owner_not_mem => simp
  case free => exact fun l _ => rfl
  case granted =>
    intro t l ht
    rw [hwaits t] at ht
    cases ht
  case holds =>
    intro t l ht
    rw [htrace] at ht
    exact absurd ht not_holds_nil
  case exclusive =>
    rw [htrace]
    exact exclusive_nil

/-- **Locks are mutually exclusive and first come, first served**, in every state any interleaving
of calls reaches. -/
theorem locks_exclusive (s : LockSys Tid Lid Mid) (h : (lockMachine Tid Lid Mid).Reachable s) :
    LocksOk s := by
  have hinv : ∃ queue, LockInv s queue := by
    refine h.invariant (P := fun s => ∃ queue, LockInv s queue) ?_ ?_
    · intro s₀ h₀
      exact ⟨_, LockInv.init h₀⟩
    · rintro s a s' ⟨queue, hq⟩ hs
      exact hq.step hs
  obtain ⟨queue, hq⟩ := hinv
  exact hq.locksOk

/-- Three running threads and one free lock. -/
def freshLocks : LockSys (Fin 3) Unit Empty where
  proc :=
    { threadIndex := 0
      numRunningThreads := 3
      locks := fun _ => ⟨none, none⟩
      monitors := Empty.elim
      threads := fun _ => ⟨.running, none, none⟩ }
  waits := fun _ => none
  clock := 0
  ticket := fun _ => 0
  trace := []

/-- Threads 1 and 2 queue up behind thread 0, which hands the lock to thread 1. -/
def contention : List (LockAct (Fin 3) Unit Empty) :=
  [.lock 0 (.lock ()), .lock 1 (.lock ()), .lock 2 (.lock ()), .unlock 0 (.lock ()), .resume 1]

theorem contention_exclusive :
    ∃ s, (lockMachine (Fin 3) Unit Empty).exec freshLocks contention = some s ∧
      (s.proc.lockAt (.lock ())).owner = some 1 ∧ LocksOk s := by
  refine ⟨_, rfl, rfl, locks_exclusive _ ⟨freshLocks, contention, ⟨?_, ?_, rfl⟩, rfl⟩⟩
  · rintro (l | m)
    · rfl
    · exact m.elim
  · exact fun t => rfl

end Shipwreck.Kernel
