import Shipwreck.Kernel.Scheduler

/-!
# The round robin of the timer

`timer_interrupt` takes the next process, from the current one on, that has a running thread, and in
it the next running thread. Both rotations go on from where they were left, so that a thread is
reached by counting down two distances: the number of processes from the current one to its own, and
the number of threads from the last one selected there to itself (`KState.toGo`).

The search for a process leaves out the current one. Where no other process can run, the timer falls
back to process 0, and `tick_idles` says for which tables this is the idle thread although the
current process could go on.
-/

namespace Shipwreck.Kernel

namespace Process

/-- A message that wakes the waiting thread of the process does not wrap the counter. -/
def Room (p : Proc) : Prop :=
  ∀ owner, (p.lockAt (.monitor msgMonitor)).owner = some owner →
    p.signalWait owner = some msgMonitor → p.numRunningThreads.toNat ≤ 16

/-- The thread is running in a process that the timer will not pass over. -/
structure Eligible (p : Proc) (t : Tid) : Prop where
  running : p.runState t = .running
  counted : 0 < p.numRunningThreads
  room : p.Room

variable {p : Proc} {t : Tid}

theorem threadIndex_notify (m : Mid) (diff : Int32) :
    (p.notify m diff).threadIndex = p.threadIndex := by
  unfold notify
  dsimp only
  split
  · split
    · rfl
    · split
      · rfl
      · rfl
  · rfl

/-- A thread that is running stays so. -/
theorem running_notify {m : Mid} {diff : Int32} (h : p.runState t = .running) :
    (p.notify m diff).runState t = .running := by
  obtain ⟨-, -, ⟨owner, -, -, -, -, hrun, -⟩ | ⟨-, -, hrun, -⟩⟩ := p.notify_cases m diff
  · rw [hrun, Function.update_apply]
    split
    · rfl
    · exact h
  · rw [hrun, h]

theorem Room.notify (h : p.Room) : (p.notify msgMonitor 0).Room := by
  obtain ⟨-, hlock, ⟨owner, -, howner, -, hwait, -, -⟩ | ⟨-, hwait, -, hnum⟩⟩ :=
    p.notify_cases msgMonitor 0
  · -- the owner has been woken and waits for nothing any more
    intro owner' howner' hreg'
    rw [hlock, howner] at howner'
    cases howner'
    rw [hwait, Function.update_self] at hreg'
    cases hreg'
  · intro owner howner hreg
    rw [hlock] at howner
    rw [hwait] at hreg
    rw [hnum]
    exact h owner howner hreg

/-- Either nobody is woken, or the counter is positive. -/
theorem Room.notify_counter (h : p.Room) :
    ((p.notify msgMonitor 0).numRunningThreads = p.numRunningThreads ∧
      (p.notify msgMonitor 0).runState = p.runState) ∨
    (0 < (p.notify msgMonitor 0).numRunningThreads ∧
      ∃ owner, (p.notify msgMonitor 0).runState owner = .running) := by
  obtain ⟨-, -, ⟨owner, -, howner, hreg, -, hrun, hnum⟩ | ⟨-, -, hrun, hnum⟩⟩ :=
    p.notify_cases msgMonitor 0
  · have hroom := h owner howner hreg
    refine Or.inr ⟨?_, owner, by rw [hrun, Function.update_self]⟩
    rw [hnum, UInt32.lt_iff_toNat_lt, UInt32.toNat_add, UInt32.toNat_zero, UInt32.toNat_one]
    omega
  · exact Or.inl ⟨hnum, hrun⟩

theorem Eligible.notify (h : p.Eligible t) : (p.notify msgMonitor 0).Eligible t := by
  refine ⟨running_notify h.running, ?_, h.room.notify⟩
  obtain ⟨hnum, -⟩ | ⟨hpos, -⟩ := h.room.notify_counter
  · rw [hnum]
    exact h.counted
  · exact hpos

end Process

namespace KState

variable {k : KState} {q : Nat} {t : Tid}

/-! ## Which process is next -/

theorem nextProcMeets_true (left i : Nat) (k : KState) :
    NextProcMeets (fun _ _ _ => True) left i k := by
  induction left generalizing i k with
  | zero => trivial
  | succ left ih => exact ⟨trivial, fun _ => ih (i + 1) _⟩

theorem tickMeets_true (k : KState) : k.TickMeets fun _ _ _ => True :=
  ⟨trivial, nextProcMeets_true _ _ _⟩

theorem nextProcFrom_frame (left i : Nat) (k : KState) :
    (nextProcFrom left i k).1.numProcs = k.numProcs ∧
      (nextProcFrom left i k).1.procId = k.procId := by
  induction left generalizing i k with
  | zero => exact ⟨rfl, rfl⟩
  | succ left ih =>
    rw [nextProcFrom]
    split
    · exact ⟨rfl, rfl⟩
    · exact ih (i + 1) _

theorem eligible_notify (h : (k.procs q).Eligible t) (pid : Nat) :
    ((k.notify pid msgMonitor 0).procs q).Eligible t := by
  refine forall_setProcess (I := fun pid p _ => pid = q → p.Eligible t) ?_ ?_ q rfl
  · rintro pid' rfl
    exact h
  · rintro rfl
    exact h.notify

/-- The search does not go past a process with an eligible thread. -/
theorem nextProcFrom_reaches {left i d : Nat} (h : (k.procs q).Eligible t)
    (hd : (k.procId + d) % k.numProcs = q) (hi : i ≤ d) (hleft : d < i + left) :
    ∃ j, i ≤ j ∧ j ≤ d ∧ (nextProcFrom left i k).2 = (k.procId + j) % k.numProcs := by
  induction left generalizing i k with
  | zero => omega
  | succ left ih =>
    have hnext := eligible_notify h ((k.procId + i) % k.numProcs)
    rw [nextProcFrom]
    split
    · exact ⟨i, Nat.le_refl i, hi, rfl⟩
    · rename_i hnone
      have hne : i ≠ d := by
        rintro rfl
        rw [← hd] at hnext
        exact hnone hnext.counted
      obtain ⟨j, hij, hjd, hj⟩ := ih (i := i + 1) hnext hd (by omega) (by omega)
      exact ⟨j, by omega, hjd, hj⟩

/-- The search ends with one of the other processes, or with process 0. -/
theorem nextProcFrom_found (left i : Nat) (k : KState) :
    (∃ j, i ≤ j ∧ j < i + left ∧ (nextProcFrom left i k).2 = (k.procId + j) % k.numProcs) ∨
      (nextProcFrom left i k).2 = 0 := by
  induction left generalizing i k with
  | zero => exact Or.inr rfl
  | succ left ih =>
    rw [nextProcFrom]
    split
    · exact Or.inl ⟨i, Nat.le_refl i, by omega, rfl⟩
    · obtain ⟨j, hij, hj, hfound⟩ | hzero := ih (i + 1) (k.notify ((k.procId + i) % k.numProcs)
        msgMonitor 0)
      · exact Or.inl ⟨j, by omega, by omega, hfound⟩
      · exact Or.inr hzero

/-! ## One tick -/

theorem timerInterrupt_procId : k.timerInterrupt.procId = k.getNextProc.2 := by
  rw [timerInterrupt]
  generalize k.getNextProc = r
  obtain ⟨k₁, pid⟩ := r
  simp only [getNextThread]
  split <;> rfl

theorem timerInterrupt_numProcs : k.timerInterrupt.numProcs = k.numProcs := by
  have hframe : k.getNextProc.1.numProcs = k.numProcs := (nextProcFrom_frame _ _ _).1
  rw [timerInterrupt]
  generalize k.getNextProc = r at hframe
  obtain ⟨k₁, pid⟩ := r
  simp only [getNextThread]
  split <;> exact hframe

theorem timerInterrupt_eligible (h : (k.procs q).Eligible t) :
    (k.timerInterrupt.procs q).Eligible t := by
  refine timerInterrupt_rule (I := fun pid p _ => pid = q → p.Eligible t) (G := fun _ _ _ => True)
    ?_ ?_ ?_ ?_ (tickMeets_true k) q rfl
  · intro pid p pcs hp _ hpid
    exact (hp hpid).notify
  · intro pid p pcs hp hnone hpid
    exact absurd (hp hpid).running (hnone t)
  · intro pid p pcs u hp hpid
    obtain ⟨hrun, hcount, hroom⟩ := hp hpid
    exact ⟨hrun, hcount, hroom⟩
  · rintro pid rfl
    exact h

theorem getNextProc_threadIndex (q : Nat) :
    (k.getNextProc.1.procs q).threadIndex = (k.procs q).threadIndex := by
  refine nextProcFrom_rule (I := fun pid p _ => p.threadIndex = (k.procs pid).threadIndex)
    (G := fun _ _ _ => True) ?_ _ _ ?_ (nextProcMeets_true _ _ _) q
  · intro pid p pcs hp _
    rw [Process.threadIndex_notify, hp]
  · exact forall_setProcess (I := fun pid p _ => p.threadIndex = (k.procs pid).threadIndex)
      (fun _ => rfl) (Process.threadIndex_notify _ _)

/-- In a process that is not selected the rotation stands still. -/
theorem timerInterrupt_threadIndex (hq : q ≠ k.timerInterrupt.procId) :
    (k.timerInterrupt.procs q).threadIndex = (k.procs q).threadIndex := by
  have hindex := getNextProc_threadIndex (k := k) q
  rw [timerInterrupt_procId] at hq
  rw [timerInterrupt]
  generalize k.getNextProc = r at hindex hq
  obtain ⟨k₁, pid⟩ := r
  have hne : q ≠ pid := hq
  simp only [getNextThread]
  split
  · simpa [setThread, setProcess, setProc, Function.update_of_ne hne] using hindex
  · simpa [setThread, setProcess, setProc, Function.update_of_ne hne] using hindex

/-- In the process that is selected the rotation goes on. -/
theorem timerInterrupt_rotates (h : (k.procs q).Eligible t) (hq : k.timerInterrupt.procId = q) :
    ∃ p : Proc, p.runState t = .running ∧
      p.nextRunning 16 (1 + (k.procs q).threadIndex.val) =
        some (k.timerInterrupt.procs q).threadIndex := by
  have hindex := getNextProc_threadIndex (k := k) q
  have helig : (k.getNextProc.1.procs q).Eligible t := by
    refine nextProcFrom_rule (I := fun pid p _ => pid = q → p.Eligible t) (G := fun _ _ _ => True)
      ?_ _ _ ?_ (nextProcMeets_true _ _ _) q rfl
    · intro pid p pcs hp _ hpid
      exact (hp hpid).notify
    · rintro pid rfl
      exact eligible_notify h 0
  rw [timerInterrupt_procId] at hq
  rw [timerInterrupt]
  generalize k.getNextProc = r at hindex hq helig
  obtain ⟨k₁, pid⟩ := r
  obtain rfl : pid = q := hq
  dsimp only at hindex helig ⊢
  refine ⟨k₁.procs pid, helig.running, ?_⟩
  rw [← hindex]
  simp only [getNextThread, thisProc, setProc]
  split
  · rename_i u hu
    rw [hu]
    simp [setThread, setProcess, thisProc]
  · rename_i hnone
    exact absurd helig.running (none_running hnone t)

/-! ## The two distances -/

/-- How many threads the rotation of a process passes before `t`. -/
def threadsTo (index t : Tid) : Nat := (t.val + 15 - index.val) % 16

/-- How many processes the rotation goes on to come to `q`, once around if it is there. -/
def procsTo (k : KState) (q : Nat) : Nat :=
  if k.procId < q then q - k.procId else q + k.numProcs - k.procId

/-- What is left of both. -/
def toGo (k : KState) (q : Nat) (t : Tid) : Nat :=
  k.procsTo q + threadsTo (k.procs q).threadIndex t * k.numProcs

theorem nextRunning_eq_some {p : Proc} {left i : Nat} {u : Tid} (h : p.nextRunning left i = some u) :
    ∃ j, j < left ∧ u = Fin.ofNat 16 (i + j) ∧
      ∀ j', j' < j → p.runState (Fin.ofNat 16 (i + j')) ≠ .running := by
  induction left generalizing i with
  | zero => cases h
  | succ left ih =>
    rw [Process.nextRunning] at h
    split at h
    · cases h
      exact ⟨0, by omega, rfl, fun j' hj' => absurd hj' (Nat.not_lt_zero j')⟩
    · rename_i hfirst
      obtain ⟨j, hj, hu, hbefore⟩ := ih h
      refine ⟨j + 1, by omega, by rw [hu, Nat.add_right_comm, Nat.add_assoc], ?_⟩
      intro j' hj'
      cases j' with
      | zero => exact hfirst
      | succ j' =>
        have hrest := hbefore j' (by omega)
        rwa [Nat.add_right_comm, Nat.add_assoc] at hrest

theorem nextRunning_running {p : Proc} {left i : Nat} {u : Tid} (h : p.nextRunning left i = some u) :
    p.runState u = .running := by
  induction left generalizing i with
  | zero => cases h
  | succ left ih =>
    rw [Process.nextRunning] at h
    split at h
    · rename_i hrun
      cases h
      exact hrun
    · exact ih h

/-- The rotation of a process selects `t`, or comes closer to it. -/
theorem threadsTo_lt {p : Proc} {index u : Tid} (ht : p.runState t = .running)
    (h : p.nextRunning 16 (1 + index.val) = some u) :
    u = t ∨ threadsTo u t < threadsTo index t := by
  obtain ⟨j, hj, rfl, hbefore⟩ := nextRunning_eq_some h
  have htarget : Fin.ofNat 16 (1 + index.val + threadsTo index t) = t := by
    apply Fin.ext
    simp only [threadsTo, Fin.ofNat_eq_cast, Fin.val_natCast]
    omega
  have hle : j ≤ threadsTo index t := by
    by_contra hlt
    refine hbefore (threadsTo index t) (by omega) ?_
    rw [htarget]
    exact ht
  rcases Nat.lt_or_eq_of_le hle with hlt | rfl
  · right
    simp only [threadsTo, Fin.ofNat_eq_cast, Fin.val_natCast] at hlt ⊢
    omega
  · exact Or.inl htarget

theorem mod_once_around {a n : Nat} (h : a < 2 * n) : a % n = if a < n then a else a - n := by
  split
  · rename_i hlt
    exact Nat.mod_eq_of_lt hlt
  · rename_i hge
    rw [Nat.mod_eq_sub_mod (by omega), Nat.mod_eq_of_lt (by omega)]

theorem procsTo_pos (hcur : k.procId < k.numProcs) : 1 ≤ k.procsTo q := by
  rw [procsTo]
  split <;> omega

theorem procsTo_lt_numProcs (hcur : k.procId < k.numProcs) (hq : q < k.numProcs)
    (hne : q ≠ k.procId) : k.procsTo q < k.numProcs := by
  rw [procsTo]
  split <;> omega

theorem procsTo_reaches (hcur : k.procId < k.numProcs) (hq : q < k.numProcs) :
    (k.procId + k.procsTo q) % k.numProcs = q := by
  rw [procsTo]
  split
  · rw [mod_once_around (by omega), if_pos (by omega)]
    omega
  · rw [mod_once_around (by omega), if_neg (by omega)]
    omega

/-- The timer takes a process at most as far on as `q`, or process 0. -/
theorem getNextProc_reaches (h : (k.procs q).Eligible t) (hcur : k.procId < k.numProcs)
    (hq : q < k.numProcs) :
    (∃ j, 1 ≤ j ∧ j ≤ k.procsTo q ∧ j < k.numProcs ∧
      k.getNextProc.2 = (k.procId + j) % k.numProcs) ∨ k.procId = q ∧ k.getNextProc.2 = 0 := by
  by_cases hat : k.procId = q
  · obtain ⟨j, hj1, hjn, hj⟩ | hzero := nextProcFrom_found (k.numProcs - 1) 1
      (k.notify 0 msgMonitor 0)
    · refine Or.inl ⟨j, hj1, ?_, by omega, hj⟩
      rw [procsTo, if_neg (by omega)]
      omega
    · exact Or.inr ⟨hat, hzero⟩
  · have hlt := procsTo_lt_numProcs hcur hq (Ne.symm hat)
    have hfar : k.procsTo q < 1 + (k.numProcs - 1) := by omega
    obtain ⟨j, hj1, hjd, hj⟩ := nextProcFrom_reaches (eligible_notify h 0)
      (procsTo_reaches hcur hq) (procsTo_pos hcur) hfar
    exact Or.inl ⟨j, hj1, hjd, Nat.lt_of_le_of_lt hjd hlt, hj⟩

theorem timerInterrupt_procId_lt (hcur : k.procId < k.numProcs) :
    k.timerInterrupt.procId < k.numProcs := by
  rw [timerInterrupt_procId]
  obtain ⟨j, -, -, hj⟩ | hzero := nextProcFrom_found (k.numProcs - 1) 1 (k.notify 0 msgMonitor 0)
  · have hpos : 0 < k.numProcs := by omega
    rw [getNextProc, hj]
    exact Nat.mod_lt _ hpos
  · rw [getNextProc, hzero]
    omega

/-- The rotation of the processes selects `q`, or comes closer to it. -/
theorem procsTo_lt (h : (k.procs q).Eligible t) (hcur : k.procId < k.numProcs)
    (hq : q < k.numProcs) :
    k.timerInterrupt.procId = q ∨ k.timerInterrupt.procsTo q < k.procsTo q := by
  rw [procsTo, timerInterrupt_numProcs, timerInterrupt_procId]
  obtain ⟨j, hj1, hjd, hjn, hj⟩ | ⟨hat, hzero⟩ := getNextProc_reaches h hcur hq
  · rw [hj, mod_once_around (by omega)]
    rw [procsTo] at hjd ⊢
    grind
  · rw [hzero, procsTo]
    grind

/-- A tick selects the thread, or there is less to go. -/
theorem toGo_lt (h : (k.procs q).Eligible t) (hcur : k.procId < k.numProcs)
    (hq : q < k.numProcs) :
    (k.timerInterrupt.procId = q ∧ k.timerInterrupt.thisThread = t) ∨
      k.timerInterrupt.toGo q t < k.toGo q t := by
  have hpos := procsTo_pos (q := q) hcur
  by_cases hat : k.timerInterrupt.procId = q
  · obtain ⟨p, hrun, hnext⟩ := timerInterrupt_rotates h hat
    rcases threadsTo_lt hrun hnext with hthis | hcloser
    · left
      refine ⟨hat, ?_⟩
      rw [thisThread, thisProc, hat, hthis]
    · right
      have haround : k.timerInterrupt.procsTo q = k.numProcs := by
        rw [procsTo, if_neg (by omega), timerInterrupt_numProcs, hat]
        omega
      have hmul := Nat.mul_le_mul_right k.numProcs hcloser
      rw [Nat.succ_mul] at hmul
      rw [toGo, toGo, haround, timerInterrupt_numProcs]
      omega
  · right
    have hcloser := (procsTo_lt h hcur hq).resolve_left hat
    rw [toGo, toGo, timerInterrupt_threadIndex (Ne.symm hat), timerInterrupt_numProcs]
    omega

theorem timerInterrupt_selects (h : (k.procs q).Eligible t) (hcur : k.procId < k.numProcs)
    (hq : q < k.numProcs) :
    ∃ j, 1 ≤ j ∧ j ≤ k.toGo q t ∧ (timerInterrupt^[j] k).procId = q ∧
      (timerInterrupt^[j] k).thisThread = t := by
  induction hgo : k.toGo q t using Nat.strongRecOn generalizing k with
  | _ n ih =>
    subst hgo
    rcases toGo_lt h hcur hq with ⟨hproc, hthread⟩ | hless
    · refine ⟨1, Nat.le_refl 1, ?_, hproc, hthread⟩
      exact Nat.le_trans (procsTo_pos hcur) (Nat.le_add_right _ _)
    · have hnum := timerInterrupt_numProcs (k := k)
      obtain ⟨j, hj1, hj, hproc, hthread⟩ := ih _ hless (timerInterrupt_eligible h)
        (by rw [hnum]; exact timerInterrupt_procId_lt hcur) (by rw [hnum]; exact hq) rfl
      refine ⟨j + 1, by omega, by omega, ?_, ?_⟩
      · rw [Function.iterate_succ_apply, hproc]
      · rw [Function.iterate_succ_apply, hthread]

end KState

/-- **The round robin starves nobody.** Whatever the table and whichever thread is current, a thread
that is running in a process with a positive counter is selected within `MAX_PROC_THREADS` ticks for
each process. -/
theorem timer_selects (k : KState) (hcur : k.procId < k.numProcs)
    (hcounters : ∀ pid, pid < k.numProcs → (k.procs pid).numRunningThreads.toNat ≤ 16) (q : Nat)
    (hq : q < k.numProcs) (hcount : 0 < (k.procs q).numRunningThreads) (t : Tid)
    (ht : (k.procs q).runState t = .running) :
    ∃ j, 1 ≤ j ∧ j ≤ 16 * k.numProcs ∧ (KState.timerInterrupt^[j] k).procId = q ∧
      (KState.timerInterrupt^[j] k).thisThread = t := by
  have helig : (k.procs q).Eligible t := ⟨ht, hcount, fun _ _ _ => hcounters q hq⟩
  obtain ⟨j, hj1, hj, hproc, hthread⟩ := KState.timerInterrupt_selects helig hcur hq
  refine ⟨j, hj1, Nat.le_trans hj ?_, hproc, hthread⟩
  have hprocs : k.procsTo q ≤ k.numProcs := by
    rw [KState.procsTo]
    split <;> omega
  have hthreads : KState.threadsTo (k.procs q).threadIndex t ≤ 15 := by
    rw [KState.threadsTo]
    omega
  have hmul := Nat.mul_le_mul_right k.numProcs hthreads
  rw [KState.toGo]
  omega

/-- Three processes: the kernel with nothing to run, and two with two running threads each, of which
the last one is current. -/
def trio : KState where
  procs := fun pid => freshProc (if pid = 0 then 0 else 2)
  numProcs := 3
  procId := 2
  pc := fun _ _ => .idle

theorem trio_selects : ∃ j, 1 ≤ j ∧ j ≤ 16 * 3 ∧ (KState.timerInterrupt^[j] trio).procId = 1 ∧
    (KState.timerInterrupt^[j] trio).thisThread = 0 :=
  timer_selects trio (by decide) (by decide) 1 (by decide) (by decide) 0 rfl

/-! ## When the timer idles -/

namespace Process

/-- The process has a running thread. -/
def Runnable (p : Proc) : Prop := ∃ t, p.runState t = .running

/-- The process has a running thread once the timer has looked for messages. -/
def RunnableNow (p : Proc) : Prop := (p.notify msgMonitor 0).Runnable

instance (p : Proc) : Decidable p.Runnable := inferInstanceAs (Decidable (∃ _, _ = _))

instance (p : Proc) : Decidable p.RunnableNow := inferInstanceAs (Decidable (Runnable _))

/-- The counter tells whether there is a running thread. -/
structure Truthful (p : Proc) : Prop where
  counter_iff : 0 < p.numRunningThreads ↔ p.Runnable
  room : p.Room

variable {p : Proc}

theorem Counted.truthful (h : p.Counted) : p.Truthful := by
  constructor
  · rw [UInt32.lt_iff_toNat_lt, h, UInt32.toNat_zero, Finset.card_pos]
    constructor
    · rintro ⟨t, ht⟩
      exact ⟨t, (Finset.mem_filter.mp ht).2⟩
    · rintro ⟨t, ht⟩
      exact ⟨t, Finset.mem_filter.mpr ⟨Finset.mem_univ t, ht⟩⟩
  · intro _ _ _
    rw [h]
    exact (Finset.card_filter_le _ _).trans (by simp)

theorem Runnable.now (h : p.Runnable) : p.RunnableNow := by
  obtain ⟨t, ht⟩ := h
  exact ⟨t, running_notify ht⟩

theorem Truthful.notify (h : p.Truthful) : (p.notify msgMonitor 0).Truthful := by
  refine ⟨?_, h.room.notify⟩
  obtain ⟨hnum, hrun⟩ | ⟨hpos, hrun⟩ := h.room.notify_counter
  · rw [hnum, h.counter_iff, Runnable, Runnable, hrun]
  · exact iff_of_true hpos hrun

/-- Looking for messages a second time wakes nobody else. -/
theorem runnableNow_notify : (p.notify msgMonitor 0).RunnableNow ↔ p.RunnableNow := by
  refine ⟨?_, Runnable.now⟩
  rintro ⟨t, ht⟩
  obtain ⟨hsig, hlock, hfirst⟩ := p.notify_cases msgMonitor 0
  obtain ⟨-, -, ⟨owner, hpos, howner, hreg, -, -, -⟩ | ⟨-, -, hrun, -⟩⟩ :=
    (p.notify msgMonitor 0).notify_cases msgMonitor 0
  · rw [hlock] at howner
    obtain ⟨owner', -, howner', -, hwait, hrun, -⟩ | ⟨hno, hwait, -, -⟩ := hfirst
    · exact ⟨owner', by rw [hrun, Function.update_self]⟩
    · rw [hsig, Function.update_self] at hpos
      rw [hwait] at hreg
      exact absurd hreg (hno (by simpa using hpos) owner howner)
  · rw [hrun] at ht
    exact ⟨t, ht⟩

end Process

namespace KState

variable {k : KState}

/-- Some process has a running thread. -/
def Runnable (k : KState) : Prop := ∃ pid, pid < k.numProcs ∧ (k.procs pid).Runnable

/-- A process other than the current one has a running thread once the timer has looked for
messages. -/
def OtherRunnable (k : KState) : Prop :=
  ∃ pid, pid < k.numProcs ∧ pid ≠ k.procId ∧ (k.procs pid).RunnableNow

/-- The loop of `get_next_proc` ends without a `return`. -/
def FallsBack : Nat → Nat → KState → Prop
  | 0, _, _ => True
  | left + 1, i, k =>
    let nextProcId := (k.procId + i) % k.numProcs
    let k := k.notify nextProcId msgMonitor 0
    ¬(k.procs nextProcId).numRunningThreads > 0 ∧ FallsBack left (i + 1) k

/-- `get_next_proc` comes to its `return 0`. -/
def UsesFallback (k : KState) : Prop :=
  FallsBack (k.numProcs - 1) 1 (k.notify 0 msgMonitor 0)

theorem runnableNow_notify (pid q : Nat) :
    ((k.notify pid msgMonitor 0).procs q).RunnableNow ↔ (k.procs q).RunnableNow := by
  exact forall_setProcess (I := fun q p _ => p.RunnableNow ↔ (k.procs q).RunnableNow)
    (fun _ => Iff.rfl) Process.runnableNow_notify q

theorem truthful_notify (h : ∀ pid, pid < k.numProcs → (k.procs pid).Truthful) (q : Nat) :
    ∀ pid, pid < k.numProcs → ((k.notify q msgMonitor 0).procs pid).Truthful := by
  by_cases hq : q < k.numProcs
  · exact forall_setProcess (I := fun pid p _ => pid < k.numProcs → p.Truthful) h
      fun _ => (h q hq).notify
  · exact forall_setProcess (I := fun pid p _ => pid < k.numProcs → p.Truthful) h
      fun hlt => absurd hlt hq

/-- The loop ends without a `return` when none of the processes it looks at can run. -/
theorem fallsBack_iff {left i : Nat} (h : ∀ pid, pid < k.numProcs → (k.procs pid).Truthful)
    (hpos : 0 < k.numProcs) :
    FallsBack left i k ↔ ∀ j, i ≤ j → j < i + left →
      ¬(k.procs ((k.procId + j) % k.numProcs)).RunnableNow := by
  induction left generalizing i k with
  | zero =>
    refine iff_of_true trivial ?_
    intro j hij hj
    omega
  | succ left ih =>
    have hlt : (k.procId + i) % k.numProcs < k.numProcs := Nat.mod_lt _ hpos
    have hrest := ih (k := k.notify ((k.procId + i) % k.numProcs) msgMonitor 0) (i := i + 1)
      (truthful_notify h _) hpos
    have hfirst : ((k.notify ((k.procId + i) % k.numProcs) msgMonitor 0).procs
        ((k.procId + i) % k.numProcs)).numRunningThreads > 0 ↔
        (k.procs ((k.procId + i) % k.numProcs)).RunnableNow := by
      rw [gt_iff_lt, (truthful_notify h _ _ hlt).counter_iff, notify, setProcess]
      simp only [Function.update_self]
      rfl
    rw [FallsBack, hfirst, hrest]
    constructor
    · rintro ⟨hnow, hlater⟩ j hij hj
      rcases Nat.lt_or_eq_of_le hij with hlt' | rfl
      · have hj' := hlater j hlt' (by omega)
        rwa [runnableNow_notify] at hj'
      · exact hnow
    · intro hall
      refine ⟨hall i (Nat.le_refl i) (by omega), ?_⟩
      intro j hij hj
      rw [runnableNow_notify]
      exact hall j (by omega) (by omega)

/-- `get_next_proc` falls back exactly when no other process can run. -/
theorem usesFallback_iff (h : ∀ pid, pid < k.numProcs → (k.procs pid).Truthful)
    (hcur : k.procId < k.numProcs) : k.UsesFallback ↔ ¬k.OtherRunnable := by
  have hpos : 0 < k.numProcs := Nat.zero_lt_of_lt hcur
  have hloop : k.UsesFallback ↔ ∀ j, 1 ≤ j → j < 1 + (k.numProcs - 1) →
      ¬((k.notify 0 msgMonitor 0).procs ((k.procId + j) % k.numProcs)).RunnableNow :=
    fallsBack_iff (truthful_notify h 0) hpos
  rw [hloop]
  constructor
  · rintro hall ⟨q, hq, hne, hnow⟩
    -- the loop looks at every process but the current one
    have hreach : (k.procId + k.procsTo q) % k.numProcs = q := procsTo_reaches hcur hq
    have hlt : k.procsTo q < k.numProcs := procsTo_lt_numProcs hcur hq hne
    refine hall (k.procsTo q) (procsTo_pos hcur) (by omega) ?_
    rw [runnableNow_notify, hreach]
    exact hnow
  · intro hnone j hj1 hjn hnow
    rw [runnableNow_notify] at hnow
    refine hnone ⟨_, Nat.mod_lt _ hpos, ?_, hnow⟩
    rw [mod_once_around (by omega)]
    split <;> omega

/-- Where the loop does not fall back, it ends with a process whose counter is positive. -/
theorem nextProcFrom_counter {left i : Nat} (h : ¬FallsBack left i k) :
    0 < ((nextProcFrom left i k).1.procs (nextProcFrom left i k).2).numRunningThreads := by
  induction left generalizing i k with
  | zero => exact absurd trivial h
  | succ left ih =>
    rw [nextProcFrom]
    split
    · assumption
    · rename_i hnone
      exact ih fun hrest => h ⟨hnone, hrest⟩

theorem nextProcFrom_fallback {left i : Nat} (h : FallsBack left i k) :
    (nextProcFrom left i k).2 = 0 := by
  induction left generalizing i k with
  | zero => rfl
  | succ left ih =>
    rw [nextProcFrom, if_neg h.1]
    exact ih h.2

/-- The selected thread is running exactly when the selected process has a running thread. -/
theorem thisThread_running_iff :
    k.timerInterrupt.thisProc.runState k.timerInterrupt.thisThread = .running ↔
      (k.getNextProc.1.procs k.getNextProc.2).Runnable := by
  rw [timerInterrupt]
  generalize k.getNextProc = r
  obtain ⟨k₁, pid⟩ := r
  simp only [getNextThread, thisProc, setProc]
  split
  · rename_i u hu
    have hrun := nextRunning_running hu
    refine iff_of_true ?_ ⟨u, hrun⟩
    simp only [setThread, setProcess, thisProc, thisThread, Function.update_self]
    exact hrun
  · rename_i hnone
    refine iff_of_false ?_ ?_
    · simp only [setThread, setProcess, thisProc, thisThread, Function.update_self]
      exact none_running hnone _
    · rintro ⟨t, ht⟩
      exact none_running hnone t ht

/-- What every `notify` with the message monitor keeps holds after the search. -/
theorem getNextProc_rule {I : Nat → Proc → Prop} (h : ∀ pid, I pid (k.procs pid))
    (hnotify : ∀ pid p, I pid p → I pid (p.notify msgMonitor 0)) (q : Nat) :
    I q (k.getNextProc.1.procs q) :=
  nextProcFrom_rule (I := fun pid p _ => I pid p) (G := fun _ _ _ => True)
    (fun pid p _ hp _ => hnotify pid p hp) _ _
    (forall_setProcess (I := fun pid p _ => I pid p) h (hnotify 0 _ (h 0)))
    (nextProcMeets_true _ _ _) q

theorem getNextProc_runnableNow (q : Nat) :
    (k.getNextProc.1.procs q).RunnableNow ↔ (k.procs q).RunnableNow :=
  getNextProc_rule (I := fun q p => p.RunnableNow ↔ (k.procs q).RunnableNow) (fun _ => Iff.rfl)
    (fun _ _ hp => Process.runnableNow_notify.trans hp) q

theorem getNextProc_runnable {q : Nat} (h : (k.procs q).Runnable) :
    (k.getNextProc.1.procs q).Runnable :=
  getNextProc_rule (I := fun q p => (k.procs q).Runnable → p.Runnable) (fun _ => id)
    (fun _ _ hp hq => (hp hq).now) q h

theorem getNextProc_truthful (h : ∀ pid, pid < k.numProcs → (k.procs pid).Truthful) {q : Nat}
    (hq : q < k.numProcs) : (k.getNextProc.1.procs q).Truthful :=
  getNextProc_rule (I := fun q p => q < k.numProcs → p.Truthful) h
    (fun _ _ hp hlt => (hp hlt).notify) q hq

/-- Where another process can run, the selected thread is running. -/
theorem thisThread_running_of_other (h : ∀ pid, pid < k.numProcs → (k.procs pid).Truthful)
    (hcur : k.procId < k.numProcs) (hother : k.OtherRunnable) :
    k.timerInterrupt.thisProc.runState k.timerInterrupt.thisThread = .running := by
  have hsearch : ¬k.UsesFallback := fun hfall => (usesFallback_iff h hcur).mp hfall hother
  have hlt : k.getNextProc.2 < k.numProcs := by
    rw [← timerInterrupt_procId]
    exact timerInterrupt_procId_lt hcur
  exact thisThread_running_iff.mpr
    ((getNextProc_truthful h hlt).counter_iff.mp (nextProcFrom_counter hsearch))

end KState

/-- **When the timer idles.** In a table with right counters, the thread that a tick selects is
running whenever some thread is, exactly when no thread is running, the current process is process 0,
or another process can run; and the fallback is for the idle thread only, exactly when no thread is
running or another process can run. -/
theorem tick_idles (k : KState) (hcur : k.procId < k.numProcs)
    (hcounted : ∀ pid, pid < k.numProcs → (k.procs pid).Counted) :
    ((k.Runnable →
        k.timerInterrupt.thisProc.runState k.timerInterrupt.thisThread = .running) ↔
      ¬k.Runnable ∨ k.procId = 0 ∨ k.OtherRunnable) ∧
    ((k.UsesFallback → ¬k.Runnable) ↔ ¬k.Runnable ∨ k.OtherRunnable) := by
  have htruth : ∀ pid, pid < k.numProcs → (k.procs pid).Truthful :=
    fun pid hpid => (hcounted pid hpid).truthful
  have hfall := KState.usesFallback_iff htruth hcur
  have hzero (hother : ¬k.OtherRunnable) : k.getNextProc.2 = 0 :=
    KState.nextProcFrom_fallback (hfall.mpr hother)
  refine ⟨⟨?_, ?_⟩, by grind⟩
  · intro hselects
    by_contra hnot
    simp only [not_or, not_not] at hnot
    obtain ⟨hrun, hproc, hother⟩ := hnot
    -- process 0 is one of the others, and it cannot run
    obtain ⟨t, ht⟩ := KState.thisThread_running_iff.mp (hselects hrun)
    rw [hzero hother] at ht
    have hnow : (k.procs 0).RunnableNow :=
      (KState.getNextProc_runnableNow 0).mp (Process.Runnable.now ⟨t, ht⟩)
    exact hother ⟨0, Nat.zero_lt_of_lt hcur, Ne.symm hproc, hnow⟩
  · intro hcond hrun
    by_cases hother : k.OtherRunnable
    · exact KState.thisThread_running_of_other htruth hcur hother
    · have hproc : k.procId = 0 := (hcond.resolve_left (not_not_intro hrun)).resolve_right hother
      obtain ⟨pid, hpid, hpidrun⟩ := hrun
      have hpid0 : pid = 0 := by
        by_contra hne
        exact hother ⟨pid, hpid, fun heq => hne (heq.trans hproc), hpidrun.now⟩
      subst hpid0
      refine KState.thisThread_running_iff.mpr ?_
      rw [hzero hother]
      exact KState.getNextProc_runnable hpidrun

/-- A table in which the conditions hold. -/
theorem trio_idles : (trio.Runnable →
      trio.timerInterrupt.thisProc.runState trio.timerInterrupt.thisThread = .running) ∧
    (trio.UsesFallback → ¬trio.Runnable) := by
  have hother : trio.OtherRunnable := ⟨1, by decide, by decide, by decide +kernel⟩
  have h := tick_idles trio (by decide) (by decide +kernel)
  exact ⟨h.1.mpr (Or.inr (Or.inr hother)), h.2.mpr (Or.inr hother)⟩

/-- Two processes, of which only the current one can run. -/
def solo : KState where
  procs := fun pid => freshProc (if pid = 1 then 1 else 0)
  numProcs := 2
  procId := 1
  pc := fun _ _ => .idle

/-- The thread of the current process is running, but the timer takes the idle thread. -/
theorem solo_idles : (∀ pid, pid < solo.numProcs → (solo.procs pid).Counted) ∧ solo.Runnable ∧
    solo.timerInterrupt.procId = 0 ∧ solo.UsesFallback ∧
    solo.timerInterrupt.thisProc.runState solo.timerInterrupt.thisThread ≠ .running := by
  refine ⟨by decide +kernel, ⟨1, by decide, by decide +kernel⟩, by decide +kernel, ?_,
    by decide +kernel⟩
  exact ⟨by decide +kernel, trivial⟩

end Shipwreck.Kernel
