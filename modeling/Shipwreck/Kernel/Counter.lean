import Shipwreck.Kernel.Scheduler
import Mathlib.Data.Finset.Card

/-!
# The counter of running threads

`get_next_proc` decides from `num_running_threads` alone whether a process is ever scheduled. The
counter is a cached summary of the threads' run states, kept by hand in six places, and three of
them can lose it:

* `unlock` makes the next owner `RUNNING` and does not count it;
* `notify` counts the owner it wakes, but a thread interrupted between its registration in
  `signal_wait` and its store of `WAITING` is still running, and already counted;
* an interrupt between the store of `WAITING` and the decrement shows the two out of step.

`running_counted` shows that these are all: in a run that meets none of them the counter is right
in every state. `unlock_uncounted` is a run of two threads over one lock where it is not.
-/

namespace Shipwreck.Kernel

namespace Process

variable {p p' : Proc} {t : Tid}

/-- The threads that are `RUNNING`. -/
def running (p : Proc) : Finset Tid := Finset.univ.filter fun t => p.runState t = .running

theorem mem_running : t ∈ p.running ↔ p.runState t = .running := by
  simp [running]

theorem card_running_le : p.running.card ≤ 16 :=
  (Finset.card_le_univ p.running).trans_eq (Fintype.card_fin 16)

/-- A running thread goes to sleep and is taken off the counter. -/
theorem Counted.sleep (h : p.Counted) (hrun : p.runState t = .running)
    (hstate : p'.runState = Function.update p.runState t .waiting)
    (hnum : p'.numRunningThreads = p.numRunningThreads - 1) : p'.Counted := by
  have hset : p'.running = p.running.erase t := by
    ext u
    rw [Finset.mem_erase, mem_running, mem_running, hstate, Function.update_apply]
    split
    · rename_i hu
      simp [hu]
    · rename_i hu
      simp [hu]
  have hcard : p.numRunningThreads.toNat = p.running.card := h
  have hpos : 0 < p.running.card := Finset.card_pos.mpr ⟨t, mem_running.mpr hrun⟩
  show p'.numRunningThreads.toNat = p'.running.card
  rw [hset, Finset.card_erase_of_mem (mem_running.mpr hrun), hnum,
    UInt32.toNat_sub_of_le _ _ (UInt32.le_iff_toNat_le.mpr (by simp; omega)), hcard]
  rfl

/-- A thread that was not running is made to, and put on the counter. -/
theorem Counted.wake (h : p.Counted) (hrun : p.runState t ≠ .running)
    (hstate : p'.runState = Function.update p.runState t .running)
    (hnum : p'.numRunningThreads = p.numRunningThreads + 1) : p'.Counted := by
  have hset : p'.running = insert t p.running := by
    ext u
    rw [Finset.mem_insert, mem_running, mem_running, hstate, Function.update_apply]
    split
    · rename_i hu
      simp [hu]
    · rename_i hu
      simp [hu]
  have hcard : p.numRunningThreads.toNat = p.running.card := h
  have hle := card_running_le (p := p)
  show p'.numRunningThreads.toNat = p'.running.card
  rw [hset, Finset.card_insert_of_notMem fun hmem => hrun (mem_running.mp hmem), hnum,
    UInt32.toNat_add, hcard]
  simp
  omega

theorem Counted.congr (h : p.Counted) (hstate : p'.runState = p.runState)
    (hnum : p'.numRunningThreads = p.numRunningThreads) : p'.Counted := by
  rw [Counted, hstate, hnum]
  exact h

/-- The reset in `get_next_thread` finds the counter at 0 already. -/
theorem Counted.reset (h : p.Counted) (hnone : ∀ t, p.runState t ≠ .running) :
    p.numRunningThreads = 0 := by
  have hempty : p.running = ∅ := by
    ext t
    simp [mem_running, hnone t]
  have hcard : p.numRunningThreads.toNat = p.running.card := h
  rw [hempty, Finset.card_empty] at hcard
  exact UInt32.toNat.inj hcard

/-- If `notify` raises the signal, it does not find the owner of the monitor registered for the
signal and still running. -/
def WakesSleeper (p : Proc) (m : Mid) (diff : Int32) : Prop :=
  p.signal m + diff > 0 → ∀ owner, (p.lockAt (.monitor m)).owner = some owner →
    p.signalWait owner = some m → p.runState owner ≠ .running

end Process

/-- Points of `monitor` where the thread is running: it has the lock and has not gone to sleep. -/
def Pc.Awake : Pc → Prop
  | .monOwner _ _ | .monTest _ _ | .monRegister _ _ | .monWait _ _ => True
  | _ => False

/-- The counter of a process is right, its threads are running where they must be, and none was
interrupted half way through going to sleep. -/
structure CountInv (p : Proc) (pcs : Tid → Pc) : Prop where
  counted : p.Counted
  awake : ∀ t, (pcs t).Awake → p.runState t = .running
  whole : ∀ t m diff, pcs t ≠ .monCount m diff

namespace CountInv

variable {p p' : Proc} {pcs : Tid → Pc} {t : Tid} {pc : Pc}

/-- The run states and the counter are all that matters. -/
theorem congr (h : CountInv p pcs) (hstate : p'.runState = p.runState)
    (hnum : p'.numRunningThreads = p.numRunningThreads) : CountInv p' pcs := by
  refine ⟨h.counted.congr hstate hnum, ?_, h.whole⟩
  intro u hu
  rw [hstate]
  exact h.awake u hu

/-- A thread moves on. -/
theorem move (h : CountInv p pcs) (pc : Pc) (hawake : pc.Awake → p.runState t = .running)
    (hwhole : ∀ m diff, pc ≠ .monCount m diff) : CountInv p (Function.update pcs t pc) := by
  refine ⟨h.counted, ?_, ?_⟩
  · intro u hu
    rw [Function.update_apply] at hu
    split at hu
    · rename_i hut
      rw [hut]
      exact hawake hu
    · exact h.awake u hu
  · intro u
    rw [Function.update_apply]
    split
    · exact hwhole
    · exact h.whole u

/-- A running thread goes to sleep. -/
theorem sleep (h : CountInv p pcs) (hrun : p.runState t = .running)
    (hstate : p'.runState = Function.update p.runState t .waiting)
    (hnum : p'.numRunningThreads = p.numRunningThreads - 1) (hpc : ¬ pc.Awake)
    (hwhole : ∀ m diff, pc ≠ .monCount m diff) : CountInv p' (Function.update pcs t pc) := by
  refine ⟨h.counted.sleep hrun hstate hnum, ?_, ?_⟩
  · intro u hu
    rw [Function.update_apply] at hu
    split at hu
    · exact absurd hu hpc
    · rename_i hut
      rw [hstate, Function.update_of_ne hut]
      exact h.awake u hu
  · intro u
    rw [Function.update_apply]
    split
    · exact hwhole
    · exact h.whole u

/-- A thread that is not running is woken. -/
theorem wake (h : CountInv p pcs) (hrun : p.runState t ≠ .running)
    (hstate : p'.runState = Function.update p.runState t .running)
    (hnum : p'.numRunningThreads = p.numRunningThreads + 1) : CountInv p' pcs := by
  refine ⟨h.counted.wake hrun hstate hnum, ?_, h.whole⟩
  intro u hu
  rw [hstate, Function.update_apply]
  split
  · rfl
  · exact h.awake u hu

theorem lock (h : CountInv p pcs) (hrun : p.runState t = .running) {l : LockRef Lid Mid}
    {got : Bool} (hlock : p.lock l t = some (p', got)) (hpc : got = false → ¬ pc.Awake)
    (hwhole : ∀ m diff, pc ≠ .monCount m diff) : CountInv p' (Function.update pcs t pc) := by
  rcases Process.lock_cases hlock with ⟨rfl, -, rfl⟩ | ⟨rfl, hstate, hnum, -⟩
  · exact (h.move pc (fun _ => hrun) hwhole).congr (by simp) (by simp)
  · exact h.sleep hrun hstate hnum (hpc rfl) hwhole

theorem notify (h : CountInv p pcs) {m : Mid} {diff : Int32} (hwakes : p.WakesSleeper m diff) :
    CountInv (p.notify m diff) pcs := by
  obtain ⟨-, -, ⟨owner, hpos, howner, hreg, -, hstate, hnum⟩ | ⟨-, -, hstate, hnum⟩⟩ :=
    p.notify_cases m diff
  · exact h.wake (hwakes hpos owner howner hreg) hstate hnum
  · exact h.congr hstate hnum

theorem newUserThread (h : CountInv p pcs) (hnull : p.runState t = .null) :
    CountInv (p.newUserThread t) (Function.update pcs t .idle) := by
  have hnew : CountInv (p.newUserThread t) pcs := by
    apply h.wake (t := t)
    · rw [hnull]
      decide
    · exact p.runState_newUserThread t
    · exact p.numRunningThreads_newUserThread t
  exact hnew.move .idle (fun h => False.elim h) (fun m diff => by simp)

/-- `unlock` when nobody waits. -/
theorem unlock (h : CountInv p pcs) {l : LockRef Lid Mid} (hnext : (p.lockAt l).next = none) :
    CountInv (p.unlock l) (Function.update pcs t .idle) := by
  refine (h.move .idle (fun h => False.elim h) (fun m diff => by simp)).congr ?_ ?_ <;>
    simp [Process.unlock, hnext]

/-- One statement of `lock` or `monitor`. -/
theorem exec (h : CountInv p pcs) {pc' : Pc} (hs : p.exec t (pcs t) = some (p', pc')) :
    CountInv p' (Function.update pcs t pc') := by
  have hawake := h.awake t
  cases hpc : pcs t with
  | idle =>
    rw [hpc] at hs
    cases hs
  | lockYield =>
    rw [hpc, Process.exec] at hs
    split at hs
    · cases hs
      exact h.move .idle (fun h => False.elim h) (fun m diff => by simp)
    · cases hs
  | monLock m diff =>
    rw [hpc, Process.exec] at hs
    split at hs
    · rename_i hrun
      cases hs
      exact h.move _ (fun _ => hrun) (fun m diff => by simp)
    · cases hs
  | monOwner m diff =>
    rw [hpc] at hs hawake
    cases hs
    refine h.move _ (fun _ => hawake trivial) ?_
    intro m' diff'
    split <;> simp
  | monTest m diff =>
    rw [hpc] at hs hawake
    cases hs
    refine h.move _ (fun _ => hawake trivial) ?_
    intro m' diff'
    split <;> simp
  | monRegister m diff =>
    rw [hpc] at hs hawake
    cases hs
    exact (h.move _ (fun _ => hawake trivial) (fun m diff => by simp)).congr (by simp) (by simp)
  | monWait m diff =>
    rw [hpc] at hs hawake
    cases hs
    exact h.sleep (hawake trivial) (by simp) (by simp) (fun h => h) (fun m diff => by simp)
  -- no thread has been interrupted there
  | monCount m diff => exact absurd hpc (h.whole t m diff)
  | monYield m diff =>
    rw [hpc, Process.exec] at hs
    split at hs
    · cases hs
      exact (h.move .idle (fun h => False.elim h) (fun m diff => by simp)).congr (by simp) (by simp)
    · cases hs
  | monSub m diff =>
    rw [hpc] at hs
    cases hs
    exact (h.move (.monClamp m) (fun h => False.elim h) (fun m diff => by simp)).congr (by simp) (by simp)
  | monClamp m =>
    rw [hpc] at hs
    cases hs
    refine (h.move .idle (fun h => False.elim h) (fun m diff => by simp)).congr ?_ ?_ <;> split <;> simp

end CountInv

/-! ## Runs -/

/-- The counter of every process is the number of its running threads, and so it is positive as
soon as there is one. -/
def KState.CountsRight (k : KState) : Prop :=
  ∀ pid, (k.procs pid).Counted ∧
    ∀ t, (k.procs pid).runState t = .running → 0 < (k.procs pid).numRunningThreads.toNat

/-- The step is none of the three that lose count: nobody waits for a lock that is unlocked; no
`notify`, a thread's or the timer's, finds the owner it wakes still running; no interrupt arrives
between the store of `WAITING` and the decrement. -/
def KState.KeepsCount (k : KState) : Act → Prop
  | .call (.unlock l) => (k.thisProc.lockAt l).next = none
  | .call (.notify m diff) => k.thisProc.WakesSleeper m diff
  | .cut => False
  | .tick => k.TickMeets fun _ p _ => p.WakesSleeper msgMonitor 0
  | _ => True

instance (p : Proc) (m : Mid) (diff : Int32) : Decidable (p.WakesSleeper m diff) :=
  inferInstanceAs (Decidable (_ → ∀ _ : Fin 16, _ → _ → _))

instance (k : KState) (a : Act) : Decidable (k.KeepsCount a) :=
  match a with
  | .call (.unlock l) => inferInstanceAs (Decidable ((k.thisProc.lockAt l).next = none))
  | .call (.notify m diff) => inferInstanceAs (Decidable (k.thisProc.WakesSleeper m diff))
  | .cut => isFalse fun h => h
  | .tick => inferInstanceAs (Decidable (k.TickMeets fun _ p _ => p.WakesSleeper msgMonitor 0))
  | .call (.lock _) | .call (.monitor _ _) | .call .newUserThread | .exec | .irq _ _ =>
    isTrue trivial

/-- What `new_user_thread` finds is free. -/
theorem Process.firstNull_eq_some {p : Proc} {left i : Nat} {t : Tid}
    (h : p.firstNull left i = some t) : p.runState t = .null := by
  induction left generalizing i with
  | zero => cases h
  | succ left ih =>
    rw [firstNull] at h
    split at h
    · rename_i hnull
      cases h
      exact hnull
    · exact ih h

namespace KState

variable {k k' : KState}

/-- A call that goes on at `got` with the lock, and at `waiting` without it. -/
theorem lock_countInv {l : LockRef Lid Mid} {got waiting : Pc}
    (h : ∀ pid, CountInv (k.procs pid) (k.pc pid))
    (hrun : k.thisProc.runState k.thisThread = .running) (hawake : ¬ waiting.Awake)
    (hgot : ∀ m diff, got ≠ .monCount m diff) (hwaiting : ∀ m diff, waiting ≠ .monCount m diff)
    (hs : ((k.thisProc.lock l k.thisThread).map fun r =>
      k.setThis r.1 (if r.2 then got else waiting)) = some k') :
    ∀ pid, CountInv (k'.procs pid) (k'.pc pid) := by
  obtain ⟨⟨p', locked⟩, hlock, rfl⟩ := Option.map_eq_some_iff.mp hs
  refine forall_setThis h ((h k.procId).lock hrun hlock ?_ ?_)
  · rintro rfl
    exact hawake
  · intro m diff
    cases locked with
    | true => exact hgot m diff
    | false => exact hwaiting m diff

theorem call_countInv {c : Call} (h : ∀ pid, CountInv (k.procs pid) (k.pc pid))
    (hrun : k.thisProc.runState k.thisThread = .running) (hG : k.KeepsCount (.call c))
    (hs : k.call c = some k') : ∀ pid, CountInv (k'.procs pid) (k'.pc pid) := by
  have hthis : CountInv k.thisProc (k.pc k.procId) := h k.procId
  cases c with
  | lock l =>
    exact lock_countInv h hrun (by simp [Pc.Awake]) (by simp) (by simp) hs
  | unlock l =>
    cases hs
    exact forall_setThis h (hthis.unlock hG)
  | monitor m diff =>
    exact lock_countInv h hrun (by simp [Pc.Awake]) (by simp) (by simp) hs
  | notify m diff =>
    cases hs
    exact forall_setThis h ((hthis.notify hG).move .idle (fun h => False.elim h) (fun m diff => by simp))
  | newUserThread =>
    simp only [call] at hs
    split at hs
    · cases hs
      exact h
    · rename_i t hnull
      cases hs
      exact forall_setThread h (hthis.newUserThread (Process.firstNull_eq_some hnull))

theorem step_countInv {a : Act} (h : ∀ pid, CountInv (k.procs pid) (k.pc pid))
    (hG : k.KeepsCount a) (hs : k.step a = some k') :
    ∀ pid, CountInv (k'.procs pid) (k'.pc pid) := by
  cases a with
  | call c =>
    simp only [step] at hs
    split at hs
    · rename_i hcaller
      exact call_countInv h hcaller.2 hG hs
    · cases hs
  | exec =>
    obtain ⟨⟨p', pc'⟩, hexec, rfl⟩ := Option.map_eq_some_iff.mp hs
    exact forall_setThis h ((h k.procId).exec hexec)
  | cut => exact hG.elim
  | tick =>
    cases hs
    have htick : k.TickMeets fun _ p _ => p.WakesSleeper msgMonitor 0 := hG
    refine timerInterrupt_rule (I := fun _ => CountInv) ?_ ?_ ?_ h htick
    · intro pid p pcs hp hwakes
      exact hp.notify hwakes
    · intro pid p pcs hp hnone
      exact hp.congr (by simp) (by simp [hp.counted.reset hnone])
    · intro pid p pcs t hp
      exact hp.congr rfl rfl
  | irq pid m =>
    cases hs
    exact forall_setProcess (I := fun _ => CountInv) h ((h pid).congr (by simp) (by simp))

end KState

/-- **The counter is right** in every state of every run none of whose steps is one of the three
that lose count. -/
theorem running_counted (k : KState) (acts : List Act) (hinit : kernel.init k)
    (h : kernel.Steps KState.KeepsCount k acts) : kernel.States KState.CountsRight k acts := by
  refine Machine.states_of_steps (I := fun k => ∀ pid, CountInv (k.procs pid) (k.pc pid))
    ?_ ?_ ?_ h
  · intro k hk pid
    refine ⟨(hk pid).counted, ?_⟩
    intro t ht
    have hcard : (k.procs pid).numRunningThreads.toNat = (k.procs pid).running.card :=
      (hk pid).counted
    rw [hcard]
    exact Finset.card_pos.mpr ⟨t, Process.mem_running.mpr ht⟩
  · intro k a k' hk hG hs
    exact KState.step_countInv hk hG hs
  · obtain ⟨-, hpc, -, hcounted⟩ := hinit
    intro pid
    refine ⟨hcounted pid, ?_, ?_⟩
    · intro t ht
      rw [hpc pid t] at ht
      exact ht.elim
    · intro t m diff ht
      rw [hpc pid t] at ht
      cases ht

/-- Thread 0 waits for a signal, thread 1 raises it, and thread 0 goes on. -/
def signalled (m : Mid) : List Act :=
  [.call (.monitor m 1), .exec, .exec, .exec, .exec, .tick, .call (.notify m 1), .tick, .exec]

theorem signalled_counted :
    (kernel.exec duo (signalled 1)).isSome ∧ kernel.States KState.CountsRight duo (signalled 1) :=
  ⟨by decide +kernel, running_counted duo (signalled 1) duo_init (by decide +kernel)⟩

/-- Thread 1 queues up behind thread 0, which unlocks. -/
def contendedUnlock (l : Lid) : List Act :=
  [.call (.lock (.lock l)), .tick, .call (.lock (.lock l)), .tick, .call (.unlock (.lock l))]

/-- **`unlock` does not count the thread it wakes**: both threads are `RUNNING`, and the counter
says one. -/
theorem unlock_uncounted :
    kernel.init duo ∧ ¬ kernel.States KState.CountsRight duo (contendedUnlock 0) := by
  refine ⟨duo_init, ?_⟩
  intro h
  have hlast := (h.last rfl 0).1
  exact absurd hlast (by decide)

end Shipwreck.Kernel
