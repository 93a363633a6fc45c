import Shipwreck.Kernel.Process
import Shipwreck.Lib.Transition

/-!
# The kernel's threads, its timer and what may interrupt what

One CPU runs `thisThread`. The timer interrupt picks the next process and thread; device interrupts
raise signals; everything else is the running thread executing its code. A thread inside `lock` or
`monitor` stands at a point of that code (`Pc`), and the steps follow where interrupts are enabled:

* `lock`, `unlock`, `notify` and `new_user_thread` run with interrupts off and are one step each;
* `monitor` starts with `cli()`, but the `lock` it calls ends with `sti()`, so that every statement
  of `monitor` from there to its `yield()` is a step of its own;
* after that `yield()` the `cli()` does last, and the end of `monitor` is one step.

The last two statements before the `yield()` in `monitor`, the store of `WAITING` and the decrement
of the counter, are one step (`exec`) unless an interrupt arrives between them (`cut`).
-/

namespace Shipwreck.Kernel

/-- An index into `threads[MAX_PROC_THREADS]`. -/
abbrev Tid := Fin 16

/-- An index into `locks[MAX_PROC_LOCKS]`. -/
abbrev Lid := Fin 64

/-- An index into `monitors[MAX_PROC_MONITORS]`. -/
abbrev Mid := Fin 64

abbrev Proc := Process Tid Lid Mid

/-- `MSG_MONITOR`. -/
def msgMonitor : Mid := 0

/-- Where a thread stands in the calls it makes. -/
inductive Pc where
  /-- Outside of them. -/
  | idle
  /-- In the `yield()` at the end of `lock`. -/
  | lockYield
  /-- In the `yield()` of the `lock` that `monitor` calls. -/
  | monLock (m : Mid) (diff : Int32)
  /-- At `if (mon->lock.owner != thisThread)`. -/
  | monOwner (m : Mid) (diff : Int32)
  /-- At `if (mon->signal <= 0)`. -/
  | monTest (m : Mid) (diff : Int32)
  /-- At `thisThread->signal_wait = &mon->signal`. -/
  | monRegister (m : Mid) (diff : Int32)
  /-- At `thisThread->runState = WAITING`. -/
  | monWait (m : Mid) (diff : Int32)
  /-- At `this->num_running_threads--`. -/
  | monCount (m : Mid) (diff : Int32)
  /-- In the `yield()` of `monitor`. -/
  | monYield (m : Mid) (diff : Int32)
  /-- At `mon->signal -= diff`, with interrupts on. -/
  | monSub (m : Mid) (diff : Int32)
  /-- At `if (mon->signal < 0) mon->signal = 0`, with interrupts on. -/
  | monClamp (m : Mid)
  deriving DecidableEq

/-- The calls a thread makes. -/
inductive Call where
  | lock (l : LockRef Lid Mid)
  | unlock (l : LockRef Lid Mid)
  | monitor (m : Mid) (diff : Int32)
  | notify (m : Mid) (diff : Int32)
  | newUserThread

/-- `procs`, `num_procs`, `proc_id`, and where every thread stands. -/
structure KState where
  procs : Nat → Proc
  numProcs : Nat
  procId : Nat
  pc : Nat → Tid → Pc

/-- What happens next: `thisThread` makes a call, executes what it stands at, is interrupted half
way through going to sleep in `monitor`; the timer ticks; a device interrupt increments a signal. -/
inductive Act where
  | call (c : Call)
  | exec
  | cut
  | tick
  | irq (pid : Nat) (m : Mid)

namespace Process

variable (p : Proc)

/-- The first `NULL` thread of the process, from index `i` with `left` to go. -/
def firstNull : Nat → Nat → Option Tid
  | 0, _ => none
  | left + 1, i =>
    if p.runState (Fin.ofNat 16 i) = .null then some (Fin.ofNat 16 i) else firstNull left (i + 1)

/-- `new_user_thread`: what it does to the run state, the links and the counter. -/
def newUserThread (t : Tid) : Proc :=
  let p := ((p.setLockNext t none).setSignalWait t none).setRunState t .running
  p.setNumRunning (p.numRunningThreads + 1)

@[simp] theorem runState_newUserThread (t : Tid) :
    (p.newUserThread t).runState = Function.update p.runState t .running := by
  simp [newUserThread]

@[simp] theorem numRunningThreads_newUserThread (t : Tid) :
    (p.newUserThread t).numRunningThreads = p.numRunningThreads + 1 := by
  simp [newUserThread]

@[simp] theorem signalWait_newUserThread (t : Tid) :
    (p.newUserThread t).signalWait = Function.update p.signalWait t none := by
  simp [newUserThread]

@[simp] theorem signal_newUserThread (t : Tid) : (p.newUserThread t).signal = p.signal := by
  simp [newUserThread]

@[simp] theorem owner_newUserThread (t : Tid) (l : LockRef Lid Mid) :
    ((p.newUserThread t).lockAt l).owner = (p.lockAt l).owner := by
  simp [newUserThread]

/-- The loop of `get_next_thread`, from `i` with `left` threads to go. -/
def nextRunning : Nat → Nat → Option Tid
  | 0, _ => none
  | left + 1, i =>
    if p.runState (Fin.ofNat 16 i) = .running then some (Fin.ofNat 16 i)
    else nextRunning left (i + 1)

/-- `thisThread` executes what it stands at; in a `yield()` there is nothing to do before it is
`RUNNING` again. -/
def exec (t : Tid) : Pc → Option (Proc × Pc)
  | .idle => none
  | .lockYield => if p.runState t = .running then some (p, .idle) else none
  | .monLock m diff => if p.runState t = .running then some (p, .monOwner m diff) else none
  | .monOwner m diff =>
    some (p, if (p.lockAt (.monitor m)).owner ≠ some t then .idle else .monTest m diff)
  | .monTest m diff =>
    some (p, if p.signal m ≤ 0 then .monRegister m diff else .monSub m diff)
  | .monRegister m diff => some (p.setSignalWait t (some m), .monWait m diff)
  | .monWait m diff =>
    let p := p.setRunState t .waiting
    some (p.setNumRunning (p.numRunningThreads - 1), .monYield m diff)
  | .monCount m diff => some (p.setNumRunning (p.numRunningThreads - 1), .monYield m diff)
  | .monYield m diff =>
    if p.runState t = .running then
      let signal := p.signal m - diff
      some (p.setSignal m (if signal < 0 then 0 else signal), .idle)
    else none
  | .monSub m diff => some (p.setSignal m (p.signal m - diff), .monClamp m)
  | .monClamp m => some (if p.signal m < 0 then p.setSignal m 0 else p, .idle)

end Process

/-- `num_running_threads` is the number of threads that are `RUNNING`. -/
def Process.Counted (p : Proc) : Prop :=
  p.numRunningThreads.toNat = (Finset.univ.filter fun t => p.runState t = .running).card

instance (p : Proc) : Decidable p.Counted := inferInstanceAs (Decidable (_ = _))

namespace KState

variable (k : KState)

def thisProc : Proc := k.procs k.procId

/-- `thisThread`, as its index in `thisProc`. -/
def thisThread : Tid := k.thisProc.threadIndex

def thisPc : Pc := k.pc k.procId k.thisThread

def setProcess (pid : Nat) (p : Proc) : KState := { k with procs := Function.update k.procs pid p }

def setPc (pid : Nat) (t : Tid) (pc : Pc) : KState :=
  { k with pc := Function.update k.pc pid (Function.update (k.pc pid) t pc) }

/-- `thisThread` leaves its process in the state `p` and stands at `pc`. -/
def setThis (p : Proc) (pc : Pc) : KState :=
  (k.setProcess k.procId p).setPc k.procId k.thisThread pc

/-- `procs[pid].notify(m, diff)`. -/
def notify (pid : Nat) (m : Mid) (diff : Int32) : KState :=
  k.setProcess pid ((k.procs pid).notify m diff)

/-! ## The timer interrupt -/

/-- The loop of `get_next_proc`, from `i` with `left` processes to go. -/
def nextProcFrom : Nat → Nat → KState → KState × Nat
  | 0, _, k => (k, 0)
  | left + 1, i, k =>
    let nextProcId := (k.procId + i) % k.numProcs
    let k := k.notify nextProcId msgMonitor 0
    if (k.procs nextProcId).numRunningThreads > 0 then (k, nextProcId)
    else nextProcFrom left (i + 1) k

def getNextProc : KState × Nat := nextProcFrom (k.numProcs - 1) 1 (k.notify 0 msgMonitor 0)

def setProc (nextProcId : Nat) : KState := { k with procId := nextProcId }

def getNextThread : KState × Tid :=
  match k.thisProc.nextRunning 16 (1 + k.thisProc.threadIndex.val) with
  | some nextIndex => (k, nextIndex)
  | none =>
    (k.setProcess k.procId (k.thisProc.setNumRunning 0),
      if k.procId = 0 then 0 else k.thisProc.threadIndex)

def setThread (nextIndex : Tid) : KState :=
  k.setProcess k.procId { k.thisProc with threadIndex := nextIndex }

def timerInterrupt : KState :=
  let (k, pid) := k.getNextProc
  let k := k.setProc pid
  let (k, tid) := k.getNextThread
  k.setThread tid

/-! ## Steps -/

/-- `thisThread` makes a call and runs it up to the first point where it can be interrupted. -/
def call : Call → Option KState
  | .lock l =>
    (k.thisProc.lock l k.thisThread).map fun r =>
      k.setThis r.1 (if r.2 then .idle else .lockYield)
  | .unlock l => some (k.setThis (k.thisProc.unlock l) .idle)
  | .monitor m diff =>
    (k.thisProc.lock (.monitor m) k.thisThread).map fun r =>
      k.setThis r.1 (if r.2 then .monOwner m diff else .monLock m diff)
  | .notify m diff => some (k.setThis (k.thisProc.notify m diff) .idle)
  | .newUserThread =>
    match k.thisProc.firstNull 16 0 with
    | none => some k
    | some t => some ((k.setProcess k.procId (k.thisProc.newUserThread t)).setPc k.procId t .idle)

/-- One step. Calls are made by a thread the scheduler runs because it is `RUNNING`: the idle
thread, which runs when there is no other, makes none. -/
def step : Act → Option KState
  | .call c =>
    if k.thisPc = .idle ∧ k.thisProc.runState k.thisThread = .running then k.call c else none
  | .exec => (k.thisProc.exec k.thisThread k.thisPc).map fun r => k.setThis r.1 r.2
  | .cut =>
    match k.thisPc with
    | .monWait m diff =>
      some (k.setThis (k.thisProc.setRunState k.thisThread .waiting) (.monCount m diff))
    | _ => none
  | .tick => some k.timerInterrupt
  | .irq pid m => some (k.setProcess pid ((k.procs pid).setSignal m ((k.procs pid).signal m + 1)))

end KState

/-- The kernel's runs. They start with free locks, no thread inside a call or registered for a
signal, and the counters right. -/
def kernel : Machine KState Act where
  init k := (∀ pid l, (k.procs pid).lockAt l = ⟨none, none⟩) ∧ (∀ pid t, k.pc pid t = .idle) ∧
    (∀ pid t, (k.procs pid).signalWait t = none) ∧ ∀ pid, (k.procs pid).Counted
  step := KState.step

/-! ## Facts about every process, step by step

`I pid p pcs` below is a fact about one process and where its threads stand. -/

namespace KState

variable {k : KState} {I : Nat → Proc → (Tid → Pc) → Prop}

theorem forall_setProcess (h : ∀ pid, I pid (k.procs pid) (k.pc pid)) {pid : Nat} {p : Proc}
    (hp : I pid p (k.pc pid)) :
    ∀ q, I q ((k.setProcess pid p).procs q) ((k.setProcess pid p).pc q) := by
  intro q
  by_cases hq : q = pid
  · subst hq
    simpa [setProcess] using hp
  · simpa [setProcess, Function.update_of_ne hq] using h q

theorem forall_setThread (h : ∀ pid, I pid (k.procs pid) (k.pc pid)) {p : Proc} {t : Tid} {pc : Pc}
    (hp : I k.procId p (Function.update (k.pc k.procId) t pc)) :
    ∀ q, I q (((k.setProcess k.procId p).setPc k.procId t pc).procs q)
      (((k.setProcess k.procId p).setPc k.procId t pc).pc q) := by
  intro q
  by_cases hq : q = k.procId
  · subst hq
    simpa [setProcess, setPc] using hp
  · simpa [setProcess, setPc, Function.update_of_ne hq] using h q

theorem forall_setThis (h : ∀ pid, I pid (k.procs pid) (k.pc pid)) {p : Proc} {pc : Pc}
    (hp : I k.procId p (Function.update (k.pc k.procId) k.thisThread pc)) :
    ∀ q, I q ((k.setThis p pc).procs q) ((k.setThis p pc).pc q) :=
  forall_setThread h hp

/-- Every `notify` that the rest of the loop of `get_next_proc` makes meets `G`. -/
def NextProcMeets (G : Nat → Proc → (Tid → Pc) → Prop) : Nat → Nat → KState → Prop
  | 0, _, _ => True
  | left + 1, i, k =>
    let nextProcId := (k.procId + i) % k.numProcs
    G nextProcId (k.procs nextProcId) (k.pc nextProcId) ∧
      (¬ ((k.notify nextProcId msgMonitor 0).procs nextProcId).numRunningThreads > 0 →
        NextProcMeets G left (i + 1) (k.notify nextProcId msgMonitor 0))

/-- Every `notify` of the timer interrupt meets `G`, in the state it is made in. -/
def TickMeets (G : Nat → Proc → (Tid → Pc) → Prop) (k : KState) : Prop :=
  G 0 (k.procs 0) (k.pc 0) ∧
    NextProcMeets G (k.numProcs - 1) 1 (k.notify 0 msgMonitor 0)

section Decide

variable {G : Nat → Proc → (Tid → Pc) → Prop} [∀ pid p pcs, Decidable (G pid p pcs)]

instance decidableNextProcMeets :
    (left i : Nat) → (k : KState) → Decidable (NextProcMeets G left i k)
  | 0, _, _ => isTrue trivial
  | left + 1, i, k =>
    let nextProcId := (k.procId + i) % k.numProcs
    have := decidableNextProcMeets left (i + 1) (k.notify nextProcId msgMonitor 0)
    inferInstanceAs (Decidable (_ ∧ (_ → _)))

instance (k : KState) : Decidable (k.TickMeets G) := inferInstanceAs (Decidable (_ ∧ _))

end Decide

variable {G : Nat → Proc → (Tid → Pc) → Prop}

theorem nextProcFrom_rule
    (hnotify : ∀ pid p pcs, I pid p pcs → G pid p pcs → I pid (p.notify msgMonitor 0) pcs)
    (left i : Nat) (h : ∀ pid, I pid (k.procs pid) (k.pc pid)) (hG : NextProcMeets G left i k) :
    ∀ pid, I pid ((nextProcFrom left i k).1.procs pid) ((nextProcFrom left i k).1.pc pid) := by
  induction left generalizing i k with
  | zero => exact h
  | succ left ih =>
    obtain ⟨hfirst, hrest⟩ := hG
    have hnext := forall_setProcess h (hnotify _ _ _ (h _) hfirst)
    rw [nextProcFrom]
    split
    · exact hnext
    · rename_i hnone
      exact ih (i + 1) hnext (hrest hnone)

/-- The loop of `get_next_thread` looks at `left` consecutive threads. -/
theorem nextRunning_eq_none {p : Proc} {left i : Nat} (h : p.nextRunning left i = none) :
    ∀ j, j < left → p.runState (Fin.ofNat 16 (i + j)) ≠ .running := by
  induction left generalizing i with
  | zero => exact fun j hj => absurd hj (Nat.not_lt_zero j)
  | succ left ih =>
    rw [Process.nextRunning] at h
    split at h
    · cases h
    · rename_i hfirst
      intro j hj
      cases j with
      | zero => exact hfirst
      | succ j =>
        have hrest := ih h j (by omega)
        rwa [show i + 1 + j = i + (j + 1) by omega] at hrest

/-- `get_next_thread` looks at all of them. -/
theorem none_running {p : Proc} {i : Nat} (h : p.nextRunning 16 i = none) (t : Tid) :
    p.runState t ≠ .running := by
  have hall := nextRunning_eq_none h ((t.val + 16 - i % 16) % 16) (Nat.mod_lt _ (by decide))
  have ht : Fin.ofNat 16 (i + (t.val + 16 - i % 16) % 16) = t := by
    apply Fin.ext
    simp only [Fin.ofNat_eq_cast, Fin.val_natCast]
    omega
  rwa [ht] at hall

/-- **The rule for the timer interrupt**: a fact that its `notify`s keep, that a reset of the
counter keeps when no thread is running, and that does not depend on `thread_index`. -/
theorem timerInterrupt_rule
    (hnotify : ∀ pid p pcs, I pid p pcs → G pid p pcs → I pid (p.notify msgMonitor 0) pcs)
    (hreset : ∀ pid p pcs, I pid p pcs → (∀ t, p.runState t ≠ .running) →
      I pid (p.setNumRunning 0) pcs)
    (hindex : ∀ pid p pcs t, I pid p pcs → I pid { p with threadIndex := t } pcs)
    (h : ∀ pid, I pid (k.procs pid) (k.pc pid)) (hG : k.TickMeets G) :
    ∀ pid, I pid (k.timerInterrupt.procs pid) (k.timerInterrupt.pc pid) := by
  have hfirst := forall_setProcess h (hnotify _ _ _ (h 0) hG.1)
  have hproc : ∀ pid, I pid (k.getNextProc.1.procs pid) (k.getNextProc.1.pc pid) :=
    nextProcFrom_rule hnotify _ _ hfirst hG.2
  rw [timerInterrupt]
  generalize k.getNextProc = r at hproc
  obtain ⟨k₁, pid⟩ := r
  simp only [getNextThread]
  split
  · exact forall_setProcess (k := k₁.setProc pid) hproc (hindex _ _ _ _ (hproc pid))
  · rename_i hnone
    have hzero := hreset _ _ _ (hproc pid) (none_running hnone)
    have hreset' := forall_setProcess (k := k₁.setProc pid) hproc hzero
    exact forall_setProcess hreset' (hindex _ _ _ _ (hreset' pid))

end KState

/-- A process of which the first `n` threads run. -/
def freshProc (n : Nat) : Proc where
  threadIndex := 0
  numRunningThreads := UInt32.ofNat n
  locks := fun _ => ⟨none, none⟩
  monitors := fun _ => ⟨⟨none, none⟩, 0⟩
  threads := fun t => ⟨if t.val < n then .running else .null, none, none⟩

/-- One process with two running threads. -/
def duo : KState where
  procs := fun pid => freshProc (if pid = 0 then 2 else 0)
  numProcs := 1
  procId := 0
  pc := fun _ _ => .idle

theorem duo_init : kernel.init duo := by
  refine ⟨?_, fun _ _ => rfl, fun _ _ => rfl, ?_⟩
  · intro pid l
    cases l <;> rfl
  · intro pid
    show Process.Counted (freshProc (if pid = 0 then 2 else 0))
    split <;> decide +kernel

end Shipwreck.Kernel
