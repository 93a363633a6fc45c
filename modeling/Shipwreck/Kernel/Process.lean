import Shipwreck.Lib.Chain
import Mathlib.Data.Fintype.Card

/-!
# The process control block and its locks and monitors

`Process` with the fields the locks, the monitors and the scheduler use, and the operations of
`process.cpp` on it. Threads, locks and monitors are indexed by arbitrary types; the kernel has 16
threads, 64 locks and 64 monitors for each process. A `Thread *` is the thread's index, and a
`Lock *` names one of the process's locks or the lock inside one of its monitors.

`cli()` and `sti()` do not appear: the operations here are the stretches of code that run with
interrupts off, and each is one function. What may happen between them is the business of the
modules that build machines from them.
-/

namespace Shipwreck.Kernel

/-- `ThreadRunState`. -/
inductive ThreadRunState where
  | null
  | running
  | waiting
  | done
  deriving DecidableEq, Repr

/-- `Thread`; `signal_wait` points at the signal of one of the process's monitors. -/
structure Thread (Tid Mid : Type) where
  runState : ThreadRunState
  lockNext : Option Tid
  signalWait : Option Mid

/-- `Lock`. -/
structure Lock (Tid : Type) where
  owner : Option Tid
  next : Option Tid

/-- `Monitor`. -/
structure Monitor (Tid : Type) where
  lock : Lock Tid
  signal : Int32

/-- `Lock *`. -/
inductive LockRef (Lid Mid : Type) where
  | lock (l : Lid)
  | monitor (m : Mid)
  deriving DecidableEq

/-- `Process`. -/
structure Process (Tid Lid Mid : Type) where
  threadIndex : Tid
  numRunningThreads : UInt32
  locks : Lid → Lock Tid
  monitors : Mid → Monitor Tid
  threads : Tid → Thread Tid Mid

namespace Process

variable {Tid Lid Mid : Type}

/-! ## Reading and writing through pointers -/

/-- `*lock`. -/
def lockAt (p : Process Tid Lid Mid) : LockRef Lid Mid → Lock Tid
  | .lock l => p.locks l
  | .monitor m => (p.monitors m).lock

def runState (p : Process Tid Lid Mid) (t : Tid) : ThreadRunState := (p.threads t).runState

def lockNext (p : Process Tid Lid Mid) (t : Tid) : Option Tid := (p.threads t).lockNext

def signalWait (p : Process Tid Lid Mid) (t : Tid) : Option Mid := (p.threads t).signalWait

def signal (p : Process Tid Lid Mid) (m : Mid) : Int32 := (p.monitors m).signal

def setLock [DecidableEq Lid] [DecidableEq Mid] (p : Process Tid Lid Mid)
    (r : LockRef Lid Mid) (v : Lock Tid) : Process Tid Lid Mid :=
  match r with
  | .lock l => { p with locks := Function.update p.locks l v }
  | .monitor m =>
    { p with monitors := Function.update p.monitors m { p.monitors m with lock := v } }

def setRunState [DecidableEq Tid] (p : Process Tid Lid Mid) (t : Tid) (v : ThreadRunState) :
    Process Tid Lid Mid :=
  { p with threads := Function.update p.threads t { p.threads t with runState := v } }

def setLockNext [DecidableEq Tid] (p : Process Tid Lid Mid) (t : Tid) (v : Option Tid) :
    Process Tid Lid Mid :=
  { p with threads := Function.update p.threads t { p.threads t with lockNext := v } }

def setSignalWait [DecidableEq Tid] (p : Process Tid Lid Mid) (t : Tid) (v : Option Mid) :
    Process Tid Lid Mid :=
  { p with threads := Function.update p.threads t { p.threads t with signalWait := v } }

def setSignal [DecidableEq Mid] (p : Process Tid Lid Mid) (m : Mid) (v : Int32) :
    Process Tid Lid Mid :=
  { p with monitors := Function.update p.monitors m { p.monitors m with signal := v } }

def setNumRunning (p : Process Tid Lid Mid) (v : UInt32) : Process Tid Lid Mid :=
  { p with numRunningThreads := v }

/-! ### What a store changes, and what it leaves alone -/

variable (p : Process Tid Lid Mid)

section SetLock

variable [DecidableEq Lid] [DecidableEq Mid] (r : LockRef Lid Mid) (v : Lock Tid)

@[simp] theorem lockAt_setLock : (p.setLock r v).lockAt = Function.update p.lockAt r v := by
  funext r'
  cases r <;> cases r' <;> simp [setLock, lockAt, Function.update_apply]
  split <;> simp_all

@[simp] theorem signal_setLock : (p.setLock r v).signal = p.signal := by
  funext m
  cases r <;> simp [setLock, signal, Function.update_apply]
  split <;> simp_all

@[simp] theorem runState_setLock : (p.setLock r v).runState = p.runState := by
  cases r <;> rfl

@[simp] theorem lockNext_setLock : (p.setLock r v).lockNext = p.lockNext := by
  cases r <;> rfl

@[simp] theorem signalWait_setLock : (p.setLock r v).signalWait = p.signalWait := by
  cases r <;> rfl

@[simp] theorem numRunning_setLock : (p.setLock r v).numRunningThreads = p.numRunningThreads := by
  cases r <;> rfl

@[simp] theorem threadIndex_setLock : (p.setLock r v).threadIndex = p.threadIndex := by
  cases r <;> rfl

end SetLock

section SetThread

variable [DecidableEq Tid] (t : Tid)

@[simp] theorem runState_setRunState (v : ThreadRunState) :
    (p.setRunState t v).runState = Function.update p.runState t v := by
  funext u
  simp only [setRunState, runState, Function.update_apply]
  split <;> rfl

@[simp] theorem lockNext_setRunState (v : ThreadRunState) : (p.setRunState t v).lockNext = p.lockNext := by
  funext u
  simp only [setRunState, lockNext, Function.update_apply]
  split <;> simp_all

@[simp] theorem signalWait_setRunState (v : ThreadRunState) : (p.setRunState t v).signalWait = p.signalWait := by
  funext u
  simp only [setRunState, signalWait, Function.update_apply]
  split <;> simp_all

@[simp] theorem lockAt_setRunState (v : ThreadRunState) : (p.setRunState t v).lockAt = p.lockAt := by
  funext r
  cases r <;> rfl

@[simp] theorem signal_setRunState (v : ThreadRunState) :
    (p.setRunState t v).signal = p.signal := rfl

@[simp] theorem numRunning_setRunState (v : ThreadRunState) :
    (p.setRunState t v).numRunningThreads = p.numRunningThreads := rfl

@[simp] theorem threadIndex_setRunState (v : ThreadRunState) :
    (p.setRunState t v).threadIndex = p.threadIndex := rfl

@[simp] theorem lockNext_setLockNext (v : Option Tid) :
    (p.setLockNext t v).lockNext = Function.update p.lockNext t v := by
  funext u
  simp only [setLockNext, lockNext, Function.update_apply]
  split <;> rfl

@[simp] theorem runState_setLockNext (v : Option Tid) : (p.setLockNext t v).runState = p.runState := by
  funext u
  simp only [setLockNext, runState, Function.update_apply]
  split <;> simp_all

@[simp] theorem signalWait_setLockNext (v : Option Tid) : (p.setLockNext t v).signalWait = p.signalWait := by
  funext u
  simp only [setLockNext, signalWait, Function.update_apply]
  split <;> simp_all

@[simp] theorem lockAt_setLockNext (v : Option Tid) : (p.setLockNext t v).lockAt = p.lockAt := by
  funext r
  cases r <;> rfl

@[simp] theorem signal_setLockNext (v : Option Tid) : (p.setLockNext t v).signal = p.signal := rfl

@[simp] theorem numRunning_setLockNext (v : Option Tid) :
    (p.setLockNext t v).numRunningThreads = p.numRunningThreads := rfl

@[simp] theorem threadIndex_setLockNext (v : Option Tid) :
    (p.setLockNext t v).threadIndex = p.threadIndex := rfl

@[simp] theorem signalWait_setSignalWait (v : Option Mid) :
    (p.setSignalWait t v).signalWait = Function.update p.signalWait t v := by
  funext u
  simp only [setSignalWait, signalWait, Function.update_apply]
  split <;> rfl

@[simp] theorem runState_setSignalWait (v : Option Mid) : (p.setSignalWait t v).runState = p.runState := by
  funext u
  simp only [setSignalWait, runState, Function.update_apply]
  split <;> simp_all

@[simp] theorem lockNext_setSignalWait (v : Option Mid) : (p.setSignalWait t v).lockNext = p.lockNext := by
  funext u
  simp only [setSignalWait, lockNext, Function.update_apply]
  split <;> simp_all

@[simp] theorem lockAt_setSignalWait (v : Option Mid) : (p.setSignalWait t v).lockAt = p.lockAt := by
  funext r
  cases r <;> rfl

@[simp] theorem signal_setSignalWait (v : Option Mid) :
    (p.setSignalWait t v).signal = p.signal := rfl

@[simp] theorem numRunning_setSignalWait (v : Option Mid) :
    (p.setSignalWait t v).numRunningThreads = p.numRunningThreads := rfl

@[simp] theorem threadIndex_setSignalWait (v : Option Mid) :
    (p.setSignalWait t v).threadIndex = p.threadIndex := rfl

end SetThread

section SetMonitor

variable [DecidableEq Mid] (m : Mid) (v : Int32)

@[simp] theorem signal_setSignal : (p.setSignal m v).signal = Function.update p.signal m v := by
  funext m'
  simp only [setSignal, signal, Function.update_apply]
  split <;> rfl

@[simp] theorem lockAt_setSignal : (p.setSignal m v).lockAt = p.lockAt := by
  funext r
  cases r <;> simp [setSignal, lockAt, Function.update_apply]
  split <;> simp_all

@[simp] theorem runState_setSignal : (p.setSignal m v).runState = p.runState := rfl

@[simp] theorem lockNext_setSignal : (p.setSignal m v).lockNext = p.lockNext := rfl

@[simp] theorem signalWait_setSignal : (p.setSignal m v).signalWait = p.signalWait := rfl

@[simp] theorem numRunning_setSignal :
    (p.setSignal m v).numRunningThreads = p.numRunningThreads := rfl

@[simp] theorem threadIndex_setSignal : (p.setSignal m v).threadIndex = p.threadIndex := rfl

end SetMonitor

@[simp] theorem lockAt_setNumRunning (v : UInt32) : (p.setNumRunning v).lockAt = p.lockAt := by
  funext r
  cases r <;> rfl

@[simp] theorem numRunning_setNumRunning (v : UInt32) :
    (p.setNumRunning v).numRunningThreads = v := rfl

@[simp] theorem runState_setNumRunning (v : UInt32) :
    (p.setNumRunning v).runState = p.runState := rfl

@[simp] theorem lockNext_setNumRunning (v : UInt32) :
    (p.setNumRunning v).lockNext = p.lockNext := rfl

@[simp] theorem signalWait_setNumRunning (v : UInt32) :
    (p.setNumRunning v).signalWait = p.signalWait := rfl

@[simp] theorem signal_setNumRunning (v : UInt32) : (p.setNumRunning v).signal = p.signal := rfl

@[simp] theorem threadIndex_setNumRunning (v : UInt32) :
    (p.setNumRunning v).threadIndex = p.threadIndex := rfl

/-! ## The operations of `process.cpp` -/

variable [DecidableEq Tid] [DecidableEq Lid] [DecidableEq Mid]

/-- `Process::lock` by thread `t`, up to its `sti()`; the flag says whether it returns at once or
goes on to `yield()`. There is no result if the walk to the end of the queue does not end. -/
def lock [Fintype Tid] (p : Process Tid Lid Mid) (l : LockRef Lid Mid) (t : Tid) :
    Option (Process Tid Lid Mid × Bool) :=
  if (p.lockAt l).owner = some t ∨ (p.lockAt l).owner = none then
    some (p.setLock l { p.lockAt l with owner := some t }, true)
  else
    let p := p.setLockNext t none
    let queued :=
      match (p.lockAt l).next with
      | none => some (p.setLock l { p.lockAt l with next := some t })
      | some tnode =>
        (lastFrom p.lockNext (Fintype.card Tid) tnode).map fun tnode => p.setLockNext tnode (some t)
    queued.map fun p =>
      let p := p.setRunState t .waiting
      (p.setNumRunning (p.numRunningThreads - 1), false)

/-- `Process::unlock`: the counter of running threads is left alone. -/
def unlock (p : Process Tid Lid Mid) (l : LockRef Lid Mid) : Process Tid Lid Mid :=
  match (p.lockAt l).next with
  | none => p.setLock l { p.lockAt l with owner := none }
  | some owner =>
    let p := p.setRunState owner .running
    let p := p.setLock l ⟨some owner, p.lockNext owner⟩
    p.setLockNext owner none

/-- `Process::notify`. -/
def notify (p : Process Tid Lid Mid) (m : Mid) (diff : Int32) : Process Tid Lid Mid :=
  let p := p.setSignal m (p.signal m + diff)
  if p.signal m > 0 then
    match (p.lockAt (.monitor m)).owner with
    | none => p
    | some owner =>
      if p.signalWait owner = some m then
        let p := (p.setSignalWait owner none).setRunState owner .running
        p.setNumRunning (p.numRunningThreads + 1)
      else p
  else p

/-! ### What the operations do -/

variable {p : Process Tid Lid Mid}

section Lock

variable [Fintype Tid] {l : LockRef Lid Mid} {t : Tid}

/-- `lock` on a lock that is free or already ours. -/
theorem lock_acquire (h : (p.lockAt l).owner = some t ∨ (p.lockAt l).owner = none) :
    p.lock l t = some (p.setLock l { p.lockAt l with owner := some t }, true) :=
  if_pos h

/-- Whatever the queue looks like, a thread that blocks in `lock` changes its own run state, the
counter, and links of the queue. -/
theorem lock_cases {p' : Process Tid Lid Mid} {got : Bool} (h : p.lock l t = some (p', got)) :
    (got = true ∧ ((p.lockAt l).owner = some t ∨ (p.lockAt l).owner = none) ∧
      p' = p.setLock l { p.lockAt l with owner := some t }) ∨
    (got = false ∧ p'.runState = Function.update p.runState t .waiting ∧
      p'.numRunningThreads = p.numRunningThreads - 1 ∧
      (∀ r, (p'.lockAt r).owner = (p.lockAt r).owner) ∧
      p'.signal = p.signal ∧ p'.signalWait = p.signalWait ∧ p'.threadIndex = p.threadIndex) := by
  unfold lock at h
  split at h
  · rename_i howner
    cases h
    exact .inl ⟨rfl, howner, rfl⟩
  · right
    obtain ⟨q, hq, hres⟩ := Option.map_eq_some_iff.mp h
    cases hres
    split at hq
    · cases hq
      refine ⟨rfl, by simp, by simp, ?_, by simp, by simp, by simp⟩
      intro r
      simp only [lockAt_setNumRunning, lockAt_setRunState, lockAt_setLock, lockAt_setLockNext,
        Function.update_apply]
      split
      · rename_i hr
        rw [hr]
      · rfl
    · obtain ⟨tnode, -, rfl⟩ := Option.map_eq_some_iff.mp hq
      exact ⟨rfl, by simp, by simp, fun r => by simp, by simp, by simp, by simp⟩

/-- **A thread that blocks in `lock` goes to the end of the queue**, and the walk that finds it
ends. -/
theorem lock_enqueue {L : List Tid} (hL : Chain p.lockNext (p.lockAt l).next L) (ht : t ∉ L)
    (howner : ¬((p.lockAt l).owner = some t ∨ (p.lockAt l).owner = none)) :
    ∃ p', p.lock l t = some (p', false) ∧
      Chain p'.lockNext (p'.lockAt l).next (L ++ [t]) ∧
      (∀ r, r ≠ l → p'.lockAt r = p.lockAt r) ∧
      (∀ u, u ≠ t → u ∉ L → p'.lockNext u = p.lockNext u) := by
  have hclear : Chain (Function.update p.lockNext t none) (p.lockAt l).next L := hL.update none ht
  rcases List.eq_nil_or_concat L with rfl | ⟨L', b, rfl⟩
  · -- nobody waits yet
    have hnext : (p.lockAt l).next = none := hL
    refine ⟨_, by rw [lock, if_neg howner]; simp only [lockAt_setLockNext, hnext]; rfl, ?_, ?_, ?_⟩
    · simp
    · intro r hr
      simp [Function.update_of_ne hr]
    · intro u hu _
      simp [Function.update_of_ne hu]
  · rw [List.concat_eq_append] at hL ht hclear ⊢
    -- the walk ends at the last thread of the queue
    obtain ⟨a, hnext⟩ : ∃ a, (p.lockAt l).next = some a := by
      cases hn : (p.lockAt l).next with
      | none =>
        rw [hn] at hL
        exact absurd hL.eq_nil (by simp)
      | some a => exact ⟨a, rfl⟩
    have hwalk : lastFrom (Function.update p.lockNext t none) (Fintype.card Tid) a = some b := by
      rw [hnext] at hclear
      apply hclear.lastFrom_eq
      have hcard := hL.nodup.length_le_card
      rw [List.length_append, List.length_singleton] at hcard
      exact hcard
    refine ⟨_, by
      rw [lock, if_neg howner]
      simp only [lockAt_setLockNext, hnext, lockNext_setLockNext, hwalk]
      rfl, ?_, ?_, ?_⟩
    · simp only [lockNext_setNumRunning, lockNext_setRunState, lockNext_setLockNext,
        lockAt_setNumRunning, lockAt_setRunState, lockAt_setLockNext]
      exact hclear.concat ht (Function.update_self ..)
    · intro r _
      simp
    · intro u hu hmem
      have hub : u ≠ b := by
        rintro rfl
        exact hmem (List.mem_append_right L' (List.mem_singleton_self u))
      simp [Function.update_of_ne hu, Function.update_of_ne hub]

end Lock

/-- **`unlock` hands the lock to the first thread of the queue**, and makes it runnable. -/
theorem unlock_handOff {l : LockRef Lid Mid} {L : List Tid}
    (hL : Chain p.lockNext (p.lockAt l).next L) :
    ((p.unlock l).lockAt l).owner = L.head? ∧
      Chain (p.unlock l).lockNext ((p.unlock l).lockAt l).next L.tail ∧
      (∀ r, r ≠ l → (p.unlock l).lockAt r = p.lockAt r) ∧
      (∀ u, L.head? ≠ some u → (p.unlock l).lockNext u = p.lockNext u) ∧
      (∀ u, (p.unlock l).runState u = if L.head? = some u then .running else p.runState u) := by
  cases L with
  | nil =>
    have hnext : (p.lockAt l).next = none := hL
    simp only [unlock, hnext]
    refine ⟨by simp, by simp, ?_, fun u _ => by simp, fun u => by simp⟩
    intro r hr
    simp [Function.update_of_ne hr]
  | cons o L =>
    obtain ⟨hnext, hrest⟩ := hL
    have ho : o ∉ L := (List.nodup_cons.mp (Chain.nodup (h := some o) ⟨rfl, hrest⟩)).1
    simp only [unlock, hnext]
    refine ⟨by simp, ?_, ?_, ?_, ?_⟩
    · simp only [lockNext_setLockNext, lockNext_setLock, lockNext_setRunState, lockAt_setLockNext,
        lockAt_setLock, Function.update_self, List.tail_cons]
      exact hrest.update none ho
    · intro r hr
      simp [Function.update_of_ne hr]
    · intro u hu
      have huo : u ≠ o := fun h => hu (by rw [h]; rfl)
      simp [Function.update_of_ne huo]
    · intro u
      simp only [runState_setLockNext, runState_setLock, runState_setRunState,
        Function.update_apply, List.head?_cons, Option.some.injEq, eq_comm]

/-- Whatever the queue looks like, `unlock` changes that lock, links, and makes a thread run. -/
theorem unlock_frame (p : Process Tid Lid Mid) (l : LockRef Lid Mid) :
    (∀ r, r ≠ l → (p.unlock l).lockAt r = p.lockAt r) ∧ (p.unlock l).signal = p.signal ∧
      (p.unlock l).signalWait = p.signalWait ∧
      ∀ u, (p.unlock l).runState u = p.runState u ∨ (p.unlock l).runState u = .running := by
  unfold unlock
  split
  · refine ⟨?_, by simp, by simp, fun u => by simp⟩
    intro r hr
    simp [Function.update_of_ne hr]
  · refine ⟨?_, by simp, by simp, ?_⟩
    · intro r hr
      simp [Function.update_of_ne hr]
    · intro u
      simp only [runState_setLockNext, runState_setLock, runState_setRunState,
        Function.update_apply]
      split
      · exact .inr rfl
      · exact .inl rfl

section Notify

variable (p) (m : Mid) (diff : Int32)

omit [DecidableEq Lid] in
/-- `notify` changes the signal, and, if that is now positive, wakes the owner of the monitor if
the owner is registered for the signal. -/
theorem notify_cases :
    (p.notify m diff).signal = Function.update p.signal m (p.signal m + diff) ∧
    (p.notify m diff).lockAt = p.lockAt ∧
    ((∃ owner, p.signal m + diff > 0 ∧ (p.lockAt (.monitor m)).owner = some owner ∧
      p.signalWait owner = some m ∧
      (p.notify m diff).signalWait = Function.update p.signalWait owner none ∧
      (p.notify m diff).runState = Function.update p.runState owner .running ∧
      (p.notify m diff).numRunningThreads = p.numRunningThreads + 1) ∨
    ((p.signal m + diff > 0 → ∀ owner, (p.lockAt (.monitor m)).owner = some owner →
        p.signalWait owner ≠ some m) ∧
      (p.notify m diff).signalWait = p.signalWait ∧
      (p.notify m diff).runState = p.runState ∧
      (p.notify m diff).numRunningThreads = p.numRunningThreads)) := by
  by_cases hwake : p.signal m + diff > 0 ∧ ∃ owner, (p.lockAt (.monitor m)).owner = some owner ∧
      p.signalWait owner = some m
  · obtain ⟨hpos, owner, howner, hreg⟩ := hwake
    have hnotify : p.notify m diff =
        (((p.setSignal m (p.signal m + diff)).setSignalWait owner none).setRunState owner
          .running).setNumRunning (p.numRunningThreads + 1) := by
      simp [notify, hpos, howner, hreg]
    rw [hnotify]
    exact ⟨by simp, by simp, .inl ⟨owner, hpos, howner, hreg, by simp, by simp, by simp⟩⟩
  · have hnotify : p.notify m diff = p.setSignal m (p.signal m + diff) := by
      simp only [notify, signal_setSignal, Function.update_self, lockAt_setSignal,
        signalWait_setSignal]
      split
      · rename_i hpos
        split
        · rfl
        · rename_i owner howner
          exact if_neg fun hreg => hwake ⟨hpos, owner, howner, hreg⟩
      · rfl
    rw [hnotify]
    refine ⟨by simp, by simp, .inr ⟨?_, by simp, by simp, by simp⟩⟩
    intro hpos owner howner hreg
    exact hwake ⟨hpos, owner, howner, hreg⟩

end Notify

end Process

end Shipwreck.Kernel
