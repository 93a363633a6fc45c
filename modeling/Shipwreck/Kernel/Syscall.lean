import Shipwreck.Memory.BitAllocator

/-!
# System calls and the tables they index

`system/syscall.cpp`: `do_syscall` takes a function code and one word from the user's stack, and the
handler takes the word for a number or for a pointer to its parameters. Handles and event numbers
become indices of kernel tables. Each handler guards them in its own way, and what it computes is
listed here in the order in which it is computed, as the list of table accesses of the call.

`syscall_indices` says for which arguments all of them are inside their tables; two of the guards do
not hold: the remainder of a negative handle is negative (`getLock`), and an event number is not
looked at (`subProcEvent`).
-/

namespace Shipwreck.Kernel

open Memory (Block full lockNextBit)

/-- The tables in question. -/
inductive Table where
  | syscallTable
  | locks
  | monitors
  | files
  | eventSubs
  deriving DecidableEq, Repr

/-- `SyscallCode::MAX`, `MAX_PROC_LOCKS`, `MAX_PROC_MONITORS`, `MAX_PROC_FILES` and
`UserEvents::MAX`. -/
def Table.size : Table → Nat
  | syscallTable => 18
  | locks => 64
  | monitors => 64
  | files => 16
  | eventSubs => 14

/-- An element of a table, by the index the code computes for it. -/
structure Access where
  table : Table
  index : Int
  deriving DecidableEq, Repr

/-- The index is inside the table. -/
def Access.InRange (a : Access) : Prop := 0 ≤ a.index ∧ a.index < a.table.size

instance (a : Access) : Decidable a.InRange := inferInstanceAs (Decidable (_ ∧ _))

/-- `enum SyscallCode`. -/
inductive SyscallCode where
  | null
  | alloc
  | allocAt
  | openFile
  | seek
  | read
  | write
  | newThread
  | yield
  | getEnv
  | subscribe
  | lock
  | unlock
  | monitor
  | unmonitor
  | notify
  | updateGui
  | redrawGui
  deriving DecidableEq, Repr

/-- `syscall_table`, as `init_syscall` fills it. -/
def syscallTable : List SyscallCode :=
  [.null, .alloc, .allocAt, .openFile, .seek, .read, .write, .newThread, .yield, .getEnv, .subscribe,
    .lock, .unlock, .monitor, .unmonitor, .notify, .updateGui, .redrawGui]

/-- What the handlers look at: the words of user memory, which entries of `thisProc->files` are
taken, the bits of `sub_pool`, and the block at which a search in it starts, `prand() % 2`. -/
structure SyscallState where
  user : UInt32 → UInt32
  files : Nat → Bool
  subPool : Nat → Block
  start : Fin 2

namespace SyscallState

/-- `Process::get_lock`. -/
def getLock (lH : Int32) : Access := ⟨.locks, (lH % 64).toInt⟩

/-- `Process::get_monitor`. -/
def getMonitor (mH : Int32) : Access := ⟨.monitors, (mH % 64).toInt⟩

/-- `get_file_by_handle`. -/
def getFileByHandle (fh : Int32) : List Access :=
  if fh < 0 ∨ fh ≥ 16 then [] else [⟨.files, fh.toInt⟩]

/-- The loop of `alloc_proc_filehandle` from `f`, with `left` iterations to go. -/
def allocFilehandleFrom (files : Nat → Bool) : Nat → Nat → List Access
  | 0, _ => []
  | left + 1, f =>
    ⟨.files, f⟩ :: if files f then allocFilehandleFrom files left (f + 1) else []

/-- `UserEventWorker::sub_proc_event`: without a free node no list is touched. -/
def subProcEvent (s : SyscallState) (event : Int32) : List Access :=
  if lockNextBit 2 s.subPool s.start < 0 then [] else [⟨.eventSubs, event.toInt⟩]

/-- The accesses of a handler; `args` is a number or the address of the parameters, whose first word
is the handle. -/
def handler (s : SyscallState) (args : UInt32) : SyscallCode → List Access
  | .openFile => allocFilehandleFrom s.files 16 0
  | .seek => getFileByHandle (s.user args).toInt32
  | .read => getFileByHandle (s.user args).toInt32
  | .write => getFileByHandle (s.user args).toInt32
  | .subscribe => s.subProcEvent args.toInt32
  | .lock => [getLock args.toInt32]
  | .unlock => [getLock args.toInt32]
  | .monitor => [getMonitor (s.user args).toInt32]
  | .unmonitor => [getMonitor args.toInt32]
  | .notify => [getMonitor (s.user args).toInt32]
  | _ => []

/-- `do_syscall`. -/
def doSyscall (s : SyscallState) (userArgs : UInt32) : List Access :=
  let fnCode := s.user (userArgs + 4)
  if fnCode ≥ 18 then []
  else
    ⟨.syscallTable, fnCode.toNat⟩ ::
      match syscallTable[fnCode.toNat]? with
      | some code => s.handler (s.user (userArgs + 8)) code
      | none => []

/-! ## Which arguments are safe -/

/-- A handle that is not negative, or a multiple of the size of its table. -/
def HandleOk (h : Int32) : Prop := 0 ≤ h ∨ h % 64 = 0

/-- An event number below `UserEvents::MAX`, or no node left in the subscriber pool from the block
on at which the search starts. -/
def EventOk (s : SyscallState) (event : Int32) : Prop :=
  (0 ≤ event ∧ event < 14) ∨ ∀ k, s.start.val ≤ k → k < 2 → s.subPool k = full

/-- What the argument of a handler must be for its indices to be in range. -/
def ArgsOk (s : SyscallState) (args : UInt32) : SyscallCode → Prop
  | .subscribe => s.EventOk args.toInt32
  | .lock => HandleOk args.toInt32
  | .unlock => HandleOk args.toInt32
  | .monitor => HandleOk (s.user args).toInt32
  | .unmonitor => HandleOk args.toInt32
  | .notify => HandleOk (s.user args).toInt32
  | _ => True

theorem remainder_iff {h : Int32} :
    (0 ≤ (h % 64).toInt ∧ (h % 64).toInt < 64) ↔ HandleOk h := by
  have hmod : (h % 64).toInt = h.toInt.tmod 64 := Int32.toInt_mod h 64
  have hzero : (0 : Int32).toInt = 0 := rfl
  rw [HandleOk, Int32.le_iff_toInt_le, ← Int32.toInt_inj, hmod, hzero]
  have hlt := Int.tmod_lt_of_pos h.toInt (by decide : (0 : Int) < 64)
  by_cases hpos : 0 ≤ h.toInt
  · have hnonneg := Int.tmod_nonneg 64 hpos
    omega
  · -- the remainder has the sign of the handle
    have hflip : 0 ≤ (-h.toInt).tmod 64 := Int.tmod_nonneg 64 (by omega)
    rw [Int.neg_tmod] at hflip
    omega

theorem getLock_inRange_iff {lH : Int32} : (getLock lH).InRange ↔ HandleOk lH := remainder_iff

theorem getMonitor_inRange_iff {mH : Int32} : (getMonitor mH).InRange ↔ HandleOk mH :=
  remainder_iff

theorem getFileByHandle_inRange (fh : Int32) : ∀ a ∈ getFileByHandle fh, a.InRange := by
  intro a ha
  rw [getFileByHandle] at ha
  split at ha
  case isTrue => cases ha
  case isFalse hin =>
    rw [List.mem_singleton] at ha
    subst ha
    rw [not_or, ge_iff_le, Int32.not_lt, Int32.not_le, Int32.le_iff_toInt_le,
      Int32.lt_iff_toInt_lt] at hin
    exact hin

theorem allocFilehandleFrom_inRange (files : Nat → Bool) {left f : Nat} (h : f + left ≤ 16) :
    ∀ a ∈ allocFilehandleFrom files left f, a.InRange := by
  induction left generalizing f with
  | zero =>
    intro a ha
    cases ha
  | succ left ih =>
    intro a ha
    rcases List.mem_cons.mp ha with hfirst | hrest
    · rw [hfirst]
      show 0 ≤ (f : Int) ∧ (f : Int) < 16
      omega
    · split at hrest
      case isTrue => exact ih (by omega) a hrest
      case isFalse => cases hrest

theorem subProcEvent_inRange_iff {s : SyscallState} {event : Int32} :
    (∀ a ∈ s.subProcEvent event, a.InRange) ↔ s.EventOk event := by
  have hpool : lockNextBit 2 s.subPool s.start < 0 ↔
      ∀ k, s.start.val ≤ k → k < 2 → s.subPool k = full := Memory.lockNextBit_neg_iff
  have hevent : Access.InRange ⟨.eventSubs, event.toInt⟩ ↔ 0 ≤ event ∧ event < 14 := by
    rw [Int32.le_iff_toInt_le, Int32.lt_iff_toInt_lt]
    exact Iff.rfl
  rw [subProcEvent, EventOk, ← hpool, ← hevent]
  by_cases hfail : lockNextBit 2 s.subPool s.start < 0
  · simp [hfail]
  · simp [hfail]

/-- **A handler's indices are in range for exactly these arguments.** -/
theorem handler_inRange_iff {s : SyscallState} {args : UInt32} {code : SyscallCode} :
    (∀ a ∈ s.handler args code, a.InRange) ↔ s.ArgsOk args code := by
  have hfile := getFileByHandle_inRange (s.user args).toInt32
  have hfiles := allocFilehandleFrom_inRange s.files (Nat.le_refl (0 + 16))
  cases code with
  | subscribe => exact subProcEvent_inRange_iff
  | lock => simp [handler, ArgsOk, getLock_inRange_iff]
  | unlock => simp [handler, ArgsOk, getLock_inRange_iff]
  | monitor => simp [handler, ArgsOk, getMonitor_inRange_iff]
  | unmonitor => simp [handler, ArgsOk, getMonitor_inRange_iff]
  | notify => simp [handler, ArgsOk, getMonitor_inRange_iff]
  | openFile => exact iff_of_true hfiles trivial
  | seek => exact iff_of_true hfile trivial
  | read => exact iff_of_true hfile trivial
  | write => exact iff_of_true hfile trivial
  | _ => exact iff_of_true (fun a ha => nomatch ha) trivial

end SyscallState

/-- What user code must pass for every index of the call to be in range: nothing, when the function
code is refused, and otherwise an argument that fits the handler. -/
def SyscallState.CallOk (s : SyscallState) (userArgs : UInt32) : Prop :=
  ∀ code, syscallTable[(s.user (userArgs + 4)).toNat]? = some code →
    s.ArgsOk (s.user (userArgs + 8)) code

/-- **A system call indexes inside its tables exactly when its handle is not negative or a multiple
of 64, and its event number below 14 or refused for want of a node.** -/
theorem syscall_indices (s : SyscallState) (userArgs : UInt32) :
    (∀ a ∈ s.doSyscall userArgs, a.InRange) ↔ s.CallOk userArgs := by
  have hlen : syscallTable.length = 18 := rfl
  rw [SyscallState.doSyscall, SyscallState.CallOk]
  by_cases hcode : s.user (userArgs + 4) ≥ 18
  · -- the code is refused, and has no entry
    rw [if_pos hcode]
    refine iff_of_true (fun a ha => nomatch ha) ?_
    intro code hsome
    have hlt := (List.getElem?_eq_some_iff.mp hsome).1
    rw [hlen] at hlt
    rw [ge_iff_le, UInt32.le_iff_toNat_le] at hcode
    exact absurd hlt (Nat.not_lt.mpr hcode)
  · rw [if_neg hcode]
    rw [ge_iff_le, UInt32.not_le, UInt32.lt_iff_toNat_lt] at hcode
    have hlt : (s.user (userArgs + 4)).toNat < syscallTable.length := hcode
    obtain ⟨code, hsome⟩ : ∃ code, syscallTable[(s.user (userArgs + 4)).toNat]? = some code :=
      ⟨_, List.getElem?_eq_getElem hlt⟩
    have hentry : Access.InRange ⟨.syscallTable, (s.user (userArgs + 4)).toNat⟩ :=
      ⟨Int.natCast_nonneg _, Int.ofNat_lt.mpr hcode⟩
    simp only [hsome, List.forall_mem_cons, Option.some.injEq, forall_eq']
    rw [SyscallState.handler_inRange_iff]
    exact and_iff_right hentry

/-- A user's stack at address 0, with one word above the function code. -/
def SyscallState.ofStack (fnCode args : UInt32) : SyscallState where
  user a := if a = 4 then fnCode else if a = 8 then args else 0
  files _ := false
  subPool _ := 0
  start := 0

/-- **`lock(-1)` leaves the table**: it locks whatever lies before the first lock. -/
theorem negative_handle_escapes :
    ¬ ∀ a ∈ (SyscallState.ofStack 11 0xFFFFFFFF).doSyscall 0, a.InRange := by
  decide

example : (SyscallState.ofStack 10 14).doSyscall 0 =
    [⟨.syscallTable, 10⟩, ⟨.eventSubs, 14⟩] := by decide

end Shipwreck.Kernel
