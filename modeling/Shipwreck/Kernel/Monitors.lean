import Shipwreck.Kernel.Scheduler

/-!
# Wakeups in monitors

`monitor` tests the signal, registers in `signal_wait` and goes to sleep in three statements, and
turns interrupts off before the first. But the `lock` it calls turns them on again, so that a
`notify` may come between any two of the three. One that comes between the registration and the
store of `WAITING` takes the registration away from a thread that then goes to sleep all the same
(`wakeup_lost`); one that comes between the test and the registration wakes nobody, and the thread
goes to sleep over a positive signal.

`no_lost_wakeup` shows that nothing else can happen to a wakeup: it covers every interleaving of
calls, timer ticks and device interrupts in which no `notify` raises a signal in that window.
-/

namespace Shipwreck.Kernel

namespace Pc

/-- The monitor whose lock the thread has found itself to own. -/
def inside : Pc → Option Mid
  | monTest m _ | monRegister m _ | monWait m _ | monCount m _ | monYield m _ | monSub m _
  | monClamp m => some m
  | _ => none

/-- The monitor whose signal the thread has tested and not registered for yet. -/
def tested : Pc → Option Mid
  | monRegister m _ => some m
  | _ => none

/-- The monitor whose signal the thread has registered for, without having gone to sleep. -/
def registered : Pc → Option Mid
  | monWait m _ => some m
  | _ => none

/-- The monitor whose signal the thread has gone to sleep for. -/
def asleep : Pc → Option Mid
  | monCount m _ | monYield m _ => some m
  | _ => none

variable {pc : Pc} {m : Mid}

theorem inside_of_tested (h : pc.tested = some m) : pc.inside = some m := by
  cases pc <;> simp_all [tested, inside]

theorem inside_of_registered (h : pc.registered = some m) : pc.inside = some m := by
  cases pc <;> simp_all [registered, inside]

theorem inside_of_asleep (h : pc.asleep = some m) : pc.inside = some m := by
  cases pc <;> simp_all [asleep, inside]

end Pc

/-! ## The invariant of one thread -/

/-- What holds of a thread at `pc`; `own m` says that the signal of `m` is changed by `notify` and
`monitor` only. -/
structure MonOk (own : Mid → Prop) (p : Proc) (t : Tid) (pc : Pc) : Prop where
  owns : ∀ m, pc.inside = some m → (p.lockAt (.monitor m)).owner = some t
  registered : ∀ m, pc.registered = some m → p.signalWait t = some m
  asleep : ∀ m, pc.asleep = some m → p.runState t = .waiting → p.signalWait t = some m
  quiet : ∀ m, own m → pc.tested = some m ∨ pc.registered = some m → p.signal m ≤ 0
  quiet_asleep : ∀ m, own m → pc.asleep = some m → p.runState t = .waiting → p.signal m ≤ 0

namespace MonOk

variable {own : Mid → Prop} {p p' : Proc} {t u : Tid} {pc : Pc} {m : Mid}

/-- Nothing is asked of a thread that does not own the lock of a monitor it is in. -/
theorem of_outside (h : pc.inside = none) : MonOk own p t pc := by
  constructor <;> intro m <;> cases pc <;>
    simp_all [Pc.inside, Pc.registered, Pc.asleep, Pc.tested]

/-- Inside a monitor, only that monitor matters. -/
theorem of_inside (hin : pc.inside = some m) (howner : (p.lockAt (.monitor m)).owner = some t)
    (hreg : pc.registered = some m → p.signalWait t = some m)
    (hasleep : pc.asleep = some m → p.runState t = .waiting → p.signalWait t = some m)
    (hquiet : own m → pc.tested = some m ∨ pc.registered = some m → p.signal m ≤ 0)
    (hquiet' : own m → pc.asleep = some m → p.runState t = .waiting → p.signal m ≤ 0) :
    MonOk own p t pc := by
  have honly : ∀ m', pc.inside = some m' → m' = m := by
    intro m' hm'
    rw [hin] at hm'
    exact (Option.some.inj hm').symm
  constructor
  case owns =>
    intro m' hm'
    rw [honly m' hm']
    exact howner
  case registered =>
    intro m' hm'
    obtain rfl := honly m' (Pc.inside_of_registered hm')
    exact hreg hm'
  case asleep =>
    intro m' hm'
    obtain rfl := honly m' (Pc.inside_of_asleep hm')
    exact hasleep hm'
  case quiet =>
    intro m' hown hm'
    obtain rfl : m' = m := by
      rcases hm' with hm' | hm'
      · exact honly m' (Pc.inside_of_tested hm')
      · exact honly m' (Pc.inside_of_registered hm')
    exact hquiet hown hm'
  case quiet_asleep =>
    intro m' hown hm'
    obtain rfl := honly m' (Pc.inside_of_asleep hm')
    exact hquiet' hown hm'

/-- What another thread may do. -/
theorem frame (h : MonOk own p t pc)
    (howner : ∀ m, (p.lockAt (.monitor m)).owner = some t →
      (p'.lockAt (.monitor m)).owner = some t)
    (hreg : p'.signalWait t = p.signalWait t)
    (hrun : p'.runState t = .waiting → p.runState t = .waiting)
    (hsignal : ∀ m, (p.lockAt (.monitor m)).owner = some t → p'.signal m = p.signal m) :
    MonOk own p' t pc := by
  constructor
  case owns => exact fun m hm => howner m (h.owns m hm)
  case registered =>
    intro m hm
    rw [hreg]
    exact h.registered m hm
  case asleep =>
    intro m hm hw
    rw [hreg]
    exact h.asleep m hm (hrun hw)
  case quiet =>
    intro m hown hm
    have hin : pc.inside = some m := by
      rcases hm with hm | hm
      · exact Pc.inside_of_tested hm
      · exact Pc.inside_of_registered hm
    rw [hsignal m (h.owns m hin)]
    exact h.quiet m hown hm
  case quiet_asleep =>
    intro m hown hm hw
    rw [hsignal m (h.owns m (Pc.inside_of_asleep hm))]
    exact h.quiet_asleep m hown hm (hrun hw)

/-- A thread that is registered goes to sleep. -/
theorem sleep {diff : Int32} (h : MonOk own p t (.monWait m diff)) (hpc : pc.asleep = some m)
    (hlocks : p'.lockAt = p.lockAt) (hreg : p'.signalWait = p.signalWait)
    (hsignal : p'.signal = p.signal) : MonOk own p' t pc := by
  have hin := Pc.inside_of_asleep hpc
  refine of_inside hin ?_ ?_ ?_ ?_ ?_
  · rw [hlocks]
    exact h.owns m rfl
  · intro _
    rw [hreg]
    exact h.registered m rfl
  · intro _ _
    rw [hreg]
    exact h.registered m rfl
  · intro hown _
    rw [hsignal]
    exact h.quiet m hown (.inr rfl)
  · intro hown _ _
    rw [hsignal]
    exact h.quiet m hown (.inr rfl)

end MonOk

/-- Every thread of a process is as it should be. -/
def MonInv (own : Mid → Prop) (p : Proc) (pcs : Tid → Pc) : Prop := ∀ t, MonOk own p t (pcs t)

/-- If `notify` raises the signal, the owner of the monitor does not stand between its registration
and going to sleep, nor, where the signal is changed by `notify` and `monitor` only, between its
test of the signal and its registration. -/
def RaceFree (own : Mid → Prop) (m : Mid) (diff : Int32) (p : Proc) (pcs : Tid → Pc) : Prop :=
  p.signal m + diff > 0 → ∀ owner, (p.lockAt (.monitor m)).owner = some owner →
    (pcs owner).registered ≠ some m ∧ (own m → (pcs owner).tested ≠ some m)

namespace MonInv

variable {own : Mid → Prop} {p p' : Proc} {pcs : Tid → Pc} {t : Tid} {pc : Pc} {m : Mid}

/-- Thread `t` moves to `pc`, and does nothing that concerns the others. -/
theorem update (hthis : MonOk own p' t pc) (hothers : ∀ u, u ≠ t → MonOk own p' u (pcs u)) :
    MonInv own p' (Function.update pcs t pc) := by
  intro u
  rw [Function.update_apply]
  split
  · rename_i hu
    rw [hu]
    exact hthis
  · rename_i hu
    exact hothers u hu

theorem congr (h : MonInv own p pcs) (hlocks : p'.lockAt = p.lockAt)
    (hsignal : p'.signal = p.signal) (hreg : p'.signalWait = p.signalWait)
    (hrun : p'.runState = p.runState) : MonInv own p' pcs := by
  intro t
  refine (h t).frame ?_ (by rw [hreg]) (by rw [hrun]; exact id) (fun m _ => by rw [hsignal])
  rw [hlocks]
  exact fun m hm => hm

/-- A thread outside the monitors calls `lock`. -/
theorem lock (h : MonInv own p pcs) {l : LockRef Lid Mid} {got : Bool}
    (hlock : p.lock l t = some (p', got)) (hpc : pc.inside = none) :
    MonInv own p' (Function.update pcs t pc) := by
  refine update (.of_outside hpc) ?_
  intro u hu
  rcases Process.lock_cases hlock with ⟨-, howner, rfl⟩ | ⟨-, hrun, -, howners, hsignal, hreg, -⟩
  · refine (h u).frame ?_ (by simp) (by simp) (by simp)
    intro m hm
    rw [Process.lockAt_setLock, Function.update_apply]
    split
    · -- the lock was free or `t`'s, not `u`'s
      rename_i hl
      subst hl
      rw [hm] at howner
      rcases howner with hut | hnone
      · exact absurd (Option.some.inj hut) hu
      · cases hnone
    · exact hm
  · refine (h u).frame ?_ (by rw [hreg]) ?_ (by simp [hsignal])
    · intro m hm
      rw [howners]
      exact hm
    · rw [hrun, Function.update_of_ne hu]
      exact id

/-- A thread outside the monitors unlocks a lock it owns. -/
theorem unlock (h : MonInv own p pcs) {l : LockRef Lid Mid}
    (howner : (p.lockAt l).owner = some t) :
    MonInv own (p.unlock l) (Function.update pcs t .idle) := by
  obtain ⟨hlocks, hsignal, hreg, hrun⟩ := p.unlock_frame l
  refine update (.of_outside rfl) ?_
  intro u hu
  refine (h u).frame ?_ (by rw [hreg]) ?_ (by simp [hsignal])
  · intro m hm
    rw [hlocks]
    · exact hm
    · rintro rfl
      rw [howner] at hm
      exact hu (Option.some.inj hm).symm
  · intro hw
    rcases hrun u with hsame | hrun
    · rw [← hsame]
      exact hw
    · rw [hrun] at hw
      cases hw

/-- A `notify` outside the window wakes a sleeping owner or leaves it asleep over a signal that is
not positive. -/
theorem notify (h : MonInv own p pcs) {diff : Int32} (hrace : RaceFree own m diff p pcs) :
    MonInv own (p.notify m diff) pcs := by
  obtain ⟨hsignal, hlocks, hwake⟩ := p.notify_cases m diff
  intro t
  have ht := h t
  -- a thread that owns the monitor is not in the window if the signal is raised
  have hnotReg : p.signal m + diff > 0 → (pcs t).registered ≠ some m := by
    intro hpos hm
    exact (hrace hpos t (ht.owns m (Pc.inside_of_registered hm))).1 hm
  have hnotTest : own m → p.signal m + diff > 0 → (pcs t).tested ≠ some m := by
    intro hown hpos hm
    exact (hrace hpos t (ht.owns m (Pc.inside_of_tested hm))).2 hown hm
  constructor
  case owns =>
    rw [hlocks]
    exact ht.owns
  case registered =>
    intro m' hm'
    have hold := ht.registered m' hm'
    rcases hwake with ⟨owner, hpos, -, hreg, hsw, -⟩ | ⟨-, hsw, -⟩
    · rw [hsw, Function.update_apply]
      split
      · rename_i hto
        subst hto
        rw [hold] at hreg
        cases hreg
        exact absurd hm' (hnotReg hpos)
      · exact hold
    · rw [hsw]
      exact hold
  case asleep =>
    intro m' hm' hw
    rcases hwake with ⟨owner, -, -, -, hsw, hrun, -⟩ | ⟨-, hsw, hrun, -⟩
    · rw [hrun, Function.update_apply] at hw
      split at hw
      · cases hw
      · rename_i hto
        rw [hsw, Function.update_of_ne hto]
        exact ht.asleep m' hm' hw
    · rw [hsw]
      rw [hrun] at hw
      exact ht.asleep m' hm' hw
  case quiet =>
    intro m' hown hm'
    rw [hsignal, Function.update_apply]
    split
    · rename_i hmm
      subst hmm
      by_contra hpos
      rw [Int32.not_le] at hpos
      rcases hm' with hm' | hm'
      · exact hnotTest hown hpos hm'
      · exact hnotReg hpos hm'
    · exact ht.quiet m' hown hm'
  case quiet_asleep =>
    intro m' hown hm' hw
    rw [hsignal, Function.update_apply]
    have howner := ht.owns m' (Pc.inside_of_asleep hm')
    rcases hwake with ⟨owner, -, howner', -, -, hrun, -⟩ | ⟨hnone, -, hrun, -⟩
    · rw [hrun, Function.update_apply] at hw
      split at hw
      · cases hw
      · rename_i hto
        split
        · rename_i hmm
          subst hmm
          rw [howner] at howner'
          exact absurd (Option.some.inj howner') hto
        · exact ht.quiet_asleep m' hown hm' hw
    · rw [hrun] at hw
      split
      · rename_i hmm
        subst hmm
        by_contra hpos
        rw [Int32.not_le] at hpos
        exact hnone hpos t howner (ht.asleep _ hm' hw)
      · exact ht.quiet_asleep m' hown hm' hw

/-- One statement of `lock` or `monitor`. -/
theorem exec (h : MonInv own p pcs) {pc' : Pc} (hs : p.exec t (pcs t) = some (p', pc')) :
    MonInv own p' (Function.update pcs t pc') := by
  have ht := h t
  -- the threads that stay put do not own the monitor `t` is in
  have hothers : ∀ m v, (pcs t).inside = some m → ∀ u, u ≠ t →
      MonOk own (p.setSignal m v) u (pcs u) := by
    intro m v hm u hu
    refine (h u).frame (by simp) (by simp) (by simp) ?_
    intro m' hm'
    rw [Process.signal_setSignal, Function.update_of_ne]
    rintro rfl
    rw [ht.owns m' hm] at hm'
    exact hu (Option.some.inj hm').symm
  cases hpc : pcs t with
  | idle =>
    rw [hpc] at hs
    cases hs
  | lockYield =>
    rw [hpc, Process.exec] at hs
    split at hs
    · cases hs
      exact update (.of_outside rfl) fun u _ => h u
    · cases hs
  | monLock m diff =>
    rw [hpc, Process.exec] at hs
    split at hs
    · cases hs
      exact update (.of_outside rfl) fun u _ => h u
    · cases hs
  | monOwner m diff =>
    rw [hpc, Process.exec] at hs
    cases hs
    refine update ?_ fun u _ => h u
    split
    · exact .of_outside rfl
    · rename_i howner
      exact .of_inside (m := m) rfl (Classical.not_not.mp howner) nofun nofun
        (fun _ h => by simp [Pc.tested, Pc.registered] at h) nofun
  | monTest m diff =>
    rw [hpc, Process.exec] at hs
    rw [hpc] at ht
    cases hs
    refine update ?_ fun u _ => h u
    have howner := ht.owns m rfl
    split
    · rename_i hquiet
      exact .of_inside (m := m) rfl howner nofun nofun (fun _ _ => hquiet) nofun
    · exact .of_inside (m := m) rfl howner nofun nofun
        (fun _ h => by simp [Pc.tested, Pc.registered] at h) nofun
  | monRegister m diff =>
    rw [hpc] at hs ht
    cases hs
    refine update ?_ ?_
    · refine .of_inside (m := m) rfl (by simpa using ht.owns m rfl) ?_ nofun ?_ nofun
      · intro _
        simp
      · intro hown _
        simpa using ht.quiet m hown (.inl rfl)
    · intro u hu
      exact (h u).frame (by simp) (by simp [Function.update_of_ne hu]) (by simp) (by simp)
  | monWait m diff =>
    rw [hpc] at hs ht
    cases hs
    refine update (ht.sleep rfl (by simp) (by simp) (by simp)) ?_
    intro u hu
    exact (h u).frame (by simp) (by simp) (by simp [Function.update_of_ne hu]) (by simp)
  | monCount m diff =>
    rw [hpc] at hs ht
    cases hs
    refine update ?_ ?_
    · refine .of_inside (m := m) rfl (by simpa using ht.owns m rfl) nofun ?_ ?_ ?_
      · intro _
        simpa using ht.asleep m rfl
      · intro _ hm
        simp [Pc.tested, Pc.registered] at hm
      · intro hown _
        simpa using ht.quiet_asleep m hown rfl
    · intro u hu
      exact (h u).frame (by simp) (by simp) (by simp) (by simp)
  | monYield m diff =>
    rw [hpc] at hothers
    rw [hpc, Process.exec] at hs
    split at hs
    · cases hs
      exact update (.of_outside rfl) (hothers m _ rfl)
    · cases hs
  | monSub m diff =>
    rw [hpc] at hs ht hothers
    cases hs
    refine update ?_ (hothers m _ rfl)
    exact .of_inside (m := m) rfl (by simpa using ht.owns m rfl) nofun nofun
      (fun _ h => by simp [Pc.tested, Pc.registered] at h) nofun
  | monClamp m =>
    rw [hpc] at hothers
    rw [hpc, Process.exec] at hs
    cases hs
    refine update (.of_outside rfl) ?_
    split
    · exact hothers m _ rfl
    · exact fun u _ => h u

/-- The interrupt that comes between the store of `WAITING` and the decrement. -/
theorem cut (h : MonInv own p pcs) {diff : Int32} (hpc : pcs t = .monWait m diff) :
    MonInv own (p.setRunState t .waiting) (Function.update pcs t (.monCount m diff)) := by
  have ht := h t
  rw [hpc] at ht
  refine update (ht.sleep rfl (by simp) (by simp) (by simp)) ?_
  intro u hu
  exact (h u).frame (by simp) (by simp) (by simp [Function.update_of_ne hu]) (by simp)

theorem newUserThread (h : MonInv own p pcs) :
    MonInv own (p.newUserThread t) (Function.update pcs t .idle) := by
  refine update (.of_outside rfl) ?_
  intro u hu
  exact (h u).frame (by simp) (by simp [Function.update_of_ne hu])
    (by simp [Function.update_of_ne hu]) (by simp)

/-- A device interrupt raises a signal that is not left to `notify` and `monitor`. -/
theorem irq (h : MonInv own p pcs) (hm : ¬ own m) (v : Int32) :
    MonInv own (p.setSignal m v) pcs := by
  intro t
  have hother : ∀ m', own m' → (p.setSignal m v).signal m' = p.signal m' := by
    intro m' hown
    rw [Process.signal_setSignal, Function.update_of_ne]
    rintro rfl
    exact hm hown
  constructor
  case owns => simpa using (h t).owns
  case registered => exact (h t).registered
  case asleep => exact (h t).asleep
  case quiet =>
    intro m' hown
    rw [hother m' hown]
    exact (h t).quiet m' hown
  case quiet_asleep =>
    intro m' hown
    rw [hother m' hown]
    exact (h t).quiet_asleep m' hown

end MonInv

/-! ## Runs -/

/-- Thread `t` of process `pid` is blocked inside `monitor(m)`: it owns the lock and sleeps. -/
def KState.BlockedIn (k : KState) (pid : Nat) (t : Tid) (m : Mid) : Prop :=
  (k.pc pid t).asleep = some m ∧ (k.procs pid).runState t = .waiting ∧
    ((k.procs pid).lockAt (.monitor m)).owner = some t

/-- Every blocked thread can be woken: it is registered, so that a `notify` that raises the signal
makes it run; and the signal it waits for is not positive, unless interrupts change it too. -/
def KState.WakeupsKept (own : Nat → Mid → Prop) (k : KState) : Prop :=
  ∀ pid t m, k.BlockedIn pid t m →
    (k.procs pid).signalWait t = some m ∧
    (∀ diff, (k.procs pid).signal m + diff > 0 →
      ((k.procs pid).notify m diff).runState t = .running) ∧
    (own pid m → (k.procs pid).signal m ≤ 0)

/-- No `notify`, a thread's or the timer's, raises a signal while the owner of the monitor is in the
window. Device interrupts change no signal that is left to `notify` and `monitor`, and threads
unlock only what they own. -/
def KState.NoRace (own : Nat → Mid → Prop) (k : KState) : Act → Prop
  | .call (.unlock l) => (k.thisProc.lockAt l).owner = some k.thisThread
  | .call (.notify m diff) => RaceFree (own k.procId) m diff k.thisProc (k.pc k.procId)
  | .tick => k.TickMeets fun pid => RaceFree (own pid) msgMonitor 0
  | .irq pid m => ¬ own pid m
  | _ => True

namespace KState

variable {own : Nat → Mid → Prop} {k k' : KState}

theorem call_monInv {c : Call} (h : ∀ pid, MonInv (own pid) (k.procs pid) (k.pc pid))
    (hG : k.NoRace own (.call c)) (hidle : k.thisPc = .idle) (hs : k.call c = some k') :
    ∀ pid, MonInv (own pid) (k'.procs pid) (k'.pc pid) := by
  have hthis : MonInv (own k.procId) k.thisProc (k.pc k.procId) := h k.procId
  cases c with
  | lock l =>
    obtain ⟨⟨p', got⟩, hlock, rfl⟩ := Option.map_eq_some_iff.mp hs
    refine forall_setThis h (hthis.lock hlock ?_)
    cases got <;> rfl
  | unlock l =>
    cases hs
    exact forall_setThis h (hthis.unlock hG)
  | monitor m diff =>
    obtain ⟨⟨p', got⟩, hlock, rfl⟩ := Option.map_eq_some_iff.mp hs
    refine forall_setThis h (hthis.lock hlock ?_)
    cases got <;> rfl
  | notify m diff =>
    cases hs
    have hsame : Function.update (k.pc k.procId) k.thisThread .idle = k.pc k.procId := by
      rw [← hidle]
      exact Function.update_eq_self _ _
    refine forall_setThis h ?_
    rw [hsame]
    exact hthis.notify hG
  | newUserThread =>
    simp only [call] at hs
    split at hs
    · cases hs
      exact h
    · rename_i t hnull
      cases hs
      exact forall_setThread h (hthis.newUserThread)

theorem step_monInv {a : Act} (h : ∀ pid, MonInv (own pid) (k.procs pid) (k.pc pid))
    (hG : k.NoRace own a) (hs : k.step a = some k') :
    ∀ pid, MonInv (own pid) (k'.procs pid) (k'.pc pid) := by
  cases a with
  | call c =>
    simp only [step] at hs
    split at hs
    · rename_i hcaller
      exact call_monInv h hG hcaller.1 hs
    · cases hs
  | exec =>
    obtain ⟨⟨p', pc'⟩, hexec, rfl⟩ := Option.map_eq_some_iff.mp hs
    exact forall_setThis (I := fun pid => MonInv (own pid)) h ((h k.procId).exec hexec)
  | cut =>
    simp only [step] at hs
    split at hs
    · rename_i m diff hpc
      cases hs
      exact forall_setThis (I := fun pid => MonInv (own pid)) h ((h k.procId).cut hpc)
    · cases hs
  | tick =>
    cases hs
    have htick : k.TickMeets fun pid => RaceFree (own pid) msgMonitor 0 := hG
    refine timerInterrupt_rule (I := fun pid => MonInv (own pid)) ?_ ?_ ?_ h htick
    · intro pid p pcs hp hrace
      exact hp.notify hrace
    · intro pid p pcs hp _
      exact hp.congr (by simp) (by simp) (by simp) (by simp)
    · intro pid p pcs t hp
      refine hp.congr ?_ rfl rfl rfl
      funext r
      cases r <;> rfl
  | irq pid m =>
    cases hs
    exact forall_setProcess (I := fun pid => MonInv (own pid)) h ((h pid).irq hG _)

/-- A sleeping owner that is registered is woken. -/
theorem notify_wakes {p : Proc} {t : Tid} {m : Mid} {diff : Int32}
    (howner : (p.lockAt (.monitor m)).owner = some t) (hreg : p.signalWait t = some m)
    (hpos : p.signal m + diff > 0) : (p.notify m diff).runState t = .running := by
  obtain ⟨-, -, ⟨owner, -, howner', -, -, hrun, -⟩ | ⟨hnone, -⟩⟩ := p.notify_cases m diff
  · rw [howner] at howner'
    cases howner'
    rw [hrun, Function.update_self]
  · exact absurd hreg (hnone hpos t howner)

end KState

/-- **No wakeup is lost** in a run in which no `notify` raises a signal while the owner of its
monitor stands between the test of the signal and going to sleep. -/
theorem no_lost_wakeup (own : Nat → Mid → Prop) (k : KState) (acts : List Act)
    (hinit : kernel.init k) (h : kernel.Steps (KState.NoRace own) k acts) :
    kernel.States (KState.WakeupsKept own) k acts := by
  refine Machine.states_of_steps
    (I := fun k => ∀ pid, MonInv (own pid) (k.procs pid) (k.pc pid)) ?_ ?_ ?_ h
  · rintro k hk pid t m ⟨hasleep, hwaiting, howner⟩
    have hreg := (hk pid t).asleep m hasleep hwaiting
    refine ⟨hreg, fun diff => KState.notify_wakes howner hreg, ?_⟩
    intro hown
    exact (hk pid t).quiet_asleep m hown hasleep hwaiting
  · intro k a k' hk hG hs
    exact KState.step_monInv hk hG hs
  · obtain ⟨-, hpc, -⟩ := hinit
    intro pid t
    apply MonOk.of_outside
    rw [hpc pid t]
    rfl

section Decide

variable (own : Nat → Mid → Prop) [∀ pid m, Decidable (own pid m)]

instance (pid : Nat) (m : Mid) (diff : Int32) (p : Proc) (pcs : Tid → Pc) :
    Decidable (RaceFree (own pid) m diff p pcs) :=
  inferInstanceAs (Decidable (_ → ∀ _ : Fin 16, _ → _))

instance (k : KState) (pid : Nat) (t : Tid) (m : Mid) : Decidable (k.BlockedIn pid t m) :=
  inferInstanceAs (Decidable (_ ∧ _ ∧ _))

instance (k : KState) (a : Act) : Decidable (k.NoRace own a) :=
  match a with
  | .call (.unlock l) =>
    inferInstanceAs (Decidable ((k.thisProc.lockAt l).owner = some k.thisThread))
  | .call (.notify m diff) =>
    inferInstanceAs (Decidable (RaceFree (own k.procId) m diff k.thisProc (k.pc k.procId)))
  | .tick => inferInstanceAs (Decidable (k.TickMeets fun pid => RaceFree (own pid) msgMonitor 0))
  | .irq pid m => inferInstanceAs (Decidable (¬ own pid m))
  | .call (.lock _) | .call (.monitor _ _) | .call .newUserThread | .exec | .cut =>
    isTrue trivial

end Decide

/-- Thread 0 goes to sleep in `monitor`, device interrupts raise the message signal, and thread 1
wakes thread 0. -/
def orderly (m : Mid) : List Act :=
  [.call (.monitor m 1), .exec, .exec, .exec, .exec, .irq 0 msgMonitor, .tick,
    .call (.notify m 1), .tick, .exec]

/-- Device interrupts raise the message signals. -/
theorem orderly_kept :
    (kernel.exec duo (orderly 1)).isSome ∧
      kernel.States (KState.WakeupsKept fun _ m => m ≠ msgMonitor) duo (orderly 1) :=
  ⟨by decide +kernel, no_lost_wakeup (fun _ m => m ≠ msgMonitor) duo (orderly 1) duo_init
    (by decide +kernel)⟩

/-- Thread 0 is interrupted after it has registered for the signal, thread 1 raises the signal, and
thread 0 goes on. -/
def preempted (m : Mid) : List Act :=
  [.call (.monitor m 1), .exec, .exec, .exec, .tick, .call (.notify m 1), .tick, .exec]

/-- **The wakeup is lost**: thread 0 owns the monitor and sleeps, but is not registered any more,
so that no later `notify` wakes it. -/
theorem wakeup_lost :
    kernel.init duo ∧
      ¬ kernel.States (KState.WakeupsKept fun _ m => m ≠ msgMonitor) duo (preempted 1) := by
  refine ⟨duo_init, ?_⟩
  intro h
  have hend : ∃ k ∈ kernel.exec duo (preempted 1),
      k.BlockedIn 0 0 1 ∧ (k.procs 0).signalWait 0 = none := by
    decide +kernel
  obtain ⟨k, hrun, hblocked, hwait⟩ := hend
  have hkept := (h.last hrun 0 0 1 hblocked).1
  rw [hwait] at hkept
  cases hkept

end Shipwreck.Kernel
