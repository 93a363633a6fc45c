import Shipwreck.Lib.Chain
import Shipwreck.Lib.CInt
import Shipwreck.Lib.Transition
import Shipwreck.Memory.Bitset
import Shipwreck.Queue.Basic

/-!
# Subscribers of an event

`SubscriberList` of `system/events.cpp` and `sub_proc_event`. A subscription is a node of a pool, pushed on
the list of its event; a process that subscribes again has one more node. `notify` looks for its target
from the newest node on:

    head ---> C ---> B ---> B ---> ... ---> A ---> null
              |<------ MAX_PROCS ------>|

It gives up after as many nodes as there may be processes. So a process is reached as long as fewer than
that many subscriptions to the event have come after its own, whoever they are from (`notify_exact_iff`).
-/

namespace Shipwreck.Subscriptions

open Queue (Message)
open Memory (BitAllocator Marked)

/-- `MAX_PROCS` -/
def maxProcs : Nat := 16

/-- `MAX_SUBSCRIPTIONS` -/
def maxSubscriptions : Nat := 64

/-- `UserEvents::MAX` -/
def userEventsMax : Nat := 14

/-- An index into `event_subs`. -/
abbrev UserEvent := Fin userEventsMax

/-- The fields of `UserEventWorker` that subscriptions use: the pool of nodes with their two fields, and the
heads of the lists. `P` are the processes. -/
structure UserEventWorker (P : Type) where
  subPool : BitAllocator
  next : Nat → Option Nat
  proc : Nat → Option P
  eventSubs : UserEvent → Option Nat

namespace UserEventWorker

variable {P : Type}

/-- What the constructors leave. -/
def new : UserEventWorker P where
  subPool := BitAllocator.new maxSubscriptions
  next _ := none
  proc _ := none
  eventSubs _ := none

/-- `SubscriberList::push_head` on the list of `event`. -/
def pushHead (w : UserEventWorker P) (event : UserEvent) (node : Nat) : UserEventWorker P :=
  { w with
    next := Function.update w.next node (w.eventSubs event)
    eventSubs := Function.update w.eventSubs event (some node) }

/-- `sub_proc_event`: the result, and the worker; `rand` is what `prand()` returns. -/
def subProcEvent (w : UserEventWorker P) (rand : Nat) (proc : P) (event : UserEvent) :
    Int × UserEventWorker P :=
  match w.subPool.alloc rand with
  | (none, subPool) => (-1, { w with subPool })
  | (some node, subPool) =>
    let w := { w with subPool, proc := Function.update w.proc node (some proc) }
    (0, w.pushHead event node)

variable [DecidableEq P]

/-- The loop of `notify` at `sub`, with `left` iterations to go: the messages that are sent. -/
def notifyFrom (w : UserEventWorker P) (target : P) (msg : Message) : Nat → Option Nat → List (P × Message)
  | 0, _ => []
  | _ + 1, none => []
  | left + 1, some sub =>
    if w.proc sub = some target then [(target, msg)]
    else notifyFrom w target msg left (w.next sub)

/-- `event_subs[event].notify(target, msg)`: the messages that are sent. -/
def notify (w : UserEventWorker P) (event : UserEvent) (target : P) (msg : Message) : List (P × Message) :=
  match w.eventSubs event with
  | none => []
  | some sub =>
    if CInt.toUint msg.msgId.toInt ≥ userEventsMax then [] else w.notifyFrom target msg maxProcs (some sub)

end UserEventWorker

/-! ## Runs -/

variable {P : Type}

/-- A call of `sub_proc_event`. -/
structure Subscription (P : Type) where
  proc : P
  event : UserEvent
  rand : Nat

/-- The calls of `sub_proc_event` that succeed. -/
def subscriptions (P : Type) : Machine (UserEventWorker P) (Subscription P) where
  init w := w = UserEventWorker.new
  step w s :=
    let (ret, w') := w.subProcEvent s.rand s.proc s.event
    if ret = 0 then some w' else none

/-- The processes that have subscribed to an event, in the order of their calls. -/
def subscribers (calls : List (Subscription P)) (event : UserEvent) : List P :=
  (calls.filter fun s => s.event = event).map Subscription.proc

/-- The lists hold the subscriptions, the newest first, in nodes that are taken from the pool. -/
def Listed (w : UserEventWorker P) (calls : List (Subscription P)) : Prop :=
  ∀ event, ∃ nodes, Chain w.next (w.eventSubs event) nodes ∧
    nodes.map w.proc = (subscribers calls event).reverse.map some ∧
    ∀ node ∈ nodes, Marked w.subPool.bitsetBlocks node

theorem alloc_took {a a' : BitAllocator} {rand b : Nat} (h : a.alloc rand = (some b, a')) : a.Took a' b := by
  rw [BitAllocator.alloc] at h
  rcases a.lockNextBit_spec (rand % a.maxBlocks) with ⟨c, a₁, heq, htook, -⟩ | ⟨heq, -⟩
  · rw [heq] at h
    simp only at h
    rw [if_neg (by omega)] at h
    cases h
    exact htook
  · rw [heq] at h
    cases h

/-- **One subscription**: its node is new, and comes first. -/
theorem Listed.step {w w' : UserEventWorker P} {calls : List (Subscription P)} {s : Subscription P}
    (h : Listed w calls) (hs : (subscriptions P).step w s = some w') : Listed w' (calls ++ [s]) := by
  have hcall : (let (ret, w') := w.subProcEvent s.rand s.proc s.event
      if ret = 0 then some w' else none) = some w' := hs
  rw [UserEventWorker.subProcEvent] at hcall
  cases halloc : w.subPool.alloc s.rand with
  | mk node subPool =>
    cases node with
    | none =>
      simp only [halloc] at hcall
      cases hcall
    | some node =>
      simp only [halloc, if_true] at hcall
      cases hcall
      have htook := alloc_took halloc
      intro event
      obtain ⟨nodes, hchain, hprocs, hmarked⟩ := h event
      -- the pool gives out no node that is in a list already
      have hnew : node ∉ nodes := fun hmem => htook.clear (hmarked node hmem)
      have hkept : nodes.map (Function.update w.proc node (some s.proc)) = nodes.map w.proc := by
        apply List.map_congr_left
        intro n hn
        exact Function.update_of_ne (ne_of_mem_of_not_mem hn hnew) _ _
      have hmarked' : ∀ n ∈ nodes, Marked subPool.bitsetBlocks n := by
        intro n hn
        exact (htook.marked n).mpr (.inl (hmarked n hn))
      by_cases hevent : event = s.event
      · subst hevent
        have hhead : Function.update w.eventSubs s.event (some node) s.event = some node :=
          Function.update_self _ _ _
        refine ⟨node :: nodes, ?_, ?_, ?_⟩
        · show Chain (Function.update w.next node (w.eventSubs s.event))
            (Function.update w.eventSubs s.event (some node) s.event) _
          rw [hhead]
          exact hchain.push hnew
        · show Function.update w.proc node (some s.proc) node :: nodes.map (Function.update w.proc node _) = _
          rw [Function.update_self, hkept, hprocs]
          simp [subscribers, List.filter_append]
        · intro n hn
          rcases List.mem_cons.mp hn with rfl | hn
          · exact (htook.marked n).mpr (.inr rfl)
          · exact hmarked' n hn
      · -- the list of another event is not touched
        have hhead : Function.update w.eventSubs s.event (some node) event = w.eventSubs event :=
          Function.update_of_ne hevent _ _
        refine ⟨nodes, ?_, ?_, hmarked'⟩
        · show Chain (Function.update w.next node (w.eventSubs s.event))
            (Function.update w.eventSubs s.event (some node) event) _
          rw [hhead]
          exact hchain.update _ hnew
        · show nodes.map (Function.update w.proc node (some s.proc)) = _
          rw [hkept, hprocs]
          simp [subscribers, List.filter_append, Ne.symm hevent]

theorem Listed.exec {w w' : UserEventWorker P} {calls more : List (Subscription P)} (h : Listed w calls)
    (hrun : (subscriptions P).exec w more = some w') : Listed w' (calls ++ more) := by
  induction more generalizing w calls with
  | nil =>
    cases hrun
    rwa [List.append_nil]
  | cons s more ih =>
    rw [Machine.exec_cons] at hrun
    obtain ⟨w₁, h₁, hrest⟩ := Option.bind_eq_some_iff.mp hrun
    rw [List.append_cons]
    exact ih (h.step h₁) hrest

theorem listed_new : Listed (UserEventWorker.new : UserEventWorker P) [] := by
  intro event
  refine ⟨[], rfl, rfl, ?_⟩
  intro node hnode
  cases hnode

/-! ## Notification -/

section

variable [DecidableEq P] {w : UserEventWorker P} {target : P} {msg : Message}

/-- The walk finds the target among the first nodes. -/
theorem notifyFrom_eq {sub : Option Nat} {nodes : List Nat} (h : Chain w.next sub nodes) (left : Nat) :
    w.notifyFrom target msg left sub =
      if some target ∈ (nodes.map w.proc).take left then [(target, msg)] else [] := by
  induction left generalizing sub nodes with
  | zero => simp [UserEventWorker.notifyFrom]
  | succ left ih =>
    cases nodes with
    | nil =>
      cases h
      simp [UserEventWorker.notifyFrom]
    | cons node nodes =>
      obtain ⟨rfl, hrest⟩ := h
      rw [UserEventWorker.notifyFrom, List.map_cons, List.take_succ_cons]
      by_cases hfound : w.proc node = some target
      · rw [if_pos hfound, if_pos (by rw [hfound]; exact List.mem_cons_self)]
      · rw [if_neg hfound, ih hrest]
        simp only [List.mem_cons, Ne.symm hfound, false_or]

/-- What `notify` sends after a run. -/
theorem notify_eq {calls : List (Subscription P)} (h : Listed w calls) (event : UserEvent)
    (hmsg : msg.msgId.toInt = event) :
    w.notify event target msg =
      if target ∈ (subscribers calls event).reverse.take maxProcs then [(target, msg)] else [] := by
  obtain ⟨nodes, hchain, hprocs, -⟩ := h event
  have hrange : ¬CInt.toUint msg.msgId.toInt ≥ userEventsMax := by
    have hlt := event.isLt
    have hmax : userEventsMax = 14 := rfl
    rw [hmsg, CInt.toUint_of_nonneg (by omega) (by omega)]
    omega
  have hmem : some target ∈ (nodes.map w.proc).take maxProcs ↔
      target ∈ (subscribers calls event).reverse.take maxProcs := by
    rw [hprocs, ← List.map_take, List.mem_map]
    simp
  cases hhead : w.eventSubs event with
  | none =>
    rw [hhead] at hchain
    rw [hchain.eq_nil] at hmem
    simp only [UserEventWorker.notify, hhead]
    rw [if_neg (mt hmem.mpr (by simp))]
  | some sub =>
    rw [hhead] at hchain
    simp only [UserEventWorker.notify, hhead, if_neg hrange]
    rw [notifyFrom_eq hchain]
    simp only [hmem]

/-- **A notification is as it should be** exactly if the target has not subscribed to the event, or is among
the last `MAX_PROCS` that have. -/
theorem notify_exact_iff (target : P) (msg : Message) {calls : List (Subscription P)}
    (hrun : (subscriptions P).exec .new calls = some w) (event : UserEvent)
    (hmsg : msg.msgId.toInt = event) :
    w.notify event target msg = (if target ∈ subscribers calls event then [(target, msg)] else []) ↔
      (target ∈ subscribers calls event →
        target ∈ (subscribers calls event).reverse.take maxProcs) := by
  have hlisted : Listed w calls := listed_new.exec hrun
  rw [notify_eq hlisted event hmsg]
  by_cases htaken : target ∈ (subscribers calls event).reverse.take maxProcs
  · have hsub : target ∈ subscribers calls event := List.mem_reverse.mp (List.mem_of_mem_take htaken)
    rw [if_pos htaken, if_pos hsub]
    exact iff_of_true rfl fun _ => htaken
  · rw [if_neg htaken]
    by_cases hsub : target ∈ subscribers calls event
    · rw [if_pos hsub]
      exact iff_of_false (List.cons_ne_nil _ _).symm fun h => htaken (h hsub)
    · rw [if_neg hsub]
      exact iff_of_true rfl fun h => absurd h hsub

end

/-- `UserEvents::KEY_CHAR_DOWN` -/
def keyCharDown : UserEvent := ⟨1, by decide⟩

/-- Process 0 subscribes to key events, and then process 1 does so again and again. -/
def crowd : List (Subscription Nat) := ⟨0, keyCharDown, 0⟩ :: List.replicate 16 ⟨1, keyCharDown, 0⟩

/-- The other process alone. -/
theorem notify_exact_iff_crowd : ∃ w, (subscriptions Nat).exec .new crowd = some w ∧
    w.notify keyCharDown 1 ⟨1, 65⟩ = [(1, ⟨1, 65⟩)] := by
  obtain ⟨w, hrun⟩ : ∃ w, (subscriptions Nat).exec .new crowd = some w :=
    Option.isSome_iff_exists.mp (by decide +kernel)
  have hsub : 1 ∈ subscribers crowd keyCharDown := by decide
  have hexact := (notify_exact_iff 1 ⟨1, 65⟩ hrun keyCharDown (by decide)).mpr fun _ => by decide
  rw [if_pos hsub] at hexact
  exact ⟨w, hrun, hexact⟩

/-- Process 0 is not reached any more. -/
theorem notify_crowd : ∃ w, (subscriptions Nat).exec .new crowd = some w ∧
    0 ∈ subscribers crowd keyCharDown ∧ w.notify keyCharDown 0 ⟨1, 65⟩ = [] := by
  obtain ⟨w, hrun⟩ : ∃ w, (subscriptions Nat).exec .new crowd = some w :=
    Option.isSome_iff_exists.mp (by decide +kernel)
  have hlisted : Listed w crowd := listed_new.exec hrun
  refine ⟨w, hrun, by decide, ?_⟩
  rw [notify_eq hlisted keyCharDown (by decide), if_neg (by decide)]

end Shipwreck.Subscriptions
