import Shipwreck.Gui.Stack
import Mathlib.Data.List.Sort

/-!
# A stack of windows over any number of operations

`insert`, `push` and `detach` one after another on one `GUIWindowStack`. Seen as a list from the top to the
bottom, the stack behaves as this:

    insert w      before the first window with a smaller zindex     `List.orderedInsert`
    push w        on top                                            `List.cons`
    detach w      away, wherever it is                              `List.erase`

`perform_wellLinked` says that the four links that an operation stores do this, `stack_run` what follows from
it for runs: the stack can be walked from both ends, and without `push` it is sorted.
-/

namespace Shipwreck.Gui

/-- `struct GUIWindowStack`, with the windows that its links are in. -/
structure GUIWindowStack where
  top : Option Gid
  win : Windows

/-- An operation, with the window that it gets. -/
inductive StackOp where
  | insert (w : Gid)
  | push (w : Gid)
  | detach (w : Gid)
  deriving DecidableEq, Repr

namespace GUIWindowStack

variable (s : GUIWindowStack)

/-- The windows of the stack, following `next` from the top. -/
def windows : List Gid := follow s.win.next 256 s.top

/-- The `zindex` of a window. -/
def zindex (w : Gid) : Int32 := (s.win w).windata.zindex

/-- From both ends the links lead through these windows, once through each of them, and then end. -/
structure WellLinked (l : List Gid) : Prop where
  down : Chain s.win.next s.top l
  up : Chain s.win.prev l.getLast? l.reverse
  nodup : l.Nodup

end GUIWindowStack

namespace StackOp

def perform (s : GUIWindowStack) : StackOp → GUIWindowStack
  | insert w => ⟨(Gui.insert s.top w s.win).1, (Gui.insert s.top w s.win).2⟩
  | push w => ⟨(Gui.push s.top w s.win).1, (Gui.push s.top w s.win).2⟩
  | detach w => ⟨(Gui.detach s.top w s.win).1, (Gui.detach s.top w s.win).2⟩

/-- What comes into the stack was not there, and what is taken out was. -/
def Allowed (s : GUIWindowStack) : StackOp → Prop
  | insert w => w ∉ s.windows
  | push w => w ∉ s.windows
  | detach w => w ∈ s.windows

instance (s : GUIWindowStack) (op : StackOp) : Decidable (op.Allowed s) := by
  cases op with
  | insert w => exact inferInstanceAs (Decidable (w ∉ s.windows))
  | push w => exact inferInstanceAs (Decidable (w ∉ s.windows))
  | detach w => exact inferInstanceAs (Decidable (w ∈ s.windows))

/-- What becomes of the windows: one more or one less, and the others as they were. -/
def Changes (l l' : List Gid) : StackOp → Prop
  | insert w => w ∉ l ∧ w ∈ l' ∧ l'.erase w = l
  | push w => w ∉ l ∧ w ∈ l' ∧ l'.erase w = l
  | detach w => w ∈ l ∧ w ∉ l' ∧ l.erase w = l'

end StackOp

/-- A stack, empty in the beginning. -/
def stackMachine : Machine GUIWindowStack StackOp where
  init s := s.top = none
  step s op := if op.Allowed s then some (op.perform s) else none

/-- The position of the last insertion of `w` among these operations, counted from 1. -/
def insertedAt (ops : List StackOp) (w : Gid) : Nat := ops.length - ops.reverse.idxOf (.insert w)

/-- `a` is to be above `b`: its zindex is larger, or it is the same and `a` was inserted before. -/
def Above (zindex : Gid → Int32) (time : Gid → Nat) (a b : Gid) : Prop :=
  zindex b < zindex a ∨ (zindex a = zindex b ∧ time a < time b)

/-! ## The stack as a list -/

/-- What the operations do to the list of the windows. -/
def StackOp.apply (zindex : Gid → Int32) (l : List Gid) : StackOp → List Gid
  | insert w => l.orderedInsert (fun a b => zindex b < zindex a) w
  | push w => w :: l
  | detach w => l.erase w

section

variable {α : Type*} {r R : α → α → Prop} [DecidableRel r] {a : α} {l l₁ l₂ : List α}

/-- An insertion behind all elements that `a` does not come before. -/
theorem orderedInsert_append (h₁ : ∀ b ∈ l₁, ¬ r a b) (h₂ : ∀ b ∈ l₂.head?, r a b) :
    (l₁ ++ l₂).orderedInsert r a = l₁ ++ a :: l₂ := by
  induction l₁ with
  | nil =>
    cases l₂ with
    | nil => rfl
    | cons b l₂ => exact List.orderedInsert_cons_of_le r l₂ (h₂ b rfl)
  | cons c l₁ ih =>
    rw [List.forall_mem_cons] at h₁
    rw [List.cons_append, List.orderedInsert_of_not_le r _ h₁.1, ih h₁.2]
    rfl

/-- An insertion keeps an order, if what `a` comes before is below it and the rest above. -/
theorem pairwise_orderedInsert (hl : l.Pairwise R) (hbelow : ∀ b ∈ l, r a b → R a b)
    (habove : ∀ b ∈ l, ¬ r a b → R b a) (htrans : ∀ b c, r a b → R b c → r a c) :
    (l.orderedInsert r a).Pairwise R := by
  induction l with
  | nil => exact List.pairwise_singleton R a
  | cons b l ih =>
    rw [List.pairwise_cons] at hl
    rw [List.forall_mem_cons] at hbelow habove
    by_cases hab : r a b
    · rw [List.orderedInsert_cons_of_le r l hab, List.pairwise_cons]
      refine ⟨?_, List.pairwise_cons.mpr hl⟩
      intro c hc
      rcases List.mem_cons.mp hc with rfl | hc
      · exact hbelow.1 hab
      · exact hbelow.2 c hc (htrans b c hab (hl.1 c hc))
    · rw [List.orderedInsert_of_not_le r l hab, List.pairwise_cons]
      refine ⟨?_, ih hl.2 hbelow.2 habove.2⟩
      intro c hc
      rcases (List.mem_orderedInsert r).mp hc with rfl | hc
      · exact habove.1 hab
      · exact hl.1 c hc

end

/-! ## One operation -/

/-- The stack holds these windows, from the top to the bottom. -/
structure GUIWindowStack.Holds (s : GUIWindowStack) (l : List Gid) : Prop where
  linked : Linked s.win.next s.win.prev none l
  top : s.top = l.head?

section

variable {s s' : GUIWindowStack} {win win' : Windows} {l l₁ l₂ : List Gid} {op : StackOp} {w : Gid}

namespace GUIWindowStack.Holds

variable (h : s.Holds l)

include h

theorem windows_eq : s.windows = l := by
  have hlength := h.linked.nodup.length_le_card
  rw [Fintype.card_fin] at hlength
  have hchain := h.linked.chain
  rw [← h.top] at hchain
  exact hchain.follow_eq hlength

theorem wellLinked : s.WellLinked l where
  down := h.top ▸ h.linked.chain
  up := by
    have hend : Chain s.win.prev none [] := rfl
    have hreverse := h.linked.chain_reverse hend
    rwa [Option.or_none, List.append_nil] at hreverse
  nodup := h.linked.nodup

end GUIWindowStack.Holds

theorem Attached.linked (h : Attached win win' w l₁ l₂) (hl : Linked win.next win.prev none (l₁ ++ l₂))
    (hw : w ∉ l₁ ++ l₂) : Linked win'.next win'.prev none (l₁ ++ w :: l₂) := by
  apply hl.insert (fun u _ => (Option.some_ne_none u).symm) hw h.next_self
  · rw [h.prev_self, Option.or_none]
  · exact fun u hu => h.next u (ne_of_mem_of_not_mem hu hw)
  · exact fun u hu => h.prev u (ne_of_mem_of_not_mem hu hw)

theorem Detached.linked (h : Detached win win' w) (hl : Linked win.next win.prev none (l₁ ++ w :: l₂))
    (hw : w ∉ l₁ ++ l₂) : Linked win'.next win'.prev none (l₁ ++ l₂) := by
  apply hl.erase fun u _ => (Option.some_ne_none u).symm
  · intro u hu
    rw [h.next, if_neg (ne_of_mem_of_not_mem hu hw)]
  · intro u hu
    rw [h.prev, if_neg (ne_of_mem_of_not_mem hu hw)]

/-- **Each operation does to the stack what it is to do to the list.** -/
theorem perform_holds (h : s.Holds l) (hop : op.Allowed s) : (op.perform s).Holds (op.apply s.zindex l) := by
  cases op with
  | insert w =>
    have hw : w ∉ l := h.windows_eq ▸ hop
    obtain ⟨l₁, l₂, rfl, htop, hattached, habove, hbelow⟩ := insert_attached h.linked hw
    rw [← h.top] at htop hattached
    have hlist : StackOp.apply s.zindex (l₁ ++ l₂) (.insert w) = l₁ ++ w :: l₂ :=
      orderedInsert_append habove hbelow
    rw [hlist]
    exact ⟨hattached.linked h.linked hw, htop⟩
  | push w =>
    have hw : w ∉ l := h.windows_eq ▸ hop
    obtain ⟨htop, hattached⟩ : (push l.head? w s.win).1 = some w ∧
        Attached s.win (push l.head? w s.win).2 w [] l := push_attached hw
    rw [← h.top] at htop hattached
    have hlinked := hattached.linked h.linked hw
    exact ⟨hlinked, htop⟩
  | detach w =>
    have hw : w ∈ l := h.windows_eq ▸ hop
    obtain ⟨l₁, l₂, rfl⟩ := List.append_of_mem hw
    have hnodup := h.linked.nodup
    rw [List.nodup_middle, List.nodup_cons] at hnodup
    have hlist : StackOp.apply s.zindex (l₁ ++ w :: l₂) (.detach w) = l₁ ++ l₂ := by
      show (l₁ ++ w :: l₂).erase w = l₁ ++ l₂
      rw [List.erase_append_right _ fun hmem => hnodup.1 (List.mem_append_left l₂ hmem), List.erase_cons_head]
    have htop := detach_top h.linked
    rw [← h.top] at htop
    have hdetached : Detached s.win (detach s.top w s.win).2 w := detach_detached h.linked
    rw [hlist]
    exact ⟨hdetached.linked h.linked hnodup.1, htop⟩

/-- No operation stores into `zindex`. -/
theorem zindex_perform : (op.perform s).zindex = s.zindex := by
  funext u
  apply GUIWindow.field_of_core (·.windata.zindex) fun _ => rfl
  cases op with
  | insert w => exact core_insert
  | push w => exact core_push
  | detach w => exact @core_detach s.win w u s.top

/-- One window more or one less. -/
theorem apply_changes {zindex : Gid → Int32} (h : s.Holds l) (hop : op.Allowed s) :
    op.Changes l (op.apply zindex l) := by
  have hwindows := h.windows_eq
  cases op with
  | insert w =>
    have hw : w ∉ l := hwindows ▸ hop
    refine ⟨hw, ?_, List.erase_orderedInsert_of_notMem hw⟩
    exact (List.mem_orderedInsert _).mpr (.inl rfl)
  | push w =>
    have hw : w ∉ l := hwindows ▸ hop
    exact ⟨hw, List.mem_cons_self, List.erase_cons_head w l⟩
  | detach w =>
    have hw : w ∈ l := hwindows ▸ hop
    exact ⟨hw, h.linked.nodup.not_mem_erase, rfl⟩

/-! ## Runs -/

theorem step_eq (h : stackMachine.step s op = some s') : op.Allowed s ∧ s' = op.perform s := by
  rw [show stackMachine.step s op = if op.Allowed s then some (op.perform s) else none from rfl] at h
  split at h
  case isTrue hop =>
    cases h
    exact ⟨hop, rfl⟩
  case isFalse => cases h

/-- **At any time** the stack holds some windows. -/
theorem reachable_holds (h : stackMachine.Reachable s) : ∃ l, s.Holds l := by
  apply h.invariant
  · intro s htop
    exact ⟨[], trivial, htop⟩
  · rintro s op s' ⟨l, hl⟩ hstep
    obtain ⟨hop, rfl⟩ := step_eq hstep
    exact ⟨_, perform_holds hl hop⟩

/-! ## Runs without `push` -/

theorem insertedAt_le {ops : List StackOp} : insertedAt ops w ≤ ops.length := Nat.sub_le _ _

theorem insertedAt_concat_self {ops : List StackOp} : insertedAt (ops ++ [.insert w]) w = ops.length + 1 := by
  rw [insertedAt, List.reverse_concat, List.idxOf_cons_self, List.length_append]
  rfl

theorem insertedAt_concat_of_ne {ops : List StackOp} (h : op ≠ .insert w) :
    insertedAt (ops ++ [op]) w = insertedAt ops w := by
  rw [insertedAt, List.reverse_concat, List.idxOf_cons_ne _ h, List.length_append, List.length_singleton,
    Nat.add_sub_add_right]
  rfl

/-- **An operation other than `push` keeps the order.** -/
theorem apply_sorted {zindex : Gid → Int32} {ops : List StackOp} (hpush : ∀ w, op ≠ .push w)
    (hl : l.Pairwise (Above zindex (insertedAt ops))) (hchange : op.Changes l (op.apply zindex l)) :
    (op.apply zindex l).Pairwise (Above zindex (insertedAt (ops ++ [op]))) := by
  cases op with
  | insert w =>
    have hw : w ∉ l := hchange.1
    -- the window is the youngest, and the others are as old as they were
    have hself : insertedAt (ops ++ [.insert w]) w = ops.length + 1 := insertedAt_concat_self
    have hother : ∀ u ∈ l, insertedAt (ops ++ [.insert w]) u = insertedAt ops u := by
      intro u hu
      apply insertedAt_concat_of_ne
      rintro ⟨⟩
      exact hw hu
    apply pairwise_orderedInsert
    · apply hl.imp_of_mem
      intro a b ha hb hab
      rwa [Above, hother a ha, hother b hb]
    · exact fun b _ hb => .inl hb
    · intro b hb hle
      rcases Int32.lt_or_eq_of_le (Int32.not_lt.mp hle) with hlt | heq
      · exact .inl hlt
      · refine .inr ⟨heq.symm, ?_⟩
        rw [hself, hother b hb]
        exact Nat.lt_succ_of_le insertedAt_le
    · rintro b c hb (hc | ⟨hc, -⟩)
      · exact Int32.lt_trans hc hb
      · exact hc ▸ hb
  | push w => exact absurd rfl (hpush w)
  | detach w =>
    apply (hl.sublist List.erase_sublist).imp
    intro a b hab
    have hother (u : Gid) : insertedAt (ops ++ [.detach w]) u = insertedAt ops u :=
      insertedAt_concat_of_ne (by rintro ⟨⟩)
    rwa [Above, hother, hother]

/-- **Without `push` the stack is sorted at any time.** -/
theorem run_sorted {s₀ : GUIWindowStack} {ops : List StackOp} (h₀ : s₀.top = none)
    (hrun : stackMachine.exec s₀ ops = some s) (hpush : ∀ w, .push w ∉ ops) :
    ∃ l, s.Holds l ∧ l.Pairwise (Above s.zindex (insertedAt ops)) := by
  induction ops using List.reverseRecOn generalizing s with
  | nil =>
    cases hrun
    exact ⟨[], ⟨trivial, h₀⟩, .nil⟩
  | append_singleton ops op ih =>
    rw [Machine.exec_append] at hrun
    obtain ⟨s₁, hrun₁, hlast⟩ := Option.bind_eq_some_iff.mp hrun
    obtain ⟨s₂, hstep, hend⟩ := Option.bind_eq_some_iff.mp hlast
    cases hend
    obtain ⟨hop, rfl⟩ := step_eq hstep
    obtain ⟨l, hl, hsorted⟩ := ih hrun₁ fun w hw => hpush w (List.mem_append_left _ hw)
    refine ⟨_, perform_holds hl hop, ?_⟩
    rw [zindex_perform]
    apply apply_sorted _ hsorted (apply_changes hl hop)
    rintro w rfl
    exact hpush w (List.mem_append_right ops (List.mem_singleton_self _))

end

/-- **Any run of operations on a stack**: after each of them its windows are linked in both directions, they
are those of before with one more or one less, and if none of the operations is a `push`, they are sorted. -/
theorem stack_run (s₀ : GUIWindowStack) (h₀ : s₀.top = none) (ops : List StackOp) (s : GUIWindowStack)
    (hrun : stackMachine.exec s₀ ops = some s) (op : StackOp) (s' : GUIWindowStack)
    (hstep : stackMachine.step s op = some s') :
    ∃ l l', s.WellLinked l ∧ s'.WellLinked l' ∧ op.Changes l l' ∧
      ((∀ w, .push w ∉ ops ++ [op]) → l'.Pairwise (Above s'.zindex (insertedAt (ops ++ [op])))) := by
  obtain ⟨l, hl⟩ := reachable_holds ⟨s₀, ops, h₀, hrun⟩
  obtain ⟨hop, hs'⟩ := step_eq hstep
  have hl' : s'.Holds (op.apply s.zindex l) := hs' ▸ perform_holds hl hop
  refine ⟨l, op.apply s.zindex l, hl.wellLinked, hl'.wellLinked, apply_changes hl hop, ?_⟩
  intro hpush
  have hrun' : stackMachine.exec s₀ (ops ++ [op]) = some s' := by
    rw [Machine.exec_append, hrun]
    show (stackMachine.step s op).bind _ = some s'
    rw [hstep]
    rfl
  obtain ⟨l'', hl'', hsorted⟩ := run_sorted h₀ hrun' hpush
  rwa [← hl''.windows_eq, hl'.windows_eq] at hsorted

/-- An empty stack, with windows that are as `GUIWindow` makes them. -/
def emptyStack : GUIWindowStack where
  top := none
  win _ := ⟨.window, ⟨.none, ⟨0, 0, 0, 0⟩, .bits 0, 0, 0, -1, false⟩, 0, none, none, none, none⟩

/-- One window in the stack, and another one below it. -/
theorem stack_run_two :
    let s := StackOp.perform emptyStack (.insert 1)
    let s' := StackOp.perform s (.insert 2)
    ∃ l l', s.WellLinked l ∧ s'.WellLinked l' ∧ StackOp.Changes l l' (.insert 2) ∧
      ((∀ w, .push w ∉ [StackOp.insert 1, .insert 2]) →
        l'.Pairwise (Above s'.zindex (insertedAt [.insert 1, .insert 2]))) :=
  stack_run emptyStack rfl [.insert 1] _ rfl (.insert 2) _ rfl

end Shipwreck.Gui
