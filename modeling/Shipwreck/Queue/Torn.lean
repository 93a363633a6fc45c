import Shipwreck.Queue.Invariant
import Mathlib.Data.Fintype.Basic

/-!
# A message is stored in two halves

`Message::operator=` stores `msg_id` and then `data`, and `msg_id` is the word by which
`gather_new_data` knows that a slot is written. Between the two stores the slot looks complete: it
can be gathered, dequeued, read, released and even reserved again.

`torn` is `system` with this one access cut in two. Nothing but a consumer's read looks at the
second half, so a run of `torn` is a run of `system` in which some slots have a `data` that is still
on its way (`TornInv`). `reads_whole` shows that every message a consumer reads was enqueued as it
is, as long as no slot is read or released while its producer is between the two stores;
`half_read` is the run in which one is.
-/

namespace Shipwreck.Queue

variable {Tid : Type} [DecidableEq Tid]

/-! ## The machine -/

/-- The queue and its threads; the message and the index of each `enqueue` call that has stored
`msg_id` and not yet `data`; and the messages that consumers have read. -/
structure Torn (Tid : Type) where
  sys : Sys Tid Message
  half : Tid → Option (Message × UInt16)
  reads : List Message

/-- A thread calls an operation, makes its next access, or reads an index of a range it holds. -/
inductive TornOp (Tid : Type) where
  | call (t : Tid) (c : Call Message)
  | access (t : Tid)
  | read (t : Tid) (qr : QueueRange) (i : Nat)

/-- The queue with a slot changed. -/
def Sys.modifySlot (s : Sys Tid Message) (j : Nat) (f : Message → Message) : Sys Tid Message :=
  { s with q := { s.q with queue := Function.update s.q.queue j (f (s.q.queue j)) } }

/-- The first store of `enqueue`: a gatherer that looks at the slot now takes it for written. -/
def Torn.storeMsgId (N : Nat) (s : Torn Tid) (t : Tid) (msg : Message) (i : UInt16) : Torn Tid :=
  let sys := s.sys.modifySlot (i.toNat % N) fun slot => { slot with msgId := msg.msgId }
  { s with
    sys := { sys with pc := Function.update sys.pc t .idle }.record t (.store i.toNat)
    half := Function.update s.half t (some (msg, i)) }

/-- The second store. -/
def Torn.storeData (N : Nat) (s : Torn Tid) (t : Tid) (msg : Message) (i : UInt16) : Torn Tid :=
  { s with
    sys := s.sys.modifySlot (i.toNat % N) fun slot => { slot with data := msg.data }
    half := Function.update s.half t none }

def Torn.step (N : Nat) (s : Torn Tid) : TornOp Tid → Option (Torn Tid)
  | .call t c =>
    if s.half t = none ∧ (s.sys.pc t).isIdle ∧ s.sys.Allowed t c then
      some { s with sys := s.sys.enter t c }
    else none
  | .access t =>
    match s.half t with
    | some (msg, i) => some (s.storeData N t msg i)
    | none =>
      match s.sys.pc t with
      | .idle => none
      | .enqStore msg i => some (s.storeMsgId N t msg i)
      | _ => some { s with sys := s.sys.advance N t }
  | .read t qr i =>
    if s.half t = none ∧ (s.sys.pc t).isIdle ∧ qr ∈ s.sys.held t ∧ qr.Has i then
      some { s with reads := s.reads ++ [s.sys.q.queue (i % N)] }
    else none

def Torn.start : Torn Tid := ⟨Sys.start, fun _ => none, []⟩

/-- Any number of threads calling the operations of one message queue, in any interleaving. -/
def torn (Tid : Type) [DecidableEq Tid] (N : Nat) : Machine (Torn Tid) (TornOp Tid) where
  init s := s = Torn.start
  step := Torn.step N

/-- Every message read has the `msg_id` and the `data` of one `enqueue` call. -/
def Torn.Faithful (s : Torn Tid) : Prop := ∀ m ∈ s.reads, m ∈ s.sys.log

/-- No producer is between its two stores into slot `j`. -/
def Torn.Whole (N : Nat) (s : Torn Tid) (j : Nat) : Prop :=
  ∀ t, ∀ p ∈ s.half t, p.2.toNat % N ≠ j

/-- A slot is read or released only when it is whole, and no index is reserved that wraps. -/
def Torn.Settled (N : Nat) (s : Torn Tid) : TornOp Tid → Prop
  | .call _ _ => True
  | .access t =>
    match s.sys.pc t with
    | .enqCas _ _ qTmp => s.sys.q.qLocked = qTmp → s.sys.log.length < 65535
    | .releaseSlot _ i => s.Whole N (i % N)
    | _ => True
  | .read _ _ i => s.Whole N (i % N)

instance [Fintype Tid] (N : Nat) (s : Torn Tid) (j : Nat) : Decidable (s.Whole N j) :=
  inferInstanceAs (Decidable (∀ t, ∀ p ∈ s.half t, p.2.toNat % N ≠ j))

instance [Fintype Tid] (N : Nat) (s : Torn Tid) (op : TornOp Tid) : Decidable (s.Settled N op) := by
  cases op with
  | call t c => exact inferInstanceAs (Decidable True)
  | access t =>
    simp only [Torn.Settled]
    split <;> infer_instance
  | read t qr i => exact inferInstanceAs (Decidable (s.Whole N (i % N)))

/-! ## Accesses that do not look at `data` -/

section Access

variable {T : Type} [Slot T] {N : Nat}

/-- The index whose slot the next access writes. -/
def Pc.writes : Pc T → Option Nat
  | enqStore _ myIndex => some myIndex.toNat
  | releaseSlot _ i => some i
  | _ => none

omit [Slot T] in
theorem Pc.of_writes {pc : Pc T} {k : Nat} (h : pc.writes = some k) :
    (∃ msg i, pc = .enqStore msg i) ∨ ∃ qr, pc = .releaseSlot qr k := by
  cases pc <;> simp [Pc.writes] at h ⊢
  exact h

/-- Slots are only compared with zero: an access that writes none does the same on every queue with
the same first words. -/
theorem Pc.run_congr {q : SharedQueue T} {queue : Nat → T} {pc : Pc T} (hpc : pc.writes = none)
    (hword : ∀ j, word (queue j) = word (q.queue j)) :
    pc.run N { q with queue := queue } =
      ({ (pc.run N q).1 with queue := queue }, (pc.run N q).2) ∧
    (pc.run N q).1.queue = q.queue := by
  cases pc <;> simp only [Pc.writes, reduceCtorEq] at hpc <;> simp only [Pc.run, hword]
  case enqSnapshot =>
    split <;> exact ⟨rfl, rfl⟩
  case enqCas =>
    split
    case isTrue => exact ⟨rfl, rfl⟩
    case isFalse => split <;> exact ⟨rfl, rfl⟩
  case deqCas =>
    split <;> exact ⟨rfl, rfl⟩
  all_goals exact ⟨trivial, trivial⟩

/-- Such an access neither publishes nor frees an index. -/
theorem Pc.run_event {q : SharedQueue T} {pc : Pc T} (hpc : pc.writes = none) :
    (∀ i, (pc.run N q).2.2 ≠ .store i) ∧ ∀ i, (pc.run N q).2.2 ≠ .free i := by
  cases pc <;> simp only [Pc.writes, reduceCtorEq] at hpc <;> simp only [Pc.run, Pc.deqLoop]
  all_goals grind

end Access

/-! ## The run of `system` behind a run of `torn` -/

/-- The same state with other slots. -/
def Sys.withQueue (s : Sys Tid Message) (queue : Nat → Message) : Sys Tid Message :=
  { s with q := { s.q with queue := queue } }

theorem Sys.record_withQueue (s : Sys Tid Message) (t : Tid) (e : Event Message)
    (queue : Nat → Message) : (s.withQueue queue).record t e = (s.record t e).withQueue queue := by
  cases e <;> rfl

/-- An access that writes no slot commutes with the choice of the slots' `data`. -/
theorem Sys.advance_withQueue {N : Nat} {s : Sys Tid Message} {t : Tid} {queue : Nat → Message}
    (hpc : (s.pc t).writes = none) (hword : ∀ j, (queue j).msgId = (s.q.queue j).msgId) :
    (s.withQueue queue).advance N t = (s.advance N t).withQueue queue ∧
      (s.advance N t).q.queue = s.q.queue := by
  obtain ⟨hrun, hsame⟩ := Pc.run_congr (N := N) hpc hword
  have hq : ∀ e : Event Message, ∀ s' : Sys Tid Message, (s'.record t e).q = s'.q := by
    intro e s'
    cases e <;> rfl
  refine ⟨?_, ?_⟩
  · rw [Sys.advance, Sys.advance, ← Sys.record_withQueue]
    simp only [Sys.withQueue, hrun]
  · rw [Sys.advance]
    simp only [hq]
    exact hsame

/-- The slots of `queue` are those of the state with every `data` arrived: `queue` satisfies the
invariant of `system`, has the same first words, and differs only in slots that are not whole; and
the index of a half stored message has not been released. -/
structure TornInv (N : Nat) (s : Torn Tid) (queue : Nat → Message) : Prop where
  inv : Inv N (s.sys.withQueue queue)
  count : s.sys.log.length < 65536
  word : ∀ j, (queue j).msgId = (s.sys.q.queue j).msgId
  same : ∀ j, s.Whole N j → s.sys.q.queue j = queue j
  half_full : ∀ t msg i, s.half t = some (msg, i) →
    (s.sys.stage i.toNat).Full ∧ s.sys.log[i.toNat]? = some msg
  half_slot : ∀ t t' p p', s.half t = some p → s.half t' = some p' →
    p.2.toNat % N = p'.2.toNat % N → t = t'
  reads : s.Faithful

/-- What an access enters into the log. -/
theorem Sys.advance_log {N : Nat} (s : Sys Tid Message) (t : Tid) :
    (s.advance N t).log = s.log ∨
      ∃ msg i, s.pc t = .enqCas msg i s.q.qLocked ∧ (s.advance N t).log = s.log ++ [msg] := by
  unfold Sys.advance
  cases hpc : s.pc t <;> simp only [Pc.run, Pc.deqLoop]
  case enqCas msg i qTmp =>
    by_cases hwin : s.q.qLocked = qTmp
    · right
      refine ⟨msg, i, by rw [hwin], ?_⟩
      rw [if_pos hwin]
      rfl
    · left
      rw [if_neg hwin]
      split <;> rfl
  all_goals left
  case enqSnapshot => split <;> rfl
  case deqSnapshot =>
    split
    case isTrue => split <;> rfl
    case isFalse => rfl
  case deqCas =>
    split
    case isTrue => rfl
    case isFalse =>
      split
      case isTrue => split <;> rfl
      case isFalse => rfl
  all_goals rfl

/-- An index that has been written stays so until it is freed. -/
theorem Sys.record_full {s : Sys Tid Message} {t : Tid} {e : Event Message} {k : Nat}
    {msg : Message} (hfree : e ≠ .free k) (hfull : (s.stage k).Full)
    (hlog : s.log[k]? = some msg) :
    ((s.record t e).stage k).Full ∧ (s.record t e).log[k]? = some msg := by
  obtain ⟨hlt, -⟩ := List.getElem?_eq_some_iff.mp hlog
  cases e with
  | silent => exact ⟨hfull, hlog⟩
  | reserve msg' =>
    simp only [Sys.record]
    rw [Function.update_of_ne (by omega), List.getElem?_append_left hlt]
    exact ⟨hfull, hlog⟩
  | store i =>
    refine ⟨?_, hlog⟩
    simp only [Sys.record]
    by_cases hk : k = i
    · rw [hk, Function.update_self]
      trivial
    · rw [Function.update_of_ne hk]
      exact hfull
  | take qr =>
    refine ⟨?_, hlog⟩
    simp only [Sys.record]
    split
    case isTrue => trivial
    case isFalse => exact hfull
  | free i =>
    have hk : k ≠ i := by
      rintro rfl
      exact hfree rfl
    simp only [Sys.record, Function.update_of_ne hk]
    exact ⟨hfull, hlog⟩

namespace TornInv

variable {N : Nat} {s s' : Torn Tid} {queue : Nat → Message} {t : Tid}

omit [DecidableEq Tid] in
theorem start : TornInv N (Torn.start : Torn Tid) fun _ => ⟨0, 0⟩ where
  inv := Inv.start
  count := Nat.zero_lt_succ _
  word _ := rfl
  same _ _ := rfl
  half_full _ _ _ h := nomatch h
  half_slot _ _ _ _ h := nomatch h
  reads _ h := absurd h List.not_mem_nil

omit [DecidableEq Tid] in
/-- The slot of a half stored message, once its `data` has arrived. -/
theorem half_queue (h : TornInv N s queue) {msg : Message} {i : UInt16}
    (hhalf : s.half t = some (msg, i)) : queue (i.toNat % N) = msg := by
  obtain ⟨hfull, hlog⟩ := h.half_full t msg i hhalf
  have hslot := h.inv.shared.slot_full i.toNat hfull
  exact Option.some.inj (hslot.symm.trans hlog)

theorem call (h : TornInv N s queue) {c : Call Message} (hallow : s.sys.Allowed t c) :
    TornInv N { s with sys := s.sys.enter t c } queue where
  inv := h.inv.enter (s := s.sys.withQueue queue) (by cases c <;> exact hallow)
  count := h.count
  word := h.word
  same := h.same
  half_full := h.half_full
  half_slot := h.half_slot
  reads := h.reads

theorem storeData (h : TornInv N s queue) {msg : Message} {i : UInt16}
    (hhalf : s.half t = some (msg, i)) : TornInv N (s.storeData N t msg i) queue := by
  -- the other threads' halves are where they were, and in other slots
  have hother : ∀ u p, (s.storeData N t msg i).half u = some p → u ≠ t ∧ s.half u = some p := by
    intro u p hu
    simp only [Torn.storeData] at hu
    by_cases hut : u = t
    · rw [hut, Function.update_self] at hu
      cases hu
    · rw [Function.update_of_ne hut] at hu
      exact ⟨hut, hu⟩
  exact
    { inv := h.inv
      count := h.count
      word := by
        intro j
        rw [h.word]
        simp only [Torn.storeData, Sys.modifySlot]
        by_cases hj : j = i.toNat % N
        · rw [hj, Function.update_self]
        · rw [Function.update_of_ne hj]
      same := by
        intro j hwhole
        simp only [Torn.storeData, Sys.modifySlot]
        by_cases hj : j = i.toNat % N
        · rw [hj, Function.update_self, h.half_queue hhalf, ← h.word, h.half_queue hhalf]
        · rw [Function.update_of_ne hj]
          apply h.same
          intro u p hp
          by_cases hut : u = t
          · subst hut
            rw [hhalf] at hp
            cases hp
            exact Ne.symm hj
          · apply hwhole u p
            simp only [Torn.storeData, Function.update_of_ne hut]
            exact hp
      half_full := by
        intro u msg' k hu
        exact h.half_full u msg' k (hother u _ hu).2
      half_slot := by
        intro u u' p p' hu hu' hslot
        exact h.half_slot u u' p p' (hother u p hu).2 (hother u' p' hu').2 hslot
      reads := h.reads }

theorem storeMsgId (h : TornInv N s queue) (hnone : s.half t = none) {msg : Message} {i : UInt16}
    (hpc : s.sys.pc t = .enqStore msg i) :
    TornInv N (s.storeMsgId N t msg i) (Function.update queue (i.toNat % N) msg) := by
  obtain ⟨hstage, hlog⟩ : s.sys.stage i.toNat = .reserved t ∧ s.sys.log[i.toNat]? = some msg := by
    have hok := h.inv.pcOk t
    simp only [Sys.withQueue, hpc] at hok
    exact hok
  have hstep : (s.sys.withQueue queue).advance N t =
      (s.storeMsgId N t msg i).sys.withQueue (Function.update queue (i.toNat % N) msg) := by
    simp only [Sys.advance, Sys.withQueue, hpc, Pc.run]
    rfl
  -- no other message is on its way to this slot: its index would be in the same window
  have hfresh : ∀ u p, s.half u = some p → p.2.toNat % N ≠ i.toNat % N := by
    intro u p hu
    obtain ⟨hfull, -⟩ := h.half_full u p.1 p.2 hu
    have hshared := h.inv.shared
    obtain ⟨hlo, hhi⟩ := hshared.full_window hfull
    obtain ⟨hlo', hhi'⟩ := hshared.reserved_window hstage
    have hroom := hshared.room
    have hord := hshared.collected_le
    have hord' := hshared.taken_le
    have hne : p.2.toNat ≠ i.toNat := by
      intro heq
      rw [heq, hstage] at hfull
      exact hfull
    exact RingBuffer.mod_ne_of_window hlo (by omega) (by omega) (by omega) hne
  have hhalf : ∀ u p, (s.storeMsgId N t msg i).half u = some p →
      (u = t ∧ p = (msg, i)) ∨ (u ≠ t ∧ s.half u = some p) := by
    intro u p hu
    simp only [Torn.storeMsgId] at hu
    by_cases hut : u = t
    · rw [hut, Function.update_self] at hu
      exact .inl ⟨hut, (Option.some.inj hu).symm⟩
    · rw [Function.update_of_ne hut] at hu
      exact .inr ⟨hut, hu⟩
  exact
    { inv := by
        rw [← hstep]
        apply h.inv.advance
        rw [hstep]
        exact h.count
      count := h.count
      word := by
        intro j
        simp only [Torn.storeMsgId, Sys.modifySlot, Sys.record]
        by_cases hj : j = i.toNat % N
        · rw [hj, Function.update_self, Function.update_self]
        · rw [Function.update_of_ne hj, Function.update_of_ne hj]
          exact h.word j
      same := by
        intro j hwhole
        have hj : j ≠ i.toNat % N := by
          apply Ne.symm
          apply hwhole t (msg, i)
          simp only [Torn.storeMsgId, Function.update_self]
          rfl
        simp only [Torn.storeMsgId, Sys.modifySlot, Sys.record, Function.update_of_ne hj]
        apply h.same
        intro u p hp
        apply hwhole u p
        have hut : u ≠ t := by
          rintro rfl
          rw [hnone] at hp
          cases hp
        simp only [Torn.storeMsgId, Function.update_of_ne hut]
        exact hp
      half_full := by
        intro u msg' k hu
        rcases hhalf u _ hu with ⟨-, heq⟩ | ⟨-, hold⟩
        · cases heq
          refine ⟨?_, hlog⟩
          simp only [Torn.storeMsgId, Sys.record, Function.update_self]
          trivial
        · obtain ⟨hfull, hlog'⟩ := h.half_full u msg' k hold
          simp only [Torn.storeMsgId]
          refine Sys.record_full ?_ hfull hlog'
          intro heq
          cases heq
      half_slot := by
        intro u u' p p' hu hu' hslot
        rcases hhalf u p hu with ⟨hut, rfl⟩ | ⟨-, hold⟩ <;>
          rcases hhalf u' p' hu' with ⟨hut', rfl⟩ | ⟨-, hold'⟩
        · rw [hut, hut']
        · exact absurd hslot.symm (hfresh u' p' hold')
        · exact absurd hslot (hfresh u p hold)
        · exact h.half_slot u u' p p' hold hold' hslot
      reads := h.reads }

theorem releaseSlot (h : TornInv N s queue) {qr : QueueRange} {i : Nat}
    (hpc : s.sys.pc t = .releaseSlot qr i) (hwhole : s.Whole N (i % N)) :
    TornInv N { s with sys := s.sys.advance N t }
      (Function.update queue (i % N) (clear (queue (i % N)))) := by
  have hstep : (s.sys.withQueue queue).advance N t = (s.sys.advance N t).withQueue
      (Function.update queue (i % N) (clear (queue (i % N)))) := by
    simp only [Sys.advance, Sys.withQueue, hpc, Pc.run]
    rfl
  have hqueue : (s.sys.advance N t).q.queue =
      Function.update s.sys.q.queue (i % N) (clear (s.sys.q.queue (i % N))) := by
    simp only [Sys.advance, hpc, Pc.run]
    rfl
  have hlog : (s.sys.advance N t).log = s.sys.log := by
    simp only [Sys.advance, hpc, Pc.run]
    rfl
  exact
    { inv := by
        rw [← hstep]
        apply h.inv.advance
        rw [hstep]
        show (s.sys.advance N t).log.length < 65536
        rw [hlog]
        exact h.count
      count := by
        rw [hlog]
        exact h.count
      word := by
        intro j
        rw [hqueue]
        -- both queues are cleared in the slot, and agree on the first words elsewhere
        by_cases hj : j = i % N
        · rw [hj, Function.update_self, Function.update_self]
          rfl
        · rw [Function.update_of_ne hj, Function.update_of_ne hj]
          exact h.word j
      same := by
        intro j hj
        rw [hqueue, h.same _ hwhole]
        by_cases hji : j = i % N
        · rw [hji, Function.update_self, Function.update_self]
        · rw [Function.update_of_ne hji, Function.update_of_ne hji]
          exact h.same j hj
      half_full := by
        intro u msg k hu
        obtain ⟨hfull, hlog'⟩ := h.half_full u msg k hu
        -- nobody stores to the slot: it is whole
        have hk : k.toNat ≠ i := by
          intro heq
          exact hwhole u (msg, k) hu (by rw [← heq])
        simp only [Sys.advance, hpc, Pc.run]
        refine Sys.record_full ?_ hfull hlog'
        intro heq
        cases heq
        exact hk rfl
      half_slot := h.half_slot
      reads := by
        intro m hm
        rw [hlog]
        exact h.reads m hm }

theorem advance (h : TornInv N s queue) (hpc : (s.sys.pc t).writes = none)
    (hroom : ∀ msg i, s.sys.pc t = .enqCas msg i s.sys.q.qLocked → s.sys.log.length < 65535) :
    TornInv N { s with sys := s.sys.advance N t } queue := by
  obtain ⟨hstep, hqueue⟩ := Sys.advance_withQueue (N := N) hpc h.word
  have hcount : (s.sys.advance N t).log.length < 65536 := by
    rcases s.sys.advance_log (N := N) t with hsame | ⟨msg, i, hcas, hnew⟩
    · rw [hsame]
      exact h.count
    · rw [hnew, List.length_append]
      exact Nat.succ_lt_succ (hroom msg i hcas)
  exact
    { inv := by
        rw [← hstep]
        apply h.inv.advance
        rw [hstep]
        exact hcount
      count := hcount
      word := by
        rw [hqueue]
        exact h.word
      same := by
        rw [hqueue]
        exact h.same
      half_full := by
        intro u msg k hu
        obtain ⟨hfull, hlog⟩ := h.half_full u msg k hu
        exact Sys.record_full ((Pc.run_event hpc).2 _) hfull hlog
      half_slot := h.half_slot
      reads := by
        intro m hm
        have hmem := h.reads m hm
        rcases s.sys.advance_log (N := N) t with hsame | ⟨msg, i, -, hnew⟩
        · rw [hsame]
          exact hmem
        · rw [hnew]
          exact List.mem_append_left _ hmem }

omit [DecidableEq Tid] in
theorem read (h : TornInv N s queue) {qr : QueueRange} {i : Nat} (hheld : qr ∈ s.sys.held t)
    (hi : qr.Has i) (hwhole : s.Whole N (i % N)) :
    TornInv N { s with reads := s.reads ++ [s.sys.q.queue (i % N)] } queue where
  inv := h.inv
  count := h.count
  word := h.word
  same := h.same
  half_full := h.half_full
  half_slot := h.half_slot
  reads := by
    intro m hm
    rcases List.mem_append.mp hm with hold | hnew
    · exact h.reads m hold
    · rw [List.mem_singleton.mp hnew, h.same _ hwhole]
      have hstage := (h.inv.heldOk t).1 qr hheld i hi
      have hslot := h.inv.shared.slot_full i (by rw [hstage]; trivial)
      exact List.mem_of_getElem? hslot

/-- Every settled step keeps the invariant. -/
theorem step (h : ∃ queue, TornInv N s queue) {op : TornOp Tid} (hset : s.Settled N op)
    (hs : s.step N op = some s') : ∃ queue, TornInv N s' queue := by
  obtain ⟨queue, h⟩ := h
  cases op with
  | call t c =>
    simp only [Torn.step] at hs
    split at hs
    case isTrue hen =>
      cases hs
      exact ⟨queue, h.call hen.2.2⟩
    case isFalse => cases hs
  | access t =>
    simp only [Torn.step] at hs
    split at hs
    case h_1 msg i hhalf =>
      cases hs
      exact ⟨queue, h.storeData hhalf⟩
    case h_2 hnone =>
      simp only [Torn.Settled] at hset
      split at hs
      case h_1 => cases hs
      case h_2 msg i hpc =>
        cases hs
        exact ⟨_, h.storeMsgId hnone hpc⟩
      case h_3 hnot hstore =>
        cases hs
        -- the other access that stores to a slot is the one of `release`
        cases hw : (s.sys.pc t).writes with
        | none =>
          refine ⟨queue, h.advance hw ?_⟩
          intro msg i hcas
          rw [hcas] at hset
          exact hset rfl
        | some k =>
          rcases Pc.of_writes hw with ⟨msg, i, hpc⟩ | ⟨qr, hpc⟩
          · exact absurd hpc (hstore msg i)
          · rw [hpc] at hset
            exact ⟨_, h.releaseSlot hpc hset⟩
  | read t qr i =>
    simp only [Torn.step] at hs
    split at hs
    case isTrue hen =>
      cases hs
      obtain ⟨-, -, hheld, hi⟩ := hen
      exact ⟨queue, h.read hheld hi hset⟩
    case isFalse => cases hs

end TornInv

/-- **Every message read was enqueued as it is**, in every run whose reads and releases find whole
slots and whose indices do not wrap. -/
theorem reads_whole (N : Nat) (ops : List (TornOp Tid))
    (h : (torn Tid N).Steps (Torn.Settled N) Torn.start ops) :
    (torn Tid N).States Torn.Faithful Torn.start ops := by
  apply Machine.states_of_steps (I := fun s => ∃ queue, TornInv N s queue) _ _
    ⟨_, TornInv.start⟩ h
  · rintro s ⟨queue, hs⟩
    exact hs.reads
  · intro s op s' hs hset hstep
    exact TornInv.step hs hset hstep

/-- Thread `t` enqueues a message as far as its `msg_id`, and thread `u` gathers and dequeues it. -/
def halfEnqueued {Tid : Type} (t u : Tid) : List (TornOp Tid) :=
  [.call t (.enqueue ⟨7, 1⟩), .access t, .access t, .access t, .call u .gatherNewData] ++
    List.replicate 7 (.access u) ++ [.call u (.dequeue 10), .access u, .access u]

/-- The producer comes in time: `data` is stored before the message is read and released. -/
theorem completed_read_whole :
    (torn (Fin 2) 16).Steps (Torn.Settled 16) Torn.start
        (halfEnqueued 0 1 ++ [.access 0, .read 1 ⟨0, 1⟩ 0, .call 1 (.release ⟨0, 1⟩), .access 1]) ∧
      (torn (Fin 2) 16).States Torn.Faithful Torn.start
        (halfEnqueued 0 1 ++ [.access 0, .read 1 ⟨0, 1⟩ 0, .call 1 (.release ⟨0, 1⟩), .access 1]) :=
  have h : (torn (Fin 2) 16).Steps (Torn.Settled 16) Torn.start
      (halfEnqueued 0 1 ++ [.access 0, .read 1 ⟨0, 1⟩ 0, .call 1 (.release ⟨0, 1⟩), .access 1]) := by
    decide +kernel
  ⟨h, reads_whole 16 _ h⟩

/-- **A half written message is published**: thread 1 reads a message with the `data` that the slot
held before. -/
theorem half_read :
    ¬ (torn (Fin 2) 16).States Torn.Faithful Torn.start (halfEnqueued 0 1 ++ [.read 1 ⟨0, 1⟩ 0]) := by
  intro h
  have hlast : ((torn (Fin 2) 16).exec Torn.start (halfEnqueued 0 1 ++ [.read 1 ⟨0, 1⟩ 0])).map
      (fun s => (s.reads, s.sys.log)) = some ([⟨7, 0⟩], [⟨7, 1⟩]) := by decide +kernel
  obtain ⟨s, hrun, hs⟩ := Option.map_eq_some_iff.mp hlast
  obtain ⟨hreads, hlog⟩ := Prod.mk.inj hs
  have hmem := h.last hrun ⟨7, 0⟩ (by rw [hreads]; exact List.mem_singleton_self _)
  rw [hlog] at hmem
  exact absurd hmem (by decide)

end Shipwreck.Queue
