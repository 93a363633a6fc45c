import Shipwreck.Queue.Concurrent
import Mathlib.Data.List.Pairwise

/-!
# No message is lost, duplicated or overwritten

The inductive invariant of `system` while no index has wrapped. It has three parts.

* `Shared` ties the four indices to the life cycle of every index and to the content of its slot.
* `PcOk` is what a thread inside a call knows; `HeldOk` is what it knows of the ranges it holds.
* `Locked` says that at most one thread is inside each of the two critical sections.

A step of one thread keeps what the others know because it only changes the shared data in the
ways `Rely` allows; each kind of change is treated once, as a lemma about `Shared`.
-/

namespace Shipwreck.Queue

open CInt (toUint)

variable {Tid T : Type}

/-- The slot of an index in this stage holds the message of that index. -/
def Stage.Full : Stage Tid → Prop
  | .written => True
  | .held _ => True
  | _ => False

/-- The indices, the life cycle of every index and the slots, as they hang together. -/
structure Shared [Slot T] (N : Nat) (q : SharedQueue T) (log : List T) (stage : Nat → Stage Tid)
    (taken : List QueueRange) : Prop where
  collected_le : q.qLocked.head.toNat ≤ q.qSafe.head.toNat
  taken_le : q.qSafe.head.toNat ≤ q.qSafe.tail.toNat
  gathered_le : q.qSafe.tail.toNat ≤ q.qLocked.tail.toNat
  room : q.qLocked.tail.toNat ≤ q.qLocked.head.toNat + N
  log_length : log.length = q.qLocked.tail.toNat
  fresh : ∀ i, q.qLocked.tail.toNat ≤ i → stage i = .fresh
  pending : ∀ i, q.qSafe.tail.toNat ≤ i → i < q.qLocked.tail.toNat →
    stage i = .written ∨ ∃ t, stage i = .reserved t
  gathered : ∀ i, q.qSafe.head.toNat ≤ i → i < q.qSafe.tail.toNat → stage i = .written
  consumed : ∀ i, q.qLocked.head.toNat ≤ i → i < q.qSafe.head.toNat →
    stage i = .freed ∨ ∃ t, stage i = .held t
  collected : ∀ i, i < q.qLocked.head.toNat → stage i = .freed
  word_log : ∀ m ∈ log, word m ≠ 0
  slot_full : ∀ i, (stage i).Full → log[i]? = some (q.queue (i % N))
  slot_free : ∀ i, q.qLocked.head.toNat ≤ i → i < q.qLocked.head.toNat + N → ¬ (stage i).Full →
    word (q.queue (i % N)) = 0
  taken_within : ∀ r ∈ taken, ∀ i, r.Has i → i < q.qSafe.head.toNat
  taken_disjoint : taken.Pairwise QueueRange.Disjoint
  taken_cover : ∀ i, i < q.qSafe.head.toNat → ∃ r ∈ taken, r.Has i

namespace Shared

variable [Slot T] {N : Nat} {q : SharedQueue T} {log : List T} {stage : Nat → Stage Tid}
  {taken : List QueueRange}

/-- A full slot belongs to an index between the collector and the gatherer's horizon. -/
theorem full_window (h : Shared N q log stage taken) {i : Nat} (hf : (stage i).Full) :
    q.qLocked.head.toNat ≤ i ∧ i < q.qLocked.tail.toNat := by
  refine ⟨?_, ?_⟩
  · by_contra hlt
    rw [h.collected i (by omega)] at hf
    exact hf
  · by_contra hge
    rw [h.fresh i (by omega)] at hf
    exact hf

theorem held_window (h : Shared N q log stage taken) {i : Nat} {t : Tid} (hs : stage i = .held t) :
    q.qLocked.head.toNat ≤ i ∧ i < q.qSafe.head.toNat := by
  have hfull : (stage i).Full := by rw [hs]; trivial
  obtain ⟨hlo, hhi⟩ := h.full_window hfull
  refine ⟨hlo, ?_⟩
  by_contra hge
  by_cases hst : i < q.qSafe.tail.toNat
  · rw [h.gathered i (by omega) hst] at hs
    cases hs
  · rcases h.pending i (by omega) hhi with hw | ⟨u, hu⟩
    · rw [hw] at hs; cases hs
    · rw [hu] at hs; cases hs

theorem reserved_window (h : Shared N q log stage taken) {i : Nat} {t : Tid}
    (hs : stage i = .reserved t) : q.qSafe.tail.toNat ≤ i ∧ i < q.qLocked.tail.toNat := by
  have hlt : i < q.qLocked.tail.toNat := by
    by_contra hge
    rw [h.fresh i (by omega)] at hs
    cases hs
  refine ⟨?_, hlt⟩
  by_contra hge
  by_cases hh : i < q.qSafe.head.toNat
  · by_cases hl : i < q.qLocked.head.toNat
    · rw [h.collected i hl] at hs; cases hs
    · rcases h.consumed i (by omega) hh with hf | ⟨u, hu⟩
      · rw [hf] at hs; cases hs
      · rw [hu] at hs; cases hs
  · rw [h.gathered i (by omega) (by omega)] at hs
    cases hs

/-! ### The six ways the shared data change -/

/-- A producer wins the compare-and-swap and reserves the next index. -/
theorem reserve (h : Shared N q log stage taken) {t : Tid} {msg : T} (hw : word msg ≠ 0)
    (hroom : q.qLocked.tail.toNat + 1 ≤ q.qLocked.head.toNat + N)
    (hwrap : q.qLocked.tail.toNat + 1 < 65536) :
    Shared N { q with qLocked := { q.qLocked with tail := q.qLocked.tail + 1 } } (log ++ [msg])
      (Function.update stage log.length (.reserved t)) taken := by
  have htail := toNat_succ hwrap
  have hlen := h.log_length
  have hg := h.gathered_le
  have hne : ∀ i, i < q.qLocked.tail.toNat →
      Function.update stage log.length (.reserved t) i = stage i := by
    intro i hi
    exact Function.update_of_ne (by omega) _ _
  refine
    { collected_le := h.collected_le, taken_le := h.taken_le, gathered_le := by simp only; omega
      room := by simp only; omega, log_length := by simp [htail, hlen]
      fresh := ?_, pending := ?_, gathered := ?_, consumed := ?_, collected := ?_
      word_log := ?_, slot_full := ?_, slot_free := ?_, taken_within := h.taken_within
      taken_disjoint := h.taken_disjoint, taken_cover := h.taken_cover }
  · intro i hi
    simp only [htail] at hi
    rw [Function.update_of_ne (by omega)]
    exact h.fresh i (by omega)
  · intro i hlo hhi
    simp only [htail] at hlo hhi
    by_cases hi : i = log.length
    · subst hi
      exact .inr ⟨t, Function.update_self ..⟩
    · rw [hne i (by omega)]
      exact h.pending i hlo (by omega)
  · intro i hlo hhi
    rw [hne i (by simp only at hhi; omega)]
    exact h.gathered i hlo hhi
  · intro i hlo hhi
    have := h.taken_le
    rw [hne i (by simp only at hhi; omega)]
    exact h.consumed i hlo hhi
  · intro i hi
    have := h.taken_le
    have := h.collected_le
    rw [hne i (by simp only at hi; omega)]
    exact h.collected i hi
  · intro m hm
    rcases List.mem_append.mp hm with hm | hm
    · exact h.word_log m hm
    · rw [List.mem_singleton.mp hm]
      exact hw
  · intro i hf
    -- the new index is reserved, and its slot is still marked free
    by_cases hi : i = log.length
    · rw [hi, Function.update_self] at hf
      exact hf.elim
    · rw [Function.update_of_ne hi] at hf
      have hlt := (h.full_window hf).2
      rw [List.getElem?_append_left (by omega)]
      exact h.slot_full i hf
  · intro i hlo hhi hf
    refine h.slot_free i hlo hhi ?_
    by_cases hi : i = log.length
    · rw [hi, h.fresh _ (by omega)]
      exact id
    · rwa [Function.update_of_ne hi] at hf

/-- The slot of an index between the collector and the horizon is stored to. -/
theorem setSlot (h : Shared N q log stage taken) {i : Nat} {slot : T} {new : Stage Tid}
    (hlo : q.qLocked.head.toNat ≤ i) (hhi : i < q.qLocked.tail.toNat)
    (hpending : q.qSafe.tail.toNat ≤ i → new = .written ∨ ∃ t, new = .reserved t)
    (hgathered : q.qSafe.head.toNat ≤ i → i < q.qSafe.tail.toNat → new = .written)
    (hconsumed : i < q.qSafe.head.toNat → new = .freed ∨ ∃ t, new = .held t)
    (hfull : new.Full → log[i]? = some slot) (hfree : ¬ new.Full → word slot = 0) :
    Shared N { q with queue := Function.update q.queue (i % N) slot } log
      (Function.update stage i new) taken := by
  have hroom := h.room
  -- the window is no longer than the ring: no other index of it has this slot
  have hother : ∀ j, q.qLocked.head.toNat ≤ j → j < q.qLocked.head.toNat + N → j ≠ i →
      Function.update q.queue (i % N) slot (j % N) = q.queue (j % N) := by
    intro j hj hj' hji
    exact Function.update_of_ne
      (RingBuffer.mod_ne_of_window hj hj' hlo (by omega) hji) _ _
  refine
    { collected_le := h.collected_le, taken_le := h.taken_le, gathered_le := h.gathered_le
      room := hroom, log_length := h.log_length
      fresh := ?_, pending := ?_, gathered := ?_, consumed := ?_, collected := ?_
      word_log := h.word_log, slot_full := ?_, slot_free := ?_, taken_within := h.taken_within
      taken_disjoint := h.taken_disjoint, taken_cover := h.taken_cover }
  · intro j hj
    rw [Function.update_of_ne (by simp only at hj; omega)]
    exact h.fresh j hj
  · intro j hj hj'
    by_cases hji : j = i
    · subst hji
      rw [Function.update_self]
      exact hpending hj
    · rw [Function.update_of_ne hji]
      exact h.pending j hj hj'
  · intro j hj hj'
    by_cases hji : j = i
    · subst hji
      rw [Function.update_self]
      exact hgathered hj hj'
    · rw [Function.update_of_ne hji]
      exact h.gathered j hj hj'
  · intro j hj hj'
    by_cases hji : j = i
    · subst hji
      rw [Function.update_self]
      exact hconsumed hj'
    · rw [Function.update_of_ne hji]
      exact h.consumed j hj hj'
  · intro j hj
    rw [Function.update_of_ne (by simp only at hj; omega)]
    exact h.collected j hj
  · intro j hf
    by_cases hji : j = i
    · subst hji
      rw [Function.update_self] at hf
      simp only [Function.update_self]
      exact hfull hf
    · rw [Function.update_of_ne hji] at hf
      obtain ⟨hw, hw'⟩ := h.full_window hf
      simp only
      rw [hother j hw (by omega) hji]
      exact h.slot_full j hf
  · intro j hj hj' hf
    by_cases hji : j = i
    · subst hji
      rw [Function.update_self] at hf
      simp only [Function.update_self]
      exact hfree hf
    · rw [Function.update_of_ne hji] at hf
      simp only
      rw [hother j hj hj' hji]
      exact h.slot_free j hj hj' hf

/-- The producer of index `i` stores its message. -/
theorem store (h : Shared N q log stage taken) {t : Tid} {msg : T} {i : Nat}
    (hs : stage i = .reserved t) (hm : log[i]? = some msg) :
    Shared N { q with queue := Function.update q.queue (i % N) msg } log
      (Function.update stage i .written) taken := by
  obtain ⟨hlo, hhi⟩ := h.reserved_window hs
  have hc := h.collected_le
  have ht := h.taken_le
  apply h.setSlot (by omega) hhi (fun _ => .inl rfl) (fun _ _ => rfl)
  · intro htaken
    exact absurd hlo (by omega)
  · exact fun _ => hm
  · exact fun hfree => absurd trivial hfree

/-- The gatherer, having seen the slot of index `q_safe.tail` marked, moves past it. -/
theorem gather (h : Shared N q log stage taken) (hlt : q.qSafe.tail.toNat < q.qLocked.tail.toNat)
    (hw : stage q.qSafe.tail.toNat = .written) :
    Shared N { q with qSafe := { q.qSafe with tail := q.qSafe.tail + 1 } } log stage taken := by
  have hlast := q.qLocked.tail.toNat_lt
  have htail : (q.qSafe.tail + 1).toNat = q.qSafe.tail.toNat + 1 := toNat_succ (by omega)
  have ht := h.taken_le
  refine
    { collected_le := h.collected_le, taken_le := by simp only; omega
      gathered_le := by simp only; omega
      room := h.room, log_length := h.log_length, fresh := h.fresh, pending := ?_, gathered := ?_
      consumed := h.consumed, collected := h.collected
      word_log := h.word_log, slot_full := h.slot_full, slot_free := h.slot_free
      taken_within := h.taken_within, taken_disjoint := h.taken_disjoint
      taken_cover := h.taken_cover }
  · intro i hlo hhi
    exact h.pending i (by simp only [htail] at hlo; omega) hhi
  · intro i hlo hhi
    simp only [htail] at hlo hhi
    by_cases hi : i = q.qSafe.tail.toNat
    · rw [hi, hw]
    · exact h.gathered i hlo (by omega)

/-- A consumer wins the compare-and-swap and takes the next `num` gathered indices. -/
theorem take (h : Shared N q log stage taken) {t : Tid} {num : Nat}
    (hnum : q.qSafe.head.toNat + num ≤ q.qSafe.tail.toNat) :
    Shared N { q with qSafe := { q.qSafe with head := q.qSafe.head + UInt16.ofNat num } } log
      (fun i => if (QueueRange.mk q.qSafe.head (q.qSafe.head + UInt16.ofNat num)).Has i
        then .held t else stage i)
      (⟨q.qSafe.head, q.qSafe.head + UInt16.ofNat num⟩ :: taken) := by
  have hlast := q.qSafe.tail.toNat_lt
  have hhead : (q.qSafe.head + UInt16.ofNat num).toNat = q.qSafe.head.toNat + num :=
    toNat_add_ofNat (by omega)
  have hg := h.gathered_le
  have hc := h.collected_le
  have hhas : ∀ i, (QueueRange.mk q.qSafe.head (q.qSafe.head + UInt16.ofNat num)).Has i ↔
      q.qSafe.head.toNat ≤ i ∧ i < q.qSafe.head.toNat + num := by
    intro i
    rw [QueueRange.Has, hhead]
  simp only [hhas]
  refine
    { collected_le := by simp only; omega, taken_le := by simp only; omega, gathered_le := hg
      room := h.room, log_length := h.log_length, fresh := ?_, pending := ?_, gathered := ?_
      consumed := ?_, collected := ?_
      word_log := h.word_log, slot_full := ?_, slot_free := ?_
      taken_within := ?_, taken_disjoint := ?_, taken_cover := ?_ }
  · intro i hi
    simp only at hi
    rw [if_neg (by omega)]
    exact h.fresh i hi
  · intro i hlo hhi
    simp only at hlo
    rw [if_neg (by omega)]
    exact h.pending i hlo hhi
  · intro i hlo hhi
    simp only [hhead] at hlo
    rw [if_neg (by omega)]
    exact h.gathered i (by omega) hhi
  · intro i hlo hhi
    simp only [hhead] at hlo hhi
    by_cases hi : q.qSafe.head.toNat ≤ i
    · rw [if_pos ⟨hi, hhi⟩]
      exact .inr ⟨t, rfl⟩
    · rw [if_neg (by omega)]
      exact h.consumed i hlo (by omega)
  · intro i hi
    simp only at hi
    rw [if_neg (by omega)]
    exact h.collected i hi
  · intro i hf
    by_cases hi : q.qSafe.head.toNat ≤ i ∧ i < q.qSafe.head.toNat + num
    · -- what is taken has been gathered, and is in its slot
      refine h.slot_full i ?_
      rw [h.gathered i hi.1 (by omega)]
      trivial
    · rw [if_neg hi] at hf
      exact h.slot_full i hf
  · intro i hlo hhi hf
    by_cases hi : q.qSafe.head.toNat ≤ i ∧ i < q.qSafe.head.toNat + num
    · rw [if_pos hi] at hf
      exact absurd trivial hf
    · rw [if_neg hi] at hf
      exact h.slot_free i hlo hhi hf
  · intro r hr i hi
    simp only [hhead]
    rcases List.mem_cons.mp hr with rfl | hr
    · exact ((hhas i).mp hi).2
    · have := h.taken_within r hr i hi
      omega
  · refine List.pairwise_cons.mpr ⟨?_, h.taken_disjoint⟩
    intro r hr i hi hi'
    -- the older ranges end before `q_safe.head`
    have := h.taken_within r hr i hi'
    have := ((hhas i).mp hi).1
    omega
  · intro i hi
    simp only [hhead] at hi
    by_cases hlo : q.qSafe.head.toNat ≤ i
    · exact ⟨_, List.mem_cons_self, (hhas i).mpr ⟨hlo, hi⟩⟩
    · obtain ⟨r, hr, hri⟩ := h.taken_cover i (by omega)
      exact ⟨r, List.mem_cons_of_mem _ hr, hri⟩

/-- A `dequeue` that returns the range `{0, 0}` has taken nothing. -/
theorem take_empty (h : Shared N q log stage taken) :
    Shared N q log stage (QueueRange.empty :: taken) := by
  refine { h with taken_within := ?_, taken_disjoint := ?_, taken_cover := ?_ }
  · intro r hr i hi
    rcases List.mem_cons.mp hr with rfl | hr
    · exact absurd hi (QueueRange.not_has_empty i)
    · exact h.taken_within r hr i hi
  · refine List.pairwise_cons.mpr ⟨?_, h.taken_disjoint⟩
    intro r _ i hi
    exact absurd hi (QueueRange.not_has_empty i)
  · intro i hi
    obtain ⟨r, hr, hri⟩ := h.taken_cover i hi
    exact ⟨r, List.mem_cons_of_mem _ hr, hri⟩

/-- The consumer holding index `i` zeroes the first word of its slot. -/
theorem free (h : Shared N q log stage taken) {t : Tid} {i : Nat} (hs : stage i = .held t) :
    Shared N { q with queue := Function.update q.queue (i % N) (clear (q.queue (i % N))) } log
      (Function.update stage i .freed) taken := by
  obtain ⟨hlo, hhi⟩ := h.held_window hs
  have ht := h.taken_le
  have hg := h.gathered_le
  apply h.setSlot hlo (by omega)
  · intro hpending
    exact absurd hpending (by omega)
  · intro hgathered
    exact absurd hgathered (by omega)
  · exact fun _ => .inl rfl
  · exact fun hfull => hfull.elim
  · exact fun _ => Slot.word_clear _

/-- The collector, having seen the slot of index `q_locked.head` cleared, moves past it. -/
theorem collect (h : Shared N q log stage taken)
    (hlt : q.qLocked.head.toNat < q.qSafe.head.toNat)
    (hf : stage q.qLocked.head.toNat = .freed) :
    Shared N { q with qLocked := { q.qLocked with head := q.qLocked.head + 1 } } log stage
      taken := by
  have hlast := q.qSafe.head.toNat_lt
  have hhead : (q.qLocked.head + 1).toNat = q.qLocked.head.toNat + 1 := toNat_succ (by omega)
  have ht := h.taken_le
  have hg := h.gathered_le
  have hroom := h.room
  refine
    { collected_le := by simp only; omega, taken_le := ht, gathered_le := hg
      room := by simp only; omega
      log_length := h.log_length, fresh := h.fresh, pending := h.pending, gathered := h.gathered
      consumed := ?_, collected := ?_
      word_log := h.word_log, slot_full := h.slot_full, slot_free := ?_
      taken_within := h.taken_within, taken_disjoint := h.taken_disjoint
      taken_cover := h.taken_cover }
  · intro i hlo hhi
    exact h.consumed i (by simp only [hhead] at hlo; omega) hhi
  · intro i hi
    simp only [hhead] at hi
    by_cases hi' : i = q.qLocked.head.toNat
    · rw [hi', hf]
    · exact h.collected i (by omega)
  · intro i hlo hhi hfull
    simp only [hhead] at hlo hhi
    by_cases hi : i = q.qLocked.head.toNat + N
    · -- the new index of the window takes over the slot of the collected one
      have hslot := h.slot_free q.qLocked.head.toNat (Nat.le_refl _) (by omega) (by rw [hf]; exact id)
      rw [hi, Nat.add_mod_right]
      exact hslot
    · exact h.slot_free i (by omega) (by omega) hfull

end Shared

/-! ## What the threads know -/

/-- The thread is between winning `safe_tail_mtx` and giving it back. -/
def Pc.inGather : Pc T → Bool
  | .gatherLockedTail | .gatherSafeTail _ | .gatherIndex .. | .gatherTest .. | .gatherIncr ..
  | .gatherUnlock => true
  | _ => false

/-- The thread is between winning `locked_head_mtx` and giving it back. -/
def Pc.inGc : Pc T → Bool
  | .gcSafeHead | .gcLockedHead _ | .gcIndex .. | .gcTest .. | .gcIncr .. | .gcUnlock => true
  | _ => false

/-- The gatherer still has `qSize - newFound` reserved indices in front of it. -/
def GatherOk (s : Sys Tid T) (newFound : Nat) (qSize : Int) : Prop :=
  (newFound : Int) < qSize ∧ qSize ≤ 65535 ∧
    (s.q.qSafe.tail.toNat : Int) + (qSize - newFound) ≤ s.q.qLocked.tail.toNat

/-- The collector still has `qSize - i` consumed indices in front of it. -/
def GcOk (s : Sys Tid T) (i : Nat) (qSize : Int) : Prop :=
  (i : Int) < qSize ∧ (s.q.qLocked.head.toNat : Int) + (qSize - i) ≤ s.q.qSafe.head.toNat

/-- What thread `t` knows in front of its next access. -/
def PcOk [Slot T] (N : Nat) (s : Sys Tid T) (t : Tid) : Pc T → Prop
  | .enqSnapshot msg _ => word msg ≠ 0
  | .enqCas msg _ qTmp => word msg ≠ 0 ∧ toUint (qTmp.size + 1) ≤ N
  | .enqStore msg myIndex =>
    s.stage myIndex.toNat = .reserved t ∧ s.log[myIndex.toNat]? = some msg
  | .gatherSafeTail lockedTail =>
    s.q.qSafe.tail.toNat ≤ lockedTail.toNat ∧ lockedTail.toNat ≤ s.q.qLocked.tail.toNat
  | .gatherIndex newFound qSize => GatherOk s newFound qSize
  | .gatherTest newFound qSize index => GatherOk s newFound qSize ∧ index = s.q.qSafe.tail
  | .gatherIncr newFound qSize =>
    GatherOk s newFound qSize ∧ s.stage s.q.qSafe.tail.toNat = .written
  | .deqCas num _ qTmp => qTmp.head.toNat + num ≤ qTmp.tail.toNat
  | .releaseSlot qr i =>
    i < qr.tail.toNat ∧
      ∀ j, i ≤ j → j < qr.tail.toNat → s.stage j = .held t ∧ ∀ r ∈ s.held t, ¬ r.Has j
  | .gcLockedHead safeHead =>
    s.q.qLocked.head.toNat ≤ safeHead.toNat ∧ safeHead.toNat ≤ s.q.qSafe.head.toNat
  | .gcIndex i qSize => GcOk s i qSize
  | .gcTest i qSize index => GcOk s i qSize ∧ index = s.q.qLocked.head
  | .gcIncr i qSize => GcOk s i qSize ∧ s.stage s.q.qLocked.head.toNat = .freed
  | _ => True

/-- What thread `t` knows of the ranges it holds. -/
def HeldOk (s : Sys Tid T) (t : Tid) : Prop :=
  (∀ r ∈ s.held t, ∀ i, r.Has i → s.stage i = .held t) ∧ (s.held t).Pairwise QueueRange.Disjoint

/-- How a step of another thread may change what thread `t` can see. -/
structure Rely (t : Tid) (s s' : Sys Tid T) : Prop where
  pc : s'.pc t = s.pc t
  held : s'.held t = s.held t
  log : ∀ (i : Nat) (m : T), s.log[i]? = some m → s'.log[i]? = some m
  locked_tail : s.q.qLocked.tail.toNat ≤ s'.q.qLocked.tail.toNat
  safe_head : s.q.qSafe.head.toNat ≤ s'.q.qSafe.head.toNat
  safe_tail : (s.pc t).inGather → s'.q.qSafe.tail = s.q.qSafe.tail
  locked_head : (s.pc t).inGc → s'.q.qLocked.head = s.q.qLocked.head
  stage_reserved : ∀ i, s.stage i = .reserved t → s'.stage i = .reserved t
  stage_held : ∀ i, s.stage i = .held t → s'.stage i = .held t
  stage_freed : ∀ i, s.stage i = .freed → s'.stage i = .freed
  stage_written : ∀ i, s.q.qSafe.tail.toNat ≤ i → s.stage i = .written → s'.stage i = .written

/-- What a thread knows survives the steps of the others. -/
theorem PcOk.of_rely [Slot T] {N : Nat} {s s' : Sys Tid T} {t : Tid} (h : PcOk N s t (s.pc t))
    (hr : Rely t s s') : PcOk N s' t (s'.pc t) := by
  have htail := hr.safe_tail
  have hhead := hr.locked_head
  have hlt := hr.locked_tail
  have hsh := hr.safe_head
  rw [hr.pc]
  generalize s.pc t = pc at h htail hhead
  cases pc with
  | enqStore msg myIndex =>
    exact ⟨hr.stage_reserved _ h.1, hr.log _ _ h.2⟩
  | gatherSafeTail lockedTail =>
    simp only [PcOk, htail rfl] at h ⊢
    omega
  | gatherIndex newFound qSize =>
    simp only [PcOk, GatherOk, htail rfl] at h ⊢
    omega
  | gatherTest newFound qSize index =>
    simp only [PcOk, GatherOk, htail rfl] at h ⊢
    exact ⟨by omega, h.2⟩
  | gatherIncr newFound qSize =>
    simp only [PcOk, GatherOk, htail rfl] at h ⊢
    exact ⟨by omega, hr.stage_written _ (Nat.le_refl _) h.2⟩
  | releaseSlot qr i =>
    refine ⟨h.1, ?_⟩
    intro j hj hj'
    obtain ⟨hs, hd⟩ := h.2 j hj hj'
    exact ⟨hr.stage_held j hs, by rwa [hr.held]⟩
  | gcLockedHead safeHead =>
    simp only [PcOk, hhead rfl] at h ⊢
    omega
  | gcIndex i qSize =>
    simp only [PcOk, GcOk, hhead rfl] at h ⊢
    omega
  | gcTest i qSize index =>
    simp only [PcOk, GcOk, hhead rfl] at h ⊢
    exact ⟨by omega, h.2⟩
  | gcIncr i qSize =>
    simp only [PcOk, GcOk, hhead rfl] at h ⊢
    exact ⟨by omega, hr.stage_freed _ h.2⟩
  | _ => exact h

theorem HeldOk.of_rely {s s' : Sys Tid T} {t : Tid} (h : HeldOk s t) (hr : Rely t s s') :
    HeldOk s' t := by
  rw [HeldOk, hr.held]
  refine ⟨?_, h.2⟩
  intro r hrm i hi
  exact hr.stage_held i (h.1 r hrm i hi)

/-- A thread gets one more range. -/
theorem HeldOk.cons {s s' : Sys Tid T} {t : Tid} {qr : QueueRange} (h : HeldOk s t)
    (hheld : s'.held t = qr :: s.held t) (hnew : ∀ i, qr.Has i → s'.stage i = .held t)
    (hkeep : ∀ i, s.stage i = .held t → s'.stage i = .held t)
    (hother : ∀ i, qr.Has i → s.stage i ≠ .held t) : HeldOk s' t := by
  rw [HeldOk, hheld]
  refine ⟨?_, List.pairwise_cons.mpr ⟨?_, h.2⟩⟩
  · intro r hr i hi
    rcases List.mem_cons.mp hr with rfl | hr
    · exact hnew i hi
    · exact hkeep i (h.1 r hr i hi)
  · intro r hr i hi hi'
    exact hother i hi (h.1 r hr i hi')

/-! ## Loop heads -/

@[simp] theorem Pc.inGather_gatherLoop (newFound : Nat) (qSize : Int) :
    (Pc.gatherLoop newFound qSize : Pc T).inGather = true := by
  unfold Pc.gatherLoop
  split <;> rfl

@[simp] theorem Pc.inGc_gatherLoop (newFound : Nat) (qSize : Int) :
    (Pc.gatherLoop newFound qSize : Pc T).inGc = false := by
  unfold Pc.gatherLoop
  split <;> rfl

@[simp] theorem Pc.inGc_gcLoop (i : Nat) (qSize : Int) :
    (Pc.gcLoop i qSize : Pc T).inGc = true := by
  unfold Pc.gcLoop
  split <;> rfl

@[simp] theorem Pc.inGather_gcLoop (i : Nat) (qSize : Int) :
    (Pc.gcLoop i qSize : Pc T).inGather = false := by
  unfold Pc.gcLoop
  split <;> rfl

@[simp] theorem Pc.inGather_releaseLoop (qr : QueueRange) (i : Nat) :
    (Pc.releaseLoop qr i : Pc T).inGather = false := by
  unfold Pc.releaseLoop
  split <;> rfl

@[simp] theorem Pc.inGc_releaseLoop (qr : QueueRange) (i : Nat) :
    (Pc.releaseLoop qr i : Pc T).inGc = false := by
  unfold Pc.releaseLoop
  split <;> rfl

section

variable [Slot T] {N : Nat} {s : Sys Tid T} {t : Tid}

theorem pcOk_gatherLoop {newFound : Nat} {qSize : Int} (h0 : 0 ≤ qSize) (h1 : qSize ≤ 65535)
    (h : (s.q.qSafe.tail.toNat : Int) + (qSize - newFound) ≤ s.q.qLocked.tail.toNat) :
    PcOk N s t (.gatherLoop newFound qSize) := by
  unfold Pc.gatherLoop
  split
  · rename_i hlt
    unfold toUint at hlt
    exact ⟨by omega, h1, h⟩
  · trivial

theorem pcOk_gcLoop {i : Nat} {qSize : Int}
    (h : (s.q.qLocked.head.toNat : Int) + (qSize - i) ≤ s.q.qSafe.head.toNat) :
    PcOk N s t (.gcLoop i qSize) := by
  unfold Pc.gcLoop
  split
  · rename_i hlt
    exact ⟨hlt, h⟩
  · trivial

theorem pcOk_releaseLoop {qr : QueueRange} {i : Nat}
    (h : ∀ j, i ≤ j → j < qr.tail.toNat → s.stage j = .held t ∧ ∀ r ∈ s.held t, ¬ r.Has j) :
    PcOk N s t (.releaseLoop qr i) := by
  unfold Pc.releaseLoop
  split
  · rename_i hlt
    exact ⟨hlt, h⟩
  · trivial

end

/-! ## The two test-and-set locks -/

/-- While some thread is inside (`inside t`) the lock word is set and nobody else is. -/
def Locked (mtx : Nat) (inside : Tid → Bool) : Prop :=
  ∀ t, inside t → mtx ≠ 0 ∧ ∀ u, inside u → u = t

namespace Locked

variable {mtx : Nat} {inside inside' : Tid → Bool}

theorem mono (h : Locked mtx inside) (hsub : ∀ u, inside' u → inside u) : Locked mtx inside' := by
  intro t ht
  obtain ⟨hm, hu⟩ := h t (hsub t ht)
  exact ⟨hm, fun u hu' => hu u (hsub u hu')⟩

/-- A failed test-and-set lets nobody in. -/
theorem busy (h : Locked mtx inside) (hsub : ∀ u, inside' u → inside u) : Locked 1 inside' := by
  intro t ht
  exact ⟨Nat.one_ne_zero, fun u hu => (h t (hsub t ht)).2 u (hsub u hu)⟩

/-- A successful test-and-set finds nobody inside. -/
theorem acquire (h : Locked 0 inside) {t : Tid} (hother : ∀ u, u ≠ t → inside' u = inside u) :
    Locked 1 inside' := by
  have hnone : ∀ u, u ≠ t → ¬ inside' u := by
    intro u hu hin
    rw [hother u hu] at hin
    exact (h u hin).1 rfl
  intro u hu
  refine ⟨Nat.one_ne_zero, ?_⟩
  intro v hv
  have hut : u = t := Classical.byContradiction fun hne => hnone u hne hu
  have hvt : v = t := Classical.byContradiction fun hne => hnone v hne hv
  rw [hut, hvt]

/-- The thread that leaves was the only one inside. -/
theorem release (h : Locked mtx inside) {t : Tid} (ht : inside t) (hout : inside' t = false)
    (hother : ∀ u, u ≠ t → inside' u = inside u) : Locked 0 inside' := by
  intro u hu
  have hut : u ≠ t := by
    rintro rfl
    rw [hout] at hu
    cases hu
  rw [hother u hut] at hu
  exact absurd ((h t ht).2 u hu) hut

end Locked

/-! ## The invariant -/

/-- The inductive invariant of `system` while no index has wrapped. -/
structure Inv [Slot T] (N : Nat) (s : Sys Tid T) : Prop where
  shared : Shared N s.q s.log s.stage s.taken
  pcOk : ∀ t, PcOk N s t (s.pc t)
  heldOk : ∀ t, HeldOk s t
  gatherLocked : Locked s.q.safeTailMtx fun t => (s.pc t).inGather
  gcLocked : Locked s.q.lockedHeadMtx fun t => (s.pc t).inGc

variable [Slot T] {N : Nat} {s : Sys Tid T} {t : Tid}

theorem Inv.start : Inv N (Sys.start : Sys Tid T) where
  shared :=
    { collected_le := Nat.le_refl _, taken_le := Nat.le_refl _, gathered_le := Nat.le_refl _
      room := Nat.zero_le _, log_length := rfl
      fresh := fun _ _ => rfl
      pending := fun _ _ h => absurd h (Nat.not_lt_zero _)
      gathered := fun _ _ h => absurd h (Nat.not_lt_zero _)
      consumed := fun _ _ h => absurd h (Nat.not_lt_zero _)
      collected := fun _ h => absurd h (Nat.not_lt_zero _)
      word_log := fun _ h => absurd h List.not_mem_nil
      slot_full := fun _ h => h.elim
      slot_free := fun _ _ _ _ => Slot.word_zero
      taken_within := fun _ h => absurd h List.not_mem_nil
      taken_disjoint := List.Pairwise.nil
      taken_cover := fun _ h => absurd h (Nat.not_lt_zero _) }
  pcOk _ := trivial
  heldOk _ := ⟨fun _ h => absurd h List.not_mem_nil, List.Pairwise.nil⟩
  gatherLocked _ h := absurd h Bool.false_ne_true
  gcLocked _ h := absurd h Bool.false_ne_true

variable [DecidableEq Tid]

/-- **Assembling a step of thread `t`**: it must re-establish the shared part, its own knowledge and
the locks; the knowledge of the others follows from `Rely`. -/
theorem Inv.of_step {s' : Sys Tid T} (h : Inv N s)
    (hshared : Shared N s'.q s'.log s'.stage s'.taken) (hpc : PcOk N s' t (s'.pc t))
    (hheld : HeldOk s' t) (hrely : ∀ u, u ≠ t → Rely u s s')
    (hgather : Locked s'.q.safeTailMtx fun u => (s'.pc u).inGather)
    (hgc : Locked s'.q.lockedHeadMtx fun u => (s'.pc u).inGc) : Inv N s' where
  shared := hshared
  pcOk u := by
    by_cases hu : u = t
    · rw [hu]; exact hpc
    · exact (h.pcOk u).of_rely (hrely u hu)
  heldOk u := by
    by_cases hu : u = t
    · rw [hu]; exact hheld
    · exact (h.heldOk u).of_rely (hrely u hu)
  gatherLocked := hgather
  gcLocked := hgc

omit [Slot T] in
/-- A step that leaves the queue and the history alone asks nothing of the other threads. -/
theorem Rely.of_local {u : Tid} (hu : u ≠ t) (pc' : Pc T) :
    Rely u s { s with pc := Function.update s.pc t pc' } where
  pc := Function.update_of_ne hu _ _
  held := rfl
  log _ _ h := h
  locked_tail := Nat.le_refl _
  safe_head := Nat.le_refl _
  safe_tail _ := rfl
  locked_head _ := rfl
  stage_reserved _ h := h
  stage_held _ h := h
  stage_freed _ h := h
  stage_written _ _ h := h

omit [Slot T] in
/-- Moving one thread to a program counter outside (or in the same place with respect to) a critical
section keeps the lock. -/
theorem Locked.update {mtx : Nat} {pc : Tid → Pc T} {inside : Pc T → Bool} {pc' : Pc T}
    (h : Locked mtx fun u => inside (pc u)) (hsub : inside pc' → inside (pc t)) :
    Locked mtx fun u => inside (Function.update pc t pc' u) := by
  refine h.mono ?_
  intro u hu
  by_cases hut : u = t
  · subst hut
    rw [Function.update_self] at hu
    exact hsub hu
  · rwa [Function.update_of_ne hut] at hu

omit [Slot T] in
/-- A test-and-set: the thread goes inside exactly when it found the lock word clear. -/
theorem Locked.testAndSet {mtx : Nat} {pc : Tid → Pc T} {inside : Pc T → Bool} {win lose : Pc T}
    (h : Locked mtx fun u => inside (pc u)) (hlose : inside lose = false) :
    Locked 1 fun u => inside (Function.update pc t (if mtx = 0 then win else lose) u) := by
  by_cases hm : mtx = 0
  · rw [hm] at h
    refine h.acquire (t := t) ?_
    intro u hu
    simp only [Function.update_of_ne hu]
  · rw [if_neg hm]
    refine h.busy ?_
    intro u hu
    by_cases hut : u = t
    · rw [hut, Function.update_self, hlose] at hu
      cases hu
    · rwa [Function.update_of_ne hut] at hu

/-- A thread moves on without touching the queue or the history. -/
theorem Inv.local (h : Inv N s) {pc' : Pc T}
    (hpc : PcOk N s t pc') (hgather : pc'.inGather → (s.pc t).inGather)
    (hgc : pc'.inGc → (s.pc t).inGc) : Inv N { s with pc := Function.update s.pc t pc' } := by
  refine h.of_step (t := t) h.shared ?_ (h.heldOk t) (fun u hu => Rely.of_local hu pc')
    (h.gatherLocked.update hgather) (h.gcLocked.update hgc)
  simp only [Function.update_self]
  cases pc' <;> exact hpc

/-! ### Steps of each kind -/

/-- `enqueue` wins its compare-and-swap. -/
theorem Inv.reserve (h : Inv N s) {msg : T} {i : Nat} (hpc : s.pc t = .enqCas msg i s.q.qLocked)
    (hcount : s.log.length + 1 < 65536) :
    Inv N { s with
      q := { s.q with qLocked := { s.q.qLocked with tail := s.q.qLocked.tail + 1 } }
      pc := Function.update s.pc t (.enqStore msg s.q.qLocked.tail)
      log := s.log ++ [msg]
      stage := Function.update s.stage s.log.length (.reserved t) } := by
  have hok := h.pcOk t
  rw [hpc] at hok
  obtain ⟨hw, hfull⟩ := hok
  have hlen := h.shared.log_length
  have hle : s.q.qLocked.head.toNat ≤ s.q.qLocked.tail.toNat :=
    Nat.le_trans (Nat.le_trans h.shared.collected_le h.shared.taken_le) h.shared.gathered_le
  have hroom : s.q.qLocked.tail.toNat + 1 ≤ s.q.qLocked.head.toNat + N := by
    have hlast := s.q.qLocked.tail.toNat_lt
    rw [QueueRange.size_of_le hle] at hfull
    unfold toUint at hfull
    omega
  refine h.of_step (t := t) (h.shared.reserve hw hroom (by omega)) ?_ ?_ ?_
    (h.gatherLocked.update (by simp [Pc.inGather])) (h.gcLocked.update (by simp [Pc.inGc]))
  · simp only [Function.update_self, PcOk, ← hlen]
    exact ⟨trivial, List.getElem?_concat_length⟩
  · refine ⟨?_, (h.heldOk t).2⟩
    intro r hr j hj
    have hs := (h.heldOk t).1 r hr j hj
    have hwin := h.shared.held_window hs
    have := h.shared.taken_le
    have := h.shared.gathered_le
    simp only
    rw [Function.update_of_ne (by omega)]
    exact hs
  · -- only the stage of the fresh index changes
    intro u hu
    have hkeep : ∀ j st, s.stage j = st → st ≠ .fresh →
        Function.update s.stage s.log.length (.reserved t) j = st := by
      intro j st hst hne
      rw [Function.update_of_ne]
      · exact hst
      · rintro rfl
        exact hne (hst.symm.trans (h.shared.fresh _ (by omega)))
    have htail : (s.q.qLocked.tail + 1).toNat = s.q.qLocked.tail.toNat + 1 :=
      toNat_succ (by omega)
    exact
      { pc := Function.update_of_ne hu _ _
        held := rfl
        log := fun j m hm => by
          rw [List.getElem?_append_left (List.getElem?_eq_some_iff.mp hm).1]
          exact hm
        locked_tail := by simp only; omega
        safe_head := Nat.le_refl _
        safe_tail := fun _ => rfl
        locked_head := fun _ => rfl
        stage_reserved := fun j hj => hkeep j _ hj (by simp)
        stage_held := fun j hj => hkeep j _ hj (by simp)
        stage_freed := fun j hj => hkeep j _ hj (by simp)
        stage_written := fun j _ hj => hkeep j _ hj (by simp) }

/-- `enqueue` stores its message. -/
theorem Inv.store (h : Inv N s) {msg : T} {i : UInt16} (hpc : s.pc t = .enqStore msg i) :
    Inv N { s with
      q := { s.q with queue := Function.update s.q.queue (i.toNat % N) msg }
      pc := Function.update s.pc t .idle
      stage := Function.update s.stage i.toNat .written } := by
  have hok := h.pcOk t
  rw [hpc] at hok
  obtain ⟨hres, hlog⟩ := hok
  have hkeep : ∀ (j : Nat) (st : Stage Tid), s.stage j = st → st ≠ .reserved t →
      Function.update s.stage i.toNat .written j = st := by
    intro j st hst hne
    rw [Function.update_of_ne]
    · exact hst
    · rintro rfl
      exact hne (hst.symm.trans hres)
  refine h.of_step (t := t) (h.shared.store hres hlog) ?_ ?_ ?_
    (h.gatherLocked.update (by simp [Pc.inGather])) (h.gcLocked.update (by simp [Pc.inGc]))
  · simp only [Function.update_self]
    trivial
  · refine ⟨?_, (h.heldOk t).2⟩
    intro r hr j hj
    exact hkeep j _ ((h.heldOk t).1 r hr j hj) (by simp)
  · intro u hu
    exact
      { Rely.of_local hu .idle with
        stage_reserved := fun j hj => hkeep j _ hj (by simp [hu])
        stage_held := fun j hj => hkeep j _ hj (by simp)
        stage_freed := fun j hj => hkeep j _ hj (by simp)
        stage_written := fun j _ hj => hkeep j _ hj (by simp) }

/-- `gather_new_data` moves past a marked slot. -/
theorem Inv.gatherIncr (h : Inv N s) {newFound : Nat} {qSize : Int}
    (hpc : s.pc t = .gatherIncr newFound qSize) :
    Inv N { s with
      q := { s.q with qSafe := { s.q.qSafe with tail := s.q.qSafe.tail + 1 } }
      pc := Function.update s.pc t (.gatherLoop (toUint (newFound + 1)) qSize) } := by
  have hok := h.pcOk t
  rw [hpc] at hok
  obtain ⟨⟨hlt, hmax, hbound⟩, hw⟩ := hok
  have hin : (s.pc t).inGather := by rw [hpc]; rfl
  have hlast := s.q.qLocked.tail.toNat_lt
  have htail : (s.q.qSafe.tail + 1).toNat = s.q.qSafe.tail.toNat + 1 := toNat_succ (by omega)
  have hnf : toUint ((newFound : Int) + 1) = newFound + 1 := by unfold toUint; omega
  refine h.of_step (t := t) (h.shared.gather (by omega) hw) ?_ (h.heldOk t) ?_
    (h.gatherLocked.update fun _ => hin) (h.gcLocked.update (by simp))
  · simp only [Function.update_self]
    refine pcOk_gatherLoop (by omega) hmax ?_
    simp only [htail, hnf]
    push_cast
    omega
  · intro u hu
    exact
      { Rely.of_local hu (.gatherLoop (toUint (newFound + 1)) qSize) with
        -- nobody else is inside the gatherer's critical section
        safe_tail := fun hin' => absurd ((h.gatherLocked t hin).2 u hin') hu }

/-- `dequeue` wins its compare-and-swap. -/
theorem Inv.take (h : Inv N s) {num i : Nat} (hpc : s.pc t = .deqCas num i s.q.qSafe) :
    Inv N { s with
      q := { s.q with qSafe := { s.q.qSafe with head := s.q.qSafe.head + UInt16.ofNat num } }
      pc := Function.update s.pc t .idle
      held := Function.update s.held t
        (⟨s.q.qSafe.head, s.q.qSafe.head + UInt16.ofNat num⟩ :: s.held t)
      stage := fun i => if (QueueRange.mk s.q.qSafe.head
        (s.q.qSafe.head + UInt16.ofNat num)).Has i then .held t else s.stage i
      taken := ⟨s.q.qSafe.head, s.q.qSafe.head + UInt16.ofNat num⟩ :: s.taken } := by
  have hok := h.pcOk t
  rw [hpc] at hok
  have hnum : s.q.qSafe.head.toNat + num ≤ s.q.qSafe.tail.toNat := hok
  have hlast := s.q.qSafe.tail.toNat_lt
  have hhead : (s.q.qSafe.head + UInt16.ofNat num).toNat = s.q.qSafe.head.toNat + num :=
    toNat_add_ofNat (by omega)
  -- the range consists of gathered indices, so no stage but `written` changes
  have hrange : ∀ j, (QueueRange.mk s.q.qSafe.head (s.q.qSafe.head + UInt16.ofNat num)).Has j →
      s.q.qSafe.head.toNat ≤ j ∧ j < s.q.qSafe.tail.toNat := by
    rintro j ⟨hlo, hhi⟩
    simp only [hhead] at hlo hhi
    omega
  have hkeep : ∀ (j : Nat) (st : Stage Tid), s.stage j = st → st ≠ .written →
      (if (QueueRange.mk s.q.qSafe.head (s.q.qSafe.head + UInt16.ofNat num)).Has j
        then .held t else s.stage j) = st := by
    intro j st hst hne
    rw [if_neg]
    · exact hst
    · intro hj
      obtain ⟨hlo, hhi⟩ := hrange j hj
      exact hne (hst.symm.trans (h.shared.gathered j hlo hhi))
  refine h.of_step (t := t) (h.shared.take hnum) ?_ ?_ ?_
    (h.gatherLocked.update (by simp [Pc.inGather])) (h.gcLocked.update (by simp [Pc.inGc]))
  · simp only [Function.update_self]
    trivial
  · refine (h.heldOk t).cons (Function.update_self _ _ _) (fun j hj => if_pos hj)
      (fun j hj => hkeep j _ hj (by simp)) ?_
    -- what the thread holds already lies below the head
    intro j hj hmine
    have hwin := h.shared.held_window hmine
    have hlo := (hrange j hj).1
    omega
  · intro u hu
    exact
      { pc := Function.update_of_ne hu _ _
        held := Function.update_of_ne hu _ _
        log := fun _ _ hm => hm
        locked_tail := Nat.le_refl _
        safe_head := by simp only; omega
        safe_tail := fun _ => rfl
        locked_head := fun _ => rfl
        stage_reserved := fun j hj => hkeep j _ hj (by simp)
        stage_held := fun j hj => hkeep j _ hj (by simp)
        stage_freed := fun j hj => hkeep j _ hj (by simp)
        stage_written := fun j hlo hj => by
          simp only
          rw [if_neg]
          · exact hj
          · intro hj'
            have := (hrange j hj').2
            omega }

/-- `dequeue` returns the range `{0, 0}`. -/
theorem Inv.takeEmpty (h : Inv N s) :
    Inv N { s with
      pc := Function.update s.pc t .idle
      held := Function.update s.held t (QueueRange.empty :: s.held t)
      stage := fun i => if QueueRange.empty.Has i then .held t else s.stage i
      taken := QueueRange.empty :: s.taken } := by
  have hstage : (fun i => if QueueRange.empty.Has i then .held t else s.stage i) = s.stage := by
    funext i
    rw [if_neg (QueueRange.not_has_empty i)]
  rw [hstage]
  refine h.of_step (t := t) h.shared.take_empty ?_ ?_ ?_
    (h.gatherLocked.update (by simp [Pc.inGather])) (h.gcLocked.update (by simp [Pc.inGc]))
  · simp only [Function.update_self]
    trivial
  · exact (h.heldOk t).cons (Function.update_self _ _ _)
      (fun j hj => absurd hj (QueueRange.not_has_empty j)) (fun _ hj => hj)
      fun j hj => absurd hj (QueueRange.not_has_empty j)
  · intro u hu
    exact { Rely.of_local hu .idle with held := Function.update_of_ne hu _ _ }

/-- `release` zeroes one slot. -/
theorem Inv.free (h : Inv N s) {qr : QueueRange} {i : Nat} (hpc : s.pc t = .releaseSlot qr i) :
    Inv N { s with
      q := { s.q with
        queue := Function.update s.q.queue (i % N) (clear (s.q.queue (i % N))) }
      pc := Function.update s.pc t (.releaseLoop qr (i + 1))
      stage := Function.update s.stage i .freed } := by
  have hok := h.pcOk t
  rw [hpc] at hok
  obtain ⟨hlt, hrest⟩ := hok
  obtain ⟨hmine, hnot⟩ := hrest i (Nat.le_refl i) hlt
  have hkeep : ∀ (j : Nat) (st : Stage Tid), s.stage j = st → st ≠ .held t →
      Function.update s.stage i .freed j = st := by
    intro j st hst hne
    rw [Function.update_of_ne]
    · exact hst
    · rintro rfl
      exact hne (hst.symm.trans hmine)
  refine h.of_step (t := t) (h.shared.free hmine) ?_ ?_ ?_
    (h.gatherLocked.update (by simp)) (h.gcLocked.update (by simp))
  · simp only [Function.update_self]
    refine pcOk_releaseLoop ?_
    intro j hj hj'
    obtain ⟨hs, hd⟩ := hrest j (by omega) hj'
    refine ⟨?_, hd⟩
    simp only
    rw [Function.update_of_ne (by omega)]
    exact hs
  · refine ⟨?_, (h.heldOk t).2⟩
    intro r hr j hj
    simp only
    rw [Function.update_of_ne]
    · exact (h.heldOk t).1 r hr j hj
    · rintro rfl
      exact hnot r hr hj
  · intro u hu
    exact
      { Rely.of_local hu (.releaseLoop qr (i + 1)) with
        stage_reserved := fun j hj => hkeep j _ hj (by simp)
        stage_held := fun j hj => hkeep j _ hj (by simp [hu])
        stage_freed := fun j hj => hkeep j _ hj (by simp)
        stage_written := fun j _ hj => hkeep j _ hj (by simp) }

/-- `garbage_collect` moves past a cleared slot. -/
theorem Inv.collect (h : Inv N s) {i : Nat} {qSize : Int} (hpc : s.pc t = .gcIncr i qSize) :
    Inv N { s with
      q := { s.q with qLocked := { s.q.qLocked with head := s.q.qLocked.head + 1 } }
      pc := Function.update s.pc t (.gcLoop (i + 1) qSize) } := by
  have hok := h.pcOk t
  rw [hpc] at hok
  obtain ⟨⟨hlt, hbound⟩, hf⟩ := hok
  have hin : (s.pc t).inGc := by rw [hpc]; rfl
  have hlast := s.q.qSafe.head.toNat_lt
  have hhead : (s.q.qLocked.head + 1).toNat = s.q.qLocked.head.toNat + 1 := toNat_succ (by omega)
  refine h.of_step (t := t) (h.shared.collect (by omega) hf) ?_ (h.heldOk t) ?_
    (h.gatherLocked.update (by simp)) (h.gcLocked.update fun _ => hin)
  · simp only [Function.update_self]
    refine pcOk_gcLoop ?_
    simp only [hhead]
    push_cast
    omega
  · intro u hu
    exact
      { Rely.of_local hu (.gcLoop (i + 1) qSize) with
        -- nobody else is inside the collector's critical section
        locked_head := fun hin' => absurd ((h.gcLocked t hin).2 u hin') hu }

/-- Writing a lock word is invisible to everything but the locks. -/
theorem Inv.setLocks (h : Inv N s) {pc' : Pc T} {m n : Nat} (hpc : PcOk N s t pc')
    (hgather : Locked m fun u => (Function.update s.pc t pc' u).inGather)
    (hgc : Locked n fun u => (Function.update s.pc t pc' u).inGc) :
    Inv N { s with
      q := { s.q with safeTailMtx := m, lockedHeadMtx := n }
      pc := Function.update s.pc t pc' } := by
  refine h.of_step (t := t) { h.shared with } ?_ (h.heldOk t) ?_ hgather hgc
  · simp only [Function.update_self]
    cases pc' <;> exact hpc
  · intro u hu
    exact { Rely.of_local hu pc' with }

/-- `gather_new_data` tries its lock. -/
theorem Inv.gatherLock (h : Inv N s) :
    Inv N { s with
      q := { s.q with safeTailMtx := 1 }
      pc := Function.update s.pc t
        (if s.q.safeTailMtx = 0 then .gatherLockedTail else .idle) } := by
  refine h.setLocks (n := s.q.lockedHeadMtx) ?_ (h.gatherLocked.testAndSet rfl)
    (h.gcLocked.update (by split <;> simp [Pc.inGc]))
  split <;> trivial

/-- `garbage_collect` tries its lock. -/
theorem Inv.gcLock (h : Inv N s) :
    Inv N { s with
      q := { s.q with lockedHeadMtx := 1 }
      pc := Function.update s.pc t (if s.q.lockedHeadMtx = 0 then .gcSafeHead else .idle) } := by
  refine h.setLocks (m := s.q.safeTailMtx) ?_
    (h.gatherLocked.update (by split <;> simp [Pc.inGather])) (h.gcLocked.testAndSet rfl)
  split <;> trivial

/-- `gather_new_data` gives its lock back. -/
theorem Inv.gatherUnlock (h : Inv N s) (hpc : s.pc t = .gatherUnlock) :
    Inv N { s with
      q := { s.q with safeTailMtx := 0 }
      pc := Function.update s.pc t .idle } := by
  refine h.setLocks (n := s.q.lockedHeadMtx) trivial ?_ (h.gcLocked.update (by simp [Pc.inGc]))
  refine h.gatherLocked.release (t := t) (by simp [hpc, Pc.inGather])
    (by simp [Pc.inGather]) ?_
  intro u hu
  simp only [Function.update_of_ne hu]

/-- `garbage_collect` gives its lock back. -/
theorem Inv.gcUnlock (h : Inv N s) (hpc : s.pc t = .gcUnlock) :
    Inv N { s with
      q := { s.q with lockedHeadMtx := 0 }
      pc := Function.update s.pc t .idle } := by
  refine h.setLocks (m := s.q.safeTailMtx) trivial
    (h.gatherLocked.update (by simp [Pc.inGather])) ?_
  refine h.gcLocked.release (t := t) (by simp [hpc, Pc.inGc]) (by simp [Pc.inGc]) ?_
  intro u hu
  simp only [Function.update_of_ne hu]

/-- The loop of `dequeue` on a fresh snapshot: give up with `{0, 0}`, or go on to the
compare-and-swap with `num` clamped to the length seen. -/
theorem Inv.deqLoop (h : Inv N s) (num i : Nat) :
    Inv N (({ s with pc := Function.update s.pc t (Pc.deqLoop num i s.q.qSafe).1 } :
      Sys Tid T).record t (Pc.deqLoop num i s.q.qSafe).2) := by
  unfold Pc.deqLoop
  split
  · simp only
    split
    · exact h.takeEmpty
    · rename_i hlen
      rw [QueueRange.size_of_le h.shared.taken_le] at hlen ⊢
      have hle := h.shared.taken_le
      refine h.local ?_ (by simp [Pc.inGather]) (by simp [Pc.inGc])
      simp only [PcOk]
      split <;> omega
  · exact h.takeEmpty

/-- `enqueue` has read `q_locked`: it goes on to the compare-and-swap when there is room. -/
theorem Inv.enqSnapshot (h : Inv N s) {msg : T} {i : Nat} (hpc : s.pc t = .enqSnapshot msg i) :
    Inv N (s.advance N t) := by
  have hok := h.pcOk t
  rw [hpc] at hok
  rw [Sys.advance, hpc]
  simp only [Pc.run]
  split
  · exact h.local trivial (by simp [Pc.inGather]) (by simp [Pc.inGc])
  · rename_i hfull
    exact h.local ⟨hok, Nat.le_of_not_lt hfull⟩ (by simp [Pc.inGather]) (by simp [Pc.inGc])

/-- `enqueue` compares and swaps: the index is reserved, or it tries again, or it gives up. -/
theorem Inv.enqCas (h : Inv N s) {msg : T} {i : Nat} {qTmp : QueueRange} (hpc : s.pc t = .enqCas msg i qTmp)
    (hcount : (s.advance N t).log.length < 65536) : Inv N (s.advance N t) := by
  have hok := h.pcOk t
  rw [hpc] at hok
  rw [Sys.advance, hpc] at hcount ⊢
  simp only [Pc.run] at hcount ⊢
  split at hcount
  · rename_i hq
    subst hq
    rw [if_pos rfl]
    simp only [Sys.record, List.length_append, List.length_singleton] at hcount ⊢
    exact h.reserve hpc hcount
  · rename_i hq
    rw [if_neg hq]
    split
    · exact h.local hok.1 (by simp [Pc.inGather]) (by simp [Pc.inGc])
    · exact h.local trivial (by simp [Pc.inGather]) (by simp [Pc.inGc])

/-- `gather_new_data` has read both tails. -/
theorem Inv.gatherSafeTail (h : Inv N s) {lockedTail : UInt16} (hpc : s.pc t = .gatherSafeTail lockedTail) :
    Inv N (s.advance N t) := by
  have hok := h.pcOk t
  rw [hpc] at hok
  obtain ⟨hlo, hhi⟩ := hok
  have hlast := lockedTail.toNat_lt
  rw [Sys.advance, hpc]
  simp only [Pc.run, Sys.record]
  exact h.local (pcOk_gatherLoop (by omega) (by omega) (by omega)) (by simp [hpc, Pc.inGather]) (by simp)

/-- `gather_new_data` looks at a slot: when it is marked, its message is written. -/
theorem Inv.gatherTest (h : Inv N s) {newFound : Nat} {qSize : Int} {index : UInt16}
    (hpc : s.pc t = .gatherTest newFound qSize index) : Inv N (s.advance N t) := by
  have hok := h.pcOk t
  rw [hpc] at hok
  obtain ⟨hbound, rfl⟩ := hok
  rw [Sys.advance, hpc]
  simp only [Pc.run, Sys.record]
  refine h.local ?_ (by simp [hpc, Pc.inGather]) (by split <;> simp [Pc.inGc])
  split
  · trivial
  · rename_i hword
    refine ⟨hbound, ?_⟩
    -- a reserved but unwritten slot would still be marked free
    obtain ⟨hlt, -, hle⟩ := hbound
    have hc := h.shared.collected_le
    have ht := h.shared.taken_le
    have hroom := h.shared.room
    rcases h.shared.pending s.q.qSafe.tail.toNat (Nat.le_refl _) (by omega) with hw | ⟨u, hu⟩
    · exact hw
    · refine absurd (h.shared.slot_free _ (by omega) (by omega) ?_) hword
      rw [hu]
      exact id

/-- `dequeue` compares and swaps: the range is taken, or it looks at the queue again. -/
theorem Inv.deqCas (h : Inv N s) {num i : Nat} {qTmp : QueueRange} (hpc : s.pc t = .deqCas num i qTmp) :
    Inv N (s.advance N t) := by
  rw [Sys.advance, hpc]
  simp only [Pc.run]
  split
  · rename_i hq
    subst hq
    exact h.take hpc
  · exact h.deqLoop num (i + 1)

/-- `garbage_collect` looks at a slot: when it is cleared, its consumer has released it. -/
theorem Inv.gcTest (h : Inv N s) {i : Nat} {qSize : Int} {index : UInt16} (hpc : s.pc t = .gcTest i qSize index) :
    Inv N (s.advance N t) := by
  have hok := h.pcOk t
  rw [hpc] at hok
  obtain ⟨hbound, rfl⟩ := hok
  rw [Sys.advance, hpc]
  simp only [Pc.run, Sys.record]
  refine h.local ?_ (by split <;> simp [Pc.inGather]) (by simp [hpc, Pc.inGc])
  split
  · trivial
  · rename_i hword
    refine ⟨hbound, ?_⟩
    -- a slot still held by its consumer carries its message, whose first word is not zero
    obtain ⟨hlt, hle⟩ := hbound
    rcases h.shared.consumed s.q.qLocked.head.toNat (Nat.le_refl _) (by omega) with hf | ⟨u, hu⟩
    · exact hf
    · have hslot := h.shared.slot_full s.q.qLocked.head.toNat (by rw [hu]; trivial)
      exact absurd (Classical.not_not.mp hword) (h.shared.word_log _ (List.mem_of_getElem? hslot))

/-- **The step lemma**: the next access of any thread keeps the invariant, as long as the number of
successful `enqueue`s stays below the wrap. -/
theorem Inv.advance (h : Inv N s) (hcount : (s.advance N t).log.length < 65536) :
    Inv N (s.advance N t) := by
  have hok := h.pcOk t
  have hadvance {pc : Pc T} (hpc : s.pc t = pc) : s.advance N t =
      ({ s with q := (pc.run N s.q).1, pc := Function.update s.pc t (pc.run N s.q).2.1 } : Sys Tid T).record t
        (pc.run N s.q).2.2 := by
    rw [Sys.advance, hpc]
  -- one case for each access; those that read one word only move the program counter
  cases hpc : s.pc t with
  | idle =>
    rw [hadvance hpc]
    exact h.local trivial (by simp [Pc.run, Pc.inGather]) (by simp [Pc.run, Pc.inGc])
  | enqSnapshot msg i => exact h.enqSnapshot hpc
  | enqCas msg i qTmp => exact h.enqCas hpc hcount
  | enqStore msg myIndex =>
    rw [hadvance hpc]
    exact h.store hpc
  | gatherLock =>
    rw [hadvance hpc]
    exact h.gatherLock
  | gatherLockedTail =>
    rw [hadvance hpc]
    exact h.local ⟨h.shared.gathered_le, Nat.le_refl _⟩ (by simp [hpc, Pc.run, Pc.inGather])
      (by simp [Pc.run, Pc.inGc])
  | gatherSafeTail lockedTail => exact h.gatherSafeTail hpc
  | gatherIndex newFound qSize =>
    rw [hpc] at hok
    rw [hadvance hpc]
    exact h.local ⟨hok, rfl⟩ (by simp [hpc, Pc.run, Pc.inGather]) (by simp [Pc.run, Pc.inGc])
  | gatherTest newFound qSize index => exact h.gatherTest hpc
  | gatherIncr newFound qSize =>
    rw [hadvance hpc]
    exact h.gatherIncr hpc
  | gatherUnlock =>
    rw [hadvance hpc]
    exact h.gatherUnlock hpc
  | deqSnapshot num =>
    rw [hadvance hpc]
    exact h.deqLoop num 0
  | deqCas num i qTmp => exact h.deqCas hpc
  | releaseSlot qr i =>
    rw [hadvance hpc]
    exact h.free hpc
  | gcLock =>
    rw [hadvance hpc]
    exact h.gcLock
  | gcSafeHead =>
    rw [hadvance hpc]
    exact h.local ⟨h.shared.collected_le, Nat.le_refl _⟩ (by simp [Pc.run, Pc.inGather])
      (by simp [hpc, Pc.run, Pc.inGc])
  | gcLockedHead safeHead =>
    rw [hpc] at hok
    obtain ⟨hlo, hhi⟩ := hok
    rw [hadvance hpc]
    exact h.local (pcOk_gcLoop (by omega)) (by simp [Pc.run]) (by simp [hpc, Pc.run, Pc.inGc])
  | gcIndex i qSize =>
    rw [hpc] at hok
    rw [hadvance hpc]
    exact h.local ⟨hok, rfl⟩ (by simp [Pc.run, Pc.inGather]) (by simp [hpc, Pc.run, Pc.inGc])
  | gcTest i qSize index => exact h.gcTest hpc
  | gcIncr i qSize =>
    rw [hadvance hpc]
    exact h.collect hpc
  | gcUnlock =>
    rw [hadvance hpc]
    exact h.gcUnlock hpc

/-- Entering a `release` moves the range from the thread's list to its program counter. -/
theorem Inv.enterRelease (h : Inv N s) {qr : QueueRange} (hmem : qr ∈ s.held t) :
    Inv N (s.enter t (.release qr)) := by
  obtain ⟨hstage, hdisj⟩ := h.heldOk t
  have hsymm : ∀ {r r' : QueueRange}, r.Disjoint r' → r'.Disjoint r :=
    fun hd i hi hi' => hd i hi' hi
  have hcons : (qr :: (s.held t).erase qr).Pairwise QueueRange.Disjoint :=
    ((List.perm_cons_erase hmem).pairwise_iff hsymm).mp hdisj
  obtain ⟨hout, hrest⟩ := List.pairwise_cons.mp hcons
  refine h.of_step (t := t) h.shared ?_ ?_ ?_ (h.gatherLocked.update (by simp [Pc.start]))
    (h.gcLocked.update (by simp [Pc.start]))
  · simp only [Sys.enter, Function.update_self, Pc.start]
    refine pcOk_releaseLoop ?_
    intro j hj hj'
    refine ⟨hstage qr hmem j ⟨hj, hj'⟩, ?_⟩
    intro r hr
    simp only [Function.update_self] at hr
    exact hout r hr j ⟨hj, hj'⟩
  · simp only [HeldOk, Sys.enter, Function.update_self]
    exact ⟨fun r hr j hj => hstage r (List.mem_of_mem_erase hr) j hj, hrest⟩
  · intro u hu
    exact { Rely.of_local hu (Pc.start (.release qr)) with held := Function.update_of_ne hu _ _ }

/-- Entering a call keeps the invariant. -/
theorem Inv.enter (h : Inv N s) {c : Call T} (hallow : s.Allowed t c) : Inv N (s.enter t c) := by
  cases c with
  | enqueue msg =>
    exact h.local hallow (by simp [Pc.start, Pc.inGather]) (by simp [Pc.start, Pc.inGc])
  | gatherNewData =>
    exact h.local trivial (by simp [Pc.start, Pc.inGather]) (by simp [Pc.start, Pc.inGc])
  | dequeue num =>
    exact h.local trivial (by simp [Pc.start, Pc.inGather]) (by simp [Pc.start, Pc.inGc])
  | release qr => exact h.enterRelease hallow
  | garbageCollect =>
    exact h.local trivial (by simp [Pc.start, Pc.inGather]) (by simp [Pc.start, Pc.inGc])

omit [Slot T] in
theorem length_log_record (s : Sys Tid T) (e : Event T) :
    s.log.length ≤ (s.record t e).log.length := by
  cases e <;> simp [Sys.record]

theorem length_log_advance : s.log.length ≤ (s.advance N t).log.length :=
  length_log_record
    { s with q := ((s.pc t).run N s.q).1, pc := Function.update s.pc t ((s.pc t).run N s.q).2.1 } _

/-- Every step keeps the invariant below the wrap. -/
theorem Inv.step {s' : Sys Tid T} {l : Tid × Option (Call T)}
    (h : s.log.length < 65536 → Inv N s) (hstep : s.step N l = some s')
    (hcount : s'.log.length < 65536) : Inv N s' := by
  obtain ⟨t, c⟩ := l
  cases c with
  | some c =>
    simp only [Sys.step] at hstep
    split at hstep
    · rename_i hen
      cases hstep
      exact (h hcount).enter hen.2
    · cases hstep
  | none =>
    simp only [Sys.step] at hstep
    split at hstep
    · cases hstep
    · cases hstep
      exact (h (Nat.lt_of_le_of_lt length_log_advance hcount)).advance hcount

theorem reachable_inv (h : (system Tid T N).Reachable s) (hcount : s.log.length < 65536) :
    Inv N s := by
  refine h.invariant (P := fun s => s.log.length < 65536 → Inv N s) ?_ ?_ hcount
  · rintro s rfl _
    exact Inv.start
  · intro s l s' hs hstep hc
    exact Inv.step hs hstep hc

/-! ## The queue is faithful -/

/-- **No message is lost, duplicated or overwritten.** In every reachable state with fewer than
65536 successful `enqueue`s the four indices are ordered and span at most `N` slots, the ranges
`dequeue` has returned are disjoint and are together `[0, q_safe.head)`, and the slot of every index
a consumer holds carries the message whose `enqueue` reserved that index: the history has one
message for each index reserved so far, in order. -/
theorem sharedQueue_faithful (h : (system Tid T N).Reachable s) (hcount : s.log.length < 65536) :
    (s.q.qLocked.head.toNat ≤ s.q.qSafe.head.toNat ∧
      s.q.qSafe.head.toNat ≤ s.q.qSafe.tail.toNat ∧
      s.q.qSafe.tail.toNat ≤ s.q.qLocked.tail.toNat ∧
      s.q.qLocked.tail.toNat ≤ s.q.qLocked.head.toNat + N) ∧
    (s.taken.Pairwise QueueRange.Disjoint ∧
      ∀ i, (∃ r ∈ s.taken, r.Has i) ↔ i < s.q.qSafe.head.toNat) ∧
    (s.log.length = s.q.qLocked.tail.toNat ∧
      ∀ t, ∀ r ∈ s.held t, ∀ i, r.Has i → s.log[i]? = some (s.q.queue (i % N))) := by
  have hinv := reachable_inv h hcount
  have hsh := hinv.shared
  refine ⟨⟨hsh.collected_le, hsh.taken_le, hsh.gathered_le, hsh.room⟩,
    ⟨hsh.taken_disjoint, ?_⟩, hsh.log_length, ?_⟩
  · intro i
    refine ⟨?_, hsh.taken_cover i⟩
    rintro ⟨r, hr, hi⟩
    exact hsh.taken_within r hr i hi
  · intro t r hr i hi
    refine hsh.slot_full i ?_
    rw [(hinv.heldOk t).1 r hr i hi]
    trivial

/-- Thread `t` enqueues one message while thread `u` gathers it and dequeues it: two snapshots of the
locked range, two compare-and-swaps, one slot test. -/
def handOver {Tid : Type} (t u : Tid) : List (Tid × Option (Call Message)) :=
  [(t, some (.enqueue ⟨7, 1⟩)), (u, some .gatherNewData), (t, none), (t, none), (u, none),
    (u, none), (t, none), (u, none), (u, none), (u, none), (u, none), (u, none),
    (u, some (.dequeue 10)), (u, none), (u, none)]

/-- At the end of `handOver` thread 1 holds index 0, and reads the message thread 0 enqueued. -/
theorem handOver_faithful :
    ∃ s, (system (Fin 2) Message 2).exec Sys.start (handOver 0 1) = some s ∧
      s.log = [⟨7, 1⟩] ∧ s.held 1 = [⟨0, 1⟩] ∧ s.log[0]? = some (s.q.queue (0 % 2)) := by
  have hrun : ((system (Fin 2) Message 2).exec Sys.start (handOver 0 1)).map
      (fun s => (s.log, s.held 1)) = some ([⟨7, 1⟩], [⟨0, 1⟩]) := by decide +kernel
  obtain ⟨s, hs, heq⟩ := Option.map_eq_some_iff.mp hrun
  obtain ⟨hlog, hheld⟩ := Prod.mk.inj heq
  have hread := (sharedQueue_faithful (N := 2) ⟨_, _, rfl, hs⟩ (by rw [hlog]; decide)).2.2.2
  refine ⟨s, hs, hlog, hheld, ?_⟩
  exact hread 1 ⟨0, 1⟩ (by rw [hheld]; exact List.mem_singleton_self _) 0 (by decide)

end Shipwreck.Queue
