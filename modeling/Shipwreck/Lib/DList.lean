import Shipwreck.Lib.Chain

/-!
# Intrusive doubly linked lists

A doubly linked list threaded through its own elements. `Linked next prev p l` says that each element
of `l` has the one before it as its `prev`, the first one `p`, and the one behind it as its `next`,
the last one the null pointer.

Code that takes an element out, or puts one in, stores into the fields of its two neighbours, which it
finds from the element itself. `Linked.erase` and `Linked.insert` say in the same terms what becomes
of the list. Several lists that share their fields are described by `Listed`: every element is in the list
that `place` says, or in none; with `Threaded` its fields are null then.
-/

variable {α ι : Type*}

/-- The elements of `l` are linked in both directions, behind `p`. -/
def Linked (next prev : α → Option α) : Option α → List α → Prop
  | _, [] => True
  | p, a :: l => prev a = p ∧ next a = l.head? ∧ Linked next prev (some a) l

namespace Linked

variable {next prev next' prev' : α → Option α} {p q : Option α} {a b : α} {l l₁ l₂ : List α}

theorem cons_iff : Linked next prev p (a :: l) ↔
    prev a = p ∧ next a = l.head? ∧ Linked next prev (some a) l := Iff.rfl

/-- Only the fields of the elements matter. -/
theorem congr (h : Linked next prev p l)
    (heq : ∀ a ∈ l, next' a = next a ∧ prev' a = prev a) : Linked next' prev' p l := by
  induction l generalizing p with
  | nil => trivial
  | cons a l ih =>
    obtain ⟨hprev, hnext, hrest⟩ := h
    obtain ⟨hnext', hprev'⟩ := heq a List.mem_cons_self
    refine ⟨hprev'.trans hprev, hnext'.trans hnext, ih hrest ?_⟩
    exact fun b hb => heq b (List.mem_cons_of_mem a hb)

/-- Seen from its first element it is a singly linked list. -/
theorem chain (h : Linked next prev p l) : Chain next l.head? l := by
  induction l generalizing p with
  | nil => rfl
  | cons a l ih =>
    obtain ⟨-, hnext, hrest⟩ := h
    refine ⟨rfl, ?_⟩
    rw [hnext]
    exact ih hrest

theorem nodup (h : Linked next prev p l) : l.Nodup := h.chain.nodup

/-- Seen from its last element it is a singly linked list, too, which goes on with what is before it. -/
theorem chain_reverse {l' : List α} (h : Linked next prev p l) (hp : Chain prev p l') :
    Chain prev (l.getLast?.or p) (l.reverse ++ l') := by
  induction l generalizing p l' with
  | nil => exact hp
  | cons a l ih =>
    obtain ⟨hprev, -, hrest⟩ := h
    have hbefore : Chain prev (some a) (a :: l') := ⟨rfl, hprev ▸ hp⟩
    have hgo := ih hrest hbefore
    rw [List.reverse_cons, List.append_assoc, List.getLast?_cons]
    cases hlast : l.getLast? with
    | none =>
      rw [hlast] at hgo
      exact hgo
    | some b =>
      rw [hlast] at hgo
      exact hgo

/-- The first element gets another one before it. -/
theorem set_prev (h : Linked next prev p (a :: l)) (hnext : ∀ b ∈ a :: l, next' b = next b)
    (hpreva : prev' a = q) (hprev : ∀ b ∈ l, prev' b = prev b) : Linked next' prev' q (a :: l) := by
  obtain ⟨-, hnexta, hrest⟩ := h
  refine ⟨hpreva, ?_, ?_⟩
  · rw [hnext a List.mem_cons_self, hnexta]
  · apply hrest.congr
    exact fun b hb => ⟨hnext b (List.mem_cons_of_mem a hb), hprev b hb⟩

/-- The neighbours of an element. -/
theorem at_append (h : Linked next prev p (l₁ ++ a :: l₂)) :
    prev a = l₁.getLast?.or p ∧ next a = l₂.head? := by
  induction l₁ generalizing p with
  | nil => exact ⟨h.1, h.2.1⟩
  | cons b l₁ ih =>
    obtain ⟨hprev, hnext⟩ := ih h.2.2
    refine ⟨?_, hnext⟩
    rw [hprev, List.getLast?_cons]
    cases l₁.getLast? with
    | none => rfl
    | some c => rfl

theorem mem_of_next (h : Linked next prev p l) (ha : a ∈ l) (hb : next a = some b) : b ∈ l := by
  obtain ⟨l₁, l₂, rfl⟩ := List.append_of_mem ha
  rw [h.at_append.2] at hb
  have hmem := List.mem_of_head? hb
  simp [hmem]

theorem mem_of_prev (h : Linked next prev none l) (ha : a ∈ l) (hb : prev a = some b) : b ∈ l := by
  obtain ⟨l₁, l₂, rfl⟩ := List.append_of_mem ha
  rw [h.at_append.1, Option.or_none] at hb
  have hmem := List.mem_of_getLast? hb
  simp [hmem]

variable [DecidableEq α]

/-- An element is taken out, and its neighbours are linked with each other. -/
theorem erase (h : Linked next prev p (l₁ ++ a :: l₂)) (hp : ∀ b ∈ l₁ ++ a :: l₂, p ≠ some b)
    (hnext : ∀ b ∈ l₁ ++ l₂, next' b = if prev a = some b then next a else next b)
    (hprev : ∀ b ∈ l₁ ++ l₂, prev' b = if next a = some b then prev a else prev b) :
    Linked next' prev' p (l₁ ++ l₂) := by
  have hnodup := h.nodup
  induction l₁ generalizing p with
  | nil =>
    obtain ⟨hpa, hna, hrest⟩ := h
    cases l₂ with
    | nil => trivial
    | cons b l₂ =>
      rw [List.head?_cons] at hna
      -- only the element behind the erased one has another predecessor
      apply hrest.set_prev
      · intro c hc
        rw [hnext c hc, if_neg]
        rw [hpa]
        exact hp c (List.mem_cons_of_mem a hc)
      · rw [hprev b List.mem_cons_self, if_pos hna, hpa]
      · intro c hc
        rw [hprev c (List.mem_cons_of_mem b hc), hna, if_neg]
        rintro ⟨⟩
        simp [hc] at hnodup
  | cons c l₁ ih =>
    obtain ⟨hpc, hnc, hrest⟩ := h
    obtain ⟨hpa, hna⟩ := hrest.at_append
    rw [List.cons_append, List.nodup_cons] at hnodup
    obtain ⟨hc, hnodup⟩ := hnodup
    simp only [List.mem_append, List.mem_cons, not_or] at hc
    refine ⟨?_, ?_, ?_⟩
    · rw [hprev c List.mem_cons_self, if_neg, hpc]
      intro hac
      rw [hna] at hac
      exact hc.2.2 (List.mem_of_head? hac)
    · rw [hnext c List.mem_cons_self, hpa]
      cases l₁ with
      | nil => simp [hna]
      | cons d l₁ =>
        rw [if_neg, hnc]
        · rfl
        · intro hlast
          rw [List.getLast?_cons] at hlast
          cases hlast
          apply hc.1
          exact List.mem_of_getLast? (List.getLast?_cons ..)
    · apply ih hrest
      · intro b hb hcb
        cases hcb
        simp only [List.mem_append, List.mem_cons] at hb
        rcases hb with hb | hb | hb
        · exact hc.1 hb
        · exact hc.2.1 hb
        · exact hc.2.2 hb
      · exact fun b hb => hnext b (List.mem_cons_of_mem c hb)
      · exact fun b hb => hprev b (List.mem_cons_of_mem c hb)
      · exact hnodup

/-- An element is put in, and its neighbours are linked with it. -/
theorem insert (h : Linked next prev p (l₁ ++ l₂)) (hp : ∀ b ∈ l₁ ++ l₂, p ≠ some b)
    (ha : a ∉ l₁ ++ l₂) (hnexta : next' a = l₂.head?) (hpreva : prev' a = l₁.getLast?.or p)
    (hnext : ∀ b ∈ l₁ ++ l₂, next' b = if prev' a = some b then some a else next b)
    (hprev : ∀ b ∈ l₁ ++ l₂, prev' b = if next' a = some b then some a else prev b) :
    Linked next' prev' p (l₁ ++ a :: l₂) := by
  have hnodup := h.nodup
  induction l₁ generalizing p with
  | nil =>
    refine ⟨hpreva, hnexta, ?_⟩
    cases l₂ with
    | nil => trivial
    | cons b l₂ =>
      rw [List.head?_cons] at hnexta
      -- only the element behind the new one has another predecessor
      apply h.set_prev
      · intro c hc
        rw [hnext c hc, if_neg]
        rw [hpreva]
        exact hp c hc
      · rw [hprev b List.mem_cons_self, if_pos hnexta]
      · intro c hc
        rw [hprev c (List.mem_cons_of_mem b hc), hnexta, if_neg]
        rintro ⟨⟩
        simp [hc] at hnodup
  | cons c l₁ ih =>
    obtain ⟨hpc, hnc, hrest⟩ := h
    rw [List.cons_append, List.nodup_cons] at hnodup
    obtain ⟨hc, hnodup⟩ := hnodup
    have hca : c ≠ a := by
      rintro rfl
      exact ha List.mem_cons_self
    have hlast : prev' a = l₁.getLast?.or (some c) := by
      rw [hpreva, List.getLast?_cons]
      cases l₁.getLast? with
      | none => rfl
      | some d => rfl
    refine ⟨?_, ?_, ?_⟩
    · rw [hprev c List.mem_cons_self, if_neg, hpc]
      intro hac
      rw [hnexta] at hac
      exact hc (List.mem_append_right l₁ (List.mem_of_head? hac))
    · rw [hnext c List.mem_cons_self, hlast]
      cases l₁ with
      | nil => simp
      | cons d l₁ =>
        rw [if_neg, hnc]
        · rfl
        · intro heq
          rw [List.getLast?_cons] at heq
          cases heq
          apply hc
          exact List.mem_append_left l₂ (List.mem_of_getLast? (List.getLast?_cons ..))
    · apply ih hrest _ _ hlast _ _ hnodup
      · intro b hb hcb
        cases hcb
        exact hc hb
      · exact fun hmem => ha (List.mem_cons_of_mem c hmem)
      · exact fun b hb => hnext b (List.mem_cons_of_mem c hb)
      · exact fun b hb => hprev b (List.mem_cons_of_mem c hb)

end Linked

/-! ## Several lists -/

/-- The lists of a family share no element: each is in the list that `place` says. -/
structure Listed (next prev : α → Option α) (place : α → Option ι) (lists : ι → List α) : Prop where
  linked : ∀ i, Linked next prev none (lists i)
  mem_iff : ∀ i a, a ∈ lists i ↔ place a = some i

/-- The lists of a family share no element, and what is in none of them has null fields. -/
structure Threaded (next prev : α → Option α) (place : α → Option ι) (lists : ι → List α) :
    Prop where
  linked : ∀ i, Linked next prev none (lists i)
  mem_iff : ∀ i a, a ∈ lists i ↔ place a = some i
  loose : ∀ a, place a = none → next a = none ∧ prev a = none

section

variable {next prev next' prev' : α → Option α} {place : α → Option ι} {lists : ι → List α}
variable {i j : ι} {a b : α} {l₁ l₂ : List α}

namespace Listed

/-- Only the fields matter. -/
theorem congr (h : Listed next prev place lists)
    (heq : ∀ a, next' a = next a ∧ prev' a = prev a) : Listed next' prev' place lists where
  linked i := (h.linked i).congr fun a _ => heq a
  mem_iff := h.mem_iff

theorem place_of_next (h : Listed next prev place lists) (ha : place a = some i)
    (hb : next a = some b) : place b = some i := by
  rw [← h.mem_iff] at ha ⊢
  exact (h.linked i).mem_of_next ha hb

theorem place_of_prev (h : Listed next prev place lists) (ha : place a = some i)
    (hb : prev a = some b) : place b = some i := by
  rw [← h.mem_iff] at ha ⊢
  exact (h.linked i).mem_of_prev ha hb

variable [DecidableEq α]

/-- An element is taken out: away from its list nothing changes. -/
theorem detach_away (h : Listed next prev place lists) (hplace : place a = some i)
    (hnext : ∀ b, b ≠ a → next' b = if prev a = some b then next a else next b)
    (hprev : ∀ b, b ≠ a → prev' b = if next a = some b then prev a else prev b)
    (hba : b ≠ a) (hb : place b ≠ some i) : next' b = next b ∧ prev' b = prev b := by
  rw [hnext b hba, if_neg fun hpa => hb (h.place_of_prev hplace hpa), hprev b hba,
    if_neg fun hna => hb (h.place_of_next hplace hna)]
  exact ⟨rfl, rfl⟩

/-- An element is put in: away from its list nothing changes. -/
theorem attach_away (h : Listed next prev place lists) (hl : lists i = l₁ ++ l₂)
    (hnexta : next' a = l₂.head?) (hpreva : prev' a = l₁.getLast?)
    (hnext : ∀ b, b ≠ a → next' b = if prev' a = some b then some a else next b)
    (hprev : ∀ b, b ≠ a → prev' b = if next' a = some b then some a else prev b)
    (hba : b ≠ a) (hb : place b ≠ some i) : next' b = next b ∧ prev' b = prev b := by
  have hmem : ∀ c ∈ l₁ ++ l₂, place c = some i := by
    intro c hc
    rwa [← h.mem_iff, hl]
  rw [hnext b hba, hprev b hba, if_neg, if_neg]
  · exact ⟨rfl, rfl⟩
  · intro heq
    rw [hnexta] at heq
    exact hb (hmem b (List.mem_append_right l₁ (List.mem_of_head? heq)))
  · intro heq
    rw [hpreva] at heq
    exact hb (hmem b (List.mem_append_left l₂ (List.mem_of_getLast? heq)))

variable [DecidableEq ι]

/-- An element is taken out of its list. -/
theorem detach (h : Listed next prev place lists) (hl : lists i = l₁ ++ a :: l₂)
    (hnext : ∀ b, b ≠ a → next' b = if prev a = some b then next a else next b)
    (hprev : ∀ b, b ≠ a → prev' b = if next a = some b then prev a else prev b) :
    Listed next' prev' (Function.update place a none) (Function.update lists i (l₁ ++ l₂)) := by
  have hlinked := h.linked i
  have hplace : place a = some i := by
    rw [← h.mem_iff, hl]
    exact List.mem_append_right l₁ List.mem_cons_self
  rw [hl] at hlinked
  have hout : a ∉ l₁ ++ l₂ := by
    have hnodup := hlinked.nodup
    rw [List.nodup_middle] at hnodup
    exact (List.nodup_cons.mp hnodup).1
  refine ⟨?_, ?_⟩
  · intro j
    -- its own list loses it, the others keep their links
    by_cases hji : j = i
    · subst hji
      rw [Function.update_self]
      apply hlinked.erase (fun b _ => (Option.some_ne_none b).symm)
      · exact fun b hb => hnext b (ne_of_mem_of_not_mem hb hout)
      · exact fun b hb => hprev b (ne_of_mem_of_not_mem hb hout)
    · rw [Function.update_of_ne hji]
      apply (h.linked j).congr
      intro b hb
      rw [h.mem_iff] at hb
      apply h.detach_away hplace hnext hprev
      · rintro rfl
        rw [hplace] at hb
        exact hji (Option.some.inj hb).symm
      · rw [hb]
        exact fun heq => hji (Option.some.inj heq)
  · intro j b
    by_cases hba : b = a
    · subst hba
      rw [Function.update_self]
      apply iff_of_false _ (Option.some_ne_none j).symm
      by_cases hji : j = i
      · subst hji
        rw [Function.update_self]
        exact hout
      · rw [Function.update_of_ne hji, h.mem_iff, hplace]
        exact fun heq => hji (Option.some.inj heq).symm
    · rw [Function.update_of_ne hba, ← h.mem_iff]
      by_cases hji : j = i
      · subst hji
        rw [Function.update_self, hl]
        simp [hba]
      · rw [Function.update_of_ne hji]

/-- An element that is in no list is put into one. -/
theorem attach (h : Listed next prev place lists) (ha : place a = none)
    (hl : lists i = l₁ ++ l₂) (hnexta : next' a = l₂.head?) (hpreva : prev' a = l₁.getLast?)
    (hnext : ∀ b, b ≠ a → next' b = if prev' a = some b then some a else next b)
    (hprev : ∀ b, b ≠ a → prev' b = if next' a = some b then some a else prev b) :
    Listed next' prev' (Function.update place a (some i))
      (Function.update lists i (l₁ ++ a :: l₂)) := by
  have hlinked := h.linked i
  rw [hl] at hlinked
  have hout : ∀ j, a ∉ lists j := by
    intro j hmem
    rw [h.mem_iff, ha] at hmem
    cases hmem
  have houti : a ∉ l₁ ++ l₂ := hl ▸ hout i
  refine ⟨?_, ?_⟩
  · intro j
    by_cases hji : j = i
    · subst hji
      rw [Function.update_self]
      apply hlinked.insert (fun b _ => (Option.some_ne_none b).symm) houti hnexta
      · rw [hpreva, Option.or_none]
      · exact fun b hb => hnext b (ne_of_mem_of_not_mem hb houti)
      · exact fun b hb => hprev b (ne_of_mem_of_not_mem hb houti)
    · rw [Function.update_of_ne hji]
      apply (h.linked j).congr
      intro b hb
      apply h.attach_away hl hnexta hpreva hnext hprev (ne_of_mem_of_not_mem hb (hout j))
      rw [(h.mem_iff j b).mp hb]
      exact fun heq => hji (Option.some.inj heq)
  · intro j b
    by_cases hba : b = a
    · subst hba
      rw [Function.update_self]
      by_cases hji : j = i
      · subst hji
        rw [Function.update_self]
        simp
      · rw [Function.update_of_ne hji]
        exact iff_of_false (hout j) fun heq => hji (Option.some.inj heq).symm
    · rw [Function.update_of_ne hba, ← h.mem_iff]
      by_cases hji : j = i
      · subst hji
        rw [Function.update_self, hl]
        simp [hba]
      · rw [Function.update_of_ne hji]

end Listed

namespace Threaded

theorem listed (h : Threaded next prev place lists) : Listed next prev place lists where
  linked := h.linked
  mem_iff := h.mem_iff

/-- Only the fields matter. -/
theorem congr (h : Threaded next prev place lists)
    (heq : ∀ a, next' a = next a ∧ prev' a = prev a) : Threaded next' prev' place lists where
  linked := (h.listed.congr heq).linked
  mem_iff := h.mem_iff
  loose a ha := by
    rw [(heq a).1, (heq a).2]
    exact h.loose a ha

variable [DecidableEq α] [DecidableEq ι]

/-- An element is taken out of its list. -/
theorem detach (h : Threaded next prev place lists) (hl : lists i = l₁ ++ a :: l₂)
    (hnext : ∀ b, next' b = if b = a then none else if prev a = some b then next a else next b)
    (hprev : ∀ b, prev' b = if b = a then none else if next a = some b then prev a else prev b) :
    Threaded next' prev' (Function.update place a none) (Function.update lists i (l₁ ++ l₂)) := by
  have hnext' : ∀ b, b ≠ a → next' b = if prev a = some b then next a else next b := by
    intro b hba
    rw [hnext, if_neg hba]
  have hprev' : ∀ b, b ≠ a → prev' b = if next a = some b then prev a else prev b := by
    intro b hba
    rw [hprev, if_neg hba]
  have hlisted := h.listed.detach hl hnext' hprev'
  refine ⟨hlisted.linked, hlisted.mem_iff, ?_⟩
  intro b hb
  by_cases hba : b = a
  · rw [hnext, if_pos hba, hprev, if_pos hba]
    exact ⟨rfl, rfl⟩
  · rw [Function.update_of_ne hba] at hb
    have hplace : place a = some i := by
      rw [← h.mem_iff, hl]
      exact List.mem_append_right l₁ List.mem_cons_self
    have hno : place b ≠ some i := by
      rw [hb]
      exact (Option.some_ne_none i).symm
    obtain ⟨hsame, hsame'⟩ := h.listed.detach_away hplace hnext' hprev' hba hno
    rw [hsame, hsame']
    exact h.loose b hb

/-- An element that is in no list is put into one. -/
theorem attach (h : Threaded next prev place lists) (ha : place a = none)
    (hl : lists i = l₁ ++ l₂) (hnexta : next' a = l₂.head?) (hpreva : prev' a = l₁.getLast?)
    (hnext : ∀ b, b ≠ a → next' b = if prev' a = some b then some a else next b)
    (hprev : ∀ b, b ≠ a → prev' b = if next' a = some b then some a else prev b) :
    Threaded next' prev' (Function.update place a (some i))
      (Function.update lists i (l₁ ++ a :: l₂)) := by
  have hlisted := h.listed.attach ha hl hnexta hpreva hnext hprev
  refine ⟨hlisted.linked, hlisted.mem_iff, ?_⟩
  intro b hb
  have hba : b ≠ a := by
    rintro rfl
    rw [Function.update_self] at hb
    cases hb
  rw [Function.update_of_ne hba] at hb
  have hno : place b ≠ some i := by
    rw [hb]
    exact (Option.some_ne_none i).symm
  obtain ⟨hsame, hsame'⟩ := h.listed.attach_away hl hnexta hpreva hnext hprev hba hno
  rw [hsame, hsame']
  exact h.loose b hb

omit [DecidableEq α] in
/-- A list changes its name. -/
theorem rename (h : Threaded next prev place lists) (hij : i ≠ j) (hj : lists j = []) :
    Threaded next prev (fun a => if place a = some i then some j else place a)
      (Function.update (Function.update lists j (lists i)) i []) := by
  refine ⟨?_, ?_, ?_⟩
  · intro k
    by_cases hki : k = i
    · rw [hki, Function.update_self]
      trivial
    · rw [Function.update_of_ne hki]
      by_cases hkj : k = j
      · rw [hkj, Function.update_self]
        exact h.linked i
      · rw [Function.update_of_ne hkj]
        exact h.linked k
  · intro k a
    by_cases hki : k = i
    · subst hki
      rw [Function.update_self]
      apply iff_of_false (List.not_mem_nil)
      split
      case isTrue => exact fun heq => hij (Option.some.inj heq).symm
      case isFalse hno => exact hno
    · rw [Function.update_of_ne hki]
      by_cases hkj : k = j
      · subst hkj
        rw [Function.update_self, h.mem_iff]
        split
        case isTrue hyes => exact iff_of_true hyes rfl
        case isFalse hno =>
          apply iff_of_false hno
          rw [← h.mem_iff, hj]
          exact List.not_mem_nil
      · rw [Function.update_of_ne hkj, h.mem_iff]
        split
        case isTrue hyes =>
          rw [hyes]
          exact iff_of_false (fun heq => hki (Option.some.inj heq).symm)
            fun heq => hkj (Option.some.inj heq).symm
        case isFalse => rfl
  · intro a ha
    split at ha
    case isTrue => cases ha
    case isFalse => exact h.loose a ha

end Threaded

end
