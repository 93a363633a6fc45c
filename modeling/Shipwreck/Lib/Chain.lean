import Mathlib.Logic.Function.Basic
import Mathlib.Data.List.Basic
import Mathlib.Data.List.Nodup

/-!
# Intrusive singly linked lists

A linked list threaded through its own elements: a head and one `next` field per element, `none`
being the null pointer. `Chain next h l` says that following `next` from `h` visits exactly the
elements of `l` and then ends. Everything about the shape of such a list is a consequence of it:
the list is determined by its head (`Chain.unique`) and no element occurs twice (`Chain.nodup`).

The remaining lemmas say what a store into `next` does: one outside the list changes nothing
(`Chain.update`), one into its last element appends (`Chain.concat`), one of the head into a new element puts
it in front (`Chain.push`).
-/

variable {α : Type*}

/-- Following `next` from `h` visits exactly the elements of `l` and then ends. -/
def Chain (next : α → Option α) : Option α → List α → Prop
  | h, [] => h = none
  | h, a :: l => h = some a ∧ Chain next (next a) l

/-- Walk to the last element from `a`, in at most `fuel` steps. -/
def lastFrom (next : α → Option α) : Nat → α → Option α
  | 0, _ => none
  | fuel + 1, a =>
    match next a with
    | none => some a
    | some b => lastFrom next fuel b

/-- What following `next` from `h` visits, in at most `fuel` steps. -/
def follow (next : α → Option α) : Nat → Option α → List α
  | 0, _ => []
  | _ + 1, none => []
  | fuel + 1, some a => a :: follow next fuel (next a)

namespace Chain

variable {next next' : α → Option α} {h : Option α} {l l' : List α}

@[simp] theorem nil_iff : Chain next h [] ↔ h = none := Iff.rfl

@[simp] theorem cons_iff {a : α} : Chain next h (a :: l) ↔ h = some a ∧ Chain next (next a) l :=
  Iff.rfl

/-- A null head is the empty list. -/
theorem eq_nil (hl : Chain next none l) : l = [] := by
  cases l with
  | nil => rfl
  | cons a l => exact absurd hl.1 (Option.some_ne_none a).symm

/-- A head that is not null is the first element. -/
theorem exists_cons {a : α} (hl : Chain next (some a) l) : ∃ l', l = a :: l' := by
  cases l with
  | nil => exact absurd hl (Option.some_ne_none a)
  | cons b l =>
    obtain ⟨hb, -⟩ := hl
    cases hb
    exact ⟨l, rfl⟩

/-- The head determines the list. -/
theorem unique (hl : Chain next h l) (hl' : Chain next h l') : l = l' := by
  induction l generalizing h l' with
  | nil =>
    cases hl
    exact hl'.eq_nil.symm
  | cons a l ih =>
    obtain ⟨rfl, hrest⟩ := hl
    obtain ⟨m, rfl⟩ := hl'.exists_cons
    rw [ih hrest hl'.2]

/-- The rest of the list behind one of its elements. -/
theorem of_append {a : α} {l₁ l₂ : List α} (hl : Chain next h (l₁ ++ a :: l₂)) :
    Chain next (next a) l₂ := by
  induction l₁ generalizing h with
  | nil => exact hl.2
  | cons b l₁ ih => exact ih hl.2

/-- **No element occurs twice**: behind its second occurrence the list would start over. -/
theorem nodup (hl : Chain next h l) : l.Nodup := by
  induction l generalizing h with
  | nil => exact List.nodup_nil
  | cons a l ih =>
    refine List.nodup_cons.mpr ⟨?_, ih hl.2⟩
    intro ha
    obtain ⟨l₁, l₂, rfl⟩ := List.append_of_mem ha
    have hlen := congrArg List.length (hl.2.unique hl.2.of_append)
    simp only [List.length_append, List.length_cons] at hlen
    omega

/-- The first element does not come again. -/
theorem head_not_mem_tail {a : α} (hl : Chain next h l) (ha : l.head? = some a) : a ∉ l.tail := by
  cases l with
  | nil => cases ha
  | cons b l =>
    cases ha
    exact (List.nodup_cons.mp hl.nodup).1

/-- No element of a list is followed by itself. -/
theorem next_ne {a : α} (hl : Chain next (some a) l) : next a ≠ some a := by
  intro hself
  obtain ⟨l', rfl⟩ := hl.exists_cons
  have hrest := hl.2
  rw [hself] at hrest
  have hlen := congrArg List.length (hl.unique hrest)
  simp at hlen

/-- Only the fields of the elements matter. -/
theorem congr (hl : Chain next h l) (heq : ∀ a ∈ l, next' a = next a) : Chain next' h l := by
  induction l generalizing h with
  | nil => exact hl
  | cons a l ih =>
    refine ⟨hl.1, ?_⟩
    rw [heq a List.mem_cons_self]
    exact ih hl.2 fun b hb => heq b (List.mem_cons_of_mem a hb)

/-- A store outside the list. -/
theorem update [DecidableEq α] {a : α} (v : Option α) (hl : Chain next h l) (ha : a ∉ l) :
    Chain (Function.update next a v) h l := by
  apply hl.congr
  intro b hb
  exact Function.update_of_ne (ne_of_mem_of_not_mem hb ha) _ _

/-- A store into a new element, of what was the head, puts it in front. -/
theorem push [DecidableEq α] {a : α} (hl : Chain next h l) (ha : a ∉ l) :
    Chain (Function.update next a h) (some a) (a :: l) := by
  refine ⟨rfl, ?_⟩
  rw [Function.update_self]
  exact hl.update h ha

/-- A store into the last element appends. -/
theorem concat [DecidableEq α] {a b : α} (hl : Chain next h (l ++ [a])) (hb : b ∉ l ++ [a])
    (hnext : next b = none) : Chain (Function.update next a (some b)) h (l ++ [a] ++ [b]) := by
  have hba : b ≠ a := by
    rintro rfl
    exact hb (List.mem_append_right l (List.mem_singleton_self b))
  induction l generalizing h with
  | nil =>
    refine ⟨hl.1, ?_⟩
    rw [Function.update_self]
    refine ⟨rfl, ?_⟩
    rw [Function.update_of_ne hba]
    exact hnext
  | cons c l ih =>
    refine ⟨hl.1, ?_⟩
    have hca : c ≠ a := by
      rintro rfl
      have hnodup := hl.nodup
      simp at hnodup
    rw [Function.update_of_ne hca]
    exact ih hl.2 fun hmem => hb (List.mem_cons_of_mem c hmem)

/-- Following the list gives its elements. -/
theorem follow_eq {fuel : Nat} (hl : Chain next h l) (hfuel : l.length ≤ fuel) : follow next fuel h = l := by
  induction l generalizing h fuel with
  | nil =>
    cases hl
    cases fuel with
    | zero => rfl
    | succ fuel => rfl
  | cons a l ih =>
    obtain ⟨fuel, rfl⟩ := Nat.exists_eq_add_of_le' (Nat.le_trans (Nat.le_add_left 1 l.length) hfuel)
    obtain ⟨rfl, hrest⟩ := hl
    rw [follow, ih hrest (Nat.le_of_succ_le_succ hfuel)]

/-- The walk finds the last element. -/
theorem lastFrom_eq {a b : α} {fuel : Nat} (hl : Chain next (some a) (l ++ [b]))
    (hfuel : l.length < fuel) : lastFrom next fuel a = some b := by
  induction l generalizing a fuel with
  | nil =>
    obtain ⟨fuel, rfl⟩ : ∃ n, fuel = n + 1 := ⟨fuel - 1, by simp at hfuel; omega⟩
    obtain ⟨hab, hend⟩ := hl
    cases hab
    rw [lastFrom, show next b = none from hend]
  | cons c l ih =>
    obtain ⟨fuel, rfl⟩ : ∃ n, fuel = n + 1 := ⟨fuel - 1, by simp at hfuel; omega⟩
    obtain ⟨hac, hrest⟩ := hl
    cases hac
    cases hn : next c with
    | none =>
      rw [hn] at hrest
      exact absurd hrest.eq_nil (by simp)
    | some d =>
      rw [hn] at hrest
      rw [lastFrom, hn]
      exact ih hrest (by simpa using hfuel)

end Chain
