import Mathlib.Data.Set.Basic

/-!
# Pictures and the jobs that are left to do

What is shown may lag behind what should be shown, as long as jobs are pending that make up for it. A job, and the
picture itself, say what becomes of the value at each point; the picture is determined at a point where it does not
depend on the old value.

    view  --job--> ... --job-->  picture        at each point where the picture is determined

`Repairs` says so, with a rule for doing the first jobs (`Repairs.run`) and one for changing the picture and adding
jobs (`Repairs.change`). In the end, when no job is left, the picture is there (`Repairs.shows`).
-/

variable {ι β : Type*}

/-- The value of the picture at `i` does not depend on the old one. -/
def Determined (pic : ι → β → β) (i : ι) : Prop := ∀ b b', pic i b = pic i b'

/-- What the jobs make of the value `b` at `i`. -/
def Jobs (jobs : List (ι → β → β)) (i : ι) (b : β) : β := jobs.foldl (fun b job => job i b) b

theorem jobs_append (jobs more : List (ι → β → β)) (i : ι) (b : β) :
    Jobs (jobs ++ more) i b = Jobs more i (Jobs jobs i b) := List.foldl_append

/-- Jobs that do the same. -/
theorem jobs_congr {α : Type*} {l : List α} {f g : α → ι → β → β} {i : ι} (h : ∀ a ∈ l, ∀ b, f a i b = g a i b)
    (b : β) : Jobs (l.map f) i b = Jobs (l.map g) i b := by
  induction l generalizing b with
  | nil => rfl
  | cons a l ih =>
    rw [List.forall_mem_cons] at h
    show Jobs (l.map f) i (f a i b) = Jobs (l.map g) i (g a i b)
    rw [h.1, ih h.2]

/-- A job draws the picture at `i`, or leaves everything as it is. -/
def Redraws (pic job : ι → β → β) (i : ι) : Prop := (∀ b, job i b = b) ∨ ∀ b, job i b = pic i b

/-- After the jobs the picture is there, at the points of `S` where it is determined. -/
def Repairs (S : Set ι) (pic : ι → β → β) (jobs : List (ι → β → β)) (view : ι → β) : Prop :=
  ∀ i ∈ S, Determined pic i → ∀ b, Jobs jobs i (view i) = pic i b

section

variable {S T : Set ι} {pic pic' : ι → β → β} {jobs jobs' first rest more : List (ι → β → β)} {view view' : ι → β}
  {i : ι} {b c : β}

/-- Redrawing what is there already. -/
theorem jobs_redraw (hpic : ∀ b, pic i b = c) (hmore : ∀ job ∈ more, Redraws pic job i) : Jobs more i c = c := by
  induction more with
  | nil => rfl
  | cons job more ih =>
    rw [List.forall_mem_cons] at hmore
    have hjob : job i c = c := hmore.1.elim (fun h => h c) fun h => (h c).trans (hpic c)
    show Jobs more i (job i c) = c
    rw [hjob]
    exact ih hmore.2

/-- One of the jobs draws the picture, and the others do no harm. -/
theorem jobs_cover (hpic : ∀ b, pic i b = c) (hmore : ∀ job ∈ more, Redraws pic job i)
    (hcover : ∃ job ∈ more, ∀ b, job i b = pic i b) : Jobs more i b = c := by
  obtain ⟨job, hmem, hjob⟩ := hcover
  obtain ⟨before, after, rfl⟩ := List.append_of_mem hmem
  rw [jobs_append]
  show Jobs after i (job i (Jobs before i b)) = c
  rw [hjob, hpic]
  exact jobs_redraw hpic fun job hmem => hmore job (List.mem_append_right _ (List.mem_cons_of_mem _ hmem))

namespace Repairs

/-- Nothing is left to do. -/
theorem shows (h : Repairs S pic [] view) (hi : i ∈ S) (hpic : Determined pic i) (b : β) : view i = pic i b :=
  h i hi hpic b

/-- **The first jobs are done.** -/
theorem run (h : Repairs S pic (first ++ rest) view) (hview : ∀ i ∈ S, view' i = Jobs first i (view i)) :
    Repairs S pic rest view' := by
  intro i hi hpic b
  rw [hview i hi, ← jobs_append]
  exact h i hi hpic b

/-- Only the view of the points in question matters. -/
theorem congr (h : Repairs S pic jobs view) (hview : ∀ i ∈ S, view' i = view i) : Repairs S pic jobs view' := by
  intro i hi
  rw [hview i hi]
  exact h i hi

/-- **The picture changes**, at points that new jobs redraw; elsewhere the old jobs do what they did. -/
theorem change (h : Repairs S pic jobs view) (hmore : ∀ i ∈ S, ∀ job ∈ more, Redraws pic' job i)
    (hi : ∀ i ∈ S, (∃ job ∈ more, ∀ b, job i b = pic' i b) ∨
      (∀ b, pic' i b = pic i b) ∧ ∀ b, Jobs jobs' i b = Jobs jobs i b) :
    Repairs S pic' (jobs' ++ more) view := by
  intro i his hpic b
  rw [jobs_append]
  rcases hi i his with hcover | ⟨hsame, hjobs⟩
  · exact jobs_cover (fun b' => hpic b' b) (hmore i his) hcover
  · have hold : Determined pic i := by
      intro b b'
      rw [← hsame, ← hsame]
      exact hpic b b'
    rw [hjobs, h i his hold b, ← hsame]
    exact jobs_redraw (fun b' => hpic b' b) (hmore i his)

/-- The picture is the same, and some of it is drawn again. -/
theorem post (h : Repairs S pic jobs view) (hmore : ∀ i ∈ S, ∀ job ∈ more, Redraws pic job i) :
    Repairs S pic (jobs ++ more) view :=
  h.change hmore fun _ _ => .inr ⟨fun _ => rfl, fun _ => rfl⟩

end Repairs

end
