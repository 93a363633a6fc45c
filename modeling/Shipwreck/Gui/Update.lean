import Shipwreck.Gui.Forest

/-!
# The first loop of `gui_update_proc`

`Planted` is the forest that the window manager keeps between two calls, and `Orderly` what a call may
ask for. `Mid` says how far the loop has come: the windows of the slots that are done are where the
environment wants them, and the others where they have been, `stale` if their frame is done already.
When the loop ends nothing is stale, since a frame is updated together with its children.
-/

namespace Shipwreck.Gui

/-! ## The forest -/

/-- Every live window is in the list of its parent, or in `winstack`, or it is a `loose` window
without parent. -/
structure Planted (loose : Gid → Prop) (win : Windows) (place : Gid → Option Place)
    (lists : Place → List Gid) : Prop where
  shape : Shape win place lists
  dead : ∀ w, (win w).windata.winclass = .none → (win w).parent = none ∧ place w = none
  valid : ∀ w, (win w).windata.winclass ≠ .none → (win w).windata.winclass.kind?.isSome = true
  child : ∀ w p, (win w).parent = some p → place w = some (.kids p)
  root : ∀ w, (win w).windata.winclass ≠ .none → (win w).parent = none →
    place w = some .stack ∨ loose w ∧ place w = none
  frame : ∀ w p, (win w).parent = some p → (win p).windata.winclass = .windowFrame ∧
    ∃ pid i j, w = gidOf pid i ∧ p = gidOf pid j ∧
      (win w).windata.parentId = Int32.ofNat j.val
  parentId : ∀ w, (win w).windata.winclass ≠ .none → (win w).parent = none →
    (win w).windata.parentId = -1
  acyclic : ∀ w, ∃ l, Chain win.parent (some w) l
  desktop : (win desktopGid).windata.winclass = .window
  last : ∃ l, lists .stack = l ++ [desktopGid]

/-- The top-level window of every window that has been told one is in `winstack`, and it is the
desktop for the desktop only. -/
def Rooted (win : Windows) (place : Gid → Option Place) : Prop :=
  ∀ w r, (win w).wmRoot = some r → place r = some .stack ∧ (r = desktopGid → w = desktopGid)

namespace Planted

variable {loose : Gid → Prop} {win : Windows} {place : Gid → Option Place}
variable {lists : Place → List Gid} {w p : Gid}

/-- Where a window is: with the children of its parent, in `winstack` if it is a live top-level window,
or nowhere. -/
theorem place_cases (h : Planted loose win place lists) (w : Gid) :
    (∃ p, (win w).parent = some p ∧ place w = some (.kids p)) ∨
      ((win w).parent = none ∧ (win w).windata.winclass ≠ .none ∧ place w = some .stack) ∨
      ((win w).parent = none ∧ place w = none) := by
  cases hparent : (win w).parent with
  | some p => exact .inl ⟨p, rfl, h.child w p hparent⟩
  | none =>
    by_cases hdead : (win w).windata.winclass = .none
    · exact .inr (.inr ⟨rfl, (h.dead w hdead).2⟩)
    · rcases h.root w hdead hparent with hstack | ⟨-, hnone⟩
      · exact .inr (.inl ⟨rfl, hdead, hstack⟩)
      · exact .inr (.inr ⟨rfl, hnone⟩)

/-- The children of a frame. -/
theorem mem_kids_iff (h : Planted loose win place lists) :
    w ∈ lists (.kids p) ↔ (win w).parent = some p := by
  rw [h.shape.threaded.mem_iff]
  refine ⟨?_, h.child w p⟩
  intro hplace
  rcases h.place_cases w with ⟨q, hparent, hkids⟩ | ⟨-, -, hstack⟩ | ⟨-, hnone⟩
  · cases hkids.symm.trans hplace
    exact hparent
  · cases hstack.symm.trans hplace
  · cases hnone.symm.trans hplace

/-- No window is its own parent. -/
theorem parent_ne (h : Planted loose win place lists) (hp : (win w).parent = some p) : p ≠ w := by
  rintro rfl
  obtain ⟨l, hl⟩ := h.acyclic p
  exact hl.next_ne hp

theorem place_ne_stale (h : Planted loose win place lists) (f : Gid) :
    place w ≠ some (.stale f) := by
  intro hstale
  rcases h.place_cases w with ⟨q, -, hkids⟩ | ⟨-, -, hstack⟩ | ⟨-, hnone⟩
  · cases hkids.symm.trans hstale
  · cases hstack.symm.trans hstale
  · cases hnone.symm.trans hstale

end Planted

/-! ## The first loop -/

/-- What the environment may ask for: a window keeps its class; its parent is a frame, or becomes one
before; a top-level window is not given a parent; and a frame is updated with all its children, before
them, with an empty list of children. -/
structure Orderly (pid : Fin 16) (env : Environment) (win : Windows) : Prop where
  winclass : ∀ i, env.Updated i → (win (gidOf pid i)).windata.winclass = .none ∨
    (win (gidOf pid i)).windata.winclass = (env.windows i).winclass
  parent : ∀ i p, env.Updated i → env.parentOf i = some p →
    (win (gidOf pid p)).windata.winclass = .windowFrame ∨ p < i ∧ env.Updated p
  child : ∀ i, env.Updated i → env.parentOf i ≠ none →
    (win (gidOf pid i)).windata.winclass = .none ∨ (win (gidOf pid i)).parent ≠ none
  word : ∀ i, env.Updated i → (env.windows i).winclass = .windowFrame → (env.windows i).word = 0
  before : ∀ i j, env.Updated i → (env.windows i).winclass = .windowFrame → j < i → env.Updated j →
    env.parentOf j ≠ some i
  together : ∀ i j, env.Updated i → (env.windows i).winclass = .windowFrame → ¬ env.Updated j →
    (win (gidOf pid j)).parent ≠ some (gidOf pid i)

set_option synthInstance.maxSize 512 in
instance (pid : Fin 16) (env : Environment) (win : Windows) : Decidable (Orderly pid env win) :=
  decidable_of_iff ((∀ i, env.Updated i → (win (gidOf pid i)).windata.winclass = .none ∨
      (win (gidOf pid i)).windata.winclass = (env.windows i).winclass) ∧
    (∀ i p, env.Updated i → env.parentOf i = some p →
      (win (gidOf pid p)).windata.winclass = .windowFrame ∨ p < i ∧ env.Updated p) ∧
    (∀ i, env.Updated i → env.parentOf i ≠ none →
      (win (gidOf pid i)).windata.winclass = .none ∨ (win (gidOf pid i)).parent ≠ none) ∧
    (∀ i, env.Updated i → (env.windows i).winclass = .windowFrame → (env.windows i).word = 0) ∧
    (∀ i j, env.Updated i → (env.windows i).winclass = .windowFrame → j < i → env.Updated j →
      env.parentOf j ≠ some i) ∧
    ∀ i j, env.Updated i → (env.windows i).winclass = .windowFrame → ¬ env.Updated j →
      (win (gidOf pid j)).parent ≠ some (gidOf pid i))
    ⟨fun ⟨h₁, h₂, h₃, h₄, h₅, h₆⟩ => ⟨h₁, h₂, h₃, h₄, h₅, h₆⟩,
      fun ⟨h₁, h₂, h₃, h₄, h₅, h₆⟩ => ⟨h₁, h₂, h₃, h₄, h₅, h₆⟩⟩

/-- The window of a slot below `k` that is updated. -/
def Done (pid : Fin 16) (env : Environment) (k : Nat) (u : Gid) : Prop :=
  ∃ i : Fin 16, i.val < k ∧ env.Updated i ∧ u = gidOf pid i

instance (pid : Fin 16) (env : Environment) (k : Nat) (u : Gid) : Decidable (Done pid env k u) :=
  inferInstanceAs (Decidable (∃ _, _))

namespace Done

variable {pid i j : Fin 16} {env : Environment} {k : Nat} {u : Gid}

theorem not_self (pid : Fin 16) (env : Environment) (hi : i.val = k) :
    ¬ Done pid env k (gidOf pid i) := by
  rintro ⟨j, hj, -, heq⟩
  rw [gidOf_injective heq] at hi
  omega

/-- The windows done after one more slot. -/
theorem succ_iff (hi : i.val = k) :
    Done pid env (k + 1) u ↔ Done pid env k u ∨ env.Updated i ∧ u = gidOf pid i := by
  constructor
  · rintro ⟨j, hj, hupdated, rfl⟩
    by_cases hji : j = i
    · exact .inr ⟨hji ▸ hupdated, by rw [hji]⟩
    · have hne : j.val ≠ i.val := fun heq => hji (Fin.ext heq)
      exact .inl ⟨j, by omega, hupdated, rfl⟩
  · rintro (⟨j, hj, hupdated, rfl⟩ | ⟨hupdated, rfl⟩)
    · exact ⟨j, by omega, hupdated, rfl⟩
    · exact ⟨i, by omega, hupdated, rfl⟩

theorem succ_iff_of_not_updated (hi : i.val = k) (hnot : ¬ env.Updated i) :
    Done pid env (k + 1) u ↔ Done pid env k u := by
  rw [succ_iff hi]
  exact or_iff_left fun hupdated => hnot hupdated.1

theorem not_of_succ (hi : i.val = k) (hupdated : env.Updated i) (hu : ¬ Done pid env (k + 1) u) :
    ¬ Done pid env k u ∧ u ≠ gidOf pid i := by
  rw [succ_iff hi, not_or] at hu
  exact ⟨hu.1, fun heq => hu.2 ⟨hupdated, heq⟩⟩

/-- The other slots below the next one. -/
theorem lt_of_lt_succ (hi : i.val = k) (hji : j ≠ i) (hj : j.val < k + 1) : j.val < k := by
  have hval : j.val ≠ i.val := fun heq => hji (Fin.ext heq)
  omega

end Done

/-- The loop has come to slot `k`. -/
structure Mid (pid : Fin 16) (env : Environment) (win₀ : Windows) (place₀ : Gid → Option Place)
    (lists₀ : Place → List Gid) (k : Nat) (win : Windows) (place : Gid → Option Place)
    (lists : Place → List Gid) : Prop where
  shape : Shape win place lists
  stack : lists .stack = lists₀ .stack
  undone : ∀ u, ¬ Done pid env k u → (win u).bare = (win₀ u).bare
  undone_place : ∀ u, ¬ Done pid env k u → place u = match place₀ u with
    | some (.kids f) => if Done pid env k f then some (.stale f) else some (.kids f)
    | other => other
  winclass : ∀ i, i.val < k → env.Updated i →
    (win (gidOf pid i)).windata.winclass = (env.windows i).winclass
  parentId : ∀ i, i.val < k → env.Updated i →
    (win (gidOf pid i)).windata.parentId = (env.windows i).parentId
  parent : ∀ i, i.val < k → env.Updated i →
    (win (gidOf pid i)).parent = (env.parentOf i).map (gidOf pid)
  child : ∀ i p, i.val < k → env.Updated i → env.parentOf i = some p →
    place (gidOf pid i) = some (.kids (gidOf pid p))
  root : ∀ i, i.val < k → env.Updated i → env.parentOf i = none →
    place (gidOf pid i) = none ∨ place (gidOf pid i) = some .stack
  wmRoot : ∀ u, (win u).wmRoot = none ∨ (win u).wmRoot = (win₀ u).wmRoot

namespace Mid

variable {pid : Fin 16} {henv : Hierarchy} {win₀ win : Windows} {place₀ place : Gid → Option Place}
variable {lists₀ lists : Place → List Gid} {loose : Gid → Prop} {k : Nat} {i : Fin 16} {u : Gid}

theorem start (pid : Fin 16) (henv : Hierarchy) (h₀ : Planted loose win₀ place₀ lists₀) :
    Mid pid henv.toEnvironment win₀ place₀ lists₀ 0 win₀ place₀ lists₀ where
  shape := h₀.shape
  stack := rfl
  undone _ _ := rfl
  undone_place u _ := by
    have hnot : ∀ f, ¬ Done pid henv.toEnvironment 0 f := fun f ⟨i, hi, _⟩ => Nat.not_lt_zero _ hi
    split
    case h_1 f hf => rw [hf, if_neg (hnot f)]
    case h_2 => rfl
  winclass i hi := absurd hi (Nat.not_lt_zero _)
  parentId i hi := absurd hi (Nat.not_lt_zero _)
  parent i hi := absurd hi (Nat.not_lt_zero _)
  child i _ hi := absurd hi (Nat.not_lt_zero _)
  root i hi := absurd hi (Nat.not_lt_zero _)
  wmRoot _ := .inr rfl

/-- A frame stays one. -/
theorem frame (h : Mid pid henv.toEnvironment win₀ place₀ lists₀ k win place lists)
    (hok : Orderly pid henv.toEnvironment win₀) (hu : (win₀ u).windata.winclass = .windowFrame) :
    (win u).windata.winclass = .windowFrame := by
  by_cases hdone : Done pid henv.toEnvironment k u
  · obtain ⟨j, hj, hupdated, rfl⟩ := hdone
    rw [h.winclass j hj hupdated]
    rcases hok.winclass j hupdated with hnone | hsame
    · rw [hnone] at hu
      cases hu
    · rw [← hsame, hu]
  · rw [GUIWindow.winclass_of_bare (h.undone u hdone), hu]

/-- The parent that a window is to have is a frame. -/
theorem parent_frame (h : Mid pid henv.toEnvironment win₀ place₀ lists₀ k win place lists)
    (hok : Orderly pid henv.toEnvironment win₀) (hupdated : henv.Updated i) (hi : i.val ≤ k)
    {p : Fin 16} (hp : henv.parentOf i = some p) :
    (win (gidOf pid p)).windata.winclass = .windowFrame := by
  rcases hok.parent i p hupdated hp with hframe | ⟨hpi, hupdated'⟩
  · exact h.frame hok hframe
  · rw [h.winclass p (by omega) hupdated']
    rcases henv.parent_frame i hupdated.2 with hroot | ⟨p', hp', hframe⟩
    · exact absurd hroot (parentGid_eq pid hp).2
    · rw [hp] at hp'
      cases hp'
      exact hframe

/-- The next slot is ready. -/
theorem ready (h : Mid pid henv.toEnvironment win₀ place₀ lists₀ k win place lists)
    (h₀ : Planted (fun _ => False) win₀ place₀ lists₀) (hok : Orderly pid henv.toEnvironment win₀)
    (hi : i.val = k) (hupdated : henv.Updated i) :
    SlotReady pid henv.toEnvironment i win place lists := by
  have hnot := Done.not_self pid henv.toEnvironment hi
  have hbare := h.undone _ hnot
  have hclass := GUIWindow.winclass_of_bare hbare
  have hparent := GUIWindow.parent_of_bare hbare
  have hplace := h.undone_place _ hnot
  refine ⟨?_, ?_, hok.word i hupdated, ?_, ?_, ?_, ?_, ?_⟩
  · rw [hclass]
    exact hok.winclass i hupdated
  · intro hnone
    rw [hclass] at hnone
    obtain ⟨hp, hpl⟩ := h₀.dead _ hnone
    rw [hpl] at hplace
    exact ⟨hparent.trans hp, hplace⟩
  · -- nobody was a child of a frame that has not been copied yet
    rw [List.eq_nil_iff_forall_not_mem]
    intro u hu
    rw [h.shape.threaded.mem_iff] at hu
    by_cases hdone : Done pid henv.toEnvironment k u
    · obtain ⟨j, hj, hupdated', rfl⟩ := hdone
      cases hp : henv.parentOf j with
      | none =>
        rcases h.root j hj hupdated' hp with hpl | hpl
        · rw [hpl] at hu
          cases hu
        · rw [hpl] at hu
          cases hu
      | some p =>
        rw [h.child j p hj hupdated' hp] at hu
        cases hu
    · rw [h.undone_place u hdone] at hu
      split at hu
      case h_1 f hf =>
        split at hu
        case isTrue hdone' =>
          cases hu
          exact hnot hdone'
        case isFalse => cases hu
      case h_2 => exact h₀.place_ne_stale _ hu
  · intro q hq
    rw [hparent] at hq
    refine ⟨h₀.parent_ne hq, h.frame hok (h₀.frame _ q hq).1, ?_⟩
    rw [h₀.child _ q hq] at hplace
    simp only at hplace
    split at hplace
    case isTrue => exact .inr hplace
    case isFalse => exact .inl hplace
  · intro hnone hlive
    rw [hparent] at hnone
    rw [hclass] at hlive
    rcases h₀.root _ hlive hnone with hpl | ⟨hfalse, -⟩
    · rw [hpl] at hplace
      exact hplace
    · exact hfalse.elim
  · intro hnone
    rcases henv.parent_frame i hupdated.2 with hroot | ⟨p, hp, -⟩
    · exact hroot
    · rw [hnone] at hp
      cases hp
  · intro p hp
    refine ⟨?_, ?_, h.parent_frame hok hupdated (Nat.le_of_eq hi) hp⟩
    · rw [hclass, hparent]
      apply hok.child i hupdated
      rw [hp]
      exact Option.some_ne_none p
    · intro heq
      have hpi := gidOf_injective heq
      subst hpi
      obtain ⟨l, hl⟩ := henv.acyclic p
      exact hl.next_ne hp

/-- A slot that is not updated is passed over. -/
theorem skip (h : Mid pid henv.toEnvironment win₀ place₀ lists₀ k win place lists)
    (h₀ : Planted (fun _ => False) win₀ place₀ lists₀) (hi : i.val = k)
    (hnot : ¬ henv.Updated i) :
    updateSlot pid henv.toEnvironment i win = some (false, win) ∧
      Mid pid henv.toEnvironment win₀ place₀ lists₀ (k + 1) win place lists := by
  have hdone : ∀ u, Done pid henv.toEnvironment (k + 1) u ↔ Done pid henv.toEnvironment k u :=
    fun u => Done.succ_iff_of_not_updated hi hnot
  have hbelow : ∀ j : Fin 16, j.val < k + 1 → henv.Updated j → j.val < k :=
    fun j hj hupdated => Done.lt_of_lt_succ hi (fun heq => hnot (heq ▸ hupdated)) hj
  refine ⟨?_, h.shape, h.stack, ?_, ?_, ?_, ?_, ?_, ?_, ?_, h.wmRoot⟩
  · apply updateSlot_of_not_updated hnot
    rw [GUIWindow.winclass_of_bare (h.undone _ (Done.not_self pid henv.toEnvironment hi))]
    exact h₀.valid _
  · intro u hu
    exact h.undone u fun hd => hu ((hdone u).mpr hd)
  · intro u hu
    simp only [hdone] at hu ⊢
    exact h.undone_place u hu
  · exact fun j hj hupdated => h.winclass j (hbelow j hj hupdated) hupdated
  · exact fun j hj hupdated => h.parentId j (hbelow j hj hupdated) hupdated
  · exact fun j hj hupdated => h.parent j (hbelow j hj hupdated) hupdated
  · exact fun j p hj hupdated => h.child j p (hbelow j hj hupdated) hupdated
  · exact fun j hj hupdated => h.root j (hbelow j hj hupdated) hupdated

/-- A frame is copied before the windows that become its children. -/
theorem parentOf_ne (hok : Orderly pid henv.toEnvironment win₀) (hupdated : henv.Updated i)
    {j p : Fin 16} (hji : j < i) (hupdated' : henv.Updated j) (hp : henv.parentOf j = some p) :
    p ≠ i := by
  rintro rfl
  rcases henv.parent_frame j hupdated'.2 with hroot | ⟨p', hp', hframe⟩
  · exact (parentGid_eq pid hp).2 hroot
  · rw [hp] at hp'
    cases hp'
    exact hok.before p j hupdated hframe hji hupdated' hp

/-- A slot is updated. -/
theorem advance (h : Mid pid henv.toEnvironment win₀ place₀ lists₀ k win place lists)
    (hok : Orderly pid henv.toEnvironment win₀) (hi : i.val = k) (hupdated : henv.Updated i)
    {win' : Windows} {place' : Gid → Option Place} {lists' : Place → List Gid}
    (hslot : SlotUpdated pid henv.toEnvironment i win win' place place' lists lists') :
    Mid pid henv.toEnvironment win₀ place₀ lists₀ (k + 1) win' place' lists' := by
  have hundone : ∀ u, ¬ Done pid henv.toEnvironment (k + 1) u →
      ¬ Done pid henv.toEnvironment k u ∧ u ≠ gidOf pid i :=
    fun u => Done.not_of_succ hi hupdated
  have hbelow : ∀ j : Fin 16, j ≠ i → j.val < k + 1 → j.val < k ∧ gidOf pid j ≠ gidOf pid i :=
    fun j hne hj => ⟨Done.lt_of_lt_succ hi hne hj, fun heq => hne (gidOf_injective heq)⟩
  have hdone : Done pid henv.toEnvironment (k + 1) (gidOf pid i) :=
    (Done.succ_iff hi).mpr (.inr ⟨hupdated, rfl⟩)
  refine ⟨hslot.shape, hslot.stack.trans h.stack, ?_, ?_, ?_, ?_, ?_, ?_, ?_, ?_⟩
  · intro u hu
    obtain ⟨hdone', hne⟩ := hundone u hu
    exact (hslot.other u hne).trans (h.undone u hdone')
  · intro u hu
    obtain ⟨hdone', hne⟩ := hundone u hu
    rw [hslot.other_place u hne, unkid, h.undone_place u hdone']
    cases hpl : place₀ u with
    | none => simp
    | some P =>
      cases P with
      | stack => simp
      | stale f => simp
      | kids f =>
        by_cases hf : f = gidOf pid i
        · -- the children of the window are not under it any more
          simp [hf, Done.not_self pid henv.toEnvironment hi, hdone]
        · have hiff : Done pid henv.toEnvironment (k + 1) f ↔ Done pid henv.toEnvironment k f := by
            rw [Done.succ_iff hi]
            exact or_iff_left fun heq => hf heq.2
          by_cases hdf : Done pid henv.toEnvironment k f
          · simp [hiff, hdf]
          · simp [hiff, hdf, hf]
  · intro j hj hupdated'
    by_cases hji : j = i
    · rw [hji]
      exact hslot.winclass
    · obtain ⟨hj, hne⟩ := hbelow j hji hj
      rw [GUIWindow.winclass_of_bare (hslot.other _ hne), h.winclass j hj hupdated']
  · intro j hj hupdated'
    by_cases hji : j = i
    · rw [hji]
      exact hslot.parentId
    · obtain ⟨hj, hne⟩ := hbelow j hji hj
      rw [GUIWindow.parentId_of_bare (hslot.other _ hne), h.parentId j hj hupdated']
  · intro j hj hupdated'
    by_cases hji : j = i
    · rw [hji]
      exact hslot.parent
    · obtain ⟨hj, hne⟩ := hbelow j hji hj
      rw [GUIWindow.parent_of_bare (hslot.other _ hne), h.parent j hj hupdated']
  · intro j p hj hupdated' hp
    by_cases hji : j = i
    · rw [hji] at hp ⊢
      exact hslot.child p hp
    · obtain ⟨hj, hne⟩ := hbelow j hji hj
      -- a frame is updated before the windows that become its children
      have hpi : p ≠ i := parentOf_ne hok hupdated (Fin.lt_def.mpr (hi ▸ hj)) hupdated' hp
      rw [hslot.other_place _ hne, unkid, h.child j p hj hupdated' hp, if_neg]
      intro heq
      exact hpi (gidOf_injective (Place.kids.inj (Option.some.inj heq)))
  · intro j hj hupdated' hp
    by_cases hji : j = i
    · rw [hji] at hp ⊢
      exact hslot.root hp
    · obtain ⟨hj, hne⟩ := hbelow j hji hj
      rw [hslot.other_place _ hne, unkid]
      rcases h.root j hj hupdated' hp with hpl | hpl <;> simp [hpl]
  · intro u
    by_cases hu : u = gidOf pid i
    · subst hu
      rcases hslot.wmRoot with hnone | hsame
      · exact .inl hnone
      · rw [hsame]
        exact h.wmRoot _
    · rw [GUIWindow.wmRoot_of_bare (hslot.other u hu)]
      exact h.wmRoot u

/-- **One round of the loop.** -/
theorem step (h : Mid pid henv.toEnvironment win₀ place₀ lists₀ k win place lists)
    (h₀ : Planted (fun _ => False) win₀ place₀ lists₀) (hok : Orderly pid henv.toEnvironment win₀)
    (hi : i.val = k) : ∃ win' place' lists',
      updateSlot pid henv.toEnvironment i win = some (false, win') ∧
      Mid pid henv.toEnvironment win₀ place₀ lists₀ (k + 1) win' place' lists' := by
  by_cases hupdated : henv.Updated i
  · obtain ⟨win', place', lists', hrun, hslot⟩ :=
      updateSlot_spec h.shape hupdated (h.ready h₀ hok hi hupdated)
    exact ⟨win', place', lists', hrun, h.advance hok hi hupdated hslot⟩
  · exact ⟨win, place, lists, h.skip h₀ hi hupdated⟩

/-- The rest of the loop. -/
theorem run (h : Mid pid henv.toEnvironment win₀ place₀ lists₀ k win place lists)
    (h₀ : Planted (fun _ => False) win₀ place₀ lists₀) (hok : Orderly pid henv.toEnvironment win₀)
    (hk : k ≤ 16) : ∃ win' place' lists',
      updateSlots pid henv.toEnvironment ((List.finRange 16).drop k) win = some (false, win') ∧
      Mid pid henv.toEnvironment win₀ place₀ lists₀ 16 win' place' lists' := by
  induction hn : 16 - k generalizing k win place lists with
  | zero =>
    have hk16 : k = 16 := by omega
    subst hk16
    refine ⟨win, place, lists, ?_, h⟩
    rw [List.drop_of_length_le (by simp)]
    rfl
  | succ n ih =>
    have hlt : k < 16 := by omega
    obtain ⟨win₁, place₁, lists₁, hrun, hmid⟩ := h.step h₀ hok (i := ⟨k, hlt⟩) rfl
    obtain ⟨win', place', lists', hrest, hend⟩ := ih hmid (by omega) (by omega)
    refine ⟨win', place', lists', ?_, hend⟩
    rw [updateSlots_drop hlt, hrun]
    exact hrest

/-- A window that is not updated is not in a frame that is. -/
theorem not_done_parent (h₀ : Planted loose win₀ place₀ lists₀)
    (hok : Orderly pid henv.toEnvironment win₀) (hu : ¬ Done pid henv.toEnvironment 16 u) {p : Gid}
    (hp : (win₀ u).parent = some p) : ¬ Done pid henv.toEnvironment 16 p := by
  rintro ⟨j, hj, hupdated, rfl⟩
  obtain ⟨hframe, pid', i, j', rfl, hpj, -⟩ := h₀.frame u _ hp
  obtain ⟨rfl, rfl⟩ := gidOf_inj hpj
  have hclass : (henv.windows j).winclass = .windowFrame := by
    rcases hok.winclass j hupdated with hnone | hsame
    · rw [hnone] at hframe
      cases hframe
    · rw [← hsame, hframe]
  exact hok.together j i hupdated hclass (fun hi => hu ⟨i, i.isLt, hi, rfl⟩) hp

/-- The ancestors of a window that is not updated stay. -/
theorem chain_undone (h : Mid pid henv.toEnvironment win₀ place₀ lists₀ 16 win place lists)
    (h₀ : Planted loose win₀ place₀ lists₀) (hok : Orderly pid henv.toEnvironment win₀)
    {l : List Gid} (hu : ¬ Done pid henv.toEnvironment 16 u)
    (hl : Chain win₀.parent (some u) l) : Chain win.parent (some u) l := by
  induction l generalizing u with
  | nil => exact hl
  | cons v l ih =>
    obtain ⟨huv, hrest⟩ := hl
    obtain rfl : u = v := Option.some.inj huv
    refine ⟨rfl, ?_⟩
    have hparent : win.parent u = win₀.parent u := GUIWindow.parent_of_bare (h.undone u hu)
    rw [hparent]
    cases hp : win₀.parent u with
    | none =>
      rw [hp] at hrest
      rw [hrest.eq_nil]
      rfl
    | some p =>
      rw [hp] at hrest
      exact ih (not_done_parent h₀ hok hu hp) hrest

/-- The ancestors of a window of the process, up to the first one that is not updated as the
environment has them. -/
theorem chain_slot (h : Mid pid henv.toEnvironment win₀ place₀ lists₀ 16 win place lists)
    (h₀ : Planted loose win₀ place₀ lists₀) (hok : Orderly pid henv.toEnvironment win₀)
    {l : List (Fin 16)} (hl : Chain henv.parentOf (some i) l) :
    ∃ l', Chain win.parent (some (gidOf pid i)) l' := by
  induction l generalizing i with
  | nil => exact absurd hl (Option.some_ne_none i)
  | cons j l ih =>
    obtain ⟨hij, hrest⟩ := hl
    obtain rfl : i = j := Option.some.inj hij
    by_cases hupdated : henv.Updated i
    · have hparent : win.parent (gidOf pid i) = (henv.parentOf i).map (gidOf pid) :=
        h.parent i i.isLt hupdated
      cases hp : henv.parentOf i with
      | none =>
        rw [hp] at hparent
        exact ⟨[gidOf pid i], rfl, hparent⟩
      | some p =>
        rw [hp] at hrest hparent
        obtain ⟨l', hl'⟩ := ih hrest
        refine ⟨gidOf pid i :: l', rfl, ?_⟩
        rw [hparent]
        exact hl'
    · have hundone : ¬ Done pid henv.toEnvironment 16 (gidOf pid i) := by
        rintro ⟨k, -, hk, heq⟩
        exact hupdated (gidOf_injective heq ▸ hk)
      obtain ⟨l', hl'⟩ := h₀.acyclic (gidOf pid i)
      exact ⟨l', h.chain_undone h₀ hok hundone hl'⟩

/-- After the loop a window is what the environment says of its slot, or it is as it was. -/
theorem window_cases (h : Mid pid henv.toEnvironment win₀ place₀ lists₀ 16 win place lists) (w : Gid) :
    (∃ i, henv.Updated i ∧ w = gidOf pid i ∧ (win w).windata.winclass = (henv.windows i).winclass ∧
        (win w).windata.parentId = (henv.windows i).parentId ∧
        (win w).parent = (henv.parentOf i).map (gidOf pid)) ∨
      ¬ Done pid henv.toEnvironment 16 w ∧ (win w).windata.winclass = (win₀ w).windata.winclass ∧
        (win w).windata.parentId = (win₀ w).windata.parentId ∧ (win w).parent = (win₀ w).parent := by
  by_cases hdone : Done pid henv.toEnvironment 16 w
  · obtain ⟨i, hi, hupdated, rfl⟩ := hdone
    exact .inl ⟨i, hupdated, rfl, h.winclass i hi hupdated, h.parentId i hi hupdated, h.parent i hi hupdated⟩
  · have hbare := h.undone w hdone
    exact .inr ⟨hdone, GUIWindow.winclass_of_bare hbare, GUIWindow.parentId_of_bare hbare,
      GUIWindow.parent_of_bare hbare⟩

/-- **After the first loop** the windows are planted, but for the top-level windows of the process that
are new. -/
theorem planted (h : Mid pid henv.toEnvironment win₀ place₀ lists₀ 16 win place lists)
    (h₀ : Planted (fun _ => False) win₀ place₀ lists₀)
    (hok : Orderly pid henv.toEnvironment win₀) :
    Planted (fun u => ∃ i, u = gidOf pid i) win place lists where
  shape := h.shape
  dead w hw := by
    obtain ⟨i, hupdated, -, hclass, -, -⟩ | ⟨hundone, hclass, -, hparent⟩ := h.window_cases w
    · exact absurd (hclass.symm.trans hw) hupdated.ne_none
    · obtain ⟨hroot, hplace⟩ := h₀.dead w (hclass.symm.trans hw)
      rw [hparent, h.undone_place w hundone, hplace]
      exact ⟨hroot, rfl⟩
  valid w hw := by
    obtain ⟨i, hupdated, -, hclass, -, -⟩ | ⟨-, hclass, -, -⟩ := h.window_cases w
    · rw [hclass]
      exact hupdated.2
    · rw [hclass] at hw ⊢
      exact h₀.valid w hw
  child w p hp := by
    obtain ⟨i, hupdated, rfl, -, -, hparent⟩ | ⟨hundone, -, -, hparent⟩ := h.window_cases w
    · rw [hparent] at hp
      obtain ⟨j, hj, rfl⟩ := Option.map_eq_some_iff.mp hp
      exact h.child i j i.isLt hupdated hj
    · rw [hparent] at hp
      rw [h.undone_place w hundone, h₀.child w p hp]
      -- a frame that is updated takes all its children with it
      exact if_neg (not_done_parent h₀ hok hundone hp)
  root w hw hp := by
    obtain ⟨i, hupdated, rfl, -, -, hparent⟩ | ⟨hundone, hclass, -, hparent⟩ := h.window_cases w
    · rw [hparent, Option.map_eq_none_iff] at hp
      rcases h.root i i.isLt hupdated hp with hnone | hstack
      · exact .inr ⟨⟨i, rfl⟩, hnone⟩
      · exact .inl hstack
    · rw [hclass] at hw
      rw [hparent] at hp
      rcases h₀.root w hw hp with hstack | ⟨hfalse, -⟩
      · rw [h.undone_place w hundone, hstack]
        exact .inl rfl
      · exact hfalse.elim
  frame w p hp := by
    obtain ⟨i, hupdated, rfl, -, hid, hparent⟩ | ⟨-, -, hid, hparent⟩ := h.window_cases w
    · rw [hparent] at hp
      obtain ⟨j, hj, rfl⟩ := Option.map_eq_some_iff.mp hp
      refine ⟨h.parent_frame hok hupdated (Nat.le_of_lt i.isLt) hj, pid, i, j, rfl, rfl, ?_⟩
      rw [hid]
      exact parentId_eq hj
    · rw [hparent] at hp
      obtain ⟨hframe, hslots⟩ := h₀.frame w p hp
      rw [hid]
      exact ⟨h.frame hok hframe, hslots⟩
  parentId w hw hp := by
    obtain ⟨i, hupdated, -, -, hid, hparent⟩ | ⟨-, hclass, hid, hparent⟩ := h.window_cases w
    · rw [hparent, Option.map_eq_none_iff] at hp
      rw [hid]
      rcases henv.parent_frame i hupdated.2 with hroot | ⟨p, hp', -⟩
      · exact hroot
      · rw [hp] at hp'
        cases hp'
    · rw [hclass] at hw
      rw [hparent] at hp
      rw [hid]
      exact h₀.parentId w hw hp
  acyclic w := by
    obtain ⟨i, -, rfl, -⟩ | ⟨hundone, -⟩ := h.window_cases w
    · obtain ⟨l, hl⟩ := henv.acyclic i
      exact h.chain_slot h₀ hok hl
    · obtain ⟨l, hl⟩ := h₀.acyclic w
      exact ⟨l, h.chain_undone h₀ hok hundone hl⟩
  desktop := by
    obtain ⟨i, hupdated, h0, hclass, -⟩ | ⟨-, hclass, -⟩ := h.window_cases desktopGid
    · rw [hclass]
      rcases hok.winclass i hupdated with hnone | hsame
      · rw [← h0, h₀.desktop] at hnone
        cases hnone
      · rw [← hsame, ← h0, h₀.desktop]
    · rw [hclass, h₀.desktop]
  last := by
    rw [h.stack]
    exact h₀.last

/-- Nothing has left `winstack`. -/
theorem rooted (h : Mid pid henv.toEnvironment win₀ place₀ lists₀ 16 win place lists)
    (h₀ : Planted loose win₀ place₀ lists₀) (hrooted : Rooted win₀ place₀) : Rooted win place := by
  intro w r hr
  have hr₀ : (win₀ w).wmRoot = some r := by
    rcases h.wmRoot w with hnone | hsame
    · rw [hnone] at hr
      cases hr
    · rw [← hsame, hr]
  obtain ⟨hplace, hzero⟩ := hrooted w r hr₀
  refine ⟨?_, hzero⟩
  rw [← h.shape.threaded.mem_iff, h.stack, h₀.shape.threaded.mem_iff]
  exact hplace

end Mid

/-- **The first loop**, from an environment that is in order. -/
theorem updateSlots_spec {pid : Fin 16} {henv : Hierarchy} {win : Windows}
    {place : Gid → Option Place} {lists : Place → List Gid}
    (h : Planted (fun _ => False) win place lists) (hrooted : Rooted win place)
    (hok : Orderly pid henv.toEnvironment win) :
    ∃ win' place' lists',
      updateSlots pid henv.toEnvironment (List.finRange 16) win = some (false, win') ∧
      lists' .stack = lists .stack ∧
      Planted (fun u => ∃ i, u = gidOf pid i) win' place' lists' ∧ Rooted win' place' := by
  obtain ⟨win', place', lists', hrun, hmid⟩ := (Mid.start pid henv h).run h hok (Nat.zero_le 16)
  exact ⟨win', place', lists', hrun, hmid.stack, hmid.planted h hok, hmid.rooted h hrooted⟩

end Shipwreck.Gui
