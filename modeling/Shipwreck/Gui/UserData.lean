import Shipwreck.Gui.TextPicture
import Shipwreck.Gui.WindowIds
import Shipwreck.Lib.Remainder

/-!
# What user data can do

The windows of a process and the text buffers they point to are in memory that the process can
write. `gui_update_proc` follows `parent_id` from there, and `GUITextBox::draw` divides by `char_w` and
takes remainders by `max`:

    new_parent = getGUIWindow(parent_id + (pid << 4))     null if it is out of range
    head / char_w, tail / char_w                          a fault if char_w is 0
    text[(y * char_w + x) % max]                          a fault if max is 0

`max` is not held against the size of `text`, and `head`, `tail` and the offsets may be negative.
`draw_isSome_iff` says for which values all reads are in order, and `survives_iff` what follows for a call
of `gui_update_proc` and the text boxes that are drawn after it.
-/

namespace Shipwreck.Gui

open CInt (Divides upTo Indexes RunIndexes)

namespace TextBox

/-- `TextBox::Buffer`, as it is in the memory of a process: any value may stand in any field.
`capacity` is `W * H`, the size of the array `text`. -/
structure Buffer where
  charW : Int32
  offsetX : Int32
  offsetY : Int32
  head : Int32
  tail : Int32
  max : Int32
  capacity : Nat
  text : Nat → UInt8

namespace Buffer

variable (buf : Buffer) (rect clip : Rect)

/-- `virt_x` -/
def virtX : Int32 := rect.l + buf.offsetX

/-- `virt_y` -/
def virtY : Int32 := rect.t + buf.offsetY

/-- `text_clip`: the clip in rows and columns of the text. -/
def textClip : Rect where
  l := (clip.l - buf.virtX rect) / charSpacingX
  t := (clip.t - buf.virtY rect) / charSpacingY
  r := (clip.r - buf.virtX rect) / charSpacingX
  b := (clip.b - buf.virtY rect) / charSpacingY

/-- `text_rect` -/
def textRect : Rect := ⟨0, buf.head / buf.charW, buf.charW, buf.tail / buf.charW⟩

/-- `buf->text[i % buf->max]`; `none` if the division faults, or if this is no cell of `text`. -/
def read (i : Int32) : Option UInt8 :=
  if Indexes buf.capacity buf.max i then some (buf.text (i % buf.max).toInt.toNat) else none

/-- One character. -/
def glyph (y x : Int32) : Option Glyph := do
  let textChar ← buf.read (y * buf.charW + x)
  some ⟨textChar, buf.virtX rect + x * charSpacingX, buf.virtY rect + y * charSpacingY⟩

/-- `GUITextBox::draw(clip)` from `buf` on: the characters that it draws, or `none` if a division
faults or if it reads beyond `text`. -/
def draw : Option (List Glyph) :=
  if Divides buf.head buf.charW ∧ Divides buf.tail buf.charW then
    match (buf.textClip rect clip).intersect buf.textRect with
    | none => some []
    | some textRect =>
      ((upTo textRect.t textRect.b).flatMap fun y =>
        (upTo textRect.l textRect.r).map fun x => (y, x)).mapM fun p => buf.glyph rect p.1 p.2
  else none

/-- The rows that are shown are read inside `text`. -/
def Fits : Prop :=
  Divides buf.head buf.charW ∧ Divides buf.tail buf.charW ∧
    ∀ textRect, (buf.textClip rect clip).intersect buf.textRect = some textRect →
      ∀ y ∈ upTo textRect.t textRect.b,
        RunIndexes buf.capacity buf.max (y * buf.charW + textRect.l)
          (textRect.r.toInt - textRect.l.toInt).toNat

end Buffer

/-! ## The text of a text box -/

/-- A list of computations comes to its end if all of them do. -/
theorem isSome_mapM {α β : Type} {f : α → Option β} {l : List α} :
    (l.mapM f).isSome = true ↔ ∀ a ∈ l, (f a).isSome = true := by
  induction l with
  | nil => simp
  | cons a l ih =>
    rw [List.mapM_cons, List.forall_mem_cons, ← ih]
    cases f a with
    | none => simp
    | some b => cases l.mapM f <;> simp

namespace Buffer

variable {buf : Buffer} {rect clip shown : Rect}

theorem isSome_glyph {y x : Int32} :
    (buf.glyph rect y x).isSome = true ↔ Indexes buf.capacity buf.max (y * buf.charW + x) := by
  unfold glyph read
  split
  case isTrue hindex => exact iff_of_true rfl hindex
  case isFalse hindex => exact iff_of_false Bool.false_ne_true hindex

/-- A row of the text that is shown. -/
theorem row_iff (hshown : (buf.textClip rect clip).intersect buf.textRect = some shown)
    (y : Int32) :
    (∀ x ∈ upTo shown.l shown.r, Indexes buf.capacity buf.max (y * buf.charW + x)) ↔
      RunIndexes buf.capacity buf.max (y * buf.charW + shown.l)
        (shown.r.toInt - shown.l.toInt).toNat := by
  obtain ⟨⟨hl, -, -, -⟩, hlr, -⟩ := Rect.intersect_eq_some hshown
  have hl0 : (0 : Int) ≤ shown.l.toInt := by
    rw [hl]
    exact Int.le_max_right _ _
  have hr := shown.r.toInt_lt
  rw [CInt.forall_mem_upTo hlr, ← CInt.runIndexes_iff (by omega)]
  simp only [Int32.add_assoc]

/-- **When the text is drawn without a fault**, and inside the array. -/
theorem draw_isSome_iff (buf : Buffer) (rect clip : Rect) :
    (buf.draw rect clip).isSome = true ↔ buf.Fits rect clip := by
  unfold draw Fits
  split
  case isTrue hdiv =>
    rw [and_iff_right hdiv.1, and_iff_right hdiv.2]
    cases hshown : (buf.textClip rect clip).intersect buf.textRect with
    | none => exact iff_of_true rfl fun _ h => by cases h
    | some shown =>
      simp only [Option.some.injEq, forall_eq']
      rw [isSome_mapM]
      simp only [List.forall_mem_flatMap, List.forall_mem_map, isSome_glyph, row_iff hshown]
  case isFalse hdiv =>
    exact iff_of_false Bool.false_ne_true fun h => hdiv ⟨h.1, h.2.1⟩

/-- A buffer as the constructor and the functions of `TextBox` leave it. -/
structure InOrder (buf : Buffer) : Prop where
  charW : 0 < buf.charW.toInt
  max : 0 < buf.max.toInt
  capacity : buf.max.toInt ≤ buf.capacity
  head : 0 ≤ buf.head.toInt
  tail : 0 ≤ buf.tail.toInt
  room : buf.tail.toInt + buf.charW.toInt < 2147483648

/-- The positions of the characters that are shown. -/
theorem InOrder.toInt_position (h : buf.InOrder)
    (hshown : (buf.textClip rect clip).intersect buf.textRect = some shown) {y x : Int32}
    (hy : y ∈ upTo shown.t shown.b) (hx : x ∈ upTo shown.l shown.r) :
    0 ≤ y.toInt ∧ 0 ≤ x.toInt ∧
      (y * buf.charW + x).toInt = y.toInt * buf.charW.toInt + x.toInt := by
  obtain ⟨⟨hl, ht, hr, hb⟩, -, -⟩ := Rect.intersect_eq_some hshown
  rw [CInt.mem_upTo] at hy hx
  have hcharW := h.charW
  have hroom := h.room
  have hhead := (CInt.toInt_div_mod_of_nonneg h.head hcharW).1
  have htail := (CInt.toInt_div_mod_of_nonneg h.tail hcharW).1
  have hx0 : (0 : Int) ≤ x.toInt :=
    Int.le_trans (hl ▸ Int.le_max_right _ _) hx.1
  have hxW : x.toInt ≤ buf.charW.toInt :=
    Int.le_trans hx.2 (hr ▸ Int.min_le_right _ _)
  have hy0 : 0 ≤ y.toInt := by
    have hquot : 0 ≤ (buf.head / buf.charW).toInt := hhead ▸ Int.ediv_nonneg h.head (by omega)
    exact Int.le_trans (Int.le_trans hquot (ht ▸ Int.le_max_right _ _)) hy.1
  have hyb : y.toInt ≤ buf.tail.toInt / buf.charW.toInt :=
    htail ▸ Int.le_trans hy.2 (hb ▸ Int.min_le_right _ _)
  -- the last row that is shown begins at `tail` or before
  have hrow : y.toInt * buf.charW.toInt ≤ buf.tail.toInt :=
    Int.le_trans (Int.mul_le_mul_of_nonneg_right hyb (by omega)) (Int.ediv_mul_le _ (by omega))
  have hrow0 : 0 ≤ y.toInt * buf.charW.toInt := Int.mul_nonneg hy0 (by omega)
  have hprod : (y * buf.charW).toInt = y.toInt * buf.charW.toInt :=
    CInt.toInt_mul_of_fits (by omega) (by omega)
  refine ⟨hy0, hx0, ?_⟩
  rw [CInt.toInt_add_of_fits (by omega) (by omega), hprod]

/-- A character of a buffer in order. -/
theorem InOrder.read (h : buf.InOrder) {i : Int32} (hi : 0 ≤ i.toInt) :
    buf.read i = some (buf.text (i.toInt.toNat % buf.max.toInt.toNat)) := by
  have hmax := h.max
  have hcapacity := h.capacity
  have hne : buf.max ≠ 0 := by
    intro hzero
    rw [hzero] at hmax
    exact absurd hmax (by decide)
  have habs : buf.max.toInt.natAbs = buf.max.toInt.toNat := by omega
  have hlt : i.toInt.toNat % buf.max.toInt.toNat < buf.max.toInt.toNat :=
    Nat.mod_lt _ (by omega)
  have hindex : Indexes buf.capacity buf.max i := by
    rw [CInt.indexes_of_nonneg hne hi, habs]
    omega
  rw [Buffer.read, if_pos hindex, CInt.toInt_mod_of_nonneg hi, habs, Int.toNat_natCast]

/-- A buffer in order is drawn without a fault, wherever the window and the clip are. -/
theorem InOrder.fits (h : buf.InOrder) (rect clip : Rect) : buf.Fits rect clip := by
  refine ⟨CInt.divides_of_pos h.charW, CInt.divides_of_pos h.charW, ?_⟩
  intro shown hshown y hy
  rw [← row_iff hshown]
  intro x hx
  obtain ⟨hy0, hx0, hposition⟩ := h.toInt_position hshown hy hx
  have hcharW := h.charW
  have hrow0 : 0 ≤ y.toInt * buf.charW.toInt := Int.mul_nonneg hy0 (by omega)
  have hdrawn : (buf.glyph rect y x).isSome = true := by
    rw [glyph, h.read (by omega)]
    rfl
  exact isSome_glyph.mp hdrawn

end Buffer

/-- The buffer of a text box. -/
def toBuffer (W H : Nat) (box : TextBox) : Buffer where
  charW := Int32.ofNat W
  offsetX := box.offsetX
  offsetY := box.offsetY
  head := Int32.ofNat box.head
  tail := Int32.ofNat box.tail
  max := Int32.ofNat (W * H)
  capacity := W * H
  text := box.text

section

variable {W H : Nat} {box : TextBox}

theorem toBuffer_inOrder (hW : 0 < W) (hH : 0 < H) (hsize : W * H < 2147483648)
    (hhead : box.head ≤ box.tail) (htail : box.tail + W < 2147483648) :
    (box.toBuffer W H).InOrder := by
  have hpos : 0 < W * H := Nat.mul_pos hW hH
  have hcharW : (Int32.ofNat W).toInt = W := Int32.toInt_ofNat_of_lt (by omega)
  have hmax : (Int32.ofNat (W * H)).toInt = (W * H : Nat) := Int32.toInt_ofNat_of_lt hsize
  have hheadInt : (Int32.ofNat box.head).toInt = box.head := Int32.toInt_ofNat_of_lt (by omega)
  have htailInt : (Int32.ofNat box.tail).toInt = box.tail := Int32.toInt_ofNat_of_lt (by omega)
  refine ⟨hcharW ▸ by omega, hmax ▸ by omega, Int.le_of_eq hmax, hheadInt ▸ Int.natCast_nonneg _,
    htailInt ▸ Int.natCast_nonneg _, ?_⟩
  simp only [toBuffer, hcharW, htailInt]
  omega

/-- A list of computations that all have a result. -/
theorem mapM_eq_some {α β : Type} {f : α → Option β} {g : α → β} {l : List α}
    (h : ∀ a ∈ l, f a = some (g a)) : l.mapM f = some (l.map g) := by
  induction l with
  | nil => rfl
  | cons a l ih =>
    rw [List.mapM_cons, h a List.mem_cons_self, ih fun b hb => h b (List.mem_cons_of_mem a hb)]
    rfl

/-- The character of a row and a column, as `draw` finds it. -/
def cellGlyph (W H : Nat) (box : TextBox) (y x : Int32) : Glyph where
  char := box.text ((y.toInt.toNat * W + x.toInt.toNat) % (W * H))
  x := box.rect.l + box.offsetX + x * charSpacingX
  y := box.rect.t + box.offsetY + y * charSpacingY

theorem toBuffer_glyph (horder : (box.toBuffer W H).InOrder) (hW : W < 2147483648)
    (hsize : W * H < 2147483648) {y x : Int32} (hy : 0 ≤ y.toInt) (hx : 0 ≤ x.toInt)
    (hposition : (y * Int32.ofNat W + x).toInt = y.toInt * (Int32.ofNat W).toInt + x.toInt) :
    (box.toBuffer W H).glyph box.rect y x = some (cellGlyph W H box y x) := by
  have hmax : (Int32.ofNat (W * H)).toInt.toNat = W * H := by
    rw [Int32.toInt_ofNat_of_lt hsize, Int.toNat_natCast]
  rw [Int32.toInt_ofNat_of_lt hW] at hposition
  have hrow : 0 ≤ y.toInt * (W : Int) := Int.mul_nonneg hy (Int.natCast_nonneg W)
  have htextOffset : (y * Int32.ofNat W + x).toInt.toNat = y.toInt.toNat * W + x.toInt.toNat := by
    rw [hposition, Int.toNat_add hrow hx, Int.toNat_mul hy (Int.natCast_nonneg W), Int.toNat_natCast]
  have hread : (box.toBuffer W H).read (y * Int32.ofNat W + x) =
      some (box.text ((y.toInt.toNat * W + x.toInt.toNat) % (W * H))) := by
    rw [horder.read (by omega), htextOffset]
    show some (box.text (_ % (Int32.ofNat (W * H)).toInt.toNat)) = _
    rw [hmax]
  show ((box.toBuffer W H).read (y * Int32.ofNat W + x)).bind _ = _
  rw [hread]
  rfl

/-- **For the text boxes of `objects.h`** the two descriptions of `draw` agree. -/
theorem toBuffer_draw (clip : Rect) (hW : 0 < W) (hH : 0 < H) (hsize : W * H < 2147483648)
    (hhead : box.head ≤ box.tail) (htail : box.tail + W < 2147483648) :
    (box.toBuffer W H).draw box.rect clip = some (draw W H clip box) := by
  have horder := toBuffer_inOrder hW hH hsize hhead htail
  have hcharW : (Int32.ofNat W).toInt = W := Int32.toInt_ofNat_of_lt (by omega)
  have hmax : (Int32.ofNat (W * H)).toInt = (W * H : Nat) := Int32.toInt_ofNat_of_lt hsize
  -- `head / char_w` and `tail / char_w`
  have hquot {n : Nat} (hn : n < 2147483648) :
      Int32.ofNat n / Int32.ofNat W = Int32.ofNat (n / W) := by
    have hle : n / W ≤ n := Nat.div_le_self n W
    have hint : (Int32.ofNat n).toInt = n := Int32.toInt_ofNat_of_lt hn
    apply Int32.toInt_inj.mp
    rw [(CInt.toInt_div_mod_of_nonneg (by omega) (by omega)).1, hint, hcharW,
      Int32.toInt_ofNat_of_lt (by omega), Int.natCast_ediv]
  have hrect : (box.toBuffer W H).textRect = textRect W box := by
    simp only [Buffer.textRect, textRect, toBuffer, hquot (show box.head < 2147483648 by omega),
      hquot (show box.tail < 2147483648 by omega)]
  have hclip : (box.toBuffer W H).textClip box.rect clip = textClip clip box := rfl
  unfold Buffer.draw draw
  rw [if_pos ⟨CInt.divides_of_pos horder.charW, CInt.divides_of_pos horder.charW⟩, ← hclip, ← hrect]
  cases hshown :
      ((box.toBuffer W H).textClip box.rect clip).intersect (box.toBuffer W H).textRect with
  | none => rfl
  | some shown =>
    let cells := (upTo shown.t shown.b).flatMap fun y => (upTo shown.l shown.r).map fun x => (y, x)
    have hcells : ∀ p ∈ cells,
        (box.toBuffer W H).glyph box.rect p.1 p.2 = some (cellGlyph W H box p.1 p.2) := by
      intro p hp
      obtain ⟨y, hy, hp⟩ := List.mem_flatMap.mp hp
      obtain ⟨x, hx, rfl⟩ := List.mem_map.mp hp
      obtain ⟨hy0, hx0, hposition⟩ := horder.toInt_position hshown hy hx
      exact toBuffer_glyph horder (by omega) hsize hy0 hx0 hposition
    show cells.mapM _ = _
    rw [mapM_eq_some hcells]
    simp only [cells, List.map_flatMap, List.map_map]
    rfl

end

end TextBox

/-! ## The null pointer -/

section

variable (pid : Fin 16) (env : Environment)

/-- `getGUIWindow(parent_id + (pid << 4))` is asked for, and null. -/
def ParentNull (i : Fin 16) : Prop :=
  (env.windows i).parentId ≠ -1 ∧ parentGid pid (env.windows i).parentId = none

instance (i : Fin 16) : Decidable (ParentNull pid env i) := inferInstanceAs (Decidable (_ ∧ _))

/-- `updateSlot` comes to `new_parent->windata`, and `new_parent` is null. -/
def slotUsesNull (i : Fin 16) (win : Windows) : Bool :=
  let user := env.windows i
  if user.winclass = .none ∨ user.needsUpdate = false then false
  else
    match recreate pid env i win with
    | none => false
    | some win =>
      let win := win.modify (gidOf pid i) (·.setWindata (user.windata env.offset))
      -- `parent_id` is looked at when the window has left its old parent
      (leaveParent (gidOf pid i) win).isSome && decide (ParentNull pid env i)

/-- `updateSlots` comes there. -/
def slotsUseNull : List (Fin 16) → Windows → Bool
  | [], _ => false
  | i :: is, win =>
    slotUsesNull pid env i win ||
      match updateSlot pid env i win with
      | some (false, win) => slotsUseNull is win
      | _ => false

/-- `gui_update_proc` comes there. -/
def usesNull (wm : WindowManager) : Bool := slotsUseNull pid env (List.finRange 16) wm.winIndex

end

section

variable {pid i : Fin 16} {env : Environment} {win win' win₀ : Windows} {k : Nat} {returned : Bool}

theorem recreate_updated (howned : Owned win) {win₁ : Windows}
    (hclass : (env.windows i).winclass ≠ .none) (hneeds : (env.windows i).needsUpdate ≠ false)
    (hrun : recreate pid env i win = some win₁) : env.Updated i := by
  refine ⟨Bool.eq_true_of_not_eq_false hneeds, ?_⟩
  rw [recreate] at hrun
  split at hrun
  case isTrue hsame =>
    rw [hsame] at hclass ⊢
    exact (howned _ hclass).1
  case isFalse =>
    obtain ⟨kind, hkind, -⟩ := Option.map_eq_some_iff.mp hrun
    rw [hkind]
    rfl

theorem slotUsesNull_eq_true (howned : Owned win) (hnull : slotUsesNull pid env i win = true) :
    env.Updated i ∧ ParentNull pid env i := by
  rw [slotUsesNull] at hnull
  split at hnull
  case isTrue => cases hnull
  case isFalse hmarked =>
    split at hnull
    case h_1 => cases hnull
    case h_2 win₁ hcopy =>
      rw [Bool.and_eq_true, decide_eq_true_eq] at hnull
      obtain ⟨hclass, hneeds⟩ := not_or.mp hmarked
      exact ⟨recreate_updated howned hclass hneeds hcopy, hnull.2⟩

/-- A slot that is copied to the end has a parent that there is. -/
theorem not_parentNull_of_updateSlot (hupdated : env.Updated i)
    (hrun : updateSlot pid env i win = some (returned, win')) : ¬ ParentNull pid env i := by
  rintro ⟨hchild, hnull⟩
  obtain ⟨win₁, win₂, -, -, henter⟩ := updateSlot_of_updated hupdated hrun
  rw [enterParent] at henter
  simp only [if_pos hchild, hnull] at henter
  cases henter

/-- Where the null pointer is used, a slot that is copied has no parent. -/
theorem Stamped.usesNull (h : Stamped pid env win₀ k win) (howned : Owned win₀) (hk : k ≤ 16)
    (hgo : ∀ j : Fin 16, j.val < k → ¬ Stops pid env win₀ j)
    (hnull : slotsUseNull pid env ((List.finRange 16).drop k) win = true) :
    ∃ i, Taken pid env win₀ i ∧ ParentNull pid env i := by
  induction hn : 16 - k generalizing k win with
  | zero =>
    rw [List.drop_of_length_le (by rw [List.length_finRange]; omega)] at hnull
    cases hnull
  | succ n ih =>
    have hlt : k < 16 := by omega
    rw [List.drop_eq_getElem_cons (by simpa using hlt), slotsUseNull, List.getElem_finRange,
      Bool.or_eq_true] at hnull
    rcases hnull with hself | hrest
    · obtain ⟨hupdated, hparent⟩ := slotUsesNull_eq_true (h.owned howned) hself
      exact ⟨⟨k, hlt⟩, ⟨hupdated, fun j hj => hgo j (Fin.lt_def.mp hj)⟩, hparent⟩
    · split at hrest
      case h_2 => cases hrest
      case h_1 win₁ hslot =>
        obtain ⟨hstamped, hreturned⟩ := h.step howned (i := ⟨k, hlt⟩) rfl hslot
        have hnext : ¬ Stops pid env win₀ ⟨k, hlt⟩ :=
          fun hstop => Bool.false_ne_true (hreturned.mpr hstop)
        exact ih hstamped (by omega) (not_stops_succ hgo hnext) hrest (by omega)

/-- Where the loop comes to its end, all slots that are copied have a parent. -/
theorem Stamped.not_parentNull (h : Stamped pid env win₀ k win) (howned : Owned win₀)
    (hrun : updateSlots pid env ((List.finRange 16).drop k) win = some (returned, win')) {i : Fin 16}
    (hi : k ≤ i.val) (htaken : Taken pid env win₀ i) : ¬ ParentNull pid env i := by
  -- the loop either has not come to the slot yet or has found its parent
  have hloop := updateSlots_rule
    (I := fun j win => Stamped pid env win₀ j win ∧ (j ≤ i.val ∨ ¬ ParentNull pid env i))
    (R := fun _ => ¬ ParentNull pid env i) ?_ ?_ (by omega) ⟨h, Or.inl hi⟩ hrun
  · rcases hloop with ⟨-, hfound⟩ | ⟨-, -, hlate | hfound⟩
    · exact hfound
    · omega
    · exact hfound
  · rintro j win win' ⟨h, hlate | hfound⟩ hslot
    · refine ⟨(h.step howned rfl hslot).1, ?_⟩
      rcases Nat.lt_or_eq_of_le hlate with hlt | heq
      · exact Or.inl hlt
      · obtain rfl : j = i := Fin.ext heq
        exact Or.inr (not_parentNull_of_updateSlot htaken.1 hslot)
    · exact ⟨(h.step howned rfl hslot).1, Or.inr hfound⟩
  · rintro j win win' ⟨h, hlate | hfound⟩ hslot
    · rcases Nat.lt_or_eq_of_le hlate with hlt | heq
      · -- the function would have returned before it came to the slot
        exact absurd ((h.step howned rfl hslot).2.mp rfl) (htaken.2 j hlt)
      · obtain rfl : j = i := Fin.ext heq
        exact not_parentNull_of_updateSlot htaken.1 hslot
    · exact hfound

/-- A call that returns has not used the null pointer, and one that copies a slot without parent does not
return. -/
theorem usesNull_iff {wm : WindowManager} (howned : Owned wm.winIndex)
    (hdefined : guiUpdateProc pid env wm ≠ none ∨ usesNull pid env wm = true) :
    usesNull pid env wm = true ↔ ∃ i, Taken pid env wm.winIndex i ∧ ParentNull pid env i := by
  have hbelow : ∀ j : Fin 16, j.val < 0 → ¬ Stops pid env wm.winIndex j :=
    fun j hj => absurd hj (Nat.not_lt_zero _)
  constructor
  · intro hnull
    exact (Stamped.start pid env wm.winIndex).usesNull howned (Nat.zero_le 16) hbelow hnull
  · rintro ⟨i, htaken, hparent⟩
    apply hdefined.resolve_left
    rw [not_not, ← Option.not_isSome_iff_eq_none, Option.isSome_iff_exists]
    rintro ⟨wm', hrun⟩
    obtain ⟨⟨returned, win⟩, hslots, -⟩ := Option.bind_eq_some_iff.mp hrun
    exact (Stamped.start pid env wm.winIndex).not_parentNull howned hslots (Nat.zero_le _) htaken
      hparent

end

/-! ## A call, and the text boxes that are drawn after it -/

/-- No edge of `clip` is outside, and none is on the wrong side of the opposite one. -/
structure Rect.Contains (rect clip : Rect) : Prop where
  l : rect.l ≤ clip.l
  t : rect.t ≤ clip.t
  r : clip.r ≤ rect.r
  b : clip.b ≤ rect.b
  l_le_r : clip.l ≤ clip.r
  t_le_b : clip.t ≤ clip.b

/-- `GUITextBox::draw(clip)`, from `windata.display_data` on. -/
def drawText (buffers : UInt32 → TextBox.Buffer) (address : UInt32) (rect clip : Rect) :
    Option (List TextBox.Glyph) :=
  if address = 0 then some [] else (buffers address).draw rect clip

/-- A text box of the process, the address of its buffer, and a part of it that may have to be drawn. -/
structure ShowsText (pid : Fin 16) (wm : WindowManager) (i : Fin 16) (address : UInt32)
    (clip : Rect) : Prop where
  kind : (wm.winIndex (gidOf pid i)).kind = .textBox
  buffer : (wm.winIndex (gidOf pid i)).windata.displayData = .bits address
  clip : (wm.winIndex (gidOf pid i)).windata.rect.Contains clip

/-- The call of `gui_update_proc` does not use the null pointer, and the text boxes can be drawn after it:
no division faults, and all that is read is in the buffers. -/
structure Survives (pid : Fin 16) (env : Environment) (wm : WindowManager)
    (buffers : UInt32 → TextBox.Buffer) : Prop where
  call : usesNull pid env wm = false
  draw : ∀ wm', guiUpdateProc pid env wm = some wm' → ∀ i address clip,
    ShowsText pid wm' i address clip →
      (drawText buffers address (wm'.winIndex (gidOf pid i)).windata.rect clip).isSome = true

/-- Every slot that is copied has a parent in `win_index` or none, and the buffers fit what is drawn of
them. -/
structure Harmless (pid : Fin 16) (env : Environment) (wm : WindowManager)
    (buffers : UInt32 → TextBox.Buffer) : Prop where
  parent : ∀ i, Taken pid env wm.winIndex i → ¬ ParentNull pid env i
  text : ∀ wm', guiUpdateProc pid env wm = some wm' → ∀ i address clip,
    ShowsText pid wm' i address clip → address ≠ 0 →
      (buffers address).Fits (wm'.winIndex (gidOf pid i)).windata.rect clip

section

variable {buffers : UInt32 → TextBox.Buffer} {pid : Fin 16} {env : Environment} {wm : WindowManager}

theorem drawText_isSome_iff {address : UInt32} {rect clip : Rect} :
    (drawText buffers address rect clip).isSome = true ↔
      (address ≠ 0 → (buffers address).Fits rect clip) := by
  unfold drawText
  split
  case isTrue hzero => exact iff_of_true rfl fun hne => absurd hzero hne
  case isFalse hne => rw [TextBox.Buffer.draw_isSome_iff, forall_prop_of_true hne]

/-- Buffers as `TextBox` keeps them are harmless, wherever the windows are. -/
theorem Harmless.of_inOrder (hparent : ∀ i, env.Updated i → ¬ ParentNull pid env i)
    (hbuffers : ∀ address, (buffers address).InOrder) : Harmless pid env wm buffers where
  parent i htaken := hparent i htaken.1
  text _ _ _ address _ _ _ := (hbuffers address).fits _ _

end

/-- **What user data can do**: where they are harmless, the window manager survives them; and it survives
no others, if it follows no other wild pointer before. -/
theorem survives_iff {wm : WindowManager} (hreachable : windowSystem.Reachable wm) (pid : Fin 16)
    (env : Environment) (buffers : UInt32 → TextBox.Buffer) :
    (Harmless pid env wm buffers → Survives pid env wm buffers) ∧
      (guiUpdateProc pid env wm ≠ none ∨ usesNull pid env wm = true →
        (Survives pid env wm buffers ↔ Harmless pid env wm buffers)) := by
  have howned := owned_of_reachable hreachable
  have hsafe (hharmless : Harmless pid env wm buffers) : Survives pid env wm buffers := by
    refine ⟨Bool.eq_false_iff.mpr fun hnull => ?_, fun wm' hrun i address clip hshows => ?_⟩
    · obtain ⟨i, htaken, hparent⟩ := (usesNull_iff howned (Or.inr hnull)).mp hnull
      exact hharmless.parent i htaken hparent
    · exact drawText_isSome_iff.mpr (hharmless.text wm' hrun i address clip hshows)
  refine ⟨hsafe, fun hdefined => ⟨fun hsurvives => ⟨?_, ?_⟩, hsafe⟩⟩
  · intro i htaken hparent
    have hnull := (usesNull_iff howned hdefined).mpr ⟨i, htaken, hparent⟩
    rw [hsurvives.call] at hnull
    cases hnull
  · intro wm' hrun i address clip hshows
    exact drawText_isSome_iff.mp (hsurvives.draw wm' hrun i address clip hshows)

/-- A buffer of 80 columns and 25 rows, with four characters in it. -/
def blankBuffer (charW : Int32) : TextBox.Buffer where
  charW := charW
  offsetX := 0
  offsetY := 0
  head := 0
  tail := 4
  max := 2000
  capacity := 2000
  text _ := 32

theorem survives_iff_guiModel :
    windowSystem.Reachable (boot ⟨0, 0, 800, 600⟩ 4096 fun _ => 0) ∧
    (guiUpdateProc 0 (guiModel true true true).toEnvironment (boot ⟨0, 0, 800, 600⟩ 4096 fun _ => 0) ≠
        none) ∧
    (Survives 0 (guiModel true true true).toEnvironment (boot ⟨0, 0, 800, 600⟩ 4096 fun _ => 0)
        (fun _ => blankBuffer 80) ↔
      Harmless 0 (guiModel true true true).toEnvironment (boot ⟨0, 0, 800, 600⟩ 4096 fun _ => 0)
        fun _ => blankBuffer 80) := by
  have hreachable : windowSystem.Reachable (boot ⟨0, 0, 800, 600⟩ 4096 fun _ => 0) :=
    ⟨_, [], ⟨_, _, _, rfl⟩, rfl⟩
  have hreturns : guiUpdateProc 0 (guiModel true true true).toEnvironment
      (boot ⟨0, 0, 800, 600⟩ 4096 fun _ => 0) ≠ none :=
    Option.isSome_iff_ne_none.mp (by decide +kernel)
  exact ⟨hreachable, hreturns, (survives_iff hreachable 0 _ _).2 (Or.inl hreturns)⟩

/-- A window whose parent is the slot 300. -/
def orphan : Environment where
  windows i := if i.val = 1 then ⟨.window, ⟨0, 0, 100, 100⟩, 0, 0, 1, 300, true⟩
    else ⟨.none, ⟨0, 0, 0, 0⟩, 0, 0, 0, -1, false⟩
  offset := 0

/-- A buffer without columns, and a window with a wrong parent. -/
theorem not_survives : ∃ wm, windowSystem.Reachable wm ∧
    (∃ env, ¬ Survives 0 env wm fun _ => blankBuffer 0) ∧
    ∃ env, ¬ Survives 0 env wm fun _ => blankBuffer 80 := by
  refine ⟨boot ⟨0, 0, 800, 600⟩ 4096 fun _ => 0, ⟨_, [], ⟨_, _, _, rfl⟩, rfl⟩,
    ⟨(guiModel true true true).toEnvironment, fun hsurvives => ?_⟩, orphan, fun hsurvives => ?_⟩
  · have hrun : (guiUpdateProc 0 (guiModel true true true).toEnvironment
        (boot ⟨0, 0, 800, 600⟩ 4096 fun _ => 0)).map (fun wm' => ((wm'.winIndex 3).kind,
          (wm'.winIndex 3).windata.displayData, (wm'.winIndex 3).windata.rect)) =
        some (.textBox, .bits 4096, ⟨220, 170, 580, 430⟩) := by decide +kernel
    obtain ⟨wm', hwm, hdata⟩ := Option.map_eq_some_iff.mp hrun
    simp only [Prod.mk.injEq] at hdata
    obtain ⟨hkind, hbuffer, hrect⟩ := hdata
    have hdraw := hsurvives.draw wm' hwm 3 4096 ⟨220, 170, 580, 430⟩
      ⟨hkind, hbuffer, by
        show (wm'.winIndex 3).windata.rect.Contains _
        rw [hrect]
        constructor <;> decide⟩
    rw [drawText_isSome_iff] at hdraw
    exact (hdraw (by decide)).1.1 rfl
  · have hcall := hsurvives.call
    exact absurd hcall (by decide +kernel)

end Shipwreck.Gui
