import Shipwreck.Gui.Pointer
import Shipwreck.Lib.Lanes

/-!
# Blending colours

`fast_blend` and `fast_blend_factor` of `gui/colors.h` mix two colours without taking their channels
apart. The low bits of every channel are cleared first, so that nothing is shifted into the channel below:

    14       10 9        5 4        0
    |   red    |  green   |   blue   |
    | 1 1 1 0 0| 1 1 1 0 0| 1 1 1 0 0|      the mask for the factor 2

The mask is the complement of `maskbits + (maskbits << 5) + (maskbits << 10)`. For a factor of at most 5
the three copies of `maskbits` lie apart, and every channel is blended on its own. For 6 and 7, which an
alpha of three bits can hold too, they overlap, and their sum is a mask of another shape.
-/

namespace Shipwreck.Gui

open Lanes (lane)

/-! ## Colours -/

/-- The fields of `ColorRGB`, which `ushort` colours have as well. -/
inductive Channel where
  | blue
  | green
  | red
  deriving DecidableEq, Repr

/-- The place of a field in `ColorRGB`. -/
def Channel.index : Channel → Nat
  | blue => 0
  | green => 1
  | red => 2

/-- The five bits of a channel. -/
def channel (c : UInt16) (ch : Channel) : Nat := lane 5 ch.index c.toNat

/-- `fast_blend` -/
def fastBlend (a b : UInt16) : UInt16 :=
  let a := a &&& 0b111101111011111
  let b := b &&& 0b111101111011111
  ((a.toUInt32 + b.toUInt32) >>> 1).toUInt16

/-- `(1 << factor) - 1` -/
def maskbits (factor : UInt32) : UInt32 := (1 <<< factor) - 1

/-- `mask` -/
def blendMask (factor : UInt32) : UInt32 :=
  ~~~(maskbits factor + (maskbits factor <<< 5) + (maskbits factor <<< 10))

/-- `fast_blend_factor` -/
def fastBlendFactor (a b : UInt16) (factor : UInt32) : UInt16 :=
  let a := (a.toUInt32 &&& blendMask factor).toUInt16
  let b := (b.toUInt32 &&& blendMask factor).toUInt16
  ((a.toUInt32 * maskbits factor + b.toUInt32) >>> factor).toUInt16

/-- Every channel is blended on its own. -/
def Blended (factor : Nat) (a b c : UInt16) : Prop :=
  ∀ ch, channel c ch =
    channel a ch / 2 ^ factor * (2 ^ factor - 1) + channel b ch / 2 ^ factor

/-- The colours whose channels do not get into each other's way. -/
def Apart (factor : Nat) (a b : UInt16) : Prop :=
  factor ≤ 5 ∨
  factor = 6 ∧ channel a .green = 0 ∧ channel a .red ≤ 1 ∧ channel b .green ≤ 1 ∧
    channel b .red ≤ 1 ∨
  factor = 7 ∧ (channel a .green = 0 ∨ channel a .green = 2) ∧ channel a .red ≤ 3 ∧
    channel b .green ≤ 3 ∧ channel b .red ≤ 3

section

variable {a b c : UInt16} {factor : UInt32}

/-- The channels of a colour of 15 bits. -/
theorem ofDigits_channels (hc : c < 0x8000) :
    Nat.ofDigits (2 ^ 5) [channel c .blue, channel c .green, channel c .red] = c.toNat :=
  Lanes.ofDigits_lanes (w := 5) (k := 3) (UInt16.lt_iff_toNat_lt.mp hc)

theorem channel_lt (c : UInt16) (ch : Channel) : channel c ch < 2 ^ 5 := Lanes.lane_lt

theorem forall_channels_lt (c : UInt16) :
    ∀ x ∈ [channel c .blue, channel c .green, channel c .red], x < 2 ^ 5 := by
  intro x hx
  simp only [List.mem_cons, List.not_mem_nil, or_false] at hx
  rcases hx with rfl | rfl | rfl <;> exact channel_lt c _

/-- The channels of a word that is put together from them. -/
theorem channel_eq {x y z : Nat} (hx : x < 2 ^ 5) (hy : y < 2 ^ 5) (hz : z < 2 ^ 5)
    (hc : c.toNat = Nat.ofDigits (2 ^ 5) [x, y, z]) :
    channel c .blue = x ∧ channel c .green = y ∧ channel c .red = z := by
  have hlanes : ∀ i, lane 5 i c.toNat = [x, y, z].getD i 0 := by
    rw [hc]
    apply Lanes.lane_ofDigits
    simp only [List.forall_mem_cons]
    exact ⟨hx, hy, hz, fun _ h => absurd h List.not_mem_nil⟩
  exact ⟨hlanes 0, hlanes 1, hlanes 2⟩

/-! ## The mask -/

theorem toNat_maskbits {k : Nat} (hk : k < 8) : (maskbits (UInt32.ofNat k)).toNat = 2 ^ k - 1 := by
  revert k
  decide

/-- Up to 5, the mask has the high bits of each channel. -/
theorem blendMask_high {k : Nat} (hk : k < 6) : (blendMask (UInt32.ofNat k)).toNat % 2 ^ 15 =
    Nat.ofDigits (2 ^ 5) (List.replicate 3 (2 ^ 5 - 2 ^ k)) := by
  revert k
  decide

theorem blendMask_six :
    (blendMask 6).toNat % 2 ^ 15 = Nat.ofDigits (2 ^ 5) [0, 2 ^ 5 - 2 ^ 0, 2 ^ 5 - 2 ^ 1] := by
  decide

theorem blendMask_seven : (blendMask 7).toNat % 2 ^ 15 = Nat.ofDigits (2 ^ 5) [0, 29, 2 ^ 5 - 2 ^ 2] := by
  decide

/-- A colour of 15 bits under the mask. -/
theorem toNat_masked (ha : a < 0x8000) (factor : UInt32) :
    (a.toUInt32 &&& blendMask factor).toUInt16.toNat =
      a.toNat &&& ((blendMask factor).toNat % 2 ^ 15) := by
  have hlt : a.toNat < 2 ^ 15 := UInt16.lt_iff_toNat_lt.mp ha
  have hand : a.toNat &&& (blendMask factor).toNat ≤ a.toNat := Nat.and_le_left
  rw [Lanes.and_mod_of_lt hlt, UInt32.toNat_toUInt16, UInt32.toNat_and, UInt16.toNat_toUInt32]
  exact Nat.mod_eq_of_lt (by omega)

/-- A weighted mean of two colours of 15 bits has 15 bits. -/
theorem mean_lt {A B : Nat} (hA : A < 2 ^ 15) (hB : B < 2 ^ 15) (k : Nat) :
    (A * (2 ^ k - 1) + B) / 2 ^ k < 2 ^ 15 := by
  have hpos := Nat.two_pow_pos k
  have hprod : A * (2 ^ k - 1) ≤ (2 ^ 15 - 1) * (2 ^ k - 1) :=
    Nat.mul_le_mul_right _ (Nat.le_pred_of_lt hA)
  apply Nat.div_lt_of_lt_mul
  omega

theorem masked_lt (hc : c < 0x8000) (mask : Nat) : c.toNat &&& mask < 2 ^ 15 :=
  Nat.lt_of_le_of_lt Nat.and_le_left (UInt16.lt_iff_toNat_lt.mp hc)

/-- **`fast_blend_factor` without overflow**, on colours of 15 bits. -/
theorem toNat_fastBlendFactor (ha : a < 0x8000) (hb : b < 0x8000) {k : Nat} (hk : k < 8) :
    (fastBlendFactor a b (UInt32.ofNat k)).toNat =
      ((a.toNat &&& ((blendMask (UInt32.ofNat k)).toNat % 2 ^ 15)) * (2 ^ k - 1) +
        (b.toNat &&& ((blendMask (UInt32.ofNat k)).toNat % 2 ^ 15))) / 2 ^ k := by
  have hfactor : (UInt32.ofNat k).toNat = k := by
    rw [UInt32.toNat_ofNat', Nat.mod_eq_of_lt (by omega)]
  have hpow : 2 ^ k ≤ 2 ^ 7 := Nat.pow_le_pow_right (by decide) (by omega)
  have hpos := Nat.two_pow_pos k
  obtain ⟨A, hA⟩ : ∃ A, A = a.toNat &&& ((blendMask (UInt32.ofNat k)).toNat % 2 ^ 15) := ⟨_, rfl⟩
  obtain ⟨B, hB⟩ : ∃ B, B = b.toNat &&& ((blendMask (UInt32.ofNat k)).toNat % 2 ^ 15) := ⟨_, rfl⟩
  have hA15 : A < 2 ^ 15 := hA ▸ masked_lt ha _
  have hB15 : B < 2 ^ 15 := hB ▸ masked_lt hb _
  have hprod : A * (2 ^ k - 1) ≤ (2 ^ 15 - 1) * (2 ^ k - 1) :=
    Nat.mul_le_mul_right _ (Nat.le_pred_of_lt hA15)
  have hmean := mean_lt hA15 hB15 k
  rw [fastBlendFactor]
  simp only [UInt32.toNat_toUInt16, UInt32.toNat_shiftRight, UInt32.toNat_add, UInt32.toNat_mul,
    UInt16.toNat_toUInt32, toNat_masked ha, toNat_masked hb, toNat_maskbits hk, hfactor, ← hA, ← hB]
  rw [Nat.mod_eq_of_lt (show A * (2 ^ k - 1) < 2 ^ 32 by omega),
    Nat.mod_eq_of_lt (show A * (2 ^ k - 1) + B < 2 ^ 32 by omega),
    Nat.mod_eq_of_lt (show k < 32 by omega), Nat.shiftRight_eq_div_pow,
    Nat.mod_eq_of_lt (Nat.lt_of_lt_of_le hmean (by decide))]

theorem fastBlendFactor_lt (ha : a < 0x8000) (hb : b < 0x8000) {k : Nat} (hk : k < 8) :
    fastBlendFactor a b (UInt32.ofNat k) < 0x8000 := by
  rw [UInt16.lt_iff_toNat_lt, toNat_fastBlendFactor ha hb hk]
  exact mean_lt (masked_lt ha _) (masked_lt hb _) k

/-! ## `fast_blend` -/

/-- The mask of `fast_blend` keeps the last bit of blue, which has no channel below it. -/
theorem toNat_fastBlend (ha : a < 0x8000) (hb : b < 0x8000) : (fastBlend a b).toNat =
    Nat.ofDigits (2 ^ 5) [(channel a .blue + channel b .blue) / 2,
      channel a .green / 2 + channel b .green / 2, channel a .red / 2 + channel b .red / 2] := by
  have hmasked {c : UInt16} (hc : c < 0x8000) : (c &&& 0b111101111011111).toNat =
      channel c .blue + 64 * (channel c .green / 2) + 2048 * (channel c .red / 2) := by
    rw [UInt16.toNat_and, ← ofDigits_channels hc]
    show _ &&& Nat.ofDigits (2 ^ 5) [2 ^ 5 - 2 ^ 0, 2 ^ 5 - 2 ^ 1, 2 ^ 5 - 2 ^ 1] = _
    rw [Lanes.and_ofDigits (by rfl) (forall_channels_lt c) (by decide)]
    simp only [List.zipWith_cons_cons, List.zipWith_nil_left, Nat.ofDigits_cons, Nat.ofDigits_nil]
    rw [Lanes.and_high (by decide) (channel_lt c _), Lanes.and_high (by decide) (channel_lt c _),
      Lanes.and_high (by decide) (channel_lt c _)]
    omega
  have hba := channel_lt a .blue
  have hga := channel_lt a .green
  have hra := channel_lt a .red
  have hbb := channel_lt b .blue
  have hgb := channel_lt b .green
  have hrb := channel_lt b .red
  rw [fastBlend]
  simp only [UInt32.toNat_toUInt16, UInt32.toNat_shiftRight, UInt32.toNat_add,
    UInt16.toNat_toUInt32, hmasked ha, hmasked hb, UInt32.toNat_one, Nat.reduceMod,
    Nat.shiftRight_eq_div_pow, Nat.pow_one, Nat.ofDigits_cons, Nat.ofDigits_nil]
  omega

/-- **The mean of two colours**, rounded for each channel. -/
theorem fastBlend_channels (ha : a < 0x8000) (hb : b < 0x8000) :
    channel (fastBlend a b) .blue = (channel a .blue + channel b .blue) / 2 ∧
      channel (fastBlend a b) .green = channel a .green / 2 + channel b .green / 2 ∧
      channel (fastBlend a b) .red = channel a .red / 2 + channel b .red / 2 := by
  have hmean {x y : Nat} (hx : x < 2 ^ 5) (hy : y < 2 ^ 5) : x / 2 + y / 2 < 2 ^ 5 := by omega
  have hblue : (channel a .blue + channel b .blue) / 2 < 2 ^ 5 := by
    have ha := channel_lt a .blue
    have hb := channel_lt b .blue
    omega
  exact channel_eq hblue (hmean (channel_lt a _) (channel_lt b _))
    (hmean (channel_lt a _) (channel_lt b _)) (toNat_fastBlend ha hb)

/-! ## Factors up to 5 -/

/-- The blend of two channels is no larger than a channel. -/
theorem blend_lt {x y : Nat} (hx : x < 2 ^ 5) (hy : y < 2 ^ 5) (k : Nat) :
    x / 2 ^ k * (2 ^ k - 1) + y / 2 ^ k < 2 ^ 5 := by
  have hpos := Nat.two_pow_pos k
  obtain ⟨q, hq⟩ : ∃ q, q = (2 ^ 5 - 1) / 2 ^ k := ⟨_, rfl⟩
  have hxq : x / 2 ^ k ≤ q := hq ▸ Nat.div_le_div_right (Nat.le_pred_of_lt hx)
  have hyq : y / 2 ^ k ≤ q := hq ▸ Nat.div_le_div_right (Nat.le_pred_of_lt hy)
  calc x / 2 ^ k * (2 ^ k - 1) + y / 2 ^ k
      ≤ q * (2 ^ k - 1) + q := Nat.add_le_add (Nat.mul_le_mul_right _ hxq) hyq
    _ = q * 2 ^ k := by rw [← Nat.mul_succ, Nat.succ_eq_add_one, Nat.sub_add_cancel hpos]
    _ ≤ 2 ^ 5 - 1 := hq ▸ Nat.div_mul_le_self _ _
    _ < 2 ^ 5 := by decide

/-- A colour of 15 bits under the mask for a small factor. -/
theorem masked_high (hc : c < 0x8000) {k : Nat} (hk : k < 6) :
    c.toNat &&& ((blendMask (UInt32.ofNat k)).toNat % 2 ^ 15) =
      2 ^ k * Nat.ofDigits (2 ^ 5)
        [channel c .blue / 2 ^ k, channel c .green / 2 ^ k, channel c .red / 2 ^ k] := by
  rw [blendMask_high hk, ← ofDigits_channels hc]
  exact Lanes.and_replicate_high (Nat.le_of_lt_succ hk) (forall_channels_lt c)

/-- **Nothing is carried** as long as the copies of `maskbits` lie apart. -/
theorem fastBlendFactor_blended (ha : a < 0x8000) (hb : b < 0x8000) {k : Nat} (hk : k < 6) :
    Blended k a b (fastBlendFactor a b (UInt32.ofNat k)) := by
  have hword : (fastBlendFactor a b (UInt32.ofNat k)).toNat = Nat.ofDigits (2 ^ 5)
      [channel a .blue / 2 ^ k * (2 ^ k - 1) + channel b .blue / 2 ^ k,
        channel a .green / 2 ^ k * (2 ^ k - 1) + channel b .green / 2 ^ k,
        channel a .red / 2 ^ k * (2 ^ k - 1) + channel b .red / 2 ^ k] := by
    rw [toNat_fastBlendFactor ha hb (by omega), masked_high ha hk, masked_high hb hk, Nat.mul_assoc,
      ← Nat.mul_add, Nat.mul_div_cancel_left _ (Nat.two_pow_pos k), Nat.mul_comm, Nat.mul_ofDigits,
      Nat.ofDigits_add_ofDigits_eq_ofDigits_zipWith_of_length_eq (by rfl)]
    simp only [List.map_cons, List.map_nil, List.zipWith_cons_cons, List.zipWith_nil_left,
      Nat.mul_comm (2 ^ k - 1)]
  obtain ⟨hblue, hgreen, hred⟩ := channel_eq (blend_lt (channel_lt a _) (channel_lt b _) k)
    (blend_lt (channel_lt a _) (channel_lt b _) k) (blend_lt (channel_lt a _) (channel_lt b _) k)
    hword
  intro ch
  cases ch with
  | blue => exact hblue
  | green => exact hgreen
  | red => exact hred

/-! ## Factors 6 and 7 -/

/-- For a large factor nothing should be left of a colour. -/
theorem blended_iff_eq_zero (hc : c < 0x8000) {k : Nat} (hk : 5 ≤ k) : Blended k a b c ↔ c.toNat = 0 := by
  have hzero (d : UInt16) (ch : Channel) : channel d ch / 2 ^ k = 0 :=
    Nat.div_eq_of_lt (Nat.lt_of_lt_of_le (channel_lt d ch) (Nat.pow_le_pow_right (by decide) hk))
  have hblended : Blended k a b c ↔ ∀ ch, channel c ch = 0 := by
    simp only [Blended, hzero, Nat.zero_mul, Nat.add_zero]
  rw [hblended]
  constructor
  · intro h
    rw [← ofDigits_channels hc, h .blue, h .green, h .red]
    rfl
  · intro h ch
    rw [channel, h, lane, Nat.zero_div, Nat.zero_mod]

/-- The mask for 6 clears all of the blue channel, and the last bit of the red one. -/
theorem masked_six (hc : c < 0x8000) : c.toNat &&& ((blendMask 6).toNat % 2 ^ 15) =
    32 * channel c .green + 2048 * (channel c .red / 2) := by
  rw [blendMask_six, ← ofDigits_channels hc,
    Lanes.and_ofDigits (by rfl) (forall_channels_lt c) (by decide)]
  show Nat.ofDigits _ [channel c .blue &&& 0, channel c .green &&& (2 ^ 5 - 2 ^ 0),
    channel c .red &&& (2 ^ 5 - 2 ^ 1)] = _
  rw [Nat.and_zero, Lanes.and_high (by decide) (channel_lt c _),
    Lanes.and_high (by decide) (channel_lt c _)]
  simp only [Nat.ofDigits_cons, Nat.ofDigits_nil]
  omega

/-- The mask for 7 leaves a gap in the green channel. -/
theorem masked_seven (hc : c < 0x8000) : c.toNat &&& ((blendMask 7).toNat % 2 ^ 15) =
    32 * (channel c .green &&& 29) + 4096 * (channel c .red / 4) := by
  rw [blendMask_seven, ← ofDigits_channels hc,
    Lanes.and_ofDigits (by rfl) (forall_channels_lt c) (by decide)]
  show Nat.ofDigits _ [channel c .blue &&& 0, channel c .green &&& 29,
    channel c .red &&& (2 ^ 5 - 2 ^ 2)] = _
  rw [Nat.and_zero, Lanes.and_high (by decide) (channel_lt c _)]
  simp only [Nat.ofDigits_cons, Nat.ofDigits_nil]
  omega

theorem and_gap {x : Nat} (hx : x < 2 ^ 5) :
    (x &&& 29 = 0 ↔ x = 0 ∨ x = 2) ∧ (x &&& 29 < 4 ↔ x ≤ 3) := by
  revert x
  decide

/-- What is left for the factor 6. -/
theorem fastBlendFactor_six (ha : a < 0x8000) (hb : b < 0x8000) :
    (fastBlendFactor a b 6).toNat = 0 ↔ channel a .green = 0 ∧ channel a .red ≤ 1 ∧
      channel b .green ≤ 1 ∧ channel b .red ≤ 1 := by
  have hword := toNat_fastBlendFactor ha hb (show 6 < 8 by decide)
  rw [show UInt32.ofNat 6 = 6 from rfl, masked_six ha, masked_six hb] at hword
  rw [hword]
  omega

/-- What is left for the factor 7. -/
theorem fastBlendFactor_seven (ha : a < 0x8000) (hb : b < 0x8000) :
    (fastBlendFactor a b 7).toNat = 0 ↔ (channel a .green = 0 ∨ channel a .green = 2) ∧
      channel a .red ≤ 3 ∧ channel b .green ≤ 3 ∧ channel b .red ≤ 3 := by
  have hword := toNat_fastBlendFactor ha hb (show 7 < 8 by decide)
  rw [show UInt32.ofNat 7 = 7 from rfl, masked_seven ha, masked_seven hb] at hword
  rw [hword, ← (and_gap (channel_lt a .green)).1, ← (and_gap (channel_lt b .green)).2]
  omega

end

/-- **When the channels are blended each on its own.** -/
theorem blended_iff {a b : UInt16} (ha : a < 0x8000) (hb : b < 0x8000) {factor : UInt32}
    (h7 : factor ≤ 7) :
    Blended factor.toNat a b (fastBlendFactor a b factor) ↔ Apart factor.toNat a b := by
  obtain ⟨k, hk⟩ : ∃ k, k = factor.toNat := ⟨_, rfl⟩
  have hk7 : k ≤ 7 := hk ▸ UInt32.le_iff_toNat_le.mp h7
  have hfactor : factor = UInt32.ofNat k := by rw [hk, UInt32.ofNat_toNat]
  rw [← hk, hfactor]
  rcases Nat.lt_or_ge k 6 with hsmall | hlarge
  · exact iff_of_true (fastBlendFactor_blended ha hb hsmall) (Or.inl (Nat.le_of_lt_succ hsmall))
  · rw [blended_iff_eq_zero (fastBlendFactor_lt ha hb (Nat.lt_succ_of_le hk7)) (by omega), Apart]
    rcases Nat.lt_or_eq_of_le hlarge with h7' | h6
    · obtain rfl : k = 7 := by omega
      simpa using fastBlendFactor_seven ha hb
    · subst h6
      simpa using fastBlendFactor_six ha hb

/-- A purple window over a grey one. -/
theorem blended_iff_purple : Blended 2 0x3DEF 0x7C1F (fastBlendFactor 0x3DEF 0x7C1F 2) :=
  (blended_iff (a := 0x3DEF) (b := 0x7C1F) (by decide) (by decide) (by decide)).mpr (Or.inl (by decide))

/-- Black over green, with the factor 6, becomes bluish. -/
theorem fastBlendFactor_green :
    fastBlendFactor 0x03E0 0 6 = 0x03D0 ∧ ¬ Blended 6 0x03E0 0 (fastBlendFactor 0x03E0 0 6) := by
  refine ⟨by decide, ?_⟩
  intro hblended
  exact absurd (hblended .blue) (by decide)

end Shipwreck.Gui
