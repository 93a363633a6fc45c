import Shipwreck.Storage.ReadBounds

/-!
# The wallpaper

`load_background_tga` of `gui.cpp` scales the image of `desktop.tga` up to the screen: a pixel of
the file becomes `sx` by `sy` pixels of `img_data`.

    bytes 0 .. 17 | bytes 18 .. 1553 | bytes 1554 .. 3089 | ...
       header     |    512 pixels    |    512 pixels      |

The scale comes from the width and the height in the header, but the number of pixels is that of the
file: `read` delivers 512 of them at a time until fewer are left. Neither is held against the other,
nor against the screen.
-/

namespace Shipwreck.Gui

open CInt (below Divides)
open Storage (Disk TarFile)

/-- The fields of `TGAHeader` that are read. -/
structure TGAHeader where
  datatypecode : UInt8
  width : Int16
  height : Int16
  deriving DecidableEq, Repr

/-- A `short` at byte `i`. -/
def shortAt (bytes : Nat → UInt8) (i : Nat) : Int16 :=
  (UInt16.ofNat ((bytes i).toNat + 256 * (bytes (i + 1)).toNat)).toInt16

/-- `struct TGAHeader`, which is packed. -/
def TGAHeader.ofBytes (bytes : Nat → UInt8) : TGAHeader where
  datatypecode := bytes 2
  width := shortAt bytes 12
  height := shortAt bytes 14

/-- `struct Color24`. -/
structure Color24 where
  b : UInt8
  g : UInt8
  r : UInt8

/-- `img_data`, and the indices that have been stored to, the last one first. -/
structure Wallpaper where
  data : UInt32 → UInt16
  written : List UInt32

/-- `img_data[i] = c;` -/
def Wallpaper.store (img : Wallpaper) (i : UInt32) (c : UInt16) : Wallpaper where
  data := Function.update img.data i c
  written := i :: img.written

section

variable (W H : UInt16)

/-- `(ushort) col16`; `pad` is what the stack holds in the bit that `ColorRGB` does not have. -/
def col16 (pad : UInt16) (c : Color24) : UInt16 :=
  (pad &&& (0x8000 : UInt16)) ||| ((c.r >>> 3).toUInt16 <<< 10) ||| ((c.g >>> 3).toUInt16 <<< 5) |||
    (c.b >>> 3).toUInt16

/-- `VGA_WIDTH / header.width`: the `short` is converted to `uint`. -/
def scale (size : UInt16) (d : Int16) : Int32 := (size.toUInt32 / d.toInt32.toUInt32).toInt32

/-- The two inner loops: the pixels of the screen that show pixel `(x, y)` of the file. -/
def drawScaled (sx sy x y : Int32) (c : UInt16) (img : Wallpaper) : Wallpaper :=
  (below (x * sx) ((x + 1) * sx)).foldl (fun img dx =>
    (below (y * sy) ((y + 1) * sy)).foldl (fun img dy =>
      img.store (dy.toUInt32 * W.toUInt32 + dx.toUInt32) c) img) img

/-- One pixel of the file; `none` if a division faults. -/
def drawPixel (header : TGAHeader) (pi : Int32) (c : UInt16) (img : Wallpaper) : Option Wallpaper :=
  let width := header.width.toInt32
  if Divides pi width then
    let sx := scale W header.width
    let sy := scale H header.height
    some (drawScaled W sx sy (pi % width) (pi / width) c img)
  else none

variable (pad : UInt16)

/-- The loop over the pixels of `raw_data`: `n` of them from the `i`th on. -/
def drawPixels (header : TGAHeader) (rawData : Nat → UInt8) :
    Nat → Nat → Int32 → Wallpaper → Option (Int32 × Wallpaper)
  | 0, _, pi, img => some (pi, img)
  | n + 1, i, pi, img => do
    let c : Color24 := ⟨rawData (3 * i), rawData (3 * i + 1), rawData (3 * i + 2)⟩
    let img ← drawPixel W H header pi (col16 pad c) img
    drawPixels header rawData n (i + 1) (pi + 1) img

variable (disk : Disk) (behind : Nat → UInt8)

/-- The variables of the outer loop. -/
structure Loading where
  file : TarFile
  mem : ByteMem
  pi : Int32
  img : Wallpaper

/-- The body of `do .. while (read_len)`, and `read_len`. -/
def loadChunk (header : TGAHeader) (rawData : UInt32) (l : Loading) : Option (Nat × Loading) := do
  let (readLen, file, mem) := l.file.read disk behind l.mem rawData 1536
  let (pi, img) ← drawPixels W H pad header (mem.view rawData) (readLen / 3) 0 l.pi l.img
  some (readLen, ⟨file, mem, pi, img⟩)

/-- `do .. while (read_len)`; `none` if it faults or has not ended after so many reads. -/
def loadLoop (header : TGAHeader) (rawData : UInt32) : Nat → Loading → Option Wallpaper
  | 0, _ => none
  | fuel + 1, l => do
    let (readLen, l) ← loadChunk W H pad disk behind header rawData l
    if readLen ≠ 0 then loadLoop header rawData fuel l else some l.img

/-- A file that is not empty, as `TarFS::open` returns it. -/
def openedFile (headerSector size : UInt32) : TarFile where
  headerSector := headerSector
  currentSector := headerSector + 1
  cursor := 0
  size := size

/-- `load_background_tga`, with the variables `header` and `raw_data` at the addresses `hd` and
`rawData`. -/
def loadBackgroundTga (fuel : Nat) (imgFile : TarFile) (hd rawData : UInt32) (mem : ByteMem)
    (img : Wallpaper) : Option (Int × Wallpaper) :=
  let (_, file, mem) := imgFile.read disk behind mem hd 18
  let header := TGAHeader.ofBytes (mem.view hd)
  if header.datatypecode ≠ 2 then some (-1, img)
  else if header.width = 0 ∨ header.height = 0 then none
  else do
    let img ← loadLoop W H pad disk behind header rawData fuel ⟨file, mem, 0, img⟩
    some (0, img)

end

/-! ## One pixel of the file -/

section

variable {W H : UInt16} {header : TGAHeader} {pi sx sy x y : Int32} {c : UInt16}
  {img img' : Wallpaper} {i : UInt32}

/-- A fold that only adds to what is written. -/
theorem mem_written_foldl {α : Type} {f : Wallpaper → α → Wallpaper} {S : α → UInt32 → Prop}
    (hf : ∀ img a i, i ∈ (f img a).written ↔ i ∈ img.written ∨ S a i) (l : List α) :
    i ∈ (l.foldl f img).written ↔ i ∈ img.written ∨ ∃ a ∈ l, S a i := by
  induction l generalizing img with
  | nil => simp
  | cons a l ih =>
    rw [List.foldl_cons, ih, hf, or_assoc]
    simp only [List.mem_cons, exists_eq_or_imp]

/-- Where a pixel of the file is stored. -/
theorem mem_written_drawScaled :
    i ∈ (drawScaled W sx sy x y c img).written ↔ i ∈ img.written ∨
      ∃ dx ∈ below (x * sx) ((x + 1) * sx), ∃ dy ∈ below (y * sy) ((y + 1) * sy),
        i = dy.toUInt32 * W.toUInt32 + dx.toUInt32 := by
  have hstore (img : Wallpaper) (k i : UInt32) :
      i ∈ (img.store k c).written ↔ i ∈ img.written ∨ i = k := by
    rw [or_comm]
    exact List.mem_cons
  unfold drawScaled
  apply mem_written_foldl
  intro img dx i
  apply mem_written_foldl
  intro img dy i
  exact hstore _ _ _

/-- A pixel of the screen, and its index in the image. -/
theorem toNat_index (W H : UInt16) (dx dy : Int32) (hx0 : 0 ≤ dx.toInt) (hx : dx.toInt < W.toNat)
    (hy0 : 0 ≤ dy.toInt) (hy : dy.toInt ≤ H.toNat) :
    ((dy.toUInt32 * W.toUInt32 + dx.toUInt32).toNat : Int) = dy.toInt * W.toNat + dx.toInt := by
  have hW := W.toNat_lt
  have hH := H.toNat_lt
  have hrow : dy.toInt * W.toNat ≤ 65535 * 65535 := by
    apply Int.mul_le_mul <;> omega
  have hpos : 0 ≤ dy.toInt * W.toNat := Int.mul_nonneg hy0 (by omega)
  have hdx := CInt.toNat_toUInt32 hx0
  have hdy := CInt.toNat_toUInt32 hy0
  rw [UInt32.toNat_add, UInt32.toNat_mul, UInt16.toNat_toUInt32]
  have hprod : dy.toUInt32.toNat * W.toNat = (dy.toInt * W.toNat).toNat := by
    rw [← hdy, ← Int.natCast_mul, Int.toNat_natCast]
  rw [hprod]
  omega

/-- The scale, for a number that is positive. -/
theorem toInt_scale_of_pos {d : Int16} (size : UInt16) (hd : 0 < d.toInt) :
    (scale size d).toInt = size.toNat / d.toInt := by
  have hsize := size.toNat_lt
  have hlt := d.toInt_lt
  have hd32 := Int16.toInt_toInt32 d
  have hu := CInt.toNat_toUInt32 (x := d.toInt32) (by omega)
  have hquot : (size.toUInt32 / d.toInt32.toUInt32).toNat = size.toNat / d.toInt.toNat := by
    rw [UInt32.toNat_div, UInt16.toNat_toUInt32]
    congr 1
    omega
  have hle : size.toNat / d.toInt.toNat ≤ size.toNat := Nat.div_le_self _ _
  rw [scale, CInt.toInt_toInt32, hquot, CInt.toInt_of_fits (by omega) (by omega), Int.natCast_ediv,
    Int.toNat_of_nonneg (by omega)]

/-- A negative number is read as one larger than the screen. -/
theorem scale_of_neg {d : Int16} (size : UInt16) (hd : d.toInt < 0) : scale size d = 0 := by
  have hsize := size.toNat_lt
  have hle := d.le_toInt
  have hu : d.toInt32.toUInt32.toNat = CInt.toUint d.toInt := by
    rw [CInt.toNat_toUInt32_eq, Int16.toInt_toInt32]
  have hquot : size.toUInt32 / d.toInt32.toUInt32 = 0 := by
    apply UInt32.toNat_inj.mp
    rw [UInt32.toNat_div, UInt16.toNat_toUInt32, hu]
    apply Nat.div_eq_of_lt
    unfold CInt.toUint
    omega
  rw [scale, hquot]
  rfl

/-- Without a scale nothing is stored. -/
theorem mem_written_unscaled (hscale : sx = 0 ∨ sy = 0) :
    i ∈ (drawScaled W sx sy x y c img).written ↔ i ∈ img.written := by
  have hnone : below 0 0 = [] := rfl
  rw [mem_written_drawScaled]
  rcases hscale with rfl | rfl
  · simp [hnone]
  · simp [hnone]

/-- A block that lies on the screen. -/
theorem drawScaled_inside (hx0 : 0 ≤ x.toInt) (hy0 : 0 ≤ y.toInt) (hsx : 0 < sx.toInt)
    (hsy : 0 < sy.toInt) (hx : (x.toInt + 1) * sx.toInt ≤ W.toNat)
    (hy : (y.toInt + 1) * sy.toInt ≤ H.toNat) (hi : i ∈ (drawScaled W sx sy x y c img).written) :
    i ∈ img.written ∨ i.toNat < W.toNat * H.toNat := by
  have hW := W.toNat_lt
  have hH := H.toNat_lt
  rw [mem_written_drawScaled] at hi
  rcases hi with hi | ⟨dx, hdx, dy, hdy, rfl⟩
  · exact Or.inl hi
  · rw [CInt.mem_below_block hx0 hsx (by omega)] at hdx
    rw [CInt.mem_below_block hy0 hsy (by omega)] at hdy
    have hx0' : 0 ≤ x.toInt * sx.toInt := Int.mul_nonneg hx0 (by omega)
    have hy0' : 0 ≤ y.toInt * sy.toInt := Int.mul_nonneg hy0 (by omega)
    have hindex := toNat_index W H dx dy (by omega) (by omega) (by omega) (by omega)
    have hrows : (dy.toInt + 1) * W.toNat ≤ H.toNat * W.toNat :=
      Int.mul_le_mul_of_nonneg_right (by omega) (by omega)
    rw [Int.add_mul, Int.one_mul] at hrows
    have hcomm : ((W.toNat * H.toNat : Nat) : Int) = H.toNat * W.toNat := by
      rw [Int.natCast_mul, Int.mul_comm]
    right
    omega

/-- A block at the left edge of the screen that reaches beyond its last row. -/
theorem drawScaled_outside (hx : x.toInt = 0) (hy0 : 0 ≤ y.toInt) (hsx : 0 < sx.toInt)
    (hsy : 0 < sy.toInt) (hsxW : sx.toInt ≤ W.toNat) (hsyH : sy.toInt ≤ H.toNat)
    (hy : y.toInt * sy.toInt ≤ H.toNat) (hy' : H.toNat < (y.toInt + 1) * sy.toInt) :
    ∃ i ∈ (drawScaled W sx sy x y c img).written, W.toNat * H.toNat ≤ i.toNat := by
  have hW := W.toNat_lt
  have hH := H.toNat_lt
  have hblock : (y.toInt + 1) * sy.toInt = y.toInt * sy.toInt + sy.toInt := by
    rw [Int.add_mul, Int.one_mul]
  have hrow : (Int32.ofNat H.toNat).toInt = H.toNat := by
    apply Int32.toInt_ofNat_of_lt
    omega
  have hcol : (0 : Int32).toInt = 0 := rfl
  have hindex :=
    toNat_index W H 0 (Int32.ofNat H.toNat) (by decide) (by omega) (by omega) (by omega)
  rw [hrow, hcol] at hindex
  refine ⟨(Int32.ofNat H.toNat).toUInt32 * W.toUInt32 + (0 : Int32).toUInt32, ?_, ?_⟩
  · rw [mem_written_drawScaled]
    refine Or.inr ⟨0, ?_, Int32.ofNat H.toNat, ?_, rfl⟩
    · rw [CInt.mem_below_block (by omega) hsx (by rw [hx]; omega), hx, hcol]
      omega
    · rw [CInt.mem_below_block hy0 hsy (by omega), hrow]
      exact ⟨hy, hy'⟩
  · have hcomm : ((W.toNat * H.toNat : Nat) : Int) = H.toNat * W.toNat := by
      rw [Int.natCast_mul, Int.mul_comm]
    omega

/-- A pixel of the file is drawn, and nothing that was stored is taken back. -/
theorem drawPixel_keeps (hdraw : drawPixel W H header pi c img = some img') :
    Divides pi header.width.toInt32 ∧ ∀ i ∈ img.written, i ∈ img'.written := by
  unfold drawPixel at hdraw
  simp only at hdraw
  split at hdraw
  case isTrue hdiv =>
    cases hdraw
    exact ⟨hdiv, fun i hi => mem_written_drawScaled.mpr (Or.inl hi)⟩
  case isFalse => cases hdraw

end

/-! ## When the data fits -/

/-- `read` delivers `n` times 512 pixels from byte `cursor` of the file on, and then no more. -/
def Chunks (cursor size : UInt32) (n : Nat) : Prop :=
  (∀ k < n, (cursor.toNat + 1536 * (k + 1)) % 4294967296 ≤ size.toNat) ∧
    size.toNat < (cursor.toNat + 1536 * (n + 1)) % 4294967296

/-- So many pixels can be drawn: where the image is scaled at all, they must not be more than those
of the rows that the screen has room for. -/
def TGAHeader.Fits (W H : UInt16) (header : TGAHeader) (pixels : Nat) : Prop :=
  header.width ≠ 0 ∧ header.height ≠ 0 ∧
    if scale W header.width = 0 ∨ scale H header.height = 0 then
      header.width = -1 → pixels ≤ 2147483648
    else pixels ≤ header.width.toInt * (H.toNat / (scale H header.height).toInt)

instance TGAHeader.decidableFits (W H : UInt16) (header : TGAHeader) (pixels : Nat) :
    Decidable (header.Fits W H pixels) :=
  inferInstanceAs (Decidable (_ ∧ _ ∧ ite _ _ _))

/-- The bytes of the header: those of the file, or what the stack holds if the file is shorter. -/
def headerBytes (disk : Disk) (headerSector size hd : UInt32) (mem : ByteMem) : Nat → UInt8 :=
  if 18 ≤ size.toNat then disk (headerSector + 1) else mem.view hd

/-- The call returns -1, or it returns and has stored to nothing but the pixels of the screen. -/
def LoadsInside (W H pad : UInt16) (disk : Disk) (behind : Nat → UInt8)
    (headerSector size hd rawData : UInt32) (mem : ByteMem) (data : UInt32 → UInt16) : Prop :=
  ∃ fuel ret img, loadBackgroundTga W H pad disk behind fuel (openedFile headerSector size) hd
      rawData mem ⟨data, []⟩ = some (ret, img) ∧
    (ret = -1 ∨ ∀ i ∈ img.written, i.toNat < W.toNat * H.toNat)

section

variable {W H : UInt16} {header : TGAHeader} {c : UInt16} {img img' : Wallpaper} {k pixels : Nat}

/-- A screen that is scaled to: all of its numbers are positive. -/
theorem scaled_pos {size : UInt16} {d : Int16} (hd : d ≠ 0) (hscale : scale size d ≠ 0) :
    0 < d.toInt ∧ 0 < (scale size d).toInt ∧ d.toInt * (scale size d).toInt ≤ size.toNat ∧
      (scale size d).toInt ≤ size.toNat := by
  have hd0 : d.toInt ≠ 0 := fun h => hd (Int16.toInt_inj.mp h)
  have hpos : 0 < d.toInt := by
    by_contra hneg
    exact hscale (scale_of_neg size (by omega))
  have hquot := toInt_scale_of_pos size hpos
  have hs0 : (scale size d).toInt ≠ 0 := fun h => hscale (Int32.toInt_inj.mp h)
  have hnonneg : 0 ≤ (size.toNat : Int) / d.toInt := Int.ediv_nonneg (by omega) (by omega)
  have hmul : d.toInt * ((size.toNat : Int) / d.toInt) ≤ size.toNat :=
    Int.mul_ediv_self_le (by omega)
  have hle : (size.toNat : Int) / d.toInt ≤ size.toNat := Int.ediv_le_self _ (by omega)
  rw [hquot] at hs0 ⊢
  exact ⟨hpos, by omega, hmul, hle⟩

/-- The pixels of a screen are no more than an `int` can count. -/
theorem rows_le {sy : Int} (hsy : 0 < sy) (w : Int16) :
    w.toInt * (H.toNat / sy) < 2147483648 := by
  have hw := w.toInt_lt
  have hH := H.toNat_lt
  have hrows : (H.toNat : Int) / sy ≤ H.toNat := Int.ediv_le_self _ (by omega)
  have hrows0 : 0 ≤ (H.toNat : Int) / sy := Int.ediv_nonneg (by omega) (by omega)
  have hmul : w.toInt * ((H.toNat : Int) / sy) ≤ 32767 * ((H.toNat : Int) / sy) :=
    Int.mul_le_mul_of_nonneg_right (by omega) hrows0
  omega

/-- The row and the column of pixel `k` of the file. -/
theorem toInt_pixel (hwidth : 0 < header.width.toInt) (hk : k < 2147483648) :
    (Int32.ofNat k / header.width.toInt32).toInt = k / header.width.toInt ∧
      (Int32.ofNat k % header.width.toInt32).toInt = k % header.width.toInt := by
  have hw32 := Int16.toInt_toInt32 header.width
  have hint := Int32.toInt_ofNat_of_lt hk
  have hdivmod := CInt.toInt_div_mod_of_nonneg (a := Int32.ofNat k) (b := header.width.toInt32)
    (by omega) (by omega)
  rwa [hint, hw32] at hdivmod

/-- **A pixel of data that fits** is drawn inside the image. -/
theorem TGAHeader.Fits.drawPixel (h : header.Fits W H pixels) (hk : k < pixels) (c : UInt16)
    (img : Wallpaper) :
    ∃ img', drawPixel W H header (Int32.ofNat k) c img = some img' ∧
      ∀ i ∈ img'.written, i ∈ img.written ∨ i.toNat < W.toNat * H.toNat := by
  obtain ⟨hw, hh, hfits⟩ := h
  have hw32 := Int16.toInt_toInt32 header.width
  have hwidth : header.width.toInt32 ≠ 0 := by
    intro h0
    rw [h0] at hw32
    exact hw (Int16.toInt_inj.mp hw32.symm)
  split at hfits
  case isTrue hscale =>
    -- an image larger than the screen: its pixels are scaled to nothing, and only `pi / width` can fault
    have hdiv : Divides (Int32.ofNat k) header.width.toInt32 := by
      refine ⟨hwidth, ?_⟩
      rintro ⟨hmin, hminus⟩
      rw [hminus] at hw32
      have hle := hfits (Int16.toInt_inj.mp hw32.symm)
      have hint := Int32.toInt_ofNat_of_lt (n := k) (by omega)
      rw [hmin] at hint
      have hneg : Int32.minValue.toInt = -2147483648 := rfl
      omega
    refine ⟨_, if_pos hdiv, fun i hi => ?_⟩
    exact Or.inl ((mem_written_unscaled hscale).mp hi)
  case isFalse hscale =>
    rw [not_or] at hscale
    obtain ⟨hwpos, hsx, hsxW, -⟩ := scaled_pos hw hscale.1
    obtain ⟨-, hsy, -, -⟩ := scaled_pos hh hscale.2
    have hrows := rows_le (H := H) hsy header.width
    have hint := Int32.toInt_ofNat_of_lt (n := k) (by omega)
    have hdiv := CInt.divides_of_nonneg (a := Int32.ofNat k) (by omega) hwidth
    obtain ⟨hy, hx⟩ := toInt_pixel hwpos (k := k) (by omega)
    have hx0 : 0 ≤ (k : Int) % header.width.toInt := Int.emod_nonneg _ (by omega)
    have hxw : (k : Int) % header.width.toInt < header.width.toInt := Int.emod_lt_of_pos _ hwpos
    have hy0 : 0 ≤ (k : Int) / header.width.toInt := Int.ediv_nonneg (by omega) (by omega)
    have hrow : (k : Int) / header.width.toInt < H.toNat / (scale H header.height).toInt := by
      apply Int.ediv_lt_of_lt_mul hwpos
      rw [Int.mul_comm]
      omega
    refine ⟨_, if_pos hdiv, fun i hi => drawScaled_inside ?_ ?_ hsx hsy ?_ ?_ hi⟩
    · omega
    · omega
    · rw [hx]
      have hmul := Int.mul_le_mul_of_nonneg_right (show (k : Int) % header.width.toInt + 1 ≤
        header.width.toInt by omega) (Int.le_of_lt hsx)
      omega
    · rw [hy]
      have hmul := Int.mul_le_mul_of_nonneg_right (show (k : Int) / header.width.toInt + 1 ≤
        H.toNat / (scale H header.height).toInt by omega) (Int.le_of_lt hsy)
      have hself := Int.ediv_mul_le (H.toNat : Int) (b := (scale H header.height).toInt) (by omega)
      omega

/-- The first pixel for which the screen has no row is drawn outside of the image. -/
theorem drawPixel_outside (hw : header.width ≠ 0) (hh : header.height ≠ 0)
    (hsx0 : scale W header.width ≠ 0) (hsy0 : scale H header.height ≠ 0)
    (hk : (k : Int) = header.width.toInt * (H.toNat / (scale H header.height).toInt))
    (hdraw : drawPixel W H header (Int32.ofNat k) c img = some img') :
    ∃ i ∈ img'.written, W.toNat * H.toNat ≤ i.toNat := by
  obtain ⟨hwpos, hsx, -, hsxW⟩ := scaled_pos hw hsx0
  obtain ⟨-, hsy, -, hsyH⟩ := scaled_pos hh hsy0
  have hrows := rows_le (H := H) hsy header.width
  obtain ⟨hy, hx⟩ := toInt_pixel hwpos (k := k) (by omega)
  rw [hk] at hy hx
  -- `k` is the start of a row of the file
  rw [Int.mul_ediv_cancel_left _ (by omega)] at hy
  rw [Int.mul_emod_right] at hx
  have hdiv := (drawPixel_keeps hdraw).1
  have himg : img' = drawScaled W (scale W header.width) (scale H header.height)
      (Int32.ofNat k % header.width.toInt32) (Int32.ofNat k / header.width.toInt32) c img := by
    unfold drawPixel at hdraw
    rw [if_pos hdiv] at hdraw
    exact (Option.some.inj hdraw).symm
  have hrow0 : 0 ≤ (H.toNat : Int) / (scale H header.height).toInt :=
    Int.ediv_nonneg (by omega) (by omega)
  rw [himg]
  apply drawScaled_outside hx (by omega) hsx hsy hsxW hsyH
  · rw [hy]
    exact Int.ediv_mul_le _ (by omega)
  · rw [hy]
    exact Int.lt_ediv_add_one_mul_self _ hsy

/-! ## The loops -/

variable {pad : UInt16} {disk : Disk} {behind : Nat → UInt8} {P : Nat → Wallpaper → Prop}
  {bytes : Nat → UInt8} {n i : Nat} {pi' : Int32} {rawData : UInt32} {fuel : Nat} {l : Loading}

/-- What every pixel keeps, `drawPixels` keeps. -/
theorem drawPixels_rule
    (hstep : ∀ k c img img', P k img → drawPixel W H header (Int32.ofNat k) c img = some img' →
      P (k + 1) img')
    (h : P k img)
    (hrun : drawPixels W H pad header bytes n i (Int32.ofNat k) img = some (pi', img')) :
    pi' = Int32.ofNat (k + n) ∧ P (k + n) img' := by
  induction n generalizing i k img with
  | zero =>
    cases hrun
    exact ⟨rfl, h⟩
  | succ n ih =>
    obtain ⟨img₁, hdraw, hrest⟩ := Option.bind_eq_some_iff.mp hrun
    have hnext : Int32.ofNat k + 1 = Int32.ofNat (k + 1) := (Int32.ofNat_add k 1).symm
    rw [hnext] at hrest
    have hall := ih (hstep k _ _ _ h hdraw) hrest
    rw [Nat.add_assoc, Nat.add_comm 1] at hall
    exact hall

/-- Where every pixel can be drawn, `drawPixels` comes to its end. -/
theorem drawPixels_total (pad : UInt16) (bytes : Nat → UInt8) (i : Nat)
    (hstep : ∀ k < pixels, ∀ c img, P k img →
      ∃ img', drawPixel W H header (Int32.ofNat k) c img = some img' ∧ P (k + 1) img')
    (h : P k img) (hk : k + n ≤ pixels) :
    ∃ img', drawPixels W H pad header bytes n i (Int32.ofNat k) img =
      some (Int32.ofNat (k + n), img') ∧ P (k + n) img' := by
  induction n generalizing i k img with
  | zero => exact ⟨img, rfl, h⟩
  | succ n ih =>
    obtain ⟨img₁, hdraw, hP⟩ := hstep k (by omega)
      (col16 pad ⟨bytes (3 * i), bytes (3 * i + 1), bytes (3 * i + 2)⟩) img h
    obtain ⟨img', hrest, hP'⟩ := ih (i + 1) hP (by omega)
    have hnext : Int32.ofNat k + 1 = Int32.ofNat (k + 1) := (Int32.ofNat_add k 1).symm
    rw [Nat.add_assoc, Nat.add_comm 1] at hrest hP'
    refine ⟨img', ?_, hP'⟩
    show (drawPixel W H header (Int32.ofNat k) _ img).bind _ = _
    rw [hdraw, Option.bind_some, hnext]
    exact hrest

theorem chunks_succ {cursor size : UInt32} :
    Chunks cursor size (n + 1) ↔
      (cursor.toNat + 1536) % 4294967296 ≤ size.toNat ∧ Chunks (cursor + 1536) size n := by
  have hadd : (cursor + 1536).toNat = (cursor.toNat + 1536) % 4294967296 := UInt32.toNat_add _ _
  have hlater (k : Nat) : ((cursor + 1536).toNat + 1536 * k) % 4294967296 =
      (cursor.toNat + 1536 * (k + 1)) % 4294967296 := by
    rw [hadd]
    omega
  simp only [Chunks, hlater]
  constructor
  · rintro ⟨hread, hend⟩
    exact ⟨hread 0 (Nat.succ_pos n), fun k hk => hread (k + 1) (by omega), hend⟩
  · rintro ⟨hfirst, hread, hend⟩
    refine ⟨fun k hk => ?_, hend⟩
    cases k with
    | zero => exact hfirst
    | succ k => exact hread k (by omega)

/-- A read of 512 pixels. -/
theorem read_chunk (disk : Disk) (behind : Nat → UInt8) (file : TarFile) (mem : ByteMem)
    (rawData : UInt32) (hread : (file.cursor.toNat + 1536) % 4294967296 ≤ file.size.toNat) :
    ∃ file' mem', file.read disk behind mem rawData 1536 = (1536, file', mem') ∧
      file'.cursor = file.cursor + 1536 ∧ file'.size = file.size := by
  have hlength : (1536 : UInt32).toNat = 1536 := rfl
  have hread' : (file.cursor.toNat + (1536 : UInt32).toNat) % 4294967296 ≤ file.size.toNat := by
    rw [hlength]
    exact hread
  rw [Storage.read_accepted hread', hlength]
  exact ⟨_, _, rfl, rfl, rfl⟩

/-- The read that finds less. -/
theorem read_end (disk : Disk) (behind : Nat → UInt8) (file : TarFile) (mem : ByteMem)
    (rawData : UInt32) (hend : file.size.toNat < (file.cursor.toNat + 1536) % 4294967296) :
    file.read disk behind mem rawData 1536 = (0, file, mem) := by
  have hlength : (1536 : UInt32).toNat = 1536 := rfl
  apply Storage.read_refused
  rw [hlength]
  exact hend

/-- The last time around nothing is drawn. -/
theorem loadChunk_end
    (hend : l.file.size.toNat < (l.file.cursor.toNat + 1536) % 4294967296) :
    loadChunk W H pad disk behind header rawData l = some (0, l) := by
  unfold loadChunk
  rw [read_end disk behind l.file l.mem rawData hend]
  rfl

/-- Every other time `m = 512` pixels are. -/
theorem loadChunk_read (W H : UInt16) (header : TGAHeader) (pad : UInt16) (disk : Disk)
    (behind : Nat → UInt8) (rawData : UInt32) {m : Nat} (hm : m = 512) (hpi : l.pi = Int32.ofNat k)
    (hread : (l.file.cursor.toNat + 1536) % 4294967296 ≤ l.file.size.toNat) :
    ∃ file mem, file.cursor = l.file.cursor + 1536 ∧ file.size = l.file.size ∧
      loadChunk W H pad disk behind header rawData l =
        (drawPixels W H pad header (mem.view rawData) m 0 (Int32.ofNat k) l.img).map
          fun drawn => (1536, ⟨file, mem, drawn.1, drawn.2⟩) := by
  obtain ⟨file, mem, haccepted, hcursor, hsize⟩ :=
    read_chunk disk behind l.file l.mem rawData hread
  refine ⟨file, mem, hcursor, hsize, ?_⟩
  have hcount : 1536 / 3 = m := hm.symm
  unfold loadChunk
  rw [haccepted]
  simp only [hcount, hpi]
  cases drawPixels W H pad header (mem.view rawData) m 0 (Int32.ofNat k) l.img with
  | none => rfl
  | some drawn => rfl

/-- **What every pixel keeps, the whole loop keeps**, and if it ends the file has an end for it. -/
theorem loadLoop_rule
    (hstep : ∀ k c img img', P k img → drawPixel W H header (Int32.ofNat k) c img = some img' →
      P (k + 1) img')
    (h : P k l.img) (hpi : l.pi = Int32.ofNat k)
    (hrun : loadLoop W H pad disk behind header rawData fuel l = some img') :
    ∃ n, Chunks l.file.cursor l.file.size n ∧ P (k + 512 * n) img' := by
  -- 512 pixels in a chunk
  obtain ⟨m, hm⟩ : ∃ m, m = 512 := ⟨_, rfl⟩
  induction fuel generalizing l k with
  | zero => cases hrun
  | succ fuel ih =>
    rw [loadLoop] at hrun
    rcases Nat.lt_or_ge l.file.size.toNat ((l.file.cursor.toNat + 1536) % 4294967296)
      with hend | hread
    · rw [loadChunk_end hend] at hrun
      cases hrun
      exact ⟨0, ⟨fun k hk => absurd hk (Nat.not_lt_zero k), hend⟩, h⟩
    · obtain ⟨file, mem, hcursor, hsize, hchunk⟩ :=
        loadChunk_read W H header pad disk behind rawData hm hpi hread
      rw [hchunk] at hrun
      obtain ⟨⟨readLen, l'⟩, hdrawn, hrest⟩ := Option.bind_eq_some_iff.mp hrun
      obtain ⟨⟨pi, img⟩, hdraw, heq⟩ := Option.map_eq_some_iff.mp hdrawn
      cases heq
      obtain ⟨rfl, hP⟩ := drawPixels_rule hstep h hdraw
      obtain ⟨n, hchunks, hP'⟩ := ih (l := ⟨file, mem, _, img⟩) hP rfl hrest
      dsimp only at hchunks
      rw [hcursor, hsize] at hchunks
      refine ⟨n + 1, chunks_succ.mpr ⟨hread, hchunks⟩, ?_⟩
      have hcount : k + m + 512 * n = k + 512 * (n + 1) := by omega
      rw [hcount] at hP'
      exact hP'

/-- **Where all pixels of the file can be drawn, the loop comes to its end.** -/
theorem loadLoop_total
    (hstep : ∀ k < pixels, ∀ c img, P k img →
      ∃ img', drawPixel W H header (Int32.ofNat k) c img = some img' ∧ P (k + 1) img')
    (h : P k l.img) (hpi : l.pi = Int32.ofNat k)
    (hchunks : Chunks l.file.cursor l.file.size n) (hpixels : k + 512 * n ≤ pixels) :
    ∃ img', loadLoop W H pad disk behind header rawData (n + 1) l = some img' ∧
      P (k + 512 * n) img' := by
  obtain ⟨m, hm⟩ : ∃ m, m = 512 := ⟨_, rfl⟩
  induction n generalizing l k with
  | zero =>
    refine ⟨l.img, ?_, h⟩
    rw [loadLoop, loadChunk_end hchunks.2]
    rfl
  | succ n ih =>
    obtain ⟨hread, hchunks⟩ := chunks_succ.mp hchunks
    obtain ⟨file, mem, hcursor, hsize, hchunk⟩ :=
      loadChunk_read W H header pad disk behind rawData hm hpi hread
    have hroom : k + m ≤ pixels := by omega
    obtain ⟨img, hdraw, hP⟩ := drawPixels_total pad (mem.view rawData) 0 hstep h hroom
    rw [← hcursor, ← hsize] at hchunks
    obtain ⟨img', hrest, hP'⟩ :=
      ih (l := ⟨file, mem, Int32.ofNat (k + m), img⟩) hP rfl hchunks (by omega)
    have hcount : k + m + 512 * n = k + 512 * (n + 1) := by omega
    rw [hcount] at hP'
    refine ⟨img', ?_, hP'⟩
    have hlen : (1536 : Nat) ≠ 0 := by decide
    rw [loadLoop, hchunk, hdraw]
    simp only [Option.map_some, Option.bind_eq_bind, Option.bind_some, if_pos hlen]
    exact hrest

/-- A loop that ends inside the image had data that fits. -/
theorem fits_of_loadLoop (hw : header.width ≠ 0) (hh : header.height ≠ 0) (hpi : l.pi = 0)
    (hrun : loadLoop W H pad disk behind header rawData fuel l = some img')
    (hinside : ∀ i ∈ img'.written, i.toNat < W.toNat * H.toNat) :
    ∃ n, Chunks l.file.cursor l.file.size n ∧ header.Fits W H (512 * n) := by
  by_cases hscale : scale W header.width = 0 ∨ scale H header.height = 0
  · -- a width of -1 lets no pixel pass whose number is the least `int`
    have hstep : ∀ k c img img', (header.width = -1 → k ≤ 2147483648) →
        drawPixel W H header (Int32.ofNat k) c img = some img' →
        header.width = -1 → k + 1 ≤ 2147483648 := by
      intro k c img img' hk hdraw hminus
      have hdiv := (drawPixel_keeps hdraw).1.2
      rw [hminus] at hdiv
      have hne : k ≠ 2147483648 := by
        rintro rfl
        exact hdiv ⟨rfl, rfl⟩
      have := hk hminus
      omega
    obtain ⟨n, hchunks, hn⟩ := loadLoop_rule (P := fun k _ => header.width = -1 → k ≤ 2147483648)
      (k := 0) hstep (fun _ => Nat.zero_le _) hpi hrun
    rw [Nat.zero_add] at hn
    refine ⟨n, hchunks, hw, hh, ?_⟩
    rw [if_pos hscale]
    exact hn
  · have hscale' := not_or.mp hscale
    obtain ⟨hwpos, -, -, -⟩ := scaled_pos hw hscale'.1
    obtain ⟨-, hsy, -, -⟩ := scaled_pos hh hscale'.2
    obtain ⟨rows, hrows⟩ : ∃ rows, rows = (H.toNat : Int) / (scale H header.height).toInt :=
      ⟨_, rfl⟩
    have hrows0 : 0 ≤ rows := hrows ▸ Int.ediv_nonneg (by omega) (by omega)
    have hpos : 0 ≤ header.width.toInt * rows := Int.mul_nonneg (by omega) hrows0
    -- once the rows are used up, something has been stored outside
    have hstep : ∀ (k : Nat) c img img',
        (header.width.toInt * rows < (k : Int) → ∃ i ∈ img.written, W.toNat * H.toNat ≤ i.toNat) →
        drawPixel W H header (Int32.ofNat k) c img = some img' →
        header.width.toInt * rows < ((k + 1 : Nat) : Int) →
          ∃ i ∈ img'.written, W.toNat * H.toNat ≤ i.toNat := by
      intro k c img img' hk hdraw hmore
      rw [Int.natCast_succ, Int.lt_add_one_iff] at hmore
      rcases Int.lt_or_eq_of_le hmore with hlt | heq
      · obtain ⟨i, hi, hout⟩ := hk hlt
        exact ⟨i, (drawPixel_keeps hdraw).2 i hi, hout⟩
      · exact drawPixel_outside hw hh hscale'.1 hscale'.2 (hrows ▸ heq.symm) hdraw
    obtain ⟨n, hchunks, hn⟩ := loadLoop_rule (P := fun k img =>
      header.width.toInt * rows < (k : Int) → ∃ i ∈ img.written, W.toNat * H.toNat ≤ i.toNat)
      (k := 0) hstep (fun hneg => absurd hneg (Int.not_lt.mpr hpos)) hpi hrun
    refine ⟨n, hchunks, hw, hh, ?_⟩
    rw [if_neg hscale, ← hrows]
    by_contra hmore
    rw [Nat.zero_add] at hn
    obtain ⟨i, hi, hout⟩ := hn (Int.not_le.mp hmore)
    exact absurd (hinside i hi) (Nat.not_lt.mpr hout)

/-- The loop over data that fits ends, and inside the image. -/
theorem loadLoop_of_fits (pad : UInt16) (disk : Disk) (behind : Nat → UInt8) (rawData : UInt32)
    (hfits : header.Fits W H (512 * n)) (hnone : l.img.written = []) (hpi : l.pi = 0)
    (hchunks : Chunks l.file.cursor l.file.size n) :
    ∃ img, loadLoop W H pad disk behind header rawData (n + 1) l = some img ∧
      ∀ i ∈ img.written, i.toNat < W.toNat * H.toNat := by
  have hpixel : ∀ k < 512 * n, ∀ c (img : Wallpaper),
      (∀ i ∈ img.written, i.toNat < W.toNat * H.toNat) →
      ∃ img', drawPixel W H header (Int32.ofNat k) c img = some img' ∧
        ∀ i ∈ img'.written, i.toNat < W.toNat * H.toNat := by
    intro k hk c img himg
    obtain ⟨img', hdraw, hwritten⟩ := hfits.drawPixel hk c img
    exact ⟨img', hdraw, fun i hi => (hwritten i hi).elim (himg i) id⟩
  have hstart : ∀ i ∈ l.img.written, i.toNat < W.toNat * H.toNat := by
    rw [hnone]
    exact fun i hi => absurd hi List.not_mem_nil
  exact loadLoop_total (P := fun _ img => ∀ i ∈ img.written, i.toNat < W.toNat * H.toNat) hpixel
    hstart hpi hchunks (Nat.le_of_eq (Nat.zero_add _))

end

/-! ## The whole function -/

section

variable {W H pad : UInt16} {disk : Disk} {behind : Nat → UInt8}
  {headerSector size hd rawData : UInt32} {mem : ByteMem} {data : UInt32 → UInt16} {n : Nat}

/-- A file of less than 4 GB, up to the last thousand bytes: the division that one expects. -/
theorem chunks_iff (hsize : size.toNat < 4294966290) :
    Chunks 18 size n ↔ n = (size.toNat - 18) / 1536 := by
  have hcursor : (18 : UInt32).toNat = 18 := rfl
  simp only [Chunks, hcursor]
  constructor
  · rintro ⟨hread, hend⟩
    have hle : (size.toNat - 18) / 1536 ≤ n := by
      by_contra hlt
      omega
    by_contra hne
    have hmore := hread ((size.toNat - 18) / 1536) (by omega)
    omega
  · rintro rfl
    refine ⟨fun k hk => ?_, ?_⟩
    · omega
    · omega

/-- What the first read leaves. -/
theorem read_header (disk : Disk) (behind : Nat → UInt8) (headerSector size hd : UInt32)
    (mem : ByteMem) :
    ∃ readLen file mem', (openedFile headerSector size).read disk behind mem hd 18 =
        (readLen, file, mem') ∧
      (∀ i < 18, mem'.view hd i = headerBytes disk headerSector size hd mem i) ∧
      ∀ n, Chunks file.cursor file.size n ↔ Chunks 18 size n := by
  have hlength : (18 : UInt32).toNat = 18 := rfl
  by_cases hshort : size.toNat < 18
  · have hend : (openedFile headerSector size).size.toNat <
        ((openedFile headerSector size).cursor.toNat + (18 : UInt32).toNat) % 4294967296 := by
      rw [hlength]
      exact hshort
    have hrefused := Storage.read_refused disk behind hd hend mem
    refine ⟨_, _, _, hrefused, ?_, ?_⟩
    · intro i _
      rw [headerBytes, if_neg (by omega)]
    · intro n
      have hcursor : (18 : UInt32).toNat = 18 := rfl
      have hcursor' : (0 : UInt32).toNat = 0 := rfl
      -- neither is long enough for a single read
      simp only [Chunks, openedFile, hcursor, hcursor']
      cases n with
      | zero =>
        have hnone (c : Nat) : ∀ k < 0, (c + 1536 * (k + 1)) % 4294967296 ≤ size.toNat :=
          fun k hk => absurd hk (Nat.not_lt_zero k)
        exact ⟨fun _ => ⟨hnone 18, by omega⟩, fun _ => ⟨hnone 0, by omega⟩⟩
      | succ n =>
        constructor
        · rintro ⟨hread, -⟩
          exact absurd (hread 0 (Nat.succ_pos n)) (by omega)
        · rintro ⟨hread, -⟩
          exact absurd (hread 0 (Nat.succ_pos n)) (by omega)
  · have hstored : Storage.Stored disk
        (fun i => disk ((openedFile headerSector size).sectorOf i) (i % 512))
        (openedFile headerSector size) := fun i _ => rfl
    have haligned : (openedFile headerSector size).Aligned := by
      show headerSector + 1 = headerSector + 1 + UInt32.ofNat (0 / 512)
      exact (UInt32.add_zero _).symm
    have hwithin : Storage.Within (openedFile headerSector size) (.read hd 18) := by
      refine ⟨?_, by decide⟩
      show 0 + 18 ≤ size.toNat
      omega
    have hread :=
      @Storage.read_whole disk behind _ _ mem hd 18 hstored haligned hwithin (Or.inl rfl)
    refine ⟨_, _, _, hread, ?_, fun n => Iff.rfl⟩
    intro i hi
    rw [ByteMem.view, hlength, ByteMem.fill_apply hi (by decide), headerBytes, if_pos (by omega)]
    have hdiv : i / 512 = 0 := by omega
    have hcursor : (openedFile headerSector size).cursor.toNat + i = i := Nat.zero_add i
    rw [hcursor, TarFile.sectorOf, hdiv, Nat.mod_eq_of_lt (by omega)]
    exact congrArg (fun s => disk s i) (UInt32.add_zero _)

/-- The header is read from its first 18 bytes. -/
theorem TGAHeader.ofBytes_congr {f g : Nat → UInt8} (h : ∀ i < 18, f i = g i) :
    TGAHeader.ofBytes f = TGAHeader.ofBytes g := by
  simp only [TGAHeader.ofBytes, shortAt, h 2 (by decide), h 12 (by decide), h 13 (by decide),
    h 14 (by decide), h 15 (by decide)]

/-- A call that stays inside has an unsupported file or data that fits. -/
theorem LoadsInside.fits
    (h : LoadsInside W H pad disk behind headerSector size hd rawData mem data) :
    (TGAHeader.ofBytes (headerBytes disk headerSector size hd mem)).datatypecode ≠ 2 ∨
      ∃ n, Chunks 18 size n ∧
        (TGAHeader.ofBytes (headerBytes disk headerSector size hd mem)).Fits W H (512 * n) := by
  obtain ⟨fuel, ret, img, hrun, hinside⟩ := h
  obtain ⟨readLen, file, mem', hread, hbytes, hchunks⟩ :=
    read_header disk behind headerSector size hd mem
  unfold loadBackgroundTga at hrun
  simp only [hread, TGAHeader.ofBytes_congr hbytes] at hrun
  by_cases hcode : (TGAHeader.ofBytes (headerBytes disk headerSector size hd mem)).datatypecode = 2
  · right
    rw [if_neg (not_not_intro hcode)] at hrun
    split at hrun
    case isTrue => cases hrun
    case isFalse hzero =>
      obtain ⟨hw, hh⟩ := not_or.mp hzero
      obtain ⟨img₁, hloop, heq⟩ := Option.bind_eq_some_iff.mp hrun
      cases heq
      have hstores := hinside.resolve_left (by decide)
      obtain ⟨n, hn, hfits⟩ := fits_of_loadLoop hw hh rfl hloop hstores
      exact ⟨n, (hchunks n).mp hn, hfits⟩
  · exact Or.inl hcode

/-- **Where the wallpaper is loaded inside the image.** -/
theorem load_inside_iff (W H pad : UInt16) (disk : Disk) (behind : Nat → UInt8)
    (headerSector size hd rawData : UInt32) (mem : ByteMem) (data : UInt32 → UInt16) :
    LoadsInside W H pad disk behind headerSector size hd rawData mem data ↔
      (TGAHeader.ofBytes (headerBytes disk headerSector size hd mem)).datatypecode ≠ 2 ∨
        ∃ n, Chunks 18 size n ∧
          (TGAHeader.ofBytes (headerBytes disk headerSector size hd mem)).Fits W H (512 * n) := by
  refine ⟨LoadsInside.fits, fun h => ?_⟩
  obtain ⟨readLen, file, mem', hread, hbytes, hchunks⟩ :=
    read_header disk behind headerSector size hd mem
  unfold LoadsInside loadBackgroundTga
  simp only [hread, TGAHeader.ofBytes_congr hbytes]
  rcases h with hcode | ⟨n, hn, hfits⟩
  · exact ⟨0, -1, _, if_pos hcode, Or.inl rfl⟩
  · by_cases hcode :
        (TGAHeader.ofBytes (headerBytes disk headerSector size hd mem)).datatypecode = 2
    · have hzero := not_or.mpr ⟨hfits.1, hfits.2.1⟩
      obtain ⟨img, hloop, hinside⟩ := loadLoop_of_fits pad disk behind rawData
        (l := ⟨file, mem', 0, ⟨data, []⟩⟩) hfits rfl rfl ((hchunks n).mpr hn)
      refine ⟨n + 1, 0, img, ?_, Or.inr hinside⟩
      rw [if_neg (not_not_intro hcode), if_neg hzero, hloop]
      rfl
    · exact ⟨0, -1, _, if_pos hcode, Or.inl rfl⟩

end

/-- An image of 16 by 16 pixels, and as many bytes behind it. -/
def trailingData : Disk := fun _ i => if i = 2 then 2 else if i = 12 ∨ i = 14 then 16 else 0

/-- The bytes behind the image are drawn as well, below the screen. -/
theorem trailing_data_outside :
    ¬LoadsInside 1024 768 0 trailingData (fun _ => 0) 1 1554 0x9000 0xA000 (fun _ => 0)
      (fun _ => 0) := by
  intro h
  rcases h.fits with hcode | ⟨n, hchunks, hfits⟩
  · exact hcode rfl
  · obtain rfl := (chunks_iff (by decide)).mp hchunks
    exact absurd hfits (by decide)

end Shipwreck.Gui
