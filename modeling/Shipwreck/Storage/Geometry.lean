import Shipwreck.Storage.Archive
import Mathlib.Data.UInt
import Mathlib.Tactic.Ring

/-!
# Sectors of the drive

The boot sector counts sectors, `int 0x13` wants a cylinder, a head and a sector of the track:

    lba = (cylinder * heads + head) * sectors + (sector - 1)

    cl:  c c s s s s s s      ch:  low 8 bits of the cylinder
         | |
         high 2 bits of the cylinder

`readsectorLBA` of `boot/bootsector.nasm` divides by the words `maxSector` and `maxHead`, which hold what
function 08h of the BIOS reports: the number of sectors, but the number of the last head. What it asks for is
`address_iff`.
-/

namespace Shipwreck.Storage

/-! ## The drive -/

/-- A drive as the BIOS sees it. -/
structure Geometry where
  cylinders : Nat
  heads : Nat
  sectors : Nat
  cylinders_le : cylinders ≤ 1024
  heads_pos : 1 ≤ heads
  heads_le : heads ≤ 256
  sectors_pos : 1 ≤ sectors
  sectors_le : sectors ≤ 63

/-- The number of sectors of the drive. -/
def Geometry.total (g : Geometry) : Nat := g.cylinders * g.heads * g.sectors

/-- What function 08h returns. -/
structure DriveParameters where
  ch : UInt8
  cl : UInt8
  dh : UInt8
  deriving DecidableEq, Repr

/-- The answer for this drive: the last head, and the sectors in bits 0 to 5 of `cl`. -/
structure Geometry.Reported (g : Geometry) (r : DriveParameters) : Prop where
  heads : r.dh.toNat = g.heads - 1
  sectors : r.cl.toNat % 64 = g.sectors

/-- The registers of a call of function 02h; `es:bx` is as the caller has left it. -/
structure Int13 where
  ah : UInt8
  al : UInt8
  ch : UInt8
  cl : UInt8
  dh : UInt8
  dl : UInt8
  deriving DecidableEq, Repr

namespace Int13

variable (call : Int13)

def cylinder : Nat := call.ch.toNat + 256 * (call.cl.toNat / 64)

def head : Nat := call.dh.toNat

def sector : Nat := call.cl.toNat % 64

end Int13

/-- The call reads this sector of the drive. -/
structure Geometry.Addresses (g : Geometry) (lba : UInt16) (call : Int13) : Prop where
  head_lt : call.head < g.heads
  sector_pos : 1 ≤ call.sector
  sector_le : call.sector ≤ g.sectors
  lba_eq : (call.cylinder * g.heads + call.head) * g.sectors + (call.sector - 1) = lba.toNat

/-! ## The boot sector -/

namespace Boot

/-- A word from its high and its low byte. -/
def word (h l : UInt8) : UInt16 := UInt16.ofNat (256 * h.toNat + l.toNat)

/-- The low byte of a register. -/
def low (w : UInt16) : UInt8 := w.toUInt8

/-- The high byte of a register. -/
def high (w : UInt16) : UInt8 := (w >>> 8).toUInt8

/-- `div`, of `dx:ax` by a word: quotient and remainder, or a fault. -/
def div (dx ax d : UInt16) : Option (UInt16 × UInt16) :=
  let numerator := 65536 * dx.toNat + ax.toNat
  if d = 0 ∨ 65535 < numerator / d.toNat then none
  else some (UInt16.ofNat (numerator / d.toNat), UInt16.ofNat (numerator % d.toNat))

/-- The variables for the dimensions of the drive. -/
structure DriveVars where
  maxCylinder : UInt16
  maxHead : UInt16
  maxSector : UInt16

/-- `Get drive CHS dimensions`. The words are 0 before their low bytes are stored. -/
def driveVars (r : DriveParameters) : DriveVars :=
  let maxSector := word 0 r.cl &&& 0x3F
  let cl := r.cl >>> 6
  let (ch, cl) := (cl, r.ch)
  { maxCylinder := word ch cl
    maxHead := word 0 r.dh
    maxSector }

/-- `readsectorLBA`, up to `int 0x13`. -/
def readsectorLBA (vars : DriveVars) (ax : UInt16) : Option Int13 := do
  let (ax, dx) ← div 0 ax vars.maxSector
  let dx := dx + 1
  let cl := low dx
  let cl := cl &&& 0x3F
  let (ax, dx) ← div 0 ax vars.maxHead
  let dh := low dx
  let ch := low ax
  let ah := high ax
  let ah := ah &&& 0x03
  let ah := ah <<< 0x06
  let cl := cl + ah
  return { ah := 0x02, al := 0x01, ch, cl, dh, dl := 0x80 }

/-! ## Words and bytes -/

variable {ax d lba w : UInt16} {h l : UInt8} {g : Geometry} {r : DriveParameters}

@[simp] theorem word_toNat : (word h l).toNat = 256 * h.toNat + l.toNat := by
  have hh := h.toNat_lt
  have hl := l.toNat_lt
  apply UInt16.toNat_ofNat_of_lt'
  show 256 * h.toNat + l.toNat < 65536
  omega

@[simp] theorem low_toNat : (low w).toNat = w.toNat % 256 := UInt16.toNat_toUInt8 w

@[simp] theorem high_toNat : (high w).toNat = w.toNat / 256 := by
  have hw := w.toNat_lt
  show (w >>> 8).toUInt8.toNat = _
  rw [UInt16.toNat_toUInt8, UInt16.toNat_shiftRight, Nat.shiftRight_eq_div_pow]
  show w.toNat / 256 % 256 = _
  omega

theorem div_zero : div 0 ax 0 = none := by
  rw [div]
  exact if_pos (.inl rfl)

/-- With nothing in `dx` the quotient fits. -/
theorem div_eq (h : d ≠ 0) : div 0 ax d = some (ax / d, ax % d) := by
  have hax := ax.toNat_lt
  have hnum : 65536 * (0 : UInt16).toNat + ax.toNat = ax.toNat := by
    rw [UInt16.toNat_zero, Nat.mul_zero, Nat.zero_add]
  have hfits : ¬ 65535 < ax.toNat / d.toNat :=
    Nat.not_lt.mpr (Nat.le_trans (Nat.div_le_self _ _) (Nat.le_of_lt_succ hax))
  simp only [div, hnum]
  rw [if_neg (not_or.mpr ⟨h, hfits⟩)]
  congr 2
  · apply UInt16.toNat.inj
    rw [UInt16.toNat_ofNat', UInt16.toNat_div]
    exact Nat.mod_eq_of_lt (Nat.lt_of_le_of_lt (Nat.div_le_self _ _) hax)
  · apply UInt16.toNat.inj
    rw [UInt16.toNat_ofNat', UInt16.toNat_mod]
    exact Nat.mod_eq_of_lt (Nat.lt_of_le_of_lt (Nat.mod_le _ _) hax)

theorem maxSector_toNat : (driveVars r).maxSector.toNat = r.cl.toNat % 64 := by
  show (word 0 r.cl &&& 0x3F).toNat = _
  rw [UInt16.toNat_and, word_toNat, UInt8.toNat_zero, Nat.mul_zero, Nat.zero_add]
  exact Nat.and_two_pow_sub_one_eq_mod r.cl.toNat 6

theorem maxHead_toNat : (driveVars r).maxHead.toNat = r.dh.toNat := by
  show (word 0 r.dh).toNat = _
  rw [word_toNat, UInt8.toNat_zero, Nat.mul_zero, Nat.zero_add]

/-- `cl` with the sector and two bits of the cylinder. -/
theorem packed_toNat {cl ah : UInt8} :
    ((cl &&& 0x3F) + ((ah &&& 0x03) <<< (0x06 : UInt8))).toNat =
      cl.toNat % 64 + 64 * (ah.toNat % 4) := by
  have hcl : (cl &&& 0x3F).toNat = cl.toNat % 64 := by
    rw [UInt8.toNat_and]
    exact Nat.and_two_pow_sub_one_eq_mod cl.toNat 6
  have hah : (ah &&& 0x03).toNat = ah.toNat % 4 := by
    rw [UInt8.toNat_and]
    exact Nat.and_two_pow_sub_one_eq_mod ah.toNat 2
  rw [UInt8.toNat_add, UInt8.toNat_shiftLeft, hcl, hah, Nat.shiftLeft_eq]
  show (cl.toNat % 64 + ah.toNat % 4 * 64 % 256) % 256 = _
  omega

/-! ## What `readsectorLBA` asks for -/

variable {vars : DriveVars}

theorem readsectorLBA_fault (hs : vars.maxSector ≠ 0) (hh : vars.maxHead = 0) :
    readsectorLBA vars ax = none := by
  simp only [readsectorLBA, div_eq hs, hh, div_zero, Option.bind_eq_bind, Option.bind_some, Option.bind_none]

theorem readsectorLBA_some (hs : vars.maxSector ≠ 0) (hh : vars.maxHead ≠ 0) :
    readsectorLBA vars ax = some
      { ah := 0x02
        al := 0x01
        ch := low (ax / vars.maxSector / vars.maxHead)
        cl := (low (ax % vars.maxSector + 1) &&& 0x3F) +
          ((high (ax / vars.maxSector / vars.maxHead) &&& 0x03) <<< (0x06 : UInt8))
        dh := low (ax / vars.maxSector % vars.maxHead)
        dl := 0x80 } := by
  simp only [readsectorLBA, div_eq hs, div_eq hh, Option.bind_eq_bind, Option.bind_some]
  rfl

theorem maxSector_ne (h : g.Reported r) : (driveVars r).maxSector ≠ 0 := by
  intro hzero
  have hnat := congrArg UInt16.toNat hzero
  rw [maxSector_toNat, h.sectors] at hnat
  exact Nat.ne_of_gt g.sectors_pos hnat

/-- On a drive with one head it divides by 0. -/
theorem one_head (h : g.Reported r) (hone : g.heads = 1) : readsectorLBA (driveVars r) lba = none := by
  apply readsectorLBA_fault (maxSector_ne h)
  apply UInt16.toNat.inj
  rw [maxHead_toNat, h.heads, hone]
  rfl

variable (lba) in
/-- **The address that is asked for**: that on a drive whose cylinders have one head less. -/
theorem address_eq (h : g.Reported r) (htwo : 2 ≤ g.heads) :
    ∃ call, readsectorLBA (driveVars r) lba = some call ∧
      call.cylinder = lba.toNat / g.sectors / (g.heads - 1) % 1024 ∧
      call.head = lba.toNat / g.sectors % (g.heads - 1) ∧
      call.sector = lba.toNat % g.sectors + 1 := by
  have hs := g.sectors_pos
  have hs' := g.sectors_le
  have hh := g.heads_le
  have hsectors : (driveVars r).maxSector.toNat = g.sectors := maxSector_toNat.trans h.sectors
  have hheads : (driveVars r).maxHead.toNat = g.heads - 1 := maxHead_toNat.trans h.heads
  have hhead : (driveVars r).maxHead ≠ 0 := by
    intro hzero
    rw [hzero, UInt16.toNat_zero] at hheads
    omega
  have hmod : lba.toNat % g.sectors < g.sectors := Nat.mod_lt _ hs
  have hmodh : lba.toNat / g.sectors % (g.heads - 1) < g.heads - 1 := Nat.mod_lt _ (by omega)
  have hlow : (low (lba % (driveVars r).maxSector + 1)).toNat = lba.toNat % g.sectors + 1 := by
    rw [low_toNat, UInt16.toNat_add, UInt16.toNat_mod, hsectors]
    show (lba.toNat % g.sectors + 1) % 65536 % 256 = _
    omega
  refine ⟨_, readsectorLBA_some (maxSector_ne h) hhead, ?_, ?_, ?_⟩
  · rw [Int13.cylinder, packed_toNat, low_toNat, high_toNat, UInt16.toNat_div, UInt16.toNat_div, hsectors,
      hheads]
    generalize lba.toNat / g.sectors / (g.heads - 1) = c
    omega
  · rw [Int13.head, low_toNat, UInt16.toNat_mod, UInt16.toNat_div, hsectors, hheads]
    exact Nat.mod_eq_of_lt (by omega)
  · rw [Int13.sector, packed_toNat, hlow]
    omega

/-! ## When it is right -/

/-- Counting with a head less per cylinder is right in the first of them. -/
theorem track_iff {q n : Nat} (hn : 1 ≤ n) : q / n % 1024 * (n + 1) + q % n = q ↔ q < n := by
  constructor
  · intro h
    have hq : n * (q / n) + q % n = q := Nat.div_add_mod q n
    have hc : 1024 * (q / n / 1024) + q / n % 1024 = q / n := Nat.div_add_mod (q / n) 1024
    have hlt : q / n % 1024 < 1024 := Nat.mod_lt _ (by decide)
    -- the cylinder counts twice in the missing head
    have hmul : q / n % 1024 = 1024 * (n * (q / n / 1024)) := by
      have hexp : n * (q / n) = 1024 * (n * (q / n / 1024)) + n * (q / n % 1024) := by
        nth_rewrite 1 [← hc]
        ring
      rw [Nat.mul_add, Nat.mul_one, Nat.mul_comm _ n] at h
      omega
    have hzero : n * (q / n / 1024) = 0 := by omega
    have hk : q / n / 1024 = 0 := (Nat.mul_eq_zero.mp hzero).resolve_left (Nat.ne_of_gt hn)
    have hdiv : q / n = 0 := by omega
    exact (Nat.div_eq_zero_iff.mp hdiv).resolve_left (Nat.ne_of_gt hn)
  · intro h
    rw [Nat.div_eq_of_lt h, Nat.mod_eq_of_lt h, Nat.zero_mod, Nat.zero_mul, Nat.zero_add]

theorem addresses_iff (h : g.Reported r) :
    (∃ call, readsectorLBA (driveVars r) lba = some call ∧ g.Addresses lba call) ↔
      lba.toNat / g.sectors < g.heads - 1 := by
  rcases Nat.lt_or_ge g.heads 2 with hone | htwo
  · have hheads : g.heads = 1 := Nat.le_antisymm (Nat.le_of_lt_succ hone) g.heads_pos
    rw [one_head h hheads, hheads]
    refine iff_of_false ?_ (Nat.not_lt_zero _)
    rintro ⟨call, hcall, -⟩
    cases hcall
  · obtain ⟨call, hcall, hcylinder, hhead, hsector⟩ := address_eq lba h htwo
    obtain ⟨n, hn⟩ : ∃ n, g.heads = n + 1 := Nat.exists_eq_add_of_le' g.heads_pos
    rw [hn, Nat.add_sub_cancel] at hcylinder hhead ⊢
    have hmod : lba.toNat % g.sectors < g.sectors := Nat.mod_lt _ g.sectors_pos
    have hlba : g.sectors * (lba.toNat / g.sectors) + lba.toNat % g.sectors = lba.toNat := Nat.div_add_mod _ _
    rw [hcall, ← track_iff (by omega)]
    constructor
    · rintro ⟨call', hcall', haddress⟩
      cases hcall'
      have heq := haddress.lba_eq
      rw [hcylinder, hhead, hsector, hn, Nat.add_sub_cancel] at heq
      apply Nat.eq_of_mul_eq_mul_right g.sectors_pos
      rw [Nat.mul_comm (lba.toNat / g.sectors)]
      omega
    · intro htrack
      refine ⟨call, rfl, ?_, ?_, ?_, ?_⟩
      · rw [hhead, hn]
        exact Nat.lt_succ_of_lt (Nat.mod_lt _ (by omega))
      · rw [hsector]
        exact Nat.le_add_left 1 _
      · rw [hsector]
        exact hmod
      · rw [hcylinder, hhead, hsector, hn, htrack, Nat.add_sub_cancel, Nat.mul_comm]
        exact hlba

/-! ## The search on the drive -/

/-- The search depends only on the sectors that it reads. -/
theorem findLoaderFrom_congr {disk disk' : Disk} {fuel : Nat} {fileheaderSector : UInt16} {b : Search}
    (hsearch : findLoaderFrom disk fuel fileheaderSector = some b)
    (heq : ∀ v ∈ b.visited, disk' v.toUInt32 = disk v.toUInt32) :
    findLoaderFrom disk' fuel fileheaderSector = some b := by
  induction fuel generalizing fileheaderSector b with
  | zero => cases hsearch
  | succ fuel ih =>
    rw [findLoaderFrom] at hsearch ⊢
    by_cases hname : disk fileheaderSector.toUInt32 0 = 0
    · rw [if_pos hname] at hsearch
      cases hsearch
      rw [heq _ (List.mem_singleton_self _), if_pos hname]
    · by_cases hmatch : strncmpFrom kernelName (disk fileheaderSector.toUInt32) 6 0 = true
      · rw [if_neg hname, if_pos hmatch] at hsearch
        cases hsearch
        rw [heq _ (List.mem_singleton_self _), if_neg hname, if_pos hmatch]
      · rw [if_neg hname, if_neg hmatch, Option.map_eq_some_iff] at hsearch
        obtain ⟨rest, hrest, rfl⟩ := hsearch
        rw [List.forall_mem_cons] at heq
        have hgo := ih hrest heq.2
        rw [heq.1, if_neg hname, if_neg hmatch]
        show Option.map _ _ = _
        rw [hgo]
        rfl

/-- The sector that a call reads. -/
def sectorRead (g : Geometry) (disk : Disk) (call : Int13) : Bytes :=
  disk (UInt32.ofNat ((call.cylinder * g.heads + call.head) * g.sectors + (call.sector - 1)))

/-- The boot sector finds what is on the drive, as long as that is on its first tracks. -/
theorem findLoaderFrom_drive {disk seen : Disk} {fuel : Nat} {fileheaderSector : UInt16} {b : Search}
    (h : g.Reported r)
    (hseen : ∀ lba call, readsectorLBA (driveVars r) lba = some call → seen lba.toUInt32 = sectorRead g disk call)
    (hsearch : findLoaderFrom disk fuel fileheaderSector = some b)
    (htracks : ∀ v ∈ b.visited, v.toNat / g.sectors < g.heads - 1) :
    findLoaderFrom seen fuel fileheaderSector = some b := by
  apply findLoaderFrom_congr hsearch
  intro v hv
  obtain ⟨call, hcall, haddress⟩ := (addresses_iff h).mpr (htracks v hv)
  have hsector : UInt32.ofNat v.toNat = v.toUInt32 := by
    apply UInt32.toNat.inj
    rw [UInt16.toNat_toUInt32, UInt32.toNat_ofNat_of_lt' (Nat.lt_trans v.toNat_lt (by decide))]
  rw [hseen v call hcall, sectorRead, haddress.lba_eq, hsector]

end Boot

/-- **The right sector is read** exactly on the first tracks of the drive, one less than it has heads. -/
theorem address_iff (g : Geometry) (r : DriveParameters) (h : g.Reported r) (lba : UInt16) :
    (∃ call, Boot.readsectorLBA (Boot.driveVars r) lba = some call ∧ g.Addresses lba call) ↔
      lba.toNat < (g.heads - 1) * g.sectors := by
  rw [Boot.addresses_iff h]
  exact Nat.div_lt_iff_lt_mul g.sectors_pos

/-- A drive of about 50 megabytes. -/
def smallDrive : Geometry where
  cylinders := 100
  heads := 16
  sectors := 63
  cylinders_le := by decide
  heads_pos := by decide
  heads_le := by decide
  sectors_pos := by decide
  sectors_le := by decide

/-- What is reported for it: cylinder 99, head 15, 63 sectors. -/
def smallParameters : DriveParameters := ⟨99, 63, 15⟩

theorem smallDrive_reported : smallDrive.Reported smallParameters := ⟨by decide, by decide⟩

theorem address_iff_last : (944 : UInt16).toNat < (smallDrive.heads - 1) * smallDrive.sectors ∧
    ∃ call, Boot.readsectorLBA (Boot.driveVars smallParameters) 944 = some call ∧
      smallDrive.Addresses 944 call :=
  ⟨by decide, (address_iff smallDrive smallParameters smallDrive_reported 944).mpr (by decide)⟩

/-- For sector 945 it asks for cylinder 1, head 0, where sector 1008 is. -/
theorem next_track_wrong : ¬ ∀ (g : Geometry) (r : DriveParameters), g.Reported r →
    ∀ lba : UInt16, lba.toNat < g.total →
      ∃ call, Boot.readsectorLBA (Boot.driveVars r) lba = some call ∧ g.Addresses lba call := by
  intro hall
  obtain ⟨call, hcall, haddress⟩ := hall smallDrive smallParameters smallDrive_reported 945 (by decide)
  have hasked : Boot.readsectorLBA (Boot.driveVars smallParameters) 945 = some ⟨2, 1, 1, 1, 0, 0x80⟩ := by
    decide
  rw [hasked, Option.some_inj] at hcall
  have heq := haddress.lba_eq
  rw [← hcall] at heq
  exact absurd heq (by decide)

end Shipwreck.Storage
