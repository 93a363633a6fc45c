import Shipwreck.Lib.Walk
import Shipwreck.Storage.Handles
import Mathlib.Data.List.Nodup

/-!
# The end of the directory walk

`find_file_sector` reads header after header until it meets one that matches or has no name. It looks
at nothing else: not at the end of the disk, and not at what `readsector` returns. A read past the end
leaves in `tar_header` what the last one put there, so that the walk goes on in equal strides:

    1 ---> s ---> t ------> . ------> . ------> .        (the stride of the header in t)
    |------------ disk -------|    past the end

`readsector` sends 28 bits of the sector number. So the strides go around the `2^28` addresses, and may
come back to the disk. The walk ends if and only if the chain of headers that comes about in this way
has one that ends it (`directory_walk_ends_iff`).
-/

namespace Shipwreck.Storage

/-! ## The drive -/

/-- The registers that the address of a sector goes to. -/
structure AtaAddress where
  drivePort : UInt8
  lba0 : UInt8
  lba1 : UInt8
  lba2 : UInt8
  deriving DecidableEq, Repr

/-- What `ATADevice::readsector` writes to them. -/
def AtaAddress.ofLba (lba28 : UInt32) : AtaAddress where
  drivePort := ((0xE0 : UInt32) ||| ((lba28 >>> 24) &&& 0x0F)).toUInt8
  lba0 := lba28.toUInt8
  lba1 := (lba28 >>> 8).toUInt8
  lba2 := (lba28 >>> 16).toUInt8

/-- The sector that the drive finds there; the high bits of the drive register are no part of it. -/
def AtaAddress.sector (a : AtaAddress) : Nat :=
  a.drivePort.toNat % 16 * 16777216 + a.lba2.toNat * 65536 + a.lba1.toNat * 256 + a.lba0.toNat

/-- The sector that is read for a sector number. -/
def sectorOf (lba28 : UInt32) : Nat := (AtaAddress.ofLba lba28).sector

/-- A drive has at most `2^28` sectors. -/
structure Drive where
  content : List Bytes
  length_le : content.length ≤ 268435456

namespace Drive

variable (drive : Drive)

/-- The number of sectors. -/
def sectors : Nat := drive.content.length

/-- What is in a sector of the drive. -/
def sector (s : Nat) : Bytes := drive.content.getD s fun _ => 0

/-- `ATADevice::readsector`: its result, and the destination. -/
def readsector (dst : Bytes) (lba28 : UInt32) : Nat × Bytes :=
  match drive.content[sectorOf lba28]? with
  | some data => (1, data)
  | none => (0, dst)

/-- The loop of `TarFS::find_file_sector` from `currentSector`. -/
def findFileFrom (name : Bytes) : Nat → Bytes → UInt32 → Option FileSearch
  | 0, _, _ => none
  | fuel + 1, tarHeader, currentSector =>
    let tarHeader := (drive.readsector tarHeader currentSector).2
    if tarHeader 0 = 0 then some ⟨[currentSector], 0, tarHeader⟩
    else if strncmp tarHeader name (strnlen name 0x100) = 0 then
      some ⟨[currentSector], currentSector, tarHeader⟩
    else
      let nextSector := currentSector + (1 + (getSize tarHeader + 512 - 1) / 512)
      (findFileFrom name fuel tarHeader nextSector).map fun r =>
        { r with visited := currentSector :: r.visited }

/-- `TarFS::find_file_sector`; what its caller has in `tar_header` is arbitrary. -/
def findFileSector (tarHeader name : Bytes) (fuel : Nat) : Option FileSearch :=
  drive.findFileFrom name fuel tarHeader 1

/-- The sectors of the drive among those that were read. -/
def examined (visited : List UInt32) : List Nat :=
  (visited.map sectorOf).filter fun s => s < drive.sectors

/-- The search comes to an end, and has examined no sector twice. -/
def WalkEnds (tarHeader name : Bytes) : Prop :=
  ∃ search enough, (∀ fuel, enough ≤ fuel → drive.findFileSector tarHeader name fuel = some search) ∧
    (drive.examined search.visited).Nodup

end Drive

/-! ## The chain of headers -/

/-- A search for this name stops at the header. -/
def Stops (header name : Bytes) : Prop := header 0 = 0 ∨ beginsWith header name = true

instance (header name : Bytes) : Decidable (Stops header name) :=
  inferInstanceAs (Decidable (_ ∨ _))

/-- From one header to the next: a sector for itself, and those of the file. -/
def stride (header : Bytes) : Nat := 1 + (getSize header + 511).toNat / 512

namespace Drive

variable (drive : Drive)

/-- Of the addresses `a`, `a + k`, `a + 2 * k`, ... the first one that is on the disk is `t`. -/
def FirstFrom (a k t : Nat) : Prop :=
  t < drive.sectors ∧ ∃ j, t = (a + j * k) % 268435456 ∧
    ∀ i, i < j → drive.sectors ≤ (a + i * k) % 268435456

/-- The chain of headers: the first one is in sector 1, and from each of them strides of its length lead
to the next one. On a disk without a sector 1 the strides are those of the header that is there already. -/
inductive OnChain (tarHeader : Bytes) : Nat → Prop
  | first {s : Nat} (hs : drive.FirstFrom 1 (stride tarHeader) s) : OnChain tarHeader s
  | next {s t : Nat} (hs : OnChain tarHeader s)
      (ht : drive.FirstFrom (s + stride (drive.sector s)) (stride (drive.sector s)) t) :
      OnChain tarHeader t

/-- Some header of the chain stops the search. -/
def HasEnd (tarHeader name : Bytes) : Prop :=
  (∃ s, drive.OnChain tarHeader s ∧ Stops (drive.sector s) name) ∨
    (drive.sectors ≤ 1 ∧ Stops tarHeader name)

end Drive

/-! ## One step -/

theorem AtaAddress.sector_ofLba (lba28 : UInt32) :
    (AtaAddress.ofLba lba28).sector = lba28.toNat % 268435456 := by
  have hlt := lba28.toNat_lt
  have hor : ∀ x, x < 16 → (0xE0 ||| x) % 256 % 16 = x := by decide
  have hdrive : (AtaAddress.ofLba lba28).drivePort.toNat % 16 = lba28.toNat / 16777216 % 16 := by
    show (0xE0 ||| (lba28.toNat >>> 24 &&& 15)) % 256 % 16 = _
    rw [Nat.and_two_pow_sub_one_eq_mod _ 4, Nat.shiftRight_eq_div_pow, hor _ (Nat.mod_lt _ (by decide))]
  have hlba1 : (AtaAddress.ofLba lba28).lba1.toNat = lba28.toNat / 256 % 256 := by
    show lba28.toNat >>> 8 % 256 = _
    rw [Nat.shiftRight_eq_div_pow]
  have hlba2 : (AtaAddress.ofLba lba28).lba2.toNat = lba28.toNat / 65536 % 256 := by
    show lba28.toNat >>> 16 % 256 = _
    rw [Nat.shiftRight_eq_div_pow]
  have hlba0 : (AtaAddress.ofLba lba28).lba0.toNat = lba28.toNat % 256 := rfl
  rw [AtaAddress.sector, hdrive, hlba2, hlba1, hlba0]
  omega

theorem sectorOf_eq (lba28 : UInt32) : sectorOf lba28 = lba28.toNat % 268435456 := by
  rw [sectorOf, AtaAddress.sector_ofLba]

theorem stops_iff {header name : Bytes} :
    Stops header name ↔ header 0 = 0 ∨ strncmp header name (strnlen name 0x100) = 0 := by
  rw [Stops, beginsWith, beq_iff_eq]

/-- The sector number of the next header. -/
def nextSector (header : Bytes) (currentSector : UInt32) : UInt32 :=
  currentSector + (1 + (getSize header + 512 - 1) / 512)

theorem sectorOf_nextSector (header : Bytes) (currentSector : UInt32) :
    sectorOf (nextSector header currentSector) =
      (sectorOf currentSector + stride header) % 268435456 := by
  have hone : (1 : UInt32).toNat = 1 := rfl
  have h512 : (512 : UInt32).toNat = 512 := rfl
  have hround : getSize header + 512 - 1 = getSize header + 511 := by
    rw [UInt32.sub_eq_add_neg, UInt32.add_assoc]
    rfl
  rw [sectorOf_eq, sectorOf_eq, nextSector, stride, hround, UInt32.toNat_add, UInt32.toNat_add,
    UInt32.toNat_div, hone, h512]
  omega

namespace Drive

variable {drive : Drive} {tarHeader header name : Bytes} {s t : Nat}

/-! ## The search as a walk -/

/-- A sector number, and what is in `tar_header` when it has been read. -/
abbrev Visit := UInt32 × Bytes

variable (drive) in
def visit (header : Bytes) (currentSector : UInt32) : Visit :=
  (currentSector, (drive.readsector header currentSector).2)

variable (drive) in
/-- From one header to the next. -/
def advance (v : Visit) : Visit := drive.visit v.2 (nextSector v.2 v.1)

theorem visit_snd_of_lt {currentSector : UInt32} (h : sectorOf currentSector < drive.sectors) :
    (drive.visit header currentSector).2 = drive.sector (sectorOf currentSector) := by
  have hget : drive.content[sectorOf currentSector]? = some (drive.sector (sectorOf currentSector)) := by
    rw [sector, List.getD_eq_getElem?_getD, List.getElem?_eq_getElem h]
    rfl
  rw [visit, readsector, hget]

variable (header) in
theorem visit_snd_of_ge {currentSector : UInt32} (h : drive.sectors ≤ sectorOf currentSector) :
    (drive.visit header currentSector).2 = header := by
  rw [visit, readsector, List.getElem?_eq_none h]

/-- Behind a header that does not stop it the search goes on with the next one. -/
theorem findFileFrom_go {currentSector : UInt32} (h : ¬ Stops (drive.visit header currentSector).2 name)
    (fuel : Nat) :
    drive.findFileFrom name (fuel + 1) header currentSector =
      (drive.findFileFrom name fuel (drive.visit header currentSector).2
        (nextSector (drive.visit header currentSector).2 currentSector)).map fun r =>
          { r with visited := currentSector :: r.visited } := by
  rw [stops_iff, not_or] at h
  obtain ⟨hname, hmatch⟩ := h
  rw [findFileFrom]
  exact (if_neg hname).trans (if_neg hmatch)

/-- A header that stops the search is the last one that it reads. -/
theorem findFileFrom_stop {currentSector : UInt32} (h : Stops (drive.visit header currentSector).2 name) :
    ∃ search, (∀ fuel, drive.findFileFrom name (fuel + 1) header currentSector = some search) ∧
      search.visited = [currentSector] := by
  rw [stops_iff] at h
  by_cases hname : (drive.visit header currentSector).2 0 = 0
  · refine ⟨⟨[currentSector], 0, (drive.visit header currentSector).2⟩, ?_, rfl⟩
    intro fuel
    rw [findFileFrom]
    exact if_pos hname
  · refine ⟨⟨[currentSector], currentSector, (drive.visit header currentSector).2⟩, ?_, rfl⟩
    intro fuel
    rw [findFileFrom]
    exact (if_neg hname).trans (if_pos (h.resolve_left hname))

/-- The walk of the search from a visit on. -/
abbrev Visits (drive : Drive) (name : Bytes) : Visit → List Visit → Prop :=
  Walk drive.advance fun v => Stops v.2 name

/-- A search that comes to an end is a walk. -/
theorem visits_of_search {fuel : Nat} {currentSector : UInt32} {search : FileSearch}
    (h : drive.findFileFrom name fuel header currentSector = some search) :
    ∃ path, drive.Visits name (drive.visit header currentSector) path := by
  induction fuel generalizing header currentSector search with
  | zero => cases h
  | succ fuel ih =>
    by_cases hstop : Stops (drive.visit header currentSector).2 name
    · exact ⟨_, .last hstop⟩
    · rw [findFileFrom_go hstop, Option.map_eq_some_iff] at h
      obtain ⟨rest, hrest, -⟩ := h
      obtain ⟨path, hpath⟩ := ih hrest
      exact ⟨_, .step hstop hpath⟩

/-- A walk is a search that comes to an end. -/
theorem search_of_visits {v : Visit} {path : List Visit} (h : drive.Visits name v path) :
    ∀ header currentSector, v = drive.visit header currentSector →
      ∃ search, (∀ fuel, path.length ≤ fuel →
        drive.findFileFrom name fuel header currentSector = some search) ∧
        search.visited = path.map Prod.fst := by
  induction h with
  | @last v hs =>
    rintro header currentSector rfl
    obtain ⟨search, hsearch, hvisited⟩ := findFileFrom_stop hs
    refine ⟨search, ?_, hvisited⟩
    intro fuel hfuel
    obtain ⟨fuel, rfl⟩ := Nat.exists_eq_add_of_le' hfuel
    exact hsearch fuel
  | @step v path hs _ ih =>
    rintro header currentSector rfl
    obtain ⟨search, hsearch, hvisited⟩ := ih _ _ rfl
    refine ⟨{ search with visited := currentSector :: search.visited }, ?_, ?_⟩
    · intro fuel hfuel
      rw [List.length_cons] at hfuel
      obtain ⟨fuel, rfl⟩ := Nat.exists_eq_add_of_le' (Nat.le_trans (Nat.le_add_left 1 path.length) hfuel)
      rw [findFileFrom_go hs]
      exact congrArg _ (hsearch fuel (Nat.le_of_succ_le_succ hfuel))
    · rw [List.map_cons, hvisited]
      rfl

/-! ## No sector twice -/

/-- The address that is read and the header that is there afterwards say how the walk goes on. -/
theorem visit_determines :
    Walk.Determines drive.advance (fun v => Stops v.2 name) fun v => (sectorOf v.1, v.2) := by
  constructor
  · rintro ⟨s, header⟩ ⟨t, header'⟩ heq
    rw [Prod.mk.injEq] at heq
    rw [heq.2]
  · rintro ⟨s, header⟩ ⟨t, header'⟩ heq
    rw [Prod.mk.injEq] at heq
    obtain ⟨hsector, rfl⟩ : sectorOf s = sectorOf t ∧ header = header' := heq
    have hnext : sectorOf (nextSector header s) = sectorOf (nextSector header t) := by
      rw [sectorOf_nextSector, sectorOf_nextSector, hsector]
    have hread : (drive.visit header (nextSector header s)).2 =
        (drive.visit header (nextSector header t)).2 := by
      rw [visit, visit, readsector, readsector, hnext]
    exact Prod.ext hnext hread

/-- What is read from the disk is the header of its sector. -/
def FromDisk (drive : Drive) (v : Visit) : Prop :=
  sectorOf v.1 < drive.sectors → v.2 = drive.sector (sectorOf v.1)

theorem visit_fromDisk (currentSector : UInt32) : drive.FromDisk (drive.visit header currentSector) :=
  fun h => visit_snd_of_lt h

/-- **A search that comes to an end has examined no sector twice.** -/
theorem examined_nodup {currentSector : UInt32} {path : List Visit}
    (h : drive.Visits name (drive.visit header currentSector) path) :
    (drive.examined (path.map Prod.fst)).Nodup := by
  have hdisk : ∀ v ∈ path, drive.FromDisk v :=
    h.forall_mem (visit_fromDisk currentSector) fun v _ _ => visit_fromDisk _
  have hkeys := (h.keys_nodup visit_determines).filter fun k => decide (k.1 < drive.sectors)
  have hlist : drive.examined (path.map Prod.fst) =
      ((path.map fun v => (sectorOf v.1, v.2)).filter fun k => decide (k.1 < drive.sectors)).map Prod.fst := by
    rw [examined, List.map_map, List.filter_map, List.filter_map, List.map_map]
    rfl
  rw [hlist]
  apply hkeys.map_on
  have hheader : ∀ k ∈ (path.map fun v => (sectorOf v.1, v.2)).filter fun k => decide (k.1 < drive.sectors),
      k.2 = drive.sector k.1 := by
    intro k hk
    rw [List.mem_filter, List.mem_map, decide_eq_true_eq] at hk
    obtain ⟨⟨v, hv, rfl⟩, hlt⟩ := hk
    exact hdisk v hv hlt
  intro k hk k' hk' heq
  apply Prod.ext heq
  rw [hheader k hk, hheader k' hk', heq]

/-! ## The walk follows the chain -/

/-- `header` is what is in `tar_header` when the strides are at `a`: a header of the chain, with the
strides behind it, or what was there before on a disk without a sector 1. -/
inductive Held (drive : Drive) (tarHeader : Bytes) : Bytes → Nat → Prop
  | read {s : Nat} (hs : drive.OnChain tarHeader s) :
      Held drive tarHeader (drive.sector s) (s + stride (drive.sector s))
  | before (hsectors : drive.sectors ≤ 1) : Held drive tarHeader tarHeader 1

theorem Held.onChain {a : Nat} (h : drive.Held tarHeader header a)
    (ht : drive.FirstFrom a (stride header) t) : drive.OnChain tarHeader t := by
  cases h with
  | read hs => exact .next hs ht
  | before _ => exact .first ht

/-- The header in `tar_header` has the next address among its strides, and those before it are not on
the disk. -/
def Strides (drive : Drive) (tarHeader : Bytes) (v : Visit) : Prop :=
  ∃ a j, drive.Held tarHeader v.2 a ∧
    (sectorOf v.1 + stride v.2) % 268435456 = (a + j * stride v.2) % 268435456 ∧
    ∀ i, i < j → drive.sectors ≤ (a + i * stride v.2) % 268435456

theorem Strides.of_onChain {v : Visit} (h : drive.OnChain tarHeader (sectorOf v.1))
    (hheader : v.2 = drive.sector (sectorOf v.1)) : drive.Strides tarHeader v := by
  refine ⟨sectorOf v.1 + stride v.2, 0, ?_, ?_, ?_⟩
  · rw [hheader]
    exact .read h
  · rw [Nat.zero_mul, Nat.add_zero]
  · intro i hi
    exact absurd hi (Nat.not_lt_zero i)

theorem sectorOf_one : sectorOf 1 = 1 := by
  rw [sectorOf_eq]
  rfl

theorem strides_start : drive.Strides tarHeader (drive.visit tarHeader 1) := by
  by_cases hsectors : drive.sectors ≤ 1
  · have hge : drive.sectors ≤ sectorOf 1 := by rwa [sectorOf_one]
    have hheader := visit_snd_of_ge tarHeader hge
    refine ⟨1, 1, ?_, ?_, ?_⟩
    · rw [hheader]
      exact .before hsectors
    · rw [Nat.one_mul]
      show (sectorOf 1 + _) % _ = _
      rw [sectorOf_one]
    · intro i hi
      rw [Nat.lt_one_iff.mp hi, Nat.zero_mul]
      exact hsectors
  · have hlt : sectorOf 1 < drive.sectors := by
      rw [sectorOf_one]
      omega
    apply Strides.of_onChain (v := drive.visit tarHeader 1) _ (visit_snd_of_lt hlt)
    refine .first ⟨hlt, 0, ?_, ?_⟩
    · rw [Nat.zero_mul]
      exact sectorOf_one
    · intro i hi
      exact absurd hi (Nat.not_lt_zero i)

theorem Strides.advance {v : Visit} (h : drive.Strides tarHeader v) :
    drive.Strides tarHeader (drive.advance v) := by
  obtain ⟨a, j, hheld, hnext, hoff⟩ := h
  have hsector : sectorOf (nextSector v.2 v.1) = (a + j * stride v.2) % 268435456 := by
    rw [sectorOf_nextSector, hnext]
  by_cases hdisk : sectorOf (nextSector v.2 v.1) < drive.sectors
  · apply Strides.of_onChain (v := drive.advance v) _ (visit_snd_of_lt hdisk)
    exact hheld.onChain ⟨hdisk, j, hsector, hoff⟩
  · have hheader : (drive.advance v).2 = v.2 := visit_snd_of_ge v.2 (Nat.not_lt.mp hdisk)
    refine ⟨a, j + 1, ?_, ?_, ?_⟩
    · rw [hheader]
      exact hheld
    · rw [hheader, Nat.add_mul, Nat.one_mul, ← Nat.add_assoc]
      show (sectorOf (nextSector v.2 v.1) + _) % _ = _
      rw [hsector, Nat.mod_add_mod]
    · intro i hi
      rw [hheader]
      rcases Nat.lt_succ_iff_lt_or_eq.mp hi with hi | rfl
      · exact hoff i hi
      · rw [← hsector]
        exact Nat.not_lt.mp hdisk

theorem strides_iterate (n : Nat) : drive.Strides tarHeader (drive.advance^[n] (drive.visit tarHeader 1)) := by
  induction n with
  | zero => exact strides_start
  | succ n ih =>
    rw [Function.iterate_succ_apply']
    exact ih.advance

theorem Strides.hasEnd {v : Visit} (h : drive.Strides tarHeader v) (hstop : Stops v.2 name) :
    drive.HasEnd tarHeader name := by
  obtain ⟨header, hheader⟩ : ∃ header, v.2 = header := ⟨_, rfl⟩
  obtain ⟨a, -, hheld, -⟩ := h
  rw [hheader] at hheld hstop
  cases hheld with
  | read hs => exact .inl ⟨_, hs, hstop⟩
  | before hsectors => exact .inr ⟨hsectors, hstop⟩

/-- The walk comes to the first sector on the disk among the strides before it. -/
theorem arrives {k j : Nat} : ∀ {v : Visit} {a : Nat}, stride v.2 = k →
    (sectorOf v.1 + k) % 268435456 = a % 268435456 → t = (a + j * k) % 268435456 → t < drive.sectors →
    (∀ i, i < j → drive.sectors ≤ (a + i * k) % 268435456) →
    ∃ n, sectorOf (drive.advance^[n] v).1 = t ∧ (drive.advance^[n] v).2 = drive.sector t := by
  induction j with
  | zero =>
    intro v a hk ha ht hlt _
    have hsector : sectorOf (nextSector v.2 v.1) = t := by
      rw [sectorOf_nextSector, hk, ha, ht, Nat.zero_mul, Nat.add_zero]
    refine ⟨1, hsector, ?_⟩
    rw [← hsector]
    exact visit_snd_of_lt (by rwa [hsector])
  | succ j ih =>
    intro v a hk ha ht hlt hoff
    have hsector : sectorOf (nextSector v.2 v.1) = a % 268435456 := by
      rw [sectorOf_nextSector, hk, ha]
    have hheader : (drive.advance v).2 = v.2 := by
      apply visit_snd_of_ge
      have hfirst := hoff 0 (Nat.succ_pos j)
      rwa [Nat.zero_mul, Nat.add_zero, ← hsector] at hfirst
    have hshift : ∀ i, a + (i + 1) * k = a + k + i * k := by
      intro i
      rw [Nat.add_mul, Nat.one_mul, Nat.add_comm (i * k), Nat.add_assoc]
    obtain ⟨n, hn⟩ := ih (v := drive.advance v) (a := a + k) (by rw [hheader, hk]) (by
        show (sectorOf (nextSector v.2 v.1) + k) % 268435456 = _
        rw [hsector, Nat.mod_add_mod]) (by rw [ht, hshift]) hlt (by
        intro i hi
        rw [← hshift]
        exact hoff (i + 1) (Nat.succ_lt_succ hi))
    exact ⟨n + 1, hn⟩

/-- The walk comes to every header of the chain. -/
theorem visits_chain (h : drive.OnChain tarHeader s) :
    ∃ n, sectorOf (drive.advance^[n] (drive.visit tarHeader 1)).1 = s ∧
      (drive.advance^[n] (drive.visit tarHeader 1)).2 = drive.sector s := by
  induction h with
  | @first s hs =>
    obtain ⟨hlt, j, hj, hoff⟩ := hs
    by_cases hsectors : drive.sectors ≤ 1
    · have hge : drive.sectors ≤ sectorOf 1 := by rwa [sectorOf_one]
      have hheader := visit_snd_of_ge tarHeader hge
      -- sector 1 is not on the disk: the first stride leads away from it
      have hpos : j ≠ 0 := by
        rintro rfl
        rw [Nat.zero_mul] at hj
        omega
      obtain ⟨j, rfl⟩ := Nat.exists_eq_add_one_of_ne_zero hpos
      have hshift : ∀ i, 1 + (i + 1) * stride tarHeader = 1 + stride tarHeader + i * stride tarHeader := by
        intro i
        rw [Nat.add_mul, Nat.one_mul, Nat.add_comm (i * _), Nat.add_assoc]
      apply arrives (k := stride tarHeader) (j := j) (a := 1 + stride tarHeader) (by rw [hheader]) _ (by rw [hj, hshift]) hlt
      · intro i hi
        rw [← hshift]
        exact hoff (i + 1) (Nat.succ_lt_succ hi)
      · show (sectorOf 1 + _) % _ = _
        rw [sectorOf_one]
    · have hzero : j = 0 := by
        by_contra hne
        have hfirst := hoff 0 (Nat.pos_of_ne_zero hne)
        rw [Nat.zero_mul] at hfirst
        omega
      rw [hzero, Nat.zero_mul] at hj
      have hs1 : sectorOf 1 = s := by rw [sectorOf_one, hj]
      refine ⟨0, hs1, ?_⟩
      rw [← hs1]
      exact visit_snd_of_lt (by rwa [hs1])
  | @next s t hs ht ih =>
    obtain ⟨n, hsector, hheader⟩ := ih
    obtain ⟨hlt, j, hj, hoff⟩ := ht
    obtain ⟨m, hm⟩ := arrives (v := drive.advance^[n] (drive.visit tarHeader 1)) (by rw [hheader]) (by rw [hsector]) hj hlt hoff
    refine ⟨m + n, ?_⟩
    rwa [Function.iterate_add_apply]

/-- The walk comes to a header that stops it exactly if there is one on the chain. -/
theorem stops_iff_hasEnd :
    (∃ n, Stops (drive.advance^[n] (drive.visit tarHeader 1)).2 name) ↔ drive.HasEnd tarHeader name := by
  constructor
  · rintro ⟨n, hn⟩
    exact (strides_iterate n).hasEnd hn
  · rintro (⟨s, hs, hstop⟩ | ⟨hsectors, hstop⟩)
    · obtain ⟨n, -, hheader⟩ := visits_chain hs
      refine ⟨n, ?_⟩
      rwa [hheader]
    · refine ⟨0, ?_⟩
      have hge : drive.sectors ≤ sectorOf 1 := by rwa [sectorOf_one]
      show Stops (drive.visit tarHeader 1).2 name
      rwa [visit_snd_of_ge _ hge]

/-- As long as it stays on the disk, the search is that of a disk without an end. -/
theorem findFileFrom_eq {disk : Disk} {fuel : Nat} {currentSector : UInt32} {search : FileSearch}
    (hdisk : ∀ s, sectorOf s < drive.sectors → disk s = drive.sector (sectorOf s))
    (hsearch : Storage.findFileFrom disk name fuel currentSector = some search)
    (hvisited : ∀ s ∈ search.visited, sectorOf s < drive.sectors) :
    drive.findFileFrom name fuel header currentSector = some search := by
  induction fuel generalizing header currentSector search with
  | zero => cases hsearch
  | succ fuel ih =>
    have hread (hlt : sectorOf currentSector < drive.sectors) :
        (drive.readsector header currentSector).2 = disk currentSector :=
      (visit_snd_of_lt hlt).trans (hdisk currentSector hlt).symm
    rw [Storage.findFileFrom] at hsearch
    by_cases hname : disk currentSector 0 = 0
    · rw [if_pos hname] at hsearch
      cases hsearch
      rw [findFileFrom, hread (hvisited currentSector (List.mem_singleton_self _)), if_pos hname]
    · by_cases hmatch : strncmp (disk currentSector) name (strnlen name 0x100) = 0
      · rw [if_neg hname, if_pos hmatch] at hsearch
        cases hsearch
        rw [findFileFrom, hread (hvisited currentSector (List.mem_singleton_self _)), if_neg hname,
          if_pos hmatch]
      · rw [if_neg hname, if_neg hmatch, Option.map_eq_some_iff] at hsearch
        obtain ⟨rest, hrest, rfl⟩ := hsearch
        rw [List.forall_mem_cons] at hvisited
        have hgo : drive.findFileFrom name fuel (disk currentSector) _ = some rest := ih hrest hvisited.2
        rw [findFileFrom, hread hvisited.1, if_neg hname, if_neg hmatch]
        show Option.map _ _ = _
        rw [hgo]
        rfl

end Drive

/-- **The directory walk ends**, and has then examined no sector twice, exactly if the chain of headers
has one that stops it. -/
theorem directory_walk_ends_iff (drive : Drive) (tarHeader name : Bytes) :
    drive.WalkEnds tarHeader name ↔ drive.HasEnd tarHeader name := by
  rw [← Drive.stops_iff_hasEnd]
  constructor
  · rintro ⟨search, enough, hsearch, -⟩
    obtain ⟨path, hpath⟩ := Drive.visits_of_search (hsearch enough (Nat.le_refl _))
    exact Walk.ends_iff.mp ⟨path, hpath⟩
  · rintro ⟨n, hn⟩
    obtain ⟨path, hpath⟩ : ∃ path, drive.Visits name (drive.visit tarHeader 1) path :=
      Walk.ends_iff.mpr ⟨n, hn⟩
    obtain ⟨search, hsearch, hvisited⟩ := Drive.search_of_visits hpath tarHeader 1 rfl
    refine ⟨search, path.length, hsearch, ?_⟩
    rw [hvisited]
    exact Drive.examined_nodup hpath

/-! ### A disk that is full -/

/-- The boot sector begins with an instruction. -/
def bootSector : Bytes := fun i => if i = 0 then 0xBC else 0x90

/-- The header of an empty file `a`. -/
def emptyFile : Bytes := fun i => if i = 0 then 97 else if i = 124 then 48 else 0

/-- The archive fills the disk: there is no header without a name behind its last one. -/
def fullDrive : Drive where
  content := [bootSector, emptyFile]
  length_le := by decide

/-- The name `b`. -/
def missingName : Bytes := fun i => if i = 0 then 98 else 0

/-- A search for a file that is not there goes on behind the end, around the addresses and through the
boot sector, again and again. -/
theorem full_drive_endless : ¬ ∀ (drive : Drive) (tarHeader name : Bytes), drive.WalkEnds tarHeader name := by
  intro hall
  obtain ⟨search, enough, hsearch, -⟩ := hall fullDrive emptyFile missingName
  obtain ⟨path, hpath⟩ := Drive.visits_of_search (hsearch enough (Nat.le_refl _))
  rcases Drive.stops_iff_hasEnd.mp hpath.exists_stop with ⟨s, hs, hstop⟩ | ⟨hsectors, -⟩
  · have hlt : s < 2 := by
      cases hs with
      | first hs => exact hs.1
      | next _ hs => exact hs.1
    have hnone : ∀ s, s < 2 → ¬ Stops (fullDrive.sector s) missingName := by decide +kernel
    exact hnone s hlt hstop
  · exact absurd hsectors (by decide)

end Shipwreck.Storage
