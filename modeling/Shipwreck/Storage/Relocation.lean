import Shipwreck.Lib.CInt
import Shipwreck.Lib.Words
import Shipwreck.Storage.SharedObject

/-!
# Relocating a shared object

`loadModule` of `system/include/elfparser.h`, behind the segments: the dynamic section says where the tables of
the module are, and each entry of the two tables of relocations names a word of the module that holds an
address. The module is linked for address 0, so that the address of the module is added to that word, and to
the place in the entry too:

    relocs[i]:  r_offset, r_info         r_offset + base, r_info
                   |                        |
                   v                        v
                 word                      word + base

The type of a relocation is not looked at. `load_relocates` says what is changed by all of it.
-/

namespace Shipwreck.Storage

open ByteMem (Apart span)

/-! ## The module -/

/-- `ElfModule`, behind the headers. -/
structure ElfModule where
  moduleBaseVaddr : UInt32
  dynamic : UInt32
  numDynamic : UInt32
  relocs : UInt32
  numRelocs : UInt32
  jmpRelocs : UInt32
  numJmpRelocs : UInt32
  dynsym : UInt32
  symSize : UInt32
  numBuckets : UInt32
  numChains : UInt32
  buckets : UInt32
  chains : UInt32
  strtab : UInt32
  pltgot : UInt32
  deriving DecidableEq, Repr

namespace ElfModule

/-- `ElfModule::initialize`, with the address that `mapLoadableSegments` stores. -/
def initialized (moduleBaseVaddr : UInt32) : ElfModule where
  moduleBaseVaddr := moduleBaseVaddr
  dynamic := 0
  numDynamic := 0
  relocs := 0
  numRelocs := 0
  jmpRelocs := 0
  numJmpRelocs := 0
  dynsym := 0
  symSize := 0
  numBuckets := 0
  numChains := 0
  buckets := 0
  chains := 0
  strtab := 0
  pltgot := 0

/-- `ElfModule::findDynamicSection`: the first segment of the type `PT_DYNAMIC`. It waits forever without. -/
def findDynamicSection (phdrs : List Phdr) (m : ElfModule) : Option ElfModule :=
  match phdrs.find? fun ph => ph.pType = 2 with
  | some dynSeg =>
    let m := { m with
      dynamic := m.moduleBaseVaddr + dynSeg.pVaddr
      numDynamic := dynSeg.pMemsz / 8 }
    if m.dynamic = 0 then none else some m
  | none => none

/-- The `switch` of `parseDynamicSegment`. -/
def parseDyn (mem : ByteMem) (m : ElfModule) (dyn : Dyn) : ElfModule :=
  let type := dyn.dTag
  let place := m.moduleBaseVaddr + dyn.dVal
  if type = 17 then { m with relocs := place }                       -- DT_REL
  else if type = 18 then { m with numRelocs := dyn.dVal / 8 }        -- DT_RELSZ
  else if type = 23 then { m with jmpRelocs := place }               -- DT_JMPREL
  else if type = 2 then { m with numJmpRelocs := dyn.dVal / 8 }      -- DT_PLTRELSZ
  else if type = 6 then { m with dynsym := place }                   -- DT_SYMTAB
  else if type = 11 then { m with symSize := dyn.dVal }              -- DT_SYMENT
  else if type = 5 then { m with strtab := place }                   -- DT_STRTAB
  else if type = 4 then                                              -- DT_HASH
    { m with
      numBuckets := mem.word place
      numChains := mem.word (place + 4)
      buckets := place + 8
      chains := place + 4 * (mem.word place + 2) }
  else if type = 3 then { m with pltgot := place }                   -- DT_PLTGOT
  else m

/-- `dynamic[0 .. num_dynamic)`. -/
def dyns (mem : ByteMem) (m : ElfModule) : List Dyn :=
  (List.range m.numDynamic.toNat).map fun i =>
    ⟨mem.word (m.dynamic + 8 * UInt32.ofNat i), mem.word (m.dynamic + 8 * UInt32.ofNat i + 4)⟩

/-- `ElfModule::parseDynamicSegment`. It waits forever when there are no symbols. -/
def parseDynamicSegment (mem : ByteMem) (m : ElfModule) : Option ElfModule :=
  if m.dynsym ≠ 0 then some m
  else if m.dynamic = 0 then some m
  else
    let m := (m.dyns mem).foldl (parseDyn mem) m
    if m.dynsym = 0 then none else some m

end ElfModule

/-! ## Relocations -/

/-- The loop of `adjustRelocations` from the entry at `reloc` on. -/
def adjustFrom (baseVaddr : UInt32) : Nat → UInt32 → ByteMem → ByteMem
  | 0, _, mem => mem
  | left + 1, reloc, mem =>
    let mem := mem.setWord reloc (mem.word reloc + baseVaddr)
    let valptr := mem.word reloc
    let mem := mem.setWord valptr (mem.word valptr + baseVaddr)
    adjustFrom baseVaddr left (reloc + 8) mem

/-- `adjustRelocations`. -/
def adjustRelocations (relocs : UInt32) (numRelocs : Int32) (baseVaddr : UInt32) (mem : ByteMem) : ByteMem :=
  if baseVaddr = 0 ∨ relocs = 0 then mem else adjustFrom baseVaddr numRelocs.toInt.toNat relocs mem

section

variable (disk : Disk) (behind : Nat → UInt8)

/-- `loadModule`, with the header that is read. There is room for 32 program headers in the module; a table of more
would be read over the fields behind them, which are kept apart here. -/
def loadModule (phdrsAddr : UInt32) (header : Ehdr) (alloc : Alloc) (s : FileState) :
    Option (ElfModule × FileState) := do
  guard (header.ePhnum ≤ 32)
  let read ← readPhdrs disk behind phdrsAddr header s
  let moduleBaseVaddr := (alloc (modulePages (phdrsIn read.mem phdrsAddr header))).getD 0
  let s ← parseSegments disk behind phdrsAddr header alloc s
  let m ← (ElfModule.initialized moduleBaseVaddr).findDynamicSection (phdrsIn s.mem phdrsAddr header)
  let m ← m.parseDynamicSegment s.mem
  let mem := adjustRelocations m.relocs m.numRelocs.toInt32 m.moduleBaseVaddr s.mem
  let mem := adjustRelocations m.jmpRelocs m.numJmpRelocs.toInt32 m.moduleBaseVaddr mem
  return (m, { s with mem := mem })

end

/-! ## The words that hold addresses -/

/-- The words that the entries of a table take up and name. -/
def relocWords (baseVaddr : UInt32) (mem : ByteMem) : Nat → UInt32 → List UInt32
  | 0, _ => []
  | left + 1, reloc =>
    reloc :: (mem.word reloc + baseVaddr) :: relocWords baseVaddr mem left (reloc + 8)

/-- The words that a table of relocations changes. -/
def tableWords (relocs numRelocs baseVaddr : UInt32) (mem : ByteMem) : List UInt32 :=
  if baseVaddr = 0 ∨ relocs = 0 then [] else relocWords baseVaddr mem numRelocs.toNat relocs

/-- All words of a module that hold an address of it. -/
def ElfModule.addresses (m : ElfModule) (mem : ByteMem) : List UInt32 :=
  tableWords m.relocs m.numRelocs m.moduleBaseVaddr mem ++
    tableWords m.jmpRelocs m.numJmpRelocs m.moduleBaseVaddr mem

section

variable {mem mem' : ByteMem} {reloc baseVaddr relocs numRelocs : UInt32} {n : Nat} {m m' : ElfModule}

/-- The words are read off the table. -/
theorem relocWords_congr (h : ∀ p ∈ relocWords baseVaddr mem n reloc, mem'.word p = mem.word p) :
    relocWords baseVaddr mem' n reloc = relocWords baseVaddr mem n reloc := by
  induction n generalizing reloc with
  | zero => rfl
  | succ n ih =>
    rw [relocWords, List.forall_mem_cons, List.forall_mem_cons] at h
    obtain ⟨hreloc, -, hrest⟩ := h
    rw [relocWords, relocWords, hreloc, ih hrest]

/-- **The loop adds the address to each word**, in this order, if they lie apart. -/
theorem adjustFrom_eq (h : (relocWords baseVaddr mem n reloc).Pairwise fun p q => Apart p 4 q 4) :
    adjustFrom baseVaddr n reloc mem = mem.mapWords (· + baseVaddr) (relocWords baseVaddr mem n reloc) := by
  induction n generalizing mem reloc with
  | zero => rfl
  | succ n ih =>
    rw [relocWords, List.pairwise_cons, List.pairwise_cons, List.forall_mem_cons] at h
    obtain ⟨⟨-, hreloc⟩, hval, hrest⟩ := h
    obtain ⟨mem₁, hmem₁⟩ : ∃ mem₁, mem.setWord reloc (mem.word reloc + baseVaddr) = mem₁ := ⟨_, rfl⟩
    have hptr : mem₁.word reloc = mem.word reloc + baseVaddr := by rw [← hmem₁, ByteMem.word_setWord]
    -- the entries behind are as they were
    have hsame : ∀ p ∈ relocWords baseVaddr mem n (reloc + 8),
        (mem₁.setWord (mem.word reloc + baseVaddr)
          (mem₁.word (mem.word reloc + baseVaddr) + baseVaddr)).word p = mem.word p := by
      intro p hp
      rw [ByteMem.word_setWord_of_apart (hval p hp), ← hmem₁, ByteMem.word_setWord_of_apart (hreloc p hp)]
    have hwords := relocWords_congr hsame
    rw [relocWords, ByteMem.mapWords_cons, ByteMem.mapWords_cons, adjustFrom, hmem₁, hptr, ih, hwords]
    rw [hwords]
    exact hrest

theorem adjustRelocations_eq (hnum : numRelocs.toNat < 2147483648)
    (h : (tableWords relocs numRelocs baseVaddr mem).Pairwise fun p q => Apart p 4 q 4) :
    adjustRelocations relocs numRelocs.toInt32 baseVaddr mem =
      mem.mapWords (· + baseVaddr) (tableWords relocs numRelocs baseVaddr mem) := by
  have hint : numRelocs.toInt32.toInt.toNat = numRelocs.toNat := by
    rw [CInt.toInt_toInt32, CInt.toInt_of_fits (Int.natCast_nonneg _) (by omega)]
    exact Int.toNat_natCast _
  rw [adjustRelocations, hint]
  rw [tableWords] at h ⊢
  split
  case isTrue => rfl
  case isFalse hne =>
    rw [if_neg hne] at h
    exact adjustFrom_eq h

theorem tableWords_congr (h : ∀ p ∈ tableWords relocs numRelocs baseVaddr mem, mem'.word p = mem.word p) :
    tableWords relocs numRelocs baseVaddr mem' = tableWords relocs numRelocs baseVaddr mem := by
  rw [tableWords, tableWords] at *
  split
  case isTrue => rfl
  case isFalse hne =>
    rw [if_neg hne] at h
    exact relocWords_congr h

/-! ## The tables -/

/-- A module at `base` whose tables have less than `2^29` entries, as they have 8 bytes each. -/
structure ElfModule.Counted (m : ElfModule) (base : UInt32) : Prop where
  base_eq : m.moduleBaseVaddr = base
  relocs_lt : m.numRelocs.toNat < 536870912
  jmpRelocs_lt : m.numJmpRelocs.toNat < 536870912

theorem div_eight_lt (w : UInt32) : (w / 8).toNat < 536870912 := by
  have hw := w.toNat_lt
  rw [UInt32.toNat_div]
  exact Nat.div_lt_of_lt_mul hw

namespace ElfModule.Counted

variable {base : UInt32}

theorem initialized (base : UInt32) : (ElfModule.initialized base).Counted base :=
  ⟨rfl, by show (0 : UInt32).toNat < _; decide, by show (0 : UInt32).toNat < _; decide⟩

theorem parseDyn (h : m.Counted base) (mem : ByteMem) (dyn : Dyn) : (m.parseDyn mem dyn).Counted base := by
  have hdiv := div_eight_lt dyn.dVal
  obtain ⟨hbase, hrel, hjmp⟩ := h
  rw [ElfModule.parseDyn]
  repeat' split
  all_goals first | exact ⟨hbase, hrel, hjmp⟩ | exact ⟨hbase, hdiv, hjmp⟩ | exact ⟨hbase, hrel, hdiv⟩

theorem parseDyns (h : m.Counted base) (mem : ByteMem) (dyns : List Dyn) :
    (dyns.foldl (ElfModule.parseDyn mem) m).Counted base := by
  induction dyns generalizing m with
  | nil => exact h
  | cons dyn dyns ih => exact ih (h.parseDyn mem dyn)

theorem findDynamicSection {phdrs : List Phdr} (h : m.Counted base)
    (hfind : m.findDynamicSection phdrs = some m') : m'.Counted base := by
  rw [ElfModule.findDynamicSection] at hfind
  split at hfind
  · dsimp only at hfind
    split at hfind
    · cases hfind
    · cases hfind
      exact ⟨h.base_eq, h.relocs_lt, h.jmpRelocs_lt⟩
  · cases hfind

theorem parseDynamicSegment (h : m.Counted base) (hparse : m.parseDynamicSegment mem = some m') :
    m'.Counted base := by
  have hdyns := h.parseDyns mem (m.dyns mem)
  rw [ElfModule.parseDynamicSegment] at hparse
  split at hparse
  · cases hparse
    exact h
  · split at hparse
    · cases hparse
      exact h
    · dsimp only at hparse
      split at hparse
      · cases hparse
      · cases hparse
        exact hdyns

end ElfModule.Counted

/-! ## Loading -/

/-- The memory with the address of the module added to each word that holds one. -/
def ElfModule.relocated (m : ElfModule) (mem : ByteMem) : ByteMem :=
  mem.mapWords (· + m.moduleBaseVaddr) (m.addresses mem)

/-- One table after the other. -/
theorem ElfModule.Counted.adjust {base : UInt32} (h : m.Counted base)
    (hapart : (m.addresses mem).Pairwise fun p q => Apart p 4 q 4) :
    adjustRelocations m.jmpRelocs m.numJmpRelocs.toInt32 m.moduleBaseVaddr
      (adjustRelocations m.relocs m.numRelocs.toInt32 m.moduleBaseVaddr mem) = m.relocated mem := by
  have hrel := h.relocs_lt
  have hjmp := h.jmpRelocs_lt
  rw [addresses, List.pairwise_append] at hapart
  obtain ⟨hfirst, hsecond, hboth⟩ := hapart
  rw [adjustRelocations_eq (by omega) hfirst]
  -- the second table is as it was
  have hwords : tableWords m.jmpRelocs m.numJmpRelocs m.moduleBaseVaddr
      (mem.mapWords (· + m.moduleBaseVaddr) (tableWords m.relocs m.numRelocs m.moduleBaseVaddr mem)) =
      tableWords m.jmpRelocs m.numJmpRelocs m.moduleBaseVaddr mem :=
    tableWords_congr fun p hp => ByteMem.word_mapWords_of_apart fun q hq => hboth q hq p hp
  rw [adjustRelocations_eq (by omega) (by rwa [hwords]), hwords, relocated, addresses, ByteMem.mapWords_append]

variable {disk : Disk} {behind : Nat → UInt8} {phdrsAddr : UInt32} {header : Ehdr} {alloc : Alloc}
  {s s' parsed : FileState}

/-- A module that is loaded is one whose segments are, and that is relocated then. -/
theorem loadModule_eq (hparse : parseSegments disk behind phdrsAddr header alloc s = some parsed)
    (hload : loadModule disk behind phdrsAddr header alloc s = some (m, s'))
    (hapart : (m.addresses parsed.mem).Pairwise fun p q => Apart p 4 q 4) :
    s'.mem = m.relocated parsed.mem := by
  rw [loadModule] at hload
  simp only [hparse, Option.bind_eq_bind, Option.bind_eq_some_iff, Option.pure_def, Option.some.injEq,
    Prod.mk.injEq] at hload
  obtain ⟨-, -, read, -, segments, rfl, found, hfound, m', hm', rfl, rfl⟩ := hload
  have hcounted := ElfModule.Counted.initialized ((alloc (modulePages (phdrsIn read.mem phdrsAddr header))).getD 0)
  exact ((hcounted.findDynamicSection hfound).parseDynamicSegment hm').adjust hapart

end

/-! ### A module with two tables -/

/-- A sector with two program headers at 52, a dynamic section at 128, a table of relocations at 176 with entries for
the words at 208 and 212, and one at 192 with an entry for the word at 216. -/
def twoTables : Nat → UInt8 := fun i =>
  [(52, 1), (69, 2), (73, 2), (84, 2), (92, 128), (104, 40), (128, 17), (132, 176), (136, 18), (140, 16), (144, 23),
    (148, 192), (152, 2), (156, 8), (160, 6), (164, 240), (176, 208), (180, 8), (184, 212), (188, 8), (192, 216),
    (196, 7), (208, 0x34), (209, 0x12), (212, 0x78), (216, 0xBC), (217, 0x9A)].lookup i |>.getD 0

/-- The file behind a header in sector 1. -/
def twoTablesFile : FileState where
  file := { headerSector := 1, currentSector := 2, cursor := 0, size := 512 }
  mem _ := 0

/-- What it is loaded as, at `0x10000000`. -/
def twoTablesModule : ElfModule where
  moduleBaseVaddr := 0x10000000
  dynamic := 0x10000080
  numDynamic := 5
  relocs := 0x100000B0
  numRelocs := 2
  jmpRelocs := 0x100000C0
  numJmpRelocs := 1
  dynsym := 0x100000F0
  symSize := 0
  numBuckets := 0
  numChains := 0
  buckets := 0
  chains := 0
  strtab := 0
  pltgot := 0

/-- The words at which its addresses are. -/
def twoTablesWords : List UInt32 :=
  [0x100000B0, 0x100000D0, 0x100000B8, 0x100000D4, 0x100000C0, 0x100000D8]

end Shipwreck.Storage
