import Shipwreck.Lib.Transition
import Shipwreck.Storage.Relocation
import Shipwreck.Storage.Symbols
import Mathlib.Data.List.Find

/-!
# Binding the calls of a program

A program calls a function of its library through a word of its own, the slot of the function. As long as the
slot is not bound, the call comes to `lookup_symbol_args` of `system/include/elfparser.h`, with the place of a
relocation on the stack. The relocation knows the slot and a symbol of the program, whose name is looked up in
the library; the address that is found is stored in the slot, and called:

    jmp_relocs[i]:  r_offset --> slot
                    r_info   --> dynsym[r_info >> 8] --> name --> sharedLibs[0].getFunctionPtr(name)

`lookups_bind` is about all runs of a linked program. The tables of the program and of the library are data like
any other; what the loader and the lookups store has to lie apart from them (`Linkage`).
-/

namespace Shipwreck.Storage

open ByteMem (Apart Keeps span)

/-! ## The lookup in memory -/

/-- A string of less than `fuel` characters. -/
def CString.read : Nat → Bytes → Option CString
  | 0, _ => none
  | fuel + 1, f =>
    if h : f 0 = 0 then some ⟨[], fun _ hc => absurd hc List.not_mem_nil⟩
    else (read fuel fun j => f (j + 1)).map fun s =>
      ⟨f 0 :: s.chars, List.forall_mem_cons.mpr ⟨h, s.nonzero⟩⟩

namespace ElfModule

variable (m : ElfModule) (mem : ByteMem)

/-- The tables of the module, as they are in memory. -/
def symbolTable : SymbolTable where
  numBuckets := m.numBuckets
  numChains := m.numChains
  buckets i := mem.word (m.buckets + 4 * i)
  chains i := mem.word (m.chains + 4 * i)
  dynsym i := mem.word (m.dynsym + 16 * i)
  strtab := mem.view m.strtab

/-- `st_value` of a symbol. -/
def stValue (i : UInt32) : UInt32 := mem.word (m.dynsym + 16 * i + 4)

/-- `ElfModule::getFunctionPtr`, with `getSymbol`; a symbol that is not found has the null pointer. -/
def getFunctionPtr (fuel : Nat) (name : CString) : Option UInt32 :=
  ((m.symbolTable mem).getSymbolIndex name fuel).map fun lookup =>
    if lookup.symIndex.toInt32 < 0 then 0 else m.moduleBaseVaddr + m.stValue mem lookup.symIndex

end ElfModule

/-- `lookup_symbol_args` with the module and the place of the relocation that are on the stack: the memory, and
the function that it returns to. It waits forever when there is no such relocation. -/
def lookupSymbolArgs (elfimg lib : ElfModule) (fuel : Nat) (arg1 : UInt32) (mem : ByteMem) :
    Option (ByteMem × UInt32) :=
  let symRelocIndex := arg1 / 8
  if elfimg.numJmpRelocs ≤ symRelocIndex then none
  else do
    let reloc := elfimg.jmpRelocs + 8 * symRelocIndex
    let symIndex := mem.word (reloc + 4) >>> 8
    let symbol := elfimg.dynsym + 16 * symIndex
    let symName ← CString.read fuel (mem.view (elfimg.strtab + mem.word symbol))
    let functionPtr ← lib.getFunctionPtr mem fuel symName
    return (mem.setWord (mem.word reloc) functionPtr, functionPtr)

/-! ## A linked program -/

/-- What happens in a program: a call that is not bound, and a byte that is stored. -/
inductive LinkStep where
  | lookup (arg1 : UInt32)
  | store (addr : UInt32) (b : UInt8)
  deriving DecidableEq, Repr

/-- The segments of a program and its library in memory, the sizes of their string tables, and the names of the
functions that the program calls. -/
structure Imports where
  exe : ElfModule
  lib : ElfModule
  image : ByteMem
  exeStrsz : Nat
  libStrsz : Nat
  name : UInt32 → CString

/-- All names of a module end inside of its string table. -/
def ElfModule.NamesEnd (m : ElfModule) (mem : ByteMem) (strsz : Nat) : Prop :=
  ∀ k, k < m.numChains → ∀ s, (m.symbolTable mem).HasName s k →
    ((m.symbolTable mem).dynsym k).toNat + s.chars.length < strsz

namespace Imports

variable (I : Imports)

/-- The relocation of function `i`. -/
def reloc (i : UInt32) : UInt32 := I.exe.jmpRelocs + 8 * i

/-- The slot of function `i`. -/
def slot (i : UInt32) : UInt32 := I.image.word (I.reloc i)

/-- The symbol of function `i`. -/
def symIndex (i : UInt32) : UInt32 := I.image.word (I.reloc i + 4) >>> 8

/-- The tables that a lookup reads. -/
def tables : List (UInt32 × Nat) :=
  [(I.exe.jmpRelocs, 8 * I.exe.numJmpRelocs.toNat), (I.exe.dynsym, 16 * I.exe.numChains.toNat),
    (I.exe.strtab, I.exeStrsz), (I.lib.buckets, 4 * I.lib.numBuckets.toNat),
    (I.lib.chains, 4 * I.lib.numChains.toNat), (I.lib.dynsym, 16 * I.lib.numChains.toNat),
    (I.lib.strtab, I.libStrsz)]

theorem mem_jmpRelocs : (I.exe.jmpRelocs, 8 * I.exe.numJmpRelocs.toNat) ∈ I.tables := by simp [tables]

theorem mem_exeDynsym : (I.exe.dynsym, 16 * I.exe.numChains.toNat) ∈ I.tables := by simp [tables]

theorem mem_exeStrtab : (I.exe.strtab, I.exeStrsz) ∈ I.tables := by simp [tables]

theorem mem_buckets : (I.lib.buckets, 4 * I.lib.numBuckets.toNat) ∈ I.tables := by simp [tables]

theorem mem_chains : (I.lib.chains, 4 * I.lib.numChains.toNat) ∈ I.tables := by simp [tables]

theorem mem_dynsym : (I.lib.dynsym, 16 * I.lib.numChains.toNat) ∈ I.tables := by simp [tables]

theorem mem_strtab : (I.lib.strtab, I.libStrsz) ∈ I.tables := by simp [tables]

/-- The library is relocated, and the module and the address of `lookup_symbol_args` are stored in the table of
the slots: the end of `elf_exec`. -/
def start (executable lookup : UInt32) : ByteMem :=
  ((I.lib.relocated I.image).setWord (I.exe.pltgot + 4) executable).setWord (I.exe.pltgot + 8) lookup

/-- The program. -/
def program (fuel : Nat) : Machine ByteMem LinkStep where
  init mem := ∃ executable lookup, mem = I.start executable lookup
  step mem
    | .lookup arg1 => (lookupSymbolArgs I.exe I.lib fuel arg1 mem).map Prod.fst
    | .store addr b => some (Function.update mem addr b)

end Imports

/-- A program and its library whose tables are in order, and lie apart from the words that are stored to. -/
structure Linkage extends Imports where
  named : ∀ i, i < exe.numJmpRelocs → toImports.symIndex i < exe.numChains ∧
    (exe.symbolTable image).HasName (name i) (toImports.symIndex i)
  short : ∀ i, i < exe.numJmpRelocs → (name i).chars.length < 64
  exeNames : exe.NamesEnd image exeStrsz
  libTable : (lib.symbolTable image).WellFormed
  libNames : lib.NamesEnd image libStrsz
  libFits : 16 * lib.numChains.toNat ≤ 4294967296
  addressesApart : ∀ p ∈ lib.addresses image, ∀ t ∈ toImports.tables, Apart p 4 t.1 t.2
  gotApart : ∀ t ∈ toImports.tables, Apart (exe.pltgot + 4) 4 t.1 t.2 ∧ Apart (exe.pltgot + 8) 4 t.1 t.2
  slotApart : ∀ i, i < exe.numJmpRelocs → ∀ t ∈ toImports.tables, Apart (toImports.slot i) 4 t.1 t.2
  slotsApart : ∀ i j, i < exe.numJmpRelocs → j < exe.numJmpRelocs → i ≠ j →
    Apart (toImports.slot i) 4 (toImports.slot j) 4

/-! ## What a lookup depends on -/

/-- No string is the beginning of another one. -/
theorem SymbolTable.HasName.unique {t : SymbolTable} {s s' : CString} {i : UInt32} (h : t.HasName s i)
    (h' : t.HasName s' i) : s = s' := by
  have hle {s s' : CString} (h : t.HasName s i) (h' : t.HasName s' i) : s.chars.length ≤ s'.chars.length := by
    by_contra hlt
    rw [Nat.not_le] at hlt
    -- the NUL of the shorter one is a character of the longer one
    have hend : s.bytes s'.chars.length = 0 := by
      rw [← h _ (Nat.le_of_lt hlt), h' _ (Nat.le_refl _), CString.bytes, List.getD_eq_default _ _ (Nat.le_refl _)]
    rw [CString.bytes, List.getD_eq_getElem _ _ hlt] at hend
    exact s.nonzero _ (List.getElem_mem hlt) hend
  have hlen := Nat.le_antisymm (hle h h') (hle h' h)
  have hchars : s.chars = s'.chars := by
    apply List.ext_getElem hlen
    intro j hj hj'
    have hbyte := (h j (Nat.le_of_lt hj)).symm.trans (h' j (Nat.le_of_lt hj'))
    rwa [CString.bytes, CString.bytes, List.getD_eq_getElem _ _ hj, List.getD_eq_getElem _ _ hj'] at hbyte
  cases s
  cases s'
  cases hchars
  rfl

theorem CString.read_eq {s : CString} {f : Bytes} {fuel : Nat} (h : ∀ j, j ≤ s.chars.length → f j = s.bytes j)
    (hfuel : s.chars.length < fuel) : CString.read fuel f = some s := by
  obtain ⟨chars, hchars⟩ := s
  induction chars generalizing f fuel with
  | nil =>
    obtain ⟨fuel, rfl⟩ := Nat.exists_eq_add_one_of_ne_zero (Nat.ne_of_gt (Nat.zero_lt_of_lt hfuel))
    have hzero : f 0 = 0 := h 0 (Nat.le_refl 0)
    rw [CString.read, dif_pos hzero]
  | cons c chars ih =>
    obtain ⟨fuel, rfl⟩ := Nat.exists_eq_add_one_of_ne_zero (Nat.ne_of_gt (Nat.zero_lt_of_lt hfuel))
    have hfirst : f 0 = c := h 0 (Nat.zero_le _)
    have hne : f 0 ≠ 0 := hfirst ▸ hchars c List.mem_cons_self
    have hbehind : ∀ d ∈ chars, d ≠ 0 := fun d hd => hchars d (List.mem_cons_of_mem c hd)
    have hrest : CString.read fuel (fun j => f (j + 1)) = some ⟨chars, hbehind⟩ :=
      ih hbehind (fun j hj => h (j + 1) (Nat.succ_le_succ hj)) (Nat.lt_of_succ_lt_succ hfuel)
    rw [CString.read, dif_neg hne, hrest]
    subst hfirst
    rfl

/-- Two tables that a lookup does not tell apart. -/
structure SymbolTable.Same (t t' : SymbolTable) : Prop where
  numBuckets : t'.numBuckets = t.numBuckets
  numChains : t'.numChains = t.numChains
  buckets : ∀ b, b < t.numBuckets → t'.buckets b = t.buckets b
  chains : ∀ k, k < t.numChains → t'.chains k = t.chains k
  names : ∀ k, k < t.numChains → ∀ s, t'.HasName s k ↔ t.HasName s k

/-- The answer for a name: a symbol that has it, or -1. -/
structure SymbolTable.Finds (t : SymbolTable) (name : CString) (index : UInt32) : Prop where
  found : index ≠ 0xFFFFFFFF → index < t.numChains ∧ t.HasName name index
  missing : index = 0xFFFFFFFF → ¬ ∃ k, k ≠ 0 ∧ k < t.numChains ∧ t.HasName name k

/-- **A short name has the same answer in all tables that are not told apart.** -/
theorem SymbolTable.WellFormed.same_answer {t : SymbolTable} (h : t.WellFormed) {name : CString}
    (hshort : name.chars.length < 64) (hlast : ¬ (0xFFFFFFFF : UInt32) < t.numChains) :
    ∃ index, t.Finds name index ∧ ∀ t', t.Same t' → ∀ fuel, t.numChains.toNat < fuel →
      (t'.getSymbolIndex name fuel).map SymbolLookup.symIndex = some index := by
  obtain ⟨rest, hrest, hlt, hnamed⟩ := h.looked_at name
  refine ⟨((t.first name :: rest).find? (t.Agrees name)).getD 0xFFFFFFFF, ⟨?_, ?_⟩, ?_⟩
  · intro hne
    cases hfind : (t.first name :: rest).find? (t.Agrees name) with
    | none =>
      rw [hfind] at hne
      exact absurd rfl hne
    | some i =>
      have hkeepss := List.find?_some hfind
      exact ⟨hlt i (List.mem_of_find?_eq_some hfind), (agrees_iff hshort).mp (of_decide_eq_true hkeepss)⟩
  · intro hnone
    cases hfind : (t.first name :: rest).find? (t.Agrees name) with
    | none =>
      rintro ⟨k, hk, hkt, hname⟩
      exact List.find?_eq_none.mp hfind k (hnamed k hk hkt hname) (decide_eq_true hname.agrees)
    | some i =>
      rw [hfind] at hnone
      have hi : i = 0xFFFFFFFF := hnone
      exact absurd (hi ▸ hlt i (List.mem_of_find?_eq_some hfind)) hlast
  · intro t' hsame fuel hfuel
    have hpos := UInt32.mod_lt (elfHash name) h.numBuckets_pos
    have hfirst : t'.first name = t.first name := by
      rw [SymbolTable.first, SymbolTable.first, hsame.numBuckets, hsame.buckets _ hpos]
    have hlink {k : UInt32} (hk : k < t.numChains) : t'.link k = t.link k := by
      rw [SymbolTable.link, SymbolTable.link, hsame.chains k hk]
    rw [List.forall_mem_cons] at hlt
    have hchain : Chain t'.link (t'.link (t'.first name)) rest := by
      rw [hfirst, hlink hlt.1]
      exact hrest.congr fun k hk => hlink (hlt.2 k hk)
    -- the chain has no symbol twice
    have hlen : rest.length < fuel := by
      have hnodup : (rest.map UInt32.toNat).Nodup := hrest.nodup.map fun _ _ => UInt32.toNat.inj
      have hsub : rest.map UInt32.toNat ⊆ List.range t.numChains.toNat := by
        intro n hn
        obtain ⟨k, hk, rfl⟩ := List.mem_map.mp hn
        exact List.mem_range.mpr (hlt.2 k hk)
      have hle := (List.subperm_of_subset hnodup hsub).length_le
      rw [List.length_map, List.length_range] at hle
      omega
    have hbuckets : t'.numBuckets ≠ 0 := by
      rw [hsame.numBuckets]
      intro hzero
      have hpos := h.numBuckets_pos
      rw [hzero] at hpos
      exact UInt32.lt_irrefl 0 hpos
    have hget : t'.getSymbolIndex name fuel = t'.lookupFrom name fuel (t'.first name) := if_neg hbuckets
    rw [hget, lookup_of_chain hchain hlen, hfirst]
    congr 2
    apply List.find?_congr
    intro k hk
    rw [decide_eq_decide, agrees_iff hshort, agrees_iff hshort]
    have hlooked : ∀ k ∈ t.first name :: rest, k < t.numChains := List.forall_mem_cons.mpr hlt
    exact hsame.names k (hlooked k hk) name

/-! ## Memories that agree on the tables -/

section

variable {m : ElfModule} {mem mem' : ByteMem} {tables : List (UInt32 × Nat)} {strsz : Nat}

theorem toNat_mul_add_le {k n : UInt32} (c d : UInt32) (hd : d.toNat + 4 ≤ c.toNat) (hk : k < n) :
    (c * k + d).toNat + 4 ≤ c.toNat * n.toNat := by
  have hk' : k.toNat + 1 ≤ n.toNat := hk
  have hmul : c.toNat * (k.toNat + 1) ≤ c.toNat * n.toNat := Nat.mul_le_mul_left _ hk'
  have hle : (c * k + d).toNat ≤ c.toNat * k.toNat + d.toNat := by
    rw [UInt32.toNat_add, UInt32.toNat_mul]
    refine Nat.le_trans (Nat.mod_le _ _) ?_
    exact Nat.add_le_add_right (Nat.mod_le _ _) _
  rw [Nat.mul_add, Nat.mul_one] at hmul
  omega

/-- The names of the symbols stay. -/
theorem ElfModule.hasName_of_keeps (h : Keeps tables mem mem')
    (hsym : (m.dynsym, 16 * m.numChains.toNat) ∈ tables) (hstr : (m.strtab, strsz) ∈ tables)
    (hends : m.NamesEnd mem strsz) {k : UInt32} (hk : k < m.numChains) {s : CString}
    (hs : (m.symbolTable mem).HasName s k) : (m.symbolTable mem').HasName s k := by
  have hname : (m.symbolTable mem').dynsym k = (m.symbolTable mem).dynsym k := by
    have hin := toNat_mul_add_le 16 0 (by decide) hk
    rw [UInt32.add_zero] at hin
    exact h.word hsym hin
  intro j hj
  rw [← hs j hj, SymbolTable.symName, SymbolTable.symName, hname]
  have hend := hends k hk s hs
  exact h.view hstr (by omega)

/-- The tables of a module are not told apart. -/
theorem ElfModule.same_of_keeps (h : Keeps tables mem mem')
    (hbuckets : (m.buckets, 4 * m.numBuckets.toNat) ∈ tables) (hchains : (m.chains, 4 * m.numChains.toNat) ∈ tables)
    (hsym : (m.dynsym, 16 * m.numChains.toNat) ∈ tables) (hstr : (m.strtab, strsz) ∈ tables)
    (hends : m.NamesEnd mem strsz) (htable : (m.symbolTable mem).WellFormed) :
    (m.symbolTable mem).Same (m.symbolTable mem') := by
  refine ⟨rfl, rfl, ?_, ?_, ?_⟩
  · intro b hb
    have hin := toNat_mul_add_le 4 0 (by decide) hb
    rw [UInt32.add_zero] at hin
    exact h.word hbuckets hin
  · intro k hk
    have hin := toNat_mul_add_le 4 0 (by decide) hk
    rw [UInt32.add_zero] at hin
    exact h.word hchains hin
  · intro k hk s
    obtain ⟨s₀, hs₀⟩ := htable.named k hk
    have hs₀' := ElfModule.hasName_of_keeps h hsym hstr hends hk hs₀
    constructor
    · intro hs
      rwa [hs.unique hs₀']
    · intro hs
      exact ElfModule.hasName_of_keeps h hsym hstr hends hk hs

end

namespace Linkage

variable {L : Linkage} {mem mem' : ByteMem} {fuel : Nat} {i arg1 executable lookup : UInt32}

/-- The function of a name: that of a symbol of the library, as it is in the file, or none. -/
def Resolves (L : Linkage) (name : CString) (f : UInt32) : Prop :=
  (∃ k, k < L.lib.numChains ∧ (L.lib.symbolTable L.image).HasName name k ∧
      f = L.lib.moduleBaseVaddr + L.lib.stValue L.image k) ∨
    ((¬ ∃ k, k ≠ 0 ∧ k < L.lib.numChains ∧ (L.lib.symbolTable L.image).HasName name k) ∧ f = 0)

/-- The function that function `i` is bound to. -/
def target (L : Linkage) (i : UInt32) : UInt32 :=
  (L.lib.getFunctionPtr L.image (L.lib.numChains.toNat + 1) (L.name i)).getD 0

/-- An index of a symbol is not negative. -/
theorem toInt32_nonneg (hi : i < L.lib.numChains) : ¬ i.toInt32 < 0 := by
  have hfits := L.libFits
  have hlt : i.toNat < L.lib.numChains.toNat := hi
  rw [Int32.lt_iff_toInt_lt, CInt.toInt_toInt32, CInt.toInt_of_fits (by omega) (by omega)]
  exact Int.not_lt.mpr (Int.natCast_nonneg _)

/-- **Every lookup of a name finds the same function**, in all memories with these tables. -/
theorem getFunctionPtr_eq (L : Linkage) {name : CString} (hshort : name.chars.length < 64) :
    ∃ f, L.Resolves name f ∧ ∀ mem, Keeps L.tables L.image mem → ∀ fuel, L.lib.numChains.toNat < fuel →
      L.lib.getFunctionPtr mem fuel name = some f := by
  have hfits := L.libFits
  have hlast : ¬ (0xFFFFFFFF : UInt32) < (L.lib.symbolTable L.image).numChains := by
    intro hlt
    have hlt' : 4294967295 < L.lib.numChains.toNat := hlt
    omega
  obtain ⟨index, hfinds, hsame⟩ := L.libTable.same_answer hshort hlast
  have hptr (mem : ByteMem) (hkeeps : Keeps L.tables L.image mem) (fuel : Nat) (hfuel : L.lib.numChains.toNat < fuel) :
      L.lib.getFunctionPtr mem fuel name =
        some (if index.toInt32 < 0 then 0 else L.lib.moduleBaseVaddr + L.lib.stValue mem index) := by
    have hlookup := hsame _ (ElfModule.same_of_keeps hkeeps L.mem_buckets L.mem_chains L.mem_dynsym L.mem_strtab
      L.libNames L.libTable) fuel hfuel
    obtain ⟨found, hfound, rfl⟩ := Option.map_eq_some_iff.mp hlookup
    rw [ElfModule.getFunctionPtr, hfound]
    rfl
  by_cases hindex : index = 0xFFFFFFFF
  · refine ⟨0, Or.inr ⟨hfinds.missing hindex, rfl⟩, ?_⟩
    intro mem hkeeps fuel hfuel
    rw [hptr mem hkeeps fuel hfuel, hindex]
    rfl
  · obtain ⟨hlt, hname⟩ := hfinds.found hindex
    refine ⟨L.lib.moduleBaseVaddr + L.lib.stValue L.image index, Or.inl ⟨index, hlt, hname, rfl⟩, ?_⟩
    intro mem hkeeps fuel hfuel
    have hvalue : L.lib.stValue mem index = L.lib.stValue L.image index := by
      rw [ElfModule.stValue, ElfModule.stValue, UInt32.add_assoc]
      exact hkeeps.word L.mem_dynsym (toNat_mul_add_le 16 4 (by decide) hlt)
    rw [hptr mem hkeeps fuel hfuel, if_neg (toInt32_nonneg hlt), hvalue]

/-- The function of a slot has the name that the program calls. -/
theorem target_eq (hi : i < L.exe.numJmpRelocs) :
    L.Resolves (L.name i) (L.target i) ∧ ∀ mem, Keeps L.tables L.image mem → ∀ fuel, L.lib.numChains.toNat < fuel →
      L.lib.getFunctionPtr mem fuel (L.name i) = some (L.target i) := by
  obtain ⟨f, hf, hptr⟩ := L.getFunctionPtr_eq (L.short i hi)
  have htarget : L.target i = f := by
    rw [target, hptr _ (Keeps.refl _ _) _ (Nat.lt_succ_self _)]
    rfl
  rw [htarget]
  exact ⟨hf, hptr⟩

/-- **One lookup**, in a memory with these tables: the function is stored in the slot, and called. -/
theorem lookup_eq (hkeeps : Keeps L.tables L.image mem) (hi : arg1 / 8 < L.exe.numJmpRelocs)
    (hfuel : L.lib.numChains.toNat < fuel) (hnames : 64 ≤ fuel) :
    lookupSymbolArgs L.exe L.lib fuel arg1 mem =
      some (mem.setWord (L.slot (arg1 / 8)) (L.target (arg1 / 8)), L.target (arg1 / 8)) := by
  obtain ⟨hsym, hname⟩ := L.named _ hi
  have hslot : mem.word (L.exe.jmpRelocs + 8 * (arg1 / 8)) = L.slot (arg1 / 8) := by
    have hin := toNat_mul_add_le 8 0 (by decide) hi
    rw [UInt32.add_zero] at hin
    exact hkeeps.word L.mem_jmpRelocs hin
  have hinfo : mem.word (L.exe.jmpRelocs + 8 * (arg1 / 8) + 4) >>> 8 = L.symIndex (arg1 / 8) := by
    rw [Imports.symIndex, Imports.reloc, UInt32.add_assoc,
      hkeeps.word L.mem_jmpRelocs (toNat_mul_add_le 8 4 (by decide) hi)]
  have hread : CString.read fuel (mem.view (L.exe.strtab + mem.word (L.exe.dynsym + 16 * L.symIndex (arg1 / 8)))) =
      some (L.name (arg1 / 8)) := by
    apply CString.read_eq _ (Nat.lt_of_lt_of_le (L.short _ hi) hnames)
    intro j hj
    rw [← ElfModule.hasName_of_keeps hkeeps L.mem_exeDynsym L.mem_exeStrtab L.exeNames hsym hname j hj,
      ← UInt32.ofNat_toNat (x := mem.word _), ByteMem.view_add]
    rfl
  rw [lookupSymbolArgs, if_neg (UInt32.not_le.mpr hi)]
  simp only [hinfo, hread, hslot, Option.bind_eq_bind, Option.bind_some, (target_eq hi).2 mem hkeeps fuel hfuel,
    Option.pure_def]

/-! ## Runs -/

/-- The relocations are those of the program, and the program stores outside of the tables and the slots. -/
def Allowed (L : Linkage) : LinkStep → Prop
  | .lookup arg1 => arg1 / 8 < L.exe.numJmpRelocs
  | .store addr _ => (∀ t ∈ L.tables, addr ∉ span t.1 t.2) ∧
      ∀ i, i < L.exe.numJmpRelocs → addr ∉ span (L.slot i) 4

/-- Function `i` is looked up. -/
def Binds (i : UInt32) : LinkStep → Prop
  | .lookup arg1 => arg1 / 8 = i
  | .store _ _ => False

/-- The tables are as in the files, the slots of `bound` are bound, and the others hold what they held before. -/
structure Bound (L : Linkage) (before : ByteMem) (bound : UInt32 → Prop) (mem : ByteMem) : Prop where
  keeps : Keeps L.tables L.image mem
  taken : ∀ i, i < L.exe.numJmpRelocs → bound i → mem.word (L.slot i) = L.target i
  free : ∀ i, i < L.exe.numJmpRelocs → ¬ bound i → mem.word (L.slot i) = before.word (L.slot i)

/-- The state at the start is what `loadModule` leaves of the segments, with the two words of the program. -/
theorem start_of_load {disk : Disk} {behind : Nat → UInt8} {phdrsAddr : UInt32} {header : Ehdr} {alloc : Alloc}
    {s s' parsed : FileState} (hparse : parseSegments disk behind phdrsAddr header alloc s = some parsed)
    (hload : loadModule disk behind phdrsAddr header alloc s = some (L.lib, s')) (himage : parsed.mem = L.image)
    (hapart : (L.lib.addresses L.image).Pairwise fun p q => Apart p 4 q 4) :
    L.start executable lookup =
      (s'.mem.setWord (L.exe.pltgot + 4) executable).setWord (L.exe.pltgot + 8) lookup := by
  rw [Imports.start, loadModule_eq hparse hload (himage ▸ hapart), himage]

theorem keeps_start (L : Linkage) (executable lookup : UInt32) :
    Keeps L.tables L.image (L.start executable lookup) := by
  have hrelocated : Keeps L.tables L.image (L.lib.relocated L.image) := ByteMem.keeps_mapWords L.addressesApart
  have hmodule : Keeps L.tables (L.lib.relocated L.image)
      ((L.lib.relocated L.image).setWord (L.exe.pltgot + 4) executable) :=
    ByteMem.keeps_setWord fun t ht => (L.gotApart t ht).1
  exact (hrelocated.trans hmodule).trans (ByteMem.keeps_setWord fun t ht => (L.gotApart t ht).2)

/-- A step binds the slot of the function that is looked up, and no other one. -/
theorem bound_step {before : ByteMem} {bound : UInt32 → Prop} (h : L.Bound before bound mem) {a : LinkStep}
    (ha : L.Allowed a) (hfuel : L.lib.numChains.toNat < fuel) (hnames : 64 ≤ fuel) :
    ∃ mem', (L.program fuel).step mem a = some mem' ∧ L.Bound before (fun i => bound i ∨ Binds i a) mem' := by
  cases a with
  | lookup arg1 =>
    refine ⟨mem.setWord (L.slot (arg1 / 8)) (L.target (arg1 / 8)), ?_, ?_, ?_, ?_⟩
    · show (lookupSymbolArgs L.exe L.lib fuel arg1 mem).map Prod.fst = _
      rw [lookup_eq h.keeps ha hfuel hnames]
      rfl
    · exact h.keeps.trans (ByteMem.keeps_setWord (L.slotApart _ ha))
    · intro i hi hbound
      by_cases hone : arg1 / 8 = i
      · rw [hone, ByteMem.word_setWord]
      · rw [ByteMem.word_setWord_of_apart (L.slotsApart _ _ ha hi hone)]
        exact h.taken i hi (hbound.resolve_right hone)
    · intro i hi hfree
      rw [not_or] at hfree
      rw [ByteMem.word_setWord_of_apart (L.slotsApart _ _ ha hi hfree.2)]
      exact h.free i hi hfree.1
  | store addr b =>
    obtain ⟨htables, hslots⟩ := ha
    have hother {a : UInt32} (hne : a ≠ addr) : Function.update mem addr b a = mem a :=
      Function.update_of_ne hne _ _
    have hslot (i : UInt32) (hi : i < L.exe.numJmpRelocs) :
        ByteMem.word (Function.update mem addr b) (L.slot i) = mem.word (L.slot i) :=
      ByteMem.word_congr fun a ha => hother fun heq => hslots i hi (heq ▸ ha)
    refine ⟨Function.update mem addr b, rfl, ?_, ?_, ?_⟩
    · exact h.keeps.trans fun t ht a ha => hother fun heq => htables t ht (heq ▸ ha)
    · intro i hi hbound
      rw [hslot i hi]
      exact h.taken i hi (hbound.resolve_right id)
    · intro i hi hfree
      rw [hslot i hi]
      exact h.free i hi fun hb => hfree (Or.inl hb)

/-- From one state on to the end of a run. -/
theorem bound_run {before : ByteMem} {bound : UInt32 → Prop} (h : L.Bound before bound mem) {as : List LinkStep}
    (hallowed : ∀ a ∈ as, L.Allowed a) (hfuel : L.lib.numChains.toNat < fuel) (hnames : 64 ≤ fuel) :
    ∃ mem', (L.program fuel).exec mem as = some mem' ∧
      L.Bound before (fun i => bound i ∨ ∃ a ∈ as, Binds i a) mem' := by
  induction as generalizing mem bound with
  | nil => exact ⟨mem, rfl, by simpa using h⟩
  | cons a as ih =>
    rw [List.forall_mem_cons] at hallowed
    obtain ⟨mem₁, hstep, hbound⟩ := bound_step h hallowed.1 hfuel hnames
    obtain ⟨mem', hrun, hbound'⟩ := ih hbound hallowed.2
    refine ⟨mem', ?_, ?_⟩
    · rw [Machine.exec_cons, hstep]
      exact hrun
    · simpa only [List.mem_cons, exists_eq_or_imp, or_assoc] using hbound'

end Linkage

/-- The words of the program at `0x1000` and of the library at `0x10000000`: one relocation each, the names of two
symbols, and the hash table of the library. -/
def oneCallImage : ByteMem := fun a =>
  [((0x1001 : UInt32), (0x30 : UInt8)), (0x1004, 7), (0x1005, 1), (0x1110, 1), (0x1201, 102), (0x10001000, 1),
    (0x10001110, 1), (0x10001115, 5), (0x10001201, 102), (0x10001301, 4), (0x10001304, 8)].lookup a |>.getD 0

/-- The names of the two symbols: none, and `f`. -/
def oneCallName (k : UInt32) : CString :=
  if k = 0 then ⟨[], fun _ hc => absurd hc List.not_mem_nil⟩ else ⟨[102], List.forall_mem_singleton.mpr (by decide)⟩

def oneCall : Imports where
  exe := { ElfModule.initialized 0 with
    jmpRelocs := 0x1000, numJmpRelocs := 1, dynsym := 0x1100, numChains := 2, strtab := 0x1200, pltgot := 0x3100 }
  lib := { ElfModule.initialized 0x10000000 with
    relocs := 0x10001300, numRelocs := 1, dynsym := 0x10001100, numBuckets := 1, numChains := 2
    buckets := 0x10001000, chains := 0x10001010, strtab := 0x10001200 }
  image := oneCallImage
  exeStrsz := 3
  libStrsz := 3
  name _ := oneCallName 1

namespace oneCall

theorem index_cases {m : ElfModule} (hm : m.numChains = 2) {k : UInt32} (hk : k < m.numChains) : k = 0 ∨ k = 1 := by
  rw [hm] at hk
  have hlt : k.toNat < 2 := hk
  rcases Nat.lt_succ_iff_lt_or_eq.mp hlt with hzero | hone
  · exact .inl (UInt32.toNat.inj (Nat.lt_one_iff.mp hzero))
  · exact .inr (UInt32.toNat.inj hone)

theorem only_import {i : UInt32} (hi : i < oneCall.exe.numJmpRelocs) : i = 0 :=
  UInt32.toNat.inj (Nat.lt_one_iff.mp hi)

instance (t : SymbolTable) (name : CString) (i : UInt32) : Decidable (t.HasName name i) :=
  inferInstanceAs (Decidable (∀ j, j ≤ name.chars.length → t.symName i j = name.bytes j))

theorem hasName {m : ElfModule} (hm : m = oneCall.exe ∨ m = oneCall.lib) {k : UInt32} (hk : k < m.numChains) :
    (m.symbolTable oneCall.image).HasName (oneCallName k) k := by
  rcases hm with rfl | rfl
  · rcases index_cases rfl hk with rfl | rfl
    · decide +kernel
    · decide +kernel
  · rcases index_cases rfl hk with rfl | rfl
    · decide +kernel
    · decide +kernel

theorem namesEnd {m : ElfModule} (hm : m = oneCall.exe ∨ m = oneCall.lib) : m.NamesEnd oneCall.image 3 := by
  intro k hk s hs
  rw [hs.unique (hasName hm hk)]
  rcases hm with rfl | rfl
  · rcases index_cases rfl hk with rfl | rfl
    · decide +kernel
    · decide +kernel
  · rcases index_cases rfl hk with rfl | rfl
    · decide +kernel
    · decide +kernel

theorem wellFormed : (oneCall.lib.symbolTable oneCall.image).WellFormed where
  numBuckets_pos := by decide
  named k hk := ⟨oneCallName k, hasName (Or.inr rfl) hk⟩
  chain := by
    intro b hb
    obtain rfl : b = 0 := UInt32.toNat.inj (Nat.lt_one_iff.mp hb)
    have hhead : (oneCall.lib.symbolTable oneCall.image).buckets 0 = 1 := by decide +kernel
    have hnext : (oneCall.lib.symbolTable oneCall.image).chains 1 = 0 := by decide +kernel
    refine ⟨[1], ?_, ?_⟩
    · rw [hhead, Chain.cons_iff, Chain.nil_iff, SymbolTable.link, hnext]
      exact ⟨rfl, rfl⟩
    · intro i
      rw [List.mem_singleton]
      constructor
      · rintro rfl
        exact ⟨by decide, by decide, oneCallName 1, hasName (Or.inr rfl) (by decide), UInt32.mod_one⟩
      · rintro ⟨hne, hlt, -⟩
        exact (index_cases rfl hlt).resolve_left hne
  chains_zero := by decide +kernel

theorem addresses : oneCall.lib.addresses oneCall.image = [0x10001300, 0x10000400] := by decide +kernel

/-- The program with its library. -/
def linkage : Linkage where
  toImports := oneCall
  named := by
    intro i hi
    obtain rfl := only_import hi
    have hsym : oneCall.symIndex 0 = 1 := by decide +kernel
    rw [hsym]
    exact ⟨by decide, hasName (Or.inl rfl) (by decide)⟩
  short i _ := by
    show (oneCallName 1).chars.length < 64
    decide
  exeNames := namesEnd (Or.inl rfl)
  libTable := wellFormed
  libNames := namesEnd (Or.inr rfl)
  libFits := by decide
  addressesApart := by
    rw [addresses, List.forall_mem_cons, List.forall_mem_singleton]
    decide +kernel
  gotApart := by decide +kernel
  slotApart := by
    intro i hi
    obtain rfl := only_import hi
    decide +kernel
  slotsApart i j hi hj hne := absurd ((only_import hi).trans (only_import hj).symm) hne

end oneCall

end Shipwreck.Storage
