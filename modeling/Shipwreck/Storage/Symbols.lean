import Shipwreck.Lib.Chain
import Shipwreck.Lib.Walk
import Shipwreck.Storage.Archive
import Mathlib.Data.List.GetD
import Mathlib.Data.List.Perm.Subperm
import Mathlib.Logic.Relation

/-!
# Looking up a symbol

`ElfModule::getSymbolIndex` of `system/include/elfparser.h`. The hash of a name selects a bucket, the bucket
holds the first symbol of a chain, and `chains` leads from each symbol to the next one:

    buckets[hash % num_buckets] ---> i ---> chains[i] ---> ... ---> 0

A symbol is taken when its name agrees with the one that is looked for over the first 64 bytes
(`symbol_lookup_exact_iff`). The tables are those of the file: nothing is checked but the 0 at the end of the
chain (`symbol_lookup_safe_iff`). The loop looks at a symbol before it looks for the end, so that an empty
bucket makes it look at symbol 0 and go on from there.
-/

namespace Shipwreck.Storage

/-! ## `elf_Hash` -/

/-- A string without its NUL. -/
structure CString where
  chars : List UInt8
  nonzero : ∀ c ∈ chars, c ≠ 0

/-- The string in memory. -/
def CString.bytes (s : CString) : Bytes := fun j => s.chars.getD j 0

/-- One turn of the loop of `elf_Hash`. -/
def hashChar (h : UInt32) (c : UInt8) : UInt32 :=
  let h := (h <<< 4) + c.toUInt32
  let g := h &&& 0xf0000000
  let h := if g ≠ 0 then h ^^^ (g >>> 24) else h
  h &&& ~~~g

/-- `elf_Hash`. -/
def elfHash (name : CString) : UInt32 := name.chars.foldl hashChar 0

/-! ## `getSymbolIndex` -/

/-- The fields of `ElfModule` that a lookup uses; `dynsym i` is the `st_name` of symbol `i`. -/
structure SymbolTable where
  numBuckets : UInt32
  numChains : UInt32
  buckets : UInt32 → UInt32
  chains : UInt32 → UInt32
  dynsym : UInt32 → UInt32
  strtab : Bytes

/-- What a lookup reads and returns: the indices into `chains`, and the index of the symbol as a word. -/
structure SymbolLookup where
  chainsRead : List UInt32
  symIndex : UInt32

namespace SymbolTable

/-- `ElfModule::initialize`. -/
def cleared : SymbolTable where
  numBuckets := 0
  numChains := 0
  buckets _ := 0
  chains _ := 0
  dynsym _ := 0
  strtab _ := 0

variable (t : SymbolTable) (name : CString)

/-- The case `DT_HASH` of `parseDynamicSegment`, with the words of the section. -/
def parseHash (hashtable : UInt32 → UInt32) : SymbolTable :=
  { t with
    numBuckets := hashtable 0
    numChains := hashtable 1
    buckets := fun i => hashtable (2 + i)
    chains := fun i => hashtable (hashtable 0 + 2 + i) }

/-- `sym_name`, the name of symbol `i`. -/
def symName (i : UInt32) : Bytes := fun j => t.strtab ((t.dynsym i).toNat + j)

/-- The loop of `getSymbolIndex` from `symIndex`. -/
def lookupFrom : Nat → UInt32 → Option SymbolLookup
  | 0, _ => none
  | fuel + 1, symIndex =>
    if strncmp (t.symName symIndex) name.bytes 0x40 = 0 then some ⟨[], symIndex⟩
    else
      let next := t.chains symIndex
      if next ≠ 0 then
        (lookupFrom fuel next).map fun r => { r with chainsRead := symIndex :: r.chainsRead }
      else some ⟨[symIndex], 0xFFFFFFFF⟩

/-- `ElfModule::getSymbolIndex`. Without buckets the division is a fault. -/
def getSymbolIndex (fuel : Nat) : Option SymbolLookup :=
  if t.numBuckets = 0 then none
  else t.lookupFrom name fuel (t.buckets (elfHash name % t.numBuckets))

/-! ## What is asked of it -/

/-- The lookup comes to an end with at most one symbol more than there are chains, and stays inside of
`chains`. -/
def LookupSafe : Prop :=
  ∃ lookup, (∀ fuel, t.numChains.toNat < fuel → t.getSymbolIndex name fuel = some lookup) ∧
    ∀ i ∈ lookup.chainsRead, i < t.numChains

/-- Symbol `i` has this name. -/
def HasName (i : UInt32) : Prop := ∀ j, j ≤ name.chars.length → t.symName i j = name.bytes j

/-- The right answer: a symbol of this name, or -1. -/
structure Answers (index : UInt32) : Prop where
  found : (∃ i, i < t.numChains ∧ t.HasName name i) → index < t.numChains ∧ t.HasName name index
  missing : (¬ ∃ i, i < t.numChains ∧ t.HasName name i) → index = 0xFFFFFFFF

/-- The lookup comes to an end with the right answer. -/
def LookupExact : Prop :=
  ∃ index enough, (∀ fuel, enough ≤ fuel →
    (t.getSymbolIndex name fuel).map SymbolLookup.symIndex = some index) ∧ t.Answers name index

/-! ## When it is so -/

/-- The names agree, up to the end of the first one, over 64 bytes. -/
def Agrees (i : UInt32) : Prop := strncmp (t.symName i) name.bytes 0x40 = 0

instance : DecidablePred (t.Agrees name) := fun _ => inferInstanceAs (Decidable (_ = _))

/-- The first symbol that is looked at. -/
def first : UInt32 := t.buckets (elfHash name % t.numBuckets)

/-- From a symbol below `num_chains` to the next one of its chain. -/
def Link (i j : UInt32) : Prop := i < t.numChains ∧ t.chains i = j ∧ j ≠ 0

/-- There are buckets, and links lead from the bucket to a symbol that agrees, or to the end of a chain. -/
def ComesToEnd : Prop :=
  t.numBuckets ≠ 0 ∧ ∃ s, Relation.ReflTransGen t.Link (t.first name) s ∧
    (t.Agrees name s ∨ (s < t.numChains ∧ t.chains s = 0))

/-- An index in `buckets` or `chains`; 0 is the end. -/
def ptr (i : UInt32) : Option UInt32 := if i = 0 then none else some i

/-- The symbol behind another one in its chain. -/
def link (i : UInt32) : Option UInt32 := ptr (t.chains i)

/-- Every symbol has a name, and is in the chain of its bucket and in no other one; `chains` has an entry
for symbol 0, too, which is an index as well. -/
structure WellFormed : Prop where
  numBuckets_pos : 0 < t.numBuckets
  named : ∀ i, i < t.numChains → ∃ s : CString, t.HasName s i
  chain : ∀ b, b < t.numBuckets → ∃ l, Chain t.link (ptr (t.buckets b)) l ∧
    ∀ i, i ∈ l ↔ i ≠ 0 ∧ i < t.numChains ∧ ∃ s, t.HasName s i ∧ elfHash s % t.numBuckets = b
  chains_zero : t.chains 0 < t.numChains

/-- The first symbol with the same first 64 bytes has the name that is looked for, among those behind the
bucket: its chain, or symbol 0 with the chain behind it. If there is none, symbol 0 has another name, too. -/
def FirstAgrees : Prop :=
  ∃ rest, Chain t.link (t.link (t.first name)) rest ∧
    (∀ i ∈ (t.first name :: rest).find? (t.Agrees name), t.HasName name i) ∧
    ((t.first name :: rest).find? (t.Agrees name) = none → ¬ t.HasName name 0)

section

variable {t : SymbolTable} {name : CString} {i : UInt32} {rest path : List UInt32} {lookup : SymbolLookup}

/-! ## The loop as a walk -/

/-- The loop stops at this symbol. -/
def StopsAt (t : SymbolTable) (name : CString) (i : UInt32) : Prop := t.Agrees name i ∨ t.chains i = 0

theorem lookupFrom_agrees (h : t.Agrees name i) (fuel : Nat) :
    t.lookupFrom name (fuel + 1) i = some ⟨[], i⟩ := by
  rw [lookupFrom]
  exact if_pos h

theorem lookupFrom_end (h : ¬ t.Agrees name i) (hend : t.chains i = 0) (fuel : Nat) :
    t.lookupFrom name (fuel + 1) i = some ⟨[i], 0xFFFFFFFF⟩ := by
  rw [lookupFrom]
  exact (if_neg h).trans (if_neg (not_not_intro hend))

theorem lookupFrom_next (h : ¬ t.Agrees name i) (hnext : t.chains i ≠ 0) (fuel : Nat) :
    t.lookupFrom name (fuel + 1) i =
      (t.lookupFrom name fuel (t.chains i)).map fun r => { r with chainsRead := i :: r.chainsRead } := by
  rw [lookupFrom]
  exact (if_neg h).trans (if_pos hnext)

/-- A lookup that comes to an end is a walk along the chain. -/
theorem walk_of_lookup {fuel : Nat} (h : t.lookupFrom name fuel i = some lookup) :
    ∃ path, Walk t.chains (t.StopsAt name) i path := by
  induction fuel generalizing i lookup with
  | zero => cases h
  | succ fuel ih =>
    by_cases hstop : t.StopsAt name i
    · exact ⟨_, .last hstop⟩
    · obtain ⟨hagrees, hnext⟩ := not_or.mp hstop
      rw [lookupFrom_next hagrees hnext, Option.map_eq_some_iff] at h
      obtain ⟨rest, hrest, -⟩ := h
      obtain ⟨path, hpath⟩ := ih hrest
      exact ⟨_, .step hstop hpath⟩

/-- A walk along the chain is a lookup: it reads `chains` for the symbols that do not agree. -/
theorem lookup_of_walk (h : Walk t.chains (t.StopsAt name) i path) :
    ∃ lookup, (∀ fuel, path.length ≤ fuel → t.lookupFrom name fuel i = some lookup) ∧
      lookup.chainsRead = path.filter fun j => ¬ t.Agrees name j := by
  induction h with
  | @last i hs =>
    by_cases hagrees : t.Agrees name i
    · refine ⟨⟨[], i⟩, ?_, by simp [hagrees]⟩
      intro fuel hfuel
      obtain ⟨fuel, rfl⟩ := Nat.exists_eq_add_of_le' hfuel
      exact lookupFrom_agrees hagrees fuel
    · refine ⟨⟨[i], 0xFFFFFFFF⟩, ?_, by simp [hagrees]⟩
      intro fuel hfuel
      obtain ⟨fuel, rfl⟩ := Nat.exists_eq_add_of_le' hfuel
      exact lookupFrom_end hagrees (hs.resolve_left hagrees) fuel
  | @step i path hs _ ih =>
    obtain ⟨hagrees, hnext⟩ := not_or.mp hs
    obtain ⟨lookup, hlookup, hread⟩ := ih
    refine ⟨{ lookup with chainsRead := i :: lookup.chainsRead }, ?_, by simp [hagrees, hread]⟩
    intro fuel hfuel
    rw [List.length_cons] at hfuel
    obtain ⟨fuel, rfl⟩ := Nat.exists_eq_add_of_le' (Nat.le_trans (Nat.le_add_left 1 path.length) hfuel)
    rw [lookupFrom_next hagrees hnext, hlookup fuel (Nat.le_of_succ_le_succ hfuel)]
    rfl

/-! ## Lookups in any tables -/

/-- Only the last symbol of a walk can agree. -/
theorem walk_length_le (h : Walk t.chains (t.StopsAt name) i path) :
    path.length ≤ (path.filter fun j => ¬ t.Agrees name j).length + 1 := by
  induction h with
  | last _ => exact Nat.le_add_left 1 _
  | step hs _ ih =>
    rw [List.filter_cons_of_pos (by simpa using mt Or.inl hs), List.length_cons, List.length_cons]
    omega

/-- A walk that stays inside of `chains` is not longer than that. -/
theorem walk_bounded (h : Walk t.chains (t.StopsAt name) i path)
    (hinside : ∀ j ∈ path, ¬ t.Agrees name j → j < t.numChains) :
    path.length ≤ t.numChains.toNat + 1 := by
  have hnodup : ((path.filter fun j => ¬ t.Agrees name j).map UInt32.toNat).Nodup :=
    (h.nodup.filter _).map fun _ _ => UInt32.toNat.inj
  have hsub : (path.filter fun j => ¬ t.Agrees name j).map UInt32.toNat ⊆ List.range t.numChains.toNat := by
    intro n hn
    obtain ⟨j, hj, rfl⟩ := List.mem_map.mp hn
    rw [List.mem_filter, decide_eq_true_eq] at hj
    rw [List.mem_range]
    exact hinside j hj.1 hj.2
  have hle := (List.subperm_of_subset hnodup hsub).length_le
  rw [List.length_map, List.length_range] at hle
  exact Nat.le_trans (walk_length_le h) (Nat.succ_le_succ hle)

/-- **A walk that stays inside of `chains`** is one over links to an end. -/
theorem walk_inside_iff :
    (∃ path, Walk t.chains (t.StopsAt name) i path ∧ ∀ j ∈ path, ¬ t.Agrees name j → j < t.numChains) ↔
      ∃ s, Relation.ReflTransGen t.Link i s ∧ (t.Agrees name s ∨ (s < t.numChains ∧ t.chains s = 0)) := by
  constructor
  · rintro ⟨path, h, hinside⟩
    induction h with
    | @last i hs =>
      refine ⟨i, .refl, ?_⟩
      by_cases hagrees : t.Agrees name i
      · exact .inl hagrees
      · exact .inr ⟨hinside i (List.mem_singleton_self i) hagrees, hs.resolve_left hagrees⟩
    | @step i path hs _ ih =>
      rw [List.forall_mem_cons] at hinside
      obtain ⟨hagrees, hnext⟩ := not_or.mp hs
      obtain ⟨s, hpath, hend⟩ := ih hinside.2
      exact ⟨s, .head ⟨hinside.1 hagrees, rfl, hnext⟩ hpath, hend⟩
  · rintro ⟨s, hpath, hend⟩
    induction hpath using Relation.ReflTransGen.head_induction_on with
    | refl =>
      refine ⟨[s], .last (hend.imp_right And.right), ?_⟩
      intro j hj hagrees
      rw [List.mem_singleton.mp hj] at hagrees ⊢
      exact (hend.resolve_left hagrees).1
    | @head i k hlink _ ih =>
      obtain ⟨hlt, rfl, hnext⟩ := hlink
      by_cases hagrees : t.Agrees name i
      · refine ⟨[i], .last (.inl hagrees), ?_⟩
        intro j hj hnot
        rw [List.mem_singleton.mp hj] at hnot
        exact absurd hagrees hnot
      · obtain ⟨path, hwalk, hinside⟩ := ih
        refine ⟨i :: path, .step (not_or.mpr ⟨hagrees, hnext⟩) hwalk, ?_⟩
        rw [List.forall_mem_cons]
        exact ⟨fun _ => hlt, hinside⟩

/-! ## Lookups in tables that are in order -/

theorem chain_cons {l : List UInt32} (h : Chain t.link (ptr i) l) (hi : i ≠ 0) :
    ∃ rest, l = i :: rest ∧ Chain t.link (t.link i) rest := by
  rw [ptr, if_neg hi] at h
  obtain ⟨rest, rfl⟩ := h.exists_cons
  exact ⟨rest, rfl, h.2⟩

/-- Along a chain that ends the lookup finds the first symbol that agrees. -/
theorem lookup_of_chain (h : Chain t.link (t.link i) rest) {fuel : Nat} (hfuel : rest.length < fuel) :
    (t.lookupFrom name fuel i).map SymbolLookup.symIndex =
      some (((i :: rest).find? (t.Agrees name)).getD 0xFFFFFFFF) := by
  have hpos {i : UInt32} (l : List UInt32) (hagrees : t.Agrees name i) :
      (i :: l).find? (t.Agrees name) = some i := List.find?_cons_of_pos (by simpa using hagrees)
  have hneg {i : UInt32} (l : List UInt32) (hagrees : ¬ t.Agrees name i) :
      (i :: l).find? (t.Agrees name) = l.find? (t.Agrees name) :=
    List.find?_cons_of_neg (by simpa using hagrees)
  have hsucc {fuel : Nat} (n : Nat) (hn : n < fuel) : ∃ fuel', fuel = fuel' + 1 :=
    Nat.exists_eq_add_one_of_ne_zero (Nat.ne_of_gt (Nat.zero_lt_of_lt hn))
  induction rest generalizing i fuel with
  | nil =>
    obtain ⟨fuel, rfl⟩ := hsucc _ hfuel
    have hend : t.chains i = 0 := by
      rw [Chain.nil_iff, link, ptr, ite_eq_left_iff] at h
      by_contra hne
      exact absurd (h hne) (Option.some_ne_none _)
    by_cases hagrees : t.Agrees name i
    · rw [lookupFrom_agrees hagrees, hpos _ hagrees]
      rfl
    · rw [lookupFrom_end hagrees hend, hneg _ hagrees]
      rfl
  | cons k rest ih =>
    obtain ⟨fuel, rfl⟩ := hsucc _ hfuel
    obtain ⟨hk, hrest⟩ := h
    have hnext : t.chains i = k ∧ k ≠ 0 := by
      rw [link, ptr] at hk
      split at hk
      · cases hk
      · rename_i hne
        cases hk
        exact ⟨rfl, hne⟩
    by_cases hagrees : t.Agrees name i
    · rw [lookupFrom_agrees hagrees, hpos _ hagrees]
      rfl
    · have hgo : t.chains i ≠ 0 := by
        rw [hnext.1]
        exact hnext.2
      rw [lookupFrom_next hagrees hgo, hnext.1, hneg _ hagrees,
        ← ih hrest (Nat.lt_of_succ_lt_succ hfuel), Option.map_map]
      rfl

/-- A symbol of this name agrees. -/
theorem HasName.agrees (h : t.HasName name i) : t.Agrees name i := by
  rw [Agrees, strncmp_eq_zero_iff]
  intro j _ hbefore
  rcases Nat.lt_or_ge name.chars.length j with hlt | hle
  · have hend : t.symName i name.chars.length = 0 := by
      rw [h _ (Nat.le_refl _), CString.bytes, List.getD_eq_default _ _ (Nat.le_refl _)]
    exact absurd hend (hbefore _ hlt)
  · exact h j hle

/-- A name of less than 64 characters agrees only with itself. -/
theorem agrees_iff (hshort : name.chars.length < 64) : t.Agrees name i ↔ t.HasName name i := by
  refine ⟨?_, HasName.agrees⟩
  rw [Agrees, strncmp_eq_zero_iff]
  intro h j hj
  have hbody : ∀ k, k < name.chars.length → name.bytes k ≠ 0 := by
    intro k hk
    rw [CString.bytes, List.getD_eq_getElem _ _ hk]
    exact name.nonzero _ (List.getElem_mem hk)
  -- none of the characters before the end of the name is a NUL
  have hsym : ∀ k, k ≤ j → t.symName i k = name.bytes k := by
    intro k
    induction k using Nat.strongRecOn with
    | _ k ih =>
      intro hk
      apply h k (by omega)
      intro m hm
      rw [ih m hm (by omega)]
      exact hbody m (by omega)
  exact hsym j (Nat.le_refl j)

namespace WellFormed

variable (h : t.WellFormed)

include h

/-- Behind each symbol there is a chain. -/
theorem chain_behind (hi : i ≠ 0) (hlt : i < t.numChains) :
    ∃ rest, Chain t.link (t.link i) rest ∧ ∀ k ∈ rest, k < t.numChains := by
  obtain ⟨s, hs⟩ := h.named i hlt
  have hbucket : elfHash s % t.numBuckets < t.numBuckets := UInt32.mod_lt _ h.numBuckets_pos
  obtain ⟨l, hl, hmem⟩ := h.chain _ hbucket
  obtain ⟨l₁, l₂, rfl⟩ := List.append_of_mem ((hmem i).mpr ⟨hi, hlt, s, hs, rfl⟩)
  refine ⟨l₂, hl.of_append, ?_⟩
  intro k hk
  exact ((hmem k).mp (List.mem_append_right l₁ (List.mem_cons_of_mem i hk))).2.1

/-- The symbols that are looked at: all are symbols of the table, and every one of the bucket is there. -/
theorem looked_at (name : CString) :
    ∃ rest, Chain t.link (t.link (t.first name)) rest ∧
      (∀ k ∈ t.first name :: rest, k < t.numChains) ∧
      ∀ k, k ≠ 0 → k < t.numChains → t.HasName name k → k ∈ t.first name :: rest := by
  have hbucket : elfHash name % t.numBuckets < t.numBuckets := UInt32.mod_lt _ h.numBuckets_pos
  have hpos : 0 < t.numChains := UInt32.lt_of_le_of_lt UInt32.zero_le h.chains_zero
  obtain ⟨l, hl, hmem⟩ := h.chain _ hbucket
  have hnamed : ∀ k, k ≠ 0 → k < t.numChains → t.HasName name k → k ∈ l :=
    fun k hk hlt hname => (hmem k).mpr ⟨hk, hlt, name, hname, rfl⟩
  by_cases hfirst : t.first name = 0
  · -- an empty bucket: symbol 0, and what is behind it
    have hnil : l = [] := by
      have hnull : ptr (t.buckets (elfHash name % t.numBuckets)) = none := if_pos hfirst
      rw [hnull] at hl
      exact hl.eq_nil
    rw [hnil] at hnamed
    by_cases hzero : t.chains 0 = 0
    · refine ⟨[], ?_, ?_, fun k hk hlt hname => absurd (hnamed k hk hlt hname) List.not_mem_nil⟩
      · rw [hfirst, Chain.nil_iff, link, hzero]
        rfl
      · rw [hfirst]
        simpa using hpos
    · obtain ⟨rest, hrest, hlt⟩ := h.chain_behind hzero h.chains_zero
      refine ⟨t.chains 0 :: rest, ?_, ?_, fun k hk hlt hname => absurd (hnamed k hk hlt hname) List.not_mem_nil⟩
      · rw [hfirst]
        exact ⟨if_neg hzero, hrest⟩
      · rw [hfirst, List.forall_mem_cons, List.forall_mem_cons]
        exact ⟨hpos, h.chains_zero, hlt⟩
  · obtain ⟨rest, rfl, hrest⟩ := chain_cons hl hfirst
    exact ⟨rest, hrest, fun k hk => ((hmem k).mp hk).2.1, hnamed⟩

/-- **A lookup finds the first symbol that agrees.** -/
theorem lookup_finds (name : CString) :
    ∃ rest, Chain t.link (t.link (t.first name)) rest ∧
      (∀ k ∈ t.first name :: rest, k < t.numChains) ∧
      (∀ k, k ≠ 0 → k < t.numChains → t.HasName name k → k ∈ t.first name :: rest) ∧
      ∀ fuel, rest.length < fuel → (t.getSymbolIndex name fuel).map SymbolLookup.symIndex =
        some (((t.first name :: rest).find? (t.Agrees name)).getD 0xFFFFFFFF) := by
  obtain ⟨rest, hrest, hlt, hnamed⟩ := h.looked_at name
  refine ⟨rest, hrest, hlt, hnamed, ?_⟩
  intro fuel hfuel
  have hbuckets : t.numBuckets ≠ 0 := by
    intro hzero
    have hpos := h.numBuckets_pos
    rw [hzero] at hpos
    exact UInt32.lt_irrefl 0 hpos
  rw [getSymbolIndex, if_neg hbuckets]
  exact lookup_of_chain hrest hfuel

/-- A short name is told from all others. -/
theorem firstAgrees_of_short (hshort : name.chars.length < 64) (hzero : ¬ t.HasName name 0) :
    t.FirstAgrees name := by
  obtain ⟨rest, hrest, -⟩ := h.looked_at name
  refine ⟨rest, hrest, ?_, fun _ => hzero⟩
  intro i hi
  have hagrees := List.find?_some (Option.mem_def.mp hi)
  exact (agrees_iff hshort).mp (of_decide_eq_true hagrees)

end WellFormed

end

end SymbolTable

/-- **A lookup ends inside of its tables**, whatever they hold, exactly if links from the bucket lead to a
symbol that agrees or to the end of a chain. -/
theorem symbol_lookup_safe_iff (t : SymbolTable) (name : CString) :
    t.LookupSafe name ↔ t.ComesToEnd name := by
  rw [SymbolTable.LookupSafe, SymbolTable.ComesToEnd, ← SymbolTable.walk_inside_iff]
  by_cases hbuckets : t.numBuckets = 0
  · have hnone (fuel : Nat) : t.getSymbolIndex name fuel = none := if_pos hbuckets
    refine iff_of_false ?_ fun h => h.1 hbuckets
    rintro ⟨lookup, hlookup, -⟩
    have hrun := hlookup _ (Nat.lt_succ_self _)
    rw [hnone] at hrun
    cases hrun
  · have hget (fuel : Nat) : t.getSymbolIndex name fuel = t.lookupFrom name fuel (t.first name) :=
      if_neg hbuckets
    simp only [hget]
    constructor
    · rintro ⟨lookup, hlookup, hread⟩
      obtain ⟨path, hwalk⟩ := SymbolTable.walk_of_lookup (hlookup _ (Nat.lt_succ_self _))
      obtain ⟨lookup', hlookup', hread'⟩ := SymbolTable.lookup_of_walk hwalk
      have heq : lookup = lookup' := by
        have hrun := hlookup' (t.numChains.toNat + 1 + path.length) (Nat.le_add_left _ _)
        rw [hlookup _ (by omega), Option.some.injEq] at hrun
        exact hrun
      refine ⟨hbuckets, path, hwalk, ?_⟩
      intro j hj hagrees
      apply hread
      rw [heq, hread', List.mem_filter, decide_eq_true_eq]
      exact ⟨hj, hagrees⟩
    · rintro ⟨-, path, hwalk, hinside⟩
      obtain ⟨lookup, hlookup, hread⟩ := SymbolTable.lookup_of_walk hwalk
      refine ⟨lookup, ?_, ?_⟩
      · intro fuel hfuel
        exact hlookup fuel (Nat.le_trans (SymbolTable.walk_bounded hwalk hinside) hfuel)
      · intro j hj
        rw [hread, List.mem_filter, decide_eq_true_eq] at hj
        exact hinside j hj.1 hj.2

/-- The tables of an object without a hash section are those of `ElfModule::initialize`. -/
theorem no_hash_section : ¬ ∀ (t : SymbolTable) (name : CString), t.LookupSafe name := by
  intro hall
  obtain ⟨lookup, hlookup, -⟩ := hall .cleared ⟨[102], by decide +kernel⟩
  have hrun := hlookup 1 (by decide)
  have hfault : SymbolTable.cleared.getSymbolIndex ⟨[102], by decide +kernel⟩ 1 = none := if_pos rfl
  rw [hfault] at hrun
  cases hrun

/-- **A lookup in tables that are in order is exact** if and only if the first symbol with the same first 64
bytes is the one that is looked for. -/
theorem symbol_lookup_exact_iff (t : SymbolTable) (h : t.WellFormed) (name : CString) :
    t.LookupExact name ↔ t.FirstAgrees name := by
  obtain ⟨rest, hrest, hlt, hnamed, hfinds⟩ := h.lookup_finds name
  have hpos : 0 < t.numChains := UInt32.lt_of_le_of_lt UInt32.zero_le h.chains_zero
  have hlast : ¬ (0xFFFFFFFF : UInt32) < t.numChains := by
    rw [UInt32.lt_iff_toNat_lt, Nat.not_lt]
    exact Nat.le_of_lt_succ t.numChains.toNat_lt
  -- a symbol of this name is among those that agree, unless it is symbol 0
  have hfound : (t.first name :: rest).find? (t.Agrees name) = none →
      ∀ i, i < t.numChains → t.HasName name i → i = 0 := by
    intro hnone i hi hname
    by_contra hne
    apply List.find?_eq_none.mp hnone i (hnamed i hne hi hname)
    exact decide_eq_true hname.agrees
  constructor
  · rintro ⟨index, enough, hindex, hanswers⟩
    have heq : index = ((t.first name :: rest).find? (t.Agrees name)).getD 0xFFFFFFFF := by
      have hrun := hfinds (enough + rest.length + 1) (by omega)
      rw [hindex _ (by omega)] at hrun
      exact Option.some.inj hrun
    refine ⟨rest, hrest, ?_, ?_⟩
    · intro i hi
      rw [Option.mem_def] at hi
      rw [hi, Option.getD_some] at heq
      by_contra hname
      have hi' : index < t.numChains := heq ▸ hlt i (List.mem_of_find?_eq_some hi)
      by_cases hex : ∃ i, i < t.numChains ∧ t.HasName name i
      · exact hname (heq ▸ (hanswers.found hex).2)
      · exact hlast (hanswers.missing hex ▸ hi')
    · intro hnone hzero
      rw [hnone, Option.getD_none] at heq
      exact hlast (heq ▸ (hanswers.found ⟨0, hpos, hzero⟩).1)
  · rintro ⟨rest', hrest', hfirst, hzero⟩
    obtain rfl := hrest'.unique hrest
    refine ⟨_, rest'.length + 1, fun fuel hfuel => hfinds fuel hfuel, ?_⟩
    cases hfind : (t.first name :: rest').find? (t.Agrees name) with
    | some i =>
      have hi : i < t.numChains ∧ t.HasName name i :=
        ⟨hlt i (List.mem_of_find?_eq_some hfind), hfirst i hfind⟩
      exact ⟨fun _ => hi, fun hmissing => absurd ⟨i, hi⟩ hmissing⟩
    | none =>
      refine ⟨?_, fun _ => rfl⟩
      rintro ⟨i, hi, hname⟩
      rw [hfound hfind i hi hname] at hname
      exact absurd hname (hzero hfind)

/-! ## Two names that agree -/

/-- 64 times `A`, and one more character. -/
def longName (last : UInt8) (h : last ≠ 0) : CString where
  chars := List.replicate 64 65 ++ [last]
  nonzero := by
    intro c hc
    rw [List.mem_append, List.mem_replicate, List.mem_singleton] at hc
    rcases hc with ⟨-, rfl⟩ | rfl
    · decide
    · exact h

/-- The name of symbol 1, with an `x` at its end. -/
def longNameX : CString := longName 120 (by decide)

/-- The name that is looked for, with a `y` at its end. -/
def longNameY : CString := longName 121 (by decide)

/-- The tables with one symbol. -/
def SymbolTable.oneLong : SymbolTable where
  numBuckets := 1
  numChains := 2
  buckets _ := 1
  chains _ := 0
  dynsym i := if i = 1 then 1 else 0
  strtab j := (0 :: longNameX.chars).getD j 0

namespace SymbolTable

theorem oneLong_hasName : oneLong.HasName longNameX 1 := by
  intro j _
  show (0 :: longNameX.chars).getD (1 + j) 0 = longNameX.chars.getD j 0
  rw [Nat.add_comm]
  rfl

theorem oneLong_index {i : UInt32} (hi : i < oneLong.numChains) : i = 0 ∨ i = 1 := by
  have hlt : i.toNat < 2 := hi
  rcases Nat.lt_succ_iff_lt_or_eq.mp hlt with hzero | hone
  · exact .inl (UInt32.toNat.inj (Nat.lt_one_iff.mp hzero))
  · exact .inr (UInt32.toNat.inj hone)

theorem oneLong_wellFormed : oneLong.WellFormed where
  numBuckets_pos := by decide
  named := by
    intro i hi
    rcases oneLong_index hi with rfl | rfl
    · refine ⟨⟨[], fun _ hc => absurd hc List.not_mem_nil⟩, ?_⟩
      intro j hj
      obtain rfl := Nat.le_zero.mp hj
      rfl
    · exact ⟨longNameX, oneLong_hasName⟩
  chain := by
    intro b hb
    obtain rfl : b = 0 := UInt32.toNat.inj (Nat.lt_one_iff.mp hb)
    refine ⟨[1], ⟨rfl, rfl⟩, ?_⟩
    intro i
    rw [List.mem_singleton]
    constructor
    · rintro rfl
      exact ⟨by decide, by decide, longNameX, oneLong_hasName, UInt32.mod_one⟩
    · rintro ⟨hne, hlt, -⟩
      exact (oneLong_index hlt).resolve_left hne
  chains_zero := by decide

theorem oneLong_firstAgrees : oneLong.FirstAgrees longNameX := by
  refine ⟨[], rfl, ?_, ?_⟩
  · intro i hi
    obtain rfl := List.mem_singleton.mp (List.mem_of_find?_eq_some hi)
    exact oneLong_hasName
  · intro hnone
    exact absurd (List.find?_eq_none.mp hnone 1 (List.mem_singleton_self 1))
      (not_not_intro (decide_eq_true oneLong_hasName.agrees))

/-- The two names differ behind their first 64 bytes. -/
theorem oneLong_agrees : oneLong.Agrees longNameY 1 := by
  rw [Agrees, strncmp_eq_zero_iff]
  intro j hj _
  have hsame : ∀ j < 64, oneLong.symName 1 j = longNameY.bytes j := by decide +kernel
  exact hsame j hj

end SymbolTable

theorem symbol_lookup_exact_iff_oneLong :
    SymbolTable.oneLong.WellFormed ∧ SymbolTable.oneLong.LookupExact longNameX :=
  ⟨SymbolTable.oneLong_wellFormed,
    (symbol_lookup_exact_iff SymbolTable.oneLong SymbolTable.oneLong_wellFormed longNameX).mpr
      SymbolTable.oneLong_firstAgrees⟩

/-- The symbol that is found has another name. -/
theorem long_name_mixed_up : ¬ ∀ t : SymbolTable, t.WellFormed → ∀ name : CString, name.chars ≠ [] →
    t.LookupExact name := by
  intro hall
  obtain ⟨index, enough, hindex, hanswers⟩ :=
    hall .oneLong SymbolTable.oneLong_wellFormed longNameY (List.append_ne_nil_of_right_ne_nil _ (by simp))
  have hone : index = 1 := by
    have hrun := hindex (enough + 1) (Nat.le_succ enough)
    have hget : SymbolTable.oneLong.getSymbolIndex longNameY (enough + 1) = some ⟨[], 1⟩ :=
      SymbolTable.lookupFrom_agrees SymbolTable.oneLong_agrees enough
    rw [hget] at hrun
    exact (Option.some.inj hrun).symm
  by_cases hex : ∃ i, i < SymbolTable.oneLong.numChains ∧ SymbolTable.oneLong.HasName longNameY i
  · obtain ⟨-, hname⟩ := hanswers.found hex
    rw [hone] at hname
    exact absurd (hname 64 (by decide)) (by decide +kernel)
  · exact absurd (hone ▸ hanswers.missing hex) (by decide)

end Shipwreck.Storage
