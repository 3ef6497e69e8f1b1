import Unos.Library.QuadWords

namespace Unos.ElfLoader

open Unos.ByteMemory

def pageSize : ℕ := 4096

def wrap64 (x : ℕ) : ℕ := x % 18446744073709551616

def roundUp (v s : ℕ) : ℕ := wrap64 (v + s - 1) / s * s

def roundDown (v s : ℕ) : ℕ := v / s * s

def intToSize (x : ℕ) : ℕ :=
  if x % 4294967296 < 0x80000000 then x % 4294967296 else 0xFFFFFFFF00000000 + x % 4294967296

def ptLoad : ℕ := 1

def ptGnuStack : ℕ := 0x6474E551

def etDyn : ℕ := 3

/-- The fields of `Elf64_Phdr` that are used. -/
structure Phdr where
  type : ℕ
  flags : ℕ
  offset : ℕ
  vaddr : ℕ
  filesz : ℕ
  memsz : ℕ
  deriving DecidableEq, Repr

def phdrAt (file : Mem) (a : ℕ) : Phdr where
  type := load32 file a
  flags := load32 file (a + 4)
  offset := load64 file (a + 8)
  vaddr := load64 file (a + 16)
  filesz := load64 file (a + 32)
  memsz := load64 file (a + 40)

def eType (file : Mem) : ℕ := load16 file 16

def eEntry (file : Mem) : ℕ := load64 file 24

def ePhoff (file : Mem) : ℕ := load64 file 32

def ePhnum (file : Mem) : ℕ := load16 file 56

def phdrs (file : Mem) : List Phdr := (List.range (ePhnum file)).map fun x =>
    phdrAt file (ePhoff file + 56 * x)

def protRead : ℕ := 1

def protWrite : ℕ := 2

def protExec : ℕ := 4

structure Space where
  mem : Mem
  prot : ℕ → Option ℕ

/-- The pages that a range of addresses starting at a page takes part of. -/
def Covers (start size page : ℕ) : Prop := start / pageSize ≤ page ∧ page * pageSize < start + size

instance (start size page : ℕ) : Decidable (Covers start size page) :=
  inferInstanceAs (Decidable (_ ∧ _))

def Space.mprotect (s : Space) (start size prot : ℕ) : Space :=
  { s with prot := fun page => if Covers start size page then some prot else s.prot page }

/-- `mmap` with `MAP_FIXED` and `MAP_ANON`: what was there is replaced by zeros. -/
def Space.mmap (s : Space) (start size prot : ℕ) : Space :=
  { s with
    mem := fun a => if Covers start size (a / pageSize) then 0 else s.mem a
    prot := fun page => if Covers start size page then some prot else s.prot page }

def Space.memcpy (s : Space) (dst : ℕ) (bytes : List (BitVec 8)) : Space :=
  { s with mem := storeBytes s.mem dst bytes }

def Space.memset (s : Space) (dst n : ℕ) : Space := { s with mem := fill s.mem dst 0 n }

/-- The variables of the loop of `elf_load`; `*base_addr` is `-1` at first. The file lies apart from
the memory that is mapped, and the calls of the system succeed. -/
structure Loader where
  space : Space
  elfProt : ℕ
  stackProt : ℕ
  baseAddr : ℕ

/-- The flags are `PF_X`, `PF_W` and `PF_R`. What was there stays unless the segment can be read. -/
def addRights (prot flags : ℕ) : ℕ :=
  let prot := if flags &&& 4 ≠ 0 then protRead else prot
  let prot := if flags &&& 2 ≠ 0 then prot ||| protWrite else prot
  if flags &&& 1 ≠ 0 then prot ||| protExec else prot

def noBase : ℕ := 0xFFFFFFFFFFFFFFFF

def mapStart (p : Phdr) : ℕ := roundDown p.vaddr pageSize

def mapSize (p : Phdr) : ℕ :=
  intToSize (roundUp (wrap64 (p.memsz + (p.vaddr - mapStart p))) pageSize)

def loadSegment (file : Mem) (base : ℕ) (l : Loader) (p : Phdr) : Loader :=
  let start := wrap64 (base + mapStart p)
  let s := l.space.mmap start (mapSize p) (protRead ||| protWrite)
  let s := s.memcpy (wrap64 (base + p.vaddr)) (loadBytes file p.offset p.filesz)
  let s := if p.filesz < p.memsz then s.memset (wrap64 (base + p.vaddr + p.filesz))
    (p.memsz - p.filesz) else s
  let elfProt := addRights l.elfProt p.flags
  { l with
    space := s.mprotect start (mapSize p) elfProt
    elfProt := elfProt
    baseAddr := if l.baseAddr = noBase ∨ start < l.baseAddr then start else l.baseAddr }

def loadTurn (file : Mem) (base stack stackSize : ℕ) (l : Loader) (p : Phdr) : Loader :=
  let l :=
    if stack ≠ 0 ∧ p.type = ptGnuStack then
      let stackProt := addRights l.stackProt p.flags
      { l with stackProt := stackProt, space := l.space.mprotect stack stackSize stackProt }
    else l
  if p.type ≠ ptLoad ∨ p.filesz = 0 then l else loadSegment file base l p

/-- `anywhere` is the address that `mmap` chooses. The space, `*base_addr` and `*entry` are
returned. -/
def elfLoad (anywhere : ℕ) (file : Mem) (stack stackSize : ℕ) (s : Space) : Space × ℕ × ℕ :=
  let base := if eType file = etDyn then anywhere else 0
  let l := (phdrs file).foldl (loadTurn file base stack stackSize) ⟨s, 0, 0, noBase⟩
  (l.space, l.baseAddr, wrap64 (base + eEntry file))

def loads (file : Mem) : List Phdr := (phdrs file).filter fun p => p.type = ptLoad ∧ p.filesz ≠ 0

def Page (base : ℕ) (p : Phdr) (k : ℕ) : Prop :=
  (base + p.vaddr) / 4096 ≤ k ∧ k * 4096 < base + p.vaddr + p.memsz

instance (base : ℕ) (p : Phdr) (k : ℕ) : Decidable (Page base p k) :=
  inferInstanceAs (Decidable (_ ∧ _))

/-- A segment whose bytes are in it, and whose addresses and size are not cut off. -/
structure Proper (base : ℕ) (p : Phdr) : Prop where
  sizes : p.filesz ≤ p.memsz
  small : p.vaddr % 4096 + p.memsz + 4095 < 0x80000000
  top : base + p.vaddr + p.memsz < 18446744073709551616

variable {file : Mem} {base stack stackSize a k : ℕ} {l : Loader} {p : Phdr}

theorem mapStart_eq (p : Phdr) :
    mapStart p = p.vaddr - p.vaddr % 4096 ∧ p.vaddr % 4096 ≤ p.vaddr := by
  unfold mapStart roundDown pageSize
  omega

theorem mapSize_eq (h : Proper base p) :
    mapSize p = (p.vaddr % 4096 + p.memsz + 4095) / 4096 * 4096 := by
  obtain ⟨hstart, hle⟩ := mapStart_eq p
  have hsmall := h.small
  have hoffset : wrap64 (p.memsz + (p.vaddr - mapStart p)) = p.vaddr % 4096 + p.memsz := by
    unfold wrap64
    omega
  have hround : roundUp (p.vaddr % 4096 + p.memsz) pageSize =
      (p.vaddr % 4096 + p.memsz + 4095) / 4096 * 4096 := by
    unfold roundUp wrap64 pageSize
    omega
  rw [mapSize, hoffset, hround, intToSize, if_pos (by omega)]
  omega

theorem covers_iff (hbase : base % 4096 = 0) (h : Proper base p) :
    Covers (wrap64 (base + mapStart p)) (mapSize p) k ↔ Page base p k := by
  obtain ⟨hstart, hle⟩ := mapStart_eq p
  have htop := h.top
  have hwrap : wrap64 (base + mapStart p) = base + mapStart p := by
    unfold wrap64
    omega
  rw [hwrap, mapSize_eq h, hstart]
  unfold Covers Page pageSize
  omega

def content (file : Mem) (base : ℕ) (p : Phdr) (a : ℕ) : BitVec 8 :=
  if base + p.vaddr ≤ a ∧
    a < base + p.vaddr + p.filesz then file (p.offset + (a - (base + p.vaddr))) else 0

theorem getD_loadBytes (m : Mem) (a : ℕ) {i n : ℕ} (hi : i < n) :
    (loadBytes m a n).getD i 0 = m (a + i) := by
  rw [loadBytes, List.getD_eq_getElem?_getD, List.getElem?_map, List.getElem?_range hi]
  rfl

theorem length_loadBytes (m : Mem) (a n : ℕ) : (loadBytes m a n).length = n := by
  rw [loadBytes, List.length_map, List.length_range]

theorem mem_loadSegment (hbase : base % 4096 = 0) (h : Proper base p) (l : Loader) (a : ℕ) :
    (loadSegment file base l p).space.mem a =
      if Page base p (a / 4096) then content file base p a else l.space.mem a := by
  have hsizes := h.sizes
  have htop := h.top
  have hdst : wrap64 (base + p.vaddr) = base + p.vaddr := Nat.mod_eq_of_lt (by omega)
  have hbss : wrap64 (base + p.vaddr + p.filesz) = base + p.vaddr + p.filesz :=
    Nat.mod_eq_of_lt (by omega)
  have hmapped : (l.space.mmap (wrap64 (base + mapStart p)) (mapSize p)
    (protRead ||| protWrite)).mem a =
      if Page base p (a / 4096) then 0 else l.space.mem a :=
    if_congr (covers_iff hbase h) rfl rfl
  have hcopied : ((l.space.mmap (wrap64 (base + mapStart p)) (mapSize p)
      (protRead ||| protWrite)).memcpy (wrap64 (base + p.vaddr))
        (loadBytes file p.offset p.filesz)).mem a =
      if Page base p (a / 4096) then content file base p a else l.space.mem a := by
    rw [hdst]
    show storeBytes _ (base + p.vaddr) (loadBytes file p.offset p.filesz) a = _
    by_cases hin : base + p.vaddr ≤ a ∧ a < base + p.vaddr + p.filesz
    · have hpage : Page base p (a / 4096) := by
        unfold Page
        omega
      rw [if_pos hpage, content, if_pos hin, storeBytes, length_loadBytes, if_pos hin,
        getD_loadBytes _ _ (by omega)]
    · rw [storeBytes, length_loadBytes, if_neg hin, hmapped, content, if_neg hin]
  have hcleared : (fill ((l.space.mmap (wrap64 (base + mapStart p)) (mapSize p)
      (protRead ||| protWrite)).memcpy (wrap64 (base + p.vaddr))
        (loadBytes file p.offset p.filesz)).mem
      (base + p.vaddr + p.filesz) 0 (p.memsz - p.filesz)) a =
      if Page base p (a / 4096) then content file base p a else l.space.mem a := by
    rw [fill_apply, hcopied]
    by_cases hin : base + p.vaddr + p.filesz ≤ a ∧
      a < base + p.vaddr + p.filesz + (p.memsz - p.filesz)
    · have hpage : Page base p (a / 4096) := by
        unfold Page
        omega
      rw [if_pos hin, if_pos hpage, content, if_neg (by omega)]
      rfl
    · rw [if_neg hin]
  rw [loadSegment]
  split
  · rw [hbss]
    exact hcleared
  · exact hcopied

theorem prot_loadSegment (hbase : base % 4096 = 0) (h : Proper base p) (l : Loader) (k : ℕ) :
    (loadSegment file base l p).space.prot k =
      if Page base p k then some (addRights l.elfProt p.flags) else l.space.prot k := by
  have hcover := covers_iff (k := k) hbase h
  have hlast : (loadSegment file base l p).space.prot k =
      if Covers (wrap64 (base + mapStart p)) (mapSize p) k then some (addRights l.elfProt p.flags)
      else if Covers (wrap64 (base + mapStart p)) (mapSize p) k then some (protRead ||| protWrite)
      else l.space.prot k := by
    rw [loadSegment]
    split <;> rfl
  rw [hlast]
  by_cases hpage : Page base p k
  · rw [if_pos (hcover.mpr hpage), if_pos hpage]
  · rw [if_neg (mt hcover.mp hpage), if_neg (mt hcover.mp hpage), if_neg hpage]

/-- The rights that a segment gets, after those in front of it in the list. -/
def rights (prot : ℕ) (ps : List Phdr) : ℕ := ps.foldl (fun prot p => addRights prot p.flags) prot

def lowest (base : ℕ) (b : ℕ) (p : Phdr) : ℕ :=
  if b = noBase ∨ wrap64 (base + mapStart p) < b then wrap64 (base + mapStart p) else b

structure Loaded (file : Mem) (base stack stackSize : ℕ) (ps : List Phdr) (l l' : Loader) :
    Prop where
  inside : ∀ p ∈ ps, ∀ a, Page base p (a / 4096) → l'.space.mem a = content file base p a
  outside : ∀ a, (∀ p ∈ ps, ¬ Page base p (a / 4096)) → l'.space.mem a = l.space.mem a
  allowed : ∀ i p, ps[i]? = some p → ∀ k, Page base p k →
    l'.space.prot k = some (rights l.elfProt (ps.take (i + 1)))
  others : ∀ k, (∀ p ∈ ps, ¬ Page base p k) → ¬ Covers stack stackSize k →
    l'.space.prot k = l.space.prot k
  baseAddr : l'.baseAddr = ps.foldl (lowest base) l.baseAddr

structure Separate (base stack stackSize : ℕ) (ps : List Phdr) : Prop where
  aligned : base % 4096 = 0
  proper : ∀ p ∈ ps, Proper base p
  apart : ps.Pairwise fun p q => ∀ k, Page base p k → ¬ Page base q k
  stack : ∀ p ∈ ps, ∀ k, Page base p k → ¬ Covers stack stackSize k

variable {l' l'' : Loader} {ps : List Phdr}

theorem loaded_nil (l : Loader) : Loaded file base stack stackSize [] l l where
  inside _ hp := nomatch hp
  outside _ _ := rfl
  allowed _ _ hp := nomatch hp
  others _ _ _ := rfl
  baseAddr := rfl

theorem Loaded.of_stack (h : Loaded file base stack stackSize ps l' l'')
    (hmem : l'.space.mem = l.space.mem)
    (hprot : ∀ k, ¬ Covers stack stackSize k → l'.space.prot k = l.space.prot k)
    (helf : l'.elfProt = l.elfProt) (hbase : l'.baseAddr = l.baseAddr) :
    Loaded file base stack stackSize ps l l'' where
  inside := h.inside
  outside a ha := (h.outside a ha).trans (congrFun hmem a)
  allowed := helf ▸ h.allowed
  others k hk hstack := (h.others k hk hstack).trans (hprot k hstack)
  baseAddr := hbase ▸ h.baseAddr

theorem Loaded.cons (hsep : Separate base stack stackSize (p :: ps))
    (h : Loaded file base stack stackSize ps (loadSegment file base l p) l') :
    Loaded file base stack stackSize (p :: ps) l l' := by
  have hproper := hsep.proper p List.mem_cons_self
  obtain ⟨hapart, -⟩ := List.pairwise_cons.mp hsep.apart
  have hmem : ∀ a, (loadSegment file base l p).space.mem a = _ :=
    mem_loadSegment hsep.aligned hproper l
  have hprot : ∀ k, (loadSegment file base l p).space.prot k = _ :=
    prot_loadSegment hsep.aligned hproper l
  have helf : (loadSegment file base l p).elfProt = addRights l.elfProt p.flags := rfl
  constructor
  · intro q hq a ha
    rcases List.mem_cons.mp hq with rfl | hq
    · have hkeep : ∀ r ∈ ps, ¬ Page base r (a / 4096) := fun r hr => hapart r hr _ ha
      rw [h.outside a hkeep, hmem, if_pos ha]
    · exact h.inside q hq a ha
  · intro a ha
    rw [h.outside a fun q hq => ha q (List.mem_cons_of_mem _ hq), hmem,
      if_neg (ha p List.mem_cons_self)]
  · intro i q hq k hk
    cases i with
    | zero =>
      cases hq
      have hkeep : ∀ r ∈ ps, ¬ Page base r k := fun r hr => hapart r hr _ hk
      rw [h.others k hkeep (hsep.stack p List.mem_cons_self k hk), hprot, if_pos hk]
      rfl
    | succ i =>
      rw [h.allowed i q hq k hk, helf]
      rfl
  · intro k hk hstack
    rw [h.others k (fun q hq => hk q (List.mem_cons_of_mem _ hq)) hstack, hprot,
      if_neg (hk p List.mem_cons_self)]
  · exact h.baseAddr

theorem Separate.tail (h : Separate base stack stackSize (p :: ps)) :
    Separate base stack stackSize ps where
  aligned := h.aligned
  proper q hq := h.proper q (List.mem_cons_of_mem _ hq)
  apart := (List.pairwise_cons.mp h.apart).2
  stack q hq := h.stack q (List.mem_cons_of_mem _ hq)

theorem loaded_foldl (hs : List Phdr)
    (hsep : Separate base stack stackSize (hs.filter fun p => p.type = ptLoad ∧ p.filesz ≠ 0))
    (l : Loader) :
    Loaded file base stack stackSize (hs.filter fun p => p.type = ptLoad ∧ p.filesz ≠ 0) l
      (hs.foldl (loadTurn file base stack stackSize) l) := by
  induction hs generalizing l with
  | nil => exact loaded_nil l
  | cons p hs ih =>
    rw [List.foldl_cons]
    by_cases hload : p.type = ptLoad ∧ p.filesz ≠ 0
    · have hturn : loadTurn file base stack stackSize l p = loadSegment file base l p := by
        have hstack : ¬ (stack ≠ 0 ∧ p.type = ptGnuStack) := by
          rw [hload.1]
          exact fun hnull => absurd hnull.2 (by decide)
        have hskip : ¬ (p.type ≠ ptLoad ∨ p.filesz = 0) := by
          rintro (hne | hzero)
          · exact hne hload.1
          · exact hload.2 hzero
        rw [loadTurn, if_neg hstack, if_neg hskip]
      rw [List.filter_cons_of_pos (by simpa using hload)] at hsep ⊢
      rw [hturn]
      exact Loaded.cons hsep (ih hsep.tail _)
    · have hskip : p.type ≠ ptLoad ∨ p.filesz = 0 := by
        by_cases htype : p.type = ptLoad
        · exact .inr (not_not.mp fun hzero => hload ⟨htype, hzero⟩)
        · exact .inl htype
      rw [List.filter_cons_of_neg (by simpa using hload)] at hsep ⊢
      apply (ih hsep _).of_stack
      all_goals
        rw [loadTurn, if_pos hskip]
        split
      · rfl
      · rfl
      · exact fun k hk => if_neg hk
      · exact fun _ _ => rfl
      all_goals rfl

theorem foldl_lowest (hps : ∀ p ∈ ps, wrap64 (base + mapStart p) < noBase) {b : ℕ}
    (hb : b ≤ noBase) :
    ps.foldl (lowest base) b ≤ b ∧
    (∀ p ∈ ps, ps.foldl (lowest base) b ≤ wrap64 (base + mapStart p)) ∧
      (ps.foldl (lowest base) b = b ∨ ∃ p ∈ ps,
      ps.foldl (lowest base) b = wrap64 (base + mapStart p)) := by
  induction ps generalizing b with
  | nil => exact ⟨Nat.le_refl b, fun p hp => (nomatch hp), .inl rfl⟩
  | cons p ps ih =>
    have hp := hps p List.mem_cons_self
    have hmin : lowest base b p = min b (wrap64 (base + mapStart p)) := by
      rw [lowest]
      split
      · omega
      · omega
    obtain ⟨hle, hall, hsome⟩ :=
      ih (fun q hq => hps q (List.mem_cons_of_mem _ hq)) (b := lowest base b p) (by omega)
    rw [List.foldl_cons]
    refine ⟨by omega, fun q hq => ?_, ?_⟩
    · rcases List.mem_cons.mp hq with rfl | hq
      · omega
      · exact hall q hq
    · rcases hsome with hsame | ⟨q, hq, hfold⟩
      · by_cases hlt : b ≤ wrap64 (base + mapStart p)
        · exact .inl (by omega)
        · exact .inr ⟨p, List.mem_cons_self, by omega⟩
      · exact .inr ⟨q, List.mem_cons_of_mem _ hq, hfold⟩

theorem rights_readable {i prot : ℕ} (hi : ps[i]? = some p) (hread : p.flags &&& 4 ≠ 0) :
    rights prot (ps.take (i + 1)) = addRights 0 p.flags := by
  have hlast : rights prot (ps.take (i + 1)) = addRights (rights prot (ps.take i)) p.flags := by
    rw [List.take_add_one, hi]
    exact List.foldl_append
  rw [hlast, addRights, addRights, if_pos hread, if_pos hread]

def loadBase (anywhere : ℕ) (file : Mem) : ℕ := if eType file = etDyn then anywhere else 0

structure Mapped (file : Mem) (base stack stackSize : ℕ) (s s' : Space) : Prop where
  bytes : ∀ p ∈ loads file, ∀ i < p.filesz, s'.mem (base + p.vaddr + i) = file (p.offset + i)
  zeros : ∀ p ∈ loads file, ∀ a, Page base p (a / 4096) →
    a < base + p.vaddr ∨ base + p.vaddr + p.filesz ≤ a → s'.mem a = 0
  outside : ∀ a, (∀ p ∈ loads file, ¬ Page base p (a / 4096)) → s'.mem a = s.mem a
  readable : ∀ p ∈ loads file, p.flags &&& 4 ≠ 0 → ∀ k, Page base p k →
    s'.prot k = some (addRights 0 p.flags)
  allowed : ∀ i p, (loads file)[i]? = some p → ∀ k, Page base p k →
    s'.prot k = some (rights 0 ((loads file).take (i + 1)))
  others : ∀ k, (∀ p ∈ loads file, ¬ Page base p k) → ¬ Covers stack stackSize k →
    s'.prot k = s.prot k

theorem mapped_of_loaded (hsep : Separate base stack stackSize (loads file))
    (h : Loaded file base stack stackSize (loads file) l l') (helf : l.elfProt = 0) :
    Mapped file base stack stackSize l.space l'.space where
  bytes p hp i hi := by
    have hsizes := (hsep.proper p hp).sizes
    have hpage : Page base p ((base + p.vaddr + i) / 4096) := by
      unfold Page
      omega
    have hin : base + p.vaddr ≤ base + p.vaddr + i ∧
      base + p.vaddr + i < base + p.vaddr + p.filesz := by omega
    rw [h.inside p hp _ hpage, content, if_pos hin, Nat.add_sub_cancel_left]
  zeros p hp a ha hout := by
    rw [h.inside p hp a ha, content, if_neg (by omega)]
  outside := h.outside
  readable p hp hread k hk := by
    obtain ⟨i, hi⟩ := List.getElem?_of_mem hp
    rw [h.allowed i p hi k hk, rights_readable hi hread]
  allowed := helf ▸ h.allowed
  others := h.others

/-- Every file whose segments have pages of their own is in memory afterwards, with its lowest page
and its entry; a segment that cannot be read has the rights of those before it as well. -/
theorem elfLoad_maps (anywhere : ℕ) (file : Mem) (stack stackSize : ℕ) (s : Space)
    (hsep : Separate (loadBase anywhere file) stack stackSize (loads file)) :
    Mapped file (loadBase anywhere file) stack stackSize s
    (elfLoad anywhere file stack stackSize s).1 ∧
    (loads file = [] ∧ (elfLoad anywhere file stack stackSize s).2.1 = noBase ∨
      ∃ p ∈ loads file, (elfLoad anywhere file stack stackSize s).2.1 =
          (loadBase anywhere file + p.vaddr) / 4096 * 4096 ∧
        ∀ q ∈ loads file, p.vaddr / 4096 ≤ q.vaddr / 4096) ∧
    (elfLoad anywhere file stack stackSize s).2.2 = wrap64
    (loadBase anywhere file + eEntry file) := by
  have hloaded : Loaded file (loadBase anywhere file) stack stackSize (loads file) ⟨s, 0, 0, noBase⟩
      ((phdrs file).foldl (loadTurn file (loadBase anywhere file) stack stackSize)
          ⟨s, 0, 0, noBase⟩) :=
    loaded_foldl (phdrs file) hsep _
  have hstart : ∀ p ∈ loads file, wrap64 (loadBase anywhere file + mapStart p) =
      (loadBase anywhere file + p.vaddr) / 4096 * 4096 := fun p hp => by
    obtain ⟨heq, hle⟩ := mapStart_eq p
    have htop := (hsep.proper p hp).top
    have haligned := hsep.aligned
    unfold wrap64
    omega
  have hlt : ∀ p ∈ loads file, wrap64 (loadBase anywhere file + mapStart p) < noBase :=
      fun p hp => by
    have htop := (hsep.proper p hp).top
    rw [hstart p hp]
    unfold noBase
    omega
  obtain ⟨-, hall, hsome⟩ := foldl_lowest hlt (Nat.le_refl noBase)
  refine ⟨mapped_of_loaded hsep hloaded rfl, ?_, rfl⟩
  rw [show (elfLoad anywhere file stack stackSize s).2.1 =
    (loads file).foldl (lowest (loadBase anywhere file)) noBase from hloaded.baseAddr]
  by_cases hnone : loads file = []
  · left
    rw [hnone]
    exact ⟨rfl, rfl⟩
  · right
    obtain ⟨q, hq⟩ := List.exists_mem_of_ne_nil _ hnone
    rcases hsome with hsame | ⟨p, hp, hfold⟩
    · have hbelow := hall q hq
      have hqlt := hlt q hq
      omega
    · refine ⟨p, hp, hfold.trans (hstart p hp), fun r hr => ?_⟩
      have hle := hall r hr
      have haligned := hsep.aligned
      rw [hfold, hstart p hp, hstart r hr] at hle
      omega

def storePhdr (m : Mem) (a : ℕ) (p : Phdr) : Mem :=
  let m := store64 (store32 (store32 m a p.type) (a + 4) p.flags) (a + 8) p.offset
  store64 (store64 (store64 m (a + 16) p.vaddr) (a + 32) p.filesz) (a + 40) p.memsz

/-- Code in one page and variables in the next, 16 bytes of 48 in the file, and a stack that is not
executable. -/
def smallFile : Mem :=
  let m : Mem := store64 (store64 (fun _ => 7) 16 2) 24 0x401018
  let m := storePhdr (store32 (store64 m 32 64) 56 3) 64 ⟨ptLoad, 5, 0x100, 0x401010, 32, 32⟩
  storePhdr (storePhdr m 120 ⟨ptGnuStack, 6, 0, 0, 0, 0⟩) 176 ⟨ptLoad, 6, 0x120, 0x402030, 16, 48⟩

theorem elfLoad_maps_small :
    Mapped smallFile 0 0x7F000000 4096 ⟨fun _ => 1, fun _ => none⟩
      (elfLoad 0 smallFile 0x7F000000 4096 ⟨fun _ => 1, fun _ => none⟩).1 := by
  have hbase : loadBase 0 smallFile = 0 := by decide +kernel
  have hloads : loads smallFile =
      [⟨ptLoad, 5, 0x100, 0x401010, 32, 32⟩, ⟨ptLoad, 6, 0x120, 0x402030, 16, 48⟩] := by
    decide +kernel
  have hsep : Separate (loadBase 0 smallFile) 0x7F000000 4096 (loads smallFile) := by
    rw [hbase, hloads]
    refine ⟨rfl, ?_, List.pairwise_pair.mpr ?_, ?_⟩
    · intro p hp
      rcases List.mem_cons.mp hp with rfl | hp
      · exact ⟨by decide, by decide, by decide⟩
      · rw [List.mem_singleton.mp hp]
        exact ⟨by decide, by decide, by decide⟩
    · intro k hcode hvariables
      simp only [Page] at hcode hvariables
      omega
    · intro p hp k hk
      unfold Covers pageSize
      rcases List.mem_cons.mp hp with rfl | hp
      · simp only [Page] at hk
        omega
      · rw [List.mem_singleton.mp hp] at hk
        simp only [Page] at hk
        omega
  have hmaps := (elfLoad_maps 0 smallFile 0x7F000000 4096 ⟨fun _ => 1, fun _ => none⟩ hsep).1
  rw [hbase] at hmaps
  exact hmaps

end Unos.ElfLoader
