import Unos.Library.X86
import Unos.Vmm.Kernel

namespace Unos.Vmm

open Unos.Words Unos.ByteMemory
open Unos.X86 (Reg Dword pushaOrder)

def pageDir : ℕ := 0x9C000

def pageTable0 : ℕ := 0x9D000

def pageTable768 : ℕ := 0x9E000

def pageTableEntries : ℕ := 1024

def priv : ℕ := 3

/-- Memory as the processor sees it: `cr3`, and bit 31 of `cr0`. -/
structure Mmu where
  mem : Mem
  cr3 : ℕ
  paging : Bool

/-- A store faults when paging is on and its page is missing. -/
def Mmu.store (p : Mmu) (a v : ℕ) : Option Mmu :=
  if p.paging then
    (walk p.mem p.cr3 (a / 4096)).map fun f =>
      { p with mem := store32 p.mem (4096 * f + a % 4096) v }
  else some { p with mem := store32 p.mem a v }

def fillTable : ℕ → Mmu → ℕ → ℕ → Option Mmu
  | 0, p, _, _ => some p
  | ecx + 1, p, eax, ebx => (p.store eax ebx).bind fun p => fillTable ecx p (eax + 4) (ebx + 4096)

/-- What `EnablePaging` does to the tables. The last table is filled when paging is on already, so
that its words are found through the other two. -/
def mapTables (p : Mmu) : Option Mmu := do
  let p ← fillTable pageTableEntries p pageTable0 (0x0 ||| priv)
  let p ← p.store pageDir (pageTable0 ||| priv)
  let p ← p.store (pageDir + 768 * 4) (pageTable768 ||| priv)
  fillTable pageTableEntries { p with cr3 := pageDir, paging := true } pageTable768
    (0x000000 ||| priv)

def Mmu.load (p : Mmu) (a : ℕ) : Option ℕ :=
  if p.paging then (walk p.mem p.cr3 (a / 4096)).map fun f => load32 p.mem (4096 * f + a % 4096)
  else some (load32 p.mem a)

structure BootCpu where
  mmu : Mmu
  reg : Reg → Dword
  eip : Dword

namespace BootCpu

def esp (c : BootCpu) : ℕ := (c.reg .esp).toNat

def push (c : BootCpu) (v : Dword) : Option BootCpu :=
  (c.mmu.store (c.reg .esp - 4).toNat v.toNat).map fun p =>
    { c with mmu := p, reg := Function.update c.reg .esp (c.reg .esp - 4) }

def pusha (c : BootCpu) : Option BootCpu := (pushaOrder.map c.reg).foldlM push c

/-- The double words of the stack, from its top. -/
def word (c : BootCpu) (n : ℕ) : Option Dword :=
  (c.mmu.load (c.reg .esp + BitVec.ofNat 32 (4 * n)).toNat).map (BitVec.ofNat 32)

/-- `esp` is not popped. -/
def popa (c : BootCpu) : Option BootCpu :=
  ((List.range 8).mapM c.word).map fun ws =>
    { c with
      reg := fun r =>
        if r = .esp then c.reg .esp + 32 else ws.getD (pushaOrder.reverse.idxOf r) 0 }

def ret (c : BootCpu) : Option BootCpu :=
  (c.word 0).map fun a =>
    { c with eip := a, reg := Function.update c.reg .esp (c.reg .esp + 4) }

end BootCpu

def enablePaging (c : BootCpu) : Option BootCpu := do
  let c ← c.pusha
  let p ← mapTables c.mmu
  let c ← { c with mmu := p }.popa
  c.ret

structure StackRoom (esp : ℕ) : Prop where
  aligned : esp % 4 = 0
  low : 32 ≤ esp
  high : esp + 4 ≤ 0x400000
  apart : esp + 4 ≤ pageDir ∨ pageTable768 + 4096 + 32 ≤ esp

/-- What a loop does to memory when every store arrives where it says. -/
def words : ℕ → Mem → ℕ → ℕ → Mem
  | 0, m, _, _ => m
  | n + 1, m, a, v => words n (store32 m a v) (a + 4) (v + 4096)

variable {m : Mem} {p : Mmu} {a b i j k n t v x : ℕ}

theorem words_of_outside (h : x < a ∨ a + 4 * n ≤ x) : words n m a v x = m x := by
  induction n generalizing m a v with
  | zero => rfl
  | succ n ih => rw [words, ih (by omega), store32_of_outside (by omega)]

theorem entry_words_of_frame_ne (ha : a % 4096 = 0) (hb : b % 4096 = 0) (hne : b ≠ a)
    (hn : n ≤ 1024) (hj : j < 1024) : entry (words n m a v) b j = entry m b j :=
  load32_congr fun _ h1 h2 => words_of_outside (by omega)

theorem entry_words (hi : i + n ≤ 1024) : entry (words n m (t + 4 * i) (4096 * i + 3)) t j =
    if i ≤ j ∧ j < i + n then 4096 * j + 3 else entry m t j := by
  induction n generalizing m i with
  | zero => rw [words, if_neg (by omega)]
  | succ n ih =>
    rw [words, show t + 4 * i + 4 = t + 4 * (i + 1) by omega,
      show 4096 * i + 3 + 4096 = 4096 * (i + 1) + 3 by omega, ih (by omega)]
    by_cases hji : j = i
    · rw [hji, if_neg (by omega), if_pos (by omega), entry_store (by omega)]
    · rw [entry_store_of_ne hji]
      split_ifs <;> first | rfl | omega

theorem entry_words_table (hn : n ≤ 1024) (hj : j < n) :
    entry (words n m t 3) t j = 4096 * j + 3 := by
  have hwords := entry_words (m := m) (t := t) (i := 0) (n := n) (j := j) (by omega)
  rw [Nat.mul_zero, Nat.add_zero, Nat.zero_add, Nat.zero_add, if_pos ⟨Nat.zero_le j, hj⟩] at hwords
  exact hwords

theorem store_off (h : p.paging = false) (a v : ℕ) :
    p.store a v = some { p with mem := store32 p.mem a v } := by
  rw [Mmu.store, h]
  rfl

theorem fillTable_off (h : p.paging = false) (n a v : ℕ) :
    fillTable n p a v = some { p with mem := words n p.mem a v } := by
  induction n generalizing p a v with
  | zero => rfl
  | succ n ih =>
    rw [fillTable, store_off h, Option.bind_some]
    exact ih (p := { p with mem := store32 p.mem a v }) h _ _

def Mmu.Reaches (p : Mmu) : Prop :=
  p.paging = true ∧ p.cr3 = pageDir ∧ entry p.mem pageDir 0 = pageTable0 + 3 ∧
    entry p.mem pageTable0 158 = pageTable768 + 3

theorem Mmu.Reaches.store (h : p.Reaches) (hi : i < 1024) (v : ℕ) :
    p.store (pageTable768 + 4 * i) v = some
    { p with mem := store32 p.mem (pageTable768 + 4 * i) v } := by
  obtain ⟨hon, hcr3, hpde, hpte⟩ := h
  have hpage : (pageTable768 + 4 * i) / 4096 = 158 := by
    unfold pageTable768
    omega
  have hodd : (pageTable0 + 3) % 2 = 1 := rfl
  have htable : tableOf (pageTable0 + 3) = pageTable0 := rfl
  have hentry : pteOf p.mem pageDir 158 = pageTable768 + 3 := by
    rw [pteOf, pdeOf, show 158 / 1024 = 0 from rfl, hpde, if_pos hodd, htable]
    exact hpte
  have hwalk : walk p.mem p.cr3 ((pageTable768 + 4 * i) / 4096) = some 158 := by
    rw [hpage, hcr3, walk, hentry]
    rfl
  have hsame : 4096 * 158 + (pageTable768 + 4 * i) % 4096 = pageTable768 + 4 * i := by
    unfold pageTable768
    omega
  rw [Mmu.store, if_pos hon, hwalk, Option.map_some, hsame]

theorem Mmu.Reaches.keep (h : p.Reaches) (hi : i < 1024) (v : ℕ) :
    Mmu.Reaches { p with mem := store32 p.mem (pageTable768 + 4 * i) v } := by
  obtain ⟨hon, hcr3, hpde, hpte⟩ := h
  refine ⟨hon, hcr3, ?_, ?_⟩
  · rw [← hpde]
    exact entry_store_of_frame_ne (by decide) (by decide) (by decide) hi (by decide)
  · rw [← hpte]
    exact entry_store_of_frame_ne (by decide) (by decide) (by decide) hi (by decide)

theorem fillTable_on (h : p.Reaches) (hi : i + n ≤ 1024) (v : ℕ) :
    fillTable n p (pageTable768 + 4 * i) v =
      some { p with mem := words n p.mem (pageTable768 + 4 * i) v } := by
  induction n generalizing p i v with
  | zero => rfl
  | succ n ih =>
    rw [fillTable, h.store (by omega), Option.bind_some,
      show pageTable768 + 4 * i + 4 = pageTable768 + 4 * (i + 1) by omega,
        ih (h.keep (by omega) v) (by omega)]
    rfl

def pagingMemory (m : Mem) : Mem :=
  store32 (store32 (words pageTableEntries m pageTable0 3) pageDir (pageTable0 + 3))
    (pageDir + 3072) (pageTable768 + 3)

def bootMemory (m : Mem) : Mem := words pageTableEntries (pagingMemory m) pageTable768 3

theorem entries_le : pageTableEntries ≤ 1024 := Nat.le_refl 1024

theorem entry_pagingMemory_dir (m : Mem) (hj : j < 1024) : entry (pagingMemory m) pageDir j =
    if j = 0 then pageTable0 + 3 else if j = 768 then pageTable768 + 3 else entry m pageDir j := by
  have hfirst : entry (words pageTableEntries m pageTable0 3) pageDir j = entry m pageDir j :=
    entry_words_of_frame_ne (by decide) (by decide) (by decide) entries_le hj
  rw [pagingMemory, show pageDir + 3072 = pageDir + 4 * 768 from rfl]
  by_cases h768 : j = 768
  · rw [h768, entry_store (by decide), if_neg (by decide), if_pos rfl]
  · rw [entry_store_of_ne h768, if_neg h768]
    by_cases h0 : j = 0
    · rw [h0, if_pos rfl]
      exact entry_store (i := 0) (by decide)
    · rw [if_neg h0, ← hfirst]
      exact entry_store_of_ne (i := 0) h0

theorem entry_pagingMemory_low (m : Mem) (hj : j < 1024) :
    entry (pagingMemory m) pageTable0 j = 4096 * j + 3 := by
  have hfirst : entry (words pageTableEntries m pageTable0 3) pageTable0 j = 4096 * j + 3 :=
    entry_words_table entries_le hj
  rw [← hfirst]
  apply load32_congr
  intro x h1 h2
  unfold pageTable0 at h1
  rw [pagingMemory, store32_of_outside (by unfold pageDir; omega),
    store32_of_outside (by unfold pageDir; omega)]

theorem entry_bootMemory_of_frame_ne (hb : b % 4096 = 0) (hne : b ≠ pageTable768) (hj : j < 1024) :
    entry (bootMemory m) b j = entry (pagingMemory m) b j :=
  entry_words_of_frame_ne (by decide) hb hne entries_le hj

theorem entry_bootMemory_high (m : Mem) (hj : j < 1024) :
    entry (bootMemory m) pageTable768 j = 4096 * j + 3 :=
  entry_words_table entries_le hj

theorem bootMemory_of_outside (h : x < pageDir ∨ pageTable768 + 4096 ≤ x) :
    bootMemory m x = m x := by
  unfold pageDir pageTable768 at h
  have h0 : x < pageDir ∨ pageDir + 4 ≤ x := by
    unfold pageDir
    omega
  have h768 : x < pageDir + 3072 ∨ pageDir + 3072 + 4 ≤ x := by
    unfold pageDir
    omega
  have hlow : x < pageTable0 ∨ pageTable0 + 4 * pageTableEntries ≤ x := by
    unfold pageTableEntries pageTable0
    omega
  have hhigh : x < pageTable768 ∨ pageTable768 + 4 * pageTableEntries ≤ x := by
    unfold pageTableEntries pageTable768
    omega
  rw [bootMemory, words_of_outside hhigh, pagingMemory, store32_of_outside h768,
    store32_of_outside h0, words_of_outside hlow]

theorem reaches_pagingMemory (m : Mem) : Mmu.Reaches ⟨pagingMemory m, pageDir, true⟩ := by
  refine ⟨rfl, rfl, ?_, ?_⟩
  · rw [entry_pagingMemory_dir m (by decide), if_pos rfl]
  · rw [entry_pagingMemory_low m (by decide)]
    rfl

theorem mapTables_eq (h : p.paging = false) :
    mapTables p = some ⟨bootMemory p.mem, pageDir, true⟩ := by
  have hlast := fillTable_on (i := 0) (reaches_pagingMemory p.mem)
    (Nat.le_trans (Nat.zero_add _).le entries_le) 3
  have hfirst := fillTable_off h pageTableEntries pageTable0 (0x0 ||| priv)
  have hsecond := store_off
    (p := { p with mem := words pageTableEntries p.mem pageTable0 (0x0 ||| priv) }) h
    pageDir (pageTable0 ||| priv)
  have hthird := store_off (p := { p with
    mem := store32 (words pageTableEntries p.mem pageTable0 (0x0 ||| priv)) pageDir
      (pageTable0 ||| priv) }) h
    (pageDir + 768 * 4) (pageTable768 ||| priv)
  simp only [mapTables, bind]
  rw [hfirst, Option.bind_some, hsecond, Option.bind_some, hthird, Option.bind_some]
  exact hlast

def Window (page : ℕ) : Prop := page < 1024 ∨ 0xC0000 ≤ page ∧ page < 0xC0400

theorem pteOf_bootMemory (m : Mem) {page : ℕ} (hwindow : Window page) :
    pteOf (bootMemory m) pageDir page = 4096 * (page % 1024) + 3 := by
  have hdir : ∀ j < 1024, entry (bootMemory m) pageDir j = entry (pagingMemory m) pageDir j :=
    fun j hj => entry_bootMemory_of_frame_ne (by decide) (by decide) hj
  have hmod : page % 1024 < 1024 := Nat.mod_lt _ (by decide)
  rcases hwindow with hlow | hhigh
  · have hindex : page / 1024 = 0 := by omega
    have hpde : pdeOf (bootMemory m) pageDir page = pageTable0 + 3 := by
      rw [pdeOf, hindex, hdir 0 (by decide), entry_pagingMemory_dir m (by decide), if_pos rfl]
    have hodd : (pageTable0 + 3) % 2 = 1 := rfl
    have htable : tableOf (pageTable0 + 3) = pageTable0 := rfl
    rw [pteOf, hpde, if_pos hodd, htable, entry_bootMemory_of_frame_ne (by decide) (by decide) hmod]
    exact entry_pagingMemory_low m hmod
  · have hindex : page / 1024 = 768 := by omega
    have hpde : pdeOf (bootMemory m) pageDir page = pageTable768 + 3 := by
      rw [pdeOf, hindex, hdir 768 (by decide), entry_pagingMemory_dir m (by decide),
        if_neg (by decide), if_pos rfl]
    have hodd : (pageTable768 + 3) % 2 = 1 := rfl
    have htable : tableOf (pageTable768 + 3) = pageTable768 := rfl
    rw [pteOf, hpde, if_pos hodd, htable]
    exact entry_bootMemory_high m hmod

theorem walk_bootMemory (m : Mem) {page : ℕ} (hwindow : Window page) :
    walk (bootMemory m) pageDir page = some (page % 1024) := by
  have hodd : (4096 * (page % 1024) + 3) % 2 = 1 := by omega
  have hframe : (4096 * (page % 1024) + 3) / 4096 = page % 1024 := by omega
  rw [walk, pteOf_bootMemory m hwindow, if_pos hodd, hframe]

theorem Initial.walk_window {σ : Type} {A : FrameSource σ} {s : State σ} {it kt page : ℕ}
    (h : Initial A s it kt) (hwindow : Window page) :
    walk s.mem s.kpageDir page = some (page % 1024) := by
  have hpte : Vmm.pteOf s.mem s.kpageDir page = 4096 * (page % 1024) + 7 := by
    have hpage : page < 1048576 := by
      unfold Window at hwindow
      omega
    rw [h.pteOf hpage]
    rcases hwindow with hlow | hhigh
    · rw [if_pos hlow, Nat.mod_eq_of_lt hlow]
    · rw [if_neg (by omega), if_pos hhigh]
      omega
  have hodd : (4096 * (page % 1024) + 7) % 2 = 1 := by omega
  have hframe : (4096 * (page % 1024) + 7) / 4096 = page % 1024 := by omega
  rw [walk, hpte, if_pos hodd, hframe]

-- what follows never runs the loops
attribute [irreducible] bootMemory

/-- Memory with words pushed below `n`. -/
def pushed : Mem → ℕ → List Dword → Mem
  | m, _, [] => m
  | m, n, v :: vs => pushed (store32 m (n - 4) v.toNat) (n - 4) vs

theorem pushed_of_outside {vs : List Dword} (hlen : 4 * vs.length ≤ n)
    (h : x < n - 4 * vs.length ∨ n ≤ x) : pushed m n vs x = m x := by
  induction vs generalizing m n with
  | nil => rfl
  | cons v vs ih =>
    rw [List.length_cons] at hlen h
    rw [pushed, ih (by omega) (by omega), store32_of_outside (by omega)]

theorem load32_pushed {vs : List Dword} (hlen : 4 * vs.length ≤ n) {v : Dword}
    (h : vs[i]? = some v) : load32 (pushed m n vs) (n - 4 * (i + 1)) = v.toNat := by
  induction vs generalizing m n i with
  | nil => cases h
  | cons u vs ih =>
    rw [List.length_cons] at hlen
    cases i with
    | zero =>
      obtain rfl : u = v := Option.some.inj h
      have hkeep : load32 (pushed (store32 m (n - 4) u.toNat) (n - 4) vs) (n - 4) =
          load32 (store32 m (n - 4) u.toNat) (n - 4) :=
        load32_congr fun x h1 h2 => pushed_of_outside (by omega) (Or.inr h1)
      rw [Nat.zero_add, Nat.mul_one, pushed, hkeep, load32_store32 m u.isLt]
    | succ i =>
      have hrest := ih (m := store32 m (n - 4) u.toNat) (n := n - 4) (by omega) h
      rw [pushed, ← hrest]
      congr 1
      omega

variable {c d : BootCpu}

def BootCpu.pushes (c : BootCpu) (vs : List Dword) : BootCpu where
  mmu := ⟨pushed c.mmu.mem c.esp vs, c.mmu.cr3, c.mmu.paging⟩
  reg := Function.update c.reg .esp (c.reg .esp - BitVec.ofNat 32 (4 * vs.length))
  eip := c.eip

theorem esp_pushes {vs : List Dword} (h : 4 * vs.length ≤ c.esp) :
    (c.pushes vs).esp = c.esp - 4 * vs.length := by
  have hlt : c.esp < 4294967296 := (c.reg .esp).isLt
  rw [BootCpu.esp, BootCpu.pushes]
  dsimp only
  rw [Function.update_self, BitVec.toNat_sub, BitVec.toNat_ofNat, ← BootCpu.esp]
  omega

theorem pushes_cons {v : Dword} {vs : List Dword} (h : 4 ≤ c.esp) :
    (c.pushes [v]).pushes vs = c.pushes (v :: vs) := by
  have hesp : (c.pushes [v]).esp = c.esp - 4 * [v].length := esp_pushes h
  have hreg : (c.pushes [v]).reg .esp - BitVec.ofNat 32 (4 * vs.length) =
      c.reg .esp - BitVec.ofNat 32 (4 * (v :: vs).length) := by
    have hone : (c.pushes [v]).reg .esp = c.reg .esp - 4 := by
      rw [BootCpu.pushes]
      exact Function.update_self Reg.esp (c.reg .esp - BitVec.ofNat 32 4) c.reg
    rw [List.length_cons, Nat.mul_succ, Nat.add_comm, BitVec.ofNat_add, ← BitVec.sub_sub, hone]
    rfl
  rw [BootCpu.pushes, hesp, hreg]
  exact congrArg (BootCpu.mk _ · _) (Function.update_idem _ _ _)

theorem push_off (hoff : c.mmu.paging = false) (h : 4 ≤ c.esp) (v : Dword) :
    c.push v = some (c.pushes [v]) := by
  have hesp : (c.reg .esp - 4).toNat = c.esp - 4 := by
    have hle : (4 : Dword) ≤ c.reg .esp := BitVec.le_def.mpr h
    rw [BitVec.toNat_sub_of_le hle]
    rfl
  rw [BootCpu.push, store_off hoff, hesp]
  rfl

theorem pushes_off (vs : List Dword) (hoff : c.mmu.paging = false) (h : 4 * vs.length ≤ c.esp) :
    vs.foldlM BootCpu.push c = some (c.pushes vs) := by
  induction vs generalizing c with
  | nil =>
    have hsame : c.pushes [] = c := by
      rw [BootCpu.pushes, List.length_nil, Nat.mul_zero, BitVec.sub_zero, Function.update_eq_self]
      rfl
    rw [hsame]
    rfl
  | cons v vs ih =>
    rw [List.length_cons] at h
    have hroom : 4 * vs.length ≤ (c.pushes [v]).esp := by
      rw [esp_pushes (by rw [List.length_singleton]; omega), List.length_singleton]
      omega
    rw [List.foldlM_cons, push_off hoff (by omega) v]
    exact (ih (c := c.pushes [v]) hoff hroom).trans (congrArg some (pushes_cons (by omega)))

theorem word_on (hmem : c.mmu.mem = bootMemory m) (hcr3 : c.mmu.cr3 = pageDir)
    (hon : c.mmu.paging = true) (haligned : c.esp % 4 = 0) (hroom : c.esp + 4 * n + 4 ≤ 0x400000) :
    c.word n = some (BitVec.ofNat 32 (load32 c.mmu.mem (c.esp + 4 * n))) := by
  have hlt : c.esp < 4294967296 := (c.reg .esp).isLt
  have haddr : (c.reg .esp + BitVec.ofNat 32 (4 * n)).toNat = c.esp + 4 * n := by
    rw [BitVec.toNat_add, BitVec.toNat_ofNat, ← BootCpu.esp]
    omega
  have hwindow : Window ((c.esp + 4 * n) / 4096) := Or.inl (by omega)
  have hmod : (c.esp + 4 * n) / 4096 % 1024 = (c.esp + 4 * n) / 4096 := by omega
  have hsame : 4096 * ((c.esp + 4 * n) / 4096) + (c.esp + 4 * n) % 4096 = c.esp + 4 * n := by omega
  rw [BootCpu.word, haddr, Mmu.load, if_pos hon, hcr3, hmem, walk_bootMemory m hwindow, hmod,
    Option.map_some, Option.map_some, hsame]

theorem popa_eq {reg : Reg → Dword}
    (h : ∀ k v, (pushaOrder.reverse.map reg)[k]? = some v → c.word k = some v) :
    c.popa = some { c with reg := Function.update reg .esp (c.reg .esp + 32) } := by
  have hwords : (List.range 8).mapM c.word = some (pushaOrder.reverse.map reg) := by
    have h0 := h 0 _ rfl
    have h1 := h 1 _ rfl
    have h2 := h 2 _ rfl
    have h3 := h 3 _ rfl
    have h4 := h 4 _ rfl
    have h5 := h 5 _ rfl
    have h6 := h 6 _ rfl
    have h7 := h 7 _ rfl
    have hrange : List.range 8 = [0, 1, 2, 3, 4, 5, 6, 7] := by decide
    simp only [hrange, List.mapM_cons, List.mapM_nil, h0, h1, h2, h3, h4, h5, h6, h7]
    rfl
  rw [BootCpu.popa, hwords, Option.map_some]
  congr 2
  funext r
  cases r <;> rfl

theorem load32_pusha {reg : Reg → Dword} {n k : ℕ} (hroom : 32 ≤ n) {v : Dword}
    (h : (pushaOrder.reverse.map reg)[k]? = some v) :
    load32 (pushed m n (pushaOrder.map reg)) (n - 32 + 4 * k) = v.toNat := by
  have hlen : (pushaOrder.map reg).length = 8 := rfl
  have hk : k < 8 := by
    obtain ⟨hk, -⟩ := List.getElem?_eq_some_iff.mp h
    exact hk
  have hflip : (pushaOrder.map reg)[7 - k]? = some v := by
    rw [List.map_reverse, List.getElem?_reverse (by omega), hlen] at h
    exact h
  have haddr : n - 32 + 4 * k = n - 4 * (7 - k + 1) := by omega
  rw [haddr]
  exact load32_pushed (by omega) hflip

def bootResult (c : BootCpu) : BootCpu where
  mmu := ⟨bootMemory (pushed c.mmu.mem c.esp (pushaOrder.map c.reg)), pageDir, true⟩
  reg := Function.update c.reg .esp (c.reg .esp + 4)
  eip := BitVec.ofNat 32 (load32 c.mmu.mem c.esp)

theorem load32_stack (h : StackRoom n) (hk : k ≤ 8) :
    load32 (bootMemory m) (n - 32 + 4 * k) = load32 m (n - 32 + 4 * k) := by
  obtain ⟨-, hlow, -, hapart⟩ := h
  exact load32_congr fun x h1 h2 => bootMemory_of_outside (by omega)

theorem popa_pusha {reg : Reg → Dword} (h : StackRoom n) (hcr3 : d.mmu.cr3 = pageDir)
    (hon : d.mmu.paging = true) (hmem : d.mmu.mem = bootMemory (pushed m n (pushaOrder.map reg)))
    (hesp : d.esp = n - 32) (hback : d.reg .esp + 32 = reg .esp) :
    d.popa = some { d with reg := reg } := by
  have hlow := h.low
  have hhigh := h.high
  have haligned := h.aligned
  have hword : ∀ k v, (pushaOrder.reverse.map reg)[k]? = some v → d.word k = some v := by
    intro k v hk
    have hlt : k < 8 := (List.getElem?_eq_some_iff.mp hk).1
    rw [word_on hmem hcr3 hon (by omega) (by omega), hmem, hesp, load32_stack h (by omega),
      load32_pusha hlow hk, BitVec.ofNat_toNat, BitVec.setWidth_eq]
  rw [popa_eq hword, hback, Function.update_eq_self]

theorem ret_pusha {reg : Reg → Dword} (h : StackRoom n) (hcr3 : d.mmu.cr3 = pageDir)
    (hon : d.mmu.paging = true) (hmem : d.mmu.mem = bootMemory (pushed m n (pushaOrder.map reg)))
    (hesp : d.esp = n) :
    d.ret = some { d with
      eip := BitVec.ofNat 32 (load32 m n)
      reg := Function.update d.reg .esp (d.reg .esp + 4) } := by
  have hlow := h.low
  have hhigh := h.high
  have haligned := h.aligned
  have htop : n - 32 + 4 * 8 = n := by omega
  have hkept : load32 (pushed m n (pushaOrder.map reg)) n = load32 m n :=
    load32_congr fun x h1 h2 => pushed_of_outside hlow (Or.inr h1)
  have hbuilt := load32_stack (m := pushed m n (pushaOrder.map reg)) h (Nat.le_refl 8)
  rw [htop, hkept] at hbuilt
  rw [BootCpu.ret, word_on hmem hcr3 hon (by omega) (by omega), Nat.mul_zero, Nat.add_zero, hesp,
    hmem, hbuilt, Option.map_some]

theorem enablePaging_eq (hoff : c.mmu.paging = false) (h : StackRoom c.esp) :
    enablePaging c = some (bootResult c) := by
  have hpusha : c.pusha = some (c.pushes (pushaOrder.map c.reg)) :=
    pushes_off (pushaOrder.map c.reg) hoff h.low
  have hmap : mapTables (c.pushes (pushaOrder.map c.reg)).mmu = some (bootResult c).mmu :=
    mapTables_eq hoff
  have hback : (c.pushes (pushaOrder.map c.reg)).reg .esp + 32 = c.reg .esp := by
    have hself : (c.pushes (pushaOrder.map c.reg)).reg .esp = c.reg .esp - 32 := by
      rw [BootCpu.pushes]
      exact Function.update_self Reg.esp (c.reg .esp - 32) c.reg
    rw [hself, BitVec.sub_add_cancel]
  have hmem : (bootResult c).mmu.mem =
      bootMemory (pushed c.mmu.mem c.esp (pushaOrder.map c.reg)) := by
    rw [bootResult]
  have hesp : ((c.pushes (pushaOrder.map c.reg)).reg .esp).toNat = c.esp - 32 := esp_pushes h.low
  have hpopa := popa_pusha
    (d := ⟨(bootResult c).mmu, (c.pushes (pushaOrder.map c.reg)).reg, c.eip⟩) h rfl rfl hmem
    hesp hback
  have htop : (c.reg .esp).toNat = c.esp := rfl
  have hret := ret_pusha (d := ⟨(bootResult c).mmu, c.reg, c.eip⟩) h rfl rfl hmem htop
  rw [enablePaging, hpusha]
  simp only [bind, Option.bind_some, hmap]
  exact (congrArg (·.bind BootCpu.ret) hpopa).trans hret

/-- Whatever memory and the registers hold. What the other entries of the directory hold is what was
there, and the kernel changes nothing in the windows when it turns to a directory of its own. -/
theorem enablePaging_windows {c : BootCpu} (hoff : c.mmu.paging = false) (h : StackRoom c.esp) :
    ∃ d, enablePaging c = some d ∧ d.mmu.paging = true ∧
      (∀ r, r ≠ .esp → d.reg r = c.reg r) ∧ d.reg .esp = c.reg .esp + 4 ∧
      d.eip = BitVec.ofNat 32 (load32 c.mmu.mem c.esp) ∧
      (∀ page, Window page → walk d.mmu.mem d.mmu.cr3 page = some (page % 1024)) ∧
      (∀ j < 1024, j ≠ 0 → j ≠ 768 → entry d.mmu.mem d.mmu.cr3 j = entry c.mmu.mem pageDir j) ∧
      (∀ x, x < pageDir ∨ pageTable768 + 4096 ≤ x → x + 32 < c.esp ∨ c.esp ≤ x →
        d.mmu.mem x = c.mmu.mem x) ∧
      ∀ {σ : Type} (A : FrameSource σ) (s : State σ), s.mem = d.mmu.mem → s.kpageDir = 0 →
        (initPaging A s).kpageDir ≠ 0 → ∀ page, Window page →
        walk (initPaging A s).mem (initPaging A s).kpageDir page =
          walk d.mmu.mem d.mmu.cr3 page := by
  have hlen : (pushaOrder.map c.reg).length = 8 := rfl
  have hlow := h.low
  have hapart := h.apart
  unfold pageDir pageTable768 at hapart
  refine ⟨bootResult c, enablePaging_eq hoff h, rfl, fun r hr => ?_, ?_, rfl, fun page hpage => ?_,
    fun j hj h0 h768 => ?_, fun x hx hstack => ?_, fun A s hboot hnone hdone page hpage => ?_⟩
  · rw [bootResult]
    exact Function.update_of_ne hr _ _
  · rw [bootResult]
    exact Function.update_self Reg.esp (c.reg .esp + 4) c.reg
  · exact walk_bootMemory _ hpage
  · have hdir : entry (bootMemory (pushed c.mmu.mem c.esp (pushaOrder.map c.reg))) pageDir j =
        entry (pagingMemory (pushed c.mmu.mem c.esp (pushaOrder.map c.reg))) pageDir j :=
      entry_bootMemory_of_frame_ne (by decide) (by decide) hj
    have hword : entry (pushed c.mmu.mem c.esp (pushaOrder.map c.reg)) pageDir j =
        entry c.mmu.mem pageDir j := by
      refine load32_congr fun x h1 h2 => pushed_of_outside hlow ?_
      rw [hlen]
      unfold pageDir at h1 h2
      omega
    rw [bootResult, hdir, entry_pagingMemory_dir _ hj, if_neg h0, if_neg h768, hword]
  · have hstored : pushed c.mmu.mem c.esp (pushaOrder.map c.reg) x = c.mmu.mem x := by
      refine pushed_of_outside hlow ?_
      rw [hlen]
      omega
    rw [bootResult, ← hstored]
    exact bootMemory_of_outside hx
  · obtain ⟨it, kt, hinit⟩ := initPaging_initial hnone hdone
    rw [hinit.walk_window hpage]
    exact (walk_bootMemory _ hpage).symm

/-- At the `call`, with the multiboot information in `ebx`. -/
def loaderStart : BootCpu where
  mmu := ⟨store32 (fun _ => 0) 0x104FFC 0x10002B, 0, false⟩
  reg := Function.update (Function.update (fun _ => 0) .ebx 0x10000) .esp 0x104FFC
  eip := 0x100200

theorem enablePaging_windows_loader : ∃ d, enablePaging loaderStart = some d ∧
    d.eip = 0x10002B ∧ d.reg .ebx = 0x10000 ∧ d.reg .esp = 0x105000 ∧
    walk d.mmu.mem d.mmu.cr3 0xC0100 = some 0x100 := by
  have hroom : StackRoom loaderStart.esp := ⟨rfl, by decide, by decide, Or.inr (by decide)⟩
  obtain ⟨d, hrun, -, hregs, hesp, heip, hwalk, -⟩ :=
    enablePaging_windows (c := loaderStart) rfl hroom
  refine ⟨d, hrun, ?_, hregs .ebx (by decide), hesp, hwalk 0xC0100 (Or.inr (by decide))⟩
  rw [heip]
  decide +kernel

end Unos.Vmm
