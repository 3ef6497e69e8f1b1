import Unos.Interrupts.Model
import Unos.Library.BitFields
import Unos.Library.X86

namespace Unos.Interrupts

open Unos.BitFields Unos.X86

/-- `idt_flags_t`. -/
structure IdtFlags where
  gateType : ℕ
  d : ℕ
  zero : ℕ
  dpl : ℕ
  p : ℕ

/-- `idt_entry_t` with the values that `idt_set_gate` gives it: the number that its eight bytes
make, the first byte lowest. -/
def idtEntry (base selector : ℕ) (flags : IdtFlags) : ℕ :=
  pack [(16, base % 2 ^ 16), (16, selector), (8, 0), (3, flags.gateType), (1, flags.d),
    (1, flags.zero), (2, flags.dpl), (1, flags.p), (16, base / 2 ^ 16 % 2 ^ 16)]

def idtSetGate (entries : BitVec 8 → ℕ) (idx : BitVec 8) (base selector : ℕ) (flags : IdtFlags) :
    BitVec 8 → ℕ :=
  Function.update entries idx (idtEntry base selector flags)

def idtSelector : ℕ := 0x08

def gateFlags : IdtFlags where
  gateType := 0x6
  d := 1
  zero := 0
  dpl := 3
  p := 1

structure StubTable where
  isr : ℕ → ℕ
  irq : ℕ → ℕ

def initIdt (t : StubTable) : BitVec 8 → ℕ :=
  let cleared : BitVec 8 → ℕ := fun _ => 0
  let isrs := (List.range 32).foldl
    (fun es n => idtSetGate es (BitVec.ofNat 8 n) (t.isr n) idtSelector gateFlags) cleared
  let irqs := (List.range 16).foldl
    (fun es n => idtSetGate es (BitVec.ofNat 8 (32 + n)) (t.irq n) idtSelector gateFlags) isrs
  idtSetGate irqs 128 (t.isr 128) idtSelector gateFlags

structure GateDescriptor where
  offset : ℕ
  selector : ℕ
  type : ℕ
  system : ℕ
  dpl : ℕ
  deriving DecidableEq

def readGate (n : ℕ) : Option GateDescriptor :=
  if field n 47 1 = 1 then
    some {
      offset := field n 0 16 + 2 ^ 16 * field n 48 16
      selector := field n 16 16
      type := field n 40 4
      system := field n 44 1
      dpl := field n 45 2 }
  else none

/-- `gdt_access_t`. -/
structure GdtAccess where
  type : ℕ
  dt : ℕ
  dpl : ℕ
  p : ℕ

abbrev gdtEntrySize : ℕ := 6

/-- `gdt_entry_t` with the values that `gdt_set_entry` gives it. -/
def gdtEntry (base limit : ℕ) (access : GdtAccess) (d g : ℕ) : ℕ :=
  pack [(16, limit % 2 ^ 16), (24, base % 2 ^ 24), (4, access.type), (1, access.dt),
    (2, access.dpl), (1, access.p), (4, limit / 2 ^ 16 % 2 ^ 4), (1, 0), (1, 0), (1, d), (1, g),
      (8, base / 2 ^ 24 % 2 ^ 16)]

abbrev Gdt := Fin gdtEntrySize → ℕ

def gdtSetEntry (entries : Gdt) (idx : ℤ) (base limit : ℕ) (access : GdtAccess) (d g : ℕ) :
    Option Gdt :=
  if h : 0 ≤ idx ∧ idx.toNat < gdtEntrySize then
    some (Function.update entries ⟨idx.toNat, h.2⟩ (gdtEntry base limit access d g))
  else none

def codeAccess (dpl : ℕ) : GdtAccess where
  type := 0x8 ||| 0x2
  dt := 1
  dpl := dpl
  p := 1

def dataAccess (dpl : ℕ) : GdtAccess where
  type := 0 ||| 0x2
  dt := 1
  dpl := dpl
  p := 1

def initGdt (entries : Gdt) : Option Gdt :=
  (gdtSetEntry entries 0 0 0 ⟨0, 0, 0, 0⟩ 0 0).bind fun es =>
  (gdtSetEntry es 1 0 0xFFFFFFFF (codeAccess 0) 1 1).bind fun es =>
  (gdtSetEntry es 2 0 0xFFFFFFFF (dataAccess 0) 1 1).bind fun es =>
  (gdtSetEntry es 3 0 0xFFFFFFFF (codeAccess 3) 1 1).bind fun es =>
  gdtSetEntry es 4 0 0xFFFFFFFF (dataAccess 3) 1 1

def tssSize : ℕ := 104

/-- What `tss_init` does to the table, with the address of `kernel_tss`. -/
def tssInit (entries : Gdt) (idx : ℤ) (kernelTss : ℕ) : Option Gdt :=
  gdtSetEntry entries idx kernelTss ((kernelTss + tssSize) % 2 ^ 32) ⟨9, 0, 3, 1⟩ 0 0

structure SegmentDescriptor where
  base : ℕ
  limit : ℕ
  type : ℕ
  s : ℕ
  dpl : ℕ
  p : ℕ
  db : ℕ
  g : ℕ
  deriving DecidableEq

def readSegment (n : ℕ) : SegmentDescriptor where
  base := field n 16 24 + 2 ^ 24 * field n 56 8
  limit := field n 0 16 + 2 ^ 16 * field n 48 4
  type := field n 40 4
  s := field n 44 1
  dpl := field n 45 2
  p := field n 47 1
  db := field n 54 1
  g := field n 55 1

def SegmentDescriptor.last (s : SegmentDescriptor) : ℕ :=
  if s.g = 1 then s.limit * 4096 + 4095 else s.limit

def segmentOf (d : SegmentDescriptor) : Segment where
  code := decide (d.s = 1 ∧ d.type / 8 % 2 = 1)
  conforming := decide (d.type / 4 % 2 = 1)
  readable := decide (d.s = 1 ∧ (d.type / 8 % 2 = 0 ∨ d.type / 2 % 2 = 1))
  writable := decide (d.s = 1 ∧ d.type / 8 % 2 = 0 ∧ d.type / 2 % 2 = 1)
  dpl := BitVec.ofNat 2 d.dpl
  present := decide (d.p = 1)
  last := d.last

def gdtIndex (sel : Selector) : Option (Fin gdtEntrySize) :=
  if h : sel.toNat / 4 % 2 = 0 ∧ 0 < sel.toNat / 8 ∧ sel.toNat / 8 < gdtEntrySize then
    some ⟨sel.toNat / 8, h.2.2⟩
  else none

def segments (es : Gdt) : Segments := fun sel =>
  (gdtIndex sel).map fun i => segmentOf (readSegment (es i))

theorem readGate_idtEntry (base selector : ℕ) (flags : IdtFlags) :
    readGate (idtEntry base selector flags) = if flags.p % 2 = 1 then
      some {
        offset := base % 2 ^ 32
        selector := selector % 2 ^ 16
        type := flags.gateType % 8 + 8 * (flags.d % 2)
        system := flags.zero % 2
        dpl := flags.dpl % 4 }
    else none := by
  have hp : field (idtEntry base selector flags) 47 1 = flags.p % 2 := field_of_get 7 rfl
  have hlow : field (idtEntry base selector flags) 0 16 = base % 2 ^ 16 % 2 ^ 16 :=
    field_of_get 0 rfl
  have hhigh : field (idtEntry base selector flags) 48 16 = base / 2 ^ 16 % 2 ^ 16 % 2 ^ 16 :=
    field_of_get 8 rfl
  have hselector : field (idtEntry base selector flags) 16 16 = selector % 2 ^ 16 :=
    field_of_get 1 rfl
  have htype : field (idtEntry base selector flags) 40 3 = flags.gateType % 8 := field_of_get 3 rfl
  have hd : field (idtEntry base selector flags) 43 1 = flags.d % 2 := field_of_get 4 rfl
  have hzero : field (idtEntry base selector flags) 44 1 = flags.zero % 2 := field_of_get 5 rfl
  have hdpl : field (idtEntry base selector flags) 45 2 = flags.dpl % 4 := field_of_get 6 rfl
  rw [readGate, hp, hlow, hhigh, hselector, field_add _ 40 3 1, htype, hd, hzero, hdpl, Nat.mod_mod,
    Nat.mod_mod, mod_add_mod]
  rfl

theorem readSegment_gdtEntry (base limit : ℕ) (access : GdtAccess) (d g : ℕ) :
    readSegment (gdtEntry base limit access d g) = {
      base := base % 2 ^ 32
      limit := limit % 2 ^ 20
      type := access.type % 16
      s := access.dt % 2
      dpl := access.dpl % 4
      p := access.p % 2
      db := d % 2
      g := g % 2 } := by
  have hlow : field (gdtEntry base limit access d g) 16 24 = base % 2 ^ 24 % 2 ^ 24 :=
    field_of_get 1 rfl
  have hhigh : field (gdtEntry base limit access d g) 56 8 = base / 2 ^ 24 % 2 ^ 16 % 2 ^ 8 :=
    field_of_get 11 rfl
  have hlimit : field (gdtEntry base limit access d g) 0 16 = limit % 2 ^ 16 % 2 ^ 16 :=
    field_of_get 0 rfl
  have hlimit' : field (gdtEntry base limit access d g) 48 4 = limit / 2 ^ 16 % 2 ^ 4 % 2 ^ 4 :=
    field_of_get 6 rfl
  have htype : field (gdtEntry base limit access d g) 40 4 = access.type % 16 := field_of_get 2 rfl
  have hdt : field (gdtEntry base limit access d g) 44 1 = access.dt % 2 := field_of_get 3 rfl
  have hdpl : field (gdtEntry base limit access d g) 45 2 = access.dpl % 4 := field_of_get 4 rfl
  have hp : field (gdtEntry base limit access d g) 47 1 = access.p % 2 := field_of_get 5 rfl
  have hd : field (gdtEntry base limit access d g) 54 1 = d % 2 := field_of_get 9 rfl
  have hg : field (gdtEntry base limit access d g) 55 1 = g % 2 := field_of_get 10 rfl
  have hsmall : base / 2 ^ 24 % 2 ^ 16 % 2 ^ 8 = base / 2 ^ 24 % 2 ^ 8 :=
    Nat.mod_mod_of_dvd _ (pow_dvd_pow 2 (by decide))
  rw [readSegment, hlow, hhigh, hlimit, hlimit', htype, hdt, hdpl, hp, hd, hg, hsmall, Nat.mod_mod,
    Nat.mod_mod, Nat.mod_mod, mod_add_mod, mod_add_mod]

theorem foldl_idtSetGate (addr : ℕ → ℕ) (b k : ℕ) (h : b + k ≤ 256) (entries : BitVec 8 → ℕ)
    (v : BitVec 8) :
    (List.range k).foldl
        (fun es n => idtSetGate es (BitVec.ofNat 8 (b + n)) (addr n) idtSelector gateFlags) entries
        v =
      if b ≤ v.toNat ∧ v.toNat < b + k then idtEntry (addr (v.toNat - b)) idtSelector gateFlags
      else entries v := by
  induction k with
  | zero => rw [if_neg (by omega)]; rfl
  | succ k ih =>
    rw [List.range_succ, List.foldl_append, List.foldl_cons, List.foldl_nil, idtSetGate]
    have hkey : (BitVec.ofNat 8 (b + k)).toNat = b + k := by
      rw [BitVec.toNat_ofNat]
      omega
    by_cases hv : v.toNat = b + k
    · have heq : v = BitVec.ofNat 8 (b + k) := BitVec.eq_of_toNat_eq (hv.trans hkey.symm)
      rw [heq, Function.update_self, hkey, if_pos (by omega), Nat.add_sub_cancel_left]
    · rw [Function.update_of_ne fun heq => hv (by rw [heq, hkey]), ih (by omega)]
      exact if_congr (by omega) rfl rfl

def StubTable.address (t : StubTable) (v : BitVec 8) : Stub → ℕ
  | .isr => t.isr v.toNat
  | .irq => t.irq (v.toNat - 32)

theorem readGate_zero : readGate 0 = none := by decide

theorem readGate_stub (base : ℕ) : readGate (idtEntry base idtSelector gateFlags) =
    some { offset := base % 2 ^ 32, selector := 0x08, type := 0xE, system := 0, dpl := 3 } :=
  readGate_idtEntry base idtSelector gateFlags

/-- The processor finds the stubs at their vectors and nothing else; every program may use them. -/
theorem readGate_initIdt (t : StubTable) (v : BitVec 8) :
    readGate (initIdt t v) = (gate v).map fun s =>
    { offset := t.address v s % 2 ^ 32, selector := 0x08, type := 0xE, system := 0, dpl := 3 } := by
  have hisr := foldl_idtSetGate t.isr 0 32 (by decide) (fun _ => 0) v
  simp only [Nat.zero_add, Nat.zero_le, true_and, Nat.sub_zero] at hisr
  have hirq := foldl_idtSetGate t.irq 32 16 (by decide) ((List.range 32).foldl
    (fun es n => idtSetGate es (BitVec.ofNat 8 n) (t.isr n) idtSelector gateFlags) fun _ => 0) v
  rw [initIdt, gate]
  by_cases h128 : v = 128
  · subst h128
    rw [idtSetGate, Function.update_self, readGate_stub, if_neg (by decide),
      if_neg (by decide), if_pos rfl]
    rfl
  · rw [idtSetGate, Function.update_of_ne h128, hirq]
    have h32 : v < 32 ↔ v.toNat < 32 := BitVec.lt_def
    have h48 : v < 48 ↔ v.toNat < 48 := BitVec.lt_def
    by_cases hlow : v.toNat < 32
    · rw [if_neg (by omega), hisr, if_pos hlow, readGate_stub, if_pos (h32.mpr hlow)]
      rfl
    · by_cases hmid : v.toNat < 48
      · rw [if_pos (by omega), readGate_stub, if_neg (mt h32.mp hlow), if_pos (h48.mpr hmid)]
        rfl
      · rw [if_neg (by omega), hisr, if_neg hlow, readGate_zero, if_neg (mt h32.mp hlow),
          if_neg (mt h48.mp hmid), if_neg h128]
        rfl

theorem gdtSetEntry_eq (entries : Gdt) (i : Fin gdtEntrySize) (base limit : ℕ)
    (access : GdtAccess) (d g : ℕ) :
    gdtSetEntry entries (i.val : ℤ) base limit access d g =
      some (Function.update entries i (gdtEntry base limit access d g)) :=
  dif_pos ⟨Int.natCast_nonneg i.val, i.isLt⟩

def flat (type dpl : ℕ) : SegmentDescriptor := ⟨0, 0xFFFFF, type, 1, dpl, 1, 1, 1⟩

theorem flat_last (type dpl : ℕ) : (flat type dpl).last = 2 ^ 32 - 1 := by
  rw [SegmentDescriptor.last, flat, if_pos rfl]
  show 0xFFFFF * 4096 + 4095 = 2 ^ 32 - 1
  decide

def tssSegment (kernelTss : ℕ) : SegmentDescriptor where
  base := kernelTss % 2 ^ 32
  limit := (kernelTss + tssSize) % 2 ^ 20
  type := 9
  s := 0
  dpl := 3
  p := 1
  db := 0
  g := 0

theorem readSegment_tss (kernelTss : ℕ) :
    readSegment (gdtEntry kernelTss ((kernelTss + tssSize) % 2 ^ 32) ⟨9, 0, 3, 1⟩ 0 0) =
      tssSegment kernelTss := by
  rw [readSegment_gdtEntry, Nat.mod_mod_of_dvd _ (pow_dvd_pow 2 (by decide : 20 ≤ 32))]
  rfl

theorem initGdt_tssInit (entries : Gdt) (kernelTss : ℕ) : ∃ es,
    ((initGdt entries).bind fun es => tssInit es 5 kernelTss) = some es ∧
    (readSegment (es 0)).p = 0 ∧
      readSegment (es 1) = flat 0xA 0 ∧ readSegment (es 2) = flat 0x2 0 ∧
      readSegment (es 3) = flat 0xA 3 ∧
      readSegment (es 4) = flat 0x2 3 ∧ readSegment (es 5) = tssSegment kernelTss := by
  refine ⟨_, rfl, ?_, ?_, ?_, ?_, ?_, ?_⟩
  · exact congrArg SegmentDescriptor.p (readSegment_gdtEntry 0 0 ⟨0, 0, 0, 0⟩ 0 0)
  · exact readSegment_gdtEntry 0 0xFFFFFFFF (codeAccess 0) 1 1
  · exact readSegment_gdtEntry 0 0xFFFFFFFF (dataAccess 0) 1 1
  · exact readSegment_gdtEntry 0 0xFFFFFFFF (codeAccess 3) 1 1
  · exact readSegment_gdtEntry 0 0xFFFFFFFF (dataAccess 3) 1 1
  · exact readSegment_tss kernelTss

theorem toNat_of_gdtIndex {sel : Selector} {i : Fin gdtEntrySize} (h : gdtIndex sel = some i) :
    0 < i.val ∧ sel.toNat = 8 * i.val + (ring sel).toNat := by
  have hring : (ring sel).toNat = sel.toNat % 4 := BitVec.toNat_setWidth 2 sel
  rw [gdtIndex] at h
  split_ifs at h with hcond
  obtain rfl := Option.some.inj h
  dsimp only
  omega

section Entered

variable {entries es : Gdt} {kernelTss : ℕ}
  (hes : ((initGdt entries).bind fun es => tssInit es 5 kernelTss) = some es)

include hes

/-- What a selector leads to after `init_gdt` and `tss_init`: code at 1 and 3, data at 2 and 4, and
the task state, which is neither, at 5. -/
theorem segments_cases (sel : Selector) :
    segments es sel = none ∨
      (sel.toNat = 8 + (ring sel).toNat ∧
        segments es sel = some ⟨true, false, true, false, 0, true, 4294967295⟩) ∨
      (sel.toNat = 16 + (ring sel).toNat ∧
        segments es sel = some ⟨false, false, true, true, 0, true, 4294967295⟩) ∨
      (sel.toNat = 24 + (ring sel).toNat ∧
        segments es sel = some ⟨true, false, true, false, 3, true, 4294967295⟩) ∨
      (sel.toNat = 32 + (ring sel).toNat ∧
        segments es sel = some ⟨false, false, true, true, 3, true, 4294967295⟩) ∨
      ∃ s, s.code = false ∧ s.writable = false ∧ segments es sel = some s := by
  obtain ⟨es', hes', -, h1, h2, h3, h4, h5⟩ := initGdt_tssInit entries kernelTss
  obtain rfl : es = es' := Option.some.inj (hes.symm.trans hes')
  cases hi : gdtIndex sel with
  | none => exact Or.inl (by rw [segments, hi, Option.map_none])
  | some i =>
    obtain ⟨hpos, hsel⟩ := toNat_of_gdtIndex hi
    have hseg : segments es sel = some (segmentOf (readSegment (es i))) := by
      rw [segments, hi, Option.map_some]
    rw [hseg]
    refine Or.inr ?_
    match i, hpos, hsel with
    | 1, _, hsel => exact Or.inl ⟨hsel, by rw [h1]; decide⟩
    | 2, _, hsel => exact Or.inr (Or.inl ⟨hsel, by rw [h2]; decide⟩)
    | 3, _, hsel => exact Or.inr (Or.inr (Or.inl ⟨hsel, by rw [h3]; decide⟩))
    | 4, _, hsel => exact Or.inr (Or.inr (Or.inr (Or.inl ⟨hsel, by rw [h4]; decide⟩)))
    | 5, _, _ => exact Or.inr (Or.inr (Or.inr (Or.inr ⟨_, by rw [h5]; rfl, by rw [h5]; rfl, rfl⟩)))

theorem segments_own :
    segments es 0x08 = some ⟨true, false, true, false, 0, true, 4294967295⟩ ∧
      segments es 0x10 = some ⟨false, false, true, true, 0, true, 4294967295⟩ ∧
      segments es 0x1B = some ⟨true, false, true, false, 3, true, 4294967295⟩ ∧
      segments es 0x23 = some ⟨false, false, true, true, 3, true, 4294967295⟩ := by
  obtain ⟨es', hes', -, h1, h2, h3, h4, -⟩ := initGdt_tssInit entries kernelTss
  obtain rfl : es = es' := Option.some.inj (hes.symm.trans hes')
  refine ⟨?_, ?_, ?_, ?_⟩
  · show some (segmentOf (readSegment (es 1))) = _
    rw [h1]
    decide
  · show some (segmentOf (readSegment (es 2))) = _
    rw [h2]
    decide
  · show some (segmentOf (readSegment (es 3))) = _
    rw [h3]
    decide
  · show some (segmentOf (readSegment (es 4))) = _
    rw [h4]
    decide

theorem eq_of_runs {cs : Selector} {eip : Dword}
    (h : (segments es cs).any (Segment.runs · cs eip) = true) : cs = 0x08 ∨ cs = 0x1B := by
  rcases segments_cases hes cs with hs | ⟨hn, hs⟩ | ⟨-, hs⟩ | ⟨hn, hs⟩ | ⟨-, hs⟩ | ⟨s, hcode, -, hs⟩
  · rw [hs] at h
    exact absurd h Bool.false_ne_true
  · have hring : 0 = ring cs := by
      simp only [hs, Option.any_some, Segment.runs, Bool.true_and, if_neg Bool.false_ne_true,
        Bool.and_eq_true, beq_iff_eq] at h
      exact h.1
    rw [← hring] at hn
    exact Or.inl (BitVec.eq_of_toNat_eq hn)
  · simp [hs, Segment.runs] at h
  · have hring : 3 = ring cs := by
      simp only [hs, Option.any_some, Segment.runs, Bool.true_and, if_neg Bool.false_ne_true,
        Bool.and_eq_true, beq_iff_eq] at h
      exact h.1
    rw [← hring] at hn
    exact Or.inr (BitVec.eq_of_toNat_eq hn)
  · simp [hs, Segment.runs] at h
  · simp [hs, Segment.runs, hcode] at h

theorem eq_of_stacks {ss : Selector} (h : (segments es ss).any (Segment.stacks · 0x1B ss) = true) :
    ss = 0x23 := by
  rcases segments_cases hes ss with hs | ⟨-, hs⟩ | ⟨-, hs⟩ | ⟨-, hs⟩ | ⟨hn, hs⟩ | ⟨s, -, hwrite, hs⟩
  · rw [hs] at h
    exact absurd h Bool.false_ne_true
  · simp [hs, Segment.stacks] at h
  · rw [hs, Option.any_some, Segment.stacks, Bool.and_eq_true] at h
    exact absurd h.2 (by decide)
  · simp [hs, Segment.stacks] at h
  · have hring : ring ss = 3 := by
      rw [hs, Option.any_some, Segment.stacks, Bool.and_eq_true, Bool.and_eq_true] at h
      exact eq_of_beq h.1.2
    rw [hring] at hn
    exact BitVec.eq_of_toNat_eq hn
  · simp [hs, Segment.stacks, hwrite] at h

/-- `iret` goes to code of the kernel, or to a program with its stack. -/
theorem canEnter_iff {cs ss : Selector} {eip : Dword} :
    canEnter (segments es) cs eip ss = true ↔ cs = 0x08 ∨ cs = 0x1B ∧ ss = 0x23 := by
  obtain ⟨hkernel, -, huser, hstack⟩ := segments_own hes
  have hlast : eip.toNat ≤ 4294967295 := Nat.le_of_lt_succ eip.isLt
  rw [canEnter, Bool.and_eq_true]
  constructor
  · rintro ⟨hruns, hstacks⟩
    rcases eq_of_runs hes hruns with rfl | rfl
    · exact Or.inl rfl
    · exact Or.inr ⟨rfl, eq_of_stacks hes hstacks⟩
  · rintro (rfl | ⟨rfl, rfl⟩)
    · refine ⟨?_, rfl⟩
      rw [hkernel, Option.any_some, Segment.runs, decide_eq_true hlast]
      decide
    · rw [huser, hstack, Option.any_some, Segment.runs, decide_eq_true hlast]
      decide

/-- The data segments that the stubs load. -/
theorem loadable_own :
    loadable (segments es) 0 0x10 = true ∧ loadable (segments es) 3 0x23 = true := by
  obtain ⟨-, hkernel, -, huser⟩ := segments_own hes
  constructor
  · rw [loadable, hkernel]
    decide
  · rw [loadable, huser]
    decide

end Entered

theorem segments_null (es : Gdt) {sel : Selector} (h : sel.toNat < 4) : segments es sel = none := by
  rw [segments, gdtIndex, dif_neg fun hc => by omega, Option.map_none]

/-- What is set is read back, but for the upper bits of the limit, and the other entries stay. After
`init_gdt` and `tss_init` four segments have all addresses, and that of the task state has all of it
unless a boundary of 1 MiB is in the way: its limit is made from its address. -/
theorem gdt_segments :
    (∀ (entries : Gdt) (i : Fin gdtEntrySize) (base limit : ℕ) (access : GdtAccess) (d g : ℕ),
      ∃ es, gdtSetEntry entries (i.val : ℤ) base limit access d g = some es ∧
        readSegment (es i) = ⟨base % 2 ^ 32, limit % 2 ^ 20, access.type % 16, access.dt % 2,
        access.dpl % 4,
          access.p % 2, d % 2, g % 2⟩ ∧ ∀ j, j ≠ i → es j = entries j) ∧
    (∀ (entries : Gdt) (kernelTss : ℕ), ∃ es,
      ((initGdt entries).bind fun es => tssInit es 5 kernelTss) = some es ∧
      (readSegment (es 0)).p = 0 ∧
        readSegment (es 1) = flat 0xA 0 ∧ readSegment (es 2) = flat 0x2 0 ∧
        readSegment (es 3) = flat 0xA 3 ∧
        readSegment (es 4) = flat 0x2 3 ∧ readSegment (es 5) = tssSegment kernelTss) ∧
    (∀ type dpl, (flat type dpl).last = 2 ^ 32 - 1) ∧
    ∀ kernelTss, tssSize - 1 ≤ (tssSegment kernelTss).last ↔
      kernelTss % 2 ^ 20 < 2 ^ 20 - tssSize ∨ kernelTss % 2 ^ 20 = 2 ^ 20 - 1 := by
  refine ⟨fun entries i base limit access d g =>
    ⟨_, gdtSetEntry_eq entries i base limit access d g, ?_, ?_⟩, initGdt_tssInit, flat_last,
      fun kernelTss => ?_⟩
  · rw [Function.update_self, readSegment_gdtEntry]
  · exact fun j hj => Function.update_of_ne hj _ _
  · have hlast : (tssSegment kernelTss).last = (kernelTss + tssSize) % 2 ^ 20 := rfl
    rw [hlast, tssSize]
    omega

end Unos.Interrupts
