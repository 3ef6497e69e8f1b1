import Unos.Library.QuadWords
import Unos.Strings.Numbers

namespace Unos.ElfLoader

open Unos.ByteMemory Unos.Strings

def stackSize : ℕ := 20 * 1024 * 1024

def stackStorageSize : ℕ := 0x5000

def stackStringSize : ℕ := 0x5000

/-- The loops of `elf_run` over `argv` and `env`: each string is copied behind the ones before it,
and `table` gets its address. The new `str_ptr` is returned too. -/
def copyStrings (stringStorage : ℕ) : Mem → ℕ → ℕ → List CString → Mem × ℕ
  | m, _, strPtr, [] => (m, strPtr)
  | m, table, strPtr, s :: rest =>
    let strLen := s.bytes.length + 1
    let m := storeBytes m (stringStorage + strPtr) s.object
    let m := store64 m table (stringStorage + strPtr)
    copyStrings stringStorage m (table + 8) (strPtr + strLen) rest

def storeAux : Mem → ℕ → List (ℕ × ℕ) → Mem
  | m, _, [] => m
  | m, at', (id, value) :: rest =>
    storeAux (store64 (store64 m at' id) (at' + 8) value) (at' + 16) rest

/-- What `elf_run` has found out about the program and itself. -/
structure Found where
  elfBase : ℕ
  ePhoff : ℕ
  ePhnum : ℕ
  interpBase : ℕ
  elfEntry : ℕ
  uid : ℕ
  euid : ℕ
  gid : ℕ
  egid : ℕ
  randBytes : ℕ

/-- `AT_PHDR`, `AT_PHENT`, `AT_PHNUM`, `AT_PAGESZ`, `AT_BASE`, `AT_FLAGS`, `AT_ENTRY`, `AT_UID`,
`AT_EUID`, `AT_GID`, `AT_EGID`, `AT_RANDOM` and `AT_NULL`. -/
def auxv (f : Found) : List (ℕ × ℕ) :=
  [(3, f.elfBase + f.ePhoff), (4, 56), (5, f.ePhnum), (6, 4096), (7, f.interpBase), (8, 0),
    (9, f.elfEntry), (11, f.uid), (12, f.euid), (13, f.gid), (14, f.egid),
      (25, f.randBytes), (0, 0)]

theorem auxv_ids {f : Found} {e : ℕ × ℕ} (he : e ∈ auxv f) : e.1 ≤ 25 := by
  have hids : e.1 ∈ [3, 4, 5, 6, 7, 8, 9, 11, 12, 13, 14, 25, 0] :=
    List.mem_map_of_mem (f := Prod.fst) he
  revert hids
  generalize e.1 = id
  revert id
  decide

def stackStorage (stack : ℕ) : ℕ := stack + stackSize - stackStorageSize - stackStringSize

def stringStorage (stack : ℕ) : ℕ := stack + stackSize - stackStringSize

/-- From the `memset` on. The constructors of the program run before the auxiliary vector is
written. -/
def buildStack (constructors : Mem → Mem) (m : Mem) (stack : ℕ) (argv env : List CString)
    (f : Found) : Mem :=
  let m := fill m stack 0 stackStorageSize
  let words := stackStorage stack
  let strings := stringStorage stack
  let m := store64 m words argv.length
  let (m, strPtr) := copyStrings strings m (words + 8) 0 argv
  let stackPtr := 1 + argv.length
  let m := store64 m (words + 8 * stackPtr) 0
  let stackPtr := stackPtr + 1
  let (m, _) := copyStrings strings m (words + 8 * stackPtr) strPtr env
  let stackPtr := stackPtr + env.length
  let m := store64 m (words + 8 * stackPtr) 0
  let stackPtr := stackPtr + 1
  storeAux (constructors m) (words + 8 * stackPtr) (auxv f)

/-- The bytes that strings take up with their terminators. -/
def room (ss : List CString) : ℕ := (ss.map fun s => s.bytes.length + 1).sum

theorem room_cons (s : CString) (ss : List CString) :
    room (s :: ss) = s.bytes.length + 1 + room ss := List.sum_cons

/-- The addresses in the table at `t` are those of the strings, one behind the other from `p` on. -/
structure Strings (m : Mem) (t p : ℕ) (ss : List CString) : Prop where
  address : ∀ i < ss.length, load64 m (t + 8 * i) = p + room (ss.take i)
  string : ∀ i (hi : i < ss.length), StringAt m (p + room (ss.take i)) ss[i].bytes

variable {m m' : Mem} {a base p t x : ℕ} {s : CString} {ss argv env : List CString}
  {bs : List (BitVec 8)}

theorem stringAt_congr (h : StringAt m a bs)
    (hm : ∀ x, a ≤ x → x < a + (bs.length + 1) → m' x = m x) :
    StringAt m' a bs := by
  have hload : loadBytes m' a (bs.length + 1) = loadBytes m a (bs.length + 1) := by
    apply List.map_congr_left
    intro i hi
    rw [List.mem_range] at hi
    exact hm (a + i) (by omega) (by omega)
  exact ⟨h.1, hload.trans h.2⟩

theorem room_take_le (ss : List CString) {i : ℕ} (hi : i < ss.length) :
    room (ss.take i) + (ss[i].bytes.length + 1) ≤ room ss := by
  induction ss generalizing i with
  | nil => exact absurd hi (Nat.not_lt_zero i)
  | cons s ss ih =>
    rw [room_cons]
    cases i with
    | zero =>
      rw [List.take_zero, List.getElem_cons_zero]
      exact (Nat.zero_add _).trans_le (Nat.le_add_right _ _)
    | succ i =>
      have hrest := ih (Nat.lt_of_succ_lt_succ hi)
      rw [List.take_succ_cons, room_cons, List.getElem_cons_succ]
      omega

/-- Strings stay when the table and their bytes do. -/
theorem Strings.congr (h : Strings m t p ss)
    (htable : ∀ x, t ≤ x → x < t + 8 * ss.length → m' x = m x)
    (hbytes : ∀ x, p ≤ x → x < p + room ss → m' x = m x) : Strings m' t p ss where
  address i hi := by
    rw [← h.address i hi]
    exact load64_congr fun x h1 h2 => htable x (by omega) (by omega)
  string i hi := by
    have hroom := room_take_le ss hi
    exact stringAt_congr (h.string i hi) fun x h1 h2 => hbytes x (by omega) (by omega)

theorem object_length (s : CString) : s.object.length = s.bytes.length + 1 := List.length_append

theorem copyStrings_snd (base : ℕ) (m : Mem) (t p : ℕ) (ss : List CString) :
    (copyStrings base m t p ss).2 = p + room ss := by
  induction ss generalizing m t p with
  | nil => rfl
  | cons s ss ih =>
    rw [copyStrings, ih, room_cons]
    omega

theorem copyStrings_of_outside (htable : x < t ∨ t + 8 * ss.length ≤ x)
    (hbytes : x < base + p ∨ base + p + room ss ≤ x) : (copyStrings base m t p ss).1 x = m x := by
  induction ss generalizing m t p with
  | nil => rfl
  | cons s ss ih =>
    rw [room_cons] at hbytes
    rw [List.length_cons] at htable
    rw [copyStrings, ih (by omega) (by omega), store64_of_outside (by omega),
      storeBytes_of_outside (by rw [object_length]; omega)]

theorem strings_copyStrings (hbelow : t + 8 * ss.length ≤ base + p)
    (htop : base + p + room ss < 18446744073709551616) :
    Strings (copyStrings base m t p ss).1 t (base + p) ss := by
  induction ss generalizing m t p with
  | nil => exact ⟨fun i hi => absurd hi (Nat.not_lt_zero i),
    fun i hi => absurd hi (Nat.not_lt_zero i)⟩
  | cons s ss ih =>
    rw [room_cons] at htop
    rw [List.length_cons] at hbelow
    let first := store64 (storeBytes m (base + p) s.object) t (base + p)
    have hrest : Strings (copyStrings base first (t + 8) (p + (s.bytes.length + 1)) ss).1 (t + 8)
        (base + (p + (s.bytes.length + 1))) ss := ih (by omega) (by omega)
    have haddress : load64 first t = base + p := load64_store64 _ _ (by omega)
    have hstring : StringAt first (base + p) s.bytes := by
      apply stringAt_congr (stringAt_storeBytes m (base + p) s.nonzero)
      intro x h1 h2
      exact store64_of_outside (by omega)
    have hkeep : ∀ x, x < t + 8 ∨ t + 8 * (ss.length + 1) ≤ x →
      x < base + p + (s.bytes.length + 1) →
        (copyStrings base first (t + 8) (p + (s.bytes.length + 1)) ss).1 x = first x :=
            fun x h1 h2 =>
      copyStrings_of_outside (by omega) (by omega)
    rw [copyStrings]
    constructor
    · intro i hi
      cases i with
      | zero => exact (load64_congr fun x h1 h2 => hkeep x (by omega) (by omega)).trans haddress
      | succ i =>
        have hnext := hrest.address i (Nat.lt_of_succ_lt_succ hi)
        rw [List.take_succ_cons, room_cons, show t + 8 * (i + 1) = t + 8 + 8 * i by omega]
        exact hnext.trans (by omega)
    · intro i hi
      cases i with
      | zero =>
        rw [List.take_zero, List.getElem_cons_zero, show base + p + room [] = base + p from rfl]
        exact stringAt_congr hstring fun x h1 h2 => hkeep x (by omega) (by omega)
      | succ i =>
        have hnext := hrest.string i (Nat.lt_of_succ_lt_succ hi)
        rw [List.take_succ_cons, room_cons, List.getElem_cons_succ]
        rw [show base + p + (s.bytes.length + 1 + room (ss.take i)) =
          base + (p + (s.bytes.length + 1)) + room (ss.take i) by omega]
        exact hnext

def Entries (m : Mem) (a : ℕ) (es : List (ℕ × ℕ)) : Prop :=
  ∀ i e, es[i]? = some e → load64 m (a + 16 * i) = e.1 ∧ load64 m (a + 16 * i + 8) = e.2

theorem storeAux_of_outside {es : List (ℕ × ℕ)} (h : x < a ∨ a + 16 * es.length ≤ x) :
    storeAux m a es x = m x := by
  induction es generalizing m a with
  | nil => rfl
  | cons e es ih =>
    rw [List.length_cons] at h
    rw [storeAux, ih (by omega), store64_of_outside (by omega), store64_of_outside (by omega)]

theorem entries_storeAux {es : List (ℕ × ℕ)}
    (h : ∀ e ∈ es, e.1 < 18446744073709551616 ∧ e.2 < 18446744073709551616) :
    Entries (storeAux m a es) a es := by
  induction es generalizing m a with
  | nil => exact fun i e he => absurd he (by simp)
  | cons e es ih =>
    obtain ⟨hid, hvalue⟩ := h e List.mem_cons_self
    intro i d hd
    cases i with
    | zero =>
      rw [List.getElem?_cons_zero] at hd
      cases hd
      have hkeep : ∀ x, x < a + 16 →
          storeAux (store64 (store64 m a e.1) (a + 8) e.2) (a + 16) es x =
            store64 (store64 m a e.1) (a + 8) e.2 x := fun x hx => storeAux_of_outside (.inl hx)
      constructor
      · have hfirst : load64 (store64 (store64 m a e.1) (a + 8) e.2) a = load64
            (store64 m a e.1) a :=
          load64_congr fun x h1 h2 => store64_of_outside (by omega)
        have hsame : load64 (storeAux m a (e :: es)) a = load64
            (store64 (store64 m a e.1) (a + 8) e.2) a :=
          load64_congr fun x h1 h2 => hkeep x (by omega)
        exact hsame.trans (hfirst.trans (load64_store64 m a hid))
      · have hsame : load64 (storeAux m a (e :: es)) (a + 8) =
            load64 (store64 (store64 m a e.1) (a + 8) e.2) (a + 8) :=
          load64_congr fun x h1 h2 => hkeep x (by omega)
        exact hsame.trans (load64_store64 _ _ hvalue)
    | succ i =>
      have hnext := ih (m := store64 (store64 m a e.1) (a + 8) e.2) (a := a + 16)
        (fun e he => h e (List.mem_cons_of_mem _ he)) i d hd
      rw [show a + 16 * (i + 1) = a + 16 + 16 * i by omega]
      exact hnext

/-- What a program finds at its stack pointer: `argc`, `argv`, `envp` and the auxiliary vector. -/
structure Entry (m : Mem) (sp : ℕ) (argv env : List CString) (aux : List (ℕ × ℕ)) : Prop where
  argc : load64 m sp = argv.length
  arguments : ∀ i (hi : i < argv.length), StringAt m (load64 m (sp + 8 * (1 + i))) argv[i].bytes
  argvEnd : load64 m (sp + 8 * (1 + argv.length)) = 0
  environment : ∀ i (hi : i < env.length),
    StringAt m (load64 m (sp + 8 * (2 + argv.length + i))) env[i].bytes
  envEnd : load64 m (sp + 8 * (2 + argv.length + env.length)) = 0
  auxiliary : Entries m (sp + 8 * (3 + argv.length + env.length)) aux

/-- The values are words, and the words and the strings have their places. -/
structure Fits (stack : ℕ) (argv env : List CString) (f : Found) : Prop where
  top : stack + stackSize < 18446744073709551616
  words : 8 * (3 + argv.length + env.length) + 16 * (auxv f).length ≤ stackStorageSize
  strings : room argv + room env ≤ stackStringSize
  aux : ∀ e ∈ auxv f, e.2 < 18446744073709551616

theorem stringStorage_eq (stack : ℕ) : stringStorage stack = stackStorage stack + 0x5000 ∧
    stack + stackSize = stringStorage stack + 0x5000 ∧ stack ≤ stackStorage stack := by
  unfold stringStorage stackStorage stackSize stackStringSize stackStorageSize
  omega

/-- `buildStack` in three parts: up to `argv`, up to `env`, and the rest. -/
def argvPart (m : Mem) (stack : ℕ) (argv : List CString) : Mem :=
  (copyStrings (stringStorage stack)
    (store64 (fill m stack 0 stackStorageSize) (stackStorage stack) argv.length)
      (stackStorage stack + 8) 0 argv).1

def envPart (m : Mem) (stack : ℕ) (argv env : List CString) : Mem :=
  (copyStrings (stringStorage stack) (store64 m (stackStorage stack + 8 * (1 + argv.length)) 0)
    (stackStorage stack + 8 * (2 + argv.length)) (room argv) env).1

theorem buildStack_eq (constructors : Mem → Mem) (m : Mem) (stack : ℕ)
    (argv env : List CString) (f : Found) :
    buildStack constructors m stack argv env f =
      storeAux (constructors (store64 (envPart (argvPart m stack argv) stack argv env)
        (stackStorage stack + 8 * (2 + argv.length + env.length)) 0))
        (stackStorage stack + 8 * (3 + argv.length + env.length)) (auxv f) := by
  have hnext : 1 + argv.length + 1 = 2 + argv.length := by omega
  have hlast : 2 + argv.length + env.length + 1 = 3 + argv.length + env.length := by omega
  have hroom : (copyStrings (stringStorage stack)
      (store64 (fill m stack 0 stackStorageSize) (stackStorage stack) argv.length)
        (stackStorage stack + 8) 0
      argv).2 = room argv := (copyStrings_snd ..).trans (Nat.zero_add _)
  rw [envPart, ← hroom, ← hlast, ← hnext]
  rfl

section Build

variable {stack : ℕ} {f : Found}

theorem argvPart_strings (h : Fits stack argv env f) (m : Mem) :
    load64 (argvPart m stack argv) (stackStorage stack) = argv.length ∧
      Strings (argvPart m stack argv) (stackStorage stack + 8) (stringStorage stack) argv := by
  obtain ⟨hstrings, htop, -⟩ := stringStorage_eq stack
  have hwords := h.words
  have hroom := h.strings
  have hlimit := h.top
  unfold stackStorageSize at hwords
  unfold stackStringSize at hroom
  constructor
  · have hkeep : load64 (argvPart m stack argv) (stackStorage stack) =
        load64 (store64 (fill m stack 0 stackStorageSize) (stackStorage stack) argv.length)
            (stackStorage stack) :=
      load64_congr fun x h1 h2 => copyStrings_of_outside (by omega) (by omega)
    exact hkeep.trans (load64_store64 _ _ (by omega))
  · have hbase : stringStorage stack + 0 = stringStorage stack := Nat.add_zero _
    rw [← hbase]
    exact strings_copyStrings (by omega) (by omega)

theorem envPart_of_before (hx : x < stackStorage stack + 8 * (1 + argv.length) ∨
    stringStorage stack ≤ x ∧ x < stringStorage stack + room argv) (h :
    Fits stack argv env f) (m : Mem) :
    envPart m stack argv env x = m x := by
  obtain ⟨hstrings, htop, -⟩ := stringStorage_eq stack
  have hwords := h.words
  unfold stackStorageSize at hwords
  rw [envPart, copyStrings_of_outside (by omega) (by omega), store64_of_outside (by omega)]

theorem envPart_strings (h : Fits stack argv env f) (m : Mem) :
    load64 (envPart m stack argv env) (stackStorage stack + 8 * (1 + argv.length)) = 0 ∧
      Strings (envPart m stack argv env) (stackStorage stack + 8 * (2 + argv.length))
        (stringStorage stack + room argv) env := by
  obtain ⟨hstrings, htop, -⟩ := stringStorage_eq stack
  have hwords := h.words
  have hroom := h.strings
  have hlimit := h.top
  unfold stackStorageSize at hwords
  unfold stackStringSize at hroom
  constructor
  · have hkeep : load64 (envPart m stack argv env) (stackStorage stack + 8 * (1 + argv.length)) =
        load64 (store64 m (stackStorage stack + 8 * (1 + argv.length)) 0)
          (stackStorage stack + 8 * (1 + argv.length)) :=
      load64_congr fun x h1 h2 => copyStrings_of_outside (by omega) (by omega)
    exact hkeep.trans (load64_store64 _ _ (by decide))
  · exact strings_copyStrings (by omega) (by omega)

theorem buildStack_of_before {constructors : Mem → Mem}
    (hconstructors : ∀ m x, stackStorage stack ≤ x → x < stack + stackSize → constructors m x = m x)
    (h : Fits stack argv env f) (m : Mem) (hlow : stackStorage stack ≤ x)
    (htop : x < stack + stackSize)
    (hx : x < stackStorage stack + 8 * (2 + argv.length + env.length) ∨ stringStorage stack ≤ x) :
    buildStack constructors m stack argv env f x = envPart
    (argvPart m stack argv) stack argv env x := by
  obtain ⟨hstrings, -, -⟩ := stringStorage_eq stack
  have hwords := h.words
  unfold stackStorageSize at hwords
  rw [buildStack_eq, storeAux_of_outside (by omega), hconstructors _ _ hlow htop,
    store64_of_outside (by omega)]

theorem buildStack_strings {constructors : Mem → Mem}
    (hconstructors : ∀ m x, stackStorage stack ≤ x → x < stack + stackSize → constructors m x = m x)
    (h : Fits stack argv env f) (m : Mem) :
    load64 (buildStack constructors m stack argv env f) (stackStorage stack) = argv.length ∧
      Strings (buildStack constructors m stack argv env f) (stackStorage stack + 8)
      (stringStorage stack) argv ∧
      load64 (buildStack constructors m stack argv env f)
      (stackStorage stack + 8 * (1 + argv.length)) = 0 ∧
      Strings (buildStack constructors m stack argv env f)
      (stackStorage stack + 8 * (2 + argv.length))
        (stringStorage stack + room argv) env := by
  obtain ⟨hstrings, htop, -⟩ := stringStorage_eq stack
  have hwords := h.words
  have hroom := h.strings
  unfold stackStorageSize at hwords
  unfold stackStringSize at hroom
  obtain ⟨hargc, hargv⟩ := argvPart_strings h m
  obtain ⟨hend, henv⟩ := envPart_strings h (argvPart m stack argv)
  have hkeep := fun x => buildStack_of_before (x := x) hconstructors h m
  have hbefore := fun x hx => envPart_of_before (x := x) hx h (argvPart m stack argv)
  refine ⟨?_, hargv.congr ?_ ?_, ?_, henv.congr ?_ ?_⟩
  · rw [← hargc]
    apply load64_congr
    intro x h1 h2
    rw [hkeep x (by omega) (by omega) (by omega), hbefore x (by omega)]
  · intro x h1 h2
    rw [hkeep x (by omega) (by omega) (by omega), hbefore x (by omega)]
  · intro x h1 h2
    rw [hkeep x (by omega) (by omega) (by omega), hbefore x (by omega)]
  · rw [← hend]
    apply load64_congr
    intro x h1 h2
    exact hkeep x (by omega) (by omega) (by omega)
  · intro x h1 h2
    exact hkeep x (by omega) (by omega) (by omega)
  · intro x h1 h2
    exact hkeep x (by omega) (by omega) (by omega)

end Build

/-- For all arguments and environments that there is room for, the program finds them with the
auxiliary vector where its stack begins; what the constructors do elsewhere is left open. -/
theorem buildStack_entry {constructors : Mem → Mem} {stack : ℕ}
    {argv env : List CString} {f : Found}
    (hconstructors : ∀ m x, stackStorage stack ≤ x → x < stack + stackSize →
      constructors m x = m x) (h : Fits stack argv env f) (m : Mem) :
    Entry (buildStack constructors m stack argv env f) (stackStorage stack) argv env (auxv f) := by
  obtain ⟨hstrings, htop, -⟩ := stringStorage_eq stack
  have hwords := h.words
  unfold stackStorageSize at hwords
  obtain ⟨hargc, hargv, hend, henv⟩ := buildStack_strings hconstructors h m
  refine ⟨hargc, ?_, hend, ?_, ?_, ?_⟩
  · intro i hi
    rw [show stackStorage stack + 8 * (1 + i) = stackStorage stack + 8 + 8 * i by omega,
      hargv.address i hi]
    exact hargv.string i hi
  · intro i hi
    rw [show stackStorage stack + 8 * (2 + argv.length + i) =
      stackStorage stack + 8 * (2 + argv.length) + 8 * i by omega, henv.address i hi]
    exact henv.string i hi
  · have hlast : load64 (buildStack constructors m stack argv env f)
        (stackStorage stack + 8 * (2 + argv.length + env.length)) =
        load64 (store64 (envPart (argvPart m stack argv) stack argv env)
          (stackStorage stack + 8 * (2 + argv.length + env.length)) 0)
          (stackStorage stack + 8 * (2 + argv.length + env.length)) := by
      apply load64_congr
      intro x h1 h2
      rw [buildStack_eq, storeAux_of_outside (by omega), hconstructors _ _ (by omega) (by omega)]
    exact hlast.trans (load64_store64 _ _ (by decide))
  · rw [buildStack_eq]
    apply entries_storeAux
    intro e he
    have hid := auxv_ids he
    exact ⟨by omega, h.aux e he⟩

def nameArgument : CString := ⟨[0x6C, 0x73], by decide, by decide⟩

def pathVariable : CString := ⟨[0x50, 0x3D, 0x2F], by decide, by decide⟩

def loadedAt : Found :=
  ⟨0x400000, 64, 9, 0x7F0000000000, 0x401040, 1000, 1000, 1000, 1000, 0x7FFE00000000⟩

theorem buildStack_entry_ls :
    Entry (buildStack id (fun _ => 1) 0x7F1000000000 [nameArgument] [pathVariable] loadedAt)
      (stackStorage 0x7F1000000000) [nameArgument] [pathVariable] (auxv loadedAt) :=
  buildStack_entry (fun _ _ _ _ => rfl) ⟨by decide, by decide, by decide, by decide⟩ _

end Unos.ElfLoader
