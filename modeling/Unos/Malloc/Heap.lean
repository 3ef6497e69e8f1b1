import Unos.Library.Runs
import Unos.Library.Tiling
import Unos.Malloc.Model

namespace Unos.Malloc

open Unos.Words Unos.ByteMemory Unos.Tiling Unos.Runs

/-- The distance from a header to the next one. -/
def blockLen (m : Mem) (a : ℕ) : ℕ := allocSize m a + 12

/-- The heap with its live allocations, each a pointer and the size that was asked for. -/
structure Heap where
  state : State
  live : List (ℕ × ℕ)

def InPayload (a : ℕ × ℕ) (x : ℕ) : Prop := a.1 ≤ x ∧ x < a.1 + a.2

instance (a : ℕ × ℕ) (x : ℕ) : Decidable (InPayload a x) :=
  inferInstanceAs (Decidable (a.1 ≤ x ∧ x < a.1 + a.2))

inductive Op
  | malloc (size : ℕ)
  | free (p : ℕ)
  | write (x v : ℕ)

/-- One operation. Requests do not overflow, only live pointers are freed, and clients
write inside live payloads. A call that panics has no next state. -/
def heapStep (h : Heap) : Op → Option Heap
  | .malloc size =>
    if h.state.lastAlloc + size + 8 < 4294967296 then
      match malloc h.state size with
      | .ok (p, s) => some ⟨s, if p = 0 then h.live else (p, size) :: h.live⟩
      | .error _ => none
    else none
  | .free p =>
    if p ∈ h.live.map Prod.fst then
      some ⟨free h.state p, h.live.filter fun a => a.1 ≠ p⟩
    else none
  | .write x v =>
    if ∃ a ∈ h.live, InPayload a x then
      some { h with state := { h.state with mem := store8 h.state.mem x v } }
    else none

/-- The heap as its headers `hs` describe it. -/
structure HeapInv (h : Heap) (hs : List ℕ) : Prop where
  top : h.state.heapEnd + 131072 < 4294967296
  last : h.state.lastAlloc < h.state.heapEnd + 4
  tiles : Tiles (blockLen h.state.mem) h.state.heapBegin h.state.lastAlloc hs
  sized : ∀ x ∈ hs, 0 < allocSize h.state.mem x ∧ x + 8 + allocSize h.state.mem x < h.state.heapEnd
  status : ∀ x ∈ hs, allocStatus h.state.mem x ≠ 0 ↔ x + 8 ∈ h.live.map Prod.fst
  live : ∀ a ∈ h.live, 0 < a.2 ∧ ∃ x ∈ hs, a.1 = x + 8 ∧ a.2 ≤ allocSize h.state.mem x
  nodup : (h.live.map Prod.fst).Nodup

theorem reuse_outside {m : Mem} {x size z : ℕ} (hz : z ≠ x) (hout : z < x + 8 ∨ x + 8 + size ≤ z) :
    fill (store8 m x 1) (x + 8) 0 size z = m z := by
  rw [fill_of_outside hout, store8_of_ne hz]

theorem append_outside {m : Mem} {a size z : ℕ} (hz : z < a ∨ a + 8 + size ≤ z) :
    fill (store32 (store8 m a 1) (a + 4) size) (a + 8) 0 size z = m z := by
  rw [fill_of_outside (by omega), store32_of_outside (by omega), store8_of_ne (by omega)]

theorem allocSize_append (m : Mem) (a : ℕ) {size : ℕ} (hlt : size < 4294967296) :
    allocSize (fill (store32 (store8 m a 1) (a + 4) size) (a + 8) 0 size) a = size :=
  -- the payload starts behind the four bytes of the size
  (load32_congr fun z _ hz => fill_of_outside (by omega)).trans (load32_store32 _ hlt)

theorem mallocWalk_eq {m : Mem} {a b : ℕ} {hs : List ℕ} (size fuel : ℕ)
    (htiles : Tiles (blockLen m) a b hs) (hsized : ∀ x ∈ hs, 0 < allocSize m x)
    (hb : b < 4294967296) (hfuel : hs.length < fuel) :
    mallocWalk m b size fuel a =
      match hs.find? fun x => allocStatus m x = 0 ∧ size ≤ allocSize m x with
      | some x => .reuse x
      | none => .nalloc := by
  induction hs generalizing a fuel with
  | nil =>
    obtain rfl : a = b := htiles
    obtain ⟨fuel, rfl⟩ := Nat.exists_eq_succ_of_ne_zero (Nat.ne_of_gt hfuel)
    rw [mallocWalk, if_neg (Nat.lt_irrefl a), List.find?_nil]
  | cons x xs ih =>
    obtain ⟨rfl, -, hrest⟩ := htiles
    obtain ⟨fuel, rfl⟩ := Nat.exists_eq_succ_of_ne_zero (Nat.ne_of_gt (Nat.zero_lt_of_lt hfuel))
    have hpos := hsized x List.mem_cons_self
    have hle := hrest.le
    have hnext : nextHeader m x = x + blockLen m x := by
      rw [nextHeader, wrap32_of_lt (by unfold blockLen at hle; omega)]
      rfl
    have hlt : x < b := by
      unfold blockLen at hle
      omega
    have hwalk := ih fuel hrest (fun y hy => hsized y (List.mem_cons_of_mem x hy))
      (by rw [List.length_cons] at hfuel; omega)
    rw [mallocWalk, if_pos hlt, if_neg (by omega), hnext, List.find?_cons]
    by_cases hstatus : allocStatus m x = 0
    · rw [if_neg (by omega)]
      by_cases hsize : size ≤ allocSize m x
      · rw [if_pos hsize, decide_eq_true ⟨hstatus, hsize⟩]
      · rw [if_neg hsize, decide_eq_false fun h => hsize h.2]
        exact hwalk
    · rw [if_pos hstatus, decide_eq_false fun h => hstatus h.1]
      exact hwalk

section Steps

variable {h h' : Heap} {hs : List ℕ}

/-- A block that is not live and large enough for the request. -/
def suits (m : Mem) (size x : ℕ) : Bool := decide (allocStatus m x = 0 ∧ size ≤ allocSize m x)

theorem suits_iff {m : Mem} {size x : ℕ} :
    suits m size x = true ↔ allocStatus m x = 0 ∧ size ≤ allocSize m x := decide_eq_true_iff

/-- What `malloc` does with a request: the first free block that is large enough is marked again, or
a block is added at the end, unless the kernel halts. -/
theorem HeapInv.malloc_eq (hi : HeapInv h hs) {size : ℕ} (hsize : size ≠ 0) :
    malloc h.state size = match hs.find? (suits h.state.mem size) with
      | some x => .ok (x + 8,
          { h.state with
            mem := fill (store8 h.state.mem x 1) (x + 8) 0 size
            memoryUsed := wrap32 (h.state.memoryUsed + size + 8) })
      | none =>
        if h.state.heapEnd ≤ wrap32 (h.state.lastAlloc + size + 8) then .error .panic
        else .ok (h.state.lastAlloc + 8,
          { h.state with
            mem := fill (store32 (store8 h.state.mem h.state.lastAlloc 1)
              (h.state.lastAlloc + 4) size)
              (h.state.lastAlloc + 8) 0 size
            lastAlloc := wrap32 (h.state.lastAlloc + size + 8 + 4)
            memoryUsed := wrap32 (h.state.memoryUsed + size + 4 + 8) }) := by
  have htop := hi.top
  have hlast := hi.last
  have hlen := hi.tiles.length_le
  have hwalk := mallocWalk_eq size h.state.fuel hi.tiles
    (fun x hx => (hi.sized x hx).1) (by omega) (by unfold State.fuel; omega)
  change _ = match hs.find? (suits h.state.mem size) with
    | some x => Walk.reuse x
    | none => Walk.nalloc at hwalk
  cases hfind : hs.find? (suits h.state.mem size) with
  | some x =>
    have hbound := (hi.sized x (List.mem_of_find?_eq_some hfind)).2
    have hptr : wrap32 (x + 8) = x + 8 := wrap32_of_lt (by omega)
    simp only [hfind] at hwalk
    simp only [malloc, if_neg hsize, hwalk, hptr]
  | none =>
    have hptr : wrap32 (h.state.lastAlloc + 8) = h.state.lastAlloc + 8 := wrap32_of_lt (by omega)
    simp only [hfind] at hwalk
    simp only [malloc, if_neg hsize, hwalk, hptr]

theorem HeapInv.malloc_cases (hi : HeapInv h hs) {size : ℕ} (hsize : size ≠ 0)
    (hfit : h.state.lastAlloc + size + 8 < 4294967296) :
    (∃ x ∈ hs, allocStatus h.state.mem x = 0 ∧ size ≤ allocSize h.state.mem x ∧
      malloc h.state size = .ok (x + 8,
        { h.state with
          mem := fill (store8 h.state.mem x 1) (x + 8) 0 size
          memoryUsed := wrap32 (h.state.memoryUsed + size + 8) })) ∨
    malloc h.state size = .error .panic ∨
    (h.state.lastAlloc + size + 8 < h.state.heapEnd ∧
      malloc h.state size = .ok (h.state.lastAlloc + 8,
        { h.state with
          mem := fill (store32 (store8 h.state.mem h.state.lastAlloc 1)
            (h.state.lastAlloc + 4) size)
            (h.state.lastAlloc + 8) 0 size
          lastAlloc := h.state.lastAlloc + size + 8 + 4
          memoryUsed := wrap32 (h.state.memoryUsed + size + 4 + 8) })) := by
  have htop := hi.top
  have heq := hi.malloc_eq hsize
  cases hfind : hs.find? (suits h.state.mem size) with
  | some x =>
    left
    simp only [hfind] at heq
    obtain ⟨hfree, hle⟩ := suits_iff.mp (List.find?_some hfind)
    exact ⟨x, List.mem_of_find?_eq_some hfind, hfree, hle, heq⟩
  | none =>
    right
    have hsum : wrap32 (h.state.lastAlloc + size + 8) = h.state.lastAlloc + size + 8 :=
      wrap32_of_lt hfit
    simp only [hfind, hsum] at heq
    by_cases hroom : h.state.heapEnd ≤ h.state.lastAlloc + size + 8
    · rw [if_pos hroom] at heq
      exact Or.inl heq
    · have hnext : wrap32 (h.state.lastAlloc + size + 8 + 4) = h.state.lastAlloc + size + 8 + 4 :=
        wrap32_of_lt (by omega)
      rw [if_neg hroom, hnext] at heq
      exact Or.inr ⟨by omega, heq⟩

theorem HeapInv.headers_kept (hi : HeapInv h hs) {x : ℕ} (hx : x ∈ hs) {m : Mem}
    (hm : ∀ z, z ≠ x → (z < x + 8 ∨ x + 8 + allocSize h.state.mem x ≤ z) → m z = h.state.mem z)
    {y : ℕ} (hy : y ∈ hs) :
    allocSize m y = allocSize h.state.mem y ∧
    (y ≠ x → allocStatus m y = allocStatus h.state.mem y) := by
  have hapart : y ≠ x → y + 12 ≤ x ∨ x + 12 + allocSize h.state.mem x ≤ y := fun hyx => by
    have := hi.tiles.disjoint hy hx hyx
    unfold blockLen at this
    omega
  constructor
  · refine load32_congr fun z h1 h2 => ?_
    by_cases hyx : y = x
    · exact hm z (by omega) (by omega)
    · have := hapart hyx
      exact hm z (by omega) (by omega)
  · intro hyx
    have := hapart hyx
    rw [allocStatus, load8, hm y hyx (by omega), allocStatus, load8]

theorem HeapInv.rewrite (hi : HeapInv h hs) {x : ℕ} (hx : x ∈ hs) {m : Mem}
    (hm : ∀ z, z ≠ x → (z < x + 8 ∨ x + 8 + allocSize h.state.mem x ≤ z) → m z = h.state.mem z)
    {live : List (ℕ × ℕ)} {used : ℕ}
    (hstatus : allocStatus m x ≠ 0 ↔ x + 8 ∈ live.map Prod.fst)
    (hothers : ∀ y, y ≠ x → (y + 8 ∈ live.map Prod.fst ↔ y + 8 ∈ h.live.map Prod.fst))
    (hlive : ∀ a ∈ live, a ∈ h.live ∨ 0 < a.2 ∧ a.1 = x + 8 ∧ a.2 ≤ allocSize h.state.mem x)
    (hnodup : (live.map Prod.fst).Nodup) :
    HeapInv ⟨{ h.state with mem := m, memoryUsed := used }, live⟩ hs where
  top := hi.top
  last := hi.last
  tiles := hi.tiles.congr fun y hy => by rw [blockLen, (hi.headers_kept hx hm hy).1, blockLen]
  sized y hy := by
    rw [(hi.headers_kept hx hm hy).1]
    exact hi.sized y hy
  status y hy := by
    by_cases hyx : y = x
    · rw [hyx]
      exact hstatus
    · rw [(hi.headers_kept hx hm hy).2 hyx, hi.status y hy]
      exact (hothers y hyx).symm
  live a ha := by
    rcases hlive a ha with hold | ⟨hpos, hp, hsize⟩
    · obtain ⟨hpos, y, hy, hp, hsize⟩ := hi.live a hold
      refine ⟨hpos, y, hy, hp, ?_⟩
      rwa [(hi.headers_kept hx hm hy).1]
    · refine ⟨hpos, x, hx, hp, ?_⟩
      rwa [(hi.headers_kept hx hm hx).1]
  nodup := hnodup

theorem HeapInv.payload_outside (hi : HeapInv h hs) {a : ℕ × ℕ} (ha : a ∈ h.live) {x : ℕ}
    (hx : x ∈ hs) (hp : a.1 ≠ x + 8) {z : ℕ} (hz : InPayload a z) :
    z < x ∨ x + blockLen h.state.mem x ≤ z := by
  obtain ⟨-, y, hy, hay, hsize⟩ := hi.live a ha
  have hyx : y ≠ x := fun hyx => hp (by rw [hay, hyx])
  obtain ⟨h1, h2⟩ := hz
  have := hi.tiles.disjoint hy hx hyx
  unfold blockLen at *
  omega

theorem HeapInv.reuse (hi : HeapInv h hs) {x size used : ℕ} (hx : x ∈ hs) (hpos : size ≠ 0)
    (hfree : allocStatus h.state.mem x = 0) (hsize : size ≤ allocSize h.state.mem x) :
    HeapInv ⟨{ h.state with
      mem := fill (store8 h.state.mem x 1) (x + 8) 0 size, memoryUsed := used },
      (x + 8, size) :: h.live⟩ hs := by
  have hnot : x + 8 ∉ h.live.map Prod.fst := fun hmem => (hi.status x hx).mpr hmem hfree
  refine hi.rewrite hx (fun z hz hout => ?_) ?_ (fun y hy => ?_) (fun a ha => ?_) ?_
  · exact reuse_outside hz (by omega)
  · have hbyte : allocStatus (fill (store8 h.state.mem x 1) (x + 8) 0 size) x = 1 := by
      rw [allocStatus, load8, fill_of_outside (by omega), ← load8, load8_store8]
    rw [hbyte]
    exact iff_of_true Nat.one_ne_zero List.mem_cons_self
  · rw [List.map_cons, List.mem_cons]
    exact or_iff_right (by omega)
  · rcases List.mem_cons.mp ha with rfl | ha
    · exact Or.inr ⟨Nat.pos_of_ne_zero hpos, rfl, hsize⟩
    · exact Or.inl ha
  · exact List.nodup_cons.mpr ⟨hnot, hi.nodup⟩

theorem HeapInv.allocSize_below (hi : HeapInv h hs) {m : Mem}
    (hm : ∀ z, z < h.state.lastAlloc → m z = h.state.mem z) {y : ℕ} (hy : y ∈ hs) :
    allocSize m y = allocSize h.state.mem y := by
  have hbound := (hi.tiles.bounds hy).2.2
  unfold blockLen at hbound
  exact load32_congr fun z _ hz => hm z (by omega)

/-- A new block follows the last one. -/
theorem HeapInv.append (hi : HeapInv h hs) {size used : ℕ} {m : Mem} (hpos : size ≠ 0)
    (hroom : h.state.lastAlloc + size + 8 < h.state.heapEnd)
    (hm : m = fill (store32 (store8 h.state.mem h.state.lastAlloc 1) (h.state.lastAlloc + 4) size)
      (h.state.lastAlloc + 8) 0 size) :
    HeapInv ⟨{ h.state with
      mem := m, lastAlloc := h.state.lastAlloc + size + 8 + 4, memoryUsed := used },
      (h.state.lastAlloc + 8, size) :: h.live⟩ (hs ++ [h.state.lastAlloc]) := by
  have htop := hi.top
  have hbelow : ∀ z, z < h.state.lastAlloc → m z = h.state.mem z := fun z hz => by
    rw [hm]
    exact append_outside (Or.inl hz)
  have hsizeNew : allocSize m h.state.lastAlloc = size := by
    rw [hm]
    exact allocSize_append _ _ (by omega)
  have hstatusNew : allocStatus m h.state.lastAlloc = 1 := by
    rw [allocStatus, load8, hm, fill_of_outside (by omega), store32_of_outside (by omega), ← load8,
      load8_store8]
  have hend : ∀ y ∈ hs, y + 12 + allocSize h.state.mem y ≤ h.state.lastAlloc := fun y hy => by
    have := (hi.tiles.bounds hy).2.2
    unfold blockLen at this
    omega
  have hsizeOld : ∀ y ∈ hs, allocSize m y = allocSize h.state.mem y := fun y hy =>
    hi.allocSize_below hbelow hy
  have hstatusOld : ∀ y ∈ hs, allocStatus m y = allocStatus h.state.mem y := fun y hy => by
    rw [allocStatus, load8, hbelow y (by have := hend y hy; omega), allocStatus, load8]
  have hnot : h.state.lastAlloc + 8 ∉ h.live.map Prod.fst := fun hmem => by
    obtain ⟨a, ha, hp⟩ := List.mem_map.mp hmem
    obtain ⟨-, y, hy, hay, -⟩ := hi.live a ha
    have := hend y hy
    omega
  have hlast : h.state.lastAlloc + size + 8 + 4 < h.state.heapEnd + 4 := by omega
  have hinside : h.state.lastAlloc + 8 + size < h.state.heapEnd := by omega
  refine ⟨htop, hlast, ?_, fun y hy => ?_, fun y hy => ?_, fun a ha => ?_, ?_⟩
  · have hold : Tiles (blockLen m) h.state.heapBegin h.state.lastAlloc hs :=
      hi.tiles.congr fun y hy => by rw [blockLen, hsizeOld y hy, blockLen]
    have hnew := hold.concat (by unfold blockLen; omega)
    rwa [blockLen, hsizeNew] at hnew
  · rcases List.mem_append.mp hy with hy | hy
    · rw [hsizeOld y hy]
      exact hi.sized y hy
    · rw [List.mem_singleton.mp hy, hsizeNew]
      exact ⟨by omega, hinside⟩
  · rw [List.map_cons, List.mem_cons]
    rcases List.mem_append.mp hy with hy | hy
    · have := hend y hy
      rw [hstatusOld y hy, hi.status y hy]
      exact (or_iff_right (by omega)).symm
    · rw [List.mem_singleton.mp hy, hstatusNew]
      exact iff_of_true Nat.one_ne_zero (Or.inl rfl)
  · rcases List.mem_cons.mp ha with rfl | ha
    · exact ⟨Nat.pos_of_ne_zero hpos, _, List.mem_append_right _ List.mem_cons_self, rfl,
        Nat.le_of_eq hsizeNew.symm⟩
    · obtain ⟨h1, y, hy, hp, hle⟩ := hi.live a ha
      exact ⟨h1, y, List.mem_append_left _ hy, hp, by rwa [hsizeOld y hy]⟩
  · exact List.nodup_cons.mpr ⟨hnot, hi.nodup⟩

theorem HeapInv.free (hi : HeapInv h hs) {p : ℕ} (hp : p ∈ h.live.map Prod.fst) :
    HeapInv ⟨free h.state p, h.live.filter fun a => a.1 ≠ p⟩ hs := by
  obtain ⟨a, ha, rfl⟩ := List.mem_map.mp hp
  obtain ⟨-, x, hx, hax, -⟩ := hi.live a ha
  have hbound := (hi.sized x hx).2
  have htop := hi.top
  have hsub : sub32 a.1 8 = x := by
    rw [hax, sub32_of_le (by omega) (by omega), Nat.add_sub_cancel]
  have hmem : ∀ q, q ∈ (h.live.filter fun b => b.1 ≠ a.1).map Prod.fst ↔
      q ∈ h.live.map Prod.fst ∧ q ≠ a.1 := by
    intro q
    simp only [List.mem_map, List.mem_filter, decide_eq_true_eq]
    constructor
    · rintro ⟨b, ⟨hb, hne⟩, rfl⟩
      exact ⟨⟨b, hb, rfl⟩, hne⟩
    · rintro ⟨⟨b, hb, rfl⟩, hne⟩
      exact ⟨b, ⟨hb, hne⟩, rfl⟩
  rw [Malloc.free, hsub]
  refine hi.rewrite hx (fun z hz _ => store8_of_ne hz) ?_ (fun y hy => ?_) (fun b hb => ?_) ?_
  · have hbyte : allocStatus (store8 h.state.mem x 0) x = 0 := by
      rw [allocStatus, load8_store8]
    rw [hbyte, hmem, hax]
    exact iff_of_false (fun hne => hne rfl) fun hne => hne.2 rfl
  · rw [hmem]
    exact and_iff_left (by omega)
  · exact Or.inl (List.mem_filter.mp hb).1
  · exact hi.nodup.sublist ((List.filter_sublist).map Prod.fst)

theorem HeapInv.write (hi : HeapInv h hs) {a : ℕ × ℕ} (ha : a ∈ h.live) {z v : ℕ}
    (hz : InPayload a z) :
    HeapInv { h with state := { h.state with mem := store8 h.state.mem z v } } hs := by
  obtain ⟨-, x, hx, hax, hsize⟩ := hi.live a ha
  obtain ⟨hlow, hhigh⟩ := hz
  refine hi.rewrite hx (fun y _ hout => store8_of_ne (by omega)) ?_ (fun _ _ => Iff.rfl)
    (fun b hb => Or.inl hb) hi.nodup
  rw [allocStatus, load8, store8_of_ne (by omega)]
  exact hi.status x hx

/-- What an operation can do to a heap with the headers `hs`. -/
inductive Effect (h : Heap) (hs : List ℕ) : Op → Heap → Prop
  | none : Effect h hs (.malloc 0) h
  | reuse {size x : ℕ} (hsize : size ≠ 0) (hx : x ∈ hs) (hsuits : suits h.state.mem size x = true) :
    Effect h hs (.malloc size) ⟨{ h.state with
      mem := fill (store8 h.state.mem x 1) (x + 8) 0 size
      memoryUsed := wrap32 (h.state.memoryUsed + size + 8) }, (x + 8, size) :: h.live⟩
  | append {size : ℕ} (hsize : size ≠ 0) (hroom : h.state.lastAlloc + size + 8 < h.state.heapEnd) :
    Effect h hs (.malloc size) ⟨{ h.state with
      mem := fill (store32 (store8 h.state.mem h.state.lastAlloc 1) (h.state.lastAlloc + 4) size)
        (h.state.lastAlloc + 8) 0 size
      lastAlloc := h.state.lastAlloc + size + 8 + 4
      memoryUsed := wrap32 (h.state.memoryUsed + size + 4 + 8) },
      (h.state.lastAlloc + 8, size) :: h.live⟩
  | free {a : ℕ × ℕ} (ha : a ∈ h.live) :
    Effect h hs (.free a.1) ⟨Malloc.free h.state a.1, h.live.filter fun b => b.1 ≠ a.1⟩
  | write {a : ℕ × ℕ} {x v : ℕ} (ha : a ∈ h.live) (hx : InPayload a x) :
    Effect h hs (.write x v) { h with state := { h.state with mem := store8 h.state.mem x v } }

theorem HeapInv.free_effect {p : ℕ} (hstep : heapStep h (.free p) = some h') :
    Effect h hs (.free p) h' := by
  rw [heapStep] at hstep
  split_ifs at hstep with hp
  cases hstep
  obtain ⟨a, ha, rfl⟩ := List.mem_map.mp hp
  exact .free ha

theorem HeapInv.write_effect {x v : ℕ} (hstep : heapStep h (.write x v) = some h') :
    Effect h hs (.write x v) h' := by
  rw [heapStep] at hstep
  split_ifs at hstep with hx
  cases hstep
  obtain ⟨a, ha, hax⟩ := hx
  exact .write ha hax

theorem HeapInv.effect (hi : HeapInv h hs) {op : Op} (hstep : heapStep h op = some h') :
    Effect h hs op h' := by
  cases op with
  | malloc size =>
    rw [heapStep] at hstep
    split_ifs at hstep with hfit
    by_cases hsize : size = 0
    · rw [malloc, if_pos hsize] at hstep
      cases hstep
      rw [hsize]
      exact .none
    · obtain ⟨x, hx, hfree, hle, heq⟩ | heq | ⟨hroom, heq⟩ := hi.malloc_cases hsize hfit
      · rw [heq] at hstep
        simp only [if_neg (Nat.succ_ne_zero (x + 7))] at hstep
        cases hstep
        exact .reuse hsize hx (suits_iff.mpr ⟨hfree, hle⟩)
      · rw [heq] at hstep
        cases hstep
      · rw [heq] at hstep
        simp only [if_neg (Nat.succ_ne_zero (h.state.lastAlloc + 7))] at hstep
        cases hstep
        exact .append hsize hroom
  | free p => exact free_effect hstep
  | write x v => exact write_effect hstep

/-- Every operation keeps the layout. -/
theorem Effect.inv {op : Op} (heffect : Effect h hs op h') (hi : HeapInv h hs) :
    ∃ hs', HeapInv h' hs' := by
  cases heffect with
  | none => exact ⟨hs, hi⟩
  | reuse hsize hx hsuits =>
    obtain ⟨hfree, hle⟩ := suits_iff.mp hsuits
    exact ⟨hs, hi.reuse hx hsize hfree hle⟩
  | append hsize hroom => exact ⟨hs ++ [h.state.lastAlloc], hi.append hsize hroom rfl⟩
  | free ha => exact ⟨hs, hi.free (List.mem_map_of_mem ha)⟩
  | write ha hx => exact ⟨hs, hi.write ha hx⟩

theorem HeapInv.step (hi : HeapInv h hs) {op : Op} (hstep : heapStep h op = some h') :
    ∃ hs', HeapInv h' hs' :=
  (hi.effect hstep).inv hi

theorem HeapInv.payloads_kept (hi : HeapInv h hs) {op : Op} (hop : ∀ x v, op ≠ .write x v)
    (hstep : heapStep h op = some h') {a : ℕ × ℕ} (ha : a ∈ h.live) {z : ℕ} (hz : InPayload a z) :
    h'.state.mem z = h.state.mem z := by
  cases hi.effect hstep with
  | none => rfl
  | @reuse size x hsize hx hsuits =>
    obtain ⟨hfree, hle⟩ := suits_iff.mp hsuits
    have hne : a.1 ≠ x + 8 := fun hax => by
      have hlive : x + 8 ∈ h.live.map Prod.fst := hax ▸ List.mem_map_of_mem ha
      exact (hi.status x hx).mpr hlive hfree
    have hout := hi.payload_outside ha hx hne hz
    unfold blockLen at hout
    exact reuse_outside (by omega) (by omega)
  | append hsize hroom =>
    obtain ⟨-, y, hy, hay, hsize'⟩ := hi.live a ha
    have hend := (hi.tiles.bounds hy).2.2
    obtain ⟨-, hhigh⟩ := hz
    unfold blockLen at hend
    exact append_outside (by omega)
  | @free b hb =>
    obtain ⟨-, x, hx, hbx, -⟩ := hi.live b hb
    have hbound := (hi.sized x hx).2
    have htop := hi.top
    have hsub : sub32 b.1 8 = x := by
      rw [hbx, sub32_of_le (by omega) (by omega), Nat.add_sub_cancel]
    have hne : z ≠ x := by
      obtain ⟨h1, h2⟩ := hz
      by_cases hax : a.1 = x + 8
      · omega
      · have := hi.payload_outside ha hx hax ⟨h1, h2⟩
        unfold blockLen at this
        omega
    rw [Malloc.free, hsub]
    exact store8_of_ne hne
  | write hb hx => exact absurd rfl (hop _ _)

theorem HeapInv.malloc_ends (hi : HeapInv h hs) {size : ℕ}
    (hfit : h.state.lastAlloc + size + 8 < 4294967296) :
    malloc h.state size ≠ .error .outOfFuel := by
  by_cases hsize : size = 0
  · rw [malloc, if_pos hsize]
    nofun
  · obtain ⟨x, -, -, -, heq⟩ | heq | ⟨-, heq⟩ := hi.malloc_cases hsize hfit
    · rw [heq]
      nofun
    · rw [heq]
      nofun
    · rw [heq]
      nofun

end Steps

/-- The headers cut the heap up to `last_alloc`, and the live payloads are inside it and
apart from each other and from the headers. -/
def HeapLayout (h : Heap) : Prop :=
  ∃ hs, Tiles (blockLen h.state.mem) h.state.heapBegin h.state.lastAlloc hs ∧
    (∀ a ∈ h.live, h.state.heapBegin ≤ a.1 ∧ a.1 + a.2 ≤ h.state.heapEnd) ∧
    (∀ a ∈ h.live, ∀ x ∈ hs, a.1 + a.2 ≤ x ∨ x + 8 ≤ a.1) ∧
    h.live.Pairwise fun a b => a.1 + a.2 ≤ b.1 ∨ b.1 + b.2 ≤ a.1

theorem HeapInv.layout {h : Heap} {hs : List ℕ} (hi : HeapInv h hs) : HeapLayout h := by
  refine ⟨hs, hi.tiles, fun a ha => ?_, fun a ha x hx => ?_, ?_⟩
  · obtain ⟨-, y, hy, hay, hsize⟩ := hi.live a ha
    have hlow := (hi.tiles.bounds hy).1
    have hhigh := (hi.sized y hy).2
    omega
  · obtain ⟨-, y, hy, hay, hsize⟩ := hi.live a ha
    by_cases hyx : y = x
    · exact Or.inr (by omega)
    · have := hi.tiles.disjoint hy hx hyx
      unfold blockLen at this
      omega
  · have hne : h.live.Pairwise fun a b => a.1 ≠ b.1 := List.pairwise_map.mp hi.nodup
    refine hne.imp_of_mem fun {a b} ha hb hab => ?_
    obtain ⟨-, y, hy, hay, hsize⟩ := hi.live a ha
    obtain ⟨-, x, hx, hbx, hsize'⟩ := hi.live b hb
    have := hi.tiles.disjoint hy hx (by omega)
    unfold blockLen at this
    omega

theorem HeapInv.run {h h' : Heap} {hs : List ℕ} (hi : HeapInv h hs) {ops : List Op}
    (hrun : Runs.run heapStep h ops = some h') : ∃ hs', HeapInv h' hs' :=
  run_invariant (I := fun h => ∃ hs, HeapInv h hs) (fun _ _ _ ⟨_, hi⟩ hstep => hi.step hstep)
    ⟨hs, hi⟩ hrun

theorem HeapInv.setDesc {s : State} {live : List (ℕ × ℕ)} {hs : List ℕ} (hi : HeapInv ⟨s, live⟩ hs)
    (p : ℕ) : HeapInv ⟨{ s with pheapDesc := p }, live⟩ hs :=
  ⟨hi.top, hi.last, hi.tiles, hi.sized, hi.status, hi.live, hi.nodup⟩

section Init

variable (s : State) {start stop : ℕ}

theorem initHeap_inv (hstart : start + 131072 < stop) (hstop : stop < 4294967296) :
    HeapInv ⟨initHeap s start stop, []⟩ [] := by
  have hend : (initHeap s start stop).heapEnd = stop - 131072 := by
    have hsub : sub32 stop (maxPageAlignedAllocs * 4096) = stop - 131072 :=
      sub32_of_le (by unfold maxPageAlignedAllocs; omega) hstop
    simp only [initHeap, hsub]
  have hlast : (initHeap s start stop).lastAlloc = start := rfl
  exact
    { top := by simp only [hend]; omega
      last := by simp only [hend, hlast]; omega
      tiles := rfl
      sized := fun x hx => absurd hx List.not_mem_nil
      status := fun x hx => absurd hx List.not_mem_nil
      live := fun a ha => absurd ha List.not_mem_nil
      nodup := List.nodup_nil }

/-- `init_mm` leaves one live block, the page descriptor, unless the heap is too small. -/
theorem initMm_cases (hstart : start + 131072 < stop) (hstop : stop < 4294967296) :
    initMm s start stop = .error .panic ∨
    ∃ t, initMm s start stop = .ok t ∧ ∃ hs, HeapInv ⟨t, [(t.pheapDesc, 32)]⟩ hs := by
  have hi := initHeap_inv s hstart hstop
  have hlast : (initHeap s start stop).lastAlloc = start := rfl
  have hfit : (initHeap s start stop).lastAlloc + 32 + 8 < 4294967296 := by omega
  rw [initMm, maxPageAlignedAllocs]
  obtain ⟨x, hx, -⟩ | heq | ⟨hroom, heq⟩ := hi.malloc_cases (by decide) hfit
  · exact absurd hx List.not_mem_nil
  · rw [heq]
    exact Or.inl rfl
  · rw [heq]
    exact Or.inr ⟨_, rfl, _, (hi.append (by decide) hroom rfl).setDesc _⟩

end Init

/-- In every run after `init_mm` the blocks tile the heap, live payloads are apart, the
loop of `malloc` ends, and neither `malloc` nor `free` touches a live payload. -/
theorem malloc_noninterference (s : State) {start stop : ℕ} (hstart : start + 131072 < stop)
    (hstop : stop < 4294967296) :
    initMm s start stop ≠ .error .outOfFuel ∧
    ∀ t, initMm s start stop = .ok t →
      ∀ ops h, run heapStep ⟨t, [(t.pheapDesc, 32)]⟩ ops = some h →
        HeapLayout h ∧
        (∀ size, h.state.lastAlloc + size + 8 < 4294967296 →
          malloc h.state size ≠ .error .outOfFuel) ∧
        ∀ op h', heapStep h op = some h' → (∀ x v, op ≠ .write x v) →
          ∀ a ∈ h.live, ∀ z, InPayload a z → h'.state.mem z = h.state.mem z := by
  rcases initMm_cases s hstart hstop with heq | ⟨t, heq, hs, hi⟩
  · rw [heq]
    exact ⟨nofun, nofun⟩
  · rw [heq]
    refine ⟨nofun, ?_⟩
    rintro t' ht' ops h hrun
    cases ht'
    obtain ⟨hs', hh⟩ := hi.run hrun
    exact ⟨hh.layout, fun size hfit => hh.malloc_ends hfit,
      fun op h' hstep hop a ha z hz => hh.payloads_kept hop hstep ha hz⟩

/-- A heap of 256 bytes: 10 and 7 bytes are allocated, and the freed 10 are reused for 5. -/
theorem malloc_noninterference_reuse :
    let s : State := ⟨fun _ => 0, 0, 0, 0, 0, 0, 0, 0⟩
    let t := (initMm s 4096 135424).toOption.getD s
    let h := (run heapStep ⟨t, [(t.pheapDesc, 32)]⟩
      [.malloc 10, .malloc 7, .write 4149 255, .free 4148, .malloc 5]).getD ⟨t, []⟩
    h.live = [(4148, 5), (4170, 7), (4104, 32)] ∧ HeapLayout h := by
  intro s t h
  have ht : initMm s 4096 135424 = .ok t := eq_ok_getD s (by decide +kernel)
  have hrun : run heapStep ⟨t, [(t.pheapDesc, 32)]⟩
      [.malloc 10, .malloc 7, .write 4149 255, .free 4148, .malloc 5] = some h :=
    run_eq_getD (⟨t, []⟩ : Heap) (by decide +kernel)
  have hlive : h.live = [(4148, 5), (4170, 7), (4104, 32)] := by decide +kernel
  exact ⟨hlive,
    ((malloc_noninterference s (by decide) (by decide)).2 t ht _ h hrun).1⟩

end Unos.Malloc
