import Unos.Vmm.Entries

namespace Unos.Vmm

open Unos.Words Unos.ByteMemory

def pdeOf (m : Mem) (dir page : ℕ) : ℕ := entry m dir (page / 1024)

/-- The table entry of a page, 0 when the page has no table. -/
def pteOf (m : Mem) (dir page : ℕ) : ℕ :=
  if pdeOf m dir page % 2 = 1 then entry m (tableOf (pdeOf m dir page)) (page % 1024) else 0

/-- The frame that the two-level walk ends at, `none` when it faults. -/
def walk (m : Mem) (dir page : ℕ) : Option ℕ :=
  if pteOf m dir page % 2 = 1 then some (pteOf m dir page / 4096) else none

/-- The tables of a directory are frames of their own. -/
structure Tables (m : Mem) (dir : ℕ) : Prop where
  aligned : dir % 4096 = 0
  ne_dir : ∀ i < 1024, entry m dir i % 2 = 1 → tableOf (entry m dir i) ≠ dir
  ne : ∀ i < 1024, ∀ k < 1024, i ≠ k → entry m dir i % 2 = 1 → entry m dir k % 2 = 1 →
    tableOf (entry m dir i) ≠ tableOf (entry m dir k)

/-- The frame at `t` is neither the directory nor one of its tables. -/
def NewFrame (m : Mem) (dir t : ℕ) : Prop :=
  t ≠ dir ∧ ∀ i < 1024, entry m dir i % 2 = 1 → tableOf (entry m dir i) ≠ t

theorem tableOf_aligned (e : ℕ) : tableOf e % 4096 = 0 := by
  unfold tableOf
  omega

theorem pteOf_lt (m : Mem) (dir page : ℕ) : pteOf m dir page < 4294967296 := by
  unfold pteOf
  split
  · exact entry_lt _ _ _
  · decide

theorem pteOf_of_missing {m : Mem} {dir page : ℕ} (h : ¬ pdeOf m dir page % 2 = 1) :
    pteOf m dir page = 0 := if_neg h

theorem walk_congr {m m' : Mem} {dir page : ℕ} (h : pteOf m' dir page = pteOf m dir page) :
    walk m' dir page = walk m dir page := by
  rw [walk, walk, h]

section Stores

variable {m : Mem} {dir i j w t attr : ℕ}

theorem Tables.entry_store_pte (h : Tables m dir) (hi : i < 1024) (hj : j < 1024)
    (hpde : entry m dir i % 2 = 1) {k : ℕ} (hk : k < 1024) :
    entry (store32 m (tableOf (entry m dir i) + 4 * j) w) dir k = entry m dir k :=
  entry_store_of_frame_ne (tableOf_aligned _) h.aligned (h.ne_dir i hi hpde).symm hj hk

theorem Tables.store_pte (h : Tables m dir) (hi : i < 1024) (hj : j < 1024)
    (hpde : entry m dir i % 2 = 1) (w : ℕ) :
    Tables (store32 m (tableOf (entry m dir i) + 4 * j) w) dir where
  aligned := h.aligned
  ne_dir k hk hk1 := by
    rw [h.entry_store_pte hi hj hpde hk] at hk1 ⊢
    exact h.ne_dir k hk hk1
  ne k hk l hl hkl hk1 hl1 := by
    rw [h.entry_store_pte hi hj hpde hk] at hk1 ⊢
    rw [h.entry_store_pte hi hj hpde hl] at hl1 ⊢
    exact h.ne k hk l hl hkl hk1 hl1

theorem Tables.pteOf_store_pte (h : Tables m dir) (hi : i < 1024) (hj : j < 1024)
    (hpde : entry m dir i % 2 = 1) (hw : w < 4294967296) {page : ℕ} (hpage : page < 1048576) :
    pteOf (store32 m (tableOf (entry m dir i) + 4 * j) w) dir page =
      if page = 1024 * i + j then w else pteOf m dir page := by
  have hk : page / 1024 < 1024 := by omega
  have hl : page % 1024 < 1024 := Nat.mod_lt _ (by decide)
  have hdir : pdeOf (store32 m (tableOf (entry m dir i) + 4 * j) w) dir page = pdeOf m dir page :=
    h.entry_store_pte hi hj hpde hk
  rw [pteOf, pteOf, hdir]
  by_cases hki : page / 1024 = i
  · have hsame : pdeOf m dir page = entry m dir i := by rw [pdeOf, hki]
    rw [hsame, if_pos hpde, if_pos hpde]
    by_cases hlj : page % 1024 = j
    · have hself : page = 1024 * i + j := by omega
      rw [if_pos hself, hlj, entry_store hw]
    · have hother : page ≠ 1024 * i + j := by omega
      rw [if_neg hother, entry_store_of_ne hlj]
  · have hother : page ≠ 1024 * i + j := by omega
    rw [if_neg hother]
    by_cases hodd : pdeOf m dir page % 2 = 1
    · have hne : tableOf (pdeOf m dir page) ≠ tableOf (entry m dir i) :=
        h.ne _ hk i hi hki hodd hpde
      rw [if_pos hodd, if_pos hodd,
        entry_store_of_frame_ne (tableOf_aligned _) (tableOf_aligned _) hne hj hl]
    · rw [if_neg hodd, if_neg hodd]

theorem entry_store_outside (h : Tables m dir) (hnew : NewFrame m dir t) (ht : t % 4096 = 0)
    (hj : j < 1024) {k : ℕ} (hk : k < 1024) :
    entry (store32 m (t + 4 * j) w) dir k = entry m dir k :=
  entry_store_of_frame_ne ht h.aligned hnew.1.symm hj hk

theorem Tables.store_outside (h : Tables m dir) (hnew : NewFrame m dir t) (ht : t % 4096 = 0)
    (hj : j < 1024) (w : ℕ) : Tables (store32 m (t + 4 * j) w) dir where
  aligned := h.aligned
  ne_dir k hk hk1 := by
    rw [entry_store_outside h hnew ht hj hk] at hk1 ⊢
    exact h.ne_dir k hk hk1
  ne k hk l hl hkl hk1 hl1 := by
    rw [entry_store_outside h hnew ht hj hk] at hk1 ⊢
    rw [entry_store_outside h hnew ht hj hl] at hl1 ⊢
    exact h.ne k hk l hl hkl hk1 hl1

theorem Tables.pteOf_store_outside (h : Tables m dir) (hnew : NewFrame m dir t)
    (ht : t % 4096 = 0) (hj : j < 1024) (w : ℕ) {page : ℕ} (hpage : page < 1048576) :
    pteOf (store32 m (t + 4 * j) w) dir page = pteOf m dir page := by
  have hk : page / 1024 < 1024 := by omega
  have hl : page % 1024 < 1024 := Nat.mod_lt _ (by decide)
  have hdir : pdeOf (store32 m (t + 4 * j) w) dir page = pdeOf m dir page :=
    entry_store_outside h hnew ht hj hk
  rw [pteOf, pteOf, hdir]
  by_cases hodd : pdeOf m dir page % 2 = 1
  · have hne : tableOf (pdeOf m dir page) ≠ t := hnew.2 _ hk hodd
    rw [if_pos hodd, if_pos hodd, entry_store_of_frame_ne ht (tableOf_aligned _) hne hj hl]
  · rw [if_neg hodd, if_neg hodd]

/-- A cleared frame becomes the table of directory entry `i`. -/
def enterTable (m : Mem) (dir i t attr : ℕ) : Mem :=
  store32 (fill m t 0 4096) (dir + 4 * i) (t + attr)

variable (haligned : t % 4096 = 0) (hbound : t < 4294967296) (hattr : attr < 4096)

include haligned hbound hattr in
theorem entry_enterTable_dir (h : Tables m dir) (hnew : NewFrame m dir t) {k : ℕ} (hk : k < 1024) :
    entry (enterTable m dir i t attr) dir k = if k = i then t + attr else entry m dir k := by
  by_cases hki : k = i
  · rw [if_pos hki, hki, enterTable, entry_store (by omega)]
  · rw [if_neg hki, enterTable, entry_store_of_ne hki,
      entry_fill_of_frame_ne haligned h.aligned hnew.1.symm hk]

include haligned in
theorem entry_enterTable_new (h : Tables m dir) (hnew : NewFrame m dir t) (hi : i < 1024)
    (hj : j < 1024) :
    entry (enterTable m dir i t attr) t j = 0 := by
  rw [enterTable, entry_store_of_frame_ne h.aligned haligned hnew.1 hi hj, entry_fill_zero hj]

include haligned in
theorem entry_enterTable_of_ne (h : Tables m dir) (hi : i < 1024) {b : ℕ} (hb : b % 4096 = 0)
    (hbd : b ≠ dir) (hbt : b ≠ t) (hj : j < 1024) :
    entry (enterTable m dir i t attr) b j = entry m b j := by
  rw [enterTable, entry_store_of_frame_ne h.aligned hb hbd hi hj,
    entry_fill_of_frame_ne haligned hb hbt hj]

include haligned hattr in
theorem tableOf_enter : tableOf (t + attr) = t := by
  unfold tableOf
  omega

include haligned hbound hattr in
theorem Tables.enter (h : Tables m dir) (hnew : NewFrame m dir t) :
    Tables (enterTable m dir i t attr) dir where
  aligned := h.aligned
  ne_dir k hk hk1 := by
    rw [entry_enterTable_dir haligned hbound hattr h hnew hk] at hk1 ⊢
    split at hk1
    · next hki =>
      rw [if_pos hki, tableOf_enter haligned hattr]
      exact hnew.1
    · next hki =>
      rw [if_neg hki]
      exact h.ne_dir k hk hk1
  ne k hk l hl hkl hk1 hl1 := by
    rw [entry_enterTable_dir haligned hbound hattr h hnew hk] at hk1 ⊢
    rw [entry_enterTable_dir haligned hbound hattr h hnew hl] at hl1 ⊢
    by_cases hki : k = i
    · have hli : l ≠ i := fun hli => hkl (hki.trans hli.symm)
      rw [if_neg hli] at hl1
      rw [if_pos hki, if_neg hli, tableOf_enter haligned hattr]
      exact (hnew.2 l hl hl1).symm
    · rw [if_neg hki] at hk1
      rw [if_neg hki]
      by_cases hli : l = i
      · rw [if_pos hli, tableOf_enter haligned hattr]
        exact hnew.2 k hk hk1
      · rw [if_neg hli] at hl1
        rw [if_neg hli]
        exact h.ne k hk l hl hkl hk1 hl1

include haligned hbound hattr in
theorem Tables.pteOf_enter (h : Tables m dir) (hnew : NewFrame m dir t) (hi : i < 1024)
    (hmissing : ¬ entry m dir i % 2 = 1) {page : ℕ} (hpage : page < 1048576) :
    pteOf (enterTable m dir i t attr) dir page = pteOf m dir page := by
  have hk : page / 1024 < 1024 := by omega
  have hl : page % 1024 < 1024 := Nat.mod_lt _ (by decide)
  have hdir : pdeOf (enterTable m dir i t attr) dir page =
      if page / 1024 = i then t + attr else pdeOf m dir page :=
    entry_enterTable_dir haligned hbound hattr h hnew hk
  by_cases hki : page / 1024 = i
  · have hnone : ¬ pdeOf m dir page % 2 = 1 := by
      rw [pdeOf, hki]
      exact hmissing
    rw [pteOf_of_missing hnone, pteOf, hdir, if_pos hki, tableOf_enter haligned hattr,
      entry_enterTable_new haligned h hnew hi hl, ite_self]
  · rw [pteOf, pteOf, hdir, if_neg hki]
    by_cases hodd : pdeOf m dir page % 2 = 1
    · have hne : tableOf (pdeOf m dir page) ≠ dir := h.ne_dir _ hk hodd
      have hnt : tableOf (pdeOf m dir page) ≠ t := hnew.2 _ hk hodd
      rw [if_pos hodd, if_pos hodd,
        entry_enterTable_of_ne haligned h hi (tableOf_aligned _) hne hnt hl]
    · rw [if_neg hodd, if_neg hodd]

end Stores

end Unos.Vmm
