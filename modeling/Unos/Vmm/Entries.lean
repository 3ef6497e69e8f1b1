import Unos.Vmm.Model

namespace Unos.Vmm

open Unos.Words Unos.ByteMemory

theorem and_frame_mask {x : ℕ} (hx : x < 4294967296) : x &&& 0xFFFFF000 = 4096 * (x / 4096) :=
  and_high_mask (n := 32) (k := 12) hx (by decide)

theorem and_wide_frame_mask {x : ℕ} (hx : x < 4294967296) :
    x &&& 0xFFFFFF000 = 4096 * (x / 4096) :=
  and_high_mask (n := 36) (k := 12) (by omega) (by decide)

theorem pageDirectoryIndex_eq {x : ℕ} (hx : x < 4294967296) :
    pageDirectoryIndex x = x / 4194304 := by
  rw [pageDirectoryIndex, Nat.shiftRight_eq_div_pow,
    show 0x3ff = 2 ^ 10 - 1 by decide, and_low_mask]
  omega

theorem pageTableIndex_eq (x : ℕ) : pageTableIndex x = x / 4096 % 1024 := by
  rw [pageTableIndex, Nat.shiftRight_eq_div_pow, show 0x3ff = 2 ^ 10 - 1 by decide, and_low_mask]
  rfl

theorem pageFrameIndex_eq (x : ℕ) : pageFrameIndex x = x &&& 0xfff := by
  have hhigh : wrap32 (x <<< 20) = 1048576 * (x % 4096) := by
    unfold wrap32
    rw [Nat.shiftLeft_eq]
    omega
  have hmask : 1048576 * (x % 4096) &&& 0xfff00000 = 2 ^ 20 * (1048576 * (x % 4096) / 2 ^ 20) :=
    and_high_mask (n := 32) (k := 20) (by omega) (by decide)
  rw [pageFrameIndex, hhigh, hmask, Nat.shiftRight_eq_div_pow, show 0xfff = 2 ^ 12 - 1 by decide,
    and_low_mask]
  omega

theorem or_attr {attr : ℕ} (hattr : attr < 4096) (f : ℕ) : 4096 * f ||| attr = 4096 * f + attr :=
  or_low_bits (k := 12) hattr f

theorem or_flags (f : ℕ) : 4096 * f ||| ptePresent ||| pteWritable ||| pteUser = 4096 * f + 7 := by
  rw [Nat.lor_assoc, Nat.lor_assoc]
  exact or_attr (by decide) f

theorem and_present (x : ℕ) : x &&& ptePresent = x % 2 := and_low_mask x 1

/-- A directory or table entry; a table is found by the frame of its entry. -/
def entry (m : Mem) (base i : ℕ) : ℕ := load32 m (base + 4 * i)

def tableOf (pde : ℕ) : ℕ := 4096 * (pde / 4096)

theorem entry_lt (m : Mem) (base i : ℕ) : entry m base i < 4294967296 := load32_lt _ _

section Words

variable {m : Mem} {a b i j v : ℕ}

theorem entry_store (hv : v < 4294967296) : entry (store32 m (a + 4 * i) v) a i = v :=
  load32_store32 m hv

theorem entry_store_of_ne (h : j ≠ i) : entry (store32 m (a + 4 * i) v) a j = entry m a j :=
  load32_store32_of_disjoint (by omega)

/-- Different frames share no word. -/
theorem entry_store_of_frame_ne (ha : a % 4096 = 0) (hb : b % 4096 = 0) (hab : b ≠ a)
    (hi : i < 1024) (hj : j < 1024) : entry (store32 m (a + 4 * i) v) b j = entry m b j :=
  load32_store32_of_disjoint (by omega)

theorem entry_fill_zero (hj : j < 1024) : entry (fill m a 0 4096) a j = 0 := by
  have hbyte : ∀ k, k < 4096 → load8 (fill m a 0 4096) (a + k) = 0 := fun k hk => by
    rw [load8, fill_apply, if_pos (by omega)]
    rfl
  have h1 := hbyte (4 * j + 1) (by omega)
  have h2 := hbyte (4 * j + 2) (by omega)
  have h3 := hbyte (4 * j + 3) (by omega)
  rw [← Nat.add_assoc] at h1 h2 h3
  rw [entry, load32, hbyte (4 * j) (by omega), h1, h2, h3]

theorem entry_fill_of_frame_ne (ha : a % 4096 = 0) (hb : b % 4096 = 0) (hab : b ≠ a)
    (hj : j < 1024) : entry (fill m a 0 4096) b j = entry m b j :=
  load32_congr fun x h1 h2 => fill_of_outside (by omega)

end Words

end Unos.Vmm
