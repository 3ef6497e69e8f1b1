import Unos.Library.ByteMemory

namespace Unos.ByteMemory

def load16 (m : Mem) (a : ℕ) : ℕ := load8 m a + 256 * load8 m (a + 1)

def load64 (m : Mem) (a : ℕ) : ℕ := load32 m a + 4294967296 * load32 m (a + 4)

def store64 (m : Mem) (a v : ℕ) : Mem :=
  store32 (store32 m a (v % 4294967296)) (a + 4) (v / 4294967296)

variable {m m' : Mem} {a b v x : ℕ}

theorem store64_of_outside (h : x < a ∨ a + 8 ≤ x) : store64 m a v x = m x := by
  rw [store64, store32_of_outside (by omega), store32_of_outside (by omega)]

theorem load64_store64 (m : Mem) (a : ℕ) (hv : v < 18446744073709551616) :
    load64 (store64 m a v) a = v := by
  have hlow : load32 (store64 m a v) a = v % 4294967296 := by
    rw [store64, load32_store32_of_disjoint (by omega)]
    exact load32_store32 m (Nat.mod_lt _ (by decide))
  have hhigh : load32 (store64 m a v) (a + 4) = v / 4294967296 := load32_store32 _ (by omega)
  rw [load64, hlow, hhigh]
  omega

theorem load64_congr (h : ∀ x, a ≤ x → x < a + 8 → m' x = m x) : load64 m' a = load64 m a := by
  have hlow : load32 m' a = load32 m a := load32_congr fun x h1 h2 => h x h1 (by omega)
  have hhigh : load32 m' (a + 4) = load32 m (a + 4) := load32_congr fun x h1 h2 =>
    h x (by omega) (by omega)
  rw [load64, hlow, hhigh, load64]

end Unos.ByteMemory
