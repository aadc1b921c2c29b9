import Mathlib.Tactic.Ring
import Mathlib.Tactic.IntervalCases

/-! Fixed-width machine integers as residues of `ℕ` and `ℤ`. A value of an unsigned type
is a natural number below its modulus and a value of a signed type an integer in its
range, so that linear arithmetic stays available and every wrap is written out. -/
namespace GameOfThreads.Machine

/-- Conversion to an unsigned 8-bit value. -/
def u8 (z : ℤ) : ℕ := (z % 256).toNat

/-- Conversion to an unsigned 32-bit value. -/
def u32 (z : ℤ) : ℕ := (z % 4294967296).toNat

/-- Conversion to a signed 32-bit value, in two's complement. -/
@[irreducible] def i32 (z : ℤ) : ℤ :=
  if z % 4294967296 < 2147483648 then z % 4294967296 else z % 4294967296 - 4294967296

theorem u32_natCast {n : ℕ} (h : n < 4294967296) : u32 n = n := by unfold u32; omega

theorem u32_eq_toNat {z : ℤ} (h₀ : 0 ≤ z) (h : z < 4294967296) : u32 z = z.toNat := by
  unfold u32; omega

theorem u32_sub {z : ℤ} {n : ℕ} (h₀ : 0 ≤ z) (h : z < 4294967296) (hn : n ≤ z.toNat) :
    u32 (z-n) = z.toNat-n := by
  unfold u32
  omega

theorem i32_lt (z : ℤ) : i32 z < 2147483648 := by
  unfold i32
  split_ifs <;> omega

theorem i32_of_range {z : ℤ} (h₀ : -2147483648 ≤ z) (h : z < 2147483648) : i32 z = z := by
  unfold i32
  split_ifs <;> omega

theorem i32_ge (z : ℤ) : -2147483648 ≤ i32 z := by
  unfold i32
  split_ifs <;> omega

theorem i32_i32_add (y z : ℤ) : i32 (i32 y+z) = i32 (y+z) := by
  unfold i32
  split_ifs <;> omega

theorem u32_i32 (z : ℤ) : u32 (i32 z) = u32 z := by
  unfold u32 i32
  split_ifs <;> omega

theorem u32_lt (z : ℤ) : u32 z < 4294967296 := by unfold u32; omega

end GameOfThreads.Machine
