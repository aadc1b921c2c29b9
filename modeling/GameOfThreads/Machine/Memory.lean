import GameOfThreads.Machine.Word
import Mathlib.Data.List.GetD

/-! Byte memories as functions on addresses: little-endian words, NUL-terminated strings
and consecutive stores, each described byte by byte. -/
namespace GameOfThreads.Machine

/-- The characters of a string literal, one byte each. -/
def text (s : String) : List UInt8 := s.toList.map fun c => c.toNat.toUInt8

/-- The little-endian 32-bit word at an address. -/
def word (mem : ℕ → UInt8) (a : ℕ) : ℕ :=
  (mem a).toNat + 256*(mem (a+1)).toNat + 65536*(mem (a+2)).toNat + 16777216*(mem (a+3)).toNat

/-- Consecutive stores of a list of bytes from an address on. -/
def overlay (mem : ℕ → UInt8) (a : ℕ) (bs : List UInt8) : ℕ → UInt8 :=
  fun i => if a ≤ i then bs.getD (i-a) (mem i) else mem i

/-- The memory behind a pointer to a NUL-terminated string. -/
def cstring (s : List UInt8) : ℕ → UInt8 := fun i => s.getD i 0

/-- The number of bytes before the first NUL. -/
def strlen (s : List UInt8) : ℕ := (s.takeWhile (· ≠ 0)).length

/-- Byte by byte, the destination after a string has been copied over it. The copy reaches
byte `i` exactly when no earlier byte of the source is the terminator. -/
def strcpy (dest src : ℕ → UInt8) : ℕ → UInt8 :=
  fun i => if ∀ j < i, src j ≠ 0 then src i else dest i

/-- A signed character. -/
def char (b : UInt8) : ℤ := if b.toNat < 128 then b.toNat else (b.toNat : ℤ) - 256

/-- Comparison of at most `n` bytes from index `i` on: the loop of strncmp. -/
def strncmpFrom (s₁ s₂ : ℕ → UInt8) : (n i : ℕ) → ℤ
  | 0,_ => 0
  | n+1,i =>
    if s₁ i ≠ s₂ i ∨ s₁ i = 0 then char (s₁ i) - char (s₂ i) else strncmpFrom s₁ s₂ n (i+1)

def strncmp (s₁ s₂ : ℕ → UInt8) (n : ℕ) : ℤ := strncmpFrom s₁ s₂ n 0

end GameOfThreads.Machine
