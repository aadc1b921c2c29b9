import Mathlib.Data.List.Basic

/-! Sequential reading of a list. A reader is known by how much it has asked for so far and
by what it has been given; it stands at the smaller of that sum and the length. -/
namespace GameOfThreads.Machine

/-- The part of a list from a position on that a request for `n` elements can have. -/
def chunk {α : Type*} (l : List α) (position n : ℕ) : List α := (l.drop position).take n

structure Reader (α : Type*) where
  asked : ℕ
  got : List α
  deriving DecidableEq, Repr

namespace Reader
variable {α : Type*} {l : List α} {r : Reader α} {n : ℕ}

def start : Reader α := ⟨0,[]⟩

def read (n : ℕ) (bs : List α) (r : Reader α) : Reader α := ⟨r.asked+n,r.got++bs⟩

def position (r : Reader α) (l : List α) : ℕ := min r.asked l.length

/-- The reader has been given what it has passed, in order. -/
def Exact (r : Reader α) (l : List α) : Prop := r.got = l.take (r.position l)

theorem start_exact (l : List α) : (start : Reader α).Exact l := by simp [Exact, start, position]

theorem position_le (r : Reader α) (l : List α) : r.position l ≤ l.length := Nat.min_le_right ..

theorem chunk_length (r : Reader α) (l : List α) (n : ℕ) :
    (chunk l (r.position l) n).length = min n (l.length-r.position l) := by
  simp [chunk]

theorem position_read (bs : List α) :
    (r.read n bs).position l = r.position l+min n (l.length-r.position l) := by
  simp only [position, read]
  omega

/-- A reader given the right chunk has still been given what it has passed. -/
theorem Exact.read (h : r.Exact l) (n : ℕ) :
    (r.read n (chunk l (r.position l) n)).Exact l := by
  unfold Exact at *
  rw [position_read, List.take_add]
  simp only [Reader.read, h, chunk]
  congr 1
  rw [List.take_eq_take_min, List.length_drop]

theorem chunk_end (h : l.length ≤ r.asked) : chunk l (r.position l) n = [] := by
  have : r.position l = l.length := Nat.min_eq_right h
  simp [chunk, this]

end Reader
end GameOfThreads.Machine
