import Mathlib.Logic.Function.Basic
import Mathlib.Data.Nat.Notation

/-! Windows onto one memory. Each window has a private frame, and one window at a time is
placed on a frame that all share. Stores through a window reach no other one, and a window
gives the shared frame to another by two copies, after which every window has what it had. -/
namespace GameOfThreads.Machine

variable {ι β : Type*}

/-- `n` bytes from `src` on over those from `dest` on. -/
def copyFrame (dest src n : ℕ) (mem : ℕ → β) : ℕ → β :=
  fun a => if dest ≤ a ∧ a < dest+n then mem (src+(a-dest)) else mem a

theorem copyFrame_inside {dest src n i : ℕ} (mem : ℕ → β) (hi : i < n) :
    copyFrame dest src n mem (dest+i) = mem (src+i) := by
  rw [copyFrame, if_pos (by omega), Nat.add_sub_cancel_left]

theorem copyFrame_outside {dest src n a : ℕ} (mem : ℕ → β) (ha : a < dest ∨ dest+n ≤ a) :
    copyFrame dest src n mem a = mem a := by
  rw [copyFrame, if_neg (by omega)]

@[simp] theorem copyFrame_zero (dest src : ℕ) (mem : ℕ → β) : copyFrame dest src 0 mem = mem := by
  funext a
  exact copyFrame_outside mem (by omega)

/-- Frames of size `n` that have no byte in common. -/
def Apart (n a b : ℕ) : Prop := a+n ≤ b ∨ b+n ≤ a

theorem Apart.symm {n a b : ℕ} (h : Apart n a b) : Apart n b a := Or.symm h

/-- A copy between frames that are apart goes on byte by byte. -/
theorem copyFrame_succ {dest src n i : ℕ} (mem : ℕ → β) (h : Apart n dest src) (hi : i < n) :
    Function.update (copyFrame dest src i mem) (dest+i) (copyFrame dest src i mem (src+i)) =
      copyFrame dest src (i+1) mem := by
  unfold Apart at h
  have hsource : copyFrame dest src i mem (src+i) = mem (src+i) :=
    copyFrame_outside mem (by omega)
  rw [hsource]
  funext a
  by_cases ha : a = dest+i
  · subst ha
    rw [Function.update_self, copyFrame_inside mem (Nat.lt_succ_self i)]
  · rw [Function.update_of_ne ha]
    by_cases hin : dest ≤ a ∧ a < dest+i
    · obtain ⟨j,rfl⟩ := Nat.exists_eq_add_of_le hin.1
      rw [copyFrame_inside mem (by omega), copyFrame_inside mem (by omega)]
    · rw [copyFrame_outside mem (by omega), copyFrame_outside mem (by omega)]

/-- The shared frame and the private ones. -/
structure Frames (ι : Type*) (n : ℕ) where
  shared : ℕ
  own : ι → ℕ
  shared_apart : ∀ i, Apart n shared (own i)
  own_apart : ∀ i j, i ≠ j → Apart n (own i) (own j)

namespace Frames
variable [DecidableEq ι] {n : ℕ} (F : Frames ι n)

/-- Where window `i` is placed while window `view` has the shared frame. -/
def place (view i : ι) : ℕ := if i = view then F.shared else F.own i

@[simp] theorem place_self (view : ι) : F.place view view = F.shared := if_pos rfl

theorem place_other {view i : ι} (h : i ≠ view) : F.place view i = F.own i := if_neg h

theorem place_apart (view : ι) {i j : ι} (h : i ≠ j) :
    Apart n (F.place view i) (F.place view j) := by
  by_cases hi : i = view
  · subst hi
    rw [place_self, F.place_other h.symm]
    exact F.shared_apart j
  · rw [F.place_other hi]
    by_cases hj : j = view
    · subst hj
      rw [place_self]
      exact (F.shared_apart i).symm
    · rw [F.place_other hj]
      exact F.own_apart i j h

/-- The bytes seen through window `i`. -/
def window (view i : ι) (mem : ℕ → β) : Fin n → β := fun a => mem (F.place view i+a)

theorem window_store_self (view i : ι) (mem : ℕ → β) (j : Fin n) (b : β) :
    F.window view i (Function.update mem (F.place view i+j) b) =
      Function.update (F.window view i mem) j b := by
  funext a
  by_cases h : a = j
  · subst h
    simp [window]
  · have hne : F.place view i+(a : ℕ) ≠ F.place view i+j := by
      intro heq
      exact h (Fin.ext (by omega))
    rw [window, Function.update_of_ne hne, Function.update_of_ne h]
    rfl

theorem window_store_other (view : ι) {i k : ι} (h : k ≠ i) (mem : ℕ → β) (j : Fin n) (b : β) :
    F.window view k (Function.update mem (F.place view i+j) b) = F.window view k mem := by
  funext a
  have hapart := F.place_apart view h
  have hne : F.place view k+(a : ℕ) ≠ F.place view i+j := by
    have := a.isLt
    have := j.isLt
    unfold Apart at hapart
    omega
  rw [window, Function.update_of_ne hne]
  rfl

/-- The shared frame saved for `cur` and filled for `dest`. -/
def exchange (cur dest : ι) (mem : ℕ → β) : ℕ → β :=
  copyFrame F.shared (F.own dest) n (copyFrame (F.own cur) F.shared n mem)

/-- The shared frame changes hands and no window changes its content. -/
theorem window_exchange {cur dest : ι} (h : dest ≠ cur) (i : ι) (mem : ℕ → β) :
    F.window dest i (F.exchange cur dest mem) = F.window cur i mem := by
  funext a
  have ha := a.isLt
  have hcur := F.shared_apart cur
  have hdest := F.shared_apart dest
  have hown := F.own_apart dest cur h
  unfold Apart at hcur hdest hown
  simp only [window, exchange]
  by_cases hid : i = dest
  · subst hid
    rw [place_self, F.place_other h, copyFrame_inside _ ha, copyFrame_outside _ (by omega)]
  · rw [F.place_other hid]
    have hi := F.shared_apart i
    unfold Apart at hi
    rw [copyFrame_outside _ (by omega)]
    by_cases hic : i = cur
    · subst hic
      rw [place_self, copyFrame_inside _ ha]
    · have hic' := F.own_apart i cur hic
      unfold Apart at hic'
      rw [F.place_other hic, copyFrame_outside _ (by omega)]

end Frames
end GameOfThreads.Machine
