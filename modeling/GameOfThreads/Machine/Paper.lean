import GameOfThreads.Machine.Layout
import Mathlib.Logic.Function.Basic

/-! Paper behind a window. Cells are written one after another on paper without end, and rubbed
out again from the last one back. The window is a grid on it that scrolls down with the writing and
never up. -/
namespace GameOfThreads.Machine
variable {β : Type*}

structure Paper (β : Type*) where
  cell : ℕ → β
  pos : ℕ

namespace Paper

def write (b : β) (P : Paper β) : Paper β := ⟨Function.update P.cell P.pos b,P.pos+1⟩

def erase (blank : β) (P : Paper β) : Paper β :=
  ⟨Function.update P.cell (P.pos-1) blank,P.pos-1⟩

/-- `P` is `P₀` with cells written from its position on, as far as `top`, and with those from the
position of `P` on rubbed out again. -/
structure Marked (blank : β) (P₀ P : Paper β) (top : ℕ) : Prop where
  start : P₀.pos ≤ P.pos
  stop : P.pos ≤ top
  outside : ∀ p, p < P₀.pos ∨ top ≤ p → P.cell p = P₀.cell p
  erased : ∀ p, P.pos ≤ p → p < top → P.cell p = blank

namespace Marked
variable {blank : β} {P₀ P : Paper β} {top : ℕ}

theorem refl (blank : β) (P : Paper β) : Marked blank P P P.pos :=
  ⟨Nat.le_refl _,Nat.le_refl _,fun _ _ => rfl,fun _ hle hlt => absurd hlt (Nat.not_lt.mpr hle)⟩

theorem write (h : Marked blank P₀ P P.pos) (b : β) :
    Marked blank P₀ (P.write b) (P.write b).pos where
  start := Nat.le_trans h.start (Nat.le_succ _)
  stop := Nat.le_refl _
  outside p hp := by
    have hstart := h.start
    have hpos : (P.write b).pos = P.pos+1 := rfl
    have hne : p ≠ P.pos := by omega
    exact (Function.update_of_ne hne ..).trans (h.outside p (by omega))
  erased _ hle hlt := absurd hlt (Nat.not_lt.mpr hle)

theorem erase (h : Marked blank P₀ P top) (hlt : P₀.pos < P.pos) :
    Marked blank P₀ (P.erase blank) top where
  start := Nat.le_sub_one_of_lt hlt
  stop := Nat.le_trans (Nat.sub_le ..) h.stop
  outside p hp := by
    have hstop := h.stop
    have hne : p ≠ P.pos-1 := by omega
    exact (Function.update_of_ne hne ..).trans (h.outside p hp)
  erased p hle hp := by
    have hpos : (P.erase blank).pos = P.pos-1 := rfl
    by_cases heq : p = P.pos-1
    · rw [heq]
      exact Function.update_self ..
    · exact (Function.update_of_ne heq ..).trans (h.erased p (by omega) hp)

/-- With everything rubbed out only blanks are left of what was written. -/
theorem cells (h : Marked blank P₀ P top) (hpos : P.pos = P₀.pos) (p : ℕ) :
    P.cell p = if P₀.pos ≤ p ∧ p < top then blank else P₀.cell p := by
  split_ifs with hp
  · exact h.erased p (by omega) hp.2
  · exact h.outside p (by omega)

end Marked
end Paper

namespace Grid

/-- The cursor one cell back. -/
def back (width : ℕ) (G : Grid β) : Grid β :=
  if G.x = 0 then { G with x := width-1, y := G.y-1 } else { G with x := G.x-1 }

/-- The cell before the cursor rubbed out. -/
def rub (width : ℕ) (blank : β) (G : Grid β) : Grid β := (G.back width).setCell blank

/-- The grid is the window on the paper that begins with row `top`, and the paper is blank below
it. -/
structure Bears (width height : ℕ) (blank : β) (top : ℕ) (P : Paper β) (G : Grid β) : Prop where
  cell : ∀ i < height, ∀ j < width, G.cell i j = P.cell (width*(top+i)+j)
  pos : width*(top+G.y)+G.x = P.pos
  x : G.x < width
  y : G.y < height
  below : ∀ p, width*(top+height) ≤ p → P.cell p = blank

/-- The paper that a grid shows, from its first row on. -/
def paper (width height : ℕ) (blank : β) (G : Grid β) : Paper β where
  cell p := if p < width*height then G.cell (p/width) (p%width) else blank
  pos := width*G.y+G.x

section
variable {width height top : ℕ} {blank : β} {P : Paper β} {G G' : Grid β}

theorem row_lt {i j n : ℕ} (hi : i < n) (hj : j < width) : width*i+j < width*n := by
  have hle : width*(i+1) ≤ width*n := Nat.mul_le_mul_left width hi
  rw [Nat.mul_succ] at hle
  omega

/-- Different cells of a grid are different cells of the paper. -/
theorem cell_eq_iff {i j y x : ℕ} (hj : j < width) (hx : x < width) :
    width*i+j = width*y+x ↔ i = y ∧ j = x := by
  constructor
  · intro h
    rcases Nat.lt_trichotomy i y with hlt | rfl | hlt
    · have hrow := row_lt hlt hj
      omega
    · exact ⟨rfl,by omega⟩
    · have hrow := row_lt hlt hx
      omega
  · rintro ⟨rfl,rfl⟩
    rfl

theorem bears_paper (hx : G.x < width) (hy : G.y < height) :
    Bears width height blank 0 (G.paper width height blank) G := by
  refine ⟨?_,?_,hx,hy,?_⟩
  · intro i hi j hj
    have hlt : width*i+j < width*height := row_lt hi hj
    have hpos : 0 < width := by omega
    simp only [Grid.paper, Nat.zero_add]
    rw [if_pos hlt, Nat.mul_add_div hpos, Nat.div_eq_of_lt hj, Nat.mul_add_mod,
      Nat.mod_eq_of_lt hj, Nat.add_zero]
  · simp [Grid.paper]
  · intro p hp
    rw [Nat.zero_add] at hp
    exact if_neg (Nat.not_lt.mpr hp)

theorem Bears.agrees (h : Bears width height blank top P G) (hG : Agrees width height G G') :
    Bears width height blank top P G' := by
  refine ⟨?_,?_,?_,?_,h.below⟩
  · exact fun i hi j hj => (hG.cell i hi j hj).trans (h.cell i hi j hj)
  · rw [hG.x, hG.y]
    exact h.pos
  · rw [hG.x]
    exact h.x
  · rw [hG.y]
    exact h.y

theorem Bears.setCell (h : Bears width height blank top P G) (b : β) :
    Bears width height blank top ⟨Function.update P.cell P.pos b,P.pos⟩ (G.setCell b) := by
  have hx := h.x
  have hy := h.y
  refine ⟨?_,h.pos,h.x,h.y,?_⟩
  · intro i hi j hj
    simp only [Grid.setCell]
    rw [← h.pos, Function.update_apply]
    have hsame : (i = G.y ∧ j = G.x) ↔ width*(top+i)+j = width*(top+G.y)+G.x := by
      rw [cell_eq_iff hj h.x]
      omega
    simp only [hsame, h.cell i hi j hj]
  · intro p hp
    have hlt : width*(top+G.y)+G.x < width*(top+height) := row_lt (by omega) hx
    have hne : p ≠ P.pos := by
      have hpos := h.pos
      omega
    exact (Function.update_of_ne hne ..).trans (h.below p hp)

/-- The cursor at the start of the next row, and the window one row down if that is below it. -/
theorem Bears.nextRow (h : Bears width height blank top P G) :
    Bears width height blank (if G.y+1 < height then top else top+1)
      { P with pos := width*(top+G.y+1) } (G.nextRow height blank) := by
  have hx := h.x
  have hy := h.y
  unfold Grid.nextRow
  split_ifs with hnext
  · exact ⟨h.cell,rfl,by simp only; omega,hnext,h.below⟩
  · have hlast : G.y+1 = height := by omega
    refine ⟨?_,?_,by simp only [Grid.scroll]; omega,by simp only [Grid.scroll]; omega,?_⟩
    · intro i hi j hj
      have hrow : top+1+i = top+(i+1) := by omega
      simp only [Grid.scroll]
      rw [hrow]
      split_ifs with hi'
      · exact h.cell (i+1) hi' j hj
      · have hend : i+1 = height := by omega
        rw [hend]
        exact (h.below _ (Nat.le_add_right ..)).symm
    · simp only [Grid.scroll, Nat.add_zero]
      congr 1
      omega
    · intro p hp
      have hle : width*(top+height) ≤ width*(top+1+height) := Nat.mul_le_mul_left width (by omega)
      exact h.below p (by omega)

/-- The first row of the window when the writing has come to a position. -/
def topRow (width height pos : ℕ) : ℕ := pos/width-(height-1)

/-- Writing on the window is writing on the paper. -/
theorem Bears.write (h : Bears width height blank (topRow width height P.pos) P G) (b : β) :
    Bears width height blank (topRow width height (P.write b).pos) (P.write b)
      (G.put width height blank (some b)) := by
  have hset := h.setCell b
  have hx := h.x
  have hy := h.y
  have hrow : P.pos/width = topRow width height P.pos+G.y := by
    rw [← h.pos, Nat.mul_add_div (by omega), Nat.div_eq_of_lt hx, h.pos, Nat.add_zero]
  have hpos := h.pos
  generalize htop : topRow width height P.pos = top at *
  unfold topRow at htop
  have hwritten : (P.write b).pos = P.pos+1 := rfl
  simp only [Grid.put]
  split_ifs with hnext
  · have hsame : topRow width height (P.write b).pos = top := by
      have hdiv : (P.pos+1)/width = top+G.y := by
        rw [← hpos, Nat.add_assoc, Nat.mul_add_div (by omega), Nat.div_eq_of_lt hnext,
          Nat.add_zero]
      rw [topRow, hwritten, hdiv, ← hrow]
      exact htop
    rw [hsame]
    exact ⟨hset.cell,by rw [hwritten, ← hpos]; rfl,hnext,hy,hset.below⟩
  · have hend : G.x+1 = width := by omega
    have hstart : P.pos+1 = width*(top+G.y+1) := by
      rw [← hpos, Nat.mul_succ]
      omega
    have hdown : topRow width height (P.write b).pos = if G.y+1 < height then top else top+1 := by
      have hdiv : (P.pos+1)/width = top+G.y+1 := by
        rw [hstart, Nat.mul_div_cancel_left _ (by omega)]
      rw [topRow, hwritten, hdiv]
      split_ifs <;> omega
    rw [hdown]
    have hrow : width*(top+(G.setCell b).y+1) = P.pos+1 := hstart.symm
    have hdone := hset.nextRow
    rw [hrow] at hdone
    exact hdone

theorem Bears.back (h : Bears width height blank top P G) (hpos : width*top < P.pos) :
    Bears width height blank top { P with pos := P.pos-1 } (G.back width) := by
  have hx := h.x
  have hy := h.y
  have hcursor := h.pos
  unfold Grid.back
  split_ifs with hzero
  · have hbelow : G.y ≠ 0 := by
      intro hy₀
      rw [hzero, hy₀, Nat.add_zero, Nat.add_zero] at hcursor
      omega
    have hrow : top+G.y = top+(G.y-1)+1 := by omega
    refine ⟨h.cell,?_,by simp only; omega,by simp only; omega,h.below⟩
    rw [hzero, hrow, Nat.mul_succ] at hcursor
    simp only
    omega
  · exact ⟨h.cell,by simp only; omega,by simp only; omega,hy,h.below⟩

/-- Rubbing out on the window is rubbing out on the paper, as long as the window begins before
the cursor. -/
theorem Bears.rub (h : Bears width height blank top P G) (hpos : width*top < P.pos) :
    Bears width height blank top (P.erase blank) (G.rub width blank) :=
  (h.back hpos).setCell blank

end
end Grid
end GameOfThreads.Machine
