import Mathlib.Data.List.GetD
import Mathlib.Data.List.Induction
import Mathlib.Tactic.Common

/-! Wrapped output and the window on it. A layout is a list of rows without end, each at most
as wide as the window; the window has a fixed number of rows, a cursor and nothing else to go
by, and scrolls. What it shows are the last rows of the layout. -/
namespace GameOfThreads.Machine

/-- Output in rows: those that have ended, and the one that goes on. -/
structure Layout (β : Type*) where
  rows : List (List β)
  row : List β

/-- A grid of cells with a cursor. -/
structure Grid (β : Type*) where
  cell : ℕ → ℕ → β
  x : ℕ
  y : ℕ

namespace Layout
variable {β : Type*}

/-- The row ends. -/
def endRow (L : Layout β) : Layout β := ⟨L.rows ++ [L.row],[]⟩

/-- A cell, or nothing for the end of the row. A row also ends when it is full. -/
def put (width : ℕ) (L : Layout β) : Option β → Layout β
  | none => L.endRow
  | some b =>
    if L.row.length+1 < width then ⟨L.rows,L.row ++ [b]⟩ else endRow ⟨L.rows,L.row ++ [b]⟩

def puts (width : ℕ) (L : Layout β) (s : List (Option β)) : Layout β := s.foldl (put width) L

def lines (L : Layout β) : List (List β) := L.rows ++ [L.row]

/-- The number of rows above a window of the given height. -/
def hidden (height : ℕ) (L : Layout β) : ℕ := L.lines.length-height

/-- Cell `j` of row `i` of the window: what is not reached is blank. -/
def visible (height : ℕ) (blank : β) (L : Layout β) (i j : ℕ) : β :=
  (L.lines.getD (L.hidden height+i) []).getD j blank

theorem lines_length (L : Layout β) : L.lines.length = L.rows.length+1 := by
  simp [lines]

theorem lines_endRow (L : Layout β) : L.endRow.lines = L.lines ++ [[]] := rfl

theorem getD_append_nil (l : List (List β)) (n : ℕ) : (l ++ [[]]).getD n [] = l.getD n [] := by
  by_cases h : n < l.length
  · rw [List.getD_append _ _ _ _ h]
  · have hle : l.length ≤ n := Nat.le_of_not_lt h
    rw [List.getD_append_right _ _ _ _ hle, List.getD_eq_default _ _ hle]
    cases n-l.length with
    | zero => rfl
    | succ m => rfl

theorem lines_getD_last (L : Layout β) : L.lines.getD L.rows.length [] = L.row := by
  simp [lines]

theorem lines_getD_ne (rows : List (List β)) (row row' : List β) {n : ℕ} (h : n ≠ rows.length) :
    (lines ⟨rows,row⟩).getD n [] = (lines ⟨rows,row'⟩).getD n [] := by
  unfold lines
  by_cases hlt : n < rows.length
  · rw [List.getD_append _ _ _ _ hlt, List.getD_append _ _ _ _ hlt]
  · rw [List.getD_eq_default _ _ (by simp; omega), List.getD_eq_default _ _ (by simp; omega)]

/-- Below the last row and after its end everything is blank. -/
theorem visible_blank (height : ℕ) (blank : β) (L : Layout β) {i j : ℕ}
    (h : L.rows.length < L.hidden height+i ∨
      L.hidden height+i = L.rows.length ∧ L.row.length ≤ j) :
    L.visible height blank i j = blank := by
  obtain hbelow | ⟨hrow,hj⟩ := h
  · have hlength := L.lines_length
    have hnone : L.lines.getD (L.hidden height+i) [] = [] :=
      List.getD_eq_default _ _ (by omega)
    rw [visible, hnone]
    rfl
  · rw [visible, hrow, lines_getD_last, List.getD_eq_default _ _ hj]

end Layout

namespace Grid
variable {β : Type*}

def setCell (b : β) (G : Grid β) : Grid β :=
  { G with cell := fun i j => if i = G.y ∧ j = G.x then b else G.cell i j }

/-- All rows move up and a blank one comes in. -/
def scroll (height : ℕ) (blank : β) (G : Grid β) : Grid β where
  cell i j := if i+1 < height then G.cell (i+1) j else blank
  x := 0
  y := height-1

def nextRow (height : ℕ) (blank : β) (G : Grid β) : Grid β :=
  if G.y+1 < height then { G with x := 0, y := G.y+1 } else G.scroll height blank

def put (width height : ℕ) (blank : β) (G : Grid β) : Option β → Grid β
  | none => G.nextRow height blank
  | some b =>
    if G.x+1 < width then { G.setCell b with x := G.x+1 } else (G.setCell b).nextRow height blank

/-- The grid is the window on the layout. -/
structure Shows (width height : ℕ) (blank : β) (L : Layout β) (G : Grid β) : Prop where
  cell : ∀ i < height, ∀ j < width, G.cell i j = L.visible height blank i j
  x : G.x = L.row.length
  y : G.y+L.hidden height = L.rows.length

/-- The same cells within the window, and the same cursor. -/
structure Agrees (width height : ℕ) (G G' : Grid β) : Prop where
  cell : ∀ i < height, ∀ j < width, G'.cell i j = G.cell i j
  x : G'.x = G.x
  y : G'.y = G.y

theorem Agrees.trans {width height : ℕ} {G G' G'' : Grid β} (h : Agrees width height G G')
    (h' : Agrees width height G' G'') : Agrees width height G G'' where
  cell i hi j hj := (h'.cell i hi j hj).trans (h.cell i hi j hj)
  x := h'.x.trans h.x
  y := h'.y.trans h.y

theorem Agrees.symm {width height : ℕ} {G G' : Grid β} (h : Agrees width height G G') :
    Agrees width height G' G where
  cell i hi j hj := (h.cell i hi j hj).symm
  x := h.x.symm
  y := h.y.symm

/-- The next row does not depend on the column. -/
theorem nextRow_agrees {width height : ℕ} {G G' : Grid β} (blank : β)
    (hcell : ∀ i < height, ∀ j < width, G'.cell i j = G.cell i j) (hy : G'.y = G.y) :
    Agrees width height (G.nextRow height blank) (G'.nextRow height blank) := by
  unfold Grid.nextRow
  rw [hy]
  split_ifs
  · exact ⟨hcell,rfl,rfl⟩
  · refine ⟨?_,rfl,rfl⟩
    intro i hi j hj
    simp only [Grid.scroll]
    split_ifs with hin
    · exact hcell (i+1) hin j hj
    · rfl

namespace Shows
variable {width height : ℕ} {blank : β} {L : Layout β} {G : Grid β}

theorem agrees {G' : Grid β} (h : Shows width height blank L G) (ha : Agrees width height G G') :
    Shows width height blank L G' where
  cell i hi j hj := (ha.cell i hi j hj).trans (h.cell i hi j hj)
  x := ha.x.trans h.x
  y := by rw [ha.y, h.y]

theorem hidden_eq : L.hidden height = L.rows.length+1-height := by
  rw [Layout.hidden, Layout.lines_length]

/-- Ending the row moves the cursor or scrolls the window. -/
theorem nextRow (h : Shows width height blank L G) (hheight : 0 < height) :
    Shows width height blank L.endRow (G.nextRow height blank) := by
  have hy := h.y
  have hhidden : L.hidden height = L.rows.length+1-height := hidden_eq
  have hhidden' : L.endRow.hidden height = L.rows.length+2-height := by
    rw [hidden_eq]
    simp [Layout.endRow]
  have hrows : L.endRow.rows.length = L.rows.length+1 := by simp [Layout.endRow]
  unfold Grid.nextRow
  by_cases hnext : G.y+1 < height
  · rw [if_pos hnext]
    constructor
    · intro i hi j hj
      have hsame : L.endRow.hidden height = L.hidden height := by omega
      rw [Layout.visible, hsame, Layout.lines_endRow, Layout.getD_append_nil]
      exact h.cell i hi j hj
    · rfl
    · simp only
      omega
  · rw [if_neg hnext]
    constructor
    · intro i hi j hj
      have hmore : L.endRow.hidden height+i = L.hidden height+(i+1) := by omega
      simp only [Grid.scroll]
      rw [Layout.visible, hmore, Layout.lines_endRow, Layout.getD_append_nil]
      split_ifs with hin
      · exact h.cell (i+1) hin j hj
      · exact (Layout.visible_blank height blank L (Or.inl (by omega))).symm
    · rfl
    · simp only [Grid.scroll]
      omega

/-- A cell at the end of the row is the cell at the cursor. -/
theorem setCell (h : Shows width height blank L G) (b : β) :
    Shows width height blank ⟨L.rows,L.row ++ [b]⟩ { G.setCell b with x := G.x+1 } := by
  have hsame : Layout.hidden height ⟨L.rows,L.row ++ [b]⟩ = L.hidden height := by
    simp [Layout.hidden, Layout.lines]
  constructor
  · intro i hi j hj
    have hcell := h.cell i hi j hj
    have hx := h.x
    have hy := h.y
    simp only [Grid.setCell]
    rw [Layout.visible, hsame]
    by_cases hrow : i = G.y
    · have hlast : L.hidden height+i = L.rows.length := by omega
      have hline : (Layout.lines ⟨L.rows,L.row ++ [b]⟩).getD L.rows.length [] = L.row ++ [b] :=
        Layout.lines_getD_last _
      rw [Layout.visible, hlast, Layout.lines_getD_last] at hcell
      rw [hlast, hline, hcell, hx]
      by_cases hj : j = L.row.length
      · subst hj
        simp [hrow]
      · rw [if_neg (by tauto)]
        by_cases hlt : j < L.row.length
        · rw [List.getD_append _ _ _ _ hlt]
        · rw [List.getD_eq_default _ _ (by omega),
            List.getD_eq_default _ _ (by simp; omega)]
    · rw [if_neg (by tauto), hcell, Layout.visible]
      have hother : L.hidden height+i ≠ L.rows.length := by omega
      exact congrArg (fun l => l.getD j blank)
        (Layout.lines_getD_ne L.rows L.row (L.row ++ [b]) hother)
  · simp [h.x]
  · rw [hsame]
    exact h.y

/-- One more piece of output keeps the window on the layout. -/
theorem put (h : Shows width height blank L G) (hheight : 0 < height) (c : Option β) :
    Shows width height blank (L.put width c) (G.put width height blank c) := by
  cases c with
  | none => exact h.nextRow hheight
  | some b =>
    have hset := h.setCell b
    simp only [Layout.put, Grid.put, h.x] at hset ⊢
    split_ifs
    · exact hset
    · exact hset.nextRow hheight

/-- Everything from the cursor on is blank. -/
theorem blank_after (h : Shows width height blank L G) {i j : ℕ} (hi : i < height) (hj : j < width)
    (hafter : G.y < i ∨ i = G.y ∧ G.x ≤ j) : G.cell i j = blank := by
  have hx := h.x
  have hy := h.y
  rw [h.cell i hi j hj]
  apply Layout.visible_blank
  omega

end Shows

/-- The rows down to the cursor as a layout. -/
def layout (width : ℕ) (G : Grid β) : Layout β :=
  ⟨(List.range G.y).map fun i => (List.range width).map (G.cell i),
    (List.range G.x).map (G.cell G.y)⟩

/-- A grid that is blank from the cursor on is the window on its own layout. -/
theorem shows_layout {width height : ℕ} {blank : β} {G : Grid β} (hy : G.y < height)
    (hblank : ∀ i < height, ∀ j < width, (G.y < i ∨ i = G.y ∧ G.x ≤ j) → G.cell i j = blank) :
    Shows width height blank (G.layout width) G := by
  have hhidden : (G.layout width).hidden height = 0 := by
    rw [Shows.hidden_eq]
    simp [layout]
    omega
  have hrows : (G.layout width).rows.length = G.y := by simp [layout]
  have hrow : (G.layout width).row.length = G.x := by simp [layout]
  constructor
  · intro i hi j hj
    by_cases hafter : G.y < i ∨ i = G.y ∧ G.x ≤ j
    · rw [hblank i hi j hj hafter, Layout.visible_blank]
      omega
    · rw [Layout.visible, hhidden, Nat.zero_add]
      obtain rfl | hlt : i = G.y ∨ i < G.y := by omega
      · have hj' : j < G.x := by omega
        have hline := Layout.lines_getD_last (G.layout width)
        rw [hrows] at hline
        rw [hline]
        simp [layout, hj']
      · have hline : (G.layout width).lines.getD i [] = (List.range width).map (G.cell i) := by
          rw [Layout.lines, List.getD_append _ _ _ _ (by omega)]
          simp [layout, hlt]
        rw [hline]
        simp [hj]
  · exact hrow.symm
  · rw [hhidden, hrows, Nat.add_zero]

end Grid
end GameOfThreads.Machine
