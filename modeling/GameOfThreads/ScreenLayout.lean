import GameOfThreads.Machine.Layout
import GameOfThreads.ScreenIsolation

/-! The screen as a window on wrapped output. A terminal that is blank from its cursor on
shows, after any output, the last rows of its rows down to the cursor with the output laid
out after them. -/
namespace GameOfThreads
open Machine

/-- A cell of a page: its character and its colour. -/
def Page.cell (p : Page) (i j : ℕ) : UInt8 × UInt8 :=
  if h : 2*(numCols*i+j)+1 < pagesSize then
    (p ⟨2*(numCols*i+j),Nat.lt_of_succ_lt h⟩,p ⟨2*(numCols*i+j)+1,h⟩)
  else (0,0)

def Screen.grid (s : Screen) : Grid (UInt8 × UInt8) := ⟨s.page.cell,s.x,s.y⟩

/-- What a byte contributes to the layout: a cell in the terminal's colour, or a row's end. -/
def piece (color c : UInt8) : Option (UInt8 × UInt8) :=
  if c = newline ∨ c = carriage then none else some (c,color)

theorem cell_bound {i j : ℕ} (hi : i < numRows) (hj : j < numCols) :
    2*(numCols*i+j)+1 < pagesSize := by
  unfold numRows at hi
  unfold numCols at *
  unfold pagesSize
  omega

namespace Page
variable {i j : ℕ} (p : Page)

theorem cell_eq (hi : i < numRows) (hj : j < numCols) :
    p.cell i j = (p ⟨2*(numCols*i+j),Nat.lt_of_succ_lt (cell_bound hi hj)⟩,
      p ⟨2*(numCols*i+j)+1,cell_bound hi hj⟩) := dif_pos _

theorem cell_setCell (hi : i < numRows) (hj : j < numCols) {y x : ℕ} (hx : x < numCols)
    (c color : UInt8) :
    (p.setCell (numCols*y+x) c color).cell i j =
      if i = y ∧ j = x then (c,color) else p.cell i j := by
  rw [cell_eq _ hi hj, cell_eq _ hi hj]
  unfold numCols at *
  by_cases hsame : i = y ∧ j = x
  · obtain ⟨rfl,rfl⟩ := hsame
    simp [setCell]
  · rw [if_neg hsame]
    have hindex : 80*i+j ≠ 80*y+x := by omega
    simp only [setCell]
    rw [if_neg (by omega), if_neg (by omega), if_neg (by omega), if_neg (by omega)]

theorem cell_scroll (hi : i < numRows) (hj : j < numCols) (color : UInt8) :
    (p.scroll color).cell i j = if i+1 < numRows then p.cell (i+1) j else (space,color) := by
  rw [cell_eq _ hi hj]
  simp only [scroll, blank, shift]
  by_cases hnext : i+1 < numRows
  · rw [if_pos hnext, cell_eq _ hnext hj]
    unfold numRows numCols pagesSize at *
    rw [if_neg (by omega), if_neg (by omega), dif_pos (by omega), dif_pos (by omega)]
    congr 2
    · exact Fin.ext (by simp only; omega)
    · exact Fin.ext (by simp only; omega)
  · rw [if_neg hnext]
    unfold numRows numCols pagesSize at *
    rw [if_pos (by omega), if_pos (by omega), if_pos (by omega), if_neg (by omega)]

end Page

namespace Screen
variable (s : Screen)

theorem nextRow_agrees :
    Grid.Agrees numCols numRows (s.grid.nextRow numRows (space,s.color)) s.nextRow.grid := by
  have hy : s.grid.y = s.y := rfl
  unfold Screen.nextRow Grid.nextRow
  rw [hy]
  by_cases hnext : (s.y : ℕ)+1 < numRows
  · rw [dif_pos hnext, if_pos hnext]
    exact ⟨fun _ _ _ _ => rfl,rfl,rfl⟩
  · rw [dif_neg hnext, if_neg hnext]
    refine ⟨?_,rfl,rfl⟩
    intro i hi j hj
    exact s.page.cell_scroll hi hj s.color

theorem setCell_agrees (c : UInt8) :
    Grid.Agrees numCols numRows (s.grid.setCell (c,s.color)) (s.setCell c).grid := by
  refine ⟨?_,rfl,rfl⟩
  intro i hi j hj
  exact s.page.cell_setCell hi hj s.x.isLt c s.color

@[simp] theorem nextRow_color : s.nextRow.color = s.color := by
  unfold Screen.nextRow
  split_ifs <;> rfl

@[simp] theorem putc_color (c : UInt8) : (s.putc c).color = s.color := by
  unfold Screen.putc
  split_ifs with hnewline hnext
  · exact s.nextRow_color
  · rfl
  · exact (s.setCell c).nextRow_color

/-- A byte goes on the screen as its piece goes on the grid. -/
theorem putc_agrees (c : UInt8) :
    Grid.Agrees numCols numRows
      (s.grid.put numCols numRows (space,s.color) (piece s.color c)) (s.putc c).grid := by
  unfold Screen.putc piece
  by_cases hnewline : c = newline ∨ c = carriage
  · rw [if_pos hnewline, if_pos hnewline]
    exact s.nextRow_agrees
  rw [if_neg hnewline, if_neg hnewline]
  have hagrees := s.setCell_agrees c
  have hx : s.grid.x = s.x := rfl
  simp only [Grid.put, hx]
  by_cases hnext : (s.x : ℕ)+1 < numCols
  · rw [dif_pos hnext, if_pos hnext]
    exact ⟨hagrees.cell,rfl,hagrees.y⟩
  · rw [dif_neg hnext, if_neg hnext]
    have hwrap := Grid.nextRow_agrees (space,s.color) hagrees.cell hagrees.y
    exact hwrap.trans (s.setCell c).nextRow_agrees

variable {s}
variable {L : Layout (UInt8 × UInt8)}

theorem putc_shows (h : Grid.Shows numCols numRows (space,s.color) L s.grid) (c : UInt8) :
    Grid.Shows numCols numRows (space,s.color) (L.put numCols (piece s.color c))
      (s.putc c).grid :=
  (h.put (by decide) (piece s.color c)).agrees (s.putc_agrees c)

theorem puts_shows (h : Grid.Shows numCols numRows (space,s.color) L s.grid) (bytes : List UInt8) :
    Grid.Shows numCols numRows (space,s.color) (L.puts numCols (bytes.map (piece s.color)))
      (s.puts bytes).grid := by
  induction bytes generalizing s L with
  | nil => exact h
  | cons c bytes ih =>
    have hput := putc_shows h c
    rw [← s.putc_color c] at hput
    have hrest := ih hput
    rw [s.putc_color c] at hrest
    exact hrest

end Screen

/-! ### On the kernel -/

/-- A cell of a terminal's screen, read through the video window. -/
def Kernel.cell (k : Kernel) (term i j : ℕ) : UInt8 × UInt8 :=
  let a := (k.terminal term).termVideoMem+2*(numCols*i+j)
  (k.video.load a,k.video.load (a+1))

def Kernel.grid (k : Kernel) (term : ℕ) : Grid (UInt8 × UInt8) :=
  ⟨k.cell term,(k.terminal term).screenX,(k.terminal term).screenY⟩

/-- The video window is mapped as terminal_init and the switches leave it. -/
structure Windowed (term : ℕ) (k : Kernel) : Prop where
  viewing : k.viewingTerm < numTerm
  mapped : k.video.Mapped k.viewingTerm
  page : (k.terminal term).termVideoMem = termPage term

/-- From the cursor to the end of the screen there are spaces in the terminal's colour. -/
def BlankFromCursor (term : ℕ) (k : Kernel) : Prop :=
  ∀ i < numRows, ∀ j < numCols,
    ((k.terminal term).screenY < i ∨ i = (k.terminal term).screenY ∧
      (k.terminal term).screenX ≤ j) →
    k.cell term i j = (space,(k.terminal term).color)

section
variable {term : ℕ} {S : ℕ → Screen} {k k' : Kernel}

theorem Displays.windowed (h : Displays S k) (hterm : term < numTerm) : Windowed term k :=
  ⟨h.viewing,h.shows.mapped,(h.window term hterm).1⟩

theorem Displays.grid (h : Displays S k) (hterm : term < numTerm) :
    Grid.Agrees numCols numRows (S term).grid (k.grid term) := by
  obtain ⟨hmem,-⟩ := h.window term hterm
  obtain ⟨hx,hy⟩ := h.cursor term hterm
  refine ⟨?_,hx,hy⟩
  intro i hi j hj
  have hbound := cell_bound hi hj
  have hchar := h.shows.load hterm ⟨2*(numCols*i+j),Nat.lt_of_succ_lt hbound⟩
  have hcolor := h.shows.load hterm ⟨2*(numCols*i+j)+1,hbound⟩
  simp only [Kernel.grid, Kernel.cell, Screen.grid]
  rw [hmem, Page.cell_eq _ hi hj]
  exact congrArg₂ Prod.mk hchar hcolor

/-- The same to output on one terminal: that terminal, the video memory and the view. -/
structure Alike (term : ℕ) (k k' : Kernel) : Prop where
  terminal : k'.terminal term = k.terminal term
  video : k'.video = k.video
  viewing : k'.viewingTerm = k.viewingTerm

namespace Alike

theorem onTerminal (h : Alike term k k') (f : Terminal → Terminal) :
    Alike term (k.onTerminal term f) (k'.onTerminal term f) := by
  refine ⟨?_,h.video,h.viewing⟩
  rw [Kernel.onTerminal_terminal_self, Kernel.onTerminal_terminal_self, h.terminal]

theorem moveCursor (h : Alike term k k') :
    Alike term (moveCursor term k) (GameOfThreads.moveCursor term k') := by
  refine ⟨?_,?_,?_⟩
  · rw [moveCursor_terminal, moveCursor_terminal]
    exact h.terminal
  · rw [moveCursor_video, moveCursor_video]
    exact h.video
  · rw [moveCursor_viewingTerm, moveCursor_viewingTerm]
    exact h.viewing

theorem paint (h : Alike term k k') (v : Video) :
    Alike term { k with video := v } { k' with video := v } := ⟨h.terminal,rfl,h.viewing⟩

theorem scrollScreen (h : Alike term k k') :
    Alike term (scrollScreen term k) (GameOfThreads.scrollScreen term k') := by
  simp only [GameOfThreads.scrollScreen, h.terminal, h.video]
  exact ((h.paint _).onTerminal _).moveCursor

theorem nextRow (h : Alike term k k') :
    Alike term (nextRow term k) (GameOfThreads.nextRow term k') := by
  have hline := h.onTerminal Terminal.newLine
  simp only [GameOfThreads.nextRow, hline.terminal]
  split_ifs
  · exact hline.scrollScreen
  · exact hline.moveCursor

theorem putCell (h : Alike term k k') (c : UInt8) :
    Alike term (putCell c term k) (GameOfThreads.putCell c term k') := by
  simp only [GameOfThreads.putCell, h.terminal, h.video]
  exact (h.paint _).onTerminal _

theorem termPutc (h : Alike term k k') (c : UInt8) :
    Alike term (termPutc c term k) (GameOfThreads.termPutc c term k') := by
  have hput := h.putCell c
  have hline := hput.onTerminal Terminal.newLine
  simp only [GameOfThreads.termPutc, hput.terminal, hline.terminal]
  split_ifs
  · exact h.nextRow
  · exact hline.scrollScreen.moveCursor
  · exact hline.moveCursor
  · exact hput.moveCursor

theorem termPuts (h : Alike term k k') (bytes : List UInt8) :
    Alike term (termPuts bytes term k) (GameOfThreads.termPuts bytes term k') := by
  induction bytes generalizing k k' with
  | nil => exact h
  | cons c bytes ih => exact ih (h.termPutc c)

theorem grid (h : Alike term k k') : k'.grid term = k.grid term := by
  unfold Kernel.grid Kernel.cell
  rw [h.terminal, h.video]

end Alike

/-- A terminal with the cursor at the start, and its own page. -/
def Terminal.atStart (t : ℕ) (u : Terminal) : Terminal :=
  { u with screenX := 0, screenY := 0, termVideoMem := termPage t }

/-- Whatever the cursors of the others, a terminal displays a screen. -/
theorem Windowed.displays (h : Windowed term k) (hx : (k.terminal term).screenX < numCols)
    (hy : (k.terminal term).screenY < numRows) :
    ∃ S k', Alike term k k' ∧ Displays S k' ∧ (S term).color = (k.terminal term).color := by
  let terminal := fun t => if t = term then k.terminal t else (k.terminal t).atStart t
  let S : ℕ → Screen := fun t =>
    { x := if t = term then ⟨(k.terminal term).screenX,hx⟩ else Screen.firstCol
      y := if t = term then ⟨(k.terminal term).screenY,hy⟩ else Screen.firstRow
      color := (k.terminal t).color
      page := screenFrames.window k.viewingTerm t k.video.phys }
  refine ⟨S,{ k with terminal := terminal },⟨if_pos rfl,rfl,rfl⟩,?_,rfl⟩
  refine ⟨h.viewing,⟨h.mapped,fun _ _ => rfl⟩,?_,?_⟩
  · intro t _
    simp only [terminal, S]
    split_ifs with ht
    · subst ht
      exact ⟨h.page,rfl⟩
    · exact ⟨rfl,rfl⟩
  · intro t _
    simp only [terminal, S]
    split_ifs with ht
    · subst ht
      exact ⟨rfl,rfl⟩
    · exact ⟨rfl,rfl⟩

theorem Screen.blank_cell (s : Screen) {i j : ℕ} (hi : i < numRows) (hj : j < numCols) :
    s.blank.page.cell i j = (space,s.color) := by
  rw [Page.cell_eq _ hi hj]
  simp only [Screen.blank, Page.clear, Page.blank]
  unfold numRows at *
  unfold numCols at *
  rw [if_pos (by omega), if_pos (by omega), if_pos (by omega), if_neg (by omega)]

/-- A cleared terminal is blank behind its prompt. -/
theorem termClear_blank (hterm : term < numTerm) (h : Displays S k) :
    BlankFromCursor term (termClear term k) := by
  have hclear := termClear_displays hterm h
  obtain ⟨hx,hy⟩ := hclear.cursor term hterm
  have hgrid := hclear.grid hterm
  rw [Function.update_self] at hx hy hgrid
  have hblank : Grid.Shows numCols numRows (space,(S term).color)
      ((S term).blank.grid.layout numCols) (S term).blank.grid := by
    apply Grid.shows_layout
    · exact (S term).blank.y.isLt
    · intro i hi j hj _
      exact (S term).blank_cell hi hj
  have hprompt := (Screen.puts_shows (s := (S term).blank) hblank (text "391OS> ")).agrees hgrid
  intro i hi j hj hafter
  rw [(termClear_screenOnly term k).terminals term]
  simp only
  rw [(h.window term hterm).2]
  exact hprompt.blank_after hi hj hafter

/-- After any output the screen is the window on the last rows of what it showed down to the
cursor with the output laid out after it, and it is blank from the cursor on as before. -/
theorem termPuts_layout (hterm : term < numTerm) (hwindow : Windowed term k)
    (hx : (k.terminal term).screenX < numCols) (hy : (k.terminal term).screenY < numRows)
    (hblank : BlankFromCursor term k) (bytes : List UInt8) :
    let color := (k.terminal term).color
    Grid.Shows numCols numRows (space,color)
      (((k.grid term).layout numCols).puts numCols (bytes.map (piece color)))
      ((termPuts bytes term k).grid term) ∧
    BlankFromCursor term (termPuts bytes term k) := by
  intro color
  obtain ⟨S,k',hlike,hdisplays,hcolor⟩ := hwindow.displays hx hy
  have hstart : Grid.Shows numCols numRows (space,color) ((k.grid term).layout numCols)
      (k.grid term) := Grid.shows_layout hy hblank
  have hscreen : Grid.Shows numCols numRows (space,(S term).color)
      ((k.grid term).layout numCols) (S term).grid := by
    have hgrid := (hdisplays.grid hterm).symm
    rw [hlike.grid] at hgrid
    rw [hcolor]
    exact hstart.agrees hgrid
  have hputs := Screen.puts_shows hscreen bytes
  have hgrid := (termPuts_displays hterm bytes hdisplays).grid hterm
  rw [Function.update_self, (hlike.termPuts bytes).grid] at hgrid
  rw [hcolor] at hputs
  have hshows := hputs.agrees hgrid
  refine ⟨hshows,?_⟩
  intro i hi j hj hafter
  rw [(termPuts_screenOnly bytes term k).terminals term]
  exact hshows.blank_after hi hj hafter

end

/-- A second terminal just cleared. -/
def clearedKernel : Kernel :=
  termClear 1 (terminalInit (staticStorage (fun _ => PCB.zero) fun _ => 0))

theorem termPuts_layout_wrap :
    let color := (clearedKernel.terminal 1).color
    let bytes := List.replicate 73 65 ++ [newline,66]
    Grid.Shows numCols numRows (space,color)
      (((clearedKernel.grid 1).layout numCols).puts numCols (bytes.map (piece color)))
      ((termPuts bytes 1 clearedKernel).grid 1) ∧
    BlankFromCursor 1 (termPuts bytes 1 clearedKernel) := by
  have hstart := terminalInit_displays (staticStorage (fun _ => PCB.zero) fun _ => 0)
  have hterm : 1 < numTerm := by decide
  have hdisplays := termClear_displays hterm hstart
  obtain ⟨hx,hy⟩ := hdisplays.cursor 1 hterm
  refine termPuts_layout hterm (hdisplays.windowed hterm) ?_ ?_ (termClear_blank hterm hstart) _
  · exact hx.trans_lt (Fin.isLt _)
  · exact hy.trans_lt (Fin.isLt _)

end GameOfThreads
