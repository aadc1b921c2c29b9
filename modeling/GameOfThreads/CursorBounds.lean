import GameOfThreads.KeyboardBuffer

/-! The cursor of a terminal. Output wraps and scrolls before it would leave the screen, so
only erasing can: Backspace goes by the number of characters in the keyboard buffer, and
that number outlives the characters when the screen is cleared or scrolled under them. -/
namespace GameOfThreads
open Machine

def screenCells : ℕ := numRows*numCols

/-- The cursor is on the screen. -/
structure Terminal.InScreen (t : Terminal) : Prop where
  x : t.screenX < numCols
  y : t.screenY < numRows

/-- The number of cells before the cursor. -/
def Terminal.position (t : Terminal) : ℕ := numCols*t.screenY+t.screenX

theorem Terminal.InScreen.position_lt {t : Terminal} (h : t.InScreen) :
    t.position < screenCells := by
  have hx := h.x
  have hy := h.y
  unfold Terminal.position screenCells numRows numCols at *
  omega

/-- Every cell stored so far is one of the screen. -/
def Video.InScreen (v : Video) : Prop := ∀ c ∈ v.cells, c < screenCells

structure OnScreen (k : Kernel) : Prop where
  cursor : ∀ t < numTerm, (k.terminal t).InScreen
  cells : k.video.InScreen

/-! ### Cells -/

namespace Video.InScreen
variable {v : Video}

theorem storeCell (h : v.InScreen) {index : ℕ} (hindex : index < screenCells) (base : ℕ)
    (c color : UInt8) : (v.storeCell base index c color).InScreen := by
  intro i hi
  simp only [Video.storeCell, Video.store_cells] at hi
  rcases List.mem_cons.mp hi with rfl | hi
  · exact hindex
  · exact h i hi

theorem copyCell (h : v.InScreen) {up : ℕ} (hup : up < screenCells) (base low : ℕ) :
    (v.copyCell base up low).InScreen := by
  intro i hi
  simp only [Video.copyCell, Video.store_cells] at hi
  rcases List.mem_cons.mp hi with rfl | hi
  · exact hup
  · exact h i hi

theorem foldl {α : Type*} {g : Video → α → Video} (l : List α)
    (hg : ∀ a ∈ l, ∀ v : Video, v.InScreen → (g v a).InScreen) (h : v.InScreen) :
    (l.foldl g v).InScreen := by
  induction l generalizing v with
  | nil => exact h
  | cons a l ih =>
    exact ih (fun b hb => hg b (List.mem_cons_of_mem _ hb)) (hg a List.mem_cons_self v h)

theorem scrollRows (h : v.InScreen) (base : ℕ) : (v.scrollRows base).InScreen := by
  refine foldl _ (fun y hy v hv => foldl _ ?_ hv) h
  intro x hx v hv
  have hy := List.mem_range.mp hy
  have hx := List.mem_range.mp hx
  refine hv.copyCell ?_ _ _
  unfold screenCells numRows numCols at *
  omega

theorem clearLastRow (h : v.InScreen) (base : ℕ) (color : UInt8) :
    (v.clearLastRow base color).InScreen := by
  refine foldl _ ?_ h
  intro x hx v hv
  have hx := List.mem_range.mp hx
  refine hv.storeCell ?_ _ _ _
  unfold screenCells numRows numCols at *
  omega

theorem clearCells (h : v.InScreen) (base : ℕ) (color : UInt8) :
    (v.clearCells base color).InScreen :=
  foldl _ (fun _ hi _ hv => hv.storeCell (List.mem_range.mp hi) _ _ _) h

end Video.InScreen

/-! ### Cursors in their regions -/

/-- Every cursor is where its terminal's region has it, and every cell stored so far is one of
the screen. -/
structure Placed (R : ℕ → ℕ → ℕ → Prop) (k : Kernel) : Prop where
  cursor : ∀ t, R t (k.terminal t).screenX (k.terminal t).screenY
  cells : k.video.InScreen

/-- The same but for the cursor of `term`. -/
structure PlacedBut (R : ℕ → ℕ → ℕ → Prop) (term : ℕ) (k : Kernel) : Prop where
  cursor : ∀ t, t ≠ term → R t (k.terminal t).screenX (k.terminal t).screenY
  cells : k.video.InScreen

/-- The region of a terminal is its screen. -/
def Whole (R : ℕ → ℕ → ℕ → Prop) (term : ℕ) : Prop := ∀ x y, R term x y ↔ x < numCols ∧ y < numRows

/-- The terminals have their screens for regions. -/
def screenRegion (t x y : ℕ) : Prop := t < numTerm → x < numCols ∧ y < numRows

theorem whole_screenRegion {term : ℕ} (hterm : term < numTerm) : Whole screenRegion term :=
  fun _ _ => ⟨fun h => h hterm,fun h _ => h⟩

theorem onScreen_iff {k : Kernel} : OnScreen k ↔ Placed screenRegion k := by
  constructor
  · exact fun h => ⟨fun t ht => ⟨(h.cursor t ht).x,(h.cursor t ht).y⟩,h.cells⟩
  · exact fun h => ⟨fun t ht => ⟨(h.cursor t ht).1,(h.cursor t ht).2⟩,h.cells⟩

section
variable {R : ℕ → ℕ → ℕ → Prop} {term : ℕ} {k k' : Kernel}

theorem Placed.inScreen (h : Placed R k) (hterm : Whole R term) : (k.terminal term).InScreen := by
  obtain ⟨hx,hy⟩ := (hterm _ _).mp (h.cursor term)
  exact ⟨hx,hy⟩

theorem Placed.but (h : Placed R k) (term : ℕ) : PlacedBut R term k :=
  ⟨fun t _ => h.cursor t,h.cells⟩

theorem PlacedBut.placed (h : PlacedBut R term k) (hterm : Whole R term)
    (hin : (k.terminal term).InScreen) : Placed R k where
  cursor t := by
    by_cases heq : t = term
    · subst heq
      exact (hterm _ _).mpr ⟨hin.x,hin.y⟩
    · exact h.cursor t heq
  cells := h.cells

theorem PlacedBut.onTerminal (h : PlacedBut R term k) (f : Terminal → Terminal) :
    PlacedBut R term (k.onTerminal term f) where
  cursor t hne := by
    rw [Kernel.onTerminal_terminal, if_neg hne]
    exact h.cursor t hne
  cells := h.cells

theorem PlacedBut.video (h : PlacedBut R term k) {v : Video} (hv : v.InScreen) :
    PlacedBut R term { k with video := v } := ⟨h.cursor,hv⟩

theorem Placed.video (h : Placed R k) {v : Video} (hv : v.InScreen) :
    Placed R { k with video := v } := ⟨h.cursor,hv⟩

theorem Placed.unseen (h : Placed R k) (h' : Unseen k k') : Placed R k' where
  cursor t := by
    rw [h'.terminals t]
    exact h.cursor t
  cells := by
    unfold Video.InScreen
    rw [h'.cells]
    exact h.cells

theorem Placed.hidden (h : Placed R k) (h' : Hidden k k') : Placed R k' where
  cursor t := by
    rw [h'.terminals t]
    exact h.cursor t
  cells := by
    rw [h'.rest]
    exact h.cells

/-! ### Output -/

/-- Scrolling puts the cursor back on the screen. -/
theorem scrollScreen_placed (hterm : Whole R term) (h : PlacedBut R term k) :
    Placed R (scrollScreen term k) := by
  have hvideo := h.video ((h.cells.scrollRows (k.terminal term).termVideoMem).clearLastRow
    (k.terminal term).termVideoMem (k.terminal term).color)
  simp only [scrollScreen]
  generalize ({ k with video := _ } : Kernel) = k' at *
  have hcursor : Placed R (k'.onTerminal term (Terminal.setCursor 0 (numRows-1))) := by
    apply (hvideo.onTerminal _).placed hterm
    rw [Kernel.onTerminal_terminal_self]
    exact ⟨show 0 < numCols by decide,show numRows-1 < numRows by decide⟩
  exact hcursor.unseen (moveCursor_unseen term _)

/-- The start of the next row, or of the last one after a scroll. -/
theorem wrap_placed (hterm : Whole R term) (h : PlacedBut R term k)
    (hy : (k.terminal term).screenY < numRows) :
    let k' := k.onTerminal term Terminal.newLine
    if (k'.terminal term).screenY = numRows then Placed R (scrollScreen term k')
    else Placed R k' := by
  have hline : ((k.onTerminal term Terminal.newLine).terminal term).screenY =
      (k.terminal term).screenY+1 := by
    rw [Kernel.onTerminal_terminal_self]
    unfold numRows at hy
    simp only [Terminal.newLine]
    omega
  simp only [hline]
  split_ifs with hend
  · exact scrollScreen_placed hterm (h.onTerminal _)
  · refine (h.onTerminal _).placed hterm ⟨?_,?_⟩
    · rw [Kernel.onTerminal_terminal_self]
      exact show 0 < numCols by decide
    · omega

theorem nextRow_placed (hterm : Whole R term) (h : Placed R k) : Placed R (nextRow term k) := by
  have hwrap := wrap_placed hterm (h.but term) (h.inScreen hterm).y
  simp only [nextRow] at hwrap ⊢
  split_ifs at hwrap ⊢
  · exact hwrap
  · exact hwrap.unseen (moveCursor_unseen term _)

/-- A character goes into a cell of the screen; the cursor may come to stand after a row. -/
theorem putCell_placed (c : UInt8) (hterm : Whole R term) (h : Placed R k) :
    PlacedBut R term (putCell c term k) ∧
      ((putCell c term k).terminal term).screenX ≤ numCols ∧
      ((putCell c term k).terminal term).screenY < numRows := by
  have hcursor := h.inScreen hterm
  have hx := hcursor.x
  have hcell := h.cells.storeCell hcursor.position_lt (k.terminal term).termVideoMem c
    (k.terminal term).color
  simp only [putCell]
  refine ⟨((h.but term).video hcell).onTerminal _,?_,?_⟩
  · rw [Kernel.onTerminal_terminal_self]
    simp only [Terminal.advance]
    omega
  · rw [Kernel.onTerminal_terminal_self]
    exact hcursor.y

theorem termPutc_placed (c : UInt8) (hterm : Whole R term) (h : Placed R k) :
    Placed R (termPutc c term k) := by
  obtain ⟨hput,hx,hy⟩ := putCell_placed c hterm h
  have hwrap := wrap_placed hterm hput hy
  simp only [termPutc] at hwrap ⊢
  by_cases hnewline : c = newline ∨ c = carriage
  · rw [if_pos hnewline]
    exact nextRow_placed hterm h
  rw [if_neg hnewline]
  by_cases hlast : ((putCell c term k).terminal term).screenX = numCols
  · rw [if_pos hlast]
    split_ifs at hwrap ⊢
    · exact hwrap.unseen (moveCursor_unseen term _)
    · exact hwrap.unseen (moveCursor_unseen term _)
  · rw [if_neg hlast]
    exact (hput.placed hterm ⟨by omega,hy⟩).unseen (moveCursor_unseen term _)

theorem termPuts_placed (s : List UInt8) (hterm : Whole R term) (h : Placed R k) :
    Placed R (termPuts s term k) := by
  unfold termPuts
  induction s generalizing k with
  | nil => exact h
  | cons c s ih => exact ih (termPutc_placed c hterm h)

/-- Clearing a screen puts its cursor on it. -/
theorem termClear_placed (hterm : Whole R term) (h : PlacedBut R term k) :
    Placed R (termClear term k) := by
  have hvideo := h.video (h.cells.clearCells (k.terminal term).termVideoMem
    (k.terminal term).color)
  simp only [termClear]
  generalize ({ k with video := _ } : Kernel) = k' at *
  refine termPuts_placed _ hterm ((hvideo.onTerminal _).placed hterm ?_)
  rw [Kernel.onTerminal_terminal_self]
  exact ⟨show 0 < numCols by decide,show 0 < numRows by decide⟩

/-- Calls and keys that do not erase draw on the screen. -/
theorem Draws.placed {ok : Stroke → Prop} (h : Draws Hidden ok k k')
    (hok : ∀ s, ok s → s.OfTyping term ∨ ∃ next, s.OfCall term next) (hterm : Whole R term)
    (hk : Placed R k) : Placed R k' := by
  refine h.keeps (P := Placed R) ?_ hk
  intro k₁ k₂ hdraw hk
  cases hdraw with
  | aside h => exact hk.hidden h
  | console hoff phys x y => exact ⟨hk.cursor,hk.cells⟩
  | stroke s hs =>
    rcases hok s hs with hs | ⟨next,hs⟩
    · cases s with
      | putc c t =>
        cases hs
        exact termPutc_placed c hterm hk
      | row t =>
        cases hs
        exact nextRow_placed hterm hk
      | clear t =>
        cases hs
        exact termClear_placed hterm (hk.but _)
      | _ => exact hs.elim
    · cases s with
      | putc c t =>
        cases hs
        exact termPutc_placed c hterm hk
      | load pid bytes =>
        have hload : Unseen k₁ (Stroke.apply (.load pid bytes) k₁) :=
          ⟨fun _ => rfl,Video.loadProgram_cells ..,rfl,rfl⟩
        exact hk.unseen hload
      | _ => exact hs.elim

theorem Draws.callPlaced {next : Option ℕ} (h : Draws Aside (Stroke.OfCall term next) k k')
    (hterm : Whole R term) (hk : Placed R k) : Placed R k' :=
  (h.mono (fun _ _ h => h.hidden) fun _ hs => hs).placed (fun _ hs => .inr ⟨next,hs⟩) hterm hk

theorem Draws.typingPlaced (h : Draws Hidden (Stroke.OfTyping term) k k') (hterm : Whole R term)
    (hk : Placed R k) : Placed R k' := h.placed (fun _ hs => .inl hs) hterm hk

/-- A switch draws on the running terminal, or on the one that it has cleared. -/
theorem Switched.placed {cur dest : ℕ} (h : Switched cur dest k k')
    (hcurrent : Whole R k.currentTerm)
    (hdest : ∀ x y, x < numCols → y < numRows → R dest x y) (hk : Placed R k) : Placed R k' := by
  have hview : Placed R (viewTerm cur dest k) := hk.unseen (viewTerm_unseen cur dest k)
  cases h with
  | refused h => exact h.callPlaced hcurrent hk
  | viewed => exact hview
  | shell _ _ h =>
    let S := Function.update R dest fun x y => x < numCols ∧ y < numRows
    have hwhole : Whole S dest := by
      intro x y
      simp only [S, Function.update_self]
    have hbut : PlacedBut S dest (viewTerm cur dest k) := by
      refine ⟨fun t hne => ?_,hview.cells⟩
      simp only [S, Function.update_of_ne hne]
      exact hview.cursor t
    have hshell := h.callPlaced hwhole (termClear_placed hwhole hbut)
    refine ⟨fun t => ?_,hshell.cells⟩
    by_cases heq : t = dest
    · subst heq
      have hin := hshell.inScreen hwhole
      exact hdest _ _ hin.x hin.y
    · have hcursor := hshell.cursor t
      simp only [S, Function.update_of_ne heq] at hcursor
      exact hcursor

/-! ### Erasing -/

theorem eraseCell_terminal (term : ℕ) (k : Kernel) :
    (eraseCell term k).terminal term = stepBack (k.terminal term) := by
  simp only [eraseCell, moveCursor_terminal, Kernel.onTerminal_terminal_self]

theorem eraseCell_cells (term : ℕ) (k : Kernel) :
    (eraseCell term k).video.cells = (stepBack (k.terminal term)).position :: k.video.cells := by
  simp only [eraseCell, moveCursor_video, Kernel.onTerminal_terminal_self, Video.storeCell,
    Video.store_cells]
  rfl

theorem stepBack_inScreen {t : Terminal} (h : t.InScreen) (hpos : t.position ≠ 0) :
    (stepBack t).InScreen ∧ (stepBack t).position = t.position-1 := by
  have hx := h.x
  have hy := h.y
  unfold Terminal.position numCols numRows at *
  unfold stepBack
  split_ifs with hzero
  · refine ⟨⟨show numCols-1 < numCols by decide,?_⟩,?_⟩
    · unfold numRows
      simp only
      omega
    · unfold numCols
      simp only
      omega
  · refine ⟨⟨?_,hy⟩,?_⟩
    · unfold numCols
      simp only
      omega
    · simp only
      omega

/-- From the first cell the cursor wraps to the last column of row 255. -/
theorem stepBack_outside {t : Terminal} (hpos : t.position = 0) :
    ¬(stepBack t).position < screenCells := by
  unfold Terminal.position numCols at hpos
  have hx : t.screenX = 0 := by omega
  have hy : t.screenY = 0 := by omega
  simp [stepBack, hx, hy, Terminal.position, screenCells, numCols, numRows]

theorem eraseCell_placed (hterm : Whole R term) (h : Placed R k)
    (hpos : (k.terminal term).position ≠ 0) : Placed R (eraseCell term k) := by
  obtain ⟨hback,-⟩ := stepBack_inScreen (h.inScreen hterm) hpos
  have hstep : Placed R (k.onTerminal term stepBack) := by
    apply ((h.but term).onTerminal stepBack).placed hterm
    rw [Kernel.onTerminal_terminal_self]
    exact hback
  have hcursor := (hstep.inScreen hterm).position_lt
  simp only [eraseCell]
  exact (hstep.video (hstep.cells.storeCell hcursor _ _ _)).unseen (moveCursor_unseen term _)

theorem storeKey_position (term i : ℕ) (c : UInt8) (k : Kernel) (t : ℕ) :
    ((storeKey term i c k).terminal t).position = (k.terminal t).position := by
  rw [Terminal.position, (storeKey_hidden term i c k).terminals t]
  rfl

theorem backspace_placed (hterm : Whole R term) (h : Placed R k)
    (hpos : (k.terminal term).keyboardBufIdx = 0 ∨ (k.terminal term).position ≠ 0) :
    Placed R (backspace term k) := by
  by_cases hzero : (k.terminal term).keyboardBufIdx = 0
  · rw [backspace, if_pos hzero]
    exact h
  · rw [backspace_eq hzero]
    have herase := eraseCell_placed hterm h (hpos.resolve_left hzero)
    exact (herase.hidden (storeKey_hidden term _ _ _)).hidden (.onTerminal (fun _ => rfl) _)

theorem backspace_position (hin : (k.terminal term).InScreen)
    (hidx : (k.terminal term).keyboardBufIdx ≠ 0) (hpos : (k.terminal term).position ≠ 0) :
    ((backspace term k).terminal term).position = (k.terminal term).position-1 := by
  rw [backspace_eq hidx, Kernel.onTerminal_terminal_self]
  refine Eq.trans ?_ (stepBack_inScreen hin hpos).2
  rw [← eraseCell_terminal term k, ← storeKey_position term _ noke]
  rfl

end

/-- Some cell past the screen has been stored. -/
def Video.Outside (v : Video) : Prop := ∃ c ∈ v.cells, ¬c < screenCells

theorem backspace_outside {term : ℕ} {k : Kernel} (hidx : (k.terminal term).keyboardBufIdx ≠ 0)
    (hpos : (k.terminal term).position = 0) : (backspace term k).video.Outside := by
  refine ⟨_,?_,stepBack_outside hpos⟩
  rw [backspace_eq hidx]
  change _ ∈ (eraseCell term k).video.cells
  rw [eraseCell_cells]
  exact List.mem_cons_self

/-! ### The history keys -/

/-- The line erased stays on the screen when its characters are all after the first cell. -/
theorem eraseLine_placed {R : ℕ → ℕ → ℕ → Prop} {term : ℕ} (hterm : Whole R term) (fuel : ℕ)
    {k : Kernel} (h : Placed R k) (hidx : (k.terminal term).keyboardBufIdx ≤ keyBuffSize)
    (hpos : (k.terminal term).keyboardBufIdx ≤ (k.terminal term).position) :
    Placed R (eraseLine term fuel k) := by
  induction fuel generalizing k with
  | zero => exact h
  | succ fuel ih =>
    unfold eraseLine
    split_ifs with hzero
    · exact h
    · have hne : (k.terminal term).position ≠ 0 := by omega
      have hnext := backspace_idx hidx
      have hback := backspace_position (h.inScreen hterm) hzero hne
      exact ih (backspace_placed hterm h (.inr hne)) (by omega) (by omega)

/-! Nothing takes a stored cell back. -/

section
variable (term : ℕ) (k : Kernel)

theorem storeCell_suffix (base index : ℕ) (c color : UInt8) (v : Video) :
    v.cells <:+ (v.storeCell base index c color).cells := by
  simp only [Video.storeCell, Video.store_cells]
  exact List.suffix_cons ..

theorem copyCell_suffix (base up low : ℕ) (v : Video) :
    v.cells <:+ (v.copyCell base up low).cells := by
  simp only [Video.copyCell, Video.store_cells]
  exact List.suffix_cons ..

theorem foldl_suffix {α : Type*} {g : Video → α → Video} (h : ∀ v a, v.cells <:+ (g v a).cells)
    (l : List α) (v : Video) : v.cells <:+ (l.foldl g v).cells := by
  induction l generalizing v with
  | nil => exact List.suffix_refl _
  | cons a l ih => exact (h v a).trans (ih _)

theorem scrollScreen_suffix : k.video.cells <:+ (scrollScreen term k).video.cells := by
  simp only [scrollScreen, moveCursor_video]
  refine List.IsSuffix.trans ?_ (foldl_suffix (fun _ _ => storeCell_suffix ..) _ _)
  exact foldl_suffix (fun _ _ => foldl_suffix (fun _ _ => copyCell_suffix ..) _ _) _ _

theorem nextRow_suffix : k.video.cells <:+ (nextRow term k).video.cells := by
  simp only [nextRow]
  split_ifs
  · exact scrollScreen_suffix term (k.onTerminal term Terminal.newLine)
  · rw [moveCursor_video]
    exact List.suffix_refl _

theorem termPutc_suffix (c : UInt8) : k.video.cells <:+ (termPutc c term k).video.cells := by
  have hput : k.video.cells <:+ (putCell c term k).video.cells := storeCell_suffix ..
  simp only [termPutc]
  split_ifs
  · exact nextRow_suffix term k
  · rw [moveCursor_video]
    exact hput.trans (scrollScreen_suffix term ((putCell c term k).onTerminal term _))
  · rw [moveCursor_video]
    exact hput
  · rw [moveCursor_video]
    exact hput

theorem backspace_suffix : k.video.cells <:+ (backspace term k).video.cells := by
  by_cases hzero : (k.terminal term).keyboardBufIdx = 0
  · rewrite [backspace, if_pos hzero]
    exact List.suffix_refl _
  · rw [backspace_eq hzero]
    change _ <:+ (eraseCell term k).video.cells
    rw [eraseCell_cells]
    exact List.suffix_cons ..

theorem eraseLine_suffix (fuel : ℕ) : k.video.cells <:+ (eraseLine term fuel k).video.cells := by
  induction fuel generalizing k with
  | zero => exact List.suffix_refl _
  | succ fuel ih =>
    unfold eraseLine
    split_ifs
    · exact List.suffix_refl _
    · exact (backspace_suffix term k).trans (ih _)

theorem recallLine_suffix (fuel index : ℕ) :
    k.video.cells <:+ (recallLine term fuel index k).video.cells := by
  induction fuel generalizing index k with
  | zero => exact List.suffix_refl _
  | succ fuel ih =>
    simp only [recallLine]
    generalize (k.terminal term).historyBuf (k.terminal term).histPtr index = c
    split_ifs
    · exact List.suffix_refl _
    · have hput := termPutc_suffix term (storeKey term index c k) c
      generalize termPutc c term (storeKey term index c k) = k' at *
      exact hput.trans (ih (k'.onTerminal term Terminal.incIdx) _)

end

theorem Video.Outside.mono {v v' : Video} (h : v.Outside) (hcells : v.cells <:+ v'.cells) :
    v'.Outside := by
  obtain ⟨c,hc,hlarge⟩ := h
  exact ⟨c,hcells.subset hc,hlarge⟩

theorem Video.Outside.not_inScreen {v : Video} (h : v.Outside) : ¬v.InScreen := by
  obtain ⟨c,hc,hlarge⟩ := h
  exact fun hin => hlarge (hin c hc)

/-- With more characters in the buffer than cells before the cursor, erasing goes past the
first cell. -/
theorem eraseLine_outside {R : ℕ → ℕ → ℕ → Prop} {term : ℕ} (hterm : Whole R term) (fuel : ℕ)
    {k : Kernel} (h : Placed R k) (hidx : (k.terminal term).keyboardBufIdx ≤ keyBuffSize)
    (hfuel : (k.terminal term).keyboardBufIdx ≤ fuel)
    (hpos : (k.terminal term).position < (k.terminal term).keyboardBufIdx) :
    (eraseLine term fuel k).video.Outside := by
  induction fuel generalizing k with
  | zero => omega
  | succ fuel ih =>
    have hzero : (k.terminal term).keyboardBufIdx ≠ 0 := by omega
    rw [eraseLine, if_neg hzero]
    by_cases hne : (k.terminal term).position = 0
    · exact (backspace_outside hzero hne).mono (eraseLine_suffix ..)
    · have hnext := backspace_idx hidx
      have hback := backspace_position (h.inScreen hterm) hzero hne
      exact ih (backspace_placed hterm h (.inr hne)) (by omega) (by omega) (by omega)

theorem recallLine_placed {R : ℕ → ℕ → ℕ → Prop} {term : ℕ} (hterm : Whole R term)
    (fuel index : ℕ) {k : Kernel} (h : Placed R k) : Placed R (recallLine term fuel index k) := by
  induction fuel generalizing index k with
  | zero => exact h
  | succ fuel ih =>
    simp only [recallLine]
    generalize (k.terminal term).historyBuf (k.terminal term).histPtr index = c
    have hstore := h.hidden (storeKey_hidden term index c k)
    split_ifs
    · exact hstore
    · exact ih _ ((termPutc_placed c hterm hstore).hidden (.onTerminal (fun _ => rfl) _))

/-- The history key has somewhere to go. -/
def Turns (direction : ℤ) (k : Kernel) : Prop :=
  (direction = 1 ∨ direction = -1) ∧ (k.terminal k.viewingTerm).canTurn direction

theorem terminalHistory_placed {R : ℕ → ℕ → ℕ → Prop} {direction : ℤ} {k : Kernel}
    (hview : Whole R k.viewingTerm)
    (hfilled : (k.terminal k.viewingTerm).keyboardBufIdx ≤ keyBuffSize) (h : Placed R k) :
    Placed R (terminalHistory direction k) ↔ (Turns direction k →
      (k.terminal k.viewingTerm).keyboardBufIdx ≤ (k.terminal k.viewingTerm).position) := by
  simp only [terminalHistory, Turns]
  split_ifs with hdirection hturn
  · exact iff_of_true h fun hturn => absurd hturn.1 (by omega)
  · exact iff_of_true h fun hcan => absurd hcan.2 (by simpa using hturn)
  have hturns : (direction = 1 ∨ direction = -1) ∧
      (k.terminal k.viewingTerm).canTurn direction = true := ⟨by omega,by simpa using hturn⟩
  generalize k.viewingTerm = term at *
  have hidx := Terminal.turnHistory_idx direction (k.terminal term)
  have hturned : Hidden k (k.onTerminal term (Terminal.turnHistory direction)) :=
    .onTerminal (Terminal.turnHistory_hidden direction) k
  have hscreen := h.hidden hturned
  have hpos : ((k.onTerminal term (Terminal.turnHistory direction)).terminal term).position =
      (k.terminal term).position := by
    rw [Terminal.position, hturned.terminals term]
    rfl
  have hself := Kernel.onTerminal_terminal_self k term (Terminal.turnHistory direction)
  generalize k.onTerminal term (Terminal.turnHistory direction) = k' at *
  rw [← hself] at hidx
  by_cases hfits : (k.terminal term).keyboardBufIdx ≤ (k.terminal term).position
  · refine iff_of_true ?_ fun _ => hfits
    have herase := eraseLine_placed hview (k'.terminal term).keyboardBufIdx hscreen (by omega)
      (by omega)
    exact (recallLine_placed hview _ _ herase).hidden (.onTerminal (fun _ => rfl) _)
  · refine iff_of_false ?_ fun himp => hfits (himp hturns)
    have hout := eraseLine_outside hview (k'.terminal term).keyboardBufIdx hscreen (by omega) le_rfl
      (by omega)
    have hkept := hout.mono (recallLine_suffix term _ keyBuffSize 0)
    exact fun hplaced => hkept.not_inScreen hplaced.cells

/-! ### Runs -/

/-- The kernel's events, and output to any terminal at any time. -/
inductive ScreenOp
  | call (op : Op)
  | output (term : ℕ) (bytes : List UInt8)

def ScreenOp.Proper : ScreenOp → Prop
  | .call op => op.Proper
  | .output term _ => term < numTerm

def display (fs : FileSystem) : System Kernel ScreenOp Unit where
  step k
    | .call op => ((),(kernel fs).next k op)
    | .output term bytes => ((),termPuts bytes term k)

/-- The condition on the keys that erase: Backspace has nothing to erase or does not stand
in the first cell, and a history key finds no more characters in the buffer than cells
before the cursor. -/
def ErasesInside (k : Kernel) (op : ScreenOp) : Prop :=
  ∀ pressed cpu, op = .call (.key pressed cpu) →
    (pressed = 0x0E → (k.terminal k.viewingTerm).keyboardBufIdx = 0 ∨
      (k.terminal k.viewingTerm).position ≠ 0) ∧
    ∀ direction, HistoryKey pressed k direction → Turns direction k →
      (k.terminal k.viewingTerm).keyboardBufIdx ≤ (k.terminal k.viewingTerm).position

theorem OtherKey.erasesInside {pressed : ℕ} {k : Kernel} (h : OtherKey pressed k) (cpu : Cpu) :
    ErasesInside k (.call (.key pressed cpu)) := by
  rintro _ _ ⟨⟩
  exact ⟨fun herase => absurd herase h.erase,fun _ hkey => absurd hkey (h.history _)⟩

theorem HistoryKey.unique {pressed : ℕ} {k : Kernel} {direction direction' : ℤ}
    (h : HistoryKey pressed k direction) (h' : HistoryKey pressed k direction') :
    direction' = direction := by
  obtain ⟨-,h⟩ := h
  obtain ⟨-,h'⟩ := h'
  omega

/-- The regions that a key may draw in: the screens of the terminal in view and, with Alt, of the
running one, and that of one that it clears. -/
structure Drawable (R : ℕ → ℕ → ℕ → Prop) (k : Kernel) : Prop where
  current : k.altFlag ≠ 0 → Whole R k.currentTerm
  viewing : Whole R k.viewingTerm
  cleared : ∀ t x y, x < numCols → y < numRows → R t x y

theorem drawable_screenRegion {k : Kernel} (hin : k.InRange) : Drawable screenRegion k :=
  ⟨fun _ => whole_screenRegion hin.current,whole_screenRegion hin.viewing,
    fun _ _ _ hx hy _ => ⟨hx,hy⟩⟩

/-- A key keeps the cursors in their regions exactly when it erases inside the screen. -/
theorem keyboardSwitch_placed {R : ℕ → ℕ → ℕ → Prop} (fs : FileSystem) (cpu : Cpu)
    (pressed : ℕ) {k : Kernel} (hdraw : Drawable R k)
    (hfilled : (k.terminal k.viewingTerm).keyboardBufIdx ≤ keyBuffSize) (h : Placed R k) :
    Placed R (keyboardSwitch fs cpu pressed k).2 ↔
      ErasesInside k (.call (.key pressed cpu)) := by
  have hkeyed := keyboardSwitch_keyed fs cpu pressed k
  generalize keyboardSwitch fs cpu pressed k = r at *
  cases hkeyed with
  | erase hpressed =>
    subst hpressed
    constructor
    · rintro hplaced _ _ ⟨⟩
      refine ⟨fun _ => ?_,fun _ hkey => absurd hkey.2 (by omega)⟩
      by_contra hcorner
      obtain ⟨hidx,hpos⟩ := not_or.mp hcorner
      exact (backspace_outside hidx (not_not.mp hpos)).not_inScreen hplaced.cells
    · intro hinside
      exact backspace_placed hdraw.viewing h ((hinside _ _ rfl).1 rfl)
  | enter hpressed =>
    subst hpressed
    apply iff_of_true ((enterPress_draws k).typingPlaced hdraw.viewing h)
    rintro _ _ ⟨⟩
    exact ⟨fun herase => absurd herase (by decide),fun _ hkey => absurd hkey.2 (by omega)⟩
  | history hkey =>
    rw [terminalHistory_placed hdraw.viewing hfilled h]
    constructor
    · rintro hfits _ _ ⟨⟩
      constructor
      · intro herase
        obtain ⟨-,⟨hpressed,-⟩ | ⟨hpressed,-⟩⟩ := hkey
        · exact absurd (herase.symm.trans hpressed) (by decide)
        · exact absurd (herase.symm.trans hpressed) (by decide)
      · intro direction' hkey'
        rw [hkey.unique hkey']
        exact hfits
    · intro hinside
      exact (hinside _ _ rfl).2 _ hkey
  | tab hother =>
    exact iff_of_true ((tabPress_draws k).typingPlaced hdraw.viewing h) (hother.erasesInside cpu)
  | char hother =>
    exact iff_of_true ((keyPress_draws k pressed).typingPlaced hdraw.viewing h)
      (hother.erasesInside cpu)
  | clear hother =>
    exact iff_of_true (termClear_placed hdraw.viewing (h.but _)) (hother.erasesInside cpu)
  | flags hother hk' => exact iff_of_true (h.hidden hk'.hidden) (hother.erasesInside cpu)
  | @switch dest hother _ halt =>
    have hswitched := terminalSwitch_switched fs cpu k.viewingTerm dest k
    exact iff_of_true (hswitched.placed (hdraw.current halt) (hdraw.cleared dest) h)
      (hother.erasesInside cpu)

/-- No event but a key can take a cursor or a store out of its region. -/
theorem step_placed {R : ℕ → ℕ → ℕ → Prop} (fs : FileSystem) {k : Kernel} {op : Op}
    (hcurrent : Whole R k.currentTerm)
    (hdest : ∀ dest cpu, op = .switch dest cpu → ∀ x y, x < numCols → y < numRows → R dest x y)
    (h : Placed R k) (hkey : ∀ pressed cpu, op ≠ .key pressed cpu) :
    Placed R ((kernel fs).next k op) := by
  have hcall : op.Quiet → op.Strokes k = Stroke.OfCall k.currentTerm (k.loads op) →
      Placed R ((kernel fs).next k op) := by
    intro hquiet hstrokes
    have hdraws := quiet_draws fs k hquiet
    rw [hstrokes] at hdraws
    exact hdraws.callPlaced hcurrent h
  cases op with
  | key pressed cpu => exact absurd rfl (hkey pressed cpu)
  | read fd null nbytes cpu => exact h.hidden (read_hidden fs fd null nbytes cpu k)
  | resume => exact h.hidden (resume_hidden k)
  | switch dest cpu =>
    exact (terminalSwitch_switched fs cpu k.viewingTerm dest k).placed hcurrent
      (hdest dest cpu rfl) h
  | _ => exact hcall trivial rfl

/-- The interrupt flag is no part of it. -/
theorem keyboardHandler_placed {R : ℕ → ℕ → ℕ → Prop} (fs : FileSystem) (cpu : Cpu)
    (pressed : ℕ) {k : Kernel} (hdraw : Drawable R k)
    (hfilled : (k.terminal k.viewingTerm).keyboardBufIdx ≤ keyBuffSize) (h : Placed R k) :
    Placed R (keyboardHandler fs cpu pressed k).2 ↔
      ErasesInside k (.call (.key pressed cpu)) := by
  have hcli := keyboardSwitch_placed fs cpu pressed (k := { k with interrupts := false })
    ⟨hdraw.current,hdraw.viewing,hdraw.cleared⟩ hfilled ⟨h.cursor,h.cells⟩
  have hend : Placed R (keyboardHandler fs cpu pressed k).2 ↔
      Placed R (keyboardSwitch fs cpu pressed { k with interrupts := false }).2 :=
    ⟨fun h => ⟨h.cursor,h.cells⟩,fun h => ⟨h.cursor,h.cells⟩⟩
  exact hend.trans hcli

theorem step_onScreen (fs : FileSystem) {k : Kernel} {op : Op} (hin : k.InRange) (h : OnScreen k)
    (hkey : ∀ pressed cpu, op ≠ .key pressed cpu) :
    OnScreen ((kernel fs).next k op) :=
  onScreen_iff.mpr (step_placed fs (whole_screenRegion hin.current)
    (fun _ _ _ _ _ hx hy _ => ⟨hx,hy⟩) (onScreen_iff.mp h) hkey)

/-- Only the keys that erase can. -/
theorem display_step (fs : FileSystem) {k : Kernel} {op : ScreenOp} (hop : op.Proper)
    (hin : k.InRange) (hfilled : k.Filled) (h : OnScreen k) :
    OnScreen ((display fs).next k op) ↔ ErasesInside k op := by
  have hother : (∀ pressed cpu, op ≠ .call (.key pressed cpu)) → ErasesInside k op :=
    fun hne pressed cpu hkey => absurd hkey (hne pressed cpu)
  rw [onScreen_iff] at h ⊢
  cases op with
  | output term bytes =>
    exact iff_of_true (termPuts_placed bytes (whole_screenRegion hop) h) (hother fun _ _ => nofun)
  | call op =>
    by_cases hkey : ∀ pressed cpu, op ≠ .key pressed cpu
    · exact iff_of_true (onScreen_iff.mp (step_onScreen fs hin (onScreen_iff.mpr h) hkey))
        (hother fun pressed cpu heq => hkey pressed cpu (ScreenOp.call.inj heq))
    · simp only [not_forall, not_not] at hkey
      obtain ⟨pressed,cpu,rfl⟩ := hkey
      exact keyboardHandler_placed fs cpu pressed (drawable_screenRegion hin) (hfilled _) h

theorem display_keeps (fs : FileSystem) {k : Kernel} {op : ScreenOp} (hop : op.Proper)
    (h : k.InRange ∧ k.Filled) :
    ((display fs).next k op).InRange ∧ ((display fs).next k op).Filled := by
  cases op with
  | call op =>
    obtain ⟨hin,hfilled,-⟩ := step_filled fs hop h
    exact ⟨hin,hfilled⟩
  | output term bytes =>
    have hputs := termPuts_screenOnly bytes term k
    exact ⟨inRange_of hputs.table (inRange_table.mpr h.1),hputs.fits.filled h.2⟩

theorem initial_onScreen (pcb : ℕ → PCB) (phys : ℕ → UInt8) : OnScreen (initial pcb phys) := by
  have hblank : Placed screenRegion (blank pcb phys) := by
    constructor
    · intro t _
      obtain ⟨hx,hy,-⟩ := blank_terminal pcb phys t
      rw [hx, hy]
      exact ⟨by decide,by decide⟩
    · intro c hc
      exact absurd hc (by simp [blank, setTerminals, staticStorage, mapTermToBuf, mapTermToVid,
        Video.setPage])
  have hclear := termClear_placed (whole_screenRegion (show 0 < numTerm by decide)) (hblank.but 0)
  rw [onScreen_iff]
  simp only [initial, terminalInit]
  rw [← blank]
  generalize termClear 0 (blank pcb phys) = k at *
  have hcount : Placed screenRegion { k with processCnt := 0, termsOn := 1 } :=
    ⟨hclear.cursor,hclear.cells⟩
  exact hcount.unseen (moveCursor_unseen 0 _)

/-- In every run in which output is not interrupted the cursors and all stores stay on the screen
as long as, and only as long as, every key that erases does so inside it. -/
theorem cursor_onScreen_iff (fs : FileSystem) (pcb : ℕ → PCB) (phys : ℕ → UInt8)
    {ops : List ScreenOp} (hops : ∀ op ∈ ops, op.Proper) :
    (∀ p, p <+: ops → OnScreen ((display fs).run (initial pcb phys) p)) ↔
      (display fs).Along ErasesInside (initial pcb phys) ops :=
  System.always_iff_along (S := display fs) (J := fun k => k.InRange ∧ k.Filled)
    (fun _ _ h hop => display_keeps fs hop h) (fun _ _ h hop => display_step fs hop h.1 h.2)
    ⟨initial_inRange pcb phys,initial_filled pcb phys⟩ (initial_onScreen pcb phys) hops

/-- Eight characters, the screen cleared, and eight times Backspace. -/
def clearThenErase : List ScreenOp :=
  .call (.execute (some (text "shell")) ⟨1,1,fun _ => 0⟩) ::
    List.replicate 8 (.call (.key 0x1E ⟨2,2,fun _ => 0⟩)) ++
    [.call (.key 0x1D ⟨3,3,fun _ => 0⟩),.call (.key 0x26 ⟨4,4,fun _ => 0⟩)] ++
    List.replicate 8 (.call (.key 0x0E ⟨5,5,fun _ => 0⟩))

/-- The last Backspace finds a prompt of seven characters only. -/
theorem cursor_leaves_screen :
    (∀ op ∈ clearThenErase, op.Proper) ∧
      ¬OnScreen ((display shellImage).run (initial (fun _ => PCB.zero) fun _ => 0)
        clearThenErase) := by
  refine ⟨by simp [clearThenErase, ScreenOp.Proper, Op.Proper],?_⟩
  intro hscreen
  have hy := (hscreen.cursor 0 (by decide)).y
  have hrow : (((display shellImage).run (initial (fun _ => PCB.zero) fun _ => 0)
      clearThenErase).terminal 0).screenY = 255 := by decide +kernel
  rw [hrow] at hy
  exact absurd hy (by decide)

end GameOfThreads
