import GameOfThreads.ScreenPages
import GameOfThreads.ProcessRuns

/-! Screens in isolation. Behind its page of the video window each terminal has a screen of
its own, which output to the other terminals and switches of the view leave alone: what the
kernel shows is a family of independent screens, with the one in view on the adapter. -/
namespace GameOfThreads
open Machine

/-- A screen by itself. Its cursor cannot leave it. -/
structure Screen where
  x : Fin numCols
  y : Fin numRows
  color : UInt8
  page : Page

namespace Screen

def firstCol : Fin numCols := ⟨0,by decide⟩
def firstRow : Fin numRows := ⟨0,by decide⟩
def lastRow : Fin numRows := ⟨numRows-1,by decide⟩

def scroll (s : Screen) : Screen :=
  { s with x := firstCol, y := lastRow, page := s.page.scroll s.color }

/-- The start of the next row; past the last one the screen scrolls. -/
def nextRow (s : Screen) : Screen :=
  if h : s.y+1 < numRows then { s with x := firstCol, y := ⟨s.y+1,h⟩ } else s.scroll

/-- A character in the cell at the cursor. -/
def setCell (c : UInt8) (s : Screen) : Screen :=
  { s with page := s.page.setCell (numCols*s.y+s.x) c s.color }

def putc (c : UInt8) (s : Screen) : Screen :=
  if c = newline ∨ c = carriage then s.nextRow
  else if h : s.x+1 < numCols then { s.setCell c with x := ⟨s.x+1,h⟩ }
  else (s.setCell c).nextRow

def puts (bytes : List UInt8) (s : Screen) : Screen := bytes.foldl (fun s c => s.putc c) s

def blank (s : Screen) : Screen :=
  { s with x := firstCol, y := firstRow, page := s.page.clear s.color }

/-- A blank screen with the prompt. -/
def clear (s : Screen) : Screen := s.blank.puts (text "391OS> ")

end Screen

/-! ### What the kernel displays -/

def pages (S : ℕ → Screen) : ℕ → Page := fun t => (S t).page

@[simp] theorem pages_update (S : ℕ → Screen) (term : ℕ) (s : Screen) :
    pages (Function.update S term s) = Function.update (pages S) term s.page := by
  funext t
  by_cases ht : t = term
  · subst ht
    simp [pages]
  · simp [pages, ht]

/-- The terminals show the screens `S`, with cursors to match but for that of one terminal. -/
structure DisplaysBut (term : ℕ) (S : ℕ → Screen) (k : Kernel) : Prop where
  viewing : k.viewingTerm < numTerm
  shows : k.video.Shows k.viewingTerm (pages S)
  window : ∀ t < numTerm,
    (k.terminal t).termVideoMem = termPage t ∧ (k.terminal t).color = (S t).color
  cursor : ∀ t < numTerm, t ≠ term →
    (k.terminal t).screenX = (S t).x ∧ (k.terminal t).screenY = (S t).y

structure Displays (S : ℕ → Screen) (k : Kernel) : Prop where
  viewing : k.viewingTerm < numTerm
  shows : k.video.Shows k.viewingTerm (pages S)
  window : ∀ t < numTerm,
    (k.terminal t).termVideoMem = termPage t ∧ (k.terminal t).color = (S t).color
  cursor : ∀ t < numTerm,
    (k.terminal t).screenX = (S t).x ∧ (k.terminal t).screenY = (S t).y

section
variable {term : ℕ} {S : ℕ → Screen} {k : Kernel}

theorem Displays.but (h : Displays S k) (term : ℕ) : DisplaysBut term S k :=
  ⟨h.viewing,h.shows,h.window,fun t ht _ => h.cursor t ht⟩

theorem Displays.moveCursor (h : Displays S k) (term : ℕ) : Displays S (moveCursor term k) := by
  refine ⟨?_,?_,?_,?_⟩
  · rw [moveCursor_viewingTerm]
    exact h.viewing
  · rw [moveCursor_viewingTerm, moveCursor_video]
    exact h.shows
  · rw [moveCursor_terminal]
    exact h.window
  · rw [moveCursor_terminal]
    exact h.cursor

namespace DisplaysBut

theorem displays (h : DisplaysBut term S k) (hx : (k.terminal term).screenX = (S term).x)
    (hy : (k.terminal term).screenY = (S term).y) : Displays S k := by
  refine ⟨h.viewing,h.shows,h.window,?_⟩
  intro t ht
  by_cases hterm : t = term
  · subst hterm
    exact ⟨hx,hy⟩
  · exact h.cursor t ht hterm

theorem onTerminal (h : DisplaysBut term S k) {f : Terminal → Terminal}
    (hf : ∀ t, (f t).termVideoMem = t.termVideoMem ∧ (f t).color = t.color) :
    DisplaysBut term S (k.onTerminal term f) := by
  refine ⟨h.viewing,h.shows,?_,?_⟩
  · intro t ht
    obtain ⟨hmem,hcolor⟩ := hf (k.terminal t)
    rw [Kernel.onTerminal_terminal]
    split_ifs
    · rw [hmem, hcolor]
      exact h.window t ht
    · exact h.window t ht
  · intro t ht hne
    rw [Kernel.onTerminal_terminal, if_neg hne]
    exact h.cursor t ht hne

/-- Cells of one screen written through its window. -/
theorem paint (h : DisplaysBut term S k) {v : Video} {s : Screen}
    (hcolor : s.color = (S term).color)
    (hv : v.Shows k.viewingTerm (Function.update (pages S) term s.page)) :
    DisplaysBut term (Function.update S term s) { k with video := v } := by
  refine ⟨h.viewing,?_,?_,?_⟩
  · rw [pages_update]
    exact hv
  · intro t ht
    by_cases hterm : t = term
    · subst hterm
      rw [Function.update_self, hcolor]
      exact h.window t ht
    · rw [Function.update_of_ne hterm]
      exact h.window t ht
  · intro t ht hne
    rw [Function.update_of_ne hne]
    exact h.cursor t ht hne

/-- A screen with the same cells in place of the one that a terminal has. -/
theorem replace (h : DisplaysBut term S k) {s : Screen} (hcolor : s.color = (S term).color)
    (hpage : s.page = pages S term) : DisplaysBut term (Function.update S term s) k := by
  have hshows := h.shows
  rw [← Function.update_eq_self term (pages S), ← hpage] at hshows
  exact h.paint hcolor hshows

end DisplaysBut

theorem scrollScreen_displays (hterm : term < numTerm) (h : DisplaysBut term S k) :
    Displays (Function.update S term (S term).scroll) (scrollScreen term k) := by
  obtain ⟨hmem,hcolor⟩ := h.window term hterm
  have hscroll := h.shows.scroll hterm (S term).color
  have hpaint := (h.paint (s := (S term).scroll) rfl hscroll).onTerminal
    (f := Terminal.setCursor 0 (numRows-1)) fun _ => ⟨rfl,rfl⟩
  simp only [scrollScreen, hmem, hcolor]
  refine (hpaint.displays ?_ ?_).moveCursor term
  · rw [Kernel.onTerminal_terminal_self, Function.update_self]
    rfl
  · rw [Kernel.onTerminal_terminal_self, Function.update_self]
    rfl

theorem wrap_displays (hterm : term < numTerm) (h : DisplaysBut term S k)
    (hy : (k.terminal term).screenY = (S term).y) :
    let k' := k.onTerminal term Terminal.newLine
    if (k'.terminal term).screenY = numRows then
      Displays (Function.update S term (S term).nextRow) (scrollScreen term k')
    else Displays (Function.update S term (S term).nextRow) k' := by
  have hrow := (S term).y.isLt
  have hline : ((k.onTerminal term Terminal.newLine).terminal term).screenY = (S term).y+1 := by
    rw [Kernel.onTerminal_terminal_self]
    unfold numRows at hrow
    simp only [Terminal.newLine, hy]
    omega
  have hmove := h.onTerminal (f := Terminal.newLine) fun _ => ⟨rfl,rfl⟩
  simp only [hline, Screen.nextRow]
  by_cases hnext : ((S term).y : ℕ)+1 < numRows
  · rw [dif_pos hnext, if_neg (Nat.ne_of_lt hnext)]
    refine (hmove.replace (s := { S term with x := Screen.firstCol, y := ⟨(S term).y+1,hnext⟩ })
      rfl rfl).displays ?_ ?_
    · rw [Kernel.onTerminal_terminal_self, Function.update_self]
      rfl
    · rw [hline, Function.update_self]
  · rw [dif_neg hnext, if_pos (by omega)]
    exact scrollScreen_displays hterm hmove

theorem nextRow_displays (hterm : term < numTerm) (h : Displays S k) :
    Displays (Function.update S term (S term).nextRow) (nextRow term k) := by
  have hwrap := wrap_displays hterm (h.but term) (h.cursor term hterm).2
  simp only [nextRow] at hwrap ⊢
  split_ifs at hwrap ⊢
  · exact hwrap
  · exact hwrap.moveCursor term

/-- A character in the cell at the cursor of the terminal is one in that of its screen. -/
theorem storeCell_displays (hterm : term < numTerm) (c : UInt8) (h : Displays S k) :
    let t := k.terminal term
    let cell := numCols*t.screenY+t.screenX
    DisplaysBut term (Function.update S term ((S term).setCell c))
      { k with video := k.video.storeCell t.termVideoMem cell c t.color } := by
  obtain ⟨hmem,hcolor⟩ := h.window term hterm
  obtain ⟨hx,hy⟩ := h.cursor term hterm
  have hcol := (S term).x.isLt
  have hrow := (S term).y.isLt
  have hcell : 2*(numCols*(S term).y+(S term).x)+1 < pagesSize := by
    unfold numCols at hcol
    unfold numRows at hrow
    unfold numCols pagesSize
    omega
  simp only [hmem, hcolor, hx, hy]
  exact (h.but term).paint (s := (S term).setCell c) rfl
    (h.shows.storeCell hterm hcell c (S term).color)

theorem putCell_displays (hterm : term < numTerm) (c : UInt8) (h : Displays S k) :
    DisplaysBut term (Function.update S term ((S term).setCell c)) (putCell c term k) ∧
      ((putCell c term k).terminal term).screenX = (S term).x+1 ∧
      ((putCell c term k).terminal term).screenY = (S term).y := by
  obtain ⟨hx,hy⟩ := h.cursor term hterm
  have hcol := (S term).x.isLt
  have hstore := storeCell_displays hterm c h
  refine ⟨hstore.onTerminal fun _ => ⟨rfl,rfl⟩,?_,?_⟩
  · simp only [putCell]
    rw [Kernel.onTerminal_terminal_self]
    unfold numCols at hcol
    simp only [Terminal.advance, hx]
    omega
  · simp only [putCell]
    rw [Kernel.onTerminal_terminal_self]
    exact hy

/-- term_putc on the terminal is putc on its screen. -/
theorem termPutc_displays (hterm : term < numTerm) (c : UInt8) (h : Displays S k) :
    Displays (Function.update S term ((S term).putc c)) (termPutc c term k) := by
  by_cases hnewline : c = newline ∨ c = carriage
  · rw [termPutc, if_pos hnewline, Screen.putc, if_pos hnewline]
    exact nextRow_displays hterm h
  obtain ⟨hput,hx,hy⟩ := putCell_displays hterm c h
  have hcol := (S term).x.isLt
  simp only [termPutc, Screen.putc, if_neg hnewline]
  generalize putCell c term k = k' at *
  by_cases hnext : ((S term).x : ℕ)+1 < numCols
  · rw [dif_pos hnext, if_neg (by omega)]
    have hadvance := hput.replace (s := { (S term).setCell c with x := ⟨(S term).x+1,hnext⟩ })
      (by rw [Function.update_self]) (by rw [pages, Function.update_self])
    rw [Function.update_idem] at hadvance
    refine (hadvance.displays ?_ ?_).moveCursor term
    · rw [hx, Function.update_self]
    · rw [hy, Function.update_self]
      rfl
  · have hwrap := wrap_displays hterm hput (by rw [hy, Function.update_self]; rfl)
    rw [Function.update_self, Function.update_idem] at hwrap
    rw [dif_neg hnext, if_pos (by omega)]
    simp only at hwrap ⊢
    split_ifs at hwrap ⊢
    · exact hwrap.moveCursor term
    · exact hwrap.moveCursor term

theorem termPuts_displays (hterm : term < numTerm) (bytes : List UInt8) (h : Displays S k) :
    Displays (Function.update S term ((S term).puts bytes)) (termPuts bytes term k) := by
  unfold termPuts Screen.puts
  induction bytes generalizing S k with
  | nil =>
    rw [List.foldl_nil, List.foldl_nil, Function.update_eq_self]
    exact h
  | cons c bytes ih =>
    have hrest := ih (termPutc_displays hterm c h)
    rw [Function.update_self, Function.update_idem] at hrest
    exact hrest

theorem termClear_displays (hterm : term < numTerm) (h : Displays S k) :
    Displays (Function.update S term (S term).clear) (termClear term k) := by
  obtain ⟨hmem,hcolor⟩ := h.window term hterm
  have hclear := h.shows.clear hterm (S term).color
  have hpaint := ((h.but term).paint (s := (S term).blank) rfl hclear).onTerminal
    (f := Terminal.setCursor 0 0) fun _ => ⟨rfl,rfl⟩
  have hblank : Displays (Function.update S term (S term).blank)
      (Kernel.onTerminal { k with video := k.video.clearCells (termPage term) (S term).color }
        term (Terminal.setCursor 0 0)) := by
    apply hpaint.displays
    · rw [Kernel.onTerminal_terminal_self, Function.update_self]
      rfl
    · rw [Kernel.onTerminal_terminal_self, Function.update_self]
      rfl
  have hprompt := termPuts_displays hterm (text "391OS> ") hblank
  rw [Function.update_self, Function.update_idem] at hprompt
  simp only [termClear, hmem, hcolor]
  exact hprompt

end

/-! ### Runs -/

/-- Output, switches from the terminal in view, and the changes of the program counts that
programs cause in between by starting and halting. -/
inductive ScreenCall
  | putc (c : UInt8) (term : ℕ)
  | clear (term : ℕ)
  | switch (dest : ℕ) (cpu : Cpu)
  | programs (count : ℕ → ℕ)

/-- The terminal that a call is addressed to. -/
def ScreenCall.term : ScreenCall → Option ℕ
  | .putc _ term => some term
  | .clear term => some term
  | _ => none

/-- The calls on the kernel. -/
def screens (fs : FileSystem) : System Kernel ScreenCall Unit where
  step k
    | .putc c term => ((),termPutc c term k)
    | .clear term => ((),termClear term k)
    | .switch dest cpu => ((),(terminalSwitch fs cpu k.viewingTerm dest k).2)
    | .programs count => ((),{ k with totalProgs := count })

/-- The calls on one screen. -/
def screen : System Screen ScreenCall Unit where
  step s
    | .putc c _ => ((),s.putc c)
    | .clear _ => ((),s.clear)
    | _ => ((),s)

/-- Output goes to a terminal that exists, and a switch to another one with programs. -/
def Addressed (k : Kernel) : ScreenCall → Prop
  | .putc _ term => term < numTerm
  | .clear term => term < numTerm
  | .switch dest _ => dest < numTerm ∧ dest ≠ k.viewingTerm ∧ k.totalProgs dest > 0
  | .programs _ => True

instance (k : Kernel) : (call : ScreenCall) → Decidable (Addressed k call)
  | .putc _ term => inferInstanceAs (Decidable (term < numTerm))
  | .clear term => inferInstanceAs (Decidable (term < numTerm))
  | .switch dest _ => inferInstanceAs
      (Decidable (dest < numTerm ∧ dest ≠ k.viewingTerm ∧ k.totalProgs dest > 0))
  | .programs _ => isTrue trivial

theorem terminalSwitch_running (fs : FileSystem) (cpu : Cpu) {dest : ℕ} {k : Kernel}
    (hdest : dest < numTerm) (hne : dest ≠ k.viewingTerm) (hprogs : k.totalProgs dest > 0) :
    (terminalSwitch fs cpu k.viewingTerm dest k).2 = moveCursor dest
      { k with video := exchangeScreens k.viewingTerm dest k, viewingTerm := dest } := by
  have hvalid : ¬(dest > numTerm ∨ dest = k.viewingTerm) := by omega
  have hstill : ∀ v, (moveCursor dest { k with video := v, viewingTerm := dest }).totalProgs dest ≠
      0 := by
    intro v
    rw [(moveCursor_screenOnly dest _).rest]
    exact Nat.ne_of_gt hprogs
  rw [terminalSwitch, if_neg hvalid, if_neg fun h => Nat.ne_of_gt hprogs h.1]
  simp only
  rw [if_neg (hstill _)]

/-- A call moves the screen that it is addressed to and no other. -/
theorem screens_step (fs : FileSystem) {S : ℕ → Screen} {k : Kernel} {call : ScreenCall}
    (h : Displays S k) (hcall : Addressed k call) :
    Displays ((screen.family ScreenCall.term).next S call) ((screens fs).next k call) := by
  cases call with
  | putc c term =>
    have haddr : ScreenCall.term (.putc c term) = some term := rfl
    rw [System.family_next_some S haddr]
    exact termPutc_displays hcall c h
  | clear term =>
    have haddr : ScreenCall.term (.clear term) = some term := rfl
    rw [System.family_next_some S haddr]
    exact termClear_displays hcall h
  | switch dest cpu =>
    obtain ⟨hdest,hne,hprogs⟩ := hcall
    have hshows := exchangeScreens_shows h.shows h.viewing hdest hne fun t ht => (h.window t ht).1
    have hview : Displays S
        { k with video := exchangeScreens k.viewingTerm dest k, viewingTerm := dest } :=
      ⟨hdest,hshows,h.window,h.cursor⟩
    rw [System.family_next_none S rfl]
    refine Eq.mpr (congrArg (Displays S) ?_) (hview.moveCursor dest)
    exact terminalSwitch_running fs cpu hdest hne hprogs
  | programs count =>
    rw [System.family_next_none S rfl]
    exact ⟨h.viewing,h.shows,h.window,h.cursor⟩

/-- The screen that terminal_init finds in the memory of a terminal. -/
def Screen.found (phys : ℕ → UInt8) (term : ℕ) : Screen where
  x := firstCol
  y := firstRow
  color := terminalColor term
  page i := phys ((if term = 0 then videoAddr else mem32+term*pagesSize)+i)

/-- The screen that terminal_init leaves: it clears the first terminal. -/
def Screen.start (phys : ℕ → UInt8) (term : ℕ) : Screen :=
  if term = 0 then (found phys term).clear else found phys term

theorem setTerminals_displays (k : Kernel) :
    Displays (Screen.found k.video.phys) (setTerminals k) := by
  have hinit : ∀ t < numTerm, (setTerminals k).terminal t = (k.terminal t).init t := fun t ht =>
    if_pos ht
  refine ⟨show 0 < numTerm by decide,⟨?_,fun t _ => rfl⟩,?_,?_⟩
  · intro t ht
    unfold numTerm at ht
    interval_cases t <;>
      simp [setTerminals, mapTermToBuf, mapTermToVid, Video.setPage, Function.update]
  · intro t ht
    rw [hinit t ht]
    exact ⟨rfl,rfl⟩
  · intro t ht
    rw [hinit t ht]
    exact ⟨rfl,rfl⟩

theorem terminalInit_displays (k : Kernel) :
    Displays (Screen.start k.video.phys) (terminalInit k) := by
  have hclear := termClear_displays (show 0 < numTerm by decide) (setTerminals_displays k)
  have hstart : Function.update (Screen.found k.video.phys) 0
      (Screen.found k.video.phys 0).clear = Screen.start k.video.phys := by
    funext t
    unfold Screen.start
    split_ifs with ht
    · subst ht
      exact Function.update_self ..
    · exact Function.update_of_ne ht ..
  rw [hstart] at hclear
  simp only [terminalInit]
  generalize termClear 0 (setTerminals k) = k' at *
  refine Displays.moveCursor (k := { k' with processCnt := 0, termsOn := 1 }) ?_ 0
  exact ⟨hclear.viewing,hclear.shows,hclear.window,hclear.cursor⟩

/-- Exactly the terminal in view has the adapter. Each terminal sees what the calls addressed
to it alone have made of its screen, and the adapter shows the terminal in view. -/
theorem screens_isolated (fs : FileSystem) (k₀ : Kernel) {calls : List ScreenCall}
    (hcalls : (screens fs).Along Addressed (terminalInit k₀) calls) :
    let k := (screens fs).run (terminalInit k₀) calls
    (k.viewingTerm < numTerm ∧ k.video.Mapped k.viewingTerm) ∧
    (∀ t < numTerm, ∀ i : Fin pagesSize,
      k.video.translate ((k.terminal t).termVideoMem+i) =
        some ((if t = k.viewingTerm then videoAddr else mem32+t*pagesSize)+i) ∧
      k.video.load ((k.terminal t).termVideoMem+i) =
        (screen.run (Screen.start k₀.video.phys t)
          (calls.filter fun call => call.term = some t)).page i) ∧
    ∀ i : Fin pagesSize, k.video.phys (videoAddr+i) =
      k.video.load ((k.terminal k.viewingTerm).termVideoMem+i) := by
  intro k
  have hdisplays : Displays ((screen.family ScreenCall.term).run
      (Screen.start k₀.video.phys) calls) k :=
    System.Along.simulation (R := fun k S => Displays S k)
      (fun _ _ _ h hcall => screens_step fs h hcall) (terminalInit_displays k₀) hcalls
  have hload : ∀ t < numTerm, ∀ i : Fin pagesSize,
      k.video.load ((k.terminal t).termVideoMem+i) =
        (screen.run (Screen.start k₀.video.phys t)
          (calls.filter fun call => call.term = some t)).page i := by
    intro t ht i
    rw [(hdisplays.window t ht).1, hdisplays.shows.load ht i, pages, System.family_run]
  refine ⟨⟨hdisplays.viewing,hdisplays.shows.mapped⟩,fun t ht i => ⟨?_,hload t ht i⟩,?_⟩
  · rw [(hdisplays.window t ht).1, hdisplays.shows.mapped.translate ht i.isLt]
    rfl
  · intro i
    rw [hdisplays.shows.adapter hdisplays.viewing i, (hdisplays.window _ hdisplays.viewing).1,
      hdisplays.shows.load hdisplays.viewing i]

/-- Written before it comes into view, hidden while it is written to, and in view again. -/
def switches : List ScreenCall :=
  [.programs fun _ => 1,.putc 65 1,.switch 1 ⟨1,1,fun _ => 0⟩,.putc 66 0,.clear 2,
    .switch 2 ⟨2,2,fun _ => 0⟩,.putc 67 1,.switch 1 ⟨3,3,fun _ => 0⟩]

theorem screens_isolated_switch :
    let k := (screens shellImage).run
      (terminalInit (staticStorage (fun _ => PCB.zero) fun _ => 0)) switches
    (fun i : Fin pagesSize => k.video.load ((k.terminal 1).termVideoMem+i)) =
      (((Screen.start (fun _ => 0) 1).putc 65).putc 67).page := by
  intro k
  funext i
  have hcalls : (screens shellImage).Along Addressed
      (terminalInit (staticStorage (fun _ => PCB.zero) fun _ => 0)) switches := by
    refine ⟨?_,?_,?_,?_,?_,?_,?_,?_,trivial⟩ <;> decide +kernel
  obtain ⟨-,hseen,-⟩ := screens_isolated shellImage
    (staticStorage (fun _ => PCB.zero) fun _ => 0) hcalls
  exact (hseen 1 (by decide) i).2

end GameOfThreads
