import GameOfThreads.CursorBounds
import GameOfThreads.Machine.Interruptible

/-! The cursor under output that is interrupted. term_putc does not stop interrupts, and between
the access that moves the cursor past a row and the one that takes it back a key may be handled,
which then draws from there. -/
namespace GameOfThreads
open Machine

/-! ### term_putc, access by access -/

def Terminal.setX (x : ℕ) (t : Terminal) : Terminal := { t with screenX := x }

def Terminal.setY (y : ℕ) (t : Terminal) : Terminal := { t with screenY := y }

/-- The two bytes of a cell. -/
def storeChar (term index : ℕ) (c : UInt8) (k : Kernel) : Kernel :=
  let v := k.video.store ((k.terminal term).termVideoMem+2*index) c
  { k with video := { v with cells := index :: v.cells } }

def storeColor (term index : ℕ) (color : UInt8) (k : Kernel) : Kernel :=
  { k with video := k.video.store ((k.terminal term).termVideoMem+2*index+1) color }

def copyUp (term y x : ℕ) (k : Kernel) : Kernel :=
  let base := (k.terminal term).termVideoMem
  { k with video := k.video.copyCell base (numCols*y+x) (numCols*(y+1)+x) }

def clearCell (term : ℕ) (color : UInt8) (x : ℕ) (k : Kernel) : Kernel :=
  let base := (k.terminal term).termVideoMem
  { k with video := k.video.storeCell base (numCols*(numRows-1)+x) space color }

/-- scroll_screen, its loops cell by cell. -/
def scrollCode (term : ℕ) (next : Code Kernel Unit) : Code Kernel Unit :=
  .load (fun k => (k.terminal term).color) fun color =>
  .each (fun y next => .each (fun x => .store (copyUp term y x)) (List.range numCols) next)
    (List.range (numRows-1)) <|
  .each (fun x => .store (clearCell term color x)) (List.range numCols) <|
  .store (fun k => k.onTerminal term (Terminal.setX 0)) <|
  .store (fun k => k.onTerminal term (Terminal.setY (numRows-1))) <|
  .store (moveCursor term) next

/-- The cursor to the start of the next row, and what follows on the last row and on others. -/
def wrapCode (term : ℕ) (scroll stay : Code Kernel Unit) : Code Kernel Unit :=
  .store (fun k => k.onTerminal term (Terminal.setX 0)) <|
  .load (fun k => (k.terminal term).screenY) fun y =>
  .store (fun k => k.onTerminal term (Terminal.setY ((y+1) % 256))) <|
  .load (fun k => (k.terminal term).screenY) fun y =>
  if y = numRows then scroll else stay

def termPutcCode (c : UInt8) (term : ℕ) : Code Kernel Unit :=
  let finish := .store (moveCursor term) (.done ())
  .load (fun k => (k.terminal term).color) fun color =>
  if c = newline ∨ c = carriage then wrapCode term (scrollCode term (.done ())) finish
  else
    .load (fun k => (k.terminal term).screenY) fun y =>
    .load (fun k => (k.terminal term).screenX) fun x =>
    .store (storeChar term (numCols*y+x) c) <|
    .store (storeColor term (numCols*y+x) color) <|
    .load (fun k => (k.terminal term).screenX) fun x =>
    .store (fun k => k.onTerminal term (Terminal.setX ((x+1) % 256))) <|
    .load (fun k => (k.terminal term).screenX) fun x =>
    if x = numCols then wrapCode term (scrollCode term finish) finish else finish

/-! ### Without interruption -/

theorem Kernel.onTerminal_onTerminal (k : Kernel) (term : ℕ) (f g : Terminal → Terminal) :
    (k.onTerminal term f).onTerminal term g = k.onTerminal term fun t => g (f t) := by
  simp only [Kernel.onTerminal, Function.update_self, Function.update_idem]

theorem wrapCode_finish (term : ℕ) (scroll stay : Code Kernel Unit) (k : Kernel) :
    (wrapCode term scroll stay).finish k =
      (if ((k.onTerminal term Terminal.newLine).terminal term).screenY = numRows then scroll
        else stay).finish (k.onTerminal term Terminal.newLine) := by
  have hline : (k.onTerminal term (Terminal.setX 0)).onTerminal term
      (Terminal.setY (((k.terminal term).screenY+1) % 256)) =
        k.onTerminal term Terminal.newLine := by
    rw [Kernel.onTerminal_onTerminal]
    simp only [Kernel.onTerminal, Terminal.setX, Terminal.setY, Terminal.newLine]
  simp only [wrapCode, Code.finish_store, Code.finish_load, Kernel.onTerminal_terminal_self]
  have hrow : (Terminal.setX 0 (k.terminal term)).screenY = (k.terminal term).screenY := rfl
  rw [hrow, hline]
  rfl

/-- A loop that changes nothing but video memory. -/
theorem foldl_onVideo {α : Type*} {g : Kernel → α → Kernel} {h : Video → α → Video} {k : Kernel}
    (hg : ∀ v a, g { k with video := v } a = { k with video := h v a }) (l : List α) (v : Video) :
    l.foldl g { k with video := v } = { k with video := l.foldl h v } := by
  induction l generalizing v with
  | nil => rfl
  | cons a l ih =>
    rw [List.foldl_cons, hg v a]
    exact ih (h v a)

theorem scrollCode_finish (term : ℕ) (next : Code Kernel Unit) (k : Kernel) :
    (scrollCode term next).finish k = next.finish (scrollScreen term k) := by
  have hrow : ∀ y (next : Code Kernel Unit) (k : Kernel),
      (Code.each (fun x => .store (copyUp term y x)) (List.range numCols) next).finish k =
        next.finish ((List.range numCols).foldl (fun k x => copyUp term y x k) k) :=
    fun y next k => Code.finish_each (g := fun k x => copyUp term y x k) (fun _ _ _ => rfl) _ next k
  have hlast : ∀ (color : UInt8) (next : Code Kernel Unit) (k : Kernel),
      (Code.each (fun x => .store (clearCell term color x)) (List.range numCols) next).finish k =
        next.finish ((List.range numCols).foldl (fun k x => clearCell term color x k) k) :=
    fun color next k =>
      Code.finish_each (g := fun k x => clearCell term color x k) (fun _ _ _ => rfl) _ next k
  have hrows : (List.range (numRows-1)).foldl (fun k y =>
      (List.range numCols).foldl (fun k x => copyUp term y x k) k) k =
        { k with video := k.video.scrollRows (k.terminal term).termVideoMem } := by
    unfold Video.scrollRows
    generalize List.range (numRows-1) = ys
    generalize List.range numCols = xs
    exact foldl_onVideo (fun v y => foldl_onVideo (fun _ _ => rfl) xs v) ys k.video
  have hcleared : ∀ (color : UInt8) (v : Video),
      (List.range numCols).foldl (fun k x => clearCell term color x k) { k with video := v } =
        { k with video := v.clearLastRow (k.terminal term).termVideoMem color } := by
    intro color v
    unfold Video.clearLastRow
    generalize List.range numCols = xs
    exact foldl_onVideo (fun _ _ => rfl) xs v
  rw [scrollCode, Code.finish_load, Code.finish_each hrow, hrows, hlast, hcleared]
  simp only [Code.finish_store, Kernel.onTerminal_onTerminal]
  rfl

theorem storeCell_eq (term index : ℕ) (c color : UInt8) (k : Kernel) :
    storeColor term index color (storeChar term index c k) =
      { k with video := k.video.storeCell (k.terminal term).termVideoMem index c color } := by
  have hcells : ∀ (v : Video) (cells : List ℕ) (a : ℕ), ({ v with cells := cells } : Video).store a
      color = { v.store a color with cells := cells } := by
    intro v cells a
    have htranslate : Video.translate { v with cells := cells } a = v.translate a := rfl
    simp only [Video.store, htranslate]
    cases v.translate a <;> rfl
  dsimp only [storeColor, storeChar, Video.storeCell]
  rw [hcells, Video.store_cells, Video.store_cells, Video.store_cells]

/-- An uninterrupted term_putc is the one that keyboard_handler calls. -/
theorem termPutcCode_finish (c : UInt8) (term : ℕ) (k : Kernel) :
    (termPutcCode c term).finish k = ((),termPutc c term k) := by
  rw [termPutcCode, termPutc, Code.finish_load]
  by_cases hnewline : c = newline ∨ c = carriage
  · rw [if_pos hnewline, if_pos hnewline, wrapCode_finish]
    simp only [nextRow]
    split_ifs
    · rw [scrollCode_finish]
      rfl
    · rfl
  rw [if_neg hnewline, if_neg hnewline]
  have hput : (storeColor term (numCols*(k.terminal term).screenY+(k.terminal term).screenX)
      (k.terminal term).color (storeChar term
        (numCols*(k.terminal term).screenY+(k.terminal term).screenX) c k)).onTerminal term
          (Terminal.setX (((k.terminal term).screenX+1) % 256)) = putCell c term k := by
    rw [storeCell_eq]
    rfl
  simp only [Code.finish_load, Code.finish_store]
  have hx : ((storeColor term (numCols*(k.terminal term).screenY+(k.terminal term).screenX)
      (k.terminal term).color (storeChar term
        (numCols*(k.terminal term).screenY+(k.terminal term).screenX) c k)).terminal term).screenX =
          (k.terminal term).screenX := rfl
  rw [hx, hput]
  by_cases hlast : ((putCell c term k).terminal term).screenX = numCols
  · rw [if_pos hlast, if_pos hlast, wrapCode_finish]
    split_ifs
    · rw [scrollCode_finish]
      rfl
    · rfl
  · rw [if_neg hlast, if_neg hlast]
    rfl

/-! ### Between interruptions -/

/-- Where the cursor of a terminal may be while a term_putc on it goes on: on the screen, behind
a row, or below the last row. -/
inductive Area
  | screen
  | column
  | row

def Area.Holds : Area → Terminal → Prop
  | .screen,t => t.InScreen
  | .column,t => t.screenX ≤ numCols ∧ t.screenY < numRows
  | .row,t => t.screenX < numCols ∧ t.screenY ≤ numRows

theorem Terminal.InScreen.holds {t : Terminal} (h : t.InScreen) (area : Area) : area.Holds t := by
  cases area with
  | screen => exact h
  | column => exact ⟨h.x.le,h.y⟩
  | row => exact ⟨h.x,h.y.le⟩

def Within (term : ℕ) (area : Area) (k : Kernel) : Prop := area.Holds (k.terminal term)

/-- An access of a term_putc on `term`. -/
structure Writes (term : ℕ) (k k' : Kernel) : Prop where
  screen : ScreenOnly k k'
  others : ∀ t, t ≠ term → k'.terminal t = k.terminal t
  cells : k.video.InScreen → k'.video.InScreen

theorem Writes.refl (term : ℕ) (k : Kernel) : Writes term k k := ⟨.refl k,fun _ _ => rfl,id⟩

theorem Writes.onTerminal {term : ℕ} {f : Terminal → Terminal}
    (hf : ∀ t, f t = { t with screenX := (f t).screenX, screenY := (f t).screenY }) (k : Kernel) :
    Writes term k (k.onTerminal term f) := by
  refine ⟨screenOnly_onTerminal hf,fun t ht => ?_,id⟩
  rw [Kernel.onTerminal_terminal, if_neg ht]

theorem Writes.video {term : ℕ} {k : Kernel} {v : Video}
    (hpages : v.pageTabArrayVideo = k.video.pageTabArrayVideo)
    (hcells : k.video.InScreen → v.InScreen) : Writes term k { k with video := v } :=
  ⟨screenOnly_video hpages,fun _ _ => rfl,hcells⟩

theorem moveCursor_writes (term : ℕ) (k : Kernel) : Writes term k (moveCursor term k) := by
  refine ⟨moveCursor_screenOnly term k,fun t _ => by rw [moveCursor_terminal],fun h => ?_⟩
  rw [moveCursor_video]
  exact h

theorem storeChar_writes {term index : ℕ} (hindex : index < screenCells) (c : UInt8) (k : Kernel) :
    Writes term k (storeChar term index c k) := by
  refine .video (Video.store_pages ..) fun h i hi => ?_
  rw [Video.store_cells] at hi
  rcases List.mem_cons.mp hi with rfl | hi
  · exact hindex
  · exact h i hi

theorem storeColor_writes (term index : ℕ) (color : UInt8) (k : Kernel) :
    Writes term k (storeColor term index color k) := by
  refine .video (Video.store_pages ..) fun h => ?_
  rw [Video.InScreen, Video.store_cells]
  exact h

/-- The code keeps to its terminal from the area on, and ends with the cursor on the screen. -/
def Drawn (term : ℕ) (area : Area) (code : Code Kernel Unit) : Prop :=
  code.Safe (Set.range (Within term)) (Writes term) (fun _ => Within term .screen)
    (Within term area)

namespace Drawn
variable {term : ℕ} {area : Area} {next : Code Kernel Unit}

theorem done : Drawn term .screen (.done ()) := Code.Safe.done fun _ h => h

theorem load {α : Type*} {g : Kernel → α} {next : α → Code Kernel Unit}
    (h : ∀ k, Within term area k → ∃ area', Within term area' k ∧ Drawn term area' (next (g k))) :
    Drawn term area (.load g next) := by
  refine Code.Safe.load (Writes.refl term) fun k hk => ?_
  obtain ⟨area',hk',hnext⟩ := h k hk
  exact ⟨_,⟨area',rfl⟩,hk',hnext⟩

theorem store {f : Kernel → Kernel} (area' : Area)
    (h : ∀ k, Within term area k → Writes term k (f k) ∧ Within term area' (f k))
    (hnext : Drawn term area' next) : Drawn term area (.store f next) :=
  Code.Safe.store h ⟨area',rfl⟩ hnext

/-- A store to the cursor. -/
theorem onTerminal {f : Terminal → Terminal} (area' : Area)
    (hf : ∀ t, f t = { t with screenX := (f t).screenX, screenY := (f t).screenY })
    (h : ∀ t, area.Holds t → area'.Holds (f t)) (hnext : Drawn term area' next) :
    Drawn term area (.store (fun k => k.onTerminal term f) next) := by
  refine store _ (fun k hk => ⟨.onTerminal hf k,?_⟩) hnext
  rw [Within, Kernel.onTerminal_terminal_self]
  exact h _ hk

theorem moveCursor (hnext : Drawn term area next) :
    Drawn term area (.store (GameOfThreads.moveCursor term) next) := by
  refine store _ (fun k hk => ⟨moveCursor_writes term k,?_⟩) hnext
  rw [Within, moveCursor_terminal]
  exact hk

end Drawn

/-- Scrolling starts with the cursor below the last row and takes it back. -/
theorem scrollCode_drawn {term : ℕ} {next : Code Kernel Unit} (hnext : Drawn term .screen next) :
    Drawn term .row (scrollCode term next) := by
  refine Drawn.load fun k hk => ⟨.row,hk,?_⟩
  refine Code.Safe.each (fun y hy next hnext => Code.Safe.each (fun x hx next hnext => ?_) hnext) ?_
  · have hy := List.mem_range.mp hy
    have hx := List.mem_range.mp hx
    refine Drawn.store _ (fun k hk => ⟨.video (Video.copyCell_pages ..) fun h => h.copyCell ?_ _ _,
      hk⟩) hnext
    unfold screenCells numRows numCols at *
    omega
  refine Code.Safe.each (fun x hx next hnext => ?_) ?_
  · have hx := List.mem_range.mp hx
    refine Drawn.store _ (fun k hk =>
      ⟨.video (Video.storeCell_pages ..) fun h => h.storeCell ?_ _ _ _,hk⟩) hnext
    unfold screenCells numRows numCols at *
    omega
  refine Drawn.onTerminal .row (fun _ => rfl) (fun t ht => ⟨Nat.zero_lt_succ _,ht.2⟩) ?_
  refine Drawn.onTerminal .screen (fun _ => rfl) (fun t ht => ⟨ht.1,?_⟩) hnext.moveCursor
  exact show numRows-1 < numRows by decide

theorem wrapCode_drawn {term : ℕ} {area : Area} (harea : area = .screen ∨ area = .column)
    {scroll stay : Code Kernel Unit} (hscroll : Drawn term .row scroll)
    (hstay : Drawn term .screen stay) : Drawn term area (wrapCode term scroll stay) := by
  have hhome : ∀ t : Terminal, area.Holds t → Area.screen.Holds (t.setX 0) := by
    rintro t ht
    rcases harea with rfl | rfl
    · exact ⟨Nat.zero_lt_succ _,ht.y⟩
    · exact ⟨Nat.zero_lt_succ _,ht.2⟩
  refine Drawn.onTerminal _ (fun _ => rfl) hhome (Drawn.load fun k hk => ⟨.screen,hk,?_⟩)
  have hy := hk.y
  refine Drawn.onTerminal .row (fun _ => rfl) (fun t ht => ⟨ht.x,?_⟩)
    (Drawn.load fun k hk => ?_)
  · exact (Nat.mod_le _ _).trans hy
  · split_ifs with hend
    · exact ⟨.row,hk,hscroll⟩
    · exact ⟨.screen,⟨hk.1,Nat.lt_of_le_of_ne hk.2 hend⟩,hstay⟩

/-- Whatever is done between its accesses, as long as it keeps the area that term_putc stands in,
term_putc stores to the screen and leaves the cursor on it. -/
theorem termPutcCode_drawn (c : UInt8) (term : ℕ) : Drawn term .screen (termPutcCode c term) := by
  have hfinish : Drawn term .screen (.store (moveCursor term) (.done ())) := Drawn.done.moveCursor
  refine Drawn.load fun k hk => ⟨.screen,hk,?_⟩
  split_ifs
  · exact wrapCode_drawn (.inl rfl) (scrollCode_drawn .done) hfinish
  refine Drawn.load fun k hk => ⟨.screen,hk,?_⟩
  have hy := hk.y
  generalize (k.terminal term).screenY = y at *
  refine Drawn.load fun k hk => ⟨.screen,hk,?_⟩
  have hx := hk.x
  generalize (k.terminal term).screenX = x at *
  have hindex : numCols*y+x < screenCells := by
    unfold screenCells numRows numCols at *
    omega
  refine Drawn.store .screen (fun k hk => ⟨storeChar_writes hindex c k,hk⟩) ?_
  refine Drawn.store .screen (fun k hk => ⟨storeColor_writes term _ _ k,hk⟩) ?_
  refine Drawn.load fun k hk => ⟨.screen,hk,?_⟩
  have hx := hk.x
  generalize (k.terminal term).screenX = x at *
  refine Drawn.onTerminal .column (fun _ => rfl) (fun t ht => ⟨?_,ht.y⟩)
    (Drawn.load fun k hk => ?_)
  · exact (Nat.mod_le _ _).trans hx
  split_ifs with hend
  · exact ⟨.column,hk,wrapCode_drawn (.inr rfl) (scrollCode_drawn hfinish) hfinish⟩
  · exact ⟨.screen,⟨Nat.lt_of_le_of_ne hk.1 hend,hk.2⟩,hfinish⟩

/-! ### Runs -/

/-- The kernel, and what is left of the term_putc that goes on for each terminal. -/
structure Printing where
  kernel : Kernel
  pending : ℕ → Option (Code Kernel Unit)

inductive PrintOp
  | call (op : Op)
  | putc (c : UInt8) (term : ℕ)
  | advance (term : ℕ)

def PrintOp.Proper : PrintOp → Prop
  | .call op => op.Proper
  | .putc _ term => term < numTerm
  | .advance term => term < numTerm

/-- A process inside term_putc makes no call, and term_putc is not called again on its terminal
before it is over. -/
def printing (fs : FileSystem) : System Printing PrintOp Unit where
  step s
    | .call op =>
      if op.interrupt ∨ (s.pending s.kernel.currentTerm).isNone then
        ((),{ s with kernel := (kernel fs).next s.kernel op })
      else ((),s)
    | .putc c term =>
      if (s.pending term).isNone then
        ((),{ s with pending := Function.update s.pending term (some (termPutcCode c term)) })
      else ((),s)
    | .advance term =>
      match s.pending term with
      | none => ((),s)
      | some code =>
        let r := code.advance s.kernel
        ((),⟨r.2,Function.update s.pending term r.1.rest⟩)

/-- A term_putc that nothing interrupts is the one of the keyboard. -/
theorem printing_uninterrupted (fs : FileSystem) (c : UInt8) {term : ℕ} {s : Printing}
    (hidle : s.pending term = none) : ∃ n,
      (printing fs).run s (.putc c term :: List.replicate n (.advance term)) =
        { s with kernel := termPutc c term s.kernel } := by
  let part : Code Kernel Unit → Kernel → Printing := fun code k =>
    ⟨k,Function.update s.pending term code.rest⟩
  have hpart : ∀ f next k, True → (printing fs).next (part (.step f next) k) (.advance term) =
      part (next k) (f k) ∧ True := by
    intro f next k _
    refine ⟨?_,trivial⟩
    simp only [System.next, printing, part, Function.update_self, Code.rest, Code.advance,
      Function.update_idem]
  obtain ⟨n,hn⟩ := Code.exists_advances (I := fun _ _ => True) hpart (termPutcCode c term)
    s.kernel trivial
  refine ⟨n,?_⟩
  have hstart : (printing fs).next s (.putc c term) = part (termPutcCode c term) s.kernel := by
    simp only [System.next, printing, hidle, Option.isNone_none, if_true]
    rfl
  rw [System.run_cons, hstart, hn, termPutcCode_finish]
  have hrest : Function.update s.pending term none = s.pending := hidle ▸ Function.update_eq_self ..
  exact congrArg (Printing.mk _) hrest

/-- The presses of Shift, Caps Lock, Num Lock, Alt and Ctrl, and all releases. -/
def Silent (pressed : ℕ) : Prop :=
  pressed ∈ [0x2A,0x36,0x3A,0x45,0x38,0x1D] ∨ keyBuffSize ≤ pressed

/-- The condition on the keys: they erase inside the screen, and those that draw find the cursor
of the terminal in view on the screen, and with Alt that of the running one. -/
def KeysInside (s : Printing) (op : PrintOp) : Prop :=
  ∀ pressed cpu, op = .call (.key pressed cpu) →
    ErasesInside s.kernel (.call (.key pressed cpu)) ∧
    (¬Silent pressed → (s.kernel.terminal s.kernel.viewingTerm).InScreen ∧
      (s.kernel.altFlag ≠ 0 → (s.kernel.terminal s.kernel.currentTerm).InScreen))

/-- The cursors of the terminals on which no term_putc goes on are on the screen, the others are
at most one step beyond, and so far all stores were to cells of the screen. -/
structure Printing.OnScreen (s : Printing) : Prop where
  cursor : ∀ t < numTerm, s.pending t = none → (s.kernel.terminal t).InScreen
  passing : ∀ t < numTerm,
    (s.kernel.terminal t).screenX ≤ numCols ∧ (s.kernel.terminal t).screenY ≤ numRows
  cells : s.kernel.video.InScreen

/-- What every term_putc on a terminal leaves to be done keeps to the terminal. -/
structure Printing.Sound (s : Printing) : Prop where
  inRange : s.kernel.InRange
  filled : s.kernel.Filled
  cells : s.kernel.video.InScreen
  idle : ∀ t < numTerm, s.pending t = none → (s.kernel.terminal t).InScreen
  busy : ∀ t < numTerm, ∀ code, s.pending t = some code →
    ∃ area, Within t area s.kernel ∧ Drawn t area code

theorem Area.Holds.passing {area : Area} {t : Terminal} (h : area.Holds t) :
    t.screenX ≤ numCols ∧ t.screenY ≤ numRows := by
  cases area with
  | screen => exact ⟨h.x.le,h.y.le⟩
  | column => exact ⟨h.1,h.2.le⟩
  | row => exact ⟨h.1.le,h.2⟩

theorem Printing.Sound.onScreen {s : Printing} (h : s.Sound) : s.OnScreen := by
  refine ⟨h.idle,fun t ht => ?_,h.cells⟩
  cases hcode : s.pending t with
  | none => exact ((h.idle t ht hcode).holds .screen).passing
  | some code =>
    obtain ⟨area,harea,-⟩ := h.busy t ht code hcode
    exact harea.passing

theorem silent_hidden (fs : FileSystem) (cpu : Cpu) {pressed : ℕ} (h : Silent pressed)
    (k : Kernel) : Hidden k (keyboardSwitch fs cpu pressed k).2 := by
  rcases h with h | h
  · simp only [List.mem_cons, List.not_mem_nil, or_false] at h
    rcases h with rfl | rfl | rfl | rfl | rfl | rfl <;> exact ⟨rfl,fun _ => rfl⟩
  · have hpress : keyPress pressed k = k := if_neg (not_lt.mpr h)
    unfold keyboardSwitch
    split
    all_goals first
      | exact absurd h (by decide)
      | exact ⟨rfl,fun _ => rfl⟩
      | exact hpress.symm ▸ .refl k

theorem Area.Holds.congr {area : Area} {t t' : Terminal} (h : area.Holds t)
    (hx : t'.screenX = t.screenX) (hy : t'.screenY = t.screenY) : area.Holds t' := by
  cases area with
  | screen => exact ⟨hx ▸ h.x,hy ▸ h.y⟩
  | column => exact ⟨hx ▸ h.1,hy ▸ h.2⟩
  | row => exact ⟨hx ▸ h.1,hy ▸ h.2⟩

/-- A call or an interrupt leaves every cursor in the areas that it finds it in. -/
theorem call_areas (fs : FileSystem) {s : Printing} {op : Op} (hop : op.Proper) (h : s.Sound)
    (hkeys : KeysInside s (.call op))
    (hfree : op.interrupt ∨ (s.pending s.kernel.currentTerm).isNone) :
    (∀ t < numTerm, ∀ area, Within t area s.kernel → Within t area ((kernel fs).next s.kernel op)) ∧
      ((kernel fs).next s.kernel op).video.InScreen := by
  let R : ℕ → ℕ → ℕ → Prop := fun t x y => t < numTerm → ∀ area : Area,
    area.Holds (s.kernel.terminal t) → area.Holds ((s.kernel.terminal t).setCursor x y)
  have hplaced : Placed R s.kernel := ⟨fun t _ area harea => harea.congr rfl rfl,h.cells⟩
  have hin : ∀ {t x y}, x < numCols → y < numRows → R t x y := fun hx hy _ area _ =>
    Terminal.InScreen.holds ⟨hx,hy⟩ area
  have hwhole : ∀ {t}, t < numTerm → (s.kernel.terminal t).InScreen → Whole R t := by
    intro t ht hscreen x y
    constructor
    · intro hR
      have hcursor : Area.screen.Holds _ := hR ht .screen hscreen
      exact ⟨hcursor.x,hcursor.y⟩
    · exact fun hxy => hin hxy.1 hxy.2
  have hend : Placed R ((kernel fs).next s.kernel op) := by
    by_cases hint : op.interrupt
    · cases op with
      | pit cpu => exact hplaced.hidden (pitHandler_aside cpu s.kernel).hidden
      | rtc => exact hplaced.hidden ⟨rfl,fun _ => rfl⟩
      | key pressed cpu =>
        obtain ⟨herases,hdraws⟩ := hkeys pressed cpu rfl
        by_cases hsilent : Silent pressed
        · have hkey := silent_hidden fs cpu hsilent { s.kernel with interrupts := false }
          have hcli : Hidden s.kernel { s.kernel with interrupts := false } := ⟨rfl,fun _ => rfl⟩
          exact hplaced.hidden ((hcli.trans hkey).trans ⟨rfl,fun _ => rfl⟩)
        · obtain ⟨hview,halt⟩ := hdraws hsilent
          have hdrawable : Drawable R s.kernel :=
            ⟨fun hflag => hwhole h.inRange.current (halt hflag),hwhole h.inRange.viewing hview,
              fun _ _ _ hx hy => hin hx hy⟩
          exact (keyboardHandler_placed fs cpu pressed hdrawable (h.filled _) hplaced).mpr herases
      | _ => exact absurd hint Bool.false_ne_true
    · have hnone := Option.isNone_iff_eq_none.mp (hfree.resolve_left hint)
      have hcurrent := h.idle _ h.inRange.current hnone
      refine step_placed fs (hwhole h.inRange.current hcurrent) (fun _ _ _ _ _ hx hy => hin hx hy)
        hplaced ?_
      rintro pressed cpu rfl
      exact hint rfl
  exact ⟨fun t ht area harea => (hend.cursor t ht area harea).congr rfl rfl,hend.cells⟩

theorem printing_call (fs : FileSystem) {s : Printing} {op : Op} (hop : op.Proper) (h : s.Sound)
    (hkeys : KeysInside s (.call op))
    (hfree : op.interrupt ∨ (s.pending s.kernel.currentTerm).isNone) :
    Printing.Sound { s with kernel := (kernel fs).next s.kernel op } := by
  obtain ⟨hareas,hcells⟩ := call_areas fs hop h hkeys hfree
  obtain ⟨hin,hfilled,-⟩ := step_filled fs hop ⟨h.inRange,h.filled⟩
  refine ⟨hin,hfilled,hcells,?_,?_⟩
  · exact fun t ht hnone => hareas t ht .screen (h.idle t ht hnone)
  · intro t ht code hcode
    obtain ⟨area,harea,hdrawn⟩ := h.busy t ht code hcode
    exact ⟨area,hareas t ht area harea,hdrawn⟩

/-- One access of term_putc. -/
theorem printing_advance {s : Printing} (h : s.Sound) {term : ℕ} (hterm : term < numTerm)
    {code : Code Kernel Unit} (hcode : s.pending term = some code) :
    Printing.Sound ⟨(code.advance s.kernel).2,
      Function.update s.pending term (code.advance s.kernel).1.rest⟩ := by
  obtain ⟨area,harea,hdrawn⟩ := h.busy term hterm code hcode
  have hwrites : Writes term s.kernel (code.advance s.kernel).2 ∧
      ∃ area, Within term area (code.advance s.kernel).2 ∧
        Drawn term area (code.advance s.kernel).1 := by
    cases code with
    | done r => exact ⟨.refl term _,area,harea,hdrawn⟩
    | step f next =>
      obtain ⟨hwrites,_,⟨area',rfl⟩,harea',hnext⟩ := Code.Safe.advance hdrawn harea
      exact ⟨hwrites,area',harea',hnext⟩
  generalize code.advance s.kernel = r at *
  obtain ⟨code',k'⟩ := r
  obtain ⟨hwrites,area',harea',hdrawn'⟩ := hwrites
  refine ⟨inRange_of hwrites.screen.table (inRange_table.mpr h.inRange),
    hwrites.screen.fits.filled h.filled,hwrites.cells h.cells,?_,?_⟩
  · intro t ht hnone
    dsimp only at hnone ⊢
    by_cases heq : t = term
    · subst heq
      rw [Function.update_self] at hnone
      obtain ⟨r,rfl⟩ := Code.rest_eq_none hnone
      exact hdrawn' k' harea'
    · rw [Function.update_of_ne heq] at hnone
      exact hwrites.others t heq ▸ h.idle t ht hnone
  · intro t ht code'' hcode''
    dsimp only at hcode'' ⊢
    by_cases heq : t = term
    · subst heq
      rw [Function.update_self] at hcode''
      exact ⟨area',harea',Code.rest_eq_some hcode'' ▸ hdrawn'⟩
    · rw [Function.update_of_ne heq] at hcode''
      obtain ⟨area'',harea'',hdrawn''⟩ := h.busy t ht code'' hcode''
      refine ⟨area'',?_,hdrawn''⟩
      rw [Within, hwrites.others t heq]
      exact harea''

theorem printing_sound (fs : FileSystem) {s : Printing} {op : PrintOp} (hop : op.Proper)
    (hkeys : KeysInside s op) (h : s.Sound) : ((printing fs).next s op).Sound := by
  cases op with
  | call op =>
    simp only [System.next, printing]
    split_ifs with hfree
    · exact printing_call fs hop h hkeys hfree
    · exact h
  | putc c term =>
    simp only [System.next, printing]
    split_ifs with hfree
    · have hnone := Option.isNone_iff_eq_none.mp hfree
      refine ⟨h.inRange,h.filled,h.cells,?_,?_⟩
      · intro t ht hnone'
        refine h.idle t ht ?_
        by_cases heq : t = term
        · exact heq ▸ hnone
        · exact (Function.update_of_ne heq ..).symm.trans hnone'
      · intro t ht code hcode
        dsimp only at hcode ⊢
        by_cases heq : t = term
        · subst heq
          rw [Function.update_self] at hcode
          exact ⟨.screen,h.idle t ht hnone,Option.some.inj hcode ▸ termPutcCode_drawn c t⟩
        · rw [Function.update_of_ne heq] at hcode
          exact h.busy t ht code hcode
    · exact h
  | advance term =>
    simp only [System.next, printing]
    cases hcode : s.pending term with
    | none => exact h
    | some code => exact printing_advance h hop hcode

theorem printing_call_inScreen (fs : FileSystem) {s : Printing} {op : Op} (hop : op.Proper)
    (h : s.Sound) (hkeys : KeysInside s (.call op)) {t : ℕ} (ht : t < numTerm)
    (hscreen : (s.kernel.terminal t).InScreen) :
    (((printing fs).next s (.call op)).kernel.terminal t).InScreen := by
  simp only [System.next, printing]
  split_ifs with hfree
  · exact (call_areas fs hop h hkeys hfree).1 t ht .screen hscreen
  · exact hscreen

/-- The machine after boot, with no output going on. -/
def Printing.initial (pcb : ℕ → PCB) (phys : ℕ → UInt8) : Printing :=
  ⟨GameOfThreads.initial pcb phys,fun _ => none⟩

theorem Printing.sound_of_onScreen {k : Kernel} (hin : k.InRange) (hfilled : k.Filled)
    (h : GameOfThreads.OnScreen k) : Printing.Sound ⟨k,fun _ => none⟩ := by
  refine ⟨hin,hfilled,h.cells,fun t ht _ => h.cursor t ht,?_⟩
  intro t ht code hcode
  cases hcode

theorem Printing.initial_sound (pcb : ℕ → PCB) (phys : ℕ → UInt8) :
    (Printing.initial pcb phys).Sound :=
  Printing.sound_of_onScreen (initial_inRange pcb phys) (initial_filled pcb phys)
    (initial_onScreen pcb phys)

/-- In every run, with interrupts between any two accesses of term_putc, the cursors and all stores
stay on the screen as long as the keys erase inside it and draw where no cursor is on its way to
the next row; and no call takes a cursor off the screen. -/
theorem output_onScreen (fs : FileSystem) (pcb : ℕ → PCB) (phys : ℕ → UInt8) {ops : List PrintOp}
    (hops : ∀ op ∈ ops, op.Proper)
    (hkeys : (printing fs).Along KeysInside (Printing.initial pcb phys) ops) :
    (∀ p, p <+: ops → ((printing fs).run (Printing.initial pcb phys) p).OnScreen) ∧
      ∀ m ∈ (printing fs).trace (Printing.initial pcb phys) ops, (∃ op, m.event = .call op) →
        ∀ t < numTerm, (m.pre.kernel.terminal t).InScreen →
          (m.post.kernel.terminal t).InScreen := by
  have hlegal := hkeys.legal hops
  have hsound := Printing.initial_sound pcb phys
  generalize Printing.initial pcb phys = s₀ at *
  have hkeep : ∀ s op, Printing.Sound s → PrintOp.Proper op ∧ KeysInside s op →
      ((printing fs).next s op).Sound := fun s op h hok => printing_sound fs hok.1 hok.2 h
  constructor
  · intro p hp
    exact (System.Along.always (I := Printing.Sound) hkeep hsound hlegal p hp).onScreen
  · refine System.Along.trace_forall (I := Printing.Sound)
      (P := fun m : Move Printing PrintOp Unit => (∃ op, m.event = .call op) →
        ∀ t < numTerm, (m.pre.kernel.terminal t).InScreen →
          (m.post.kernel.terminal t).InScreen) hkeep ?_ hsound hlegal
    rintro s _ h ⟨hop,hinside⟩ ⟨op,rfl⟩ t ht hscreen
    exact printing_call_inScreen fs hop h hinside ht hscreen

/-- One character typed and erased on the terminal of the first shell, while it prints another. -/
def typeThenErase : List PrintOp :=
  [.call (.execute (some (text "shell")) ⟨1,1,fun _ => 0⟩),.putc 0x61 0,.advance 0,
    .call (.key 0x1E ⟨2,2,fun _ => 0⟩),.advance 0,.advance 0,.call (.key 0x0E ⟨3,3,fun _ => 0⟩)]

theorem output_onScreen_typed :
    ((printing shellImage).run (Printing.initial (fun _ => PCB.zero) fun _ => 0)
      typeThenErase).OnScreen := by
  have hkeys : (printing shellImage).Along KeysInside
      (Printing.initial (fun _ => PCB.zero) fun _ => 0) typeThenErase := by
    refine ⟨nofun,nofun,nofun,?_,nofun,nofun,?_,trivial⟩
    · rintro _ _ ⟨⟩
      refine ⟨?_,fun _ => ⟨⟨by decide +kernel,by decide +kernel⟩,fun h => ?_⟩⟩
      · rintro _ _ ⟨⟩
        exact ⟨nofun,fun _ hkey => absurd hkey.2 (by omega)⟩
      · exact (h (by decide +kernel)).elim
    · rintro _ _ ⟨⟩
      refine ⟨?_,fun _ => ⟨⟨by decide +kernel,by decide +kernel⟩,fun h => ?_⟩⟩
      · rintro _ _ ⟨⟩
        exact ⟨fun _ => .inr (by decide +kernel),fun _ hkey => absurd hkey.2 (by omega)⟩
      · exact (h (by decide +kernel)).elim
  have hproper : ∀ op ∈ typeThenErase, op.Proper := by
    simp [typeThenErase, PrintOp.Proper, Op.Proper, numTerm]
  exact (output_onScreen shellImage _ _ hproper hkeys).1 _ List.prefix_rfl

/-- The shell prints up to the last cell of its row; a key comes after the cursor has gone past it
and before term_putc looks where it is. -/
def keyInWrap : List PrintOp :=
  [.call (.execute (some (text "shell")) ⟨1,1,fun _ => 0⟩),
    .call (.write 1 (some fun _ => 0x61) 72),.putc 0x61 0] ++ List.replicate 7 (.advance 0) ++
    [.call (.key 0x1E ⟨2,2,fun _ => 0⟩)] ++ List.replicate 2 (.advance 0)

/-- The key goes to the next row and leaves the cursor behind column 80, where the test of
term_putc misses it. -/
theorem key_leaves_screen :
    (∀ op ∈ keyInWrap, op.Proper) ∧
      ¬((printing shellImage).run (Printing.initial (fun _ => PCB.zero) fun _ => 0)
        keyInWrap).OnScreen := by
  refine ⟨by simp [keyInWrap, PrintOp.Proper, Op.Proper, numTerm],fun hscreen => ?_⟩
  have hidle : (((printing shellImage).run (Printing.initial (fun _ => PCB.zero) fun _ => 0)
      keyInWrap).pending 0).isNone := by decide +kernel
  have hx := (hscreen.cursor 0 (by decide) (Option.isNone_iff_eq_none.mp hidle)).x
  have hcolumn : (((printing shellImage).run (Printing.initial (fun _ => PCB.zero) fun _ => 0)
      keyInWrap).kernel.terminal 0).screenX = 81 := by decide +kernel
  rw [hcolumn] at hx
  exact absurd hx (by decide)

end GameOfThreads
