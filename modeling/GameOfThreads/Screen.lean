import GameOfThreads.State
import GameOfThreads.Machine.Run

/-! Output: the video window, the cursor, and the routines of lib.c and keyboard.c that
write characters, scroll, clear and erase. -/
namespace GameOfThreads
open Machine

namespace Video

/-- The physical address behind a virtual one. The window at 132 MB goes through its page
table and the page of the adapter is mapped to itself; any other access faults. -/
def translate (v : Video) (a : ℕ) : Option ℕ :=
  if a/fourMB = 33 then
    let entry := v.pageTabArrayVideo (a/pagesSize % 1024)
    if entry % 2 = 1 then some (entry/pagesSize*pagesSize + a % pagesSize) else none
  else if a/pagesSize = 184 then some a
  else none

def load (v : Video) (a : ℕ) : UInt8 :=
  match v.translate a with
  | some p => v.phys p
  | none => 0

def store (a : ℕ) (b : UInt8) (v : Video) : Video :=
  match v.translate a with
  | some p => { v with phys := Function.update v.phys p b }
  | none => { v with faults := a :: v.faults }

/-- A character and its colour into the cell with a given index. -/
def storeCell (base index : ℕ) (c color : UInt8) (v : Video) : Video :=
  let v := v.store (base+2*index) c
  let v := v.store (base+2*index+1) color
  { v with cells := index :: v.cells }

/-- The cell `low` over the cell `up`. -/
def copyCell (base up low : ℕ) (v : Video) : Video :=
  let v := v.store (base+2*up) (v.load (base+2*low))
  let v := v.store (base+2*up+1) (v.load (base+2*low+1))
  { v with cells := up :: v.cells }

/-- memcpy between virtual addresses, byte by byte. -/
def memcpy (dest src n : ℕ) (v : Video) : Video :=
  (List.range n).foldl (fun v i => v.store (dest+i) (v.load (src+i))) v

/-- The copy loops of scroll_screen: every row but the last takes the row below. -/
def scrollRows (base : ℕ) (v : Video) : Video :=
  (List.range (numRows-1)).foldl (fun v y =>
    (List.range numCols).foldl (fun v x =>
      v.copyCell base (numCols*y+x) (numCols*(y+1)+x)) v) v

/-- The last loop of scroll_screen. -/
def clearLastRow (base : ℕ) (color : UInt8) (v : Video) : Video :=
  (List.range numCols).foldl (fun v x =>
    v.storeCell base (numCols*(numRows-1)+x) space color) v

/-- The loop of term_clear. -/
def clearCells (base : ℕ) (color : UInt8) (v : Video) : Video :=
  (List.range (numRows*numCols)).foldl (fun v index => v.storeCell base index space color) v

end Video

/-- The cursor registers follow the terminal in view only. -/
def moveCursor (term : ℕ) (k : Kernel) : Kernel :=
  if term ≠ k.viewingTerm then k
  else
    let position := ((k.terminal term).screenY*numCols+(k.terminal term).screenX) % 65536
    { k with cursorLow := position % 256, cursorHigh := position/256 % 256 }

/-- The cursor to the start of the next row. -/
def Terminal.newLine (t : Terminal) : Terminal :=
  { t with screenX := 0, screenY := (t.screenY+1) % 256 }

def Terminal.setCursor (x y : ℕ) (t : Terminal) : Terminal :=
  { t with screenX := x, screenY := y }

def scrollScreen (term : ℕ) (k : Kernel) : Kernel :=
  let base := (k.terminal term).termVideoMem
  let color := (k.terminal term).color
  let k := { k with video := (k.video.scrollRows base).clearLastRow base color }
  let k := k.onTerminal term (Terminal.setCursor 0 (numRows-1))
  moveCursor term k

/-- A new row, scrolling past the last: newline characters and the Enter key. -/
def nextRow (term : ℕ) (k : Kernel) : Kernel :=
  let k := k.onTerminal term Terminal.newLine
  if (k.terminal term).screenY = numRows then scrollScreen term k else moveCursor term k

def Terminal.advance (t : Terminal) : Terminal := { t with screenX := (t.screenX+1) % 256 }

/-- A character into the cell at the cursor. -/
def putCell (c : UInt8) (term : ℕ) (k : Kernel) : Kernel :=
  let current := k.terminal term
  let index := numCols*current.screenY+current.screenX
  let k := { k with video := k.video.storeCell current.termVideoMem index c current.color }
  k.onTerminal term Terminal.advance

def termPutc (c : UInt8) (term : ℕ) (k : Kernel) : Kernel :=
  if c = newline ∨ c = carriage then nextRow term k
  else
    let k := putCell c term k
    if (k.terminal term).screenX = numCols then
      let k := k.onTerminal term Terminal.newLine
      if (k.terminal term).screenY = numRows then moveCursor term (scrollScreen term k)
      else moveCursor term k
    else moveCursor term k

/-- The bytes of a string up to its terminator, one by one. -/
def termPuts (s : List UInt8) (term : ℕ) (k : Kernel) : Kernel :=
  s.foldl (fun k c => termPutc c term k) k

def termClear (term : ℕ) (k : Kernel) : Kernel :=
  let current := k.terminal term
  let k := { k with video := k.video.clearCells current.termVideoMem current.color }
  let k := k.onTerminal term (Terminal.setCursor 0 0)
  termPuts (text "391OS> ") term k

/-- Before the terminals exist the boot console writes to the adapter itself. -/
def putc (c : UInt8) (k : Kernel) : Kernel :=
  if k.termsOn = 1 then termPutc c k.currentTerm k
  else if c = newline ∨ c = carriage then { k with bootX := 0, bootY := i32 (k.bootY+1) }
  else
    let a := videoAddr+2*(numCols*k.bootY+k.bootX)
    let phys := Function.update (Function.update k.video.phys (u32 a) c) (u32 (a+1)) 7
    let x := (k.bootX+1).tmod numCols
    { k with
      video := { k.video with phys := phys }
      bootX := x
      bootY := (k.bootY+x.tdiv numCols).tmod numRows }

/-- printf of a text without conversions. -/
def printf (s : List UInt8) (k : Kernel) : Kernel := s.foldl (fun k c => putc c k) k

/-! ### What output leaves alone -/

/-- `k'` differs from `k` in the screens only: cursors, video memory, boot console. -/
structure ScreenOnly (k k' : Kernel) : Prop where
  rest : k' = { k with
    terminal := k'.terminal, video := k'.video, bootX := k'.bootX, bootY := k'.bootY
    cursorLow := k'.cursorLow, cursorHigh := k'.cursorHigh }
  terminals : ∀ t, k'.terminal t =
    { k.terminal t with screenX := (k'.terminal t).screenX, screenY := (k'.terminal t).screenY }
  pages : k'.video.pageTabArrayVideo = k.video.pageTabArrayVideo

namespace ScreenOnly

theorem refl (k : Kernel) : ScreenOnly k k := ⟨rfl,fun _ => rfl,rfl⟩

theorem trans {k k' k'' : Kernel} (h : ScreenOnly k k') (h' : ScreenOnly k' k'') :
    ScreenOnly k k'' := by
  refine ⟨?_,?_,h'.pages.trans h.pages⟩
  · rw [h'.rest, h.rest]
  · intro t
    rw [h'.terminals t, h.terminals t]

end ScreenOnly

@[simp] theorem Video.store_pages (a : ℕ) (b : UInt8) (v : Video) :
    (v.store a b).pageTabArrayVideo = v.pageTabArrayVideo := by
  unfold store
  cases v.translate a <;> rfl

@[simp] theorem Video.storeCell_pages (base index : ℕ) (c color : UInt8) (v : Video) :
    (v.storeCell base index c color).pageTabArrayVideo = v.pageTabArrayVideo := by
  simp [storeCell]

@[simp] theorem Video.copyCell_pages (base up low : ℕ) (v : Video) :
    (v.copyCell base up low).pageTabArrayVideo = v.pageTabArrayVideo := by
  simp [copyCell]

@[simp] theorem Video.scrollRows_pages (base : ℕ) (v : Video) :
    (v.scrollRows base).pageTabArrayVideo = v.pageTabArrayVideo :=
  foldl_keeps _ _ _ _ fun _ _ => foldl_keeps _ _ _ _ fun _ _ => copyCell_pages ..

@[simp] theorem Video.clearLastRow_pages (base : ℕ) (color : UInt8) (v : Video) :
    (v.clearLastRow base color).pageTabArrayVideo = v.pageTabArrayVideo :=
  foldl_keeps _ _ _ _ fun _ _ => storeCell_pages ..

@[simp] theorem Video.clearCells_pages (base : ℕ) (color : UInt8) (v : Video) :
    (v.clearCells base color).pageTabArrayVideo = v.pageTabArrayVideo :=
  foldl_keeps _ _ _ _ fun _ _ => storeCell_pages ..

theorem screenOnly_video {k : Kernel} {v : Video}
    (h : v.pageTabArrayVideo = k.video.pageTabArrayVideo) :
    ScreenOnly k { k with video := v } := ⟨rfl,fun _ => rfl,h⟩

/-- A cursor move of one terminal. -/
theorem screenOnly_onTerminal {k : Kernel} {term : ℕ} {f : Terminal → Terminal}
    (h : ∀ t, f t = { t with screenX := (f t).screenX, screenY := (f t).screenY }) :
    ScreenOnly k (k.onTerminal term f) := by
  refine ⟨rfl,?_,rfl⟩
  intro t
  rw [Kernel.onTerminal_terminal]
  split_ifs
  · exact h _
  · rfl

theorem moveCursor_screenOnly (term : ℕ) (k : Kernel) : ScreenOnly k (moveCursor term k) := by
  unfold moveCursor
  split_ifs
  · exact .refl k
  · exact ⟨rfl,fun _ => rfl,rfl⟩

theorem moveCursor_terminal (term : ℕ) (k : Kernel) :
    (moveCursor term k).terminal = k.terminal := by
  unfold moveCursor
  split_ifs <;> rfl

theorem moveCursor_video (term : ℕ) (k : Kernel) : (moveCursor term k).video = k.video := by
  unfold moveCursor
  split_ifs <;> rfl

theorem moveCursor_viewingTerm (term : ℕ) (k : Kernel) :
    (moveCursor term k).viewingTerm = k.viewingTerm := by
  rw [(moveCursor_screenOnly term k).rest]

theorem scrollScreen_screenOnly (term : ℕ) (k : Kernel) :
    ScreenOnly k (scrollScreen term k) :=
  (screenOnly_video (by simp)).trans
    ((screenOnly_onTerminal fun _ => rfl).trans (moveCursor_screenOnly _ _))

theorem nextRow_screenOnly (term : ℕ) (k : Kernel) : ScreenOnly k (nextRow term k) := by
  have hcursor : ScreenOnly k (k.onTerminal term Terminal.newLine) :=
    screenOnly_onTerminal fun _ => rfl
  simp only [nextRow]
  split_ifs
  · exact hcursor.trans (scrollScreen_screenOnly _ _)
  · exact hcursor.trans (moveCursor_screenOnly _ _)

theorem putCell_screenOnly (c : UInt8) (term : ℕ) (k : Kernel) :
    ScreenOnly k (putCell c term k) :=
  (screenOnly_video (by simp)).trans (screenOnly_onTerminal fun _ => rfl)

theorem termPutc_screenOnly (c : UInt8) (term : ℕ) (k : Kernel) :
    ScreenOnly k (termPutc c term k) := by
  have hput := putCell_screenOnly c term k
  have hline : ScreenOnly k ((putCell c term k).onTerminal term Terminal.newLine) :=
    hput.trans (screenOnly_onTerminal fun _ => rfl)
  simp only [termPutc]
  split_ifs
  · exact nextRow_screenOnly _ _
  · exact hline.trans ((scrollScreen_screenOnly _ _).trans (moveCursor_screenOnly _ _))
  · exact hline.trans (moveCursor_screenOnly _ _)
  · exact hput.trans (moveCursor_screenOnly _ _)

theorem ScreenOnly.foldl {α : Type*} {g : Kernel → α → Kernel}
    (h : ∀ k a, ScreenOnly k (g k a)) (l : List α) (k : Kernel) :
    ScreenOnly k (l.foldl g k) := by
  induction l generalizing k with
  | nil => exact .refl k
  | cons a l ih => exact (h k a).trans (ih _)

theorem termPuts_screenOnly (s : List UInt8) (term : ℕ) (k : Kernel) :
    ScreenOnly k (termPuts s term k) :=
  ScreenOnly.foldl (fun k c => termPutc_screenOnly c term k) s k

theorem termClear_screenOnly (term : ℕ) (k : Kernel) : ScreenOnly k (termClear term k) :=
  (screenOnly_video (by simp)).trans
    ((screenOnly_onTerminal fun _ => rfl).trans (termPuts_screenOnly _ _ _))

theorem putc_screenOnly (c : UInt8) (k : Kernel) : ScreenOnly k (putc c k) := by
  unfold putc
  split_ifs
  · exact termPutc_screenOnly _ _ _
  · exact ⟨rfl,fun _ => rfl,rfl⟩
  · exact ⟨rfl,fun _ => rfl,rfl⟩

theorem printf_screenOnly (s : List UInt8) (k : Kernel) : ScreenOnly k (printf s k) :=
  ScreenOnly.foldl (fun k c => putc_screenOnly c k) s k

end GameOfThreads
