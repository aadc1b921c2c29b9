import GameOfThreads.CursorBounds
import GameOfThreads.TerminalInput

/-! The cursor registers of the display adapter. Whatever moves a cursor refreshes them when its
terminal is in view, and a switch refreshes them for the terminal that comes into view. -/
namespace GameOfThreads
open Machine

/-- The position that was last written to the two registers. -/
def Kernel.cursorPosition (k : Kernel) : ℕ := 256*k.cursorHigh+k.cursorLow

/-- The coordinates are bytes, and the registers show those of the terminal in view. -/
structure Pointed (k : Kernel) : Prop where
  bytes : ∀ t, (k.terminal t).screenX < 256 ∧ (k.terminal t).screenY < 256
  position : k.cursorPosition = (k.terminal k.viewingTerm).position

/-- The same up to a refresh for `term`. -/
structure PointedBut (term : ℕ) (k : Kernel) : Prop where
  bytes : ∀ t, (k.terminal t).screenX < 256 ∧ (k.terminal t).screenY < 256
  position : k.viewingTerm ≠ term → k.cursorPosition = (k.terminal k.viewingTerm).position

theorem Pointed.but {k : Kernel} (h : Pointed k) (term : ℕ) : PointedBut term k :=
  ⟨h.bytes,fun _ => h.position⟩

theorem PointedBut.video {term : ℕ} {k : Kernel} (h : PointedBut term k) (v : Video) :
    PointedBut term { k with video := v } := ⟨h.bytes,h.position⟩

theorem PointedBut.onTerminal {term : ℕ} {k : Kernel} (h : PointedBut term k)
    {f : Terminal → Terminal} (hf : ∀ t : Terminal, t.screenX < 256 ∧ t.screenY < 256 →
      (f t).screenX < 256 ∧ (f t).screenY < 256) : PointedBut term (k.onTerminal term f) := by
  constructor
  · intro t
    rw [Kernel.onTerminal_terminal]
    split_ifs
    · exact hf _ (h.bytes t)
    · exact h.bytes t
  · intro hne
    have hne : k.viewingTerm ≠ term := hne
    have hview : (k.onTerminal term f).terminal k.viewingTerm = k.terminal k.viewingTerm := by
      rw [Kernel.onTerminal_terminal, if_neg hne]
    exact (h.position hne).trans (congrArg Terminal.position hview.symm)

/-! ### Output -/

/-- The registers have room for every position of byte coordinates. -/
theorem moveCursor_pointed {term : ℕ} {k : Kernel} (h : PointedBut term k) :
    Pointed (moveCursor term k) := by
  by_cases hterm : term = k.viewingTerm
  · rw [moveCursor, if_neg (not_not.mpr hterm)]
    refine ⟨h.bytes,?_⟩
    obtain ⟨hx,hy⟩ := h.bytes k.viewingTerm
    subst hterm
    unfold Kernel.cursorPosition Terminal.position numCols at *
    simp only
    omega
  · rw [moveCursor, if_pos hterm]
    exact ⟨h.bytes,h.position (Ne.symm hterm)⟩

theorem scrollScreen_pointed {term : ℕ} {k : Kernel} (h : PointedBut term k) :
    Pointed (scrollScreen term k) :=
  moveCursor_pointed ((h.video _).onTerminal fun _ _ =>
    ⟨Nat.zero_lt_succ _,show numRows-1 < 256 by decide⟩)

theorem PointedBut.newLine {term : ℕ} {k : Kernel} (h : PointedBut term k) :
    PointedBut term (k.onTerminal term Terminal.newLine) :=
  h.onTerminal fun _ _ => ⟨Nat.zero_lt_succ _,Nat.mod_lt _ (by decide)⟩

theorem nextRow_pointed {term : ℕ} {k : Kernel} (h : PointedBut term k) :
    Pointed (nextRow term k) := by
  simp only [nextRow]
  split_ifs
  · exact scrollScreen_pointed h.newLine
  · exact moveCursor_pointed h.newLine

theorem putCell_pointed (c : UInt8) {term : ℕ} {k : Kernel} (h : PointedBut term k) :
    PointedBut term (putCell c term k) :=
  (h.video _).onTerminal fun _ ht => ⟨Nat.mod_lt _ (by decide),ht.2⟩

/-- Every branch ends with a refresh. -/
theorem termPutc_pointed (c : UInt8) {term : ℕ} {k : Kernel} (h : PointedBut term k) :
    Pointed (termPutc c term k) := by
  have hput := putCell_pointed c h
  simp only [termPutc]
  split_ifs
  · exact nextRow_pointed h
  · exact moveCursor_pointed ((scrollScreen_pointed hput.newLine).but term)
  · exact moveCursor_pointed hput.newLine
  · exact moveCursor_pointed hput

theorem Pointed.foldl {α : Type*} {g : Kernel → α → Kernel}
    (hg : ∀ k a, Pointed k → Pointed (g k a)) (l : List α) {k : Kernel} (h : Pointed k) :
    Pointed (l.foldl g k) := by
  induction l generalizing k with
  | nil => exact h
  | cons a l ih => exact ih (hg k a h)

theorem termPuts_pointed (s : List UInt8) (term : ℕ) {k : Kernel} (h : Pointed k) :
    Pointed (termPuts s term k) :=
  .foldl (fun _ c h => termPutc_pointed c (h.but term)) s h

/-- The first character of a text that is not empty refreshes the registers. -/
theorem termPuts_refreshes {s : List UInt8} (hs : s ≠ []) {term : ℕ} {k : Kernel}
    (h : PointedBut term k) : Pointed (termPuts s term k) := by
  obtain ⟨c,s,rfl⟩ := List.exists_cons_of_ne_nil hs
  exact termPuts_pointed s term (termPutc_pointed c h)

theorem termClear_pointed {term : ℕ} {k : Kernel} (h : PointedBut term k) :
    Pointed (termClear term k) :=
  termPuts_refreshes (by decide)
    ((h.video _).onTerminal fun _ _ => ⟨Nat.zero_lt_succ _,Nat.zero_lt_succ _⟩)

theorem eraseCell_pointed {term : ℕ} {k : Kernel} (h : PointedBut term k) :
    Pointed (eraseCell term k) := by
  have hback : PointedBut term (k.onTerminal term stepBack) := by
    apply h.onTerminal
    intro t ht
    unfold stepBack
    split_ifs
    · exact ⟨show numCols-1 < 256 by decide,Nat.mod_lt _ (by decide)⟩
    · exact ⟨Nat.mod_lt _ (by decide),ht.2⟩
  exact moveCursor_pointed (hback.video _)

/-- The terminal that comes into view has its cursor shown at once. -/
theorem viewTerm_pointed (cur dest : ℕ) {k : Kernel} (h : Pointed k) :
    Pointed (viewTerm cur dest k) := by
  have hview : PointedBut dest
      { k with video := exchangeScreens cur dest k, viewingTerm := dest } :=
    ⟨h.bytes,fun hne => absurd rfl hne⟩
  exact moveCursor_pointed hview

theorem Pointed.hidden {k k' : Kernel} (h : Pointed k) (h' : Hidden k k') : Pointed k' := by
  have hcursor : ∀ t, (k'.terminal t).screenX = (k.terminal t).screenX ∧
      (k'.terminal t).screenY = (k.terminal t).screenY := by
    intro t
    rw [h'.terminals t]
    exact ⟨rfl,rfl⟩
  constructor
  · intro t
    rw [(hcursor t).1, (hcursor t).2]
    exact h.bytes t
  · have hview : k'.viewingTerm = k.viewingTerm := by rw [h'.rest]
    have hshown : k'.cursorPosition = k.cursorPosition := by
      rw [h'.rest]
      rfl
    rw [hshown, hview, Terminal.position, (hcursor _).1, (hcursor _).2]
    exact h.position

/-- No stroke leaves the registers behind. -/
theorem Draws.pointed {ok : Stroke → Prop} {k k' : Kernel} (h : Draws Hidden ok k k')
    (hk : Pointed k) : Pointed k' := by
  refine h.keeps (P := Pointed) ?_ hk
  intro k₁ k₂ hdraw hk
  cases hdraw with
  | aside h => exact hk.hidden h
  | console hoff phys x y => exact ⟨hk.bytes,hk.position⟩
  | stroke s hs =>
    cases s with
    | putc c term => exact termPutc_pointed c (hk.but term)
    | row term => exact nextRow_pointed (hk.but term)
    | erase term => exact eraseCell_pointed (hk.but term)
    | clear term => exact termClear_pointed (hk.but term)
    | view cur dest => exact viewTerm_pointed cur dest hk
    | load pid bytes => exact ⟨hk.bytes,hk.position⟩

/-! ### Runs -/

/-- The operations that move a cursor or the view, between any events of the kernel. -/
inductive CursorOp
  | putc (c : UInt8) (term : ℕ)
  | backspace (term : ℕ)
  | enter (term : ℕ)
  | clear (term : ℕ)
  | history (direction : ℤ)
  | switch (cur dest : ℕ) (cpu : Cpu)
  | call (op : Op)

def cursors (fs : FileSystem) : System Kernel CursorOp Unit where
  step k
    | .putc c term => ((),termPutc c term k)
    | .backspace term => ((),backspace term k)
    | .enter term => ((),enter term k)
    | .clear term => ((),termClear term k)
    | .history direction => ((),terminalHistory direction k)
    | .switch cur dest cpu => ((),(terminalSwitch fs cpu cur dest k).2)
    | .call op => ((),(kernel fs).next k op)

/-- The terminal that an operation is given. -/
def CursorOp.term : CursorOp → Option ℕ
  | .putc _ term => some term
  | .backspace term => some term
  | .enter term => some term
  | .clear term => some term
  | _ => none

theorem cursors_pointed (fs : FileSystem) (op : CursorOp) {k : Kernel} (h : Pointed k) :
    Pointed ((cursors fs).next k op) := by
  cases op with
  | putc c term => exact termPutc_pointed c (h.but term)
  | backspace term => exact (backspace_draws term k).pointed h
  | enter term => exact (enter_draws term k).pointed h
  | clear term => exact termClear_pointed (h.but term)
  | history direction => exact (terminalHistory_draws k direction).pointed h
  | switch cur dest cpu =>
    have hdraws := (terminalSwitch_switched fs cpu cur dest k).draws
    exact (hdraws.mono (fun _ _ h => h.hidden) fun _ hs => hs).pointed h
  | call op => exact (step_draws fs op k).pointed h

theorem initial_pointed (pcb : ℕ → PCB) (phys : ℕ → UInt8) : Pointed (initial pcb phys) := by
  have hblank : PointedBut 0 (blank pcb phys) := by
    constructor
    · intro t
      obtain ⟨hx,hy,-⟩ := blank_terminal pcb phys t
      rw [hx, hy]
      exact ⟨by decide,by decide⟩
    · exact fun hne => absurd rfl hne
  have hclear := termClear_pointed hblank
  simp only [initial, terminalInit]
  rw [← blank]
  generalize termClear 0 (blank pcb phys) = k at *
  exact moveCursor_pointed ⟨hclear.bytes,fun _ => hclear.position⟩

/-! ### Terminals that are not in view -/

/-- What the registers show, and whose cursor they are to show. -/
def Kernel.pointer (k : Kernel) : ℕ × ℕ × ℕ := (k.viewingTerm,k.cursorLow,k.cursorHigh)

section
variable {k k' : Kernel} {term : ℕ}

theorem moveCursor_pointer (h : term ≠ k.viewingTerm) :
    (moveCursor term k).pointer = k.pointer := by
  rw [moveCursor, if_pos h]

theorem scrollScreen_pointer (h : term ≠ k.viewingTerm) :
    (scrollScreen term k).pointer = k.pointer := moveCursor_pointer h

theorem nextRow_pointer (h : term ≠ k.viewingTerm) : (nextRow term k).pointer = k.pointer := by
  simp only [nextRow]
  split_ifs
  · exact scrollScreen_pointer h
  · exact moveCursor_pointer h

theorem termPutc_pointer (c : UInt8) (h : term ≠ k.viewingTerm) :
    (termPutc c term k).pointer = k.pointer := by
  simp only [termPutc]
  split_ifs
  · exact nextRow_pointer h
  · have hscroll := scrollScreen_pointer
      (k := (putCell c term k).onTerminal term Terminal.newLine) h
    have hview : term ≠ (scrollScreen term
        ((putCell c term k).onTerminal term Terminal.newLine)).viewingTerm := by
      rw [show Kernel.viewingTerm _ = _ from congrArg Prod.fst hscroll]
      exact h
    exact (moveCursor_pointer hview).trans hscroll
  · exact moveCursor_pointer h
  · exact moveCursor_pointer h

theorem termPuts_pointer (s : List UInt8) (h : term ≠ k.viewingTerm) :
    (termPuts s term k).pointer = k.pointer := by
  induction s generalizing k with
  | nil => rfl
  | cons c s ih =>
    have hput := termPutc_pointer c h
    have hview : term ≠ (termPutc c term k).viewingTerm := by
      rw [show Kernel.viewingTerm _ = _ from congrArg Prod.fst hput]
      exact h
    exact (ih hview).trans hput

theorem termClear_pointer (h : term ≠ k.viewingTerm) :
    (termClear term k).pointer = k.pointer := by
  simp only [termClear]
  refine (termPuts_pointer _ ?_).trans ?_
  · exact h
  · rfl

theorem eraseCell_pointer (h : term ≠ k.viewingTerm) :
    (eraseCell term k).pointer = k.pointer := by
  simp only [eraseCell]
  refine (moveCursor_pointer ?_).trans ?_
  · exact h
  · rfl

/-- Keys on a terminal that is not in view leave the registers alone. -/
theorem Draws.pointer (h : Draws Hidden (Stroke.OfKeys term) k k') (hne : term ≠ k.viewingTerm) :
    k'.pointer = k.pointer := by
  refine h.keeps (P := fun k' => k'.pointer = k.pointer) ?_ rfl
  intro k₁ k₂ hdraw hk
  have hne : term ≠ k₁.viewingTerm := by
    rw [show k₁.viewingTerm = _ from congrArg Prod.fst hk]
    exact hne
  cases hdraw with
  | aside h =>
    rw [h.rest]
    exact hk
  | console hoff phys x y => exact hk
  | stroke s hs =>
    rcases hs with hs | rfl
    · cases s with
      | putc c t =>
        cases hs
        exact (termPutc_pointer c hne).trans hk
      | row t =>
        cases hs
        exact (nextRow_pointer hne).trans hk
      | clear t =>
        cases hs
        exact (termClear_pointer hne).trans hk
      | _ => exact hs.elim
    · exact (eraseCell_pointer hne).trans hk

theorem cursors_pointer (fs : FileSystem) {op : CursorOp} (hop : op.term = some term)
    (h : term ≠ k.viewingTerm) : ((cursors fs).next k op).pointer = k.pointer := by
  cases op with
  | putc c _ =>
    cases hop
    exact termPutc_pointer c h
  | backspace _ =>
    cases hop
    exact (backspace_draws term k).pointer h
  | enter _ =>
    cases hop
    exact ((enter_draws term k).mono (fun _ _ h => h) fun _ hs => .inl hs).pointer h
  | clear _ =>
    cases hop
    exact termClear_pointer h
  | history direction => cases hop
  | switch cur dest cpu => cases hop
  | call op => cases hop

end

/-- In every run the registers hold the position of the cursor of the terminal in view, and an
operation on another terminal leaves them as they are. -/
theorem cursor_follows_view (fs : FileSystem) (pcb : ℕ → PCB) (phys : ℕ → UInt8)
    (ops : List CursorOp) :
    let k := (cursors fs).run (initial pcb phys) ops
    256*k.cursorHigh+k.cursorLow =
      80*(k.terminal k.viewingTerm).screenY+(k.terminal k.viewingTerm).screenX ∧
    ∀ op term, op.term = some term → term ≠ k.viewingTerm →
      ((cursors fs).next k op).cursorLow = k.cursorLow ∧
        ((cursors fs).next k op).cursorHigh = k.cursorHigh := by
  intro k
  have hpointed : Pointed k := System.invariant (fun _ op h => cursors_pointed fs op h)
    (initial_pointed pcb phys) ops
  refine ⟨hpointed.position,?_⟩
  intro op term hop hne
  exact (Prod.mk.inj (Prod.mk.inj (cursors_pointer fs hop hne)).2)

end GameOfThreads
