import GameOfThreads.TerminalInput
import GameOfThreads.CursorBounds

/-! Reading an edited line. Characters, tabs and Backspace fold into a line; once Enter has
been pressed under a pending read, the read delivers the line and its newline and leaves an
empty buffer. The characters of the line stay before the cursor, so that erasing them keeps
to the screen. -/
namespace GameOfThreads
open Machine

/-- What a key makes of a line. -/
def Key.edit (line : List UInt8) : Key → List UInt8
  | .char c => if line.length < 127 then line ++ [c] else line
  | .tab => if line.length ≤ 124 then line ++ [space,space,space] else line
  | .erase => line.dropLast
  | _ => line

/-- Neither Enter nor a turn through the history. -/
def Key.Edits : Key → Prop
  | .enter _ => False
  | .history _ => False
  | _ => True

instance : (key : Key) → Decidable key.Edits
  | .enter _ => isFalse id
  | .history _ => isFalse id
  | .char _ => isTrue trivial
  | .tab => isTrue trivial
  | .erase => isTrue trivial
  | .none => isTrue trivial

def Request.key : Request → Option Key
  | .press key => some key
  | _ => none

/-- The keys pressed on terminal `t` in a run. -/
def keysPressed (t : ℕ) (h : List (Move Kernel Op Out)) : List Key :=
  (requests t h).filterMap Request.key

/-- Before Enter, keys edit the line of terminal `t`, with no Ctrl+L among them; whatever
else happens is no key and does not clear the terminal. -/
structure Typing (t : ℕ) (k : Kernel) (op : Op) : Prop where
  proper : op.Proper
  kept : ¬op.Wipes k t
  viewed : ∀ pressed cpu, op = .key pressed cpu → k.viewingTerm = t
  edits : ∀ pressed cpu, op = .key pressed cpu →
    (k.key pressed).Edits ∧ (pressed = 0x26 → k.ctlFlag = 0)

/-- After Enter there are no more keys, and nobody else reads on terminal `t`. -/
def Resting (t : ℕ) (k : Kernel) (op : Op) : Prop :=
  op.Proper ∧ (∀ pressed cpu, op ≠ .key pressed cpu) ∧ ∀ r, k.request op ≠ some (t,r)

/-! ### The line editor -/

theorem edit_char (c : UInt8) (line : List UInt8) :
    (Key.char c).edit line = if line.length < 127 then line ++ [c] else line :=
  rfl

theorem edit_tab (line : List UInt8) :
    Key.tab.edit line = if line.length ≤ 124 then line ++ [space,space,space] else line :=
  rfl

theorem edit_erase (line : List UInt8) : Key.erase.edit line = line.dropLast :=
  rfl

theorem edit_length (key : Key) {line : List UInt8} (h : line.length ≤ 127) :
    (key.edit line).length ≤ 127 := by
  cases key with
  | char c =>
    rw [edit_char]
    split_ifs
    · simp; omega
    · exact h
  | tab =>
    rw [edit_tab]
    split_ifs
    · simp; omega
    · exact h
  | erase =>
    rw [edit_erase, List.length_dropLast]
    omega
  | enter row => exact h
  | history row => exact h
  | none => exact h

theorem edits_length (keys : List Key) {line : List UInt8} (h : line.length ≤ 127) :
    (keys.foldl Key.edit line).length ≤ 127 := by
  induction keys generalizing line with
  | nil => exact h
  | cons key keys ih => exact ih (edit_length key h)

section
variable {i : Input} {r : Request}

end

/-! ### Runs of the kernel -/

section
variable {fs : FileSystem} {t : ℕ} {k : Kernel} {ops : List Op}

theorem key_enter (k : Kernel) : k.key 0x1C = .enter (k.terminal k.viewingTerm).histFill := rfl

theorem along_inRange {ok : Kernel → Op → Prop} (hok : ∀ k op, ok k op → op.Proper)
    (hin : k.InRange) (hops : (kernel fs).Along ok k ops) : ((kernel fs).run k ops).InRange :=
  System.Along.invariant (fun _ op hin h => step_inRange fs (hok _ op h) hin) hin hops

/-- The cells before the last row. -/
def lastRow : ℕ := numCols*(numRows-1)

theorem scrollScreen_position (term : ℕ) (k : Kernel) :
    ((scrollScreen term k).terminal term).position = lastRow := by
  simp only [scrollScreen, moveCursor_terminal, Kernel.onTerminal_terminal_self]
  rfl

theorem newLine_position {x : Terminal} (hy : x.screenY < numRows) :
    x.newLine.position = numCols*(x.screenY+1) := by
  unfold Terminal.position Terminal.newLine numRows at *
  simp only
  rw [Nat.mod_eq_of_lt (by omega)]
  rfl

theorem nextRow_position {term : ℕ} {k : Kernel} (h : (k.terminal term).InScreen) :
    min ((k.terminal term).position+1) lastRow ≤ ((nextRow term k).terminal term).position := by
  have hx := h.x
  simp only [nextRow]
  split_ifs
  · rw [scrollScreen_position]
    exact min_le_right ..
  · rw [moveCursor_terminal, Kernel.onTerminal_terminal_self, newLine_position h.y]
    unfold Terminal.position numCols at *
    omega

/-- A character takes the cursor on by at least one cell, unless it is in the last row. -/
theorem termPutc_position (c : UInt8) {term : ℕ} {k : Kernel} (h : (k.terminal term).InScreen) :
    min ((k.terminal term).position+1) lastRow ≤
      ((termPutc c term k).terminal term).position := by
  have hput : (putCell c term k).terminal term = (k.terminal term).advance := by
    simp only [putCell, Kernel.onTerminal_terminal_self]
  have hx := h.x
  have hadvance : (k.terminal term).advance.screenX = (k.terminal term).screenX+1 := by
    unfold Terminal.advance numCols at *
    simp only
    omega
  have hposition : (k.terminal term).advance.position = (k.terminal term).position+1 := by
    rw [Terminal.position, hadvance]
    rfl
  have hline := newLine_position (x := (k.terminal term).advance) h.y
  have hsame : (k.terminal term).advance.screenY = (k.terminal term).screenY := rfl
  simp only [termPutc]
  split_ifs
  · exact nextRow_position h
  · rw [moveCursor_terminal, scrollScreen_position]
    exact min_le_right ..
  · rw [moveCursor_terminal, Kernel.onTerminal_terminal_self, hput, hline, hsame]
    unfold Terminal.position numCols at *
    omega
  · rw [moveCursor_terminal, hput, hposition]
    exact min_le_left ..

/-- Output to one terminal leaves the others alone. -/
theorem scrollScreen_other {term u : ℕ} (hu : u ≠ term) (k : Kernel) :
    (scrollScreen term k).terminal u = k.terminal u := by
  simp only [scrollScreen, moveCursor_terminal, Kernel.onTerminal_terminal, if_neg hu]

theorem nextRow_other {term u : ℕ} (hu : u ≠ term) (k : Kernel) :
    (nextRow term k).terminal u = k.terminal u := by
  simp only [nextRow]
  split_ifs
  · rw [scrollScreen_other hu, Kernel.onTerminal_terminal, if_neg hu]
  · rw [moveCursor_terminal, Kernel.onTerminal_terminal, if_neg hu]

theorem putCell_other (c : UInt8) {term u : ℕ} (hu : u ≠ term) (k : Kernel) :
    (putCell c term k).terminal u = k.terminal u := by
  simp only [putCell, Kernel.onTerminal_terminal, if_neg hu]

theorem termPutc_other (c : UInt8) {term u : ℕ} (hu : u ≠ term) (k : Kernel) :
    (termPutc c term k).terminal u = k.terminal u := by
  have hput := putCell_other c hu k
  have hline : ((putCell c term k).onTerminal term Terminal.newLine).terminal u =
      k.terminal u := by
    rw [Kernel.onTerminal_terminal, if_neg hu, hput]
  simp only [termPutc]
  split_ifs
  · exact nextRow_other hu k
  · rw [moveCursor_terminal, scrollScreen_other hu, hline]
  · rw [moveCursor_terminal, hline]
  · rw [moveCursor_terminal, hput]

/-- The cursors are on the screen, and that of terminal `t` stands behind the characters of
its line. -/
structure Backed (t : ℕ) (k : Kernel) : Prop where
  screen : Placed screenRegion k
  length : (k.terminal t).keyboardBufIdx ≤ keyBuffSize
  line : (k.terminal t).keyboardBufIdx ≤ (k.terminal t).position

namespace Backed
variable {k' : Kernel}

theorem putc (h : Backed t k) (c : UInt8) {term : ℕ} (hterm : term < numTerm) :
    Backed t (termPutc c term k) := by
  have hidx := (termPutc_screenOnly c term k).idx t
  refine ⟨termPutc_placed c (whole_screenRegion hterm) h.screen,hidx ▸ h.length,?_⟩
  rw [hidx]
  by_cases ht : t = term
  · subst ht
    have hnext := termPutc_position c (h.screen.inScreen (whole_screenRegion hterm))
    have hrow : keyBuffSize ≤ lastRow := by decide
    have hlength := h.length
    have hline := h.line
    omega
  · rw [termPutc_other c ht]
    exact h.line

/-- A change that leaves the cursors and adds nothing to the line. -/
theorem still (h : Backed t k) (hscreen : Placed screenRegion k')
    (hidx : (k'.terminal t).keyboardBufIdx ≤ (k.terminal t).keyboardBufIdx)
    (hpos : (k'.terminal t).position = (k.terminal t).position) : Backed t k' :=
  ⟨hscreen,hidx.trans h.length,hpos ▸ hidx.trans h.line⟩

theorem unseen (h : Backed t k) (h' : Unseen k k') : Backed t k' := by
  refine h.still (h.screen.unseen h') ?_ ?_
  · rw [h'.terminals t]
  · rw [h'.terminals t]
    rfl

theorem hidden (h : Backed t k) (h' : Hidden k k')
    (hidx : (k'.terminal t).keyboardBufIdx ≤ (k.terminal t).keyboardBufIdx) : Backed t k' := by
  refine h.still (h.screen.hidden h') hidx ?_
  rw [Terminal.position, h'.terminals t]
  rfl

theorem termPuts (h : Backed t k) (s : List UInt8) {term : ℕ} (hterm : term < numTerm) :
    Backed t (termPuts s term k) := by
  unfold GameOfThreads.termPuts
  induction s generalizing k with
  | nil => exact h
  | cons c s ih => exact ih (h.putc c hterm)

theorem clear (h : Backed t k) {term : ℕ} (hterm : term < numTerm) (ht : term ≠ t) :
    Backed t (termClear term k) := by
  have hidx := (termClear_screenOnly term k).idx t
  have hputs : ∀ s k, (GameOfThreads.termPuts s term k).terminal t = k.terminal t := fun s k =>
    foldl_keeps (fun k : Kernel => k.terminal t) _ s k fun k c => termPutc_other c ht.symm k
  refine h.still (termClear_placed (whole_screenRegion hterm) (h.screen.but term)) hidx.le ?_
  simp only [termClear]
  rw [hputs, Kernel.onTerminal_terminal, if_neg ht.symm]

theorem prints (h : Backed t k) {wiped : ℕ → Prop} (h' : Prints wiped k k')
    (ht : ¬wiped t) : Backed t k' := by
  induction h' with
  | same => exact h
  | unseen _ hu ih => exact ih.unseen hu
  | putc c term hterm _ ih => exact ih.putc c hterm
  | clear term hterm hwiped _ ih =>
    refine ih.clear hterm ?_
    rintro rfl
    exact ht hwiped

theorem typeKey (h : Backed t k) (ht : t < numTerm) (c : UInt8)
    (hroom : (k.terminal t).keyboardBufIdx < keyBuffSize) : Backed t (typeKey c t k) := by
  have hidx := typeKey_idx c hroom
  have hwhole := whole_screenRegion ht
  refine ⟨(typeKey_draws t k c).typingPlaced hwhole h.screen,by omega,?_⟩
  have hstore : Placed screenRegion ((storeKey t (k.terminal t).keyboardBufIdx c k).onTerminal t
      Terminal.incIdx) :=
    (h.screen.hidden (storeKey_hidden t _ c k)).hidden (.onTerminal (fun _ => rfl) _)
  have hnext := termPutc_position c (hstore.inScreen hwhole)
  have hsame := storeKey_position t (k.terminal t).keyboardBufIdx c k t
  rw [Kernel.onTerminal_terminal_self] at hnext
  have hkept : ∀ x : Terminal, x.incIdx.position = x.position := fun _ => rfl
  rw [hkept, hsame] at hnext
  have hrow : keyBuffSize ≤ lastRow := by decide
  have hline := h.line
  rw [hidx]
  refine le_trans ?_ hnext
  omega

theorem backspace (h : Backed t k) (ht : t < numTerm) : Backed t (backspace t k) := by
  by_cases hzero : (k.terminal t).keyboardBufIdx = 0
  · rw [GameOfThreads.backspace, if_pos hzero]
    exact h
  · have hline := h.line
    have hne : (k.terminal t).position ≠ 0 := by omega
    have hidx := backspace_idx h.length
    have hpos := backspace_position (h.screen.inScreen (whole_screenRegion ht)) hzero hne
    have hlength := h.length
    exact ⟨backspace_placed (whole_screenRegion ht) h.screen (.inr hne),by omega,by omega⟩

theorem keyPress (h : Backed t k) (ht : t < numTerm) (hview : k.viewingTerm = t) (code : ℕ) :
    Backed t (keyPress code k) := by
  simp only [GameOfThreads.keyPress, hview]
  split_ifs with hcode hroom
  · exact h
  · exact h.typeKey ht _ (by omega)
  · exact h
  · exact h

theorem typeKeys (h : Backed t k) (ht : t < numTerm) (hview : k.viewingTerm = t) (c : UInt8)
    (l : List ℕ) (hroom : (k.terminal t).keyboardBufIdx+l.length ≤ keyBuffSize) :
    Backed t (l.foldl (fun k _ => GameOfThreads.typeKey c k.viewingTerm k) k) := by
  induction l generalizing k with
  | nil => exact h
  | cons a l ih =>
    rw [List.length_cons] at hroom
    have hidx : ((GameOfThreads.typeKey c t k).terminal t).keyboardBufIdx = _ :=
      typeKey_idx c (by omega)
    rw [List.foldl_cons, hview]
    refine ih (h.typeKey ht c (by omega)) ?_ (by omega)
    rw [(typeKey_terminalsOnly c t k).viewingTerm, hview]

theorem tabPress (h : Backed t k) (ht : t < numTerm) (hview : k.viewingTerm = t) :
    Backed t (tabPress k) := by
  unfold GameOfThreads.tabPress
  rw [hview]
  split_ifs with hroom
  · have hkeys := h.typeKeys ht hview space (List.range 3) (by rw [List.length_range]; omega)
    exact hkeys
  · exact h

end Backed

theorem terminalHistory_same {direction : ℤ} (h : ¬Turns direction k) :
    terminalHistory direction k = k := by
  have hturn : (direction = 1 ∨ direction = -1) →
      (k.terminal k.viewingTerm).canTurn direction = false := by
    intro hdirection
    simpa [Turns, hdirection] using h
  simp only [terminalHistory]
  split_ifs with hdirection hcan
  · rfl
  · rfl
  · exact absurd (hturn (by omega)) (by simpa using hcan)

/-- A key that goes through the history is no key of the editing. -/
theorem historyKey_edits {pressed : ℕ} {direction : ℤ} (hkey : HistoryKey pressed k direction)
    (h : (k.key pressed).Edits) : ¬Turns direction k := by
  rintro ⟨-,hcan⟩
  have hturn : k.key pressed = (k.terminal k.viewingTerm).turn direction := by
    obtain ⟨hnum,⟨rfl,rfl⟩ | ⟨rfl,rfl⟩⟩ := hkey
    · simp [Kernel.key, hnum]
    · simp [Kernel.key, hnum]
  rw [hturn, Terminal.turn, if_pos hcan] at h
  exact h

theorem keyboardSwitch_backed (fs : FileSystem) (hin : k.InRange) (ht : t < numTerm)
    (h : Backed t k) (cpu : Cpu) {pressed : ℕ} (hview : k.viewingTerm = t)
    (hedits : (k.key pressed).Edits ∧ (pressed = 0x26 → k.ctlFlag = 0)) :
    Backed t (keyboardSwitch fs cpu pressed k).2 := by
  have hkeyed := keyboardSwitch_keyed fs cpu pressed k
  generalize keyboardSwitch fs cpu pressed k = r at *
  cases hkeyed with
  | erase _ =>
    rw [hview]
    exact h.backspace ht
  | enter hpressed =>
    subst hpressed
    exact absurd hedits.1 (by rw [key_enter]; exact id)
  | history hkey =>
    rw [terminalHistory_same (historyKey_edits hkey hedits.1)]
    exact h
  | tab _ => exact h.tabPress ht hview
  | char _ => exact h.keyPress ht hview pressed
  | clear _ hclear => exact absurd (hedits.2 hclear.1) hclear.2
  | flags _ hk' => exact h.unseen hk'.unseen
  | switch _ hdest _ =>
    exact h.prints (terminalSwitch_prints (· ≠ k.viewingTerm) fs cpu _ hdest hin.current
      fun hne _ => hne) fun hne => hne hview.symm

section
variable (term : ℕ) (k)

theorem clearKeyBuf_idx (t : ℕ) : ((clearKeyBuf term k).terminal t).keyboardBufIdx ≤
    (k.terminal t).keyboardBufIdx := by
  have hline := congrFun (clearKeyBuf_input term k) t
  rw [← Kernel.input_line_length, ← Kernel.input_line_length, hline]
  by_cases ht : t = term
  · subst ht
    rw [Function.update_self]
    exact Nat.zero_le _
  · rw [Function.update_of_ne ht]

end

theorem terminalReadStart_backed (null : Bool) (nbytes : ℤ) (h : Backed t k) :
    Backed t (terminalReadStart null nbytes k).2 := by
  refine h.hidden (terminalReadStart_hidden null nbytes k) ?_
  have hstart : (terminalReadStart null nbytes k).2 =
      k.onTerminal k.currentTerm (Terminal.setReadWanted 1) := by
    simp only [terminalReadStart]
    split_ifs <;> rfl
  rw [hstart, Kernel.onTerminal_terminal]
  split_ifs <;> exact le_rfl

theorem terminalReadFinish_backed (limit : ℕ) (h : Backed t k) :
    Backed t (terminalReadFinish limit k).2 := by
  refine h.hidden (terminalReadFinish_hidden limit k) ?_
  have hkept (term : ℕ) {f : Terminal → Terminal} (k : Kernel)
      (hf : ∀ t, (f t).keyboardBufIdx = t.keyboardBufIdx) :
      ((k.onTerminal term f).terminal t).keyboardBufIdx = (k.terminal t).keyboardBufIdx := by
    rw [Kernel.onTerminal_terminal]
    split_ifs
    · exact hf _
    · rfl
  have hcleared : ((clearKeyBuf k.currentTerm (k.onTerminal k.currentTerm
      (Terminal.setEnterFlag 0))).terminal t).keyboardBufIdx ≤ _ := clearKeyBuf_idx ..
  rw [hkept k.currentTerm (f := Terminal.setEnterFlag 0) k fun _ => rfl] at hcleared
  rw [terminalReadFinish_eq, hkept k.currentTerm (f := Terminal.setReadWanted 0) _ fun _ => rfl]
  exact hcleared

/-- Typing keeps the line before the cursor. -/
theorem typing_backed (fs : FileSystem) (ht : t < numTerm) {op : Op} (hop : Typing t k op)
    (hin : k.InRange) (h : Backed t k) : Backed t ((kernel fs).next k op) := by
  have hquiet : op.Quiet → Backed t ((kernel fs).next k op) := fun hquiet =>
    h.prints (quiet_prints fs hop.proper hin hquiet) hop.kept
  cases op with
  | key pressed cpu =>
    have hcli : Backed t { k with interrupts := false } :=
      h.unseen ⟨fun _ => rfl,rfl,rfl,rfl⟩
    have hswitch := keyboardSwitch_backed fs (k := { k with interrupts := false })
      ⟨hin.viewing,hin.current⟩ ht hcli cpu (hop.viewed pressed cpu rfl)
      (hop.edits pressed cpu rfl)
    have hend : Unseen (keyboardSwitch fs cpu pressed { k with interrupts := false }).2
        (keyboardHandler fs cpu pressed k).2 := ⟨fun _ => rfl,rfl,rfl,rfl⟩
    exact hswitch.unseen hend
  | read fd null nbytes cpu =>
    have hstart := terminalReadStart_backed null nbytes h
    change Backed t (read fs fd null nbytes cpu k).2
    rcases read_cases fs fd null nbytes cpu k with hread | hread
    · exact h.unseen hread.unseen
    · rw [hread]
      rcases terminalRead_cases null nbytes k with hread | ⟨limit,hread⟩
      · exact hstart.unseen hread.unseen
      · rw [hread]
        exact terminalReadFinish_backed limit hstart
  | resume =>
    change Backed t (resume k).2
    rcases resume_cases k with hresume | ⟨limit,hresume⟩
    · exact h.unseen hresume.unseen
    · exact (terminalReadFinish_backed limit h).unseen hresume.unseen
  | _ => exact hquiet trivial

/-! ### The end of the read -/

theorem clearKeyBuf_cells (term : ℕ) (k : Kernel) {i : ℕ} (hi : i < keyBuffSize) :
    ((clearKeyBuf term k).terminal term).keyboardBuffer i = noke := by
  have hloop := foldl_range_rule
    (P := fun n k => ∀ i < n, i < keyBuffSize → (k.terminal term).keyboardBuffer i = noke)
    (g := fun k index => storeKey term index noke k) (b := k) (fun _ h => absurd h (by omega))
    keyBuffSize ?_
  · rw [clearKeyBuf, Kernel.onTerminal_terminal_self]
    exact hloop i hi hi
  · intro n hn k hcells i hlt hroom
    simp only [storeKey, Kernel.onTerminal_terminal_self, Terminal.storeKey, if_pos hn]
    by_cases heq : i = n
    · rw [heq, Function.update_self]
    · rw [Function.update_of_ne heq]
      exact hcells i (by omega) hroom

/-- The events around the read of a line: keys, the call among them, Enter, and what happens
until the process has the processor again. -/
structure LineRead where
  before : List Op
  fd : ℤ
  nbytes : ℤ
  cpu : Cpu
  after : List Op
  enterCpu : Cpu
  rest : List Op

namespace LineRead

def typed (s : LineRead) : List Op := s.before ++ .read s.fd false s.nbytes s.cpu :: s.after

def entered (s : LineRead) : List Op := s.typed ++ [.key 0x1C s.enterCpu]

def events (s : LineRead) : List Op := s.entered ++ s.rest

/-- The line that the keys come to. -/
def line (s : LineRead) (fs : FileSystem) (t : ℕ) (k : Kernel) : List UInt8 :=
  (keysPressed t ((kernel fs).trace k s.typed)).foldl Key.edit []

/-- The events are a read on terminal `t`, which is pending when Enter is pressed and looks at
its flag again at the end. -/
structure Runs (s : LineRead) (fs : FileSystem) (t : ℕ) (k : Kernel) : Prop where
  typing : (kernel fs).Along (Typing t) k s.typed
  size : 0 ≤ s.nbytes
  asks : ((kernel fs).run k s.before).currentTerm = t ∧
    ((kernel fs).run k s.before).ReadsTerminal s.fd false
  viewed : ((kernel fs).run k s.typed).viewingTerm = t
  resting : (kernel fs).Along (Resting t) ((kernel fs).run k s.entered) s.rest
  back : ((kernel fs).run k s.events).currentTerm = t ∧
    ((kernel fs).run k s.events).waiting ((kernel fs).run k s.events).running =
      some (.terminal (readLimit s.nbytes))

end LineRead

/-- Nothing typed, nothing submitted, nobody reading. -/
structure Emptied (t : ℕ) (k : Kernel) : Prop where
  idx : (k.terminal t).keyboardBufIdx = 0
  cells : ∀ i < keyBuffSize, (k.terminal t).keyboardBuffer i = noke
  enterFlag : (k.terminal t).enterFlag = 0
  readWanted : (k.terminal t).readWanted = 0

variable {s : LineRead}

theorem LineRead.line_length (s : LineRead) (fs : FileSystem) (t : ℕ) (k : Kernel) :
    (s.line fs t k).length ≤ 127 := edits_length _ (Nat.zero_le _)

/-- From a cursor on the screen, no event of the read takes it off. -/
theorem LineRead.Runs.onScreen (hs : s.Runs fs t k) (hin : k.InRange)
    (hidx : (k.terminal t).keyboardBufIdx = 0) (h : OnScreen k) :
    ∀ p, p <+: s.events → OnScreen ((kernel fs).run k p) := by
  have hin₁ := along_inRange (fun _ _ h => h.proper) hin hs.typing
  have ht : t < numTerm := hs.viewed ▸ hin₁.viewing
  have hbacked : Backed t k := ⟨onScreen_iff.mp h,by omega,by omega⟩
  have htyped : ∀ p, p <+: s.typed → Placed screenRegion ((kernel fs).run k p) := fun p hp =>
    (System.Along.always (I := fun k => k.InRange ∧ Backed t k)
      (fun _ _ h hop => ⟨step_inRange fs hop.proper h.1,typing_backed fs ht hop h.1 h.2⟩)
      ⟨hin,hbacked⟩ hs.typing p hp).2.screen
  have hscreen : Placed screenRegion { (kernel fs).run k s.typed with interrupts := false } :=
    (htyped _ List.prefix_rfl).hidden ⟨rfl,fun _ => rfl⟩
  have henter := (enterPress_draws { (kernel fs).run k s.typed with
    interrupts := false }).typingPlaced (whole_screenRegion hin₁.viewing) hscreen
  have hentered : OnScreen ((kernel fs).run k s.entered) := by
    rw [LineRead.entered, System.run_snoc, onScreen_iff]
    exact ⟨henter.cursor,henter.cells⟩
  have hin₂ : ((kernel fs).run k s.entered).InRange := by
    rw [LineRead.entered, System.run_snoc]
    exact step_inRange fs trivial hin₁
  refine System.always_append ?_ ?_
  · intro p hp
    rcases List.prefix_concat_iff.mp hp with rfl | hp
    · exact hentered
    · exact onScreen_iff.mpr (htyped p hp)
  · intro p hp
    exact (System.Along.always (I := fun k => k.InRange ∧ OnScreen k)
      (fun _ _ h hop => ⟨step_inRange fs hop.1 h.1,step_onScreen fs h.1 h.2 hop.2.1⟩)
      ⟨hin₂,hentered⟩ hs.resting p hp).2

end

end GameOfThreads
