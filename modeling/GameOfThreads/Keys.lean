import GameOfThreads.Screen

/-! The keyboard buffer of a terminal: storing, clearing, erasing, submitting a line, and
terminal_read, which is blocked between its entry and the completion of its loop. -/
namespace GameOfThreads
open Machine

/-- A store into `keyboard_buffer`. The member after the 128 bytes of the array is
`keyboard_buf_idx`, which a store one past the end overwrites. -/
def Terminal.storeKey (i : ℕ) (c : UInt8) (t : Terminal) : Terminal :=
  if i < keyBuffSize then { t with keyboardBuffer := Function.update t.keyboardBuffer i c }
  else if i = keyBuffSize then { t with keyboardBufIdx := c.toNat }
  else t

def storeKey (term i : ℕ) (c : UInt8) (k : Kernel) : Kernel :=
  { k.onTerminal term (Terminal.storeKey i c) with keyStores := i :: k.keyStores }

namespace Terminal
def setIdx (n : ℕ) (t : Terminal) : Terminal := { t with keyboardBufIdx := n }
def incIdx (t : Terminal) : Terminal := { t with keyboardBufIdx := (t.keyboardBufIdx+1) % 256 }
def decIdx (t : Terminal) : Terminal := { t with keyboardBufIdx := (t.keyboardBufIdx+255) % 256 }
def setEnterFlag (n : ℕ) (t : Terminal) : Terminal := { t with enterFlag := n }
def setReadWanted (n : ℕ) (t : Terminal) : Terminal := { t with readWanted := n }
end Terminal

def clearKeyBuf (term : ℕ) (k : Kernel) : Kernel :=
  let k := (List.range keyBuffSize).foldl (fun k index => storeKey term index noke k) k
  k.onTerminal term (Terminal.setIdx 0)

/-- A key that puts a character into the buffer and on the screen. -/
def typeKey (c : UInt8) (term : ℕ) (k : Kernel) : Kernel :=
  let k := storeKey term (k.terminal term).keyboardBufIdx c k
  let k := k.onTerminal term Terminal.incIdx
  termPutc c term k

/-- The cursor one cell back, to the end of the row above from the start of a row. -/
def stepBack (t : Terminal) : Terminal :=
  if t.screenX = 0 then { t with screenX := numCols-1, screenY := (t.screenY+255) % 256 }
  else { t with screenX := (t.screenX+255) % 256 }

def backspace (term : ℕ) (k : Kernel) : Kernel :=
  if (k.terminal term).keyboardBufIdx = 0 then k
  else
    let k := k.onTerminal term stepBack
    let current := k.terminal term
    let index := numCols*current.screenY+current.screenX
    let k := { k with video := k.video.storeCell current.termVideoMem index space current.color }
    let k := moveCursor term k
    let k := storeKey term ((k.terminal term).keyboardBufIdx-1) noke k
    k.onTerminal term Terminal.decIdx

/-- Backspace up to its store: the cell before the cursor is blank. -/
def eraseCell (term : ℕ) (k : Kernel) : Kernel :=
  let k := k.onTerminal term stepBack
  let current := k.terminal term
  let index := numCols*current.screenY+current.screenX
  moveCursor term
    { k with video := k.video.storeCell current.termVideoMem index space current.color }

def enter (term : ℕ) (k : Kernel) : Kernel :=
  let k := nextRow term k
  if (k.terminal term).readWanted ≠ 0 then k
  else
    let k := clearKeyBuf term k
    k.onTerminal term (Terminal.setEnterFlag 0)

/-- terminal_read up to its waiting loop; the result is the local `limit`. -/
def terminalReadStart (null : Bool) (nbytes : ℤ) (k : Kernel) : Option ℕ × Kernel :=
  let k := k.onTerminal k.currentTerm (Terminal.setReadWanted 1)
  if null ∨ nbytes < 0 then (none,k)
  else (some (if nbytes < keyBuffSize then u8 nbytes else keyBuffSize),k)

/-- terminal_read after its waiting loop: the bytes stored are those delivered. -/
def terminalReadFinish (limit : ℕ) (k : Kernel) : List UInt8 × Kernel :=
  let current := k.terminal k.currentTerm
  let limit := if limit > current.keyboardBufIdx then current.keyboardBufIdx else limit
  let bytes := (List.range limit).map current.keyboardBuffer
  let k := k.onTerminal k.currentTerm (Terminal.setEnterFlag 0)
  let k := clearKeyBuf k.currentTerm k
  let k := k.onTerminal k.currentTerm (Terminal.setReadWanted 0)
  (bytes,k)

/-! ### What the keyboard buffer routines leave alone -/

/-- `k'` differs from `k` in screens and keyboard state only. -/
structure TerminalsOnly (k k' : Kernel) : Prop where
  rest : k' = { k with
    terminal := k'.terminal, video := k'.video, bootX := k'.bootX, bootY := k'.bootY
    cursorLow := k'.cursorLow, cursorHigh := k'.cursorHigh
    keyStores := k'.keyStores, histCopies := k'.histCopies }
  process : ∀ t, (k'.terminal t).process = (k.terminal t).process

namespace TerminalsOnly

theorem refl (k : Kernel) : TerminalsOnly k k := ⟨rfl,fun _ => rfl⟩

theorem trans {k k' k'' : Kernel} (h : TerminalsOnly k k') (h' : TerminalsOnly k' k'') :
    TerminalsOnly k k'' := by
  refine ⟨?_,fun t => (h'.process t).trans (h.process t)⟩
  rw [h'.rest, h.rest]

end TerminalsOnly

theorem ScreenOnly.terminalsOnly {k k' : Kernel} (h : ScreenOnly k k') : TerminalsOnly k k' := by
  refine ⟨?_,fun t => by rw [h.terminals t]⟩
  rw [h.rest]

theorem TerminalsOnly.screen {k k' k'' : Kernel} (h : TerminalsOnly k k')
    (h' : ScreenOnly k' k'') : TerminalsOnly k k'' := h.trans h'.terminalsOnly

theorem TerminalsOnly.onTerminal {k k' : Kernel} (h : TerminalsOnly k k') {term : ℕ}
    {f : Terminal → Terminal} (hf : ∀ t, (f t).process = t.process) :
    TerminalsOnly k (k'.onTerminal term f) := by
  refine h.trans ⟨rfl,?_⟩
  intro t
  rw [Kernel.onTerminal_terminal]
  split_ifs
  · exact hf _
  · rfl

theorem Terminal.storeKey_process (i : ℕ) (c : UInt8) (t : Terminal) :
    (t.storeKey i c).process = t.process := by
  unfold Terminal.storeKey
  split_ifs <;> rfl

theorem storeKey_terminalsOnly (term i : ℕ) (c : UInt8) (k : Kernel) :
    TerminalsOnly k (storeKey term i c k) :=
  ((TerminalsOnly.refl k).onTerminal (Terminal.storeKey_process i c)).trans ⟨rfl,fun _ => rfl⟩

theorem TerminalsOnly.foldl {α : Type*} {g : Kernel → α → Kernel}
    (h : ∀ k a, TerminalsOnly k (g k a)) (l : List α) (k : Kernel) :
    TerminalsOnly k (l.foldl g k) := by
  induction l generalizing k with
  | nil => exact .refl k
  | cons a l ih => exact (h k a).trans (ih _)

theorem clearKeyBuf_terminalsOnly (term : ℕ) (k : Kernel) :
    TerminalsOnly k (clearKeyBuf term k) := by
  have hloop := TerminalsOnly.foldl (fun k i => storeKey_terminalsOnly term i noke k)
    (List.range keyBuffSize) k
  exact hloop.onTerminal fun _ => rfl

theorem typeKey_terminalsOnly (c : UInt8) (term : ℕ) (k : Kernel) :
    TerminalsOnly k (typeKey c term k) := by
  have hstore := storeKey_terminalsOnly term (k.terminal term).keyboardBufIdx c k
  refine TerminalsOnly.screen ?_ (termPutc_screenOnly _ _ _)
  exact hstore.onTerminal (f := Terminal.incIdx) fun _ => rfl

theorem ScreenOnly.idx {k k' : Kernel} (h : ScreenOnly k k') (t : ℕ) :
    (k'.terminal t).keyboardBufIdx = (k.terminal t).keyboardBufIdx := by rw [h.terminals t]

theorem eraseCell_screenOnly (term : ℕ) (k : Kernel) : ScreenOnly k (eraseCell term k) := by
  refine ScreenOnly.trans ?_ (moveCursor_screenOnly _ _)
  refine ScreenOnly.trans ?_ (screenOnly_video (by simp))
  apply screenOnly_onTerminal
  intro t
  unfold stepBack
  split_ifs <;> rfl

theorem backspace_eq {term : ℕ} {k : Kernel} (h : (k.terminal term).keyboardBufIdx ≠ 0) :
    backspace term k = (storeKey term ((k.terminal term).keyboardBufIdx-1) noke
      (eraseCell term k)).onTerminal term Terminal.decIdx := by
  rw [← (eraseCell_screenOnly term k).idx term]
  simp only [backspace, if_neg h]
  rfl

theorem stepBack_process (t : Terminal) : (stepBack t).process = t.process := by
  unfold stepBack
  split_ifs <;> rfl

theorem backspace_terminalsOnly (term : ℕ) (k : Kernel) :
    TerminalsOnly k (backspace term k) := by
  simp only [backspace]
  split_ifs
  · exact .refl k
  · refine TerminalsOnly.onTerminal ?_ fun _ => rfl
    refine TerminalsOnly.trans ?_ (storeKey_terminalsOnly _ _ _ _)
    refine TerminalsOnly.screen ?_ (moveCursor_screenOnly _ _)
    refine TerminalsOnly.screen ?_ (screenOnly_video (by simp))
    exact (TerminalsOnly.refl k).onTerminal stepBack_process

theorem enter_terminalsOnly (term : ℕ) (k : Kernel) : TerminalsOnly k (enter term k) := by
  have hrow := (nextRow_screenOnly term k).terminalsOnly
  simp only [enter]
  split_ifs
  · exact hrow
  · exact (hrow.trans (clearKeyBuf_terminalsOnly _ _)).onTerminal fun _ => rfl

theorem terminalReadStart_terminalsOnly (null : Bool) (nbytes : ℤ) (k : Kernel) :
    TerminalsOnly k (terminalReadStart null nbytes k).2 := by
  have hflag : TerminalsOnly k (k.onTerminal k.currentTerm (Terminal.setReadWanted 1)) :=
    (TerminalsOnly.refl k).onTerminal fun _ => rfl
  simp only [terminalReadStart]
  split_ifs <;> exact hflag

/-- All steps at the end of a read are on the terminal that it began on. -/
theorem terminalReadFinish_eq (limit : ℕ) (k : Kernel) :
    (terminalReadFinish limit k).2 =
      (clearKeyBuf k.currentTerm (k.onTerminal k.currentTerm (Terminal.setEnterFlag 0))).onTerminal
        k.currentTerm (Terminal.setReadWanted 0) := by
  have hstay : (k.onTerminal k.currentTerm (Terminal.setEnterFlag 0)).currentTerm =
      k.currentTerm := rfl
  have hcurrent : (clearKeyBuf k.currentTerm
      (k.onTerminal k.currentTerm (Terminal.setEnterFlag 0))).currentTerm = k.currentTerm := by
    rw [(clearKeyBuf_terminalsOnly ..).rest]
    rfl
  simp only [terminalReadFinish]
  rw [hstay, hcurrent]

theorem terminalReadFinish_terminalsOnly (limit : ℕ) (k : Kernel) :
    TerminalsOnly k (terminalReadFinish limit k).2 := by
  rw [terminalReadFinish_eq]
  refine TerminalsOnly.onTerminal ?_ fun _ => rfl
  refine TerminalsOnly.trans ?_ (clearKeyBuf_terminalsOnly _ _)
  exact (TerminalsOnly.refl k).onTerminal fun _ => rfl

end GameOfThreads
