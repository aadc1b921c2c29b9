import GameOfThreads.Process

/-! The keyboard interrupt: the scancode tables, line editing, the command history, the
modifier flags, and the switch of the terminal in view. -/
namespace GameOfThreads
open Machine

/-- One scancode table: the four letter rows of a mode, with the keys that print nothing and
the keypad, which is the same in every mode. -/
def scancodeTable (digits top home bottom : String) : List UInt8 :=
  [0,0] ++ text digits ++ [0,0] ++ text top ++ [0,0] ++ text home ++ [0] ++ text bottom ++
    [0] ++ text "*" ++ [0] ++ text " " ++ List.replicate 13 0 ++ text "789-456+1230."

def scancode : ℕ → List UInt8
  | 0 => scancodeTable "1234567890-=" "qwertyuiop[]" "asdfghjkl;'`" "\\zxcvbnm,./"
  | 1 => scancodeTable "1234567890-=" "QWERTYUIOP[]" "ASDFGHJKL;'`" "\\ZXCVBNM,./"
  | 2 => scancodeTable "!@#$%^&*()_+" "QWERTYUIOP\x7b\x7d" "ASDFGHJKL:\"~" "|ZXCVBNM<>?"
  | _ => scancodeTable "!@#$%^&*()_+" "qwertyuiop\x7b\x7d" "asdfghjkl:\"~" "|zxcvbnm<>?"

def getchar (code : ℕ) (k : Kernel) : UInt8 :=
  if k.shiftFlag = 0 ∧ k.capFlag = 0 then (scancode 0).getD code noke
  else if k.shiftFlag = 0 ∧ k.capFlag ≠ 0 then (scancode 1).getD code noke
  else if k.shiftFlag ≠ 0 ∧ k.capFlag = 0 then (scancode 2).getD code noke
  else (scancode 3).getD code noke

def keyPress (code : ℕ) (k : Kernel) : Kernel :=
  if code < keyBuffSize then
    let key := getchar code k
    if (k.terminal k.viewingTerm).keyboardBufIdx < keyBuffSize-1 then
      if key = noke then k else typeKey key k.viewingTerm k
    else k
  else k

def tabPress (k : Kernel) : Kernel :=
  if (k.terminal k.viewingTerm).keyboardBufIdx+3 < keyBuffSize then
    (List.range 3).foldl (fun k _ => typeKey space k.viewingTerm k) k
  else k

/-- The line before the newline over a cleared row of the history. -/
def Terminal.saveLine (n : ℕ) (t : Terminal) : Terminal :=
  let row := fun i => if i < n then t.keyboardBuffer i
    else if i < keyBuffSize then noke else t.historyBuf t.histFill i
  let fill := (t.histFill+1) % maxHist
  { t with
    historyBuf := Function.update t.historyBuf t.histFill row
    histFill := fill
    histPtr := fill
    histChk := 0
    histCnt := (t.histCnt+1) % 256 }

def Terminal.limitHistory (t : Terminal) : Terminal :=
  if t.histCnt > maxHist then { t with histCnt := maxHist } else t

def enterPress (k : Kernel) : Kernel :=
  let term := k.viewingTerm
  let k := k.onTerminal term (Terminal.setEnterFlag 1)
  let k := storeKey term (k.terminal term).keyboardBufIdx newline k
  let k := k.onTerminal term Terminal.incIdx
  let n := u32 ((k.terminal term).keyboardBufIdx-1)
  let k := { k.onTerminal term (Terminal.saveLine n) with histCopies := n :: k.histCopies }
  let k := enter term k
  k.onTerminal term Terminal.limitHistory

/-- The row that a history key goes to from the current one. -/
def Terminal.turnHistory (direction : ℤ) (t : Terminal) : Terminal :=
  if (t.histPtr : ℤ)+direction < 0 then { t with histPtr := u8 ((t.histCnt : ℤ)-1) }
  else if (t.histPtr : ℤ)+direction ≥ t.histCnt then { t with histPtr := 0 }
  else { t with histPtr := u8 (t.histPtr+direction) }

/-- The loop that erases the line, one Backspace for each character left. -/
def eraseLine (term : ℕ) : (fuel : ℕ) → Kernel → Kernel
  | 0,k => k
  | fuel+1,k =>
    if (k.terminal term).keyboardBufIdx = 0 then k else eraseLine term fuel (backspace term k)

/-- The loop that copies a row of the history into the line, up to and with its NUL. -/
def recallLine (term : ℕ) : (fuel index : ℕ) → Kernel → Kernel
  | 0,_,k => k
  | fuel+1,index,k =>
    let c := (k.terminal term).historyBuf (k.terminal term).histPtr index
    let k := storeKey term index c k
    if c = noke then k
    else
      let k := termPutc c term k
      let k := k.onTerminal term Terminal.incIdx
      recallLine term fuel (index+1) k

/-- Whether a history key has somewhere to go. -/
def Terminal.canTurn (direction : ℤ) (t : Terminal) : Bool :=
  ¬((t.histChk = t.histCnt ∧ direction = -1) ∨ t.histCnt = 0 ∨ (t.histChk = 0 ∧ direction = 1))

def Terminal.countTurn (direction : ℤ) (t : Terminal) : Terminal :=
  { t with histChk := u8 (t.histChk-direction) }

def terminalHistory (direction : ℤ) (k : Kernel) : Kernel :=
  let term := k.viewingTerm
  if direction ≠ 1 ∧ direction ≠ -1 then k
  else if !(k.terminal term).canTurn direction then k
  else
    let k := k.onTerminal term (Terminal.turnHistory direction)
    let k := eraseLine term (k.terminal term).keyboardBufIdx k
    let k := recallLine term keyBuffSize 0 k
    k.onTerminal term (Terminal.countTurn direction)

def videoEntry : ℕ := videoAddr ||| 0x02 ||| 0x01 ||| 0x04

def bufferEntry (term : ℕ) : ℕ := (mem32+term*pagesSize) ||| 0x02 ||| 0x01 ||| 0x04

def Video.setPage (term entry : ℕ) (v : Video) : Video :=
  { v with pageTabArrayVideo := Function.update v.pageTabArrayVideo term entry }

def mapTermToBuf (term : ℕ) (v : Video) : Video := v.setPage term (bufferEntry term)

def mapTermToVid (term : ℕ) (v : Video) : Video := v.setPage term videoEntry

/-- The screen of `cur` into its buffer page and that of `dest` onto the adapter. -/
def exchangeScreens (cur dest : ℕ) (k : Kernel) : Video :=
  let v := mapTermToBuf cur k.video
  let v := v.memcpy (k.terminal cur).termVideoMem videoAddr pagesSize
  let v := v.memcpy videoAddr (k.terminal dest).termVideoMem pagesSize
  mapTermToVid dest v

/-- A terminal without programs gets a shell at once: the context of whatever is running goes
into the PCB of the process of `cur`, and execute comes back only when it fails. -/
def terminalSwitch (fs : FileSystem) (cpu : Cpu) (cur dest : ℕ) (k : Kernel) : Out × Kernel :=
  if dest > numTerm ∨ dest = cur then
    (.quiet,printf (text "Error: Invalid Terminal ID\n") k)
  else if k.totalProgs dest = 0 ∧ k.processCnt+1 > maxNumProc then
    (.quiet,printf (text "Error: At process limit\n") k)
  else
    let current := (k.terminal cur).process
    let k := { k with video := exchangeScreens cur dest k, viewingTerm := dest }
    let k := moveCursor dest k
    if k.totalProgs dest = 0 then
      let k := termClear dest k
      let k := k.onPcb current (PCB.saveContext cpu)
      let k := { k with currentTerm := dest }
      match execute fs cpu (some (text "shell")) k with
      | (.started pid entry,k) => (.exec (.started pid entry),k)
      | (r,k) => (.exec r,printf (text "weird error\n") k)
    else (.quiet,k)

/-- The function keys, with Alt held. -/
def functionKey (fs : FileSystem) (cpu : Cpu) (dest : ℕ) (k : Kernel) : Out × Kernel :=
  if k.altFlag ≠ 0 then terminalSwitch fs cpu k.viewingTerm dest k else (.quiet,k)

/-- The switch of keyboard_handler on the scancode. -/
def keyboardSwitch (fs : FileSystem) (cpu : Cpu) (pressed : ℕ) (k : Kernel) : Out × Kernel :=
  match pressed with
  | 0x0E => (.quiet,backspace k.viewingTerm k)
  | 0x0F => (.quiet,tabPress k)
  | 0x1C => (.quiet,enterPress k)
  | 0x3A => (.quiet,{ k with capFlag := ~~~k.capFlag })
  | 0x45 => (.quiet,{ k with numFlag := if k.numFlag = 1 then 0 else 1 })
  | 0x2A => (.quiet,{ k with shiftFlag := 1 })
  | 0xAA => (.quiet,{ k with shiftFlag := 0 })
  | 0x36 => (.quiet,{ k with shiftFlag := 1 })
  | 0xB6 => (.quiet,{ k with shiftFlag := 0 })
  | 0x38 => (.quiet,{ k with altFlag := if k.altFlag = 0 then 1 else k.altFlag })
  | 0xB8 => (.quiet,{ k with altFlag := if k.altFlag = 1 then 0 else k.altFlag })
  | 0x1D => (.quiet,{ k with ctlFlag := if k.ctlFlag = 0 then 1 else k.ctlFlag })
  | 0x9D => (.quiet,{ k with ctlFlag := if k.ctlFlag = 1 then 0 else k.ctlFlag })
  | 0x26 =>
    if k.ctlFlag = 0 then (.quiet,keyPress pressed k) else (.quiet,termClear k.viewingTerm k)
  | 0x3B => functionKey fs cpu 0 k
  | 0x3C => functionKey fs cpu 1 k
  | 0x3D => functionKey fs cpu 2 k
  | 0x48 =>
    if k.numFlag = 0 then (.quiet,terminalHistory (-1) k) else (.quiet,keyPress pressed k)
  | 0x50 =>
    if k.numFlag = 0 then (.quiet,terminalHistory 1 k) else (.quiet,keyPress pressed k)
  | _ => (.quiet,keyPress pressed k)

def keyboardHandler (fs : FileSystem) (cpu : Cpu) (pressed : ℕ) (k : Kernel) : Out × Kernel :=
  let r := keyboardSwitch fs cpu pressed { k with interrupts := false }
  (r.1,{ r.2 with interrupts := true })

/-! ### What a scancode does -/

/-- `k'` differs from `k` in the modifier flags only. -/
structure FlagsOnly (k k' : Kernel) : Prop where
  rest : k' = { k with
    capFlag := k'.capFlag, shiftFlag := k'.shiftFlag, altFlag := k'.altFlag
    ctlFlag := k'.ctlFlag, numFlag := k'.numFlag }

/-- The scancode is that of an arrow key, with Num Lock off. -/
def HistoryKey (pressed : ℕ) (k : Kernel) (direction : ℤ) : Prop :=
  k.numFlag = 0 ∧ (pressed = 0x48 ∧ direction = -1 ∨ pressed = 0x50 ∧ direction = 1)

/-- Neither Backspace nor Enter nor a history key. -/
structure OtherKey (pressed : ℕ) (k : Kernel) : Prop where
  erase : pressed ≠ 0x0E
  enter : pressed ≠ 0x1C
  history : ∀ direction, ¬HistoryKey pressed k direction

inductive Keyed (fs : FileSystem) (cpu : Cpu) (pressed : ℕ) (k : Kernel) : Out × Kernel → Prop
  | erase (h : pressed = 0x0E) : Keyed fs cpu pressed k (.quiet,backspace k.viewingTerm k)
  | enter (h : pressed = 0x1C) : Keyed fs cpu pressed k (.quiet,enterPress k)
  | history {direction} (h : HistoryKey pressed k direction) :
      Keyed fs cpu pressed k (.quiet,terminalHistory direction k)
  | tab (h : OtherKey pressed k) : Keyed fs cpu pressed k (.quiet,tabPress k)
  | char (h : OtherKey pressed k) : Keyed fs cpu pressed k (.quiet,keyPress pressed k)
  | clear (h : OtherKey pressed k) (hclear : pressed = 0x26 ∧ k.ctlFlag ≠ 0) :
      Keyed fs cpu pressed k (.quiet,termClear k.viewingTerm k)
  | flags {k'} (h : OtherKey pressed k) (hk' : FlagsOnly k k') :
      Keyed fs cpu pressed k (.quiet,k')
  | switch {dest} (h : OtherKey pressed k) (hdest : dest < numTerm) (halt : k.altFlag ≠ 0) :
      Keyed fs cpu pressed k (terminalSwitch fs cpu k.viewingTerm dest k)

theorem functionKey_keyed (fs : FileSystem) (cpu : Cpu) {pressed dest : ℕ} {k : Kernel}
    (h : OtherKey pressed k) (hdest : dest < numTerm) :
    Keyed fs cpu pressed k (functionKey fs cpu dest k) := by
  unfold functionKey
  split_ifs with halt
  · exact .switch h hdest halt
  · exact .flags h ⟨rfl⟩

theorem otherKey_of {pressed : ℕ} (k : Kernel)
    (h : pressed ≠ 0x0E ∧ pressed ≠ 0x1C ∧ pressed ≠ 0x48 ∧ pressed ≠ 0x50) :
    OtherKey pressed k := by
  obtain ⟨herase,henter,hup,hdown⟩ := h
  refine ⟨herase,henter,?_⟩
  rintro direction ⟨-,⟨rfl,-⟩ | ⟨rfl,-⟩⟩
  · exact hup rfl
  · exact hdown rfl

theorem otherKey_numLock {pressed : ℕ} {k : Kernel} (hnum : ¬k.numFlag = 0)
    (h : pressed ≠ 0x0E ∧ pressed ≠ 0x1C) : OtherKey pressed k :=
  ⟨h.1,h.2,fun _ hkey => hnum hkey.1⟩

/-- What the switch on the scancode comes to. -/
theorem keyboardSwitch_keyed (fs : FileSystem) (cpu : Cpu) (pressed : ℕ) (k : Kernel) :
    Keyed fs cpu pressed k (keyboardSwitch fs cpu pressed k) := by
  unfold keyboardSwitch
  split
  · exact .erase rfl
  · exact .tab (otherKey_of k (by omega))
  · exact .enter rfl
  all_goals first
    | exact .flags (otherKey_of k (by omega)) ⟨rfl⟩
    | exact functionKey_keyed fs cpu (otherKey_of k (by omega)) (by decide)
    | skip
  · split_ifs with hctl
    · exact .char (otherKey_of k (by omega))
    · exact .clear (otherKey_of k (by omega)) ⟨rfl,hctl⟩
  · split_ifs with hnum
    · exact .history ⟨hnum,.inl ⟨rfl,rfl⟩⟩
    · exact .char (otherKey_numLock hnum (by omega))
  · split_ifs with hnum
    · exact .history ⟨hnum,.inr ⟨rfl,rfl⟩⟩
    · exact .char (otherKey_numLock hnum (by omega))
  · exact .char (otherKey_of k ⟨‹_›,‹_›,‹_›,‹_›⟩)

/-! ### What line editing leaves alone -/

theorem keyPress_terminalsOnly (code : ℕ) (k : Kernel) : TerminalsOnly k (keyPress code k) := by
  simp only [keyPress]
  split_ifs
  · exact .refl k
  · exact typeKey_terminalsOnly _ _ _
  · exact .refl k
  · exact .refl k

theorem tabPress_terminalsOnly (k : Kernel) : TerminalsOnly k (tabPress k) := by
  unfold tabPress
  split_ifs
  · exact TerminalsOnly.foldl (fun k _ => typeKey_terminalsOnly _ _ _) _ k
  · exact .refl k

theorem Terminal.limitHistory_process (t : Terminal) : t.limitHistory.process = t.process := by
  unfold Terminal.limitHistory
  split_ifs <;> rfl

theorem Terminal.limitHistory_cursor (t : Terminal) :
    t.limitHistory.screenX = t.screenX ∧ t.limitHistory.screenY = t.screenY := by
  unfold Terminal.limitHistory
  split_ifs <;> exact ⟨rfl,rfl⟩

theorem TerminalsOnly.histCopies {k k' : Kernel} (h : TerminalsOnly k k') (copies : List ℕ) :
    TerminalsOnly k { k' with histCopies := copies } := h.trans ⟨rfl,fun _ => rfl⟩

theorem enterPress_terminalsOnly (k : Kernel) : TerminalsOnly k (enterPress k) := by
  simp only [enterPress]
  refine TerminalsOnly.onTerminal ?_ Terminal.limitHistory_process
  refine TerminalsOnly.trans ?_ (enter_terminalsOnly _ _)
  refine TerminalsOnly.histCopies ?_ _
  refine TerminalsOnly.onTerminal ?_ fun _ => rfl
  refine TerminalsOnly.onTerminal ?_ fun _ => rfl
  refine TerminalsOnly.trans ?_ (storeKey_terminalsOnly _ _ _ _)
  exact (TerminalsOnly.refl k).onTerminal fun _ => rfl

theorem Terminal.turnHistory_process (direction : ℤ) (t : Terminal) :
    (t.turnHistory direction).process = t.process := by
  unfold Terminal.turnHistory
  split_ifs <;> rfl

theorem eraseLine_terminalsOnly (term fuel : ℕ) (k : Kernel) :
    TerminalsOnly k (eraseLine term fuel k) := by
  induction fuel generalizing k with
  | zero => exact .refl k
  | succ fuel ih =>
    unfold eraseLine
    split_ifs
    · exact .refl k
    · exact (backspace_terminalsOnly term k).trans (ih _)

theorem recallLine_terminalsOnly (term fuel index : ℕ) (k : Kernel) :
    TerminalsOnly k (recallLine term fuel index k) := by
  induction fuel generalizing index k with
  | zero => exact .refl k
  | succ fuel ih =>
    simp only [recallLine]
    split_ifs
    · exact storeKey_terminalsOnly _ _ _ _
    · refine TerminalsOnly.trans ?_ (ih _ _)
      refine TerminalsOnly.onTerminal ?_ fun _ => rfl
      exact (storeKey_terminalsOnly _ _ _ _).screen (termPutc_screenOnly _ _ _)

theorem terminalHistory_terminalsOnly (direction : ℤ) (k : Kernel) :
    TerminalsOnly k (terminalHistory direction k) := by
  simp only [terminalHistory]
  split_ifs
  · exact .refl k
  · exact .refl k
  · refine TerminalsOnly.onTerminal ?_ fun _ => rfl
    refine TerminalsOnly.trans ?_ (recallLine_terminalsOnly _ _ _ _)
    refine TerminalsOnly.trans ?_ (eraseLine_terminalsOnly _ _ _)
    exact (TerminalsOnly.refl k).onTerminal (Terminal.turnHistory_process direction)

end GameOfThreads
