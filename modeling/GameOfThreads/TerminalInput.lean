import GameOfThreads.KeyboardBuffer

/-! The input of a terminal. Keyboard buffer and index make a line, and a press is an edit of
the line: what the kernel does with the keys is a line editor for each terminal, which other
terminals, output and the process calls leave alone. -/
namespace GameOfThreads
open Machine

/-- A row of the history up to its NUL. -/
def Terminal.row (t : Terminal) (r : ℕ) : List UInt8 :=
  ((List.range keyBuffSize).map (t.historyBuf r)).takeWhile (· ≠ noke)

/-- The line so far, the two flags of terminal_read, and the lines that have been saved. -/
structure Input where
  line : List UInt8
  enterFlag : ℕ
  readWanted : ℕ
  history : ℕ → List UInt8

def Terminal.input (t : Terminal) : Input where
  line := (List.range t.keyboardBufIdx).map t.keyboardBuffer
  enterFlag := t.enterFlag
  readWanted := t.readWanted
  history := t.row

/-- The inputs of all terminals. -/
def Kernel.input (k : Kernel) (t : ℕ) : Input := (k.terminal t).input

/-- What a press means: the row that Enter saves to and the one that a history key goes to
are chosen by the registers of the history. -/
inductive Key
  | char (c : UInt8)
  | tab
  | erase
  | enter (row : ℕ)
  | history (row : ℕ)
  | none
  deriving DecidableEq

/-- What a press makes of a line. A saved line may be cut at a NUL, which cannot be typed. -/
def Input.press (i : Input) : Key → Input
  | .char c => if i.line.length < keyBuffSize-1 then { i with line := i.line ++ [c] } else i
  | .tab =>
    if i.line.length+3 < keyBuffSize then { i with line := i.line ++ [space,space,space] } else i
  | .erase => { i with line := i.line.dropLast }
  | .enter row =>
    let i := { i with history := Function.update i.history row (i.line.takeWhile (· ≠ noke)) }
    if i.readWanted ≠ 0 then { i with line := i.line ++ [newline], enterFlag := 1 }
    else { i with line := [], enterFlag := 0 }
  | .history row => { i with line := i.history row }
  | .none => i

/-- The key that a history press is. -/
def Terminal.turn (direction : ℤ) (t : Terminal) : Key :=
  if t.canTurn direction then .history (t.turnHistory direction).histPtr else .none

/-- The key behind a scancode, under the modifiers held. -/
def Kernel.key (k : Kernel) (pressed : ℕ) : Key :=
  let term := k.terminal k.viewingTerm
  if pressed = 0x0E then .erase
  else if pressed = 0x0F then .tab
  else if pressed = 0x1C then .enter term.histFill
  else if pressed = 0x26 ∧ k.ctlFlag ≠ 0 then .none
  else if pressed = 0x48 ∧ k.numFlag = 0 then term.turn (-1)
  else if pressed = 0x50 ∧ k.numFlag = 0 then term.turn 1
  else if pressed < keyBuffSize ∧ getchar pressed k ≠ noke then .char (getchar pressed k)
  else .none

/-! ### One terminal -/

namespace Terminal
variable (t : Terminal)

@[simp] theorem input_line_length : t.input.line.length = t.keyboardBufIdx := by simp [input]

theorem storeKey_beyond {i : ℕ} (hi : i < keyBuffSize) (hidx : t.keyboardBufIdx ≤ i) (c : UInt8) :
    (t.storeKey i c).input = t.input := by
  have hcells : (List.range t.keyboardBufIdx).map (Function.update t.keyboardBuffer i c) =
      (List.range t.keyboardBufIdx).map t.keyboardBuffer := by
    apply List.map_congr_left
    intro j hj
    have hlt := List.mem_range.mp hj
    exact Function.update_of_ne (by omega) ..
  rw [storeKey, if_pos hi]
  simp only [input]
  rw [hcells]
  rfl

/-- A character behind the last one. -/
theorem incIdx_input (h : t.keyboardBufIdx < keyBuffSize) :
    t.incIdx.input =
      { t.input with line := t.input.line ++ [t.keyboardBuffer t.keyboardBufIdx] } := by
  have hidx : (t.keyboardBufIdx+1) % 256 = t.keyboardBufIdx+1 := by
    unfold keyBuffSize at h
    omega
  simp only [incIdx, input, hidx]
  rw [List.range_succ, List.map_append]
  rfl

/-- The last character overwritten and left out. -/
theorem erase_input (h₀ : t.keyboardBufIdx ≠ 0) (h : t.keyboardBufIdx ≤ keyBuffSize) (c : UInt8) :
    (t.storeKey (t.keyboardBufIdx-1) c).decIdx.input =
      { t.input with line := t.input.line.dropLast } := by
  obtain ⟨n,hn⟩ := Nat.exists_eq_succ_of_ne_zero h₀
  have hroom : n < keyBuffSize := by omega
  have hidx : (n.succ+255) % 256 = n := by
    unfold keyBuffSize at hroom
    omega
  have hcells : (List.range n).map (Function.update t.keyboardBuffer n c) =
      (List.range n).map t.keyboardBuffer := by
    apply List.map_congr_left
    intro i hi
    exact Function.update_of_ne (Nat.ne_of_lt (List.mem_range.mp hi)) ..
  simp only [storeKey, hn, Nat.succ_sub_one, if_pos hroom, decIdx, input, hidx, hcells]
  rw [List.range_succ, List.map_append, List.map_singleton, List.dropLast_concat]
  rfl

/-- The saved line is the line before its newline. -/
theorem saveLine_row {n : ℕ} (hn : n < keyBuffSize) :
    (t.saveLine n).row = Function.update t.row t.histFill
      (((List.range n).map t.keyboardBuffer).takeWhile (· ≠ noke)) := by
  funext r
  by_cases hr : r = t.histFill
  · subst hr
    obtain ⟨m,hm⟩ := Nat.exists_eq_add_of_le hn.le
    have hline : (List.range keyBuffSize).map ((t.saveLine n).historyBuf t.histFill) =
        (List.range n).map t.keyboardBuffer ++ List.replicate m noke := by
      rw [hm, List.range_add, List.map_append, List.map_map]
      congr 1
      · apply List.map_congr_left
        intro i hi
        simp [saveLine, List.mem_range.mp hi]
      · refine List.eq_replicate_iff.mpr ⟨by simp,?_⟩
        intro b hb
        obtain ⟨i,hi,rfl⟩ := List.mem_map.mp hb
        have hlt := List.mem_range.mp hi
        have hin : n+i < keyBuffSize := by omega
        simp [saveLine, hin]
    rw [Function.update_self, row, hline, List.takeWhile_append]
    split_ifs with hall
    · have hrest : (List.replicate m noke).takeWhile (· ≠ noke) = [] := by
        rw [List.takeWhile_replicate]
        rfl
      rw [hrest, List.append_nil]
      exact ((List.takeWhile_prefix _).eq_of_length hall).symm
    · rfl
  · rw [Function.update_of_ne hr]
    simp [row, saveLine, hr]

end Terminal

/-! ### Inputs of the kernel -/

section
variable {k k' : Kernel}

theorem Kernel.onTerminal_input (k : Kernel) (term : ℕ) (f : Terminal → Terminal) :
    (k.onTerminal term f).input =
      Function.update k.input term (f (k.terminal term)).input := by
  funext t
  simp only [input, Kernel.onTerminal_terminal]
  by_cases ht : t = term
  · subst ht
    simp
  · rw [if_neg ht, Function.update_of_ne ht]
    rfl

theorem Kernel.onTerminal_input_same (k : Kernel) (term : ℕ) {f : Terminal → Terminal}
    (h : (f (k.terminal term)).input = (k.terminal term).input) :
    (k.onTerminal term f).input = k.input := by
  rw [onTerminal_input, h]
  exact Function.update_eq_self ..

theorem ScreenOnly.input (h : ScreenOnly k k') : k'.input = k.input := by
  funext t
  rw [Kernel.input, Kernel.input, h.terminals t]
  rfl

theorem Unseen.input (h : Unseen k k') : k'.input = k.input := by
  funext t
  rw [Kernel.input, Kernel.input, h.terminals t]
  rfl

/-- Output is not input. -/
theorem Prints.input {wiped : ℕ → Prop} (h : Prints wiped k k') : k'.input = k.input := by
  induction h with
  | same => rfl
  | unseen _ hu ih => rw [hu.input, ih]
  | putc c term _ _ ih => rw [(termPutc_screenOnly c term _).input, ih]
  | clear term _ _ _ ih => rw [(termClear_screenOnly term _).input, ih]

theorem storeKey_update (term i : ℕ) (c : UInt8) (k : Kernel) : (storeKey term i c k).input =
    Function.update k.input term ((k.terminal term).storeKey i c).input :=
  k.onTerminal_input term _

theorem storeKey_input {term i : ℕ} (hi : i < keyBuffSize)
    (hidx : (k.terminal term).keyboardBufIdx ≤ i) (c : UInt8) :
    (storeKey term i c k).input = k.input :=
  k.onTerminal_input_same term ((k.terminal term).storeKey_beyond hi hidx c)

/-- The line away, with everything else as it is. -/
def Input.clear (i : Input) : Input := { i with line := [] }

theorem Terminal.storeKey_clear (t : Terminal) (i : ℕ) (c : UInt8) :
    (t.storeKey i c).input.clear = t.input.clear := by
  unfold Terminal.storeKey
  split_ifs <;> rfl

theorem clearKeyBuf_input (term : ℕ) (k : Kernel) :
    (clearKeyBuf term k).input = Function.update k.input term (k.input term).clear := by
  have hstore : ∀ k i, Function.update (storeKey term i noke k).input term
      ((storeKey term i noke k).input term).clear =
        Function.update k.input term (k.input term).clear := by
    intro k i
    rw [storeKey_update, Function.update_self, Function.update_idem, Terminal.storeKey_clear]
    rfl
  have hloop := foldl_keeps (fun k => Function.update k.input term (k.input term).clear)
    (fun k i => storeKey term i noke k) (List.range keyBuffSize) k hstore
  rw [clearKeyBuf, Kernel.onTerminal_input]
  exact hloop

/-! ### Typing and erasing -/

@[simp] theorem Kernel.input_line_length (k : Kernel) (t : ℕ) :
    (k.input t).line.length = (k.terminal t).keyboardBufIdx := Terminal.input_line_length _

/-- A character behind the line. -/
def Input.type (c : UInt8) (i : Input) : Input := { i with line := i.line ++ [c] }

/-- A character stored at the end of the line, whatever is done to the screen before the
index moves. -/
theorem storeInc_input {term : ℕ} (h : (k.terminal term).keyboardBufIdx < keyBuffSize) (c : UInt8)
    (hk' : ScreenOnly (storeKey term (k.terminal term).keyboardBufIdx c k) k') :
    (k'.onTerminal term Terminal.incIdx).input =
      Function.update k.input term ((k.input term).type c) := by
  have hidx : (k'.terminal term).keyboardBufIdx = (k.terminal term).keyboardBufIdx := by
    rw [hk'.idx, storeKey_idx h]
  have hcell : (k'.terminal term).keyboardBuffer (k.terminal term).keyboardBufIdx = c := by
    rw [hk'.terminals term]
    simp [storeKey, Terminal.storeKey, h]
  have hinput : k'.input = k.input := by rw [hk'.input, storeKey_input h le_rfl]
  rw [Kernel.onTerminal_input, Terminal.incIdx_input _ (by rw [hidx]; exact h), hidx, hcell, hinput]
  have hterm : (k'.terminal term).input = k.input term := congrFun hinput term
  rw [hterm]
  rfl

theorem typeKey_input (c : UInt8) {term : ℕ}
    (h : (k.terminal term).keyboardBufIdx < keyBuffSize) :
    (typeKey c term k).input = Function.update k.input term ((k.input term).type c) := by
  rw [typeKey, (termPutc_screenOnly ..).input]
  exact storeInc_input h c (.refl _)

/-- A key typed several times, while there is room. -/
theorem typeKeys_input {α : Type*} (c : UInt8) (l : List α)
    (h : (k.terminal k.viewingTerm).keyboardBufIdx+l.length ≤ keyBuffSize) :
    (l.foldl (fun k _ => typeKey c k.viewingTerm k) k).input =
      Function.update k.input k.viewingTerm
        { k.input k.viewingTerm with
          line := (k.input k.viewingTerm).line ++ List.replicate l.length c } := by
  induction l generalizing k with
  | nil => simp [Function.update_eq_self]
  | cons a l ih =>
    rw [List.length_cons] at h
    have hroom : (k.terminal k.viewingTerm).keyboardBufIdx < keyBuffSize := by omega
    have hview := (typeKey_terminalsOnly c k.viewingTerm k).viewingTerm
    have hrest := ih (k := typeKey c k.viewingTerm k) (by rw [hview, typeKey_idx c hroom]; omega)
    rw [List.foldl_cons, hrest, hview, typeKey_input c hroom, Function.update_self,
      Function.update_idem]
    simp [Input.type, List.replicate_succ]

theorem keyPress_input {code : ℕ} (hcode : code < keyBuffSize) (hkey : getchar code k ≠ noke) :
    (keyPress code k).input = Function.update k.input k.viewingTerm
      ((k.input k.viewingTerm).press (.char (getchar code k))) := by
  simp only [keyPress, if_pos hcode, Input.press, Kernel.input_line_length, if_neg hkey]
  split_ifs with hroom
  · exact typeKey_input _ (by omega)
  · exact (Function.update_eq_self ..).symm

theorem keyPress_input_none {code : ℕ} (h : ¬(code < keyBuffSize ∧ getchar code k ≠ noke)) :
    keyPress code k = k := by
  simp only [keyPress]
  split_ifs with hcode hroom hkey
  · rfl
  · exact absurd ⟨hcode,hkey⟩ h
  · rfl
  · rfl

theorem tabPress_input (k : Kernel) :
    (tabPress k).input = Function.update k.input k.viewingTerm
      ((k.input k.viewingTerm).press .tab) := by
  simp only [tabPress, Input.press, Kernel.input_line_length]
  split_ifs with hroom
  · exact typeKeys_input space (List.range 3) (by rw [List.length_range]; omega)
  · exact (Function.update_eq_self ..).symm

theorem backspace_input {term : ℕ} (h : (k.terminal term).keyboardBufIdx ≤ keyBuffSize) :
    (backspace term k).input =
      Function.update k.input term ((k.input term).press .erase) := by
  by_cases hzero : (k.terminal term).keyboardBufIdx = 0
  · have hnil : (k.input term).line = [] := by
      rw [← List.length_eq_zero_iff, Kernel.input_line_length, hzero]
    have hpress : (k.input term).press .erase = k.input term := by
      rw [Input.press, hnil, List.dropLast_nil, ← hnil]
    rw [backspace, if_pos hzero, hpress, Function.update_eq_self]
  · have herase := eraseCell_screenOnly term k
    have hterm : ((eraseCell term k).terminal term).input = k.input term :=
      congrFun herase.input term
    have hdrop := ((eraseCell term k).terminal term).erase_input (by rwa [herase.idx])
      (by rwa [herase.idx]) noke
    have hstore : ∀ i, (storeKey term i noke (eraseCell term k)).terminal term =
        ((eraseCell term k).terminal term).storeKey i noke := fun i =>
      Kernel.onTerminal_terminal_self ..
    rw [herase.idx, hterm] at hdrop
    rw [backspace_eq hzero, Kernel.onTerminal_input, storeKey_update, Function.update_idem, hstore,
      hdrop, herase.input]
    rfl

/-- Only the line of one terminal may differ. -/
def OnlyLine (term : ℕ) (k k' : Kernel) : Prop :=
  ∃ line, k'.input = Function.update k.input term { k.input term with line := line }

theorem eraseLine_onlyLine {term : ℕ} (fuel : ℕ)
    (h : (k.terminal term).keyboardBufIdx ≤ keyBuffSize) :
    OnlyLine term k (eraseLine term fuel k) := by
  induction fuel generalizing k with
  | zero => exact ⟨(k.input term).line,(Function.update_eq_self ..).symm⟩
  | succ fuel ih =>
    unfold eraseLine
    split_ifs with hzero
    · exact ⟨(k.input term).line,(Function.update_eq_self ..).symm⟩
    · have hidx := backspace_idx h
      obtain ⟨line,hrest⟩ := ih (k := backspace term k) (by omega)
      refine ⟨line,?_⟩
      rw [hrest, backspace_input h, Function.update_self, Function.update_idem]
      rfl

/-- The loop of the history keys erases the whole line. -/
theorem eraseLine_input {term : ℕ} (h : (k.terminal term).keyboardBufIdx ≤ keyBuffSize) :
    (eraseLine term (k.terminal term).keyboardBufIdx k).input =
      Function.update k.input term (k.input term).clear := by
  obtain ⟨line,hline⟩ := eraseLine_onlyLine (k.terminal term).keyboardBufIdx h
  have hidx := eraseLine_idx (k.terminal term).keyboardBufIdx h le_rfl
  rw [← Kernel.input_line_length, hline, Function.update_self, List.length_eq_zero_iff] at hidx
  subst hidx
  exact hline

/-! ### The history -/

/-- The row of the history that the history keys are at. -/
def Terminal.recalled (t : Terminal) : ℕ → UInt8 := t.historyBuf t.histPtr

theorem Terminal.storeKey_recalled (t : Terminal) (i : ℕ) (c : UInt8) :
    (t.storeKey i c).recalled = t.recalled := by
  unfold Terminal.storeKey
  split_ifs <;> rfl

theorem ScreenOnly.recalled (h : ScreenOnly k k') (t : ℕ) :
    (k'.terminal t).recalled = (k.terminal t).recalled := by
  rw [h.terminals t]
  rfl

theorem backspace_recalled (term : ℕ) (k : Kernel) :
    ((backspace term k).terminal term).recalled = (k.terminal term).recalled := by
  by_cases hzero : (k.terminal term).keyboardBufIdx = 0
  · rw [backspace, if_pos hzero]
  · rw [backspace_eq hzero, Kernel.onTerminal_terminal_self]
    simp only [storeKey, Kernel.onTerminal_terminal_self]
    rw [← (eraseCell_screenOnly term k).recalled term]
    exact Terminal.storeKey_recalled ..

theorem eraseLine_recalled (term fuel : ℕ) (k : Kernel) :
    ((eraseLine term fuel k).terminal term).recalled = (k.terminal term).recalled := by
  induction fuel generalizing k with
  | zero => rfl
  | succ fuel ih =>
    unfold eraseLine
    split_ifs
    · rfl
    · rw [ih, backspace_recalled]

theorem storeInc_recalled {term i : ℕ} {c : UInt8} (h : ScreenOnly (storeKey term i c k) k') :
    ((k'.onTerminal term Terminal.incIdx).terminal term).recalled =
      (k.terminal term).recalled := by
  rw [Kernel.onTerminal_terminal_self, Terminal.incIdx, h.terminals term,
    ← (k.terminal term).storeKey_recalled i c]
  simp [storeKey, Terminal.recalled]

/-- The copying loop appends what is left of the row up to its NUL. -/
theorem recallLine_input {term : ℕ} (fuel index : ℕ)
    (hidx : (k.terminal term).keyboardBufIdx = index) (hfuel : index+fuel ≤ keyBuffSize) :
    (recallLine term fuel index k).input = Function.update k.input term
      { k.input term with
        line := (k.input term).line ++
          ((List.range' index fuel).map (k.terminal term).recalled).takeWhile (· ≠ noke) } := by
  induction fuel generalizing index k with
  | zero =>
    simp only [recallLine, List.range'_zero, List.map_nil, List.takeWhile_nil, List.append_nil]
    exact (Function.update_eq_self ..).symm
  | succ fuel ih =>
    subst hidx
    have hroom : (k.terminal term).keyboardBufIdx < keyBuffSize := by omega
    have hrow : (k.terminal term).historyBuf (k.terminal term).histPtr
        (k.terminal term).keyboardBufIdx =
          (k.terminal term).recalled (k.terminal term).keyboardBufIdx := rfl
    simp only [recallLine, hrow]
    generalize hc : (k.terminal term).recalled (k.terminal term).keyboardBufIdx = c
    rw [List.range'_succ, List.map_cons, hc]
    split_ifs with hnul
    · rw [storeKey_input hroom le_rfl, List.takeWhile_cons_of_neg (by simpa using hnul),
        List.append_nil]
      exact (Function.update_eq_self ..).symm
    · have hput := termPutc_screenOnly c term (storeKey term (k.terminal term).keyboardBufIdx c k)
      have hinput := storeInc_input hroom c hput
      have hrecalled := storeInc_recalled hput
      generalize termPutc c term (storeKey term (k.terminal term).keyboardBufIdx c k) = k₁ at *
      have hidx : ((k₁.onTerminal term Terminal.incIdx).terminal term).keyboardBufIdx =
          (k.terminal term).keyboardBufIdx+1 := by
        rw [← Kernel.input_line_length, hinput, Function.update_self]
        simp [Input.type, Kernel.input_line_length]
      rw [ih _ hidx (by omega), hinput, hrecalled, Function.update_self, Function.update_idem,
        List.takeWhile_cons_of_pos (by simpa using hnul)]
      simp [Input.type]

theorem Terminal.turnHistory_input (direction : ℤ) (t : Terminal) :
    (t.turnHistory direction).input = t.input := by
  unfold Terminal.turnHistory
  split_ifs <;> rfl

theorem terminalHistory_input {direction : ℤ} (hdirection : direction = -1 ∨ direction = 1)
    (h : (k.terminal k.viewingTerm).keyboardBufIdx ≤ keyBuffSize) :
    (terminalHistory direction k).input = Function.update k.input k.viewingTerm
      ((k.input k.viewingTerm).press ((k.terminal k.viewingTerm).turn direction)) := by
  have hvalid : ¬(direction ≠ 1 ∧ direction ≠ -1) := by omega
  simp only [terminalHistory, if_neg hvalid]
  generalize k.viewingTerm = term at *
  by_cases hcan : (k.terminal term).canTurn direction
  · rw [Terminal.turn, if_pos hcan, if_neg (by simpa using hcan)]
    have hturn := k.onTerminal_input_same term
      (Terminal.turnHistory_input direction (k.terminal term))
    have hself : (k.onTerminal term (Terminal.turnHistory direction)).terminal term =
        (k.terminal term).turnHistory direction := Kernel.onTerminal_terminal_self ..
    have hfull : ((k.onTerminal term (Terminal.turnHistory direction)).terminal
        term).keyboardBufIdx ≤ keyBuffSize := by
      rw [hself, Terminal.turnHistory_idx]
      exact h
    generalize k.onTerminal term (Terminal.turnHistory direction) = k₁ at *
    have herase := eraseLine_input hfull
    have hempty := eraseLine_idx (k₁.terminal term).keyboardBufIdx hfull le_rfl
    have hrecalled := eraseLine_recalled term (k₁.terminal term).keyboardBufIdx k₁
    generalize eraseLine term (k₁.terminal term).keyboardBufIdx k₁ = k₂ at *
    have hcopy := recallLine_input keyBuffSize 0 hempty (by omega)
    have hrow : (k.input term).history ((k.terminal term).turnHistory direction).histPtr =
        ((List.range keyBuffSize).map (k₁.terminal term).recalled).takeWhile (· ≠ noke) := by
      have hhistory : k.input term = (k₁.terminal term).input := (congrFun hturn term).symm
      rw [hhistory, ← hself]
      rfl
    rw [Kernel.onTerminal_input_same _ _ rfl, hcopy, herase, Function.update_self,
      Function.update_idem, hturn, hrecalled, ← List.range_eq_range', ← hrow]
    rfl
  · rw [Terminal.turn, if_neg hcan, if_pos (by simpa using hcan)]
    exact (Function.update_eq_self ..).symm

/-! ### The Enter key -/

theorem endLine_input {term : ℕ} (h : (k.terminal term).keyboardBufIdx < keyBuffSize) :
    (endLine term k).input = Function.update k.input term
      { k.input term with line := (k.input term).line ++ [newline], enterFlag := 1 } := by
  have hself : ((k.onTerminal term (Terminal.setEnterFlag 1)).terminal term).keyboardBufIdx =
      (k.terminal term).keyboardBufIdx := by
    rw [Kernel.onTerminal_terminal_self]
    rfl
  simp only [endLine]
  rw [storeInc_input (by rw [hself]; exact h) newline (.refl _), Kernel.onTerminal_input,
    Function.update_self, Function.update_idem]
  rfl

theorem enter_input (term : ℕ) (k : Kernel) :
    (enter term k).input = if (k.input term).readWanted ≠ 0 then k.input else
      Function.update k.input term { (k.input term).clear with enterFlag := 0 } := by
  have hrow := (nextRow_screenOnly term k).input
  have hwanted : ((nextRow term k).terminal term).readWanted = (k.input term).readWanted :=
    congrArg Input.readWanted (congrFun hrow term)
  simp only [enter, hwanted]
  split_ifs
  · exact hrow
  · have hclear := clearKeyBuf_input term (nextRow term k)
    have hterm : ((clearKeyBuf term (nextRow term k)).terminal term).input =
        (k.input term).clear := by
      rw [← hrow]
      exact (congrFun hclear term).trans (Function.update_self ..)
    have hflag : (((clearKeyBuf term (nextRow term k)).terminal term).setEnterFlag 0).input =
        { ((clearKeyBuf term (nextRow term k)).terminal term).input with enterFlag := 0 } := rfl
    rw [Kernel.onTerminal_input, hflag, hterm, hclear, hrow, Function.update_idem]

theorem Terminal.limitHistory_input (t : Terminal) : t.limitHistory.input = t.input := by
  unfold Terminal.limitHistory
  split_ifs <;> rfl

theorem Terminal.saveLine_input (t : Terminal) (h₀ : t.keyboardBufIdx ≠ 0)
    (h : t.keyboardBufIdx ≤ keyBuffSize) :
    (t.saveLine (u32 (t.keyboardBufIdx-1))).input =
      { t.input with
        history := Function.update t.row t.histFill
          (t.input.line.dropLast.takeWhile (· ≠ noke)) } := by
  obtain ⟨n,hn⟩ := Nat.exists_eq_succ_of_ne_zero h₀
  have hroom : n < keyBuffSize := by omega
  have hlength : u32 (t.keyboardBufIdx-1) = n := by
    unfold keyBuffSize at hroom
    rw [hn, u32_eq_toNat (by omega) (by omega)]
    omega
  have hline : t.input.line.dropLast = (List.range n).map t.keyboardBuffer := by
    rw [Terminal.input, hn]
    simp only
    rw [List.range_succ, List.map_append, List.map_singleton, List.dropLast_concat]
  rw [hlength, hline, ← t.saveLine_row hroom]
  rfl

theorem submitLine_input {term : ℕ} (h₀ : (k.terminal term).keyboardBufIdx ≠ 0)
    (h : (k.terminal term).keyboardBufIdx ≤ keyBuffSize) {i : Input}
    (hi : i = { k.input term with
      history := Function.update (k.input term).history (k.terminal term).histFill
        ((k.input term).line.dropLast.takeWhile (· ≠ noke)) }) :
    (submitLine term k).input = Function.update k.input term
      (if i.readWanted ≠ 0 then i else { i.clear with enterFlag := 0 }) := by
  have hsave := ((k.terminal term).saveLine_input h₀ h).trans hi.symm
  simp only [submitLine]
  rw [Kernel.onTerminal_input_same _ _ (Terminal.limitHistory_input _), enter_input]
  generalize u32 ((k.terminal term).keyboardBufIdx-1) = n at *
  have hsaved : Kernel.input { k.onTerminal term (Terminal.saveLine n) with
      histCopies := n :: k.histCopies } = Function.update k.input term i := by
    rw [← hsave]
    exact k.onTerminal_input term (Terminal.saveLine n)
  rw [hsaved, Function.update_self, Function.update_idem]
  split_ifs <;> rfl

theorem endLine_histFill (term : ℕ) (k : Kernel) :
    ((endLine term k).terminal term).histFill = (k.terminal term).histFill := by
  simp only [endLine, storeKey, Kernel.onTerminal_terminal_self, Terminal.incIdx]
  unfold Terminal.storeKey
  split_ifs <;> rfl

theorem enterPress_input (h : (k.terminal k.viewingTerm).keyboardBufIdx < keyBuffSize) :
    (enterPress k).input = Function.update k.input k.viewingTerm
      ((k.input k.viewingTerm).press (.enter (k.terminal k.viewingTerm).histFill)) := by
  have hend := endLine_input h
  have hidx := (endLine_fits h).2
  have hfill := endLine_histFill k.viewingTerm k
  have hterm := congrFun hend k.viewingTerm
  rw [Function.update_self] at hterm
  rw [enterPress_eq, submitLine_input (by omega) (by omega) rfl, hterm, hfill, hend,
    Function.update_idem, List.dropLast_concat]
  rfl

/-! ### The keyboard interrupt -/

/-- The scancodes that keyboard_handler does not treat like characters print nothing. -/
theorem getchar_special {pressed : ℕ} (h : pressed ∈ [0x0E,0x0F,0x1C,0x3A,0x45,0x2A,0x36,0x38,
    0x1D,0x3B,0x3C,0x3D]) (k : Kernel) : getchar pressed k = noke := by
  have htable : ∀ table < 4, ∀ code ∈ [0x0E,0x0F,0x1C,0x3A,0x45,0x2A,0x36,0x38,0x1D,0x3B,0x3C,0x3D],
      (scancode table).getD code noke = noke := by decide +kernel
  unfold getchar
  split_ifs
  · exact htable 0 (by omega) pressed h
  · exact htable 1 (by omega) pressed h
  · exact htable 2 (by omega) pressed h
  · exact htable 3 (by omega) pressed h

theorem key_none {pressed : ℕ} (hcode : pressed ∉ [0x0E,0x0F,0x1C,0x48,0x50])
    (h : ¬(pressed < keyBuffSize ∧ getchar pressed k ≠ noke)) : k.key pressed = .none := by
  simp only [List.mem_cons, List.not_mem_nil, or_false, not_or] at hcode
  simp [Kernel.key, hcode, h]

/-- The history keys only turn to a row of the history. -/
theorem Terminal.turn_ne (direction : ℤ) (t : Terminal) {key : Key} (hnone : key ≠ .none)
    (hrow : ∀ row, key ≠ .history row) : t.turn direction ≠ key := by
  unfold Terminal.turn
  split_ifs
  · exact (hrow _).symm
  · exact hnone.symm

/-- A character comes from the table of the modifiers held. -/
theorem key_getchar {k : Kernel} {pressed : ℕ} {c : UInt8} (h : k.key pressed = .char c) :
    c = getchar pressed k ∧ pressed < keyBuffSize ∧ c ≠ noke := by
  unfold Kernel.key at h
  split_ifs at h
  · exact absurd h (Terminal.turn_ne _ _ nofun nofun)
  · exact absurd h (Terminal.turn_ne _ _ nofun nofun)
  · rename_i hchar
    cases h
    exact ⟨rfl,hchar⟩

theorem press_none (k : Kernel) (term : ℕ) :
    Function.update k.input term ((k.input term).press .none) = k.input :=
  Function.update_eq_self ..

/-- What the kernel does when it goes to key_press. -/
theorem keyPress_key {pressed : ℕ} (hcode : pressed ∉ [0x0E,0x0F,0x1C])
    (hclear : pressed = 0x26 → k.ctlFlag = 0)
    (hhistory : pressed = 0x48 ∨ pressed = 0x50 → k.numFlag ≠ 0) :
    (keyPress pressed k).input = Function.update k.input k.viewingTerm
      ((k.input k.viewingTerm).press (k.key pressed)) := by
  have hkey : k.key pressed = if pressed < keyBuffSize ∧ getchar pressed k ≠ noke then
      .char (getchar pressed k) else .none := by
    simp only [List.mem_cons, List.not_mem_nil, or_false, not_or] at hcode
    have hup : ¬(pressed = 0x48 ∧ k.numFlag = 0) := fun h => hhistory (.inl h.1) h.2
    have hdown : ¬(pressed = 0x50 ∧ k.numFlag = 0) := fun h => hhistory (.inr h.1) h.2
    have hl : ¬(pressed = 0x26 ∧ k.ctlFlag ≠ 0) := fun h => h.2 (hclear h.1)
    simp only [Kernel.key, hcode, if_false, if_neg hup, if_neg hdown, if_neg hl]
  rw [hkey]
  split_ifs with h
  · exact keyPress_input h.1 h.2
  · rw [keyPress_input_none h, press_none]

/-- A press that changes no input is no key of the line editor. -/
theorem flagKey_input {pressed : ℕ} (hinput : k'.input = k.input)
    (hcode : pressed ∉ [0x0E,0x0F,0x1C,0x48,0x50])
    (h : ¬(pressed < keyBuffSize ∧ getchar pressed k ≠ noke)) :
    k'.input = Function.update k.input k.viewingTerm
      ((k.input k.viewingTerm).press (k.key pressed)) := by
  rw [key_none hcode h, press_none, hinput]

theorem functionKey_input (fs : FileSystem) (cpu : Cpu) {pressed dest : ℕ} (hdest : dest < numTerm)
    (hcurrent : k.currentTerm < numTerm) (h : pressed ∈ [0x3B,0x3C,0x3D]) :
    (functionKey fs cpu dest k).2.input = Function.update k.input k.viewingTerm
      ((k.input k.viewingTerm).press (k.key pressed)) := by
  have hinput : (functionKey fs cpu dest k).2.input = k.input := by
    unfold functionKey
    split_ifs
    · exact (terminalSwitch_prints (· = _) fs cpu _ hdest hcurrent fun _ _ => rfl).input
    · rfl
  have hspecial : ∀ code ∈ [0x3B,0x3C,0x3D], code ∈ [0x0E,0x0F,0x1C,0x3A,0x45,0x2A,0x36,0x38,
      0x1D,0x3B,0x3C,0x3D] := by decide
  have hcode : ∀ code ∈ [0x3B,0x3C,0x3D], code ∉ [0x0E,0x0F,0x1C,0x48,0x50] := by decide
  have hnone : getchar pressed k = noke := getchar_special (hspecial pressed h) k
  apply flagKey_input hinput
  · exact hcode pressed h
  · exact fun hchar => hchar.2 hnone

theorem keyboardSwitch_input (fs : FileSystem) (cpu : Cpu) {pressed : ℕ}
    (hcurrent : k.currentTerm < numTerm)
    (hfull : (k.terminal k.viewingTerm).keyboardBufIdx ≤ keyBuffSize)
    (henter : pressed = 0x1C → (k.terminal k.viewingTerm).keyboardBufIdx < keyBuffSize) :
    (keyboardSwitch fs cpu pressed k).2.input = Function.update k.input k.viewingTerm
      ((k.input k.viewingTerm).press (k.key pressed)) := by
  unfold keyboardSwitch
  split
  · exact backspace_input hfull
  · exact tabPress_input k
  · exact enterPress_input (henter rfl)
  all_goals first
    | exact flagKey_input rfl (by decide) fun h => h.2 (getchar_special (by decide) k)
    | exact flagKey_input rfl (by decide) fun h => absurd h.1 (by decide)
    | exact functionKey_input fs cpu (by decide) hcurrent (by decide)
    | skip
  · split_ifs with hctl
    · exact keyPress_key (by decide) (fun _ => hctl) fun h => absurd h (by decide)
    · have hkey : k.key 0x26 = .none := by simp [Kernel.key, hctl]
      rw [hkey, press_none]
      exact (termClear_screenOnly _ k).input
  · split_ifs with hnum
    · have hkey : k.key 0x48 = (k.terminal k.viewingTerm).turn (-1) := by
        simp [Kernel.key, hnum]
      rw [hkey]
      exact terminalHistory_input (.inl rfl) hfull
    · exact keyPress_key (by decide) (fun h => absurd h (by decide)) fun _ => hnum
  · split_ifs with hnum
    · have hkey : k.key 0x50 = (k.terminal k.viewingTerm).turn 1 := by
        simp [Kernel.key, hnum]
      rw [hkey]
      exact terminalHistory_input (.inr rfl) hfull
    · exact keyPress_key (by decide) (fun h => absurd h (by decide)) fun _ => hnum
  · refine keyPress_key ?_ (fun h => absurd h ‹_›) ?_
    · simp only [List.mem_cons, List.not_mem_nil, or_false, not_or]
      exact ⟨‹_›,‹_›,‹_›⟩
    · rintro (h | h)
      · exact absurd h ‹_›
      · exact absurd h ‹_›

/-- A keyboard interrupt edits the line of the terminal in view. -/
theorem keyboardHandler_input (fs : FileSystem) (cpu : Cpu) {pressed : ℕ}
    (hcurrent : k.currentTerm < numTerm)
    (hfull : (k.terminal k.viewingTerm).keyboardBufIdx ≤ keyBuffSize)
    (henter : pressed = 0x1C → (k.terminal k.viewingTerm).keyboardBufIdx < keyBuffSize) :
    (keyboardHandler fs cpu pressed k).2.input = Function.update k.input k.viewingTerm
      ((k.input k.viewingTerm).press (k.key pressed)) :=
  keyboardSwitch_input fs cpu (k := { k with interrupts := false }) hcurrent hfull henter

/-! ### terminal_read -/

/-- The end of terminal_read. -/
def Input.deliver (i : Input) : Input :=
  { i with line := [], enterFlag := 0, readWanted := 0 }

/-- The limit that terminal_read sets for its loop. -/
def readLimit (nbytes : ℤ) : ℕ := if nbytes < keyBuffSize then u8 nbytes else keyBuffSize

theorem readLimit_eq {nbytes : ℤ} (h : 0 ≤ nbytes) : (readLimit nbytes : ℤ) = min nbytes 128 := by
  unfold readLimit keyBuffSize u8
  split_ifs <;> omega

theorem terminalReadStart_input (null : Bool) (nbytes : ℤ) (k : Kernel) :
    (terminalReadStart null nbytes k).2.input =
      Function.update k.input k.currentTerm { k.input k.currentTerm with readWanted := 1 } := by
  simp only [terminalReadStart]
  split_ifs <;> exact k.onTerminal_input k.currentTerm (Terminal.setReadWanted 1)

theorem terminalReadFinish_input (limit : ℕ) (k : Kernel) :
    (terminalReadFinish limit k).2.input =
      Function.update k.input k.currentTerm (k.input k.currentTerm).deliver := by
  have hflag := k.onTerminal_input k.currentTerm (Terminal.setEnterFlag 0)
  have hclear := clearKeyBuf_input k.currentTerm
    (k.onTerminal k.currentTerm (Terminal.setEnterFlag 0))
  have hterm := congrFun hclear k.currentTerm
  rw [Function.update_self] at hterm
  rw [terminalReadFinish_eq]
  generalize clearKeyBuf k.currentTerm (k.onTerminal k.currentTerm (Terminal.setEnterFlag 0)) =
    k' at *
  have hwanted : ((k'.terminal k.currentTerm).setReadWanted 0).input =
      (k.input k.currentTerm).deliver := by
    have hdeliver : ((k'.terminal k.currentTerm).setReadWanted 0).input =
        { k'.input k.currentTerm with readWanted := 0 } := rfl
    rw [hdeliver, hterm, hflag, Function.update_self]
    rfl
  rw [Kernel.onTerminal_input, hclear, Function.update_idem, hflag, Function.update_idem, hwanted]

/-- A read delivers the line as far as its limit reaches. -/
theorem terminalReadFinish_bytes (limit : ℕ) (k : Kernel) :
    (terminalReadFinish limit k).1 = (k.input k.currentTerm).line.take limit := by
  simp only [terminalReadFinish, Kernel.input, Terminal.input]
  rw [← List.map_take, List.take_range]
  split_ifs with h
  · rw [Nat.min_eq_right h.le]
  · rw [Nat.min_eq_left (Nat.le_of_not_gt h)]

/-! ### All events -/

/-- What an input is told: a press, a call of terminal_read with the limit of its loop, if it
comes to that, and a look at the flag by a loop that is waiting. -/
inductive Request
  | press (key : Key)
  | ask (limit : Option ℕ)
  | look (limit : ℕ)

/-- The limit of the loop that is run. -/
def Request.limit : Request → Option ℕ
  | .press _ => none
  | .ask limit => limit
  | .look limit => some limit

def Input.ask (i : Input) : Input := { i with readWanted := 1 }

/-- A loop of terminal_read waits, or ends with what it delivers. -/
def Input.look (limit : ℕ) (i : Input) : Option (List UInt8) × Input :=
  if i.enterFlag = 0 then (none,i) else (some (i.line.take limit),i.deliver)

/-- The input of one terminal by itself. -/
def editor : System Input Request (Option (List UInt8)) where
  step i
    | .press key => (none,i.press key)
    | .ask none => (none,i.ask)
    | .ask (some limit) => i.ask.look limit
    | .look limit => i.look limit

/-- A read through the descriptor gets as far as terminal_read. -/
def Kernel.ReadsTerminal (fd : ℤ) (null : Bool) (k : Kernel) : Prop :=
  ¬(fd < 0 ∨ fd ≥ maxFile ∨ fd = 1 ∨ null) ∧ (k.des fd.toNat).flags ≠ 0 ∧
    (k.des fd.toNat).opTable = .stdOps

instance (fd : ℤ) (null : Bool) (k : Kernel) : Decidable (k.ReadsTerminal fd null) :=
  inferInstanceAs (Decidable (¬(fd < 0 ∨ fd ≥ maxFile ∨ fd = 1 ∨ null) ∧
    (k.des fd.toNat).flags ≠ 0 ∧ (k.des fd.toNat).opTable = .stdOps))

/-- The terminal whose input an event is for, and what it tells it. -/
def Kernel.request (k : Kernel) : Op → Option (ℕ × Request)
  | .key pressed _ => some (k.viewingTerm,.press (k.key pressed))
  | .read fd null nbytes _ =>
    if k.ReadsTerminal fd null then some (k.currentTerm,.ask (terminalReadStart null nbytes k).1)
    else none
  | .resume =>
    match k.waiting k.running with
    | some (.terminal limit) => some (k.currentTerm,.look limit)
    | _ => none
  | _ => none

/-- All inputs after a request to one of them. -/
def serve (inputs : ℕ → Input) : Option (ℕ × Request) → ℕ → Input
  | some (t,r) => Function.update inputs t (editor.next (inputs t) r)
  | none => inputs

/-- What a system call says when its loop has looked at the flag. -/
def delivery : Option (List UInt8) → Reply
  | some bytes => .done bytes.length bytes
  | none => .blocked

theorem look_set {limit : ℕ} (h : (k.terminal k.currentTerm).enterFlag ≠ 0) :
    (k.input k.currentTerm).look limit =
      (some (terminalReadFinish limit k).1,(k.input k.currentTerm).deliver) := by
  have hset : ¬(k.input k.currentTerm).enterFlag = 0 := h
  rw [Input.look, if_neg hset, terminalReadFinish_bytes]

theorem look_clear {limit : ℕ} (h : (k.terminal k.currentTerm).enterFlag = 0) :
    (k.input k.currentTerm).look limit = (none,k.input k.currentTerm) := if_pos h

theorem terminalRead_input (null : Bool) (nbytes : ℤ) (k : Kernel) :
    (terminalRead null nbytes k).2.input = Function.update k.input k.currentTerm
      (editor.next (k.input k.currentTerm) (.ask (terminalReadStart null nbytes k).1)) ∧
    ((terminalReadStart null nbytes k).1 ≠ none → (terminalRead null nbytes k).1 =
      delivery (editor.out (k.input k.currentTerm)
        (.ask (terminalReadStart null nbytes k).1))) := by
  have hstart := terminalReadStart_input null nbytes k
  have hcurrent : (terminalReadStart null nbytes k).2.currentTerm = k.currentTerm := by
    rw [(terminalReadStart_terminalsOnly null nbytes k).rest]
  unfold terminalRead
  generalize terminalReadStart null nbytes k = r at *
  obtain ⟨limit,k'⟩ := r
  dsimp only at hstart hcurrent ⊢
  cases limit with
  | none => exact ⟨hstart,fun h => absurd rfl h⟩
  | some limit =>
    have hask : (k.input k.currentTerm).ask = k'.input k'.currentTerm := by
      rw [hcurrent, hstart, Function.update_self]
      rfl
    have hnext : editor.step (k.input k.currentTerm) (.ask (some limit)) =
        (k'.input k'.currentTerm).look limit := congrArg (Input.look limit) hask
    simp only [System.next, System.out, hnext]
    split_ifs with hflag
    · rw [look_clear hflag, hcurrent, hstart, Function.update_self]
      exact ⟨hstart,fun _ => rfl⟩
    · rw [look_set hflag]
      refine ⟨?_,fun _ => rfl⟩
      rw [terminalReadFinish_input, hcurrent, hstart, Function.update_self, Function.update_idem]

/-- A waiting process whose loop has ended. -/
def freed (k : Kernel) : Kernel := { k with waiting := Function.update k.waiting k.running none }

theorem freed_input (k : Kernel) : (freed k).input = k.input := rfl

theorem resume_clear {limit : ℕ} (h : k.waiting k.running = some (.terminal limit))
    (hflag : (k.terminal k.currentTerm).enterFlag = 0) : resume k = (.blocked,k) := by
  rw [resume]
  simp only [h]
  rw [if_pos hflag]

theorem resume_set {limit : ℕ} (h : k.waiting k.running = some (.terminal limit))
    (hflag : (k.terminal k.currentTerm).enterFlag ≠ 0) :
    resume k = (.done (terminalReadFinish limit k).1.length (terminalReadFinish limit k).1,
      freed (terminalReadFinish limit k).2) := by
  rw [resume]
  simp only [h]
  rw [if_neg hflag]
  rfl

theorem resume_input {limit : ℕ} (h : k.waiting k.running = some (.terminal limit)) :
    (resume k).2.input = Function.update k.input k.currentTerm
      (editor.next (k.input k.currentTerm) (.look limit)) ∧
    (resume k).1 = delivery (editor.out (k.input k.currentTerm) (.look limit)) := by
  have hnext : editor.step (k.input k.currentTerm) (.look limit) =
      (k.input k.currentTerm).look limit := rfl
  simp only [System.next, System.out, hnext]
  by_cases hflag : (k.terminal k.currentTerm).enterFlag = 0
  · rw [resume_clear h hflag, look_clear hflag, Function.update_eq_self]
    exact ⟨rfl,rfl⟩
  · rw [resume_set h hflag, look_set hflag]
    exact ⟨(freed_input _).trans (terminalReadFinish_input limit k),rfl⟩

theorem resume_other (h : ∀ limit, k.waiting k.running ≠ some (.terminal limit)) :
    (resume k).2.input = k.input := by
  simp only [resume]
  cases hwait : k.waiting k.running with
  | none => rfl
  | some w =>
    cases w with
    | terminal limit => exact absurd hwait (h limit)
    | rtc =>
      dsimp only
      cases hread : readRtc k with
      | none => rfl
      | some r =>
        obtain ⟨value,k'⟩ := r
        exact (readRtc_filesOnly hread).aside.unseen.input

theorem read_terminal (fs : FileSystem) {fd : ℤ} {null : Bool} (nbytes : ℤ) (cpu : Cpu)
    (h : k.ReadsTerminal fd null) : read fs fd null nbytes cpu k = terminalRead null nbytes k := by
  obtain ⟨hargs,hflags,htable⟩ := h
  rw [read, if_neg hargs, if_neg hflags, htable]

theorem read_other (fs : FileSystem) {fd : ℤ} {null : Bool} (nbytes : ℤ) (cpu : Cpu)
    (h : ¬k.ReadsTerminal fd null) : (read fs fd null nbytes cpu k).2.input = k.input := by
  unfold read
  split_ifs with hargs hflags
  · rfl
  · rfl
  · cases htable : (k.des fd.toNat).opTable with
    | null => rfl
    | rtcOps =>
      dsimp only
      cases hread : readRtc k with
      | none => rfl
      | some r =>
        obtain ⟨value,k'⟩ := r
        exact (readRtc_filesOnly hread).aside.unseen.input
    | fileOps => exact (fileRead_filesOnly ..).aside.unseen.input
    | directoryOps => exact (directoryRead_filesOnly ..).aside.unseen.input
    | stdOps => exact absurd ⟨hargs,hflags,htable⟩ h

/-- A press finds the index in range, and Enter finds room for its newline. -/
def KeyFits (k : Kernel) (op : Op) : Prop :=
  ∀ pressed cpu, op = .key pressed cpu →
    (k.terminal k.viewingTerm).keyboardBufIdx ≤ keyBuffSize ∧
      (pressed = 0x1C → (k.terminal k.viewingTerm).keyboardBufIdx < keyBuffSize)

/-- Every event is a request to the line editor of one terminal, or none at all. -/
theorem step_input (fs : FileSystem) {op : Op} (hop : op.Proper) (hin : k.InRange)
    (hfits : KeyFits k op) :
    ((kernel fs).next k op).input = serve k.input (k.request op) := by
  have hquiet : op.Quiet → ((kernel fs).next k op).input = k.input := fun hquiet =>
    (quiet_prints fs hop hin hquiet).input
  cases op with
  | key pressed cpu =>
    obtain ⟨hfull,henter⟩ := hfits pressed cpu rfl
    exact keyboardHandler_input fs cpu hin.current hfull henter
  | read fd null nbytes cpu =>
    have hread : ((kernel fs).next k (.read fd null nbytes cpu)).input =
        (read fs fd null nbytes cpu k).2.input := rfl
    rw [hread, Kernel.request]
    split_ifs with h
    · rw [read_terminal fs nbytes cpu h]
      exact (terminalRead_input null nbytes k).1
    · exact read_other fs nbytes cpu h
  | resume =>
    have hresume : ((kernel fs).next k .resume).input = (resume k).2.input := rfl
    rw [hresume, Kernel.request]
    split
    · rename_i limit hwait
      exact (resume_input hwait).1
    · rename_i hwait
      exact resume_other hwait
  | _ => exact hquiet trivial

/-- What a loop that looks at the flag reports is what the line editor delivers. -/
theorem step_delivery (fs : FileSystem) {op : Op} {t limit : ℕ} {r : Request}
    (h : k.request op = some (t,r)) (hr : r.limit = some limit) :
    (kernel fs).out k op = .reply (delivery (editor.out (k.input t) r)) := by
  cases op with
  | key pressed cpu =>
    cases h
    cases hr
  | read fd null nbytes cpu =>
    rw [Kernel.request] at h
    split_ifs at h with hreads
    cases h
    have hout : (kernel fs).out k (.read fd null nbytes cpu) =
        .reply (terminalRead null nbytes k).1 := by
      rw [← read_terminal fs nbytes cpu hreads]
      rfl
    have hloop : (terminalReadStart null nbytes k).1 ≠ none := by
      intro hnone
      rw [Request.limit, hnone] at hr
      cases hr
    rw [hout, (terminalRead_input null nbytes k).2 hloop]
  | resume =>
    rw [Kernel.request] at h
    split at h
    · rename_i hwait
      cases h
      have hout : (kernel fs).out k .resume = .reply (resume k).1 := rfl
      rw [hout, (resume_input hwait).2]
    · cases h
  | _ => cases h

/-! ### Runs -/

/-- The request of a recorded step, if it is one to terminal `t`. -/
def requestTo (t : ℕ) (m : Move Kernel Op Out) : Option Request :=
  match m.pre.request m.event with
  | some (u,r) => if u = t then some r else none
  | none => none

/-- What terminal `t` has been told on a run. -/
def requests (t : ℕ) (h : List (Move Kernel Op Out)) : List Request := h.filterMap (requestTo t)

theorem requestTo_eq_some {t : ℕ} {m : Move Kernel Op Out} {r : Request} :
    requestTo t m = some r ↔ m.pre.request m.event = some (t,r) := by
  unfold requestTo
  cases m.pre.request m.event with
  | none => simp
  | some request =>
    obtain ⟨u,r'⟩ := request
    by_cases hu : u = t
    · simp [hu]
    · simp [hu]

/-- Only the keyboard asks for a press. -/
theorem request_press {op : Op} {t : ℕ} {key : Key} (h : k.request op = some (t,.press key)) :
    ∃ pressed cpu, op = .key pressed cpu ∧ t = k.viewingTerm ∧ key = k.key pressed := by
  cases op with
  | key pressed cpu =>
    cases h
    exact ⟨pressed,cpu,rfl,rfl,rfl⟩
  | read fd null nbytes cpu =>
    rw [Kernel.request] at h
    split_ifs at h
    cases h
  | resume =>
    rw [Kernel.request] at h
    split at h
    · cases h
    · cases h
  | _ => cases h

theorem serve_requestTo (inputs : ℕ → Input) (t : ℕ) (m : Move Kernel Op Out) :
    serve inputs (m.pre.request m.event) t =
      editor.run (inputs t) (requests t [m]) := by
  unfold requests requestTo
  cases hrequest : m.pre.request m.event with
  | none => simp [serve, hrequest]
  | some request =>
    obtain ⟨u,r⟩ := request
    by_cases hu : u = t
    · subst hu
      simp [serve, hrequest]
    · simp [serve, hrequest, hu, Function.update_of_ne (Ne.symm hu)]

end
end GameOfThreads
