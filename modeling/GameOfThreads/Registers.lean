import GameOfThreads.TerminalInput

/-! The registers of a terminal that typing leaves alone: those of the history, which Enter and
the history keys move, and the flag that terminal_read raises and lowers. -/
namespace GameOfThreads
open Machine

structure Registers where
  ptr : ℕ
  chk : ℕ
  fill : ℕ
  cnt : ℕ
  wanted : ℕ

def Terminal.registers (t : Terminal) : Registers :=
  ⟨t.histPtr,t.histChk,t.histFill,t.histCnt,t.readWanted⟩

def Kernel.registers (k : Kernel) (t : ℕ) : Registers := (k.terminal t).registers

namespace Registers

/-- Enter goes to the next row, and the history keys start from there. -/
def save (r : Registers) : Registers :=
  { r with
    ptr := (r.fill+1) % maxHist
    chk := 0
    fill := (r.fill+1) % maxHist
    cnt := (r.cnt+1) % 256 }

def limit (r : Registers) : Registers :=
  { r with cnt := if r.cnt > maxHist then maxHist else r.cnt }

/-- A history key goes to the row before or behind, with a wrap at the rows in use. -/
def turn (direction : ℤ) (r : Registers) : Registers :=
  { r with
    ptr := if (r.ptr : ℤ)+direction < 0 then u8 ((r.cnt : ℤ)-1)
      else if (r.ptr : ℤ)+direction ≥ r.cnt then 0
      else u8 (r.ptr+direction) }

def count (direction : ℤ) (r : Registers) : Registers :=
  { r with chk := u8 (r.chk-direction) }

end Registers

namespace Terminal
variable (t : Terminal)

theorem saveLine_registers (n : ℕ) : (t.saveLine n).registers = t.registers.save := rfl

theorem limitHistory_registers : t.limitHistory.registers = t.registers.limit := by
  have hset : ∀ cnt, (if t.histCnt > maxHist then maxHist else t.histCnt) = cnt →
      t.registers.limit = { t.registers with cnt := cnt } := by
    rintro cnt rfl
    rfl
  unfold limitHistory
  split_ifs with h
  · exact (hset maxHist (if_pos h)).symm
  · exact (hset t.histCnt (if_neg h)).symm

theorem turnHistory_registers (direction : ℤ) :
    (t.turnHistory direction).registers = t.registers.turn direction := by
  have hset : ∀ ptr, (if (t.histPtr : ℤ)+direction < 0 then u8 ((t.histCnt : ℤ)-1)
      else if (t.histPtr : ℤ)+direction ≥ t.histCnt then 0 else u8 (t.histPtr+direction)) = ptr →
      t.registers.turn direction = { t.registers with ptr := ptr } := by
    rintro ptr rfl
    rfl
  unfold turnHistory
  split_ifs with hlow hhigh
  · exact (hset _ (if_pos hlow)).symm
  · exact (hset 0 ((if_neg hlow).trans (if_pos hhigh))).symm
  · exact (hset _ ((if_neg hlow).trans (if_neg hhigh))).symm

theorem countTurn_registers (direction : ℤ) :
    (t.countTurn direction).registers = t.registers.count direction := rfl

/-- Where a history key leaves the registers. -/
def turned (direction : ℤ) : Registers :=
  if t.canTurn direction then (t.registers.turn direction).count direction else t.registers

end Terminal

section
variable {k k' : Kernel}

theorem onTerminal_registers (k : Kernel) (term : ℕ) (f : Terminal → Terminal) :
    (k.onTerminal term f).registers =
      Function.update k.registers term (f (k.terminal term)).registers := by
  funext t
  simp only [Kernel.registers, Kernel.onTerminal_terminal]
  by_cases ht : t = term
  · subst ht
    simp
  · rw [if_neg ht, Function.update_of_ne ht]
    rfl

theorem onTerminal_registers_same (k : Kernel) (term : ℕ) {f : Terminal → Terminal}
    (hf : ∀ t : Terminal, (f t).registers = t.registers) :
    (k.onTerminal term f).registers = k.registers := by
  rw [onTerminal_registers, hf]
  exact Function.update_eq_self ..

theorem ScreenOnly.registers (h : ScreenOnly k k') : k'.registers = k.registers := by
  funext t
  rw [Kernel.registers, h.terminals t]
  rfl

theorem Unseen.registers (h : Unseen k k') : k'.registers = k.registers := by
  funext t
  rw [Kernel.registers, h.terminals t]
  rfl

theorem Prints.registers {wiped : ℕ → Prop} (h : Prints wiped k k') :
    k'.registers = k.registers := by
  induction h with
  | same => rfl
  | unseen _ hu ih => rw [hu.registers, ih]
  | putc c term _ _ ih => rw [(termPutc_screenOnly c term _).registers, ih]
  | clear term _ _ _ ih => rw [(termClear_screenOnly term _).registers, ih]

/-! ### Typing -/

variable (k)

theorem storeKey_registers (term i : ℕ) (c : UInt8) :
    (storeKey term i c k).registers = k.registers := by
  have hstore : ∀ t : Terminal, (t.storeKey i c).registers = t.registers := by
    intro t
    unfold Terminal.storeKey
    split_ifs <;> rfl
  exact onTerminal_registers_same k term hstore

theorem clearKeyBuf_registers (term : ℕ) : (clearKeyBuf term k).registers = k.registers := by
  have hloop := foldl_keeps Kernel.registers (fun k i => storeKey term i noke k)
    (List.range keyBuffSize) k fun k i => storeKey_registers k term i noke
  exact (onTerminal_registers_same _ term (f := Terminal.setIdx 0) fun _ => rfl).trans hloop

theorem typeKey_registers (c : UInt8) (term : ℕ) :
    (typeKey c term k).registers = k.registers := by
  simp only [typeKey]
  rw [(termPutc_screenOnly ..).registers,
    onTerminal_registers_same _ _ (f := Terminal.incIdx) fun _ => rfl, storeKey_registers]

theorem backspace_registers (term : ℕ) : (backspace term k).registers = k.registers := by
  by_cases hzero : (k.terminal term).keyboardBufIdx = 0
  · rw [backspace, if_pos hzero]
  · rw [backspace_eq hzero, onTerminal_registers_same _ _ (f := Terminal.decIdx) fun _ => rfl,
      storeKey_registers, (eraseCell_screenOnly term k).registers]

theorem enter_registers (term : ℕ) : (enter term k).registers = k.registers := by
  have hrow := (nextRow_screenOnly term k).registers
  simp only [enter]
  split_ifs
  · exact hrow
  · rw [onTerminal_registers_same _ _ (f := Terminal.setEnterFlag 0) fun _ => rfl,
      clearKeyBuf_registers, hrow]

theorem keyPress_registers (code : ℕ) : (keyPress code k).registers = k.registers := by
  simp only [keyPress]
  split_ifs
  · rfl
  · exact typeKey_registers ..
  · rfl
  · rfl

theorem tabPress_registers : (tabPress k).registers = k.registers := by
  simp only [tabPress]
  split_ifs
  · exact foldl_keeps Kernel.registers _ _ k fun k _ => typeKey_registers k _ _
  · rfl

theorem eraseLine_registers (term fuel : ℕ) :
    (eraseLine term fuel k).registers = k.registers := by
  induction fuel generalizing k with
  | zero => rfl
  | succ fuel ih =>
    unfold eraseLine
    split_ifs
    · rfl
    · rw [ih, backspace_registers]

theorem recallLine_registers (term fuel index : ℕ) :
    (recallLine term fuel index k).registers = k.registers := by
  induction fuel generalizing index k with
  | zero => rfl
  | succ fuel ih =>
    simp only [recallLine]
    split_ifs
    · exact storeKey_registers ..
    · rw [ih, onTerminal_registers_same _ _ (f := Terminal.incIdx) fun _ => rfl,
        (termPutc_screenOnly ..).registers, storeKey_registers]

theorem endLine_registers (term : ℕ) : (endLine term k).registers = k.registers := by
  simp only [endLine]
  rw [onTerminal_registers_same _ _ (f := Terminal.incIdx) fun _ => rfl, storeKey_registers,
    onTerminal_registers_same _ _ (f := Terminal.setEnterFlag 1) fun _ => rfl]

/-! ### The history -/

theorem enterPress_registers : (enterPress k).registers =
    Function.update k.registers k.viewingTerm (k.registers k.viewingTerm).save.limit := by
  have hend := endLine_registers k k.viewingTerm
  rw [enterPress_eq]
  generalize endLine k.viewingTerm k = k' at *
  simp only [submitLine]
  generalize u32 ((k'.terminal k.viewingTerm).keyboardBufIdx-1) = n
  have henter := enter_registers { k'.onTerminal k.viewingTerm (Terminal.saveLine n) with
    histCopies := n :: k'.histCopies } k.viewingTerm
  have hsave : Kernel.registers { k'.onTerminal k.viewingTerm (Terminal.saveLine n) with
      histCopies := n :: k'.histCopies } = Function.update k.registers k.viewingTerm
        ((k'.terminal k.viewingTerm).saveLine n).registers := by
    rw [← hend]
    exact onTerminal_registers k' k.viewingTerm (Terminal.saveLine n)
  have hterm := congrFun (henter.trans hsave) k.viewingTerm
  rw [Function.update_self] at hterm
  have hold : (k'.terminal k.viewingTerm).registers = k.registers k.viewingTerm :=
    congrFun hend k.viewingTerm
  rw [onTerminal_registers, Terminal.limitHistory_registers, henter, hsave, Function.update_idem]
  rw [← hold, ← Terminal.saveLine_registers _ n, ← hterm]
  rfl

theorem terminalHistory_registers {direction : ℤ} (h : direction = -1 ∨ direction = 1) :
    (terminalHistory direction k).registers = Function.update k.registers k.viewingTerm
      ((k.terminal k.viewingTerm).turned direction) := by
  have hvalid : ¬(direction ≠ 1 ∧ direction ≠ -1) := by omega
  simp only [terminalHistory, if_neg hvalid]
  generalize k.viewingTerm = term
  by_cases hcan : (k.terminal term).canTurn direction
  · rw [Terminal.turned, if_pos hcan, if_neg (by simpa using hcan)]
    have hturn := onTerminal_registers k term (Terminal.turnHistory direction)
    generalize k.onTerminal term (Terminal.turnHistory direction) = k₁ at *
    have hlines := (recallLine_registers (eraseLine term (k₁.terminal term).keyboardBufIdx k₁)
      term keyBuffSize 0).trans (eraseLine_registers k₁ term _)
    generalize recallLine term keyBuffSize 0
      (eraseLine term (k₁.terminal term).keyboardBufIdx k₁) = k₂ at *
    have hterm := congrFun (hlines.trans hturn) term
    rw [Function.update_self] at hterm
    rw [onTerminal_registers, Terminal.countTurn_registers, hlines, hturn, Function.update_idem,
      ← Terminal.turnHistory_registers, ← hterm]
    rfl
  · rw [Terminal.turned, if_neg hcan, if_pos (by simpa using hcan)]
    exact (Function.update_eq_self ..).symm

/-! ### terminal_read -/

theorem terminalReadStart_registers (null : Bool) (nbytes : ℤ) :
    (terminalReadStart null nbytes k).2.registers =
      Function.update k.registers k.currentTerm { k.registers k.currentTerm with wanted := 1 } := by
  have hwanted := onTerminal_registers k k.currentTerm (Terminal.setReadWanted 1)
  simp only [terminalReadStart]
  split_ifs <;> exact hwanted

theorem terminalReadFinish_registers (limit : ℕ) :
    (terminalReadFinish limit k).2.registers =
      Function.update k.registers k.currentTerm { k.registers k.currentTerm with wanted := 0 } := by
  have hflag := onTerminal_registers_same k k.currentTerm (f := Terminal.setEnterFlag 0)
    fun _ => rfl
  have hclear := (clearKeyBuf_registers (k.onTerminal k.currentTerm (Terminal.setEnterFlag 0))
    k.currentTerm).trans hflag
  rw [terminalReadFinish_eq]
  generalize clearKeyBuf k.currentTerm (k.onTerminal k.currentTerm (Terminal.setEnterFlag 0)) =
    k' at *
  have hterm : (k'.terminal k.currentTerm).registers = k.registers k.currentTerm :=
    congrFun hclear k.currentTerm
  have hwanted : ((k'.terminal k.currentTerm).setReadWanted 0).registers =
      { (k'.terminal k.currentTerm).registers with wanted := 0 } := rfl
  rw [onTerminal_registers, hclear, hwanted, hterm]

/-- What a press does to the registers. -/
theorem keyboardSwitch_registers (fs : FileSystem) (cpu : Cpu) (pressed : ℕ)
    (hcurrent : k.currentTerm < numTerm) : (keyboardSwitch fs cpu pressed k).2.registers =
      Function.update k.registers k.viewingTerm
        (if pressed = 0x1C then (k.registers k.viewingTerm).save.limit
        else if k.numFlag = 0 ∧ pressed = 0x48 then (k.terminal k.viewingTerm).turned (-1)
        else if k.numFlag = 0 ∧ pressed = 0x50 then (k.terminal k.viewingTerm).turned 1
        else k.registers k.viewingTerm) := by
  have hother : OtherKey pressed k ∨ pressed = 0x0E → k.registers = Function.update k.registers
      k.viewingTerm (if pressed = 0x1C then (k.registers k.viewingTerm).save.limit
        else if k.numFlag = 0 ∧ pressed = 0x48 then (k.terminal k.viewingTerm).turned (-1)
        else if k.numFlag = 0 ∧ pressed = 0x50 then (k.terminal k.viewingTerm).turned 1
        else k.registers k.viewingTerm) := by
    intro h
    have hnot : pressed ≠ 0x1C ∧ ¬(k.numFlag = 0 ∧ pressed = 0x48) ∧
        ¬(k.numFlag = 0 ∧ pressed = 0x50) := by
      rcases h with h | rfl
      · exact ⟨h.enter,fun hup => h.history (-1) ⟨hup.1,.inl ⟨hup.2,rfl⟩⟩,
          fun hdown => h.history 1 ⟨hdown.1,.inr ⟨hdown.2,rfl⟩⟩⟩
      · exact ⟨by decide,by simp,by simp⟩
    rw [if_neg hnot.1, if_neg hnot.2.1, if_neg hnot.2.2]
    exact (Function.update_eq_self ..).symm
  have hkeyed := keyboardSwitch_keyed fs cpu pressed k
  generalize keyboardSwitch fs cpu pressed k = r at *
  cases hkeyed with
  | erase hpressed => exact (backspace_registers ..).trans (hother (.inr hpressed))
  | enter hpressed =>
    rw [if_pos hpressed]
    exact enterPress_registers k
  | history hkey =>
    obtain ⟨hnum,⟨rfl,rfl⟩ | ⟨rfl,rfl⟩⟩ := hkey
    · rw [if_neg (by decide), if_pos ⟨hnum,rfl⟩]
      exact terminalHistory_registers k (.inl rfl)
    · rw [if_neg (by decide), if_neg (by simp), if_pos ⟨hnum,rfl⟩]
      exact terminalHistory_registers k (.inr rfl)
  | tab h => exact (tabPress_registers k).trans (hother (.inl h))
  | char h => exact (keyPress_registers ..).trans (hother (.inl h))
  | clear h => exact (termClear_screenOnly ..).registers.trans (hother (.inl h))
  | flags h hflags => exact hflags.unseen.registers.trans (hother (.inl h))
  | switch h hdest _ =>
    apply Eq.trans ?_ (hother (.inl h))
    exact (terminalSwitch_prints (· = _) fs cpu _ hdest hcurrent fun _ _ => rfl).registers

end
end GameOfThreads
