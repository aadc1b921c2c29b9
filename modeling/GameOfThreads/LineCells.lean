import GameOfThreads.LineEditing

/-! The cells of the keyboard buffer behind the line. Every key leaves NULs there, so that the
line is all that the buffer holds. -/
namespace GameOfThreads
open Machine

/-- The buffer is NUL from its index on. -/
def Terminal.Tidy (t : Terminal) : Prop :=
  ∀ i, t.keyboardBufIdx ≤ i → i < keyBuffSize → t.keyboardBuffer i = noke

def Kernel.Tidy (k : Kernel) : Prop := ∀ t, (k.terminal t).Tidy

namespace Terminal.Tidy
variable {t : Terminal}

/-- The line, and NULs behind it, are what the buffer holds. -/
theorem cells (h : t.Tidy) {i : ℕ} (hi : i < keyBuffSize) :
    t.keyboardBuffer i = t.input.line.getD i noke := by
  by_cases hlt : i < t.keyboardBufIdx
  · have hline : i < t.input.line.length := by rwa [Terminal.input_line_length]
    rw [List.getD_eq_getElem _ _ hline]
    simp [Terminal.input]
  · have hline : t.input.line.length ≤ i := by
      rw [Terminal.input_line_length]
      omega
    rw [List.getD_eq_default _ _ hline]
    exact h i (by omega) hi

/-- Buffers that hold the same line are the same. -/
theorem same_iff {t' : Terminal} (h : t.Tidy) (h' : t'.Tidy)
    (hle : t.keyboardBufIdx ≤ keyBuffSize) :
    (t'.keyboardBufIdx = t.keyboardBufIdx ∧
      ∀ i < keyBuffSize, t'.keyboardBuffer i = t.keyboardBuffer i) ↔
        t'.input.line = t.input.line := by
  constructor
  · rintro ⟨hidx,hcells⟩
    simp only [Terminal.input, hidx]
    apply List.map_congr_left
    intro i hi
    exact hcells i (by simp at hi; omega)
  · intro hline
    constructor
    · rw [← Terminal.input_line_length, hline, Terminal.input_line_length]
    · intro i hi
      rw [h'.cells hi, hline, h.cells hi]

theorem storeInc (h : t.Tidy) (hidx : t.keyboardBufIdx < keyBuffSize) (c : UInt8) :
    (t.storeKey t.keyboardBufIdx c).incIdx.Tidy := by
  intro i hi hroom
  have hinc : (t.keyboardBufIdx+1) % 256 = t.keyboardBufIdx+1 := by
    unfold keyBuffSize at hidx
    omega
  simp only [storeKey, if_pos hidx, incIdx, hinc] at hi ⊢
  rw [Function.update_of_ne (by omega)]
  exact h i (by omega) hroom

/-- A NUL at the end of the line makes no difference. -/
theorem storeNul (h : t.Tidy) (hidx : t.keyboardBufIdx < keyBuffSize) :
    (t.storeKey t.keyboardBufIdx noke).Tidy := by
  intro i hi hroom
  simp only [storeKey, if_pos hidx] at hi ⊢
  by_cases heq : i = t.keyboardBufIdx
  · rw [heq, Function.update_self]
  · rw [Function.update_of_ne heq]
    exact h i hi hroom

theorem erase (h : t.Tidy) (hidx : t.keyboardBufIdx ≠ 0) (hle : t.keyboardBufIdx ≤ keyBuffSize) :
    (t.storeKey (t.keyboardBufIdx-1) noke).decIdx.Tidy := by
  intro i hi hroom
  have hlast : t.keyboardBufIdx-1 < keyBuffSize := by omega
  have hdec : (t.keyboardBufIdx+255) % 256 = t.keyboardBufIdx-1 := by
    unfold keyBuffSize at hle
    omega
  simp only [storeKey, if_pos hlast, decIdx, hdec] at hi ⊢
  by_cases heq : i = t.keyboardBufIdx-1
  · rw [heq, Function.update_self]
  · rw [Function.update_of_ne heq]
    exact h i (by omega) hroom

end Terminal.Tidy

section
variable {k k' : Kernel}

namespace Kernel.Tidy

theorem onTerminal (h : k.Tidy) {term : ℕ} {f : Terminal → Terminal}
    (hf : (k.terminal term).Tidy → (f (k.terminal term)).Tidy) : (k.onTerminal term f).Tidy := by
  intro t
  rw [Kernel.onTerminal_terminal]
  split_ifs with ht
  · rw [ht]
    exact hf (h term)
  · exact h t

theorem screen (h : k.Tidy) (hk' : ScreenOnly k k') : k'.Tidy := by
  intro t
  rw [hk'.terminals t]
  exact h t

theorem unseen (h : k.Tidy) (hk' : Unseen k k') : k'.Tidy := by
  intro t
  rw [hk'.terminals t]
  exact h t

theorem prints {wiped : ℕ → Prop} (h : k.Tidy) (hk' : Prints wiped k k') : k'.Tidy := by
  induction hk' with
  | same => exact h
  | unseen _ hu ih => exact ih.unseen hu
  | putc c term _ _ ih => exact ih.screen (termPutc_screenOnly c term _)
  | clear term _ _ _ ih => exact ih.screen (termClear_screenOnly term _)

end Kernel.Tidy

/-! ### Keys -/

/-- A character at the end of the line, whatever is done to the screen before the index
moves. -/
theorem storeInc_tidy {term : ℕ} (h : k.Tidy)
    (hidx : (k.terminal term).keyboardBufIdx < keyBuffSize)
    (c : UInt8) (hk' : ScreenOnly (storeKey term (k.terminal term).keyboardBufIdx c k) k') :
    (k'.onTerminal term Terminal.incIdx).Tidy := by
  have hself : (storeKey term (k.terminal term).keyboardBufIdx c k).terminal term =
      (k.terminal term).storeKey (k.terminal term).keyboardBufIdx c :=
    Kernel.onTerminal_terminal_self ..
  intro t
  rw [Kernel.onTerminal_terminal]
  split_ifs with ht
  · rw [ht, hk'.terminals term, hself]
    exact (h term).storeInc hidx c
  · have hother : (storeKey term (k.terminal term).keyboardBufIdx c k).terminal t =
        k.terminal t := (Kernel.onTerminal_terminal ..).trans (if_neg ht)
    rw [hk'.terminals t, hother]
    exact h t

theorem typeKey_tidy (c : UInt8) {term : ℕ} (h : k.Tidy)
    (hidx : (k.terminal term).keyboardBufIdx < keyBuffSize) : (typeKey c term k).Tidy :=
  (storeInc_tidy h hidx c (.refl _)).screen (termPutc_screenOnly ..)

theorem typeKeys_tidy {α : Type*} (c : UInt8) (l : List α) (h : k.Tidy)
    (hidx : (k.terminal k.viewingTerm).keyboardBufIdx+l.length ≤ keyBuffSize) :
    (l.foldl (fun k _ => typeKey c k.viewingTerm k) k).Tidy := by
  induction l generalizing k with
  | nil => exact h
  | cons a l ih =>
    rw [List.length_cons] at hidx
    have hroom : (k.terminal k.viewingTerm).keyboardBufIdx < keyBuffSize := by omega
    have hview := (typeKey_terminalsOnly c k.viewingTerm k).viewingTerm
    refine ih (typeKey_tidy c h hroom) ?_
    rw [hview, typeKey_idx c hroom]
    omega

theorem keyPress_tidy (code : ℕ) (h : k.Tidy) : (keyPress code k).Tidy := by
  simp only [keyPress]
  split_ifs with hcode hroom
  · exact h
  · exact typeKey_tidy _ h (by omega)
  · exact h
  · exact h

theorem tabPress_tidy (h : k.Tidy) : (tabPress k).Tidy := by
  simp only [tabPress]
  split_ifs with hroom
  · exact typeKeys_tidy space (List.range 3) h (by rw [List.length_range]; omega)
  · exact h

theorem backspace_tidy {term : ℕ} (h : k.Tidy)
    (hle : (k.terminal term).keyboardBufIdx ≤ keyBuffSize) : (backspace term k).Tidy := by
  by_cases hzero : (k.terminal term).keyboardBufIdx = 0
  · rw [backspace, if_pos hzero]
    exact h
  · have herase := eraseCell_screenOnly term k
    have htidy := h.screen herase
    have hidx := herase.idx term
    rw [backspace_eq hzero, ← hidx]
    rw [← hidx] at hzero hle
    generalize eraseCell term k = k' at *
    intro t
    rw [Kernel.onTerminal_terminal]
    split_ifs with ht
    · rw [ht]
      have hself : (storeKey term ((k'.terminal term).keyboardBufIdx-1) noke k').terminal term =
          (k'.terminal term).storeKey ((k'.terminal term).keyboardBufIdx-1) noke :=
        Kernel.onTerminal_terminal_self ..
      rw [hself]
      exact (htidy term).erase hzero hle
    · have hother : (storeKey term ((k'.terminal term).keyboardBufIdx-1) noke k').terminal t =
          k'.terminal t := (Kernel.onTerminal_terminal ..).trans (if_neg ht)
      rw [hother]
      exact htidy t

theorem eraseLine_tidy {term : ℕ} (fuel : ℕ) (h : k.Tidy)
    (hle : (k.terminal term).keyboardBufIdx ≤ keyBuffSize) : (eraseLine term fuel k).Tidy := by
  induction fuel generalizing k with
  | zero => exact h
  | succ fuel ih =>
    unfold eraseLine
    split_ifs
    · exact h
    · have hidx := backspace_idx hle
      exact ih (backspace_tidy h hle) (by omega)

theorem recallLine_tidy {term : ℕ} (fuel index : ℕ) (h : k.Tidy)
    (hidx : (k.terminal term).keyboardBufIdx = index) (hfuel : index+fuel ≤ keyBuffSize) :
    (recallLine term fuel index k).Tidy := by
  induction fuel generalizing index k with
  | zero => exact h
  | succ fuel ih =>
    subst hidx
    have hroom : (k.terminal term).keyboardBufIdx < keyBuffSize := by omega
    simp only [recallLine]
    generalize (k.terminal term).historyBuf (k.terminal term).histPtr
      (k.terminal term).keyboardBufIdx = c
    split_ifs with hnul
    · rw [hnul]
      exact h.onTerminal fun htidy => htidy.storeNul hroom
    · have hput := termPutc_screenOnly c term (storeKey term (k.terminal term).keyboardBufIdx c k)
      have hnext := storeInc_tidy h hroom c hput
      have hinput := storeInc_input hroom c hput
      refine ih _ hnext ?_ (by omega)
      rw [← Kernel.input_line_length, hinput, Function.update_self]
      simp [Input.type, Kernel.input_line_length]

theorem terminalHistory_tidy (direction : ℤ) (h : k.Tidy)
    (hle : (k.terminal k.viewingTerm).keyboardBufIdx ≤ keyBuffSize) :
    (terminalHistory direction k).Tidy := by
  simp only [terminalHistory]
  generalize k.viewingTerm = term at *
  split_ifs
  · exact h
  · exact h
  · have hturn : (k.onTerminal term (Terminal.turnHistory direction)).Tidy := by
      apply h.onTerminal
      intro htidy
      unfold Terminal.turnHistory
      split_ifs <;> exact htidy
    have hfull : ((k.onTerminal term (Terminal.turnHistory direction)).terminal
        term).keyboardBufIdx ≤ keyBuffSize := by
      rw [Kernel.onTerminal_terminal_self, Terminal.turnHistory_idx]
      exact hle
    generalize k.onTerminal term (Terminal.turnHistory direction) = k' at *
    have hempty := eraseLine_idx (k'.terminal term).keyboardBufIdx hfull le_rfl
    have herase := eraseLine_tidy (k'.terminal term).keyboardBufIdx hturn hfull
    exact (recallLine_tidy keyBuffSize 0 herase hempty (by omega)).onTerminal id

theorem clearKeyBuf_tidy (term : ℕ) (h : k.Tidy) : (clearKeyBuf term k).Tidy := by
  intro t i hi hroom
  by_cases ht : t = term
  · rw [ht]
    exact clearKeyBuf_cells term k hroom
  · have hloop := foldl_keeps (fun k => Kernel.terminal k t)
      (fun k index => storeKey term index noke k) (List.range keyBuffSize) k fun k index =>
        (Kernel.onTerminal_terminal ..).trans (if_neg ht)
    have hother : (clearKeyBuf term k).terminal t = k.terminal t :=
      ((Kernel.onTerminal_terminal ..).trans (if_neg ht)).trans hloop
    rw [hother] at hi ⊢
    exact h t i hi hroom

theorem enter_tidy (term : ℕ) (h : k.Tidy) : (enter term k).Tidy := by
  have hrow := h.screen (nextRow_screenOnly term k)
  simp only [enter]
  split_ifs
  · exact hrow
  · exact (clearKeyBuf_tidy term hrow).onTerminal id

theorem enterPress_tidy (h : k.Tidy)
    (hidx : (k.terminal k.viewingTerm).keyboardBufIdx < keyBuffSize) : (enterPress k).Tidy := by
  have hflag : (k.onTerminal k.viewingTerm (Terminal.setEnterFlag 1)).Tidy := h.onTerminal id
  have hroom : ((k.onTerminal k.viewingTerm (Terminal.setEnterFlag 1)).terminal
      k.viewingTerm).keyboardBufIdx < keyBuffSize := by
    rw [Kernel.onTerminal_terminal_self]
    exact hidx
  have hend : (endLine k.viewingTerm k).Tidy := storeInc_tidy hflag hroom newline (.refl _)
  rw [enterPress_eq]
  generalize endLine k.viewingTerm k = k' at *
  have hsave : (k'.onTerminal k.viewingTerm
      (Terminal.saveLine (u32 ((k'.terminal k.viewingTerm).keyboardBufIdx-1)))).Tidy :=
    hend.onTerminal id
  simp only [submitLine]
  refine (enter_tidy k.viewingTerm (k := { Kernel.onTerminal k' k.viewingTerm _ with
    histCopies := _ :: k'.histCopies }) hsave).onTerminal ?_
  intro htidy
  unfold Terminal.limitHistory
  split_ifs
  · exact htidy
  · exact htidy

theorem keyboardSwitch_tidy (fs : FileSystem) (cpu : Cpu) {pressed : ℕ} (h : k.Tidy)
    (hcurrent : k.currentTerm < numTerm)
    (hle : (k.terminal k.viewingTerm).keyboardBufIdx ≤ keyBuffSize)
    (henter : pressed = 0x1C → (k.terminal k.viewingTerm).keyboardBufIdx < keyBuffSize) :
    (keyboardSwitch fs cpu pressed k).2.Tidy := by
  have hkeyed := keyboardSwitch_keyed fs cpu pressed k
  generalize keyboardSwitch fs cpu pressed k = r at *
  cases hkeyed with
  | erase _ => exact backspace_tidy h hle
  | enter hpressed => exact enterPress_tidy h (henter hpressed)
  | history _ => exact terminalHistory_tidy _ h hle
  | tab _ => exact tabPress_tidy h
  | char _ => exact keyPress_tidy _ h
  | clear _ => exact h.screen (termClear_screenOnly ..)
  | flags _ hflags => exact h.unseen hflags.unseen
  | switch _ hdest _ =>
    exact h.prints (terminalSwitch_prints (· = _) fs cpu _ hdest hcurrent fun _ _ => rfl)

/-! ### All events -/

theorem terminalReadStart_tidy (null : Bool) (nbytes : ℤ) (h : k.Tidy) :
    (terminalReadStart null nbytes k).2.Tidy := by
  have hwanted : (k.onTerminal k.currentTerm (Terminal.setReadWanted 1)).Tidy := h.onTerminal id
  simp only [terminalReadStart]
  split_ifs <;> exact hwanted

theorem terminalReadFinish_tidy (limit : ℕ) (h : k.Tidy) :
    (terminalReadFinish limit k).2.Tidy := by
  have hflag : (k.onTerminal k.currentTerm (Terminal.setEnterFlag 0)).Tidy := h.onTerminal id
  exact (clearKeyBuf_tidy _ hflag).onTerminal id

theorem read_tidy (fs : FileSystem) (fd : ℤ) (null : Bool) (nbytes : ℤ) (cpu : Cpu) (h : k.Tidy) :
    (read fs fd null nbytes cpu k).2.Tidy := by
  rcases read_cases fs fd null nbytes cpu k with hread | hread
  · exact h.unseen hread.unseen
  · have hstart := terminalReadStart_tidy null nbytes h
    rw [hread]
    rcases terminalRead_cases null nbytes k with hread | ⟨limit,hread⟩
    · exact hstart.unseen hread.unseen
    · rw [hread]
      exact terminalReadFinish_tidy limit hstart

theorem resume_tidy (h : k.Tidy) : (resume k).2.Tidy := by
  rcases resume_cases k with hresume | ⟨limit,hresume⟩
  · exact h.unseen hresume.unseen
  · exact (terminalReadFinish_tidy limit h).unseen hresume.unseen

/-- No event puts anything behind the line of a terminal. -/
theorem step_tidy (fs : FileSystem) {op : Op} (hop : op.Proper) (hin : k.InRange)
    (hfits : KeyFits k op) (h : k.Tidy) : ((kernel fs).next k op).Tidy := by
  have hquiet : op.Quiet → ((kernel fs).next k op).Tidy := fun hquiet =>
    h.prints (quiet_prints fs hop hin hquiet)
  cases op with
  | key pressed cpu =>
    obtain ⟨hle,henter⟩ := hfits pressed cpu rfl
    exact keyboardSwitch_tidy fs cpu (k := { k with interrupts := false }) h hin.current hle henter
  | read fd null nbytes cpu => exact read_tidy fs fd null nbytes cpu h
  | resume => exact resume_tidy h
  | _ => exact hquiet trivial

theorem initial_tidy (pcb : ℕ → PCB) (phys : ℕ → UInt8) : (initial pcb phys).Tidy := by
  refine Kernel.Tidy.prints ?_ (initial_prints pcb phys)
  intro t i _ _
  simp only [blank, setTerminals]
  split_ifs
  · simp only [Terminal.init]
    split_ifs
    rfl
  · rfl

end
end GameOfThreads
