import GameOfThreads.Display

/-! The keyboard buffer of a terminal and its history. Every routine keeps its stores within
the 128 bytes of the buffer, except for the Enter key, which does not look whether a
newline still fits. -/
namespace GameOfThreads
open Machine

/-- No index into a keyboard buffer is past its end. -/
def Kernel.Filled (k : Kernel) : Prop := ∀ t, (k.terminal t).keyboardBufIdx ≤ keyBuffSize

/-- `k'` comes from `k` by stores into keyboard buffers and histories that fit. -/
structure Fits (k k' : Kernel) : Prop where
  filled : k.Filled → k'.Filled
  stores : ∀ i ∈ k'.keyStores, i < keyBuffSize ∨ i ∈ k.keyStores
  copies : ∀ n ∈ k'.histCopies, n ≤ keyBuffSize ∨ n ∈ k.histCopies
  kept : ∀ i ∈ k.keyStores, i ∈ k'.keyStores

namespace Fits
variable {k k' k'' : Kernel}

theorem refl (k : Kernel) : Fits k k := ⟨id,fun _ => .inr,fun _ => .inr,fun _ => id⟩

theorem trans (h : Fits k k') (h' : Fits k' k'') : Fits k k'' where
  filled := h'.filled ∘ h.filled
  stores i hi := (h'.stores i hi).elim .inl (h.stores i)
  copies n hn := (h'.copies n hn).elim .inl (h.copies n)
  kept i hi := h'.kept i (h.kept i hi)

theorem of_same (hidx : ∀ t, (k'.terminal t).keyboardBufIdx = (k.terminal t).keyboardBufIdx)
    (hstores : k'.keyStores = k.keyStores) (hcopies : k'.histCopies = k.histCopies) :
    Fits k k' where
  filled h t := by
    rw [hidx]
    exact h t
  stores i hi := .inr (hstores ▸ hi)
  copies n hn := .inr (hcopies ▸ hn)
  kept i hi := hstores ▸ hi

/-- A change of one terminal that leaves its index in range. -/
theorem onTerminal {term : ℕ} {f : Terminal → Terminal}
    (hf : (k.terminal term).keyboardBufIdx ≤ keyBuffSize →
      (f (k.terminal term)).keyboardBufIdx ≤ keyBuffSize) : Fits k (k.onTerminal term f) where
  filled h t := by
    rw [Kernel.onTerminal_terminal]
    split_ifs with ht
    · subst ht
      exact hf (h t)
    · exact h t
  stores _ := .inr
  copies _ := .inr
  kept _ := id

end Fits

theorem Unseen.fits {k k' : Kernel} (h : Unseen k k') : Fits k k' :=
  .of_same (fun t => by rw [h.terminals t]) h.keyStores h.histCopies

theorem ScreenOnly.fits {k k' : Kernel} (h : ScreenOnly k k') : Fits k k' :=
  .of_same h.idx (by rw [h.rest]) (by rw [h.rest])

theorem Prints.fits {wiped : ℕ → Prop} {k k' : Kernel} (h : Prints wiped k k') : Fits k k' := by
  induction h with
  | same => exact .refl k
  | unseen _ hu ih => exact ih.trans hu.fits
  | putc c term _ _ ih => exact ih.trans (termPutc_screenOnly c term _).fits
  | clear term _ _ _ ih => exact ih.trans (termClear_screenOnly term _).fits

/-! ### Storing and clearing -/

theorem storeKey_idx {i : ℕ} (hi : i < keyBuffSize) (term : ℕ) (c : UInt8) (k : Kernel) (t : ℕ) :
    ((storeKey term i c k).terminal t).keyboardBufIdx = (k.terminal t).keyboardBufIdx := by
  simp only [storeKey, Kernel.onTerminal_terminal]
  split_ifs
  · simp [Terminal.storeKey, hi]
  · rfl

theorem storeKey_fits {i : ℕ} (hi : i < keyBuffSize) (term : ℕ) (c : UInt8) (k : Kernel) :
    Fits k (storeKey term i c k) where
  filled h t := by
    rw [storeKey_idx hi]
    exact h t
  stores j hj := by
    rcases List.mem_cons.mp hj with rfl | hj
    · exact .inl hi
    · exact .inr hj
  copies _ := .inr
  kept _ := List.mem_cons_of_mem _

theorem Fits.foldl {α : Type*} {g : Kernel → α → Kernel} (l : List α)
    (h : ∀ a ∈ l, ∀ k, Fits k (g k a)) (k : Kernel) : Fits k (l.foldl g k) := by
  induction l generalizing k with
  | nil => exact .refl k
  | cons a l ih =>
    exact (h a (by simp) k).trans (ih (fun b hb => h b (by simp [hb])) _)

theorem clearKeyBuf_fits (term : ℕ) (k : Kernel) : Fits k (clearKeyBuf term k) := by
  have hloop := Fits.foldl (List.range keyBuffSize)
    (fun i hi k => storeKey_fits (List.mem_range.mp hi) term noke k) k
  exact hloop.trans (.onTerminal fun _ => Nat.zero_le _)

/-! ### Typing and erasing -/

theorem typeKey_idx (c : UInt8) {term : ℕ} {k : Kernel}
    (h : (k.terminal term).keyboardBufIdx < keyBuffSize) :
    ((typeKey c term k).terminal term).keyboardBufIdx = (k.terminal term).keyboardBufIdx+1 := by
  simp only [typeKey]
  rw [(termPutc_screenOnly ..).idx, Kernel.onTerminal_terminal_self]
  simp only [Terminal.incIdx, storeKey_idx h]
  unfold keyBuffSize at h
  omega

theorem typeKey_fits (c : UInt8) {term : ℕ} {k : Kernel}
    (h : (k.terminal term).keyboardBufIdx < keyBuffSize) : Fits k (typeKey c term k) := by
  have hstore := storeKey_fits h term c k
  refine (hstore.trans (.onTerminal (f := Terminal.incIdx) fun _ => ?_)).trans
    (termPutc_screenOnly ..).fits
  simp only [Terminal.incIdx, storeKey_idx h]
  unfold keyBuffSize at *
  omega

theorem TerminalsOnly.viewingTerm {k k' : Kernel} (h : TerminalsOnly k k') :
    k'.viewingTerm = k.viewingTerm := by rw [h.rest]

/-- A key typed several times, while there is room. -/
theorem typeKeys_fits {α : Type*} (c : UInt8) (l : List α) {k : Kernel}
    (h : (k.terminal k.viewingTerm).keyboardBufIdx+l.length ≤ keyBuffSize) :
    Fits k (l.foldl (fun k _ => typeKey c k.viewingTerm k) k) := by
  induction l generalizing k with
  | nil => exact .refl k
  | cons a l ih =>
    rw [List.length_cons] at h
    have hroom : (k.terminal k.viewingTerm).keyboardBufIdx < keyBuffSize := by omega
    refine (typeKey_fits c hroom).trans (ih ?_)
    rw [(typeKey_terminalsOnly c k.viewingTerm k).viewingTerm, typeKey_idx c hroom]
    omega

theorem keyPress_fits (code : ℕ) (k : Kernel) : Fits k (keyPress code k) := by
  simp only [keyPress]
  split_ifs with hcode hroom
  · exact .refl k
  · exact typeKey_fits _ (by omega)
  · exact .refl k
  · exact .refl k

theorem tabPress_fits (k : Kernel) : Fits k (tabPress k) := by
  unfold tabPress
  split_ifs with hroom
  · exact typeKeys_fits space (List.range 3) (by rw [List.length_range]; omega)
  · exact .refl k

theorem backspace_idx {term : ℕ} {k : Kernel}
    (h : (k.terminal term).keyboardBufIdx ≤ keyBuffSize) :
    ((backspace term k).terminal term).keyboardBufIdx = (k.terminal term).keyboardBufIdx-1 := by
  by_cases hzero : (k.terminal term).keyboardBufIdx = 0
  · rw [backspace, if_pos hzero, hzero]
  · rw [backspace_eq hzero, Kernel.onTerminal_terminal_self, Terminal.decIdx,
      storeKey_idx (by omega), (eraseCell_screenOnly term k).idx]
    unfold keyBuffSize at h
    simp only
    omega

theorem backspace_fits {term : ℕ} {k : Kernel}
    (h : (k.terminal term).keyboardBufIdx ≤ keyBuffSize) : Fits k (backspace term k) := by
  by_cases hzero : (k.terminal term).keyboardBufIdx = 0
  · rw [backspace, if_pos hzero]
    exact .refl k
  · have hstore : (k.terminal term).keyboardBufIdx-1 < keyBuffSize := by omega
    rw [backspace_eq hzero]
    refine ((eraseCell_screenOnly term k).fits.trans (storeKey_fits hstore term noke _)).trans
      (.onTerminal fun _ => ?_)
    rw [Terminal.decIdx, storeKey_idx hstore, (eraseCell_screenOnly term k).idx]
    unfold keyBuffSize at *
    simp only
    omega

/-- The loop of the history keys erases the whole line. -/
theorem eraseLine_idx {term : ℕ} (fuel : ℕ) {k : Kernel}
    (h : (k.terminal term).keyboardBufIdx ≤ keyBuffSize)
    (hfuel : (k.terminal term).keyboardBufIdx ≤ fuel) :
    ((eraseLine term fuel k).terminal term).keyboardBufIdx = 0 := by
  induction fuel generalizing k with
  | zero => exact Nat.le_zero.mp hfuel
  | succ fuel ih =>
    unfold eraseLine
    split_ifs with hzero
    · exact hzero
    · have hnext := backspace_idx h
      exact ih (by omega) (by omega)

theorem eraseLine_fits {term : ℕ} (fuel : ℕ) {k : Kernel}
    (h : (k.terminal term).keyboardBufIdx ≤ keyBuffSize) : Fits k (eraseLine term fuel k) := by
  induction fuel generalizing k with
  | zero => exact .refl k
  | succ fuel ih =>
    unfold eraseLine
    split_ifs with hzero
    · exact .refl k
    · have hnext := backspace_idx h
      exact (backspace_fits h).trans (ih (by omega))

/-- The loop that copies a row of the history keeps the index at the number of characters
copied. -/
theorem recallLine_fits {term : ℕ} (fuel index : ℕ) {k : Kernel}
    (h : (k.terminal term).keyboardBufIdx ≤ index) (hfuel : index+fuel ≤ keyBuffSize) :
    Fits k (recallLine term fuel index k) := by
  induction fuel generalizing index k with
  | zero => exact .refl k
  | succ fuel ih =>
    have hindex : index < keyBuffSize := by omega
    simp only [recallLine]
    generalize (k.terminal term).historyBuf (k.terminal term).histPtr index = c
    have hstore := storeKey_fits hindex term c k
    split_ifs
    · exact hstore
    · have hput := hstore.trans (termPutc_screenOnly c term _).fits
      have hidx : ((termPutc c term (storeKey term index c k)).terminal term).keyboardBufIdx =
          (k.terminal term).keyboardBufIdx := by
        rw [(termPutc_screenOnly ..).idx, storeKey_idx hindex]
      generalize termPutc c term (storeKey term index c k) = k' at *
      have hinc : (Terminal.incIdx (k'.terminal term)).keyboardBufIdx ≤ index+1 := by
        simp only [Terminal.incIdx, hidx]
        omega
      refine (hput.trans (.onTerminal fun _ => by omega)).trans (ih (index+1) ?_ (by omega))
      rw [Kernel.onTerminal_terminal_self]
      exact hinc

theorem Terminal.turnHistory_idx (direction : ℤ) (t : Terminal) :
    (t.turnHistory direction).keyboardBufIdx = t.keyboardBufIdx := by
  unfold Terminal.turnHistory
  split_ifs <;> rfl

theorem terminalHistory_fits (direction : ℤ) {k : Kernel} (h : k.Filled) :
    Fits k (terminalHistory direction k) := by
  simp only [terminalHistory]
  split_ifs
  · exact .refl k
  · exact .refl k
  · generalize k.viewingTerm = term
    have hidx := Terminal.turnHistory_idx direction (k.terminal term)
    have hturn : Fits k (k.onTerminal term (Terminal.turnHistory direction)) :=
      .onTerminal fun h => hidx ▸ h
    have hfull := hturn.filled h term
    generalize k.onTerminal term (Terminal.turnHistory direction) = k' at *
    have herase := eraseLine_fits (k'.terminal term).keyboardBufIdx hfull
    have hempty := eraseLine_idx (k'.terminal term).keyboardBufIdx hfull le_rfl
    refine ((hturn.trans herase).trans ?_).trans (.onTerminal id)
    exact recallLine_fits keyBuffSize 0 hempty.le (by omega)

/-! ### The Enter key -/

/-- The Enter key up to the index: the newline stored at the end of the line. -/
def endLine (term : ℕ) (k : Kernel) : Kernel :=
  let k := k.onTerminal term (Terminal.setEnterFlag 1)
  let k := storeKey term (k.terminal term).keyboardBufIdx newline k
  k.onTerminal term Terminal.incIdx

/-- The Enter key from there on: the line into the history, and a new row. -/
def submitLine (term : ℕ) (k : Kernel) : Kernel :=
  let n := u32 ((k.terminal term).keyboardBufIdx-1)
  let k := { k.onTerminal term (Terminal.saveLine n) with histCopies := n :: k.histCopies }
  (enter term k).onTerminal term Terminal.limitHistory

theorem enterPress_eq (k : Kernel) :
    enterPress k = submitLine k.viewingTerm (endLine k.viewingTerm k) := rfl

theorem enter_fits (term : ℕ) (k : Kernel) : Fits k (enter term k) := by
  have hrow := (nextRow_screenOnly term k).fits
  simp only [enter]
  split_ifs
  · exact hrow
  · exact (hrow.trans (clearKeyBuf_fits term _)).trans (.onTerminal id)

theorem submitLine_fits {term : ℕ} {k : Kernel} (h₀ : 0 < (k.terminal term).keyboardBufIdx)
    (h : (k.terminal term).keyboardBufIdx ≤ keyBuffSize) : Fits k (submitLine term k) := by
  have hn : u32 ((k.terminal term).keyboardBufIdx-1) ≤ keyBuffSize := by
    unfold keyBuffSize at *
    rw [u32_eq_toNat (by omega) (by omega)]
    omega
  simp only [submitLine]
  generalize u32 ((k.terminal term).keyboardBufIdx-1) = n at *
  have hsave : Fits k
      { k.onTerminal term (Terminal.saveLine n) with histCopies := n :: k.histCopies } := by
    have hrow : Fits k (k.onTerminal term (Terminal.saveLine n)) := .onTerminal id
    refine ⟨hrow.filled,fun _ => .inr,?_,fun _ => id⟩
    intro m hm
    rcases List.mem_cons.mp hm with rfl | hm
    · exact .inl hn
    · exact .inr hm
  refine (hsave.trans (enter_fits term _)).trans (.onTerminal ?_)
  intro hidx
  unfold Terminal.limitHistory
  split_ifs <;> exact hidx

/-- A newline that fits is stored like any other character. -/
theorem endLine_fits {term : ℕ} {k : Kernel}
    (h : (k.terminal term).keyboardBufIdx < keyBuffSize) :
    Fits k (endLine term k) ∧
      ((endLine term k).terminal term).keyboardBufIdx = (k.terminal term).keyboardBufIdx+1 := by
  have hflag : Fits k (k.onTerminal term (Terminal.setEnterFlag 1)) := .onTerminal id
  have hidx : ((k.onTerminal term (Terminal.setEnterFlag 1)).terminal term).keyboardBufIdx =
      (k.terminal term).keyboardBufIdx := by
    rw [Kernel.onTerminal_terminal_self]
    rfl
  have hinc : ∀ t : Terminal, t.keyboardBufIdx = (k.terminal term).keyboardBufIdx →
      (Terminal.incIdx t).keyboardBufIdx = (k.terminal term).keyboardBufIdx+1 := by
    intro t ht
    unfold keyBuffSize at h
    simp only [Terminal.incIdx, ht]
    omega
  simp only [endLine, hidx]
  have hstore := storeKey_fits h term newline (k.onTerminal term (Terminal.setEnterFlag 1))
  have hsame := (storeKey_idx h term newline (k.onTerminal term (Terminal.setEnterFlag 1))
    term).trans hidx
  refine ⟨(hflag.trans hstore).trans (.onTerminal fun _ => ?_),?_⟩
  · rw [hinc _ hsame]
    omega
  · rw [Kernel.onTerminal_terminal_self, hinc _ hsame]

/-- A newline past the end of the buffer lands in the index. -/
theorem endLine_overflow {term : ℕ} {k : Kernel}
    (h : (k.terminal term).keyboardBufIdx = keyBuffSize) :
    keyBuffSize ∈ (endLine term k).keyStores ∧
      ((endLine term k).terminal term).keyboardBufIdx = 11 ∧
      ∀ t, t ≠ term → (endLine term k).terminal t = k.terminal t := by
  simp only [endLine, storeKey, Kernel.onTerminal_terminal_self]
  refine ⟨?_,?_,?_⟩
  · exact List.mem_cons.mpr (.inl h.symm)
  · simp [Terminal.setEnterFlag, Terminal.storeKey, h, Terminal.incIdx, newline]
  · intro t ht
    simp [Kernel.onTerminal_terminal, ht]

theorem enterPress_fits {k : Kernel}
    (h : (k.terminal k.viewingTerm).keyboardBufIdx < keyBuffSize) : Fits k (enterPress k) := by
  obtain ⟨hfits,hidx⟩ := endLine_fits h
  rw [enterPress_eq]
  exact hfits.trans (submitLine_fits (by omega) (by omega))

theorem enterPress_overflow {k : Kernel} (hfilled : k.Filled)
    (h : (k.terminal k.viewingTerm).keyboardBufIdx = keyBuffSize) :
    (enterPress k).Filled ∧ keyBuffSize ∈ (enterPress k).keyStores := by
  obtain ⟨hstore,hidx,hothers⟩ := endLine_overflow h
  have hlow : 1 ≤ ((endLine k.viewingTerm k).terminal k.viewingTerm).keyboardBufIdx := by omega
  have hsubmit := submitLine_fits hlow (by unfold keyBuffSize; omega)
  rw [enterPress_eq]
  refine ⟨hsubmit.filled ?_,hsubmit.kept _ hstore⟩
  intro t
  by_cases ht : t = k.viewingTerm
  · rw [ht, hidx]
    decide
  · rw [hothers t ht]
    exact hfilled t

/-! ### All events -/

theorem FlagsOnly.unseen {k k' : Kernel} (h : FlagsOnly k k') : Unseen k k' := by
  rw [h.rest]
  exact ⟨fun _ => rfl,rfl,rfl,rfl⟩

theorem keyboardSwitch_fits (fs : FileSystem) (cpu : Cpu) {pressed : ℕ} {k : Kernel}
    (hin : k.InRange) (hfilled : k.Filled)
    (henter : pressed = 0x1C → (k.terminal k.viewingTerm).keyboardBufIdx < keyBuffSize) :
    Fits k (keyboardSwitch fs cpu pressed k).2 := by
  have hkeyed := keyboardSwitch_keyed fs cpu pressed k
  generalize keyboardSwitch fs cpu pressed k = r at *
  cases hkeyed with
  | erase _ => exact backspace_fits (hfilled _)
  | enter h => exact enterPress_fits (henter h)
  | history _ => exact terminalHistory_fits _ hfilled
  | tab _ => exact tabPress_fits k
  | char _ => exact keyPress_fits pressed k
  | clear _ => exact (termClear_screenOnly _ k).fits
  | flags _ hk' => exact hk'.unseen.fits
  | switch _ hdest _ =>
    exact (terminalSwitch_prints (· = _) fs cpu _ hdest hin.current fun _ _ => rfl).fits

theorem terminalReadStart_fits (null : Bool) (nbytes : ℤ) (k : Kernel) :
    Fits k (terminalReadStart null nbytes k).2 := by
  have hwanted : Fits k (k.onTerminal k.currentTerm (Terminal.setReadWanted 1)) := .onTerminal id
  simp only [terminalReadStart]
  split_ifs <;> exact hwanted

theorem terminalReadFinish_fits (limit : ℕ) (k : Kernel) :
    Fits k (terminalReadFinish limit k).2 := by
  have hflag : Fits k (k.onTerminal k.currentTerm (Terminal.setEnterFlag 0)) := .onTerminal id
  exact (hflag.trans (clearKeyBuf_fits _ _)).trans (.onTerminal id)

theorem read_fits (fs : FileSystem) (fd : ℤ) (null : Bool) (nbytes : ℤ) (cpu : Cpu) (k : Kernel) :
    Fits k (read fs fd null nbytes cpu k).2 := by
  rcases read_cases fs fd null nbytes cpu k with h | h
  · exact h.unseen.fits
  · have hstart := terminalReadStart_fits null nbytes k
    rw [h]
    rcases terminalRead_cases null nbytes k with h | ⟨limit,h⟩
    · exact hstart.trans h.unseen.fits
    · rw [h]
      exact hstart.trans (terminalReadFinish_fits limit _)

theorem resume_fits (k : Kernel) : Fits k (resume k).2 := by
  rcases resume_cases k with h | ⟨limit,h⟩
  · exact h.unseen.fits
  · exact (terminalReadFinish_fits limit k).trans h.unseen.fits

/-- The Enter key finds room for its newline. -/
def NewlineFits (k : Kernel) (op : Op) : Prop :=
  ∀ cpu, op = .key 0x1C cpu → (k.terminal k.viewingTerm).keyboardBufIdx < keyBuffSize

/-- Every step keeps to the buffers, unless a newline does not fit. -/
theorem step_fits (fs : FileSystem) {k : Kernel} {op : Op} (hop : op.Proper) (hin : k.InRange)
    (hfilled : k.Filled) (hnewline : NewlineFits k op) : Fits k ((kernel fs).next k op) := by
  have hquiet : op.Quiet → Fits k ((kernel fs).next k op) := fun hquiet =>
    (quiet_prints fs hop hin hquiet).fits
  cases op with
  | key pressed cpu =>
    have hcli : Unseen k { k with interrupts := false } := ⟨fun _ => rfl,rfl,rfl,rfl⟩
    have henter : pressed = 0x1C → NewlineFits k (.key 0x1C cpu) := by
      rintro rfl
      exact hnewline
    have hswitch := keyboardSwitch_fits fs cpu (k := { k with interrupts := false })
      ⟨hin.viewing,hin.current⟩ (hcli.fits.filled hfilled) fun h => henter h cpu rfl
    exact (hcli.fits.trans hswitch).trans (Unseen.fits ⟨fun _ => rfl,rfl,rfl,rfl⟩)
  | read fd null nbytes cpu => exact read_fits fs fd null nbytes cpu k
  | resume => exact resume_fits k
  | _ => exact hquiet trivial

/-! ### Runs -/

/-- What the buffers need: indices in range, stores into the buffers inside them, and
copies into the history of at most a row. -/
structure Kernel.BuffersSafe (k : Kernel) : Prop where
  idx : ∀ t < numTerm, (k.terminal t).keyboardBufIdx ≤ keyBuffSize
  stores : ∀ i ∈ k.keyStores, i < keyBuffSize
  copies : ∀ n ∈ k.histCopies, n ≤ keyBuffSize

theorem Fits.buffersSafe {k k' : Kernel} (h : Fits k k') (hfilled : k.Filled)
    (hsafe : k.BuffersSafe) : k'.BuffersSafe where
  idx t _ := h.filled hfilled t
  stores i hi := (h.stores i hi).elim id (hsafe.stores i)
  copies n hn := (h.copies n hn).elim id (hsafe.copies n)

/-- A step that is not the Enter key on a full buffer, and what that key does. -/
theorem step_filled (fs : FileSystem) {k : Kernel} {op : Op} (hop : op.Proper)
    (h : k.InRange ∧ k.Filled) : ((kernel fs).next k op).InRange ∧ ((kernel fs).next k op).Filled ∧
      (¬NewlineFits k op → keyBuffSize ∈ ((kernel fs).next k op).keyStores) := by
  obtain ⟨hin,hfilled⟩ := h
  refine ⟨step_inRange fs hop hin,?_⟩
  by_cases hnewline : NewlineFits k op
  · exact ⟨(step_fits fs hop hin hfilled hnewline).filled hfilled,fun h => absurd hnewline h⟩
  · simp only [NewlineFits, not_forall] at hnewline
    obtain ⟨cpu,rfl,hfull⟩ := hnewline
    have hcli : Kernel.Filled { k with interrupts := false } := hfilled
    have hidx : (k.terminal k.viewingTerm).keyboardBufIdx = keyBuffSize :=
      Nat.le_antisymm (hfilled _) (not_lt.mp hfull)
    obtain ⟨hfilled',hstore⟩ := enterPress_overflow hcli hidx
    exact ⟨hfilled',fun _ => hstore⟩

theorem initial_filled (pcb : ℕ → PCB) (phys : ℕ → UInt8) : (initial pcb phys).Filled := by
  apply (initial_prints pcb phys).fits.filled
  intro t
  rw [(blank_terminal pcb phys t).2.2]
  exact Nat.zero_le _

theorem initial_buffersSafe (pcb : ℕ → PCB) (phys : ℕ → UInt8) :
    (initial pcb phys).BuffersSafe := by
  have hblank : (blank pcb phys).Filled := fun t => by
    rw [(blank_terminal pcb phys t).2.2]
    exact Nat.zero_le _
  refine (initial_prints pcb phys).fits.buffersSafe hblank ⟨fun t _ => hblank t,?_,?_⟩
  · exact fun i hi => absurd hi (by simp [blank, setTerminals, staticStorage])
  · exact fun n hn => absurd hn (by simp [blank, setTerminals, staticStorage])

/-- In every run the keyboard buffers and the history are safe as long as, and only as long
as, every Enter key finds room for its newline. -/
theorem keyboardBuffers_safe_iff (fs : FileSystem) (pcb : ℕ → PCB) (phys : ℕ → UInt8)
    {ops : List Op} (hops : ∀ op ∈ ops, op.Proper) :
    (∀ p, p <+: ops → ((kernel fs).run (initial pcb phys) p).BuffersSafe) ↔
      (kernel fs).Along NewlineFits (initial pcb phys) ops := by
  refine System.always_iff_along (S := kernel fs) (J := fun k => k.InRange ∧ k.Filled)
    ?_ ?_
    ⟨initial_inRange pcb phys,initial_filled pcb phys⟩ (initial_buffersSafe pcb phys) hops
  · intro k op h hop
    obtain ⟨hin,hfilled,-⟩ := step_filled fs hop h
    exact ⟨hin,hfilled⟩
  · intro k op h hop hsafe
    constructor
    · intro hnext
      by_contra hnot
      exact absurd (hnext.stores _ ((step_filled fs hop h).2.2 hnot)) (lt_irrefl _)
    · intro hnewline
      exact (step_fits fs hop h.1 h.2 hnewline).buffersSafe h.2 hsafe

/-- A line of one character, entered on the terminal of the first shell. -/
def shortLine : List Op :=
  fromBoot ⟨1,1,fun _ => 0⟩ [.key 0x1E ⟨2,2,fun _ => 0⟩,.key 0x1C ⟨3,3,fun _ => 0⟩]

theorem keyboardBuffers_safe_line :
    ((kernel shellImage).run (initial (fun _ => PCB.zero) fun _ => 0) shortLine).BuffersSafe := by
  have hfits : (kernel shellImage).Along NewlineFits (initial (fun _ => PCB.zero) fun _ => 0)
      shortLine := by
    refine ⟨nofun,?_,?_,trivial⟩
    · rintro cpu ⟨⟩
    · rintro cpu -
      decide +kernel
  have hproper : ∀ op ∈ shortLine, op.Proper := by simp [shortLine, fromBoot, Op.Proper]
  exact (keyboardBuffers_safe_iff shellImage _ _ hproper).mpr hfits _ List.prefix_rfl

/-- With the shell waiting in a read, the line is filled to 127 characters and entered
twice before the shell gets the processor. -/
def enterTwice : List Op :=
  .read 0 false 128 ⟨2,2,fun _ => 0⟩ :: List.replicate 42 (.key 0x0F ⟨3,3,fun _ => 0⟩) ++
    [.key 0x1E ⟨3,3,fun _ => 0⟩,.key 0x1C ⟨3,3,fun _ => 0⟩,.key 0x1C ⟨3,3,fun _ => 0⟩]

/-- The second newline is stored past the end of the buffer. -/
theorem keyboardBuffers_overrun :
    (∀ op ∈ fromBoot ⟨1,1,fun _ => 0⟩ enterTwice, op.Proper) ∧
      ¬((kernel shellImage).run (initial (fun _ => PCB.zero) fun _ => 0)
        (fromBoot ⟨1,1,fun _ => 0⟩ enterTwice)).BuffersSafe := by
  refine ⟨by simp [fromBoot, enterTwice, Op.Proper],?_⟩
  intro hsafe
  have hstore : 128 ∈ ((kernel shellImage).run (initial (fun _ => PCB.zero) fun _ => 0)
      (fromBoot ⟨1,1,fun _ => 0⟩ enterTwice)).keyStores := by decide +kernel
  exact absurd (hsafe.stores 128 hstore) (lt_irrefl _)

end GameOfThreads
