import GameOfThreads.LineCells
import GameOfThreads.LineDelivery
import GameOfThreads.Machine.Cursor
import GameOfThreads.Machine.Recall
import GameOfThreads.Registers

/-! The command history. The three rows of a terminal and its registers are a ring: Enter
submits the line to it, and the history keys move its cursor and put the entry that it is on
into the keyboard buffer. -/
namespace GameOfThreads
open Machine

def Registers.ring (rows : ℕ → List UInt8) (r : Registers) : HistoryRing (List UInt8) :=
  ⟨rows,r.ptr,r.chk,r.fill,r.cnt⟩

def Terminal.ring (t : Terminal) : HistoryRing (List UInt8) := t.registers.ring t.row

/-- What an event is to the history of terminal `t`: Enter, Up or Down. -/
def historyOp (t : ℕ) (k : Kernel) : Op → Option (RecallOp (List UInt8))
  | .key pressed _ =>
    if k.viewingTerm ≠ t then none
    else if pressed = 0x1C then some (.submit (k.input t).line)
    else if k.numFlag = 0 ∧ pressed = 0x48 then some .back
    else if k.numFlag = 0 ∧ pressed = 0x50 then some .forth
    else none
  | _ => none

/-- What a run was to the history of terminal `t`. -/
def historyOps (t : ℕ) (h : List (Move Kernel Op Out)) : List (RecallOp (List UInt8)) :=
  h.filterMap fun m => historyOp t m.pre m.event

/-! ### The ring in the registers -/

theorem save_ring {r : Registers} (hcnt : r.cnt ≤ maxHist) (rows : ℕ → List UInt8)
    (line : List UInt8) : r.save.limit.ring (Function.update rows r.fill line) =
      (r.ring rows).submit maxHist line := by
  have hlimit : (if (r.cnt+1) % 256 > maxHist then maxHist else (r.cnt+1) % 256) =
      min (r.cnt+1) maxHist := by
    unfold maxHist at *
    split_ifs <;> omega
  exact congrArg (HistoryRing.mk (Function.update rows r.fill line) ((r.fill+1) % maxHist) 0
    ((r.fill+1) % maxHist)) hlimit

theorem turn_up {ptr cnt : ℕ} (hptr : ptr ≤ 3) (hcnt : cnt ≤ 3) (hpos : cnt ≠ 0) :
    (if (ptr : ℤ)+(-1) < 0 then u8 ((cnt : ℤ)-1) else if (ptr : ℤ)+(-1) ≥ cnt then 0
      else u8 (ptr+(-1))) = if ptr = 0 then cnt-1 else if cnt ≤ ptr-1 then 0 else ptr-1 := by
  unfold u8
  split_ifs <;> omega

theorem turn_down {ptr cnt : ℕ} (hptr : ptr ≤ 3) :
    (if (ptr : ℤ)+1 < 0 then u8 ((cnt : ℤ)-1) else if (ptr : ℤ)+1 ≥ cnt then 0
      else u8 (ptr+1)) = if cnt ≤ ptr+1 then 0 else ptr+1 := by
  unfold u8
  split_ifs <;> omega

section
variable {t : Terminal} {s : Recall (List UInt8)}

/-- Where the registers are small the bytes do not wrap. -/
theorem ring_ptr_le (h : t.ring.Holds maxHist s) : t.histPtr ≤ maxHist ∧ t.histCnt ≤ maxHist := by
  have hcnt : t.histCnt ≤ maxHist := h.cnt.le.trans (Nat.min_le_right ..)
  have hfill : t.histFill < maxHist := h.fill
  refine ⟨?_,hcnt⟩
  by_cases hchk : t.histChk = 0
  · rcases h.rest hchk with hptr | ⟨-,hptr⟩
    · have hptr : t.histPtr = t.histFill := hptr
      omega
    · have hptr : t.histPtr = 0 := hptr
      omega
  · have hptr : t.histPtr = HistoryRing.slot maxHist t.histFill (t.histChk-1) := h.cursor hchk
    rw [hptr]
    unfold HistoryRing.slot
    split_ifs <;> omega

theorem turned_back (h : t.ring.Holds maxHist s) : (t.turned (-1)).ring t.row = t.ring.back := by
  obtain ⟨hptr,hcnt⟩ := ring_ptr_le h
  have hdepth : t.histChk ≤ t.histCnt := h.depth
  have hcan : t.canTurn (-1) = !decide (t.histChk = t.histCnt ∨ t.histCnt = 0) := by
    simp [Terminal.canTurn]
  unfold maxHist at *
  by_cases hend : t.histChk = t.histCnt ∨ t.histCnt = 0
  · have hback : t.ring.back = t.ring := if_pos hend
    rw [hback, Terminal.turned, hcan, decide_eq_true hend]
    rfl
  · have hback : t.ring.back = { t.ring with
        ptr := if t.histPtr = 0 then t.histCnt-1
          else if t.histCnt ≤ t.histPtr-1 then 0 else t.histPtr-1
        chk := t.histChk+1 } := if_neg hend
    have hchk : u8 ((t.histChk : ℤ)-(-1)) = t.histChk+1 := by
      unfold u8
      omega
    have hturn : (t.registers.turn (-1)).ptr = if t.histPtr = 0 then t.histCnt-1
        else if t.histCnt ≤ t.histPtr-1 then 0 else t.histPtr-1 :=
      turn_up hptr hcnt fun hzero => hend (.inr hzero)
    rw [hback, ← hchk, ← hturn, Terminal.turned, hcan, decide_eq_false hend]
    rfl

theorem turned_forth (h : t.ring.Holds maxHist s) : (t.turned 1).ring t.row = t.ring.forth := by
  obtain ⟨hptr,hcnt⟩ := ring_ptr_le h
  have hdepth : t.histChk ≤ t.histCnt := h.depth
  have hcan : t.canTurn 1 = !decide (t.histCnt = 0 ∨ t.histChk = 0) := by
    simp [Terminal.canTurn]
  unfold maxHist at *
  by_cases hend : t.histCnt = 0 ∨ t.histChk = 0
  · have hforth : t.ring.forth = t.ring := if_pos hend
    rw [hforth, Terminal.turned, hcan, decide_eq_true hend]
    rfl
  · have hforth : t.ring.forth = { t.ring with
        ptr := if t.histCnt ≤ t.histPtr+1 then 0 else t.histPtr+1
        chk := t.histChk-1 } := if_neg hend
    have hchk : u8 ((t.histChk : ℤ)-1) = t.histChk-1 := by
      unfold u8
      omega
    have hturn : (t.registers.turn 1).ptr =
        if t.histCnt ≤ t.histPtr+1 then 0 else t.histPtr+1 := turn_down hptr
    rw [hforth, ← hchk, ← hturn, Terminal.turned, hcan, decide_eq_false hend]
    rfl

end

/-! ### Keys -/

section
variable {k : Kernel}

theorem press_history (i : Input) {key : Key} (h : ∀ row, key ≠ .enter row) :
    (i.press key).history = i.history := by
  cases key with
  | enter row => exact absurd rfl (h row)
  | char c =>
    simp only [Input.press]
    split_ifs <;> rfl
  | tab =>
    simp only [Input.press]
    split_ifs <;> rfl
  | _ => rfl

theorem press_enter_history (i : Input) (row : ℕ) : (i.press (.enter row)).history =
    Function.update i.history row (i.line.takeWhile (· ≠ noke)) := by
  simp only [Input.press]
  split_ifs <;> rfl

/-- Only the Enter key is Enter. -/
theorem key_not_enter {pressed : ℕ} (h : pressed ≠ 0x1C) (row : ℕ) :
    k.key pressed ≠ .enter row := by
  have hturn : ∀ direction, (k.terminal k.viewingTerm).turn direction ≠ .enter row := by
    intro direction
    unfold Terminal.turn
    split_ifs <;> exact Key.noConfusion
  unfold Kernel.key
  split_ifs
  · exact Key.noConfusion
  · exact Key.noConfusion
  · exact Key.noConfusion
  · exact hturn _
  · exact hturn _
  · exact Key.noConfusion
  · exact Key.noConfusion

theorem key_history {pressed : ℕ} {direction : ℤ} (h : HistoryKey pressed k direction) :
    k.key pressed = (k.terminal k.viewingTerm).turn direction := by
  obtain ⟨hnum,⟨rfl,rfl⟩ | ⟨rfl,rfl⟩⟩ := h
  · simp [Kernel.key, hnum]
  · simp [Kernel.key, hnum]

/-! ### All events -/

theorem look_history (limit : ℕ) (i : Input) : (i.look limit).2.history = i.history := by
  unfold Input.look
  split_ifs <;> rfl

theorem editor_history (i : Input) {r : Request} (h : ∀ row, r ≠ .press (.enter row)) :
    (editor.next i r).history = i.history := by
  cases r with
  | press key => exact press_history i fun row hkey => h row (by rw [hkey])
  | ask limit =>
    cases limit with
    | none => rfl
    | some limit => exact look_history limit i.ask
  | look limit => exact look_history limit i

/-- An event that is no key leaves the rows alone. -/
theorem step_rows (fs : FileSystem) {op : Op} (hop : op.Proper) (hin : k.InRange)
    (hfits : KeyFits k op) (hkey : ∀ pressed cpu, op ≠ .key pressed cpu) (t : ℕ) :
    (((kernel fs).next k op).input t).history = (k.input t).history := by
  have hinput := congrFun (step_input fs hop hin hfits) t
  cases hrequest : k.request op with
  | none =>
    rw [hinput, hrequest]
    rfl
  | some request =>
    obtain ⟨u,r⟩ := request
    rw [hinput, hrequest, serve]
    by_cases ht : t = u
    · subst ht
      rw [Function.update_self]
      apply editor_history
      rintro row rfl
      obtain ⟨pressed,cpu,hop,-⟩ := request_press hrequest
      exact hkey pressed cpu hop
    · rw [Function.update_of_ne ht]

theorem wanted_ring (rows : ℕ → List UInt8) (r : ℕ → Registers) (term wanted t : ℕ) :
    (Function.update r term { r term with wanted := wanted } t).ring rows = (r t).ring rows := by
  by_cases ht : t = term
  · rw [ht, Function.update_self]
    rfl
  · rw [Function.update_of_ne ht]

theorem read_ring (fs : FileSystem) (fd : ℤ) (null : Bool) (nbytes : ℤ) (cpu : Cpu)
    (rows : ℕ → List UInt8) (t : ℕ) :
    ((read fs fd null nbytes cpu k).2.registers t).ring rows = (k.registers t).ring rows := by
  have hstart := congrFun (terminalReadStart_registers k null nbytes) t
  rcases read_cases fs fd null nbytes cpu k with hread | hread
  · rw [hread.unseen.registers]
  · rw [hread]
    rcases terminalRead_cases null nbytes k with hread | ⟨limit,hread⟩
    · rw [hread.unseen.registers, hstart, wanted_ring]
    · rw [hread, terminalReadFinish_registers, wanted_ring, hstart, wanted_ring]

theorem resume_ring (rows : ℕ → List UInt8) (t : ℕ) :
    ((resume k).2.registers t).ring rows = (k.registers t).ring rows := by
  rcases resume_cases k with hresume | ⟨limit,hresume⟩
  · rw [hresume.unseen.registers]
  · rw [hresume.unseen.registers, terminalReadFinish_registers, wanted_ring]

/-- An event that is no key leaves the registers alone. -/
theorem step_ringRegisters (fs : FileSystem) {op : Op} (hop : op.Proper) (hin : k.InRange)
    (hkey : ∀ pressed cpu, op ≠ .key pressed cpu) (rows : ℕ → List UInt8) (t : ℕ) :
    (((kernel fs).next k op).registers t).ring rows = (k.registers t).ring rows := by
  have hquiet : op.Quiet →
      (((kernel fs).next k op).registers t).ring rows = (k.registers t).ring rows :=
    fun hquiet => by rw [(quiet_prints fs hop hin hquiet).registers]
  cases op with
  | key pressed cpu => exact absurd rfl (hkey pressed cpu)
  | read fd null nbytes cpu => exact read_ring fs fd null nbytes cpu rows t
  | resume => exact resume_ring rows t
  | _ => exact hquiet trivial

/-- The ring is made of the rows and the registers. -/
theorem ring_of {t : ℕ} {rows : ℕ → List UInt8} {registers : Registers}
    (hrows : (k.input t).history = rows) (hregisters : k.registers t = registers) :
    (k.terminal t).ring = registers.ring rows := by
  rw [← hrows, ← hregisters]
  rfl

/-- What a press does to the ring of the terminal in view. -/
theorem pressed_ring (fs : FileSystem) {pressed : ℕ} (cpu : Cpu) (hin : k.InRange)
    (hfits : KeyFits k (.key pressed cpu)) (hline : noke ∉ (k.input k.viewingTerm).line)
    {s : Recall (List UInt8)} (h : (k.terminal k.viewingTerm).ring.Holds maxHist s) :
    (((kernel fs).next k (.key pressed cpu)).terminal k.viewingTerm).ring =
      match historyOp k.viewingTerm k (.key pressed cpu) with
      | some event => (k.terminal k.viewingTerm).ring.next maxHist event
      | none => (k.terminal k.viewingTerm).ring := by
  have hproper : (Op.key pressed cpu).Proper := trivial
  have hpress : ((kernel fs).next k (.key pressed cpu)).input k.viewingTerm =
      (k.input k.viewingTerm).press (k.key pressed) :=
    (congrFun (step_input fs hproper hin hfits) _).trans (Function.update_self ..)
  have hmoved := (congrFun (keyboardSwitch_registers fs cpu pressed
    (k := { k with interrupts := false }) hin.current) k.viewingTerm).trans
      (Function.update_self ..)
  by_cases henter : pressed = 0x1C
  · subst henter
    rw [if_pos rfl] at hmoved
    have hsaved := ring_of (congrArg Input.history hpress) hmoved
    have hwhole : (k.input k.viewingTerm).line.takeWhile (· ≠ noke) =
        (k.input k.viewingTerm).line := takeWhile_whole fun c hc => by
      simpa using ne_of_mem_of_not_mem hc hline
    have hcnt : (k.registers k.viewingTerm).cnt ≤ maxHist := (ring_ptr_le h).2
    rw [key_enter, press_enter_history, hwhole] at hsaved
    rw [hsaved]
    simp only [historyOp, ne_eq, not_true_eq_false, if_false, if_true]
    exact save_ring hcnt ..
  · have hkept := press_history (k.input k.viewingTerm) (key_not_enter (k := k) henter)
    rw [if_neg henter] at hmoved
    have hsame := ring_of ((congrArg Input.history hpress).trans hkept) hmoved
    simp only [historyOp, ne_eq, not_true_eq_false, if_false, if_neg henter]
    rw [hsame]
    split_ifs
    · exact turned_back h
    · exact turned_forth h
    · rfl

/-- The ring of a terminal after an event. -/
theorem step_ring (fs : FileSystem) {op : Op} (hop : op.Proper) (hin : k.InRange)
    (hfits : KeyFits k op) {t : ℕ} (hline : noke ∉ (k.input t).line) {s : Recall (List UInt8)}
    (h : (k.terminal t).ring.Holds maxHist s) : (((kernel fs).next k op).terminal t).ring =
      match historyOp t k op with
      | some event => (k.terminal t).ring.next maxHist event
      | none => (k.terminal t).ring := by
  by_cases hkey : ∀ pressed cpu, op ≠ .key pressed cpu
  · have hnone : historyOp t k op = none := by
      cases op with
      | key pressed cpu => exact absurd rfl (hkey pressed cpu)
      | _ => rfl
    rw [hnone]
    exact (ring_of (step_rows fs hop hin hfits hkey t) rfl).trans
      (step_ringRegisters fs hop hin hkey (k.terminal t).row t)
  simp only [not_forall, not_not] at hkey
  obtain ⟨pressed,cpu,rfl⟩ := hkey
  by_cases ht : k.viewingTerm = t
  · subst ht
    exact pressed_ring fs cpu hin hfits hline h
  · have hother : historyOp t k (.key pressed cpu) = none := if_pos ht
    rw [hother]
    have hne : t ≠ k.viewingTerm := Ne.symm ht
    have hrows := (congrFun (step_input fs hop hin hfits) t).trans (Function.update_of_ne hne ..)
    exact ring_of (congrArg Input.history hrows)
      ((congrFun (keyboardSwitch_registers fs cpu pressed (k := { k with interrupts := false })
        hin.current) t).trans (Function.update_of_ne hne ..))

/-! ### Lines without NULs -/

theorem row_no_nul (t : Terminal) (r : ℕ) : noke ∉ t.row r := fun h => by
  simpa using List.mem_takeWhile_imp h

theorem key_char_ne {pressed : ℕ} : k.key pressed ≠ .char noke := fun h =>
  (key_getchar h).2.2 rfl

theorem press_no_nul {i : Input} (hline : noke ∉ i.line) (hrows : ∀ r, noke ∉ i.history r)
    {key : Key} (hkey : key ≠ .char noke) : noke ∉ (i.press key).line := by
  have happend : ∀ {s : List UInt8}, noke ∉ s → noke ∉ i.line ++ s := fun hs hmem =>
    (List.mem_append.mp hmem).elim hline hs
  cases key with
  | char c =>
    have hc : noke ≠ c := fun h => hkey (by rw [h])
    simp only [Input.press]
    split_ifs
    · exact happend (by simpa using hc)
    · exact hline
  | tab =>
    simp only [Input.press]
    split_ifs
    · exact happend (by decide)
    · exact hline
  | erase => exact fun hmem => hline ((List.dropLast_sublist _).subset hmem)
  | enter row =>
    simp only [Input.press]
    split_ifs
    · exact happend (by decide)
    · exact List.not_mem_nil
  | history row => exact hrows row
  | none => exact hline

theorem editor_no_nul {i : Input} (hline : noke ∉ i.line) (hrows : ∀ r, noke ∉ i.history r)
    {r : Request} (hr : r ≠ .press (.char noke)) : noke ∉ (editor.next i r).line := by
  have hlook : ∀ limit (j : Input), j.line = i.line → noke ∉ (j.look limit).2.line := by
    intro limit j hj
    unfold Input.look
    split_ifs
    · exact hj ▸ hline
    · exact List.not_mem_nil
  cases r with
  | press key => exact press_no_nul hline hrows fun h => hr (by rw [h])
  | look limit => exact hlook limit i rfl
  | ask limit =>
    cases limit with
    | none => exact hline
    | some limit => exact hlook limit i.ask rfl

theorem step_no_nul (fs : FileSystem) {op : Op} (hop : op.Proper) (hin : k.InRange)
    (hfits : KeyFits k op) (h : ∀ t, noke ∉ (k.input t).line) (t : ℕ) :
    noke ∉ (((kernel fs).next k op).input t).line := by
  rw [step_input fs hop hin hfits]
  cases hrequest : k.request op with
  | none => exact h t
  | some request =>
    obtain ⟨u,r⟩ := request
    rw [serve]
    by_cases ht : t = u
    · subst ht
      rw [Function.update_self]
      apply editor_no_nul (h t) (row_no_nul _)
      rintro rfl
      obtain ⟨pressed,cpu,-,-,hkey⟩ := request_press hrequest
      exact key_char_ne hkey.symm
    · rw [Function.update_of_ne ht]
      exact h t

/-! ### Runs -/

/-- The history of terminal `t` after the events `s`. -/
structure HistoryKept (t : ℕ) (s : Recall (List UInt8)) (k : Kernel) : Prop where
  inRange : k.InRange
  filled : k.Filled
  tidy : k.Tidy
  noNul : ∀ u, noke ∉ (k.input u).line
  holds : (k.terminal t).ring.Holds maxHist s
  short : ∀ line ∈ s.entries, line.length < keyBuffSize

/-- The events of one step. -/
def recallStep (s : Recall (List UInt8)) : Option (RecallOp (List UInt8)) → Recall (List UInt8)
  | some event => (recollect maxHist).next s event
  | none => s

theorem HistoryKept.step (fs : FileSystem) {t : ℕ} {s : Recall (List UInt8)}
    (h : HistoryKept t s k) {op : Op} (hop : op.Proper) (hfits : KeyFits k op) :
    HistoryKept t (recallStep s (historyOp t k op)) ((kernel fs).next k op) where
  inRange := step_inRange fs hop h.inRange
  filled := (step_filled fs hop ⟨h.inRange,h.filled⟩).2.1
  tidy := step_tidy fs hop h.inRange hfits h.tidy
  noNul := step_no_nul fs hop h.inRange hfits h.noNul
  holds := by
    rw [step_ring fs hop h.inRange hfits (h.noNul t) h.holds]
    cases historyOp t k op with
    | none => exact h.holds
    | some event => exact h.holds.step event
  short := by
    cases hevent : historyOp t k op with
    | none => exact h.short
    | some event =>
      cases event with
      | submit line =>
        have hline : line.length < keyBuffSize := by
          cases op with
          | key pressed cpu =>
            simp only [historyOp] at hevent
            split_ifs at hevent with hview henter
            · cases hevent
              rw [Kernel.input_line_length, ← not_not.mp hview]
              exact (hfits pressed cpu rfl).2 henter
            · cases hevent
            · cases hevent
          | _ => cases hevent
        exact List.forall_mem_cons.mpr ⟨hline,h.short⟩
      | back => exact h.short
      | forth => exact h.short

theorem initial_historyKept (pcb : ℕ → PCB) (phys : ℕ → UInt8) (t : ℕ) :
    HistoryKept t ⟨[],0⟩ (initial pcb phys) where
  inRange := initial_inRange pcb phys
  filled := initial_filled pcb phys
  tidy := initial_tidy pcb phys
  noNul u := by
    rw [initial_input]
    exact List.not_mem_nil
  holds := by
    have hregisters := congrFun (initial_prints pcb phys).registers t
    have hzero : (blank pcb phys).registers t = ⟨0,0,0,0,0⟩ := by
      simp only [Kernel.registers, blank, setTerminals]
      split_ifs <;> rfl
    rw [hzero] at hregisters
    have hring : ((initial pcb phys).terminal t).ring =
        Registers.ring ((initial pcb phys).terminal t).row ⟨0,0,0,0,0⟩ :=
      congrArg (Registers.ring _) hregisters
    rw [hring]
    exact HistoryRing.holds_empty (by decide) rfl rfl rfl rfl
  short := List.forall_mem_nil _

theorem run_historyKept (fs : FileSystem) (pcb : ℕ → PCB) (phys : ℕ → UInt8) {ops : List Op}
    (hops : (kernel fs).Along (fun k op => op.Proper ∧ KeyFits k op) (initial pcb phys) ops)
    (t : ℕ) : HistoryKept t ((recollect maxHist).run ⟨[],0⟩
      (historyOps t ((kernel fs).trace (initial pcb phys) ops)))
        ((kernel fs).run (initial pcb phys) ops) := by
  refine System.Along.history (S := kernel fs)
    (R := fun h k => HistoryKept t ((recollect maxHist).run ⟨[],0⟩ (historyOps t h)) k)
    ?_ (initial_historyKept pcb phys t) hops
  intro h k op hkept hok
  have hstep := hkept.step fs hok.1 hok.2
  have hevents : historyOps t (h ++ [(kernel fs).move k op]) =
      historyOps t h ++ (historyOp t k op).toList := by
    rw [historyOps, List.filterMap_append]
    rfl
  rw [hevents, System.run_append]
  cases hevent : historyOp t k op with
  | none =>
    rw [hevent] at hstep
    exact hstep
  | some event =>
    rw [hevent] at hstep
    exact hstep

/-! ### Up and Down -/

theorem historyKey_fits {pressed : ℕ} {direction : ℤ} (hkey : HistoryKey pressed k direction)
    (hfilled : k.Filled) (cpu : Cpu) : KeyFits k (.key pressed cpu) := by
  rintro _ _ ⟨⟩
  refine ⟨hfilled _,?_⟩
  rintro rfl
  obtain ⟨-,⟨hup,-⟩ | ⟨hdown,-⟩⟩ := hkey
  · exact absurd hup (by decide)
  · exact absurd hdown (by decide)

section
variable {pressed : ℕ} {direction : ℤ}

theorem historyKey_registers (hkey : HistoryKey pressed k direction) (fs : FileSystem) (cpu : Cpu)
    (hin : k.InRange) :
    ((kernel fs).next k (.key pressed cpu)).registers k.viewingTerm =
      (k.terminal k.viewingTerm).turned direction := by
  have hregisters := congrFun (keyboardSwitch_registers fs cpu pressed
    (k := { k with interrupts := false }) hin.current) k.viewingTerm
  refine hregisters.trans ((Function.update_self ..).trans ?_)
  obtain ⟨hnum,⟨rfl,rfl⟩ | ⟨rfl,rfl⟩⟩ := hkey
  · rw [if_neg (by decide), if_pos ⟨hnum,rfl⟩]
  · rw [if_neg (by decide), if_neg (by simp), if_pos ⟨hnum,rfl⟩]

theorem historyKey_input (hkey : HistoryKey pressed k direction) (fs : FileSystem) (cpu : Cpu)
    (hin : k.InRange) (hfilled : k.Filled) :
    ((kernel fs).next k (.key pressed cpu)).input k.viewingTerm =
      (k.input k.viewingTerm).press ((k.terminal k.viewingTerm).turn direction) := by
  have hproper : (Op.key pressed cpu).Proper := trivial
  have hinput := congrFun (step_input fs hproper hin (historyKey_fits hkey hfilled cpu))
    k.viewingTerm
  rw [← key_history hkey]
  exact hinput.trans (Function.update_self ..)

/-- A history key that goes anywhere puts the row of the cursor into the buffer. -/
theorem historyKey_line (hkey : HistoryKey pressed k direction) (fs : FileSystem) (cpu : Cpu)
    (hin : k.InRange) (hfilled : k.Filled)
    (hcan : (k.terminal k.viewingTerm).canTurn direction) :
    let T := ((kernel fs).next k (.key pressed cpu)).terminal k.viewingTerm
    T.input.line = T.row T.histPtr := by
  intro T
  have hinput := historyKey_input hkey fs cpu hin hfilled
  have hregisters := historyKey_registers hkey fs cpu hin
  rw [Terminal.turn, if_pos hcan] at hinput
  rw [Terminal.turned, if_pos hcan, ← Terminal.turnHistory_registers] at hregisters
  have hptr : T.histPtr = ((k.terminal k.viewingTerm).turnHistory direction).histPtr :=
    congrArg Registers.ptr hregisters
  have hrow : T.row = (k.input k.viewingTerm).history := congrArg Input.history hinput
  rw [hptr, hrow]
  exact congrArg Input.line hinput

/-- A history key that does not go anywhere leaves the depth. -/
theorem historyKey_stays (hkey : HistoryKey pressed k direction) (fs : FileSystem) (cpu : Cpu)
    (hin : k.InRange)
    (hcan : ¬(k.terminal k.viewingTerm).canTurn direction) :
    (((kernel fs).next k (.key pressed cpu)).terminal k.viewingTerm).histChk =
      (k.terminal k.viewingTerm).histChk := by
  have hregisters := historyKey_registers hkey fs cpu hin
  rw [Terminal.turned, if_neg hcan] at hregisters
  exact congrArg Registers.chk hregisters

end

theorem historyOp_key {t pressed : ℕ} {direction : ℤ} (hview : k.viewingTerm = t)
    (hkey : HistoryKey pressed k direction) (cpu : Cpu) : historyOp t k (.key pressed cpu) =
      some (if direction = -1 then .back else .forth) := by
  obtain ⟨hnum,⟨rfl,rfl⟩ | ⟨rfl,rfl⟩⟩ := hkey
  · simp [historyOp, hview, hnum]
  · simp [historyOp, hview, hnum]

section
variable {t pressed : ℕ} {direction : ℤ} {s : Recall (List UInt8)}

theorem HistoryKept.press (h : HistoryKept t s k) (hview : k.viewingTerm = t)
    (hkey : HistoryKey pressed k direction) (fs : FileSystem) (cpu : Cpu) :
    HistoryKept t (recallStep s (some (if direction = -1 then .back else .forth)))
      ((kernel fs).next k (.key pressed cpu)) := by
  have hproper : (Op.key pressed cpu).Proper := trivial
  have hnext := h.step fs hproper (historyKey_fits hkey h.filled cpu)
  rwa [historyOp_key hview hkey] at hnext

theorem HistoryKept.press_ring (h : HistoryKept t s k) (hview : k.viewingTerm = t)
    (hkey : HistoryKey pressed k direction) (fs : FileSystem) (cpu : Cpu) :
    (((kernel fs).next k (.key pressed cpu)).terminal t).ring =
      (k.terminal t).ring.next maxHist (if direction = -1 then .back else .forth) := by
  have hproper : (Op.key pressed cpu).Proper := trivial
  have hring := step_ring fs hproper h.inRange (historyKey_fits hkey h.filled cpu) (h.noNul t)
    h.holds
  rwa [historyOp_key hview hkey] at hring

end
end

/-- The rows of a terminal hold the last three lines that were submitted, or all of them while
there are fewer. The depth is that of the cursor, which Enter sets to 0 and the history keys move
between 0 and their number, and where a press moves it the buffer begins with the line that it
comes to, and a NUL. -/
theorem history_recalled (fs : FileSystem) (pcb : ℕ → PCB) (phys : ℕ → UInt8) {ops : List Op}
    (hops : (kernel fs).Along (fun k op => op.Proper ∧ KeyFits k op) (initial pcb phys) ops)
    (t : ℕ) :
    let k := (kernel fs).run (initial pcb phys) ops
    let s := (recollect maxHist).run ⟨[],0⟩
      (historyOps t ((kernel fs).trace (initial pcb phys) ops))
    (k.terminal t).ring.kept maxHist = s.entries.take maxHist ∧
    (k.terminal t).histCnt = min s.entries.length 3 ∧ (k.terminal t).histChk = s.depth ∧
    ∀ pressed cpu direction, k.viewingTerm = t → HistoryKey pressed k direction →
      let T := ((kernel fs).next k (.key pressed cpu)).terminal t
      (T.histChk : ℤ) =
        max 0 (min ((k.terminal t).histCnt : ℤ) ((k.terminal t).histChk-direction)) ∧
      (T.histChk ≠ (k.terminal t).histChk → T.histChk ≠ 0 →
        ∃ line, s.entries[T.histChk-1]? = some line ∧ T.keyboardBufIdx = line.length ∧
          ∀ i ≤ line.length, T.keyboardBuffer i = line.getD i noke) := by
  intro k s
  have hkept : HistoryKept t s k := run_historyKept fs pcb phys hops t
  refine ⟨hkept.holds.kept,hkept.holds.cnt,hkept.holds.chk,?_⟩
  intro pressed cpu direction hview hkey T
  have hnext := hkept.press hview hkey fs cpu
  have hchk : T.histChk = _ := hnext.holds.chk
  have hold : (k.terminal t).histChk = s.depth := hkept.holds.chk
  have hcnt : (k.terminal t).histCnt = min s.entries.length maxHist := hkept.holds.cnt
  have hle : (k.terminal t).histChk ≤ (k.terminal t).histCnt := hkept.holds.depth
  constructor
  · obtain ⟨-,⟨-,rfl⟩ | ⟨-,rfl⟩⟩ := hkey
    · have hback : T.histChk = min (s.depth+1) (min s.entries.length maxHist) := hchk
      omega
    · have hforth : T.histChk = s.depth-1 := hchk
      omega
  · intro hmoved hdepth
    subst hview
    have hcan : (k.terminal k.viewingTerm).canTurn direction := by
      by_contra hcan
      exact hmoved (historyKey_stays hkey fs cpu hkept.inRange hcan)
    have hline : T.input.line = T.row T.histPtr :=
      historyKey_line hkey fs cpu hkept.inRange hkept.filled hcan
    have hentry := hnext.holds.shown (by rw [← hchk]; exact hdepth)
    rw [← hchk] at hentry
    have hsame : (recallStep s (some (if direction = -1 then .back else .forth))).entries =
        s.entries := by
      split_ifs <;> rfl
    rw [hsame] at hentry
    have hshort : (T.row T.histPtr).length < keyBuffSize :=
      hkept.short _ (List.mem_of_getElem? hentry)
    refine ⟨T.row T.histPtr,hentry,?_,?_⟩
    · rw [← hline, Terminal.input_line_length]
    · intro i hi
      rw [← hline]
      exact (hnext.tidy k.viewingTerm).cells (by omega)

/-- Two commands of one letter. -/
def twoCommands : List Op :=
  fromBoot ⟨1,1,fun _ => 0⟩ [.key 0x1E ⟨2,2,fun _ => 0⟩,.key 0x1C ⟨2,2,fun _ => 0⟩,
    .key 0x30 ⟨2,2,fun _ => 0⟩,.key 0x1C ⟨2,2,fun _ => 0⟩]

theorem twoCommands_fits : (kernel shellImage).Along (fun k op => op.Proper ∧ KeyFits k op)
    (initial (fun _ => PCB.zero) fun _ => 0) twoCommands := by
  refine ⟨⟨trivial,?_⟩,⟨trivial,?_⟩,⟨trivial,?_⟩,⟨trivial,?_⟩,⟨trivial,?_⟩,trivial⟩
  · rintro _ _ ⟨⟩
  · rintro _ _ ⟨⟩
    exact ⟨by decide +kernel,nofun⟩
  · rintro _ _ ⟨⟩
    exact ⟨by decide +kernel,fun _ => by decide +kernel⟩
  · rintro _ _ ⟨⟩
    exact ⟨by decide +kernel,nofun⟩
  · rintro _ _ ⟨⟩
    exact ⟨by decide +kernel,fun _ => by decide +kernel⟩

/-- Up shows the second of them. -/
theorem history_recalled_two :
    let k := (kernel shellImage).run (initial (fun _ => PCB.zero) fun _ => 0) twoCommands
    let T := ((kernel shellImage).next k (.key 0x48 ⟨3,3,fun _ => 0⟩)).terminal 0
    (k.terminal 0).histCnt = 2 ∧ T.histChk = 1 ∧ T.keyboardBufIdx = 1 ∧
      T.keyboardBuffer 0 = 98 ∧ T.keyboardBuffer 1 = 0 := by
  intro k T
  have hentries : ((recollect maxHist).run ⟨[],0⟩ (historyOps 0 ((kernel shellImage).trace
      (initial (fun _ => PCB.zero) fun _ => 0) twoCommands))).entries = [[98],[97]] := by
    decide +kernel
  have hrest : (k.terminal 0).histChk = 0 := by decide +kernel
  have hkey : HistoryKey 0x48 k (-1) := ⟨by decide +kernel,.inl ⟨rfl,rfl⟩⟩
  obtain ⟨-,hcnt,-,hturn⟩ := history_recalled shellImage _ _ twoCommands_fits 0
  obtain ⟨hdepth,hline⟩ := hturn 0x48 ⟨3,3,fun _ => 0⟩ (-1) (by decide +kernel) hkey
  rw [hentries] at hcnt hline
  have hcount : (k.terminal 0).histCnt = 2 := hcnt
  have hclamped : (T.histChk : ℤ) =
      max 0 (min ((k.terminal 0).histCnt : ℤ) ((k.terminal 0).histChk-(-1))) := hdepth
  have hone : T.histChk = 1 := by
    rw [hcount, hrest] at hclamped
    omega
  have hmoved : T.histChk ≠ (k.terminal 0).histChk := by omega
  have hdeep : T.histChk ≠ 0 := by omega
  obtain ⟨line,hentry,hidx,hcells⟩ := hline hmoved hdeep
  have hlast : [98] = line := by
    have hfirst : ([[98],[97]] : List (List UInt8))[T.histChk-1]? = some line := hentry
    rw [hone] at hfirst
    exact Option.some.inj hfirst
  subst hlast
  exact ⟨hcnt,hone,hidx,hcells 0 (by decide),hcells 1 (by decide)⟩

end GameOfThreads
