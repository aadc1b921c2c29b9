import GameOfThreads.CommandHistory
import GameOfThreads.CursorBounds

/-! Up and then Down. From a depth of 1 on Down goes back to the row that Up has left; from depth
0 there was none to leave, and Down goes to a row all the same. -/
namespace GameOfThreads
open Machine

/-- After Enter nothing is typed on terminal `t` but history keys, and keys that do nothing to
its line. Programs may read there, and the other terminals are free. -/
def Browsing (t : ℕ) (k : Kernel) (op : Op) : Prop :=
  (op.Proper ∧ KeyFits k op) ∧ ∀ pressed cpu, op = .key pressed cpu → k.viewingTerm = t →
    (∃ direction, HistoryKey pressed k direction) ∨ k.key pressed = .none

/-- The line is that of the cursor, unless the cursor is on none or a read has taken the line. -/
def Shown (t : ℕ) (k : Kernel) : Prop :=
  (k.terminal t).histChk ≠ 0 →
    (k.input t).line = (k.terminal t).row (k.terminal t).histPtr ∨ (k.input t).line = []

section
variable {k : Kernel} {t : ℕ} {s : Recall (List UInt8)}

theorem shown_of_same {k' : Kernel} (h : Shown t k)
    (hring : (k'.terminal t).ring = (k.terminal t).ring)
    (hline : (k'.input t).line = (k.input t).line ∨ (k'.input t).line = []) : Shown t k' := by
  intro hdepth
  have hchk : (k'.terminal t).histChk = (k.terminal t).histChk := congrArg HistoryRing.chk hring
  have hptr : (k'.terminal t).histPtr = (k.terminal t).histPtr := congrArg HistoryRing.ptr hring
  have hrow : (k'.terminal t).row = (k.terminal t).row := congrArg HistoryRing.row hring
  rcases hline with hline | hline
  · rw [hline, hptr, hrow]
    exact h (by rwa [← hchk])
  · exact .inr hline

/-- What is no press keeps the line or takes it away. -/
theorem editor_line (i : Input) {r : Request} (h : ∀ key, r ≠ .press key) :
    (editor.next i r).line = i.line ∨ (editor.next i r).line = [] := by
  have hlook : ∀ limit (j : Input),
      (j.look limit).2.line = j.line ∨ (j.look limit).2.line = [] := by
    intro limit j
    unfold Input.look
    split_ifs
    · exact .inl rfl
    · exact .inr rfl
  cases r with
  | press key => exact absurd rfl (h key)
  | look limit => exact hlook limit i
  | ask limit =>
    cases limit with
    | none => exact .inl rfl
    | some limit => exact hlook limit i.ask

/-- What is no history key is no event of the history. -/
theorem Browsing.historyOp {op : Op} (hop : Browsing t k op)
    (hkey : ∀ pressed cpu direction, op = .key pressed cpu → k.viewingTerm = t →
      ¬HistoryKey pressed k direction) : historyOp t k op = none := by
  cases op with
  | key pressed cpu =>
    by_cases hview : k.viewingTerm = t
    · have hnot := fun direction => hkey pressed cpu direction rfl hview
      have henter : pressed ≠ 0x1C := by
        rintro rfl
        rcases hop.2 _ cpu rfl hview with ⟨direction,hhistory⟩ | hnothing
        · exact hnot direction hhistory
        · cases hnothing
      have hup : ¬(k.numFlag = 0 ∧ pressed = 0x48) := fun hup =>
        hnot (-1) ⟨hup.1,.inl ⟨hup.2,rfl⟩⟩
      have hdown : ¬(k.numFlag = 0 ∧ pressed = 0x50) := fun hdown =>
        hnot 1 ⟨hdown.1,.inr ⟨hdown.2,rfl⟩⟩
      simp only [GameOfThreads.historyOp, if_neg henter, if_neg hup, if_neg hdown, ite_self]
    · exact if_pos hview
  | _ => rfl

/-- What is no history key keeps the line or takes it away. -/
theorem Browsing.line (fs : FileSystem) {op : Op} (hop : Browsing t k op) (hin : k.InRange)
    (hkey : ∀ pressed cpu direction, op = .key pressed cpu → k.viewingTerm = t →
      ¬HistoryKey pressed k direction) :
    (((kernel fs).next k op).input t).line = (k.input t).line ∨
      (((kernel fs).next k op).input t).line = [] := by
  rw [step_input fs hop.1.1 hin hop.1.2]
  cases hrequest : k.request op with
  | none => exact .inl rfl
  | some request =>
    obtain ⟨u,r⟩ := request
    rw [serve]
    by_cases hu : t = u
    · subst hu
      rw [Function.update_self]
      by_cases hpress : ∀ key, r ≠ .press key
      · exact editor_line _ hpress
      · simp only [not_forall, not_not] at hpress
        obtain ⟨key,rfl⟩ := hpress
        obtain ⟨pressed,cpu,rfl,hview,rfl⟩ := request_press hrequest
        rcases hop.2 pressed cpu rfl hview.symm with ⟨direction,hhistory⟩ | hnothing
        · exact absurd hhistory (hkey pressed cpu direction rfl hview.symm)
        · rw [hnothing]
          exact .inl rfl
    · rw [Function.update_of_ne hu]
      exact .inl rfl

/-- A history key that cannot turn leaves the line and the ring alone. -/
theorem historyKey_same {pressed : ℕ} {direction : ℤ} (hkey : HistoryKey pressed k direction)
    (hkept : HistoryKept t s k) (hcan : ¬(k.terminal k.viewingTerm).canTurn direction)
    (fs : FileSystem) (cpu : Cpu) :
    let k' := (kernel fs).next k (.key pressed cpu)
    (k'.terminal k.viewingTerm).ring = (k.terminal k.viewingTerm).ring ∧
      (k'.input k.viewingTerm).line = (k.input k.viewingTerm).line := by
  have hregisters := historyKey_registers hkey fs cpu hkept.inRange
  have hinput := historyKey_input hkey fs cpu hkept.inRange hkept.filled
  rw [Terminal.turned, if_neg hcan] at hregisters
  rw [Terminal.turn, if_neg hcan] at hinput
  have hrow : (((kernel fs).next k (.key pressed cpu)).terminal k.viewingTerm).row =
      (k.terminal k.viewingTerm).row := congrArg Input.history hinput
  refine ⟨?_,congrArg Input.line hinput⟩
  rw [Terminal.ring, hrow]
  exact congrArg (Registers.ring _) hregisters

/-- Every event after Enter keeps the line that of the cursor. -/
theorem Browsing.shown (fs : FileSystem) {op : Op} (hop : Browsing t k op)
    (hkept : HistoryKept t s k) (h : Shown t k) : Shown t ((kernel fs).next k op) := by
  by_cases hkey : ∀ pressed cpu direction, op = .key pressed cpu → k.viewingTerm = t →
      ¬HistoryKey pressed k direction
  · have hring := step_ring fs hop.1.1 hkept.inRange hop.1.2 (hkept.noNul t) hkept.holds
    rw [hop.historyOp hkey] at hring
    exact shown_of_same h hring (hop.line fs hkept.inRange hkey)
  · simp only [not_forall, not_not] at hkey
    obtain ⟨pressed,cpu,direction,rfl,rfl,hkey⟩ := hkey
    by_cases hcan : (k.terminal k.viewingTerm).canTurn direction
    · exact fun _ => .inl (historyKey_line hkey fs cpu hkept.inRange hkept.filled hcan)
    · obtain ⟨hring,hline⟩ := historyKey_same hkey hkept hcan fs cpu
      exact shown_of_same h hring (.inl hline)

/-! ### Two presses -/

/-- A history key as a call of terminal_history. -/
theorem historyKey_next {pressed : ℕ} {direction : ℤ} (hkey : HistoryKey pressed k direction)
    (fs : FileSystem) (cpu : Cpu) : ((kernel fs).next k (.key pressed cpu)) =
      { terminalHistory direction { k with interrupts := false } with interrupts := true } := by
  have hkeyed := keyboardSwitch_keyed fs cpu pressed { k with interrupts := false }
  have hnext : (kernel fs).next k (.key pressed cpu) =
      { (keyboardSwitch fs cpu pressed { k with interrupts := false }).2 with
        interrupts := true } := rfl
  rw [hnext]
  have hother : ¬OtherKey pressed { k with interrupts := false } := fun h => h.history _ hkey
  have hcode : pressed = 0x48 ∨ pressed = 0x50 := hkey.2.imp And.left And.left
  generalize keyboardSwitch fs cpu pressed { k with interrupts := false } = r at *
  cases hkeyed with
  | erase hpressed => omega
  | enter hpressed => omega
  | history hkey' => rw [HistoryKey.unique hkey hkey']
  | tab h => exact absurd h hother
  | char h => exact absurd h hother
  | clear h => exact absurd h hother
  | flags h _ => exact absurd h hother
  | switch h _ _ => exact absurd h hother

theorem historyKey_keeps {pressed : ℕ} {direction : ℤ} (hkey : HistoryKey pressed k direction)
    (fs : FileSystem) (cpu : Cpu) :
    ((kernel fs).next k (.key pressed cpu)).viewingTerm = k.viewingTerm ∧
      ((kernel fs).next k (.key pressed cpu)).numFlag = k.numFlag := by
  rw [historyKey_next hkey]
  have hrest := (terminalHistory_terminalsOnly direction { k with interrupts := false }).rest
  generalize terminalHistory direction { k with interrupts := false } = k' at *
  rw [hrest]
  exact ⟨rfl,rfl⟩

/-- The row that Down goes to after Up. -/
def Terminal.returnRow (t : Terminal) : ℕ :=
  if t.histChk = 0 then if t.histCnt < maxHist then 0 else t.histFill else t.histPtr

/-- Up and Down leave the line of that row. -/
theorem upDown_line (hkept : HistoryKept t s k) (hview : k.viewingTerm = t) (hnum : k.numFlag = 0)
    (hup : (k.terminal t).histChk < (k.terminal t).histCnt) (fs : FileSystem) (cpu cpu' : Cpu) :
    let k' := (kernel fs).next ((kernel fs).next k (.key 0x48 cpu)) (.key 0x50 cpu')
    (k'.input t).line = (k.terminal t).row (k.terminal t).returnRow ∧ k'.Tidy := by
  intro k'
  have hk' : k' = (kernel fs).next ((kernel fs).next k (.key 0x48 cpu)) (.key 0x50 cpu') := rfl
  clear_value k'
  subst hview
  have hkey : HistoryKey 0x48 k (-1) := ⟨hnum,.inl ⟨rfl,rfl⟩⟩
  obtain ⟨hview,hflag⟩ := historyKey_keeps hkey fs cpu
  have hfirst := hkept.press rfl hkey fs cpu
  have hback := hkept.press_ring rfl hkey fs cpu
  generalize (kernel fs).next k (.key 0x48 cpu) = k₁ at *
  have hkey' : HistoryKey 0x50 k₁ 1 := ⟨hflag.trans hnum,.inr ⟨rfl,rfl⟩⟩
  have hsecond := hfirst.press hview hkey' fs cpu'
  have hforth := hfirst.press_ring hview hkey' fs cpu'
  rw [hback, ← hk'] at hforth
  rw [← hk'] at hsecond
  refine ⟨?_,hsecond.tidy⟩
  have hchk : (k₁.terminal k₁.viewingTerm).histChk = (k.terminal k.viewingTerm).histChk+1 := by
    rw [hview]
    exact (congrArg HistoryRing.chk hback).trans (HistoryRing.back_chk hup)
  have hcnt : (k₁.terminal k₁.viewingTerm).histCnt = (k.terminal k.viewingTerm).histCnt := by
    rw [hview]
    exact (congrArg HistoryRing.cnt hback).trans (HistoryRing.back_cnt _)
  have hcan : (k₁.terminal k₁.viewingTerm).canTurn 1 := by
    simp only [Terminal.canTurn]
    rw [hchk, hcnt]
    simp
    omega
  have hline := historyKey_line hkey' fs cpu' hfirst.inRange hfirst.filled hcan
  rw [hview, ← hk'] at hline
  have hrow : (k'.terminal k.viewingTerm).row = (k.terminal k.viewingTerm).row :=
    (congrArg HistoryRing.row hforth).trans
      ((HistoryRing.forth_row _).trans (HistoryRing.back_row _))
  have hptr : (k'.terminal k.viewingTerm).histPtr = (k.terminal k.viewingTerm).returnRow :=
    (congrArg HistoryRing.ptr hforth).trans (hkept.holds.back_forth hup)
  rw [← hptr, ← hrow]
  exact hline

end

/-! ### After Enter -/

/-- The states in which nothing has been typed on terminal `t` since Enter. -/
inductive Browsed (fs : FileSystem) (k₀ : Kernel) (t : ℕ) : Kernel → Prop
  | enter {ops : List Op} {cpu : Cpu}
      (hops : (kernel fs).Along (fun k op => op.Proper ∧ KeyFits k op) k₀ ops)
      (hview : ((kernel fs).run k₀ ops).viewingTerm = t)
      (hfits : KeyFits ((kernel fs).run k₀ ops) (.key 0x1C cpu)) :
      Browsed fs k₀ t ((kernel fs).next ((kernel fs).run k₀ ops) (.key 0x1C cpu))
  | step {k : Kernel} {op : Op} (h : Browsed fs k₀ t k) (hop : Browsing t k op) :
      Browsed fs k₀ t ((kernel fs).next k op)

theorem Browsed.shown {fs : FileSystem} {pcb : ℕ → PCB} {phys : ℕ → UInt8} {t : ℕ} {k : Kernel}
    (h : Browsed fs (initial pcb phys) t k) : (∃ s, HistoryKept t s k) ∧ Shown t k := by
  induction h with
  | @enter ops cpu hops hview hfits =>
    have hkept := run_historyKept fs pcb phys hops t
    have hproper : (Op.key 0x1C cpu).Proper := trivial
    have henter := hkept.step fs hproper hfits
    have hevent : historyOp t ((kernel fs).run (initial pcb phys) ops) (.key 0x1C cpu) =
        some (.submit (((kernel fs).run (initial pcb phys) ops).input t).line) := by
      simp [historyOp, hview]
    rw [hevent] at henter
    exact ⟨⟨_,henter⟩,fun hdepth => absurd henter.holds.chk hdepth⟩
  | step _ hop ih =>
    obtain ⟨⟨s,hkept⟩,hshown⟩ := ih
    exact ⟨⟨_,hkept.step fs hop.1.1 hop.1.2⟩,hop.shown fs hkept hshown⟩

/-- Up and then Down restore the buffer in two cases. From a depth of 1 on the line is still that
of the cursor, unless a read has taken it and left nothing. From depth 0 the line is the entry of
the row that the cursor wraps to, which is the first while there are fewer than three lines, and
the oldest from then on. -/
theorem up_down_iff (fs : FileSystem) (pcb : ℕ → PCB) (phys : ℕ → UInt8) {t : ℕ} {k : Kernel}
    (h : Browsed fs (initial pcb phys) t k) (hview : k.viewingTerm = t) (hnum : k.numFlag = 0)
    (hup : (k.terminal t).histChk < (k.terminal t).histCnt) (up down : Cpu) :
    let T := k.terminal t
    let T' := ((kernel fs).run k [.key 0x48 up,.key 0x50 down]).terminal t
    (T'.keyboardBufIdx = T.keyboardBufIdx ∧
      ∀ i < keyBuffSize, T'.keyboardBuffer i = T.keyboardBuffer i) ↔
    (T.histChk ≠ 0 ∧ (T.input.line = [] → T.row T.histPtr = []) ∨
      T.histChk = 0 ∧
        T.input.line = T.row (if T.histCnt < maxHist then 0 else T.histFill)) := by
  intro T T'
  obtain ⟨⟨s,hkept⟩,hshown⟩ := h.shown
  obtain ⟨hback,htidy⟩ := upDown_line hkept hview hnum hup fs up down
  have hline : T'.input.line = T.row T.returnRow := hback
  have htidy : T'.Tidy := htidy t
  have hsame := (hkept.tidy t).same_iff htidy (hkept.filled t)
  rw [hsame, hline]
  by_cases hdepth : T.histChk = 0
  · have hrow : T.returnRow = if T.histCnt < maxHist then 0 else T.histFill := if_pos hdepth
    rw [hrow]
    constructor
    · exact fun heq => .inr ⟨hdepth,heq.symm⟩
    · rintro (⟨hne,-⟩ | ⟨-,heq⟩)
      · exact absurd hdepth hne
      · exact heq.symm
  · have hrow : T.returnRow = T.histPtr := if_neg hdepth
    rw [hrow]
    constructor
    · exact fun heq => .inl ⟨hdepth,fun hnil => heq.trans hnil⟩
    · rintro (⟨-,hkeep⟩ | ⟨hzero,-⟩)
      · rcases hshown hdepth with hshown | hnil
        · exact hshown.symm
        · exact (hkeep hnil).trans hnil.symm
      · exact absurd hzero hdepth

/-- Up after two commands: the buffer shows the second, and Up and Down come back to it. -/
theorem up_down_two :
    let k := (kernel shellImage).run (initial (fun _ => PCB.zero) fun _ => 0)
      (twoCommands ++ [.key 0x48 ⟨3,3,fun _ => 0⟩])
    let T := k.terminal 0
    let T' := ((kernel shellImage).run k
      [.key 0x48 ⟨4,4,fun _ => 0⟩,.key 0x50 ⟨4,4,fun _ => 0⟩]).terminal 0
    T.histChk = 1 ∧ T.input.line = [98] ∧ T'.keyboardBufIdx = T.keyboardBufIdx ∧
      ∀ i < keyBuffSize, T'.keyboardBuffer i = T.keyboardBuffer i := by
  intro k T T'
  have hview : k.viewingTerm = 0 := by decide +kernel
  have hnum : k.numFlag = 0 := by decide +kernel
  have hup : (k.terminal 0).histChk < (k.terminal 0).histCnt := by decide +kernel
  have hchk : T.histChk = 1 := by decide +kernel
  have hline : T.input.line = [98] := by decide +kernel
  have hbrowsed : Browsed shellImage (initial (fun _ => PCB.zero) fun _ => 0) 0 k := by
    have htwo := twoCommands_fits
    have hlast : twoCommands = fromBoot ⟨1,1,fun _ => 0⟩ [.key 0x1E ⟨2,2,fun _ => 0⟩,
        .key 0x1C ⟨2,2,fun _ => 0⟩,.key 0x30 ⟨2,2,fun _ => 0⟩] ++
          [.key 0x1C ⟨2,2,fun _ => 0⟩] := rfl
    rw [hlast, System.along_snoc] at htwo
    obtain ⟨hops,-,hfits⟩ := htwo
    have henter := Browsed.enter (t := 0) hops (by decide +kernel) hfits
    refine henter.step ⟨⟨trivial,?_⟩,?_⟩
    · rintro _ _ ⟨⟩
      exact ⟨by decide +kernel,nofun⟩
    · rintro _ _ ⟨⟩ -
      exact .inl ⟨-1,by decide +kernel,.inl ⟨rfl,rfl⟩⟩
  have hnonempty : T.input.line = [] → T.row T.histPtr = [] := by
    rw [hline]
    exact nofun
  have hdepth : T.histChk ≠ 0 := by
    rw [hchk]
    exact Nat.one_ne_zero
  exact ⟨hchk,hline,(up_down_iff shellImage _ _ hbrowsed hview hnum hup _ _).mpr
    (.inl ⟨hdepth,hnonempty⟩)⟩

/-- Up and Down from the empty line after a command bring the command. -/
theorem up_down_shows :
    let k₀ := initial (fun _ => PCB.zero) fun _ => 0
    let k := (kernel shellImage).run k₀
      (fromBoot ⟨1,1,fun _ => 0⟩ [.key 0x1E ⟨2,2,fun _ => 0⟩,.key 0x1C ⟨2,2,fun _ => 0⟩])
    let T := k.terminal 0
    let T' := ((kernel shellImage).run k
      [.key 0x48 ⟨3,3,fun _ => 0⟩,.key 0x50 ⟨3,3,fun _ => 0⟩]).terminal 0
    Browsed shellImage k₀ 0 k ∧ k.viewingTerm = 0 ∧ k.numFlag = 0 ∧ T.histChk < T.histCnt ∧
      T.input.line = [] ∧ T'.input.line = [97] ∧ T'.keyboardBufIdx ≠ T.keyboardBufIdx := by
  intro k₀ k T T'
  refine ⟨?_,by decide +kernel,by decide +kernel,by decide +kernel,by decide +kernel,
    by decide +kernel,by decide +kernel⟩
  have hops : (kernel shellImage).Along (fun k op => op.Proper ∧ KeyFits k op) k₀
      (fromBoot ⟨1,1,fun _ => 0⟩ [.key 0x1E ⟨2,2,fun _ => 0⟩]) := by
    refine ⟨⟨trivial,?_⟩,⟨trivial,?_⟩,trivial⟩
    · rintro _ _ ⟨⟩
    · rintro _ _ ⟨⟩
      exact ⟨by decide +kernel,nofun⟩
  have hfits : KeyFits ((kernel shellImage).run k₀
      (fromBoot ⟨1,1,fun _ => 0⟩ [.key 0x1E ⟨2,2,fun _ => 0⟩])) (.key 0x1C ⟨2,2,fun _ => 0⟩) := by
    rintro _ _ ⟨⟩
    exact ⟨by decide +kernel,fun _ => by decide +kernel⟩
  have hrun : k = (kernel shellImage).next ((kernel shellImage).run k₀
      (fromBoot ⟨1,1,fun _ => 0⟩ [.key 0x1E ⟨2,2,fun _ => 0⟩])) (.key 0x1C ⟨2,2,fun _ => 0⟩) := by
    simp only [k, fromBoot, System.run, List.foldl_cons, List.foldl_nil]
  rw [hrun]
  exact .enter hops (by decide +kernel) hfits

end GameOfThreads
