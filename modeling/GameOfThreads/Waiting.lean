import GameOfThreads.FileCalls
import GameOfThreads.Registers

/-! Who waits. A process goes to wait inside a read of its own, and comes out of it on its own
turn; all other events leave the waiting processes alone, but that a process that starts does
not wait. -/
namespace GameOfThreads
open Machine

/-- Where the processes wait after the start of one. -/
def rouse (waiting : ℕ → Option Wait) : Option ℕ → ℕ → Option Wait
  | some pid => Function.update waiting pid none
  | none => waiting

/-- Where nobody waits, nobody does after a start. -/
theorem rouse_nobody (started : Option ℕ) : rouse (fun _ => none) started = fun _ => none := by
  cases started with
  | none => rfl
  | some pid => exact Function.update_eq_self pid fun _ => none

section
variable {k k' : Kernel}

theorem ScreenOnly.waiting (h : ScreenOnly k k') : k'.waiting = k.waiting := by rw [h.rest]

theorem TerminalsOnly.waiting (h : TerminalsOnly k k') : k'.waiting = k.waiting := by rw [h.rest]

theorem ClockOnly.waiting (h : ClockOnly k k') : k'.waiting = k.waiting := by rw [h.rest]

theorem FlagsOnly.waiting (h : FlagsOnly k k') : k'.waiting = k.waiting := by rw [h.rest]

theorem FilesOnly.waiting (h : FilesOnly k k') : k'.waiting = k.waiting := by rw [h.rest]

theorem OnScreens.waiting (h : OnScreens k k') : k'.waiting = k.waiting := by rw [h.rest]

/-! ### Processes -/

theorem carryOut_waiting (v : Verdict) (cpu : Cpu) (pid : ℕ) (k : Kernel) :
    (v.carryOut cpu pid k).2.waiting = rouse k.waiting (v.carryOut cpu pid k).1.pid := by
  cases v with
  | null => rfl
  | refused message => exact (printf_screenOnly message k).waiting
  | overrun => rfl
  | broken bytes => rfl
  | accepted args entry bytes => rfl

theorem execute_waiting (fs : FileSystem) (cpu : Cpu) (command : Option (List UInt8))
    (k : Kernel) : (execute fs cpu command k).2.waiting =
      rouse k.waiting (execute fs cpu command k).1.pid := by
  cases hpid : k.table.nextPid with
  | none =>
    simp only [execute_eq, hpid]
    exact (printf_screenOnly _ k).waiting
  | some pid =>
    simp only [execute_eq, hpid]
    exact carryOut_waiting _ cpu pid (claimPid pid k)

theorem returnToParent_waiting (status p : ℕ) (k : Kernel) :
    (returnToParent status p k).2.waiting = k.waiting ∧
      (returnToParent status p k).1.started = none := by
  simp only [returnToParent]
  split_ifs <;> exact ⟨rfl,rfl⟩

theorem halt_waiting (fs : FileSystem) (cpu : Cpu) (status : ℕ) (k : Kernel) :
    (halt fs cpu status k).2.waiting = rouse k.waiting (halt fs cpu status k).1.started := by
  have hremove : (removeProcess k.running (closeFiles { k with interrupts := false })).waiting =
      k.waiting := by
    rw [closeFiles_eq]
    rfl
  have hreturn : ∀ k' : Kernel, k'.waiting = k.waiting →
      (returnToParent status k.running k').2.waiting =
        rouse k.waiting (returnToParent status k.running k').1.started := by
    intro k' hk'
    obtain ⟨hwaiting,hout⟩ := returnToParent_waiting status k.running k'
    rw [hwaiting, hout, hk']
    rfl
  simp only [halt]
  generalize removeProcess k.running (closeFiles { k with interrupts := false }) = k' at *
  split_ifs
  · have hexec := execute_waiting fs cpu (some (text "shell")) k'
    rw [hremove] at hexec
    generalize execute fs cpu (some (text "shell")) k' = r at *
    obtain ⟨r,k''⟩ := r
    cases r with
    | started pid entry => exact hexec
    | failed => exact hreturn k'' hexec
    | overrun => exact hreturn k'' hexec
  · exact hreturn k' hremove

theorem squashException_waiting (fs : FileSystem) (cpu : Cpu) (k : Kernel) :
    (squashException fs cpu k).2.waiting =
      rouse k.waiting (squashException fs cpu k).1.started := by
  unfold squashException
  split_ifs
  · exact halt_waiting fs cpu 0 (k.onPcb k.running (PCB.setHaltStat 1))
  · rfl

theorem pitHandler_waiting (cpu : Cpu) (k : Kernel) :
    (pitHandler cpu k).2.waiting = rouse k.waiting (pitHandler cpu k).1.started := by
  simp only [pitHandler]
  split_ifs <;> rfl

theorem terminalSwitch_waiting (fs : FileSystem) (cpu : Cpu) (cur dest : ℕ) (k : Kernel) :
    (terminalSwitch fs cpu cur dest k).2.waiting =
      rouse k.waiting (terminalSwitch fs cpu cur dest k).1.started := by
  unfold terminalSwitch
  split_ifs
  · exact (printf_screenOnly _ k).waiting
  · exact (printf_screenOnly _ k).waiting
  have hmove : (moveCursor dest
      { k with video := exchangeScreens cur dest k, viewingTerm := dest }).waiting = k.waiting :=
    (moveCursor_screenOnly dest _).waiting
  simp only
  generalize moveCursor dest { k with video := exchangeScreens cur dest k, viewingTerm := dest } =
    k' at *
  split_ifs
  · have hclear := (termClear_screenOnly dest k').waiting.trans hmove
    have hpark : ({ (termClear dest k').onPcb (k.terminal cur).process
        (PCB.saveContext cpu) with currentTerm := dest } : Kernel).waiting = k.waiting := hclear
    generalize ({ (termClear dest k').onPcb (k.terminal cur).process
      (PCB.saveContext cpu) with currentTerm := dest } : Kernel) = k'' at *
    have hexec := execute_waiting fs cpu (some (text "shell")) k''
    rw [hpark] at hexec
    generalize execute fs cpu (some (text "shell")) k'' = r at *
    obtain ⟨r,k₃⟩ := r
    cases r with
    | started pid entry => exact hexec
    | failed => exact (printf_screenOnly _ k₃).waiting.trans hexec
    | overrun => exact (printf_screenOnly _ k₃).waiting.trans hexec
  · exact hmove

theorem keyboardSwitch_waiting (fs : FileSystem) (cpu : Cpu) (pressed : ℕ) (k : Kernel) :
    (keyboardSwitch fs cpu pressed k).2.waiting =
      rouse k.waiting (keyboardSwitch fs cpu pressed k).1.started := by
  have hkeyed := keyboardSwitch_keyed fs cpu pressed k
  generalize keyboardSwitch fs cpu pressed k = r at *
  cases hkeyed with
  | erase _ => exact (backspace_terminalsOnly _ k).waiting
  | enter _ => exact (enterPress_terminalsOnly k).waiting
  | history _ => exact (terminalHistory_terminalsOnly _ k).waiting
  | tab _ => exact (tabPress_terminalsOnly k).waiting
  | char _ => exact (keyPress_terminalsOnly pressed k).waiting
  | clear _ => exact (termClear_screenOnly _ k).waiting
  | flags _ hk' => exact hk'.waiting
  | switch _ _ _ => exact terminalSwitch_waiting ..

/-! ### Calls -/

theorem write_waiting (fd : ℤ) (buf : Option (ℕ → UInt8)) (nbytes : ℤ) (k : Kernel) :
    (write fd buf nbytes k).2.waiting = k.waiting :=
  (write_draws fd buf nbytes k).same Kernel.waiting (fun _ _ h => h.waiting) fun _ _ h => h.waiting

/-- No event but a read, or the turn of a process inside one, changes who waits, unless a process
starts. -/
theorem step_waiting (fs : FileSystem) {op : Op} (hop : op.Quiet ∨ ∃ pressed cpu,
    op = .key pressed cpu) (k : Kernel) : ((kernel fs).next k op).waiting =
      rouse k.waiting ((kernel fs).out k op).started := by
  cases op with
  | execute command cpu => exact execute_waiting fs cpu command k
  | halt status cpu => exact halt_waiting fs cpu status k
  | squash cpu => exact squashException_waiting fs cpu k
  | pit cpu => exact pitHandler_waiting cpu k
  | switch dest cpu => exact terminalSwitch_waiting ..
  | key pressed cpu => exact keyboardSwitch_waiting fs cpu pressed { k with interrupts := false }
  | sysOpen filename => exact (sysOpen_filesOnly fs filename k).waiting
  | close fd => exact (close_filesOnly fd k).waiting
  | read fd null nbytes cpu => exact hop.elim False.elim fun ⟨_,_,h⟩ => Op.noConfusion h
  | write fd buf nbytes => exact write_waiting fd buf nbytes k
  | getargs null nbytes => exact congrArg Kernel.waiting (getargs_same null nbytes k)
  | vidmap screenStart => exact congrArg Kernel.waiting (vidmap_same screenStart k)
  | resume => exact hop.elim False.elim fun ⟨_,_,h⟩ => Op.noConfusion h
  | rtc => rfl

end
end GameOfThreads
