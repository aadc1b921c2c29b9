import GameOfThreads.Keyboard

/-! The kernel as an event system: every way into it, the state that boot leaves, and what
the trace of a run tells about its processes. -/
namespace GameOfThreads
open Machine

/-- The ways into the kernel: system calls of the running process, a blocked read that gets
the processor back, exceptions, and interrupts. `switch` is terminal_switch as
keyboard_handler calls it, from the terminal in view. -/
inductive Op
  | execute (command : Option (List UInt8)) (cpu : Cpu)
  | halt (status : Fin 256) (cpu : Cpu)
  | squash (cpu : Cpu)
  | pit (cpu : Cpu)
  | switch (dest : ℕ) (cpu : Cpu)
  | key (pressed : ℕ) (cpu : Cpu)
  | sysOpen (filename : Option (List UInt8))
  | close (fd : ℤ)
  | read (fd : ℤ) (null : Bool) (nbytes : ℤ) (cpu : Cpu)
  | write (fd : ℤ) (buf : Option (ℕ → UInt8)) (nbytes : ℤ)
  | getargs (null : Bool) (nbytes : ℤ)
  | vidmap (screenStart : ℕ)
  | resume
  | rtc

def reply (r : Reply × Kernel) : Out × Kernel := (.reply r.1,r.2)

def step (fs : FileSystem) (k : Kernel) : Op → Out × Kernel
  | .execute command cpu => let r := execute fs cpu command k; (.exec r.1,r.2)
  | .halt status cpu => halt fs cpu status k
  | .squash cpu => squashException fs cpu k
  | .pit cpu => pitHandler cpu k
  | .switch dest cpu => terminalSwitch fs cpu k.viewingTerm dest k
  | .key pressed cpu => keyboardHandler fs cpu pressed k
  | .sysOpen filename => reply (sysOpen fs filename k)
  | .close fd => reply (close fd k)
  | .read fd null nbytes cpu => reply (read fs fd null nbytes cpu k)
  | .write fd buf nbytes => reply (write fd buf nbytes k)
  | .getargs null nbytes => reply (getargs null nbytes k)
  | .vidmap screenStart => reply (vidmap screenStart k)
  | .resume => reply (resume k)
  | .rtc => (.quiet,rtcInterrupt k)

/-- The kernel on a file system image. -/
def kernel (fs : FileSystem) : System Kernel Op Out := ⟨step fs⟩

section
variable (fs : FileSystem) (k : Kernel)

@[simp] theorem out_execute (command : Option (List UInt8)) (cpu : Cpu) :
    (kernel fs).out k (.execute command cpu) = .exec (execute fs cpu command k).1 := rfl

@[simp] theorem next_execute (command : Option (List UInt8)) (cpu : Cpu) :
    (kernel fs).next k (.execute command cpu) = (execute fs cpu command k).2 := rfl

@[simp] theorem out_squash (cpu : Cpu) :
    (kernel fs).out k (.squash cpu) = (squashException fs cpu k).1 := rfl

@[simp] theorem next_squash (cpu : Cpu) :
    (kernel fs).next k (.squash cpu) = (squashException fs cpu k).2 := rfl

end

/-! ### Boot -/

/-- Static storage, zero at boot, in front of the memory that boot finds. -/
def staticStorage (pcb : ℕ → PCB) (phys : ℕ → UInt8) : Kernel where
  terminal _ :=
    { screenX := 0, screenY := 0, keyboardBuffer := fun _ => 0, keyboardBufIdx := 0
      termVideoMem := 0, process := 0, enterFlag := 0, readWanted := 0, color := 0
      historyBuf := fun _ _ => 0, histPtr := 0, histChk := 0, histFill := 0, histCnt := 0 }
  currentTerm := 0
  viewingTerm := 0
  termsOn := 0
  pcbInUse _ := 0
  totalProgs _ := 0
  processCnt := 0
  pcb := pcb
  pageDirUser := 0x02
  tssEsp0 := 0x800000
  interrupts := true
  video :=
    { phys := phys, pageTabArrayVideo := fun i => if i = 0 then videoEntry else 0
      cells := [], faults := [] }
  bootX := 0
  bootY := 0
  cursorLow := 0
  cursorHigh := 0
  capFlag := 0
  shiftFlag := 0
  altFlag := 0
  ctlFlag := 0
  numFlag := 0
  rtcFlag _ := 0
  rate := 15
  registerA := 0x2F
  waiting _ := none
  keyStores := []
  histCopies := []

def terminalColor : ℕ → UInt8
  | 0 => 0x7
  | 1 => 0x9
  | _ => 0xA

/-- The initial members of terminal `term`; the history count keeps its static zero. -/
def Terminal.init (term : ℕ) (t : Terminal) : Terminal :=
  { t with
    screenX := 0, screenY := 0, keyboardBufIdx := 0, enterFlag := 0, readWanted := 0
    process := 10, histPtr := 0, histChk := 0, histFill := 0
    keyboardBuffer := fun i => if i < keyBuffSize then noke else t.keyboardBuffer i
    historyBuf := fun hist i =>
      if hist < maxHist ∧ i < keyBuffSize then noke else t.historyBuf hist i
    termVideoMem := mem132+term*pagesSize
    color := terminalColor term }

/-- The loop and the mappings of terminal_init. -/
def setTerminals (k : Kernel) : Kernel :=
  { k with
    currentTerm := 0
    viewingTerm := 0
    terminal := fun term =>
      if term < numTerm then (k.terminal term).init term else k.terminal term
    totalProgs := fun term => if term < numTerm then 0 else k.totalProgs term
    video := mapTermToBuf 2 (mapTermToBuf 1 (mapTermToVid 0 k.video)) }

def terminalInit (k : Kernel) : Kernel :=
  let k := termClear 0 (setTerminals k)
  moveCursor 0 { k with processCnt := 0, termsOn := 1 }

/-- The state in which the kernel executes its first shell. -/
def initial (pcb : ℕ → PCB) (phys : ℕ → UInt8) : Kernel :=
  terminalInit (staticStorage pcb phys)

/-- The events of a run from boot: the first shell, then anything. -/
def fromBoot (cpu : Cpu) (ops : List Op) : List Op := .execute (some (text "shell")) cpu :: ops

end GameOfThreads
