import GameOfThreads.Descriptors

/-! Processes: the PID table, command parsing, execute and halt, the exception path, and the
timer interrupt that moves the processor between terminals. -/
namespace GameOfThreads
open Machine

def comBufSize : ℕ := 128
def headerSize : ℕ := 40

/-- What execute comes to: it returns -1; it leaves for the entry point of a new process; or
a word of the command runs over the end of a local buffer, and nothing more can be said. -/
inductive ExecResult
  | failed
  | started (pid entry : ℕ)
  | overrun
  deriving DecidableEq, Repr

/-- What a kernel entry reports: nothing, a system call's reply, the result of execute, the
stack registers and value with which halt returns into execute, the stack registers that
the timer handler loads, or that the processor spins. -/
inductive Out
  | quiet
  | reply (r : Reply)
  | exec (r : ExecResult)
  | resumed (esp ebp retval : ℕ)
  | switched (esp ebp : ℕ)
  | spinning
  deriving DecidableEq, Repr

def getEsp0 (pid : ℕ) : ℕ := topOfKernel-kb8*pid-4

def getPcbAddr (pid : ℕ) : ℕ := topOfKernel-kb8*(pid+1)

/-- The page directory entry of a process: present, writable, user, 4 MB. -/
def userEntry (pid : ℕ) : ℕ := (eightMB+fourMB*pid) ||| 0x80 ||| 0x02 ||| 0x01 ||| 0x04

def setPageExecute (pid : ℕ) (k : Kernel) : Kernel := { k with pageDirUser := userEntry pid }

def pidAvailable (k : Kernel) : Option ℕ × Kernel :=
  match (List.range maxNumProc).find? fun i => k.pcbInUse i = 0 with
  | some i => (some i,{ k with pcbInUse := Function.update k.pcbInUse i 1 })
  | none => (none,k)

def freePid (pid : ℕ) (k : Kernel) : Kernel :=
  { k with pcbInUse := Function.update k.pcbInUse pid 0 }

/-! ### Command parsing

A cursor into the command is the list of bytes from it on; past the end stands the NUL. -/

/-- The loop over leading spaces. Its blank test looks at the start of the command. -/
def skipLeading (command : List UInt8) : List UInt8 → Option (List UInt8)
  | [] => some []
  | c :: cursor =>
    if c = space then
      if cstring command 0 = newline ∨ cstring command 0 = noke then none
      else skipLeading command cursor
    else some (c :: cursor)

def inWord (c : UInt8) : Bool := c ≠ space ∧ c ≠ newline ∧ c ≠ noke
def inLine (c : UInt8) : Bool := c ≠ noke ∧ c ≠ newline

/-- The first word and the rest of the line, without their terminators. -/
def parseArgs (command : Option (List UInt8)) : Option (List UInt8 × List UInt8) :=
  match command with
  | none => none
  | some command =>
    match skipLeading command command with
    | none => none
    | some cursor =>
      let filename := cursor.takeWhile inWord
      let cursor := (cursor.dropWhile inWord).dropWhile (· = space)
      some (filename,cursor.takeWhile inLine)

/-! ### execute -/

/-- The program's bytes through the user page, and past its end through the video window. -/
def Video.loadProgram (entry : ℕ) (bytes : List UInt8) (v : Video) : Video :=
  (List.range bytes.length).foldl (fun v i =>
    let a := progImageLocation+i
    if a/fourMB = 32 then
      { v with phys := Function.update v.phys (entry/fourMB*fourMB+a % fourMB) (bytes.getD i 0) }
    else v.store a (bytes.getD i 0)) v

def stdDes : FileDes := { opTable := .stdOps, inode := -1, filePosition := 0, flags := 1 }

/-- A PCB set up for a new process. The saved context and the exception mark keep what the
last process with this PID left in them. -/
def PCB.start (pid parent : ℕ) (args : List UInt8) (cpu : Cpu) (pcb : PCB) : PCB :=
  { pcb with
    pidNum := pid
    parentPidNum := parent
    fileDesArray := fun i =>
      if i < fileStart then stdDes
      else if i < maxFile then { pcb.fileDesArray i with flags := 0 }
      else pcb.fileDesArray i
    args := strcpy pcb.args (cstring args)
    parEsp := cpu.esp
    parEbp := cpu.ebp }

def Terminal.setProcess (p : ℕ) (t : Terminal) : Terminal := { t with process := p }

/-- execute from the point where the program is loaded on: a first process of a terminal is
its own parent. -/
def startProcess (cpu : Cpu) (pid : ℕ) (args : List UInt8) (k : Kernel) : Kernel :=
  let parent := if k.totalProgs k.currentTerm = 0 then pid else k.running
  let k := k.onPcb pid (PCB.start pid parent args cpu)
  let k := k.onTerminal k.currentTerm (Terminal.setProcess pid)
  { k with
    tssEsp0 := getEsp0 pid
    totalProgs := Function.update k.totalProgs k.currentTerm
      ((k.totalProgs k.currentTerm+1) % 256)
    processCnt := (k.processCnt+1) % 256
    interrupts := true
    waiting := Function.update k.waiting pid none }

/-- The exits of execute that give the PID back. -/
def giveUp (pid : ℕ) (message : List UInt8) (k : Kernel) : ExecResult × Kernel :=
  (.failed,freePid pid (printf message k))

def isElf (header : ℕ → UInt8) : Bool :=
  header 0 = 0x7F ∧ header 1 = 0x45 ∧ header 2 = 0x4C ∧ header 3 = 0x46

/-- execute from the loading of the program on, by what read_data says of the whole file. -/
def loadFile (image : ℤ × List UInt8) (cpu : Cpu) (pid entry : ℕ) (args : List UInt8)
    (k : Kernel) : ExecResult × Kernel :=
  let k := setPageExecute pid { k with interrupts := false }
  let k := { k with video := k.video.loadProgram k.pageDirUser image.2 }
  if image.1 = -1 then (.failed,{ freePid pid k with interrupts := true })
  else (.started pid entry,startProcess cpu pid args k)

/-- execute from the header of the file on. -/
def executeFile (fs : FileSystem) (cpu : Cpu) (pid inode : ℕ) (args : List UInt8) (k : Kernel) :
    ExecResult × Kernel :=
  let read := fs.readData inode 0 false headerSize
  if read.1 = -1 then giveUp pid (text "Read data error\n") k
  else
    let header := overlay cpu.stack 0 read.2
    if !isElf header then giveUp pid (text "\nError: File is not an executable \n") k
    else loadFile (fs.readData inode 0 false fourMB) cpu pid (word header 24) args k

def execute (fs : FileSystem) (cpu : Cpu) (command : Option (List UInt8)) (k : Kernel) :
    ExecResult × Kernel :=
  match pidAvailable k with
  | (none,k) => (.failed,printf (text "\n Error: Max processes reached\n") k)
  | (some pid,k) =>
    if command.isNone then (.failed,k)
    else
      match parseArgs command with
      | none => giveUp pid (text "Bad command parse\n") k
      | some (filename,args) =>
        if filename.length ≥ comBufSize ∨ args.length ≥ comBufSize then (.overrun,k)
        else
          match fs.readDentryByName (some filename) with
          | none => giveUp pid (text "\nError: File not found \n") k
          | some fdentry =>
            if fdentry.filetype ≠ 2 then giveUp pid (text "\nError: Filetype\n") k
            else executeFile fs cpu pid (u32 fdentry.inodeNum) args k

/-! ### halt and exceptions -/

def closeFiles (k : Kernel) : Kernel :=
  [2,3,4,5,6,7].foldl (fun k (fd : ℕ) => (close fd k).2) k

def PCB.setHaltStat (n : ℕ) (pcb : PCB) : PCB := { pcb with haltStat := n }

/-- The end of halt: back to the parent, in the frame of the execute call that started the
process `p`. -/
def returnToParent (status p : ℕ) (k : Kernel) : Out × Kernel :=
  let current := k.pcb p
  let k := k.onTerminal k.currentTerm (Terminal.setProcess current.parentPidNum)
  let k := setPageExecute current.parentPidNum
    { k with tssEsp0 := getEsp0 current.parentPidNum, interrupts := true }
  if current.haltStat = 1 then
    (.resumed current.parEsp current.parEbp 256,k.onPcb p (PCB.setHaltStat 0))
  else (.resumed current.parEsp current.parEbp status,k)

/-- The counters after a process has gone, and its PID back in the table. -/
def removeProcess (p : ℕ) (k : Kernel) : Kernel :=
  { k with
    totalProgs := Function.update k.totalProgs k.currentTerm
      ((k.totalProgs k.currentTerm+255) % 256)
    processCnt := (k.processCnt+255) % 256
    pcbInUse := Function.update k.pcbInUse (k.pcb p).pidNum 0 }

/-- The last process of a terminal makes room for a new shell; execute comes back from that
only when it fails. -/
def halt (fs : FileSystem) (cpu : Cpu) (status : ℕ) (k : Kernel) : Out × Kernel :=
  let p := k.running
  let k := removeProcess p (closeFiles { k with interrupts := false })
  if k.totalProgs k.currentTerm = 0 then
    match execute fs cpu (some (text "shell")) k with
    | (.started pid entry,k) => (.exec (.started pid entry),k)
    | (_,k) => returnToParent status p k
  else returnToParent status p k

def squashException (fs : FileSystem) (cpu : Cpu) (k : Kernel) : Out × Kernel :=
  if k.termsOn ≠ 0 then halt fs cpu 0 (k.onPcb k.running (PCB.setHaltStat 1))
  else (.spinning,k)

/-! ### The timer interrupt -/

/-- The search of get_scheduled_term, which is back at the running terminal after three. -/
def scheduledFrom (k : Kernel) : (fuel : ℕ) → (term : ℕ) → ℕ
  | 0,term => term
  | fuel+1,term =>
    if term = k.currentTerm then term
    else if k.totalProgs term > 0 then term
    else scheduledFrom k fuel ((term+1) % numTerm)

def getScheduledTerm (k : Kernel) : ℕ :=
  scheduledFrom k numTerm ((k.currentTerm+1) % numTerm)

def PCB.saveContext (cpu : Cpu) (pcb : PCB) : PCB :=
  { pcb with thisEsp := cpu.esp, thisEbp := cpu.ebp }

def pitHandler (cpu : Cpu) (k : Kernel) : Out × Kernel :=
  let nextTerm := getScheduledTerm k
  if nextTerm = k.currentTerm then (.quiet,{ k with interrupts := true })
  else
    let curPid := k.running
    let nextPid := (k.terminal nextTerm).process
    let k := setPageExecute nextPid { k with tssEsp0 := getEsp0 nextPid }
    let k := k.onPcb curPid (PCB.saveContext cpu)
    let k := { k with currentTerm := nextTerm, interrupts := true }
    (.switched (k.pcb nextPid).thisEsp (k.pcb nextPid).thisEbp,k)

end GameOfThreads
