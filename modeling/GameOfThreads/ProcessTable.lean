import GameOfThreads.System

/-! The process table: the fields in which execute, halt and the switches keep account, and
what each of them does to these fields. Output and the keyboard leave them alone. -/
namespace GameOfThreads
open Machine

def PCB.closeFiles (pcb : PCB) : PCB :=
  { pcb with
    fileDesArray := fun i =>
      if fileStart ≤ i ∧ i < maxFile then { pcb.fileDesArray i with flags := 0 }
      else pcb.fileDesArray i }

/-- The account of the processes. -/
structure Table where
  process : ℕ → ℕ
  currentTerm : ℕ
  viewingTerm : ℕ
  termsOn : ℕ
  pcbInUse : ℕ → ℕ
  totalProgs : ℕ → ℕ
  processCnt : ℕ
  pcb : ℕ → PCB
  pageDirUser : ℕ
  tssEsp0 : ℕ

namespace Table
variable (T : Table)

def running : ℕ := T.process T.currentTerm

/-- The PID that the next process gets. -/
def nextPid : Option ℕ := (List.range maxNumProc).find? fun i => T.pcbInUse i = 0

def claim (pid : ℕ) : Table := { T with pcbInUse := Function.update T.pcbInUse pid 1 }

def mapUser (pid : ℕ) : Table := { T with pageDirUser := userEntry pid }

def onPcb (p : ℕ) (f : PCB → PCB) : Table :=
  { T with pcb := Function.update T.pcb p (f (T.pcb p)) }

/-- The parent of the next process: itself on a terminal without programs. -/
def parentFor (pid : ℕ) : ℕ := if T.totalProgs T.currentTerm = 0 then pid else T.running

/-- A new process on the running terminal. -/
def start (cpu : Cpu) (pid : ℕ) (args : List UInt8) : Table :=
  { T with
    process := Function.update T.process T.currentTerm pid
    pcbInUse := Function.update T.pcbInUse pid 1
    totalProgs := Function.update T.totalProgs T.currentTerm
      ((T.totalProgs T.currentTerm+1) % 256)
    processCnt := (T.processCnt+1) % 256
    pcb := Function.update T.pcb pid (PCB.start pid (T.parentFor pid) args cpu (T.pcb pid))
    pageDirUser := userEntry pid
    tssEsp0 := getEsp0 pid }

/-- The running process out of the account, its files closed. -/
def remove : Table :=
  { T.onPcb T.running PCB.closeFiles with
    totalProgs := Function.update T.totalProgs T.currentTerm
      ((T.totalProgs T.currentTerm+255) % 256)
    processCnt := (T.processCnt+255) % 256
    pcbInUse := Function.update T.pcbInUse (T.pcb T.running).pidNum 0 }

/-- The parent of `p` in its place, and the exception mark of `p` gone. -/
def back (p : ℕ) : Table :=
  let parent := (T.pcb p).parentPidNum
  { T with
    process := Function.update T.process T.currentTerm parent
    pageDirUser := userEntry parent
    tssEsp0 := getEsp0 parent
    pcb := if (T.pcb p).haltStat = 1 then Function.update T.pcb p ((T.pcb p).setHaltStat 0)
      else T.pcb }

/-- What halt(status) hands to the parent of `p`. -/
def retval (status p : ℕ) : ℕ := if (T.pcb p).haltStat = 1 then 256 else status

/-- The processor to the process on top of terminal `next`. -/
def shift (cpu : Cpu) (next : ℕ) : Table :=
  { T.onPcb T.running (PCB.saveContext cpu) with
    currentTerm := next
    pageDirUser := userEntry (T.process next)
    tssEsp0 := getEsp0 (T.process next) }

def view (dest : ℕ) : Table := { T with viewingTerm := dest }

/-- Terminal `dest` in view and running, the context in the PCB of the terminal viewed
before. -/
def park (cpu : Cpu) (dest : ℕ) : Table :=
  { T.onPcb (T.process T.viewingTerm) (PCB.saveContext cpu) with
    viewingTerm := dest
    currentTerm := dest }

end Table

def Kernel.table (k : Kernel) : Table where
  process t := (k.terminal t).process
  currentTerm := k.currentTerm
  viewingTerm := k.viewingTerm
  termsOn := k.termsOn
  pcbInUse := k.pcbInUse
  totalProgs := k.totalProgs
  processCnt := k.processCnt
  pcb := k.pcb
  pageDirUser := k.pageDirUser
  tssEsp0 := k.tssEsp0

theorem TerminalsOnly.table {k k' : Kernel} (h : TerminalsOnly k k') : k'.table = k.table := by
  have hprocess : (fun t => (k'.terminal t).process) = fun t => (k.terminal t).process :=
    funext h.process
  simp only [Kernel.table, hprocess]
  rw [h.rest]

theorem ScreenOnly.table {k k' : Kernel} (h : ScreenOnly k k') : k'.table = k.table :=
  h.terminalsOnly.table

theorem ClockOnly.table {k k' : Kernel} (h : ClockOnly k k') : k'.table = k.table := by
  rw [h.rest]
  rfl

@[simp] theorem printf_table (s : List UInt8) (k : Kernel) : (printf s k).table = k.table :=
  (printf_screenOnly s k).table

@[simp] theorem onPcb_table (p : ℕ) (f : PCB → PCB) (k : Kernel) :
    (k.onPcb p f).table = k.table.onPcb p f := rfl

theorem setProcess_table (t p : ℕ) (k : Kernel) :
    (k.onTerminal t (Terminal.setProcess p)).table =
      { k.table with process := Function.update k.table.process t p } := by
  have hprocess : (fun u => ((k.onTerminal t (Terminal.setProcess p)).terminal u).process) =
      Function.update k.table.process t p := by
    funext u
    rw [Kernel.onTerminal_terminal, Function.update_apply]
    split_ifs <;> rfl
  simp only [Kernel.table] at hprocess ⊢
  rw [hprocess]
  rfl

/-! ### execute -/

def claimPid (pid : ℕ) (k : Kernel) : Kernel :=
  { k with pcbInUse := Function.update k.pcbInUse pid 1 }

theorem pidAvailable_none {k : Kernel} (h : k.table.nextPid = none) :
    pidAvailable k = (none,k) := by
  have hfind : (List.range maxNumProc).find? (fun i => k.pcbInUse i = 0) = none := h
  simp only [pidAvailable, hfind]

theorem pidAvailable_some {k : Kernel} {pid : ℕ} (h : k.table.nextPid = some pid) :
    pidAvailable k = (some pid,claimPid pid k) := by
  have hfind : (List.range maxNumProc).find? (fun i => k.pcbInUse i = 0) = some pid := h
  simp only [pidAvailable, hfind, claimPid]

namespace Table
variable {T : Table} {pid : ℕ}

theorem nextPid_lt (h : T.nextPid = some pid) : pid < maxNumProc :=
  List.mem_range.mp (List.mem_of_find?_eq_some h)

theorem nextPid_free (h : T.nextPid = some pid) : T.pcbInUse pid = 0 := by
  simpa using List.find?_some h

theorem nextPid_eq_none : T.nextPid = none ↔ ∀ i < maxNumProc, T.pcbInUse i ≠ 0 := by
  simp [nextPid]

end Table

theorem freePid_claimPid {k : Kernel} {pid : ℕ} (h : k.pcbInUse pid = 0) :
    freePid pid (claimPid pid k) = k := by
  have : Function.update k.pcbInUse pid 0 = k.pcbInUse := by rw [← h, Function.update_eq_self]
  simp [freePid, claimPid, this]

theorem freePid_table (pid : ℕ) (k : Kernel) :
    (freePid pid k).table =
      { k.table with pcbInUse := Function.update k.table.pcbInUse pid 0 } := rfl

/-- What execute makes of a command once it has a PID. The uninitialised header buffer is
one of its inputs. -/
inductive Verdict
  | null
  | refused (message : List UInt8)
  | overrun
  | broken (bytes : List UInt8)
  | accepted (args : List UInt8) (entry : ℕ) (bytes : List UInt8)

def imageVerdict (image : ℤ × List UInt8) (args : List UInt8) (entry : ℕ) : Verdict :=
  if image.1 = -1 then .broken image.2 else .accepted args entry image.2

namespace FileSystem
variable (fs : FileSystem)

def fileVerdict (stack : ℕ → UInt8) (inode : ℕ) (args : List UInt8) : Verdict :=
  let read := fs.readData inode 0 false headerSize
  if read.1 = -1 then .refused (text "Read data error\n")
  else if !isElf (overlay stack 0 read.2) then
    .refused (text "\nError: File is not an executable \n")
  else imageVerdict (fs.readData inode 0 false fourMB) args (word (overlay stack 0 read.2) 24)

def verdict (stack : ℕ → UInt8) (command : Option (List UInt8)) : Verdict :=
  if command.isNone then .null
  else
    match parseArgs command with
    | none => .refused (text "Bad command parse\n")
    | some (filename,args) =>
      if filename.length ≥ comBufSize ∨ args.length ≥ comBufSize then .overrun
      else
        match fs.readDentryByName (some filename) with
        | none => .refused (text "\nError: File not found \n")
        | some fdentry =>
          if fdentry.filetype ≠ 2 then .refused (text "\nError: Filetype\n")
          else fs.fileVerdict stack (u32 fdentry.inodeNum) args

end FileSystem

/-- The user page switched to a new process and the program's bytes stored through it. -/
def loadProcess (pid : ℕ) (bytes : List UInt8) (k : Kernel) : Kernel :=
  let k := setPageExecute pid { k with interrupts := false }
  { k with video := k.video.loadProgram k.pageDirUser bytes }

/-- What follows from the verdict. -/
def Verdict.carryOut (cpu : Cpu) (pid : ℕ) (k : Kernel) : Verdict → ExecResult × Kernel
  | .null => (.failed,k)
  | .refused message => giveUp pid message k
  | .overrun => (.overrun,k)
  | .broken bytes => (.failed,{ freePid pid (loadProcess pid bytes k) with interrupts := true })
  | .accepted args entry bytes =>
    (.started pid entry,startProcess cpu pid args (loadProcess pid bytes k))

theorem loadFile_eq (image : ℤ × List UInt8) (cpu : Cpu) (pid entry : ℕ) (args : List UInt8)
    (k : Kernel) : loadFile image cpu pid entry args k =
      (imageVerdict image args entry).carryOut cpu pid k := by
  simp only [loadFile, imageVerdict]
  split_ifs <;> rfl

theorem executeFile_eq (fs : FileSystem) (cpu : Cpu) (pid inode : ℕ) (args : List UInt8)
    (k : Kernel) : executeFile fs cpu pid inode args k =
      (fs.fileVerdict cpu.stack inode args).carryOut cpu pid k := by
  simp only [executeFile, FileSystem.fileVerdict, loadFile_eq]
  generalize fs.readData inode 0 false fourMB = image
  split_ifs <;> rfl

/-- execute in two parts: the verdict on the command, then what follows from it. -/
theorem execute_eq (fs : FileSystem) (cpu : Cpu) (command : Option (List UInt8)) (k : Kernel) :
    execute fs cpu command k =
      match k.table.nextPid with
      | none => (.failed,printf (text "\n Error: Max processes reached\n") k)
      | some pid => (fs.verdict cpu.stack command).carryOut cpu pid (claimPid pid k) := by
  cases hpid : k.table.nextPid with
  | none => simp only [execute, pidAvailable_none hpid]
  | some pid =>
    rw [execute, pidAvailable_some hpid, FileSystem.verdict]
    simp only
    split_ifs with hnull
    · rfl
    · cases parseArgs command with
      | none => rfl
      | some words =>
        obtain ⟨filename,args⟩ := words
        simp only
        split_ifs with hoverrun
        · rfl
        · cases fs.readDentryByName (some filename) with
          | none => rfl
          | some fdentry =>
            simp only [executeFile_eq]
            split_ifs <;> rfl

theorem loadProcess_table (pid : ℕ) (bytes : List UInt8) (k : Kernel) :
    (loadProcess pid bytes k).table = k.table.mapUser pid := rfl

theorem startProcess_table (cpu : Cpu) (pid : ℕ) (args : List UInt8) (k : Kernel) :
    (startProcess cpu pid args k).table =
      { k.table.start cpu pid args with
        pcbInUse := k.table.pcbInUse, pageDirUser := k.table.pageDirUser } := by
  have hprocess := setProcess_table k.currentTerm pid
    (k.onPcb pid (PCB.start pid (k.table.parentFor pid) args cpu))
  rw [onPcb_table] at hprocess
  exact congrArg (fun T : Table => { T with
    tssEsp0 := getEsp0 pid
    totalProgs := Function.update k.totalProgs k.currentTerm
      ((k.totalProgs k.currentTerm+1) % 256)
    processCnt := (k.processCnt+1) % 256 }) hprocess

theorem start_of_load (cpu : Cpu) (pid : ℕ) (args bytes : List UInt8) (k : Kernel) :
    (startProcess cpu pid args (loadProcess pid bytes (claimPid pid k))).table =
      k.table.start cpu pid args := by
  rw [startProcess_table, loadProcess_table]
  rfl

/-- The ways in which execute leaves the process table. -/
theorem execute_cases (fs : FileSystem) (cpu : Cpu) (command : Option (List UInt8)) (k : Kernel) :
    (k.table.nextPid = none ∧ (execute fs cpu command k).1 = .failed ∧
      (execute fs cpu command k).2.table = k.table) ∨
    ∃ pid, k.table.nextPid = some pid ∧
      ((fs.verdict cpu.stack command = .null ∧ (execute fs cpu command k).1 = .failed ∧
          (execute fs cpu command k).2.table = k.table.claim pid) ∨
        (∃ message, fs.verdict cpu.stack command = .refused message ∧
          (execute fs cpu command k).1 = .failed ∧
          (execute fs cpu command k).2.table = k.table) ∨
        (fs.verdict cpu.stack command = .overrun ∧ (execute fs cpu command k).1 = .overrun ∧
          (execute fs cpu command k).2.table = k.table.claim pid) ∨
        (∃ bytes, fs.verdict cpu.stack command = .broken bytes ∧
          (execute fs cpu command k).1 = .failed ∧
          (execute fs cpu command k).2.table = k.table.mapUser pid) ∨
        ∃ args entry bytes, fs.verdict cpu.stack command = .accepted args entry bytes ∧
          (execute fs cpu command k).1 = .started pid entry ∧
          (execute fs cpu command k).2.table = k.table.start cpu pid args) := by
  cases hpid : k.table.nextPid with
  | none =>
    simp only [execute_eq, hpid]
    exact .inl ⟨trivial,trivial,printf_table _ k⟩
  | some pid =>
    have hback : freePid pid (claimPid pid k) = k := freePid_claimPid (Table.nextPid_free hpid)
    simp only [execute_eq, hpid]
    refine .inr ⟨pid,rfl,?_⟩
    cases hv : fs.verdict cpu.stack command with
    | null => exact .inl ⟨rfl,rfl,rfl⟩
    | refused message =>
      refine .inr (.inl ⟨message,rfl,rfl,?_⟩)
      simp only [Verdict.carryOut, giveUp, freePid_table, printf_table]
      exact congrArg Kernel.table hback
    | overrun => exact .inr (.inr (.inl ⟨rfl,rfl,rfl⟩))
    | broken bytes =>
      refine .inr (.inr (.inr (.inl ⟨bytes,rfl,rfl,?_⟩)))
      exact congrArg (fun k => k.table.mapUser pid) hback
    | accepted args entry bytes =>
      exact .inr (.inr (.inr (.inr ⟨args,entry,bytes,rfl,rfl,start_of_load ..⟩)))

/-! ### halt -/

def PCB.clearDes (fd : ℕ) (pcb : PCB) : PCB :=
  pcb.setDes fd { pcb.fileDesArray fd with flags := 0 }

theorem Kernel.onPcb_id {k : Kernel} {p : ℕ} {f : PCB → PCB} (h : f (k.pcb p) = k.pcb p) :
    k.onPcb p f = k := by simp [Kernel.onPcb, h]

@[simp] theorem Kernel.onPcb_onPcb (k : Kernel) (p : ℕ) (f g : PCB → PCB) :
    (k.onPcb p f).onPcb p g = k.onPcb p (g ∘ f) := by simp [Kernel.onPcb]

theorem close_state {fd : ℕ} (h₂ : fileStart ≤ fd) (h₈ : fd < maxFile) (k : Kernel) :
    (close fd k).2 = k.onPcb k.running (PCB.clearDes fd) := by
  have hrange : ¬((fd : ℤ) < fileStart ∨ (fd : ℤ) ≥ maxFile) := by omega
  simp only [close, if_neg hrange, Int.toNat_natCast]
  split_ifs with habsent
  · refine (Kernel.onPcb_id ?_).symm
    have hdes : { (k.pcb k.running).fileDesArray fd with flags := 0 } =
        (k.pcb k.running).fileDesArray fd := by rw [← habsent]; rfl
    simp only [PCB.clearDes, PCB.setDes, hdes, Function.update_eq_self]
  · rfl

theorem foldl_clearDes (l : List ℕ) (pcb : PCB) :
    l.foldl (fun pcb fd => pcb.clearDes fd) pcb =
      { pcb with fileDesArray := fun i =>
          if i ∈ l then { pcb.fileDesArray i with flags := 0 } else pcb.fileDesArray i } := by
  induction l generalizing pcb with
  | nil => simp
  | cons fd l ih =>
    rw [List.foldl_cons, ih]
    simp only [PCB.clearDes, PCB.setDes, List.mem_cons, Function.update_apply]
    congr 1
    funext i
    by_cases hi : i = fd
    · subst hi
      simp
    · simp [hi]

theorem foldl_close (l : List ℕ) (hl : ∀ fd ∈ l, fileStart ≤ fd ∧ fd < maxFile) (k : Kernel) :
    l.foldl (fun k (fd : ℕ) => (close fd k).2) k =
      k.onPcb k.running (fun pcb => l.foldl (fun pcb fd => pcb.clearDes fd) pcb) := by
  induction l generalizing k with
  | nil => exact (Kernel.onPcb_id rfl).symm
  | cons fd l ih =>
    obtain ⟨h₂,h₈⟩ := hl fd (by simp)
    rw [List.foldl_cons, close_state h₂ h₈, ih fun fd hfd => hl fd (by simp [hfd])]
    exact Kernel.onPcb_onPcb k k.running _ _

theorem closeFiles_eq (k : Kernel) : closeFiles k = k.onPcb k.running PCB.closeFiles := by
  rw [closeFiles, foldl_close _ (by decide)]
  congr 1
  funext pcb
  rw [foldl_clearDes, PCB.closeFiles]
  congr 1
  funext i
  have hi : i ∈ [2,3,4,5,6,7] ↔ fileStart ≤ i ∧ i < maxFile := by
    simp [fileStart, maxFile]
    omega
  simp only [hi]

theorem removeProcess_table (k : Kernel) :
    (removeProcess k.running (closeFiles { k with interrupts := false })).table =
      k.table.remove := by
  have hpid : ((k.onPcb k.running PCB.closeFiles).pcb k.running).pidNum =
      (k.pcb k.running).pidNum := by simp [PCB.closeFiles]
  rw [closeFiles_eq]
  simp only [Table.remove]
  rw [show (k.table.pcb k.table.running).pidNum = (k.pcb k.running).pidNum from rfl, ← hpid]
  rfl

theorem returnToParent_table (status p : ℕ) (k : Kernel) :
    (returnToParent status p k).2.table = k.table.back p := by
  have hprocess := setProcess_table k.currentTerm (k.pcb p).parentPidNum k
  have hback := congrArg (fun T : Table => { T with
    pageDirUser := userEntry (k.pcb p).parentPidNum
    tssEsp0 := getEsp0 (k.pcb p).parentPidNum }) hprocess
  simp only [returnToParent, Table.back]
  by_cases hmark : (k.pcb p).haltStat = 1
  · rw [if_pos hmark, if_pos (show (k.table.pcb p).haltStat = 1 from hmark)]
    exact congrArg (fun T : Table => T.onPcb p (PCB.setHaltStat 0)) hback
  · rw [if_neg hmark, if_neg (show ¬(k.table.pcb p).haltStat = 1 from hmark)]
    exact hback

theorem returnToParent_out (status p : ℕ) (k : Kernel) :
    (returnToParent status p k).1 =
      .resumed (k.pcb p).parEsp (k.pcb p).parEbp (k.table.retval status p) := by
  simp only [returnToParent, Table.retval]
  by_cases hmark : (k.pcb p).haltStat = 1
  · rw [if_pos hmark, if_pos (show (k.table.pcb p).haltStat = 1 from hmark)]
  · rw [if_neg hmark, if_neg (show ¬(k.table.pcb p).haltStat = 1 from hmark)]

/-- The three ends of halt: back to the parent; a new shell for a terminal that has lost its
last process; and, should that shell not start, back to the process itself. -/
theorem halt_cases (fs : FileSystem) (cpu : Cpu) (status : ℕ) (k : Kernel) :
    (k.table.remove.totalProgs k.currentTerm ≠ 0 ∧
      (halt fs cpu status k).1 = .resumed (k.pcb k.running).parEsp (k.pcb k.running).parEbp
        (k.table.retval status k.running) ∧
      (halt fs cpu status k).2.table = k.table.remove.back k.running) ∨
    k.table.remove.totalProgs k.currentTerm = 0 ∧
      ∃ k' : Kernel, k'.table = k.table.remove ∧
        ((∃ pid entry, (execute fs cpu (some (text "shell")) k').1 = .started pid entry ∧
          (halt fs cpu status k).1 = .exec (.started pid entry) ∧
          (halt fs cpu status k).2 = (execute fs cpu (some (text "shell")) k').2) ∨
        (∀ pid entry, (execute fs cpu (some (text "shell")) k').1 ≠ .started pid entry) ∧
          halt fs cpu status k = returnToParent status k.running
            (execute fs cpu (some (text "shell")) k').2) := by
  have hremove := removeProcess_table k
  simp only [halt]
  generalize removeProcess k.running (closeFiles { k with interrupts := false }) = k' at *
  have htotal : k.table.remove.totalProgs k.currentTerm = k'.totalProgs k'.currentTerm := by
    rw [← hremove]
    exact congrArg k'.totalProgs (congrArg Table.currentTerm hremove).symm
  rw [htotal]
  by_cases hlast : k'.totalProgs k'.currentTerm = 0
  · rw [if_pos hlast]
    refine .inr ⟨hlast,k',hremove,?_⟩
    cases hexec : execute fs cpu (some (text "shell")) k' with
    | mk r k'' =>
      cases r with
      | started pid entry => exact .inl ⟨pid,entry,rfl,rfl,rfl⟩
      | failed => exact .inr ⟨by simp,rfl⟩
      | overrun => exact .inr ⟨by simp,rfl⟩
  · rw [if_neg hlast]
    refine .inl ⟨hlast,?_,?_⟩
    · have hpcb : k'.pcb k.running = (k.pcb k.running).closeFiles := by
        have := congrArg (fun T : Table => T.pcb k.running) hremove
        exact this.trans (Function.update_self ..)
      have hmark : k'.table.retval status k.running = k.table.retval status k.running := by
        simp only [Table.retval]
        rw [show k'.table.pcb k.running = _ from hpcb]
        rfl
      rw [returnToParent_out, hpcb, hmark]
      rfl
    · rw [returnToParent_table, hremove]

/-! ### The switches -/

theorem pitHandler_cases (cpu : Cpu) (k : Kernel) :
    (getScheduledTerm k = k.currentTerm ∧ (pitHandler cpu k).1 = .quiet ∧
      (pitHandler cpu k).2.table = k.table) ∨
    getScheduledTerm k ≠ k.currentTerm ∧
      (pitHandler cpu k).1 = .switched
        ((k.table.shift cpu (getScheduledTerm k)).pcb
          (k.table.process (getScheduledTerm k))).thisEsp
        ((k.table.shift cpu (getScheduledTerm k)).pcb
          (k.table.process (getScheduledTerm k))).thisEbp ∧
      (pitHandler cpu k).2.table = k.table.shift cpu (getScheduledTerm k) := by
  by_cases hstay : getScheduledTerm k = k.currentTerm
  · simp only [pitHandler, if_pos hstay]
    exact .inl ⟨hstay,trivial,rfl⟩
  · simp only [pitHandler, if_neg hstay]
    exact .inr ⟨hstay,rfl,rfl⟩

/-- A search with enough fuel ends at a terminal with programs, or where it started. -/
theorem scheduledFrom_spec (k : Kernel) (hcurrent : k.currentTerm < numTerm) (fuel term : ℕ)
    (hterm : term < numTerm) (hfuel : (k.currentTerm+numTerm-term) % numTerm ≤ fuel) :
    scheduledFrom k fuel term < numTerm ∧
      (scheduledFrom k fuel term ≠ k.currentTerm →
        0 < k.totalProgs (scheduledFrom k fuel term)) := by
  unfold numTerm at *
  induction fuel generalizing term with
  | zero =>
    have : term = k.currentTerm := by omega
    exact ⟨hterm,fun h => absurd this h⟩
  | succ fuel ih =>
    simp only [scheduledFrom]
    split_ifs with hhere hprogs
    · exact ⟨hterm,fun h => absurd hhere h⟩
    · exact ⟨hterm,fun _ => hprogs⟩
    · unfold numTerm
      exact ih _ (by omega) (by omega)

theorem getScheduledTerm_spec (k : Kernel) (hcurrent : k.currentTerm < numTerm) :
    getScheduledTerm k < numTerm ∧
      (getScheduledTerm k ≠ k.currentTerm → 0 < k.totalProgs (getScheduledTerm k)) :=
  scheduledFrom_spec k hcurrent numTerm _ (Nat.mod_lt _ (by decide))
    (Nat.le_of_lt (Nat.mod_lt _ (by decide)))

/-- The ends of terminal_switch: refused; to a terminal with programs; and to one without,
which executes a shell there. -/
theorem terminalSwitch_cases (fs : FileSystem) (cpu : Cpu) (dest : ℕ) (k : Kernel) :
    ((dest > numTerm ∨ dest = k.viewingTerm ∨ k.totalProgs dest = 0 ∧ k.processCnt+1 > maxNumProc) ∧
      (terminalSwitch fs cpu k.viewingTerm dest k).1 = .quiet ∧
      (terminalSwitch fs cpu k.viewingTerm dest k).2.table = k.table) ∨
    (dest ≤ numTerm ∧ dest ≠ k.viewingTerm ∧ k.totalProgs dest ≠ 0 ∧
      (terminalSwitch fs cpu k.viewingTerm dest k).1 = .quiet ∧
      (terminalSwitch fs cpu k.viewingTerm dest k).2.table = k.table.view dest) ∨
    (dest ≤ numTerm ∧ dest ≠ k.viewingTerm ∧ k.totalProgs dest = 0 ∧ k.processCnt+1 ≤ maxNumProc) ∧
      ∃ k' : Kernel, k'.table = k.table.park cpu dest ∧
        (terminalSwitch fs cpu k.viewingTerm dest k).1 =
          .exec (execute fs cpu (some (text "shell")) k').1 ∧
        (terminalSwitch fs cpu k.viewingTerm dest k).2.table =
          (execute fs cpu (some (text "shell")) k').2.table := by
  unfold terminalSwitch
  by_cases hid : dest > numTerm ∨ dest = k.viewingTerm
  · simp only [if_pos hid, printf_table]
    exact .inl ⟨by tauto,trivial,trivial⟩
  rw [if_neg hid]
  by_cases hfull : k.totalProgs dest = 0 ∧ k.processCnt+1 > maxNumProc
  · simp only [if_pos hfull, printf_table]
    exact .inl ⟨by tauto,trivial,trivial⟩
  rw [if_neg hfull]
  simp only [not_or] at hid
  have hmove := moveCursor_screenOnly dest
    { k with video := exchangeScreens k.viewingTerm dest k, viewingTerm := dest }
  have hview : (moveCursor dest
      { k with video := exchangeScreens k.viewingTerm dest k, viewingTerm := dest }).table =
        k.table.view dest := hmove.table
  have htotal := congrFun (congrArg Table.totalProgs hview) dest
  simp only
  generalize moveCursor dest
    { k with video := exchangeScreens k.viewingTerm dest k, viewingTerm := dest } = k' at *
  by_cases hprogs : k'.totalProgs dest = 0
  · rw [if_pos hprogs]
    have hnone : k.totalProgs dest = 0 := htotal.symm.trans hprogs
    refine .inr (.inr ⟨⟨by omega,hid.2,hnone,by omega⟩,
      { (termClear dest k').onPcb (k.terminal k.viewingTerm).process (PCB.saveContext cpu) with
        currentTerm := dest },?_,?_,?_⟩)
    · have hclear : (termClear dest k').table = k.table.view dest :=
        (termClear_screenOnly dest k').table.trans hview
      exact congrArg (fun T : Table =>
        { T.onPcb (k.terminal k.viewingTerm).process (PCB.saveContext cpu) with
          currentTerm := dest }) hclear
    · generalize execute fs cpu (some (text "shell")) _ = r
      obtain ⟨r,k''⟩ := r
      cases r <;> rfl
    · generalize execute fs cpu (some (text "shell")) _ = r
      obtain ⟨r,k''⟩ := r
      cases r <;> simp only [printf_table]
  · rw [if_neg hprogs]
    exact .inr (.inl ⟨by omega,hid.2,fun h => hprogs (htotal.trans h),rfl,hview⟩)

/-! ### The keyboard -/

theorem FlagsOnly.table {k k' : Kernel} (h : FlagsOnly k k') : k'.table = k.table := by
  rw [h.rest]
  rfl

/-- A key edits a line or sets a flag, except for a function key with Alt held, which
switches the terminal. -/
theorem keyboardSwitch_cases (fs : FileSystem) (cpu : Cpu) (pressed : ℕ) (k : Kernel) :
    ((keyboardSwitch fs cpu pressed k).1 = .quiet ∧
      (keyboardSwitch fs cpu pressed k).2.table = k.table) ∨
    ∃ dest < numTerm, k.altFlag ≠ 0 ∧
      keyboardSwitch fs cpu pressed k = terminalSwitch fs cpu k.viewingTerm dest k := by
  have hkeyed := keyboardSwitch_keyed fs cpu pressed k
  generalize keyboardSwitch fs cpu pressed k = r at *
  cases hkeyed with
  | erase _ => exact .inl ⟨rfl,(backspace_terminalsOnly _ k).table⟩
  | enter _ => exact .inl ⟨rfl,(enterPress_terminalsOnly k).table⟩
  | history _ => exact .inl ⟨rfl,(terminalHistory_terminalsOnly _ k).table⟩
  | tab _ => exact .inl ⟨rfl,(tabPress_terminalsOnly k).table⟩
  | char _ => exact .inl ⟨rfl,(keyPress_terminalsOnly pressed k).table⟩
  | clear _ => exact .inl ⟨rfl,(termClear_screenOnly _ k).table⟩
  | flags _ hk' => exact .inl ⟨rfl,hk'.table⟩
  | switch _ hdest halt => exact .inr ⟨_,hdest,halt,rfl⟩

end GameOfThreads
