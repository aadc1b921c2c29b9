import GameOfThreads.ProcessForest

/-! One step of the process machine. `Change` lists what execute, halt, the exception path,
the timer and terminal_switch can do to the process table, and every invariant of the table
is a case analysis on it. -/
namespace GameOfThreads
open Machine

/-- The image holds a program of this name: a regular file that starts with the ELF magic
number and can be read to its end. -/
def FileSystem.Loadable (fs : FileSystem) (name : List UInt8) : Prop :=
  ∃ d, fs.readDentryByName (some name) = some d ∧ d.filetype = 2 ∧
    (fs.readData (u32 d.inodeNum) 0 false headerSize).1 ≠ -1 ∧
    [0x7F,0x45,0x4C,0x46] <+: (fs.readData (u32 d.inodeNum) 0 false headerSize).2 ∧
    (fs.readData (u32 d.inodeNum) 0 false fourMB).1 ≠ -1

/-- An image with one entry, a shell of one block that is an ELF header and nothing else. -/
def shellImage : FileSystem where
  modStart := 0
  mem :=
    let boot := overlay (overlay (fun _ => 0) 0 [1,0,0,0,1,0,0,0,1]) 64 (text "shell")
    let entry := overlay boot 96 [2]
    let inode := overlay entry 4096 [40]
    overlay (overlay inode 8192 [0x7F,0x45,0x4C,0x46]) 8216 [0x18,0x80,0x04,0x08]

theorem shellImage_loadable : shellImage.Loadable (text "shell") := by
  have hfind : (List.range numDir).find? (fun i =>
      strncmp (shellImage.directory i).filename (cstring (text "shell")) nameLen = 0) = some 0 := by
    decide +kernel
  refine ⟨shellImage.directory 0,?_,by decide +kernel,by decide +kernel,by decide +kernel,
    by decide +kernel⟩
  have hname : ¬(i32 (strlen (text "shell")) > nameLen ∨ i32 (strlen (text "shell")) = 0) := by
    decide +kernel
  simp only [FileSystem.readDentryByName, if_neg hname, hfind, Option.map_some]

theorem isElf_of_magic {bs : List UInt8} (h : [0x7F,0x45,0x4C,0x46] <+: bs)
    (stack : ℕ → UInt8) : isElf (overlay stack 0 bs) = true := by
  obtain ⟨rest,rfl⟩ := h
  simp [isElf, overlay]

theorem isSome_of_parse {command : Option (List UInt8)} {words : List UInt8 × List UInt8}
    (h : parseArgs command = some words) : command.isNone = false := by
  cases command with
  | none => simp [parseArgs] at h
  | some command => rfl

/-- A command whose file passes the checks of the header is judged by the whole file. -/
theorem verdict_of_header {fs : FileSystem} {stack : ℕ → UInt8} {command : Option (List UInt8)}
    {filename args : List UInt8} {d : Dentry} (hparse : parseArgs command = some (filename,args))
    (hfilename : filename.length < comBufSize) (hargs : args.length < comBufSize)
    (hd : fs.readDentryByName (some filename) = some d) (htype : d.filetype = 2)
    (hheader : (fs.readData (u32 d.inodeNum) 0 false headerSize).1 ≠ -1)
    (helf : isElf (overlay stack 0 (fs.readData (u32 d.inodeNum) 0 false headerSize).2) = true) :
    fs.verdict stack command = imageVerdict (fs.readData (u32 d.inodeNum) 0 false fourMB) args
      (word (overlay stack 0 (fs.readData (u32 d.inodeNum) 0 false headerSize).2) 24) := by
  have hsome := isSome_of_parse hparse
  have hfit : ¬(filename.length ≥ comBufSize ∨ args.length ≥ comBufSize) := by omega
  simp [FileSystem.verdict, hsome, hparse, if_neg hfit, hd, htype, FileSystem.fileVerdict,
    helf, if_neg hheader]

theorem verdict_of_loadable {fs : FileSystem} {command : Option (List UInt8)}
    {filename args : List UInt8} (hparse : parseArgs command = some (filename,args))
    (hfilename : filename.length < comBufSize) (hargs : args.length < comBufSize)
    (h : fs.Loadable filename) (stack : ℕ → UInt8) :
    ∃ entry bytes, fs.verdict stack command = .accepted args entry bytes := by
  obtain ⟨d,hd,htype,hheader,helf,himage⟩ := h
  rw [verdict_of_header hparse hfilename hargs hd htype hheader (isElf_of_magic helf stack),
    imageVerdict, if_neg himage]
  exact ⟨_,_,rfl⟩

theorem parseArgs_shell : parseArgs (some (text "shell")) = some (text "shell",[]) := by decide

/-- A loadable program starts wherever a PID is free. -/
theorem execute_loadable {fs : FileSystem} {command : Option (List UInt8)}
    {filename args : List UInt8} (hparse : parseArgs command = some (filename,args))
    (hfilename : filename.length < comBufSize) (hargs : args.length < comBufSize)
    (h : fs.Loadable filename) (cpu : Cpu) {k : Kernel} {pid : ℕ}
    (hpid : k.table.nextPid = some pid) :
    ∃ entry, (execute fs cpu command k).1 = .started pid entry ∧
      (execute fs cpu command k).2.table = k.table.start cpu pid args := by
  obtain ⟨entry,bytes,hv⟩ := verdict_of_loadable hparse hfilename hargs h cpu.stack
  simp only [execute_eq, hpid, hv, Verdict.carryOut]
  exact ⟨entry,rfl,start_of_load ..⟩

theorem execute_shell {fs : FileSystem} (hshell : fs.Loadable (text "shell")) (cpu : Cpu)
    {k : Kernel} {pid : ℕ} (hpid : k.table.nextPid = some pid) :
    ∃ entry, (execute fs cpu (some (text "shell")) k).1 = .started pid entry ∧
      (execute fs cpu (some (text "shell")) k).2.table = k.table.start cpu pid [] :=
  execute_loadable parseArgs_shell (by decide) (by decide) hshell cpu hpid

/-- What an event may do to the process table, with what it reports. -/
inductive Change (op : Op) (cpu : Cpu) : Table → Out → Table → Prop
  | same {T out} (hout : out = .quiet ∨ out = .exec .failed ∨ out = .spinning) :
      Change op cpu T out T
  | claim {T pid r} (hpid : T.nextPid = some pid) (hr : r = .failed ∨ r = .overrun) :
      Change op cpu T (.exec r) (T.claim pid)
  | mapUser {T pid} (hpid : T.nextPid = some pid) :
      Change op cpu T (.exec .failed) (T.mapUser pid)
  | start {T pid entry} (args) (hpid : T.nextPid = some pid) :
      Change op cpu T (.exec (.started pid entry)) (T.start cpu pid args)
  | back {T} (status) (hmore : T.remove.totalProgs T.currentTerm ≠ 0) :
      Change op cpu T (.resumed (T.pcb T.running).parEsp (T.pcb T.running).parEbp
        (T.retval status T.running)) (T.remove.back T.running)
  | restart {T pid entry} (hlast : T.remove.totalProgs T.currentTerm = 0)
      (hpid : T.remove.nextPid = some pid) :
      Change op cpu T (.exec (.started pid entry)) (T.remove.start cpu pid [])
  | marked {T out T'} (h : Change op cpu (T.onPcb T.running (PCB.setHaltStat 1)) out T') :
      Change op cpu T out T'
  | shift {T next} (hnext : next < numTerm) (hne : next ≠ T.currentTerm)
      (hprogs : 0 < T.totalProgs next) :
      Change op cpu T (.switched ((T.shift cpu next).pcb (T.process next)).thisEsp
        ((T.shift cpu next).pcb (T.process next)).thisEbp) (T.shift cpu next)
  | view {T dest} (hdest : dest < numTerm) (hprogs : T.totalProgs dest ≠ 0) :
      Change op cpu T .quiet (T.view dest)
  | park {T dest pid entry} (hop : op = .switch dest cpu) (hdest : dest < numTerm)
      (hne : dest ≠ T.viewingTerm) (hnone : T.totalProgs dest = 0)
      (hroom : T.processCnt+1 ≤ maxNumProc) (hpid : T.nextPid = some pid) :
      Change op cpu T (.exec (.started pid entry)) ((T.park cpu dest).start cpu pid [])

/-- No execute in the step came back to its caller. -/
def Started (out : Out) : Prop := ∀ r, out = .exec r → ∃ pid entry, r = .started pid entry

theorem started_exec (pid entry : ℕ) : Started (.exec (.started pid entry)) := by
  rintro r ⟨rfl⟩
  exact ⟨pid,entry,rfl⟩

theorem execute_change (op : Op) (fs : FileSystem) (cpu : Cpu)
    (command : Option (List UInt8)) (k : Kernel) :
    Change op cpu k.table (.exec (execute fs cpu command k).1)
      (execute fs cpu command k).2.table := by
  rcases execute_cases fs cpu command k with ⟨-,hr,ht⟩ | ⟨pid,hpid,hcases⟩
  · rw [hr, ht]
    exact .same (.inr (.inl rfl))
  rcases hcases with ⟨-,hr,ht⟩ | ⟨_,-,hr,ht⟩ | ⟨-,hr,ht⟩ | ⟨_,-,hr,ht⟩ | ⟨args,_,_,-,hr,ht⟩
  · rw [hr, ht]
    exact .claim hpid (.inl rfl)
  · rw [hr, ht]
    exact .same (.inr (.inl rfl))
  · rw [hr, ht]
    exact .claim hpid (.inr rfl)
  · rw [hr, ht]
    exact .mapUser hpid
  · rw [hr, ht]
    exact .start args hpid

theorem pitHandler_change (op : Op) (cpu : Cpu) {k : Kernel} (hcurrent : k.currentTerm < numTerm) :
    Change op cpu k.table (pitHandler cpu k).1 (pitHandler cpu k).2.table ∧
      Started (pitHandler cpu k).1 := by
  obtain ⟨hnext,hprogs⟩ := getScheduledTerm_spec k hcurrent
  rcases pitHandler_cases cpu k with ⟨-,hout,ht⟩ | ⟨hne,hout,ht⟩
  · rw [hout, ht]
    exact ⟨.same (.inl rfl),nofun⟩
  · rw [hout, ht]
    exact ⟨.shift hnext hne (hprogs hne),nofun⟩

/-- The process that leaves makes a PID free. -/
theorem remove_nextPid {T : Table} {stack : ℕ → List ℕ} (h : Hosts T stack)
    (hrunning : stack T.currentTerm ≠ []) : ∃ pid, T.remove.nextPid = some pid := by
  obtain ⟨hlt,-,hpid⟩ := h.member T.currentTerm T.running (h.top_mem hrunning)
  cases hnext : T.remove.nextPid with
  | some pid => exact ⟨pid,rfl⟩
  | none =>
    have huse := Table.nextPid_eq_none.mp hnext T.running hlt
    simp [Table.remove, hpid] at huse

theorem halt_change (op : Op) {fs : FileSystem} (hshell : fs.Loadable (text "shell")) (cpu : Cpu)
    (status : ℕ) {k : Kernel} {stack : ℕ → List ℕ} (h : Hosts k.table stack)
    (hrunning : stack k.currentTerm ≠ []) :
    Change op cpu k.table (halt fs cpu status k).1 (halt fs cpu status k).2.table ∧
      Started (halt fs cpu status k).1 := by
  obtain ⟨pid,hpid⟩ := remove_nextPid h hrunning
  rcases halt_cases fs cpu status k with ⟨hmore,hout,ht⟩ | ⟨hlast,k',hk',hends⟩
  · rw [hout, ht]
    exact ⟨.back status hmore,nofun⟩
  obtain ⟨entry,hr,ht⟩ := execute_shell hshell cpu (hk' ▸ hpid)
  rcases hends with ⟨pid',entry',hr',hout,hstate⟩ | ⟨hnot,-⟩
  · rw [hout, hstate, ht, hk', ← hr', hr]
    exact ⟨.restart hlast hpid,started_exec pid entry⟩
  · exact absurd hr (hnot pid entry)

theorem squash_change (op : Op) {fs : FileSystem} (hshell : fs.Loadable (text "shell"))
    (cpu : Cpu) {k : Kernel} {stack : ℕ → List ℕ} (h : Hosts k.table stack)
    (hrunning : stack k.currentTerm ≠ []) :
    Change op cpu k.table (squashException fs cpu k).1 (squashException fs cpu k).2.table ∧
      Started (squashException fs cpu k).1 := by
  unfold squashException
  split_ifs with hon
  · have hmark : Hosts (k.onPcb k.running (PCB.setHaltStat 1)).table stack :=
      h.onPcb k.table.running ⟨rfl,rfl⟩
    obtain ⟨hchange,hstarted⟩ := halt_change op hshell cpu 0 hmark hrunning
    exact ⟨.marked hchange,hstarted⟩
  · exact ⟨.same (.inr (.inr rfl)),nofun⟩

theorem terminalSwitch_change {fs : FileSystem} (hshell : fs.Loadable (text "shell")) (cpu : Cpu)
    {dest : ℕ} (hdest : dest < numTerm) {k : Kernel}
    (hfree : dest ≠ k.viewingTerm → k.totalProgs dest = 0 → k.processCnt+1 ≤ maxNumProc →
      ∃ pid, k.table.nextPid = some pid) :
    Change (.switch dest cpu) cpu k.table (terminalSwitch fs cpu k.viewingTerm dest k).1
      (terminalSwitch fs cpu k.viewingTerm dest k).2.table ∧
      Started (terminalSwitch fs cpu k.viewingTerm dest k).1 := by
  rcases terminalSwitch_cases fs cpu dest k with ⟨-,hout,ht⟩ | ⟨-,-,hprogs,hout,ht⟩ |
    ⟨⟨-,hne,hnone,hroom⟩,k',hk',hout,ht⟩
  · rw [hout, ht]
    exact ⟨.same (.inl rfl),nofun⟩
  · rw [hout, ht]
    exact ⟨.view hdest hprogs,nofun⟩
  · obtain ⟨pid,hpid⟩ := hfree hne hnone hroom
    have hpid' : k'.table.nextPid = some pid := by rw [hk']; exact hpid
    obtain ⟨entry,hr,hstart⟩ := execute_shell hshell cpu hpid'
    rw [hout, ht, hr, hstart, hk']
    exact ⟨.park rfl hdest hne hnone hroom hpid,started_exec pid entry⟩

/-! ### What a change keeps -/

/-- The running process is on top of its terminal. -/
theorem Hosts.head {T : Table} {stack : ℕ → List ℕ} (hosts : Hosts T stack)
    (hrunning : stack T.currentTerm ≠ []) : ∃ l, stack T.currentTerm = T.running :: l := by
  have hlinked := hosts.forest.linked T.currentTerm hrunning
  obtain ⟨p,l,hl⟩ := List.exists_cons_of_ne_nil hrunning
  rw [hl] at hlinked
  exact ⟨l,hl.trans (by rw [hlinked.eq_cons]; rfl)⟩

/-- The last process of a terminal has none below it. -/
theorem Hosts.alone {T : Table} {stack : ℕ → List ℕ} (hosts : Hosts T stack) {l : List ℕ}
    (hl : stack T.currentTerm = T.running :: l) (hlast : T.remove.totalProgs T.currentTerm = 0) :
    l = [] := by
  have hle := hosts.length_le T.currentTerm
  have hlen := congrArg List.length hl
  simp only [Table.remove, Function.update_self, hosts.progs, List.length_cons] at hlast hlen
  unfold maxNumProc at hle
  exact List.length_eq_zero_iff.mp (by omega)

/-- Each change turns stacks into stacks, with a process on the running terminal. -/
theorem Change.hosts {op : Op} {cpu : Cpu} {T T' : Table} {out : Out} (h : Change op cpu T out T')
    {stack : ℕ → List ℕ} (hosts : Hosts T stack) (hrunning : stack T.currentTerm ≠ []) :
    ∃ stack', Hosts T' stack' ∧ stack' T'.currentTerm ≠ [] ∧
      (Started out → Tight T stack → Tight T' stack') := by
  obtain ⟨l,hl⟩ := hosts.head hrunning
  induction h with
  | same _ => exact ⟨stack,hosts,hrunning,fun _ h => h⟩
  | claim hpid hr =>
    refine ⟨stack,hosts.claim hpid,hrunning,?_⟩
    intro hstarted _
    obtain ⟨pid,entry,hstart⟩ := hstarted _ rfl
    rcases hr with hr | hr <;> simp [hr] at hstart
  | mapUser hpid => exact ⟨stack,hosts.mapUser _,hrunning,fun _ h => h⟩
  | start args hpid =>
    exact ⟨_,hosts.start hpid _ args,by simp [Table.start],fun _ h => h.start _ args⟩
  | @back T status hmore =>
    cases l with
    | nil => simp [Table.remove, hosts.progs, hl] at hmore
    | cons q l =>
      exact ⟨_,hosts.back hl,by simp [Table.back, Table.remove, Table.onPcb],
        fun _ h => h.remove hosts hl⟩
  | @restart T pid entry hlast hpid =>
    obtain rfl := hosts.alone hl hlast
    refine ⟨_,hosts.restart hl hpid _ [],by simp [Table.start, Table.remove, Table.onPcb],
      ?_⟩
    intro _ h
    have hstart : Tight (T.remove.start cpu pid []) _ :=
      Tight.start (h.remove hosts hl) cpu []
    have hcurrent : T.remove.currentTerm = T.currentTerm := rfl
    rwa [hcurrent, Function.update_self, Function.update_idem] at hstart
  | marked _ ih =>
    obtain ⟨stack',hosts',hrunning',htight⟩ := ih (hosts.onPcb _ ⟨rfl,rfl⟩) hrunning hl
    exact ⟨stack',hosts',hrunning',htight⟩
  | @shift T next hnext hne hprogs =>
    refine ⟨stack,hosts.shift _ hnext,?_,fun _ h => h⟩
    rw [hosts.progs] at hprogs
    exact List.length_pos_iff.mp hprogs
  | view hdest hprogs => exact ⟨stack,hosts.view hdest,hrunning,fun _ h => h⟩
  | @park T dest pid entry hop hdest hne hnone hroom hpid =>
    have hpark := hosts.park cpu hdest
    exact ⟨_,Hosts.start (T := T.park cpu dest) hpark hpid _ [],by simp [Table.start, Table.park],
      fun _ h => Tight.start (T := T.park cpu dest) h _ []⟩

/-- The user page and the kernel stack belong to the running process. -/
def Table.Mapped (T : Table) : Prop :=
  T.pageDirUser = userEntry T.running ∧ T.tssEsp0 = getEsp0 T.running

theorem Change.mapped {op : Op} {cpu : Cpu} {T T' : Table} {out : Out} (h : Change op cpu T out T')
    (hstarted : Started out) (hmapped : T.Mapped) : T'.Mapped := by
  induction h with
  | same _ => exact hmapped
  | claim _ _ => exact hmapped
  | mapUser _ =>
    obtain ⟨pid,entry,hstart⟩ := hstarted _ rfl
    cases hstart
  | start _ _ => simp [Table.Mapped, Table.start, Table.running]
  | back _ _ => simp [Table.Mapped, Table.back, Table.running]
  | restart _ _ => simp [Table.Mapped, Table.start, Table.running]
  | marked _ ih => exact ih hstarted hmapped
  | shift _ _ _ => exact ⟨rfl,rfl⟩
  | view _ _ => exact hmapped
  | park _ _ _ _ _ _ => simp [Table.Mapped, Table.start, Table.running]

/-! ### Boot and the events -/

/-- The process table that initialisation leaves. -/
def bootTable (pcb : ℕ → PCB) : Table where
  process term := if term < numTerm then 10 else 0
  currentTerm := 0
  viewingTerm := 0
  termsOn := 1
  pcbInUse _ := 0
  totalProgs _ := 0
  processCnt := 0
  pcb := pcb
  pageDirUser := 0x02
  tssEsp0 := 0x800000

theorem counters_table (k : Kernel) (count on : ℕ) :
    ({ k with processCnt := count, termsOn := on } : Kernel).table =
      { k.table with processCnt := count, termsOn := on } := rfl

theorem initial_table (pcb : ℕ → PCB) (phys : ℕ → UInt8) :
    (initial pcb phys).table = bootTable pcb := by
  simp only [initial, terminalInit]
  rw [(moveCursor_screenOnly _ _).table, counters_table, (termClear_screenOnly 0 _).table]
  have hprocess : (fun term => (if term < numTerm then
      ((staticStorage pcb phys).terminal term).init term
        else (staticStorage pcb phys).terminal term).process) =
      fun term => if term < numTerm then 10 else 0 := by
    funext term
    split_ifs <;> rfl
  have hprogs : (fun term =>
      if term < numTerm then 0 else (staticStorage pcb phys).totalProgs term) = fun _ => 0 := by
    funext term
    split_ifs <;> rfl
  simp only [Kernel.table, setTerminals, bootTable, hprocess, hprogs]
  rfl

theorem bootTable_hosts (pcb : ℕ → PCB) : Hosts (bootTable pcb) (fun _ => []) where
  forest := ⟨fun _ h => absurd rfl h,fun _ => List.nodup_nil,fun _ _ _ => by simp⟩
  outside _ _ := rfl
  member _ _ h := by simp at h
  progs _ := rfl
  count := rfl
  current := Nat.zero_lt_succ 2
  viewing := Nat.zero_lt_succ 2

theorem bootTable_nextPid (pcb : ℕ → PCB) : (bootTable pcb).nextPid = some 0 := rfl

/-- A PCB in memory never written. -/
def PCB.zero : PCB where
  fileDesArray _ := { opTable := .null, inode := 0, filePosition := 0, flags := 0 }
  pidNum := 0
  thisEsp := 0
  thisEbp := 0
  haltStat := 0
  parentPidNum := 0
  parEsp := 0
  parEbp := 0
  args _ := 0

/-- The state in which the first shell has been executed. -/
def booted (fs : FileSystem) (pcb : ℕ → PCB) (phys : ℕ → UInt8) (cpu : Cpu) : Kernel :=
  (kernel fs).next (initial pcb phys) (.execute (some (text "shell")) cpu)

theorem run_fromBoot (fs : FileSystem) (pcb : ℕ → PCB) (phys : ℕ → UInt8) (cpu : Cpu)
    (ops : List Op) : (kernel fs).run (initial pcb phys) (fromBoot cpu ops) =
      (kernel fs).run (booted fs pcb phys cpu) ops := by
  rw [fromBoot, System.run_cons, booted]

theorem booted_table {fs : FileSystem} (hshell : fs.Loadable (text "shell")) (pcb : ℕ → PCB)
    (phys : ℕ → UInt8) (cpu : Cpu) :
    (booted fs pcb phys cpu).table = (bootTable pcb).start cpu 0 [] := by
  have hpid : (initial pcb phys).table.nextPid = some 0 := by
    rw [initial_table, bootTable_nextPid]
  obtain ⟨entry,-,ht⟩ := execute_shell hshell cpu hpid
  rw [booted, next_execute, ht, initial_table]

/-- The events of the process machine: execute, halt, the exception path, the timer, and
terminal_switch to one of the three terminals. -/
def Op.InTable : Op → Prop
  | .execute _ _ => True
  | .halt _ _ => True
  | .squash _ => True
  | .pit _ => True
  | .switch dest _ => dest < numTerm
  | _ => False

def Op.cpu : Op → Option Cpu
  | .execute _ cpu => some cpu
  | .halt _ cpu => some cpu
  | .squash cpu => some cpu
  | .pit cpu => some cpu
  | .switch _ cpu => some cpu
  | .key _ cpu => some cpu
  | .read _ _ _ cpu => some cpu
  | _ => none

/-- A switch to a terminal without programs finds a free PID for its shell. -/
def ShellRoom (k : Kernel) (op : Op) : Prop :=
  ∀ dest cpu, op = .switch dest cpu → dest ≠ k.viewingTerm → k.totalProgs dest = 0 →
    k.processCnt+1 ≤ maxNumProc → ∃ pid < maxNumProc, k.pcbInUse pid = 0

theorem nextPid_of_free {T : Table} {pid : ℕ} (hlt : pid < maxNumProc)
    (hfree : T.pcbInUse pid = 0) : ∃ pid, T.nextPid = some pid := by
  cases hnext : T.nextPid with
  | some pid => exact ⟨pid,rfl⟩
  | none => exact absurd hfree (Table.nextPid_eq_none.mp hnext pid hlt)

/-- Every event of the process machine is a change of the table. -/
theorem op_change {fs : FileSystem} (hshell : fs.Loadable (text "shell")) {k : Kernel} {op : Op}
    {stack : ℕ → List ℕ} (hosts : Hosts k.table stack) (hrunning : stack k.currentTerm ≠ [])
    (hop : op.InTable) (hroom : ShellRoom k op) :
    ∃ cpu, op.cpu = some cpu ∧
      Change op cpu k.table ((kernel fs).out k op) ((kernel fs).next k op).table ∧
      ((∀ command cpu, op ≠ .execute command cpu) → Started ((kernel fs).out k op)) := by
  cases op with
  | execute command cpu =>
    exact ⟨cpu,rfl,execute_change _ fs cpu command k,fun h => absurd rfl (h command cpu)⟩
  | halt status cpu =>
    obtain ⟨hchange,hstarted⟩ := halt_change _ hshell cpu status hosts hrunning
    exact ⟨cpu,rfl,hchange,fun _ => hstarted⟩
  | squash cpu =>
    obtain ⟨hchange,hstarted⟩ := squash_change _ hshell cpu hosts hrunning
    exact ⟨cpu,rfl,hchange,fun _ => hstarted⟩
  | pit cpu =>
    obtain ⟨hchange,hstarted⟩ := pitHandler_change _ cpu hosts.current
    exact ⟨cpu,rfl,hchange,fun _ => hstarted⟩
  | switch dest cpu =>
    obtain ⟨hchange,hstarted⟩ := terminalSwitch_change hshell cpu hop fun hne hnone hcount => by
      obtain ⟨pid,hlt,hfree⟩ := hroom dest cpu rfl hne hnone hcount
      exact nextPid_of_free hlt hfree
    exact ⟨cpu,rfl,hchange,fun _ => hstarted⟩
  | _ => exact hop.elim

/-- The events of the process machine in which execute, when called, succeeds. -/
def Succeeds (fs : FileSystem) (k : Kernel) (op : Op) : Prop :=
  op.InTable ∧ ∀ command cpu, op = .execute command cpu →
    ∃ pid entry, (execute fs cpu command k).1 = .started pid entry

/-- A second shell, started by the first one. -/
theorem booted_execute {fs : FileSystem} (hshell : fs.Loadable (text "shell")) (pcb : ℕ → PCB)
    (phys : ℕ → UInt8) (cpu cpu' : Cpu) :
    Succeeds fs (booted fs pcb phys cpu) (.execute (some (text "shell")) cpu') := by
  refine ⟨trivial,?_⟩
  intro command cpu'' h
  cases h
  have hpid : (booted fs pcb phys cpu).table.nextPid = some 1 := by
    rw [booted_table hshell]
    rfl
  obtain ⟨entry,hr,-⟩ := execute_shell hshell cpu' hpid
  exact ⟨1,entry,hr⟩

/-- The table accounts for stacks of processes and for nothing else, one of them runs, and
the address space is its own. -/
structure Sound (T : Table) (stack : ℕ → List ℕ) : Prop where
  hosts : Hosts T stack
  tight : Tight T stack
  running : stack T.currentTerm ≠ []
  mapped : T.Mapped

theorem booted_sound {fs : FileSystem} (hshell : fs.Loadable (text "shell")) (pcb : ℕ → PCB)
    (phys : ℕ → UInt8) (cpu : Cpu) : ∃ stack, Sound (booted fs pcb phys cpu).table stack := by
  rw [booted_table hshell]
  refine ⟨_,(bootTable_hosts pcb).start (bootTable_nextPid pcb) cpu [],Tight.start ?_ cpu [],?_,?_⟩
  · exact fun p _ hp => absurd rfl hp
  · simp [Table.start]
  · simp [Table.Mapped, Table.start, Table.running]

theorem sound_step {fs : FileSystem} (hshell : fs.Loadable (text "shell")) {k : Kernel} {op : Op}
    (h : ∃ stack, Sound k.table stack) (hop : Succeeds fs k op) :
    ∃ stack, Sound ((kernel fs).next k op).table stack := by
  obtain ⟨stack,hosts,htight,hrunning,hmapped⟩ := h
  have hroom : ShellRoom k op := by
    intro dest cpu _ _ _ hcount
    have hsum : k.processCnt = _ := hosts.count
    obtain ⟨pid,hpid⟩ := hosts.nextPid_isSome htight (by omega)
    exact ⟨pid,Table.nextPid_lt hpid,Table.nextPid_free hpid⟩
  obtain ⟨cpu,-,hchange,hstart⟩ := op_change hshell hosts hrunning hop.1 hroom
  have hstarted : Started ((kernel fs).out k op) := by
    cases op with
    | execute command cpu =>
      obtain ⟨pid,entry,hr⟩ := hop.2 command cpu rfl
      rw [out_execute, hr]
      exact started_exec pid entry
    | _ => exact hstart fun _ _ => nofun
  obtain ⟨stack',hosts',hrunning',htight'⟩ := hchange.hosts hosts hrunning
  exact ⟨stack',hosts',htight' hstarted htight,hrunning',hchange.mapped hstarted hmapped⟩

/-- After every run of such events the table is sound. -/
theorem sound_run {fs : FileSystem} (hshell : fs.Loadable (text "shell")) (pcb : ℕ → PCB)
    (phys : ℕ → UInt8) (cpu : Cpu) {ops : List Op}
    (hops : (kernel fs).Along (Succeeds fs) (booted fs pcb phys cpu) ops) :
    ∃ stack, Sound ((kernel fs).run (booted fs pcb phys cpu) ops).table stack :=
  System.Along.invariant (I := fun k : Kernel => ∃ stack, Sound k.table stack)
    (fun _ _ h hop => sound_step hshell h hop) (booted_sound hshell pcb phys cpu) hops

end GameOfThreads
