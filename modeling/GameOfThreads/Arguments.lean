import GameOfThreads.CommandLine
import GameOfThreads.FileCalls
import GameOfThreads.Machine.Strings

/-! The arguments of a process: from the command that execute splits into the PCB, where nothing
else writes them, and from there to getargs, with what that stores for each size of buffer. -/
namespace GameOfThreads
open Machine

/-- The PCB holds this argument string with its NUL. -/
structure PCB.Holds (pcb : PCB) (a : List UInt8) : Prop where
  noNul : noke ∉ a
  fits : a.length < comBufSize
  stands : Stands pcb.args 0 a noke

theorem argString_eq (pcb : PCB) : pcb.argString = charsFrom pcb.args 0 comBufSize := by
  rw [PCB.argString, charsFrom, List.range_eq_range']
  rfl

theorem PCB.Holds.argString {pcb : PCB} {a : List UInt8} (h : pcb.Holds a) :
    pcb.argString = a := by
  rw [argString_eq]
  exact charsFrom_stands h.stands h.noNul h.fits

/-! ### getargs -/

/-- What a caller with a buffer of `nbytes` bytes is owed for the arguments `a`: no more bytes
than the buffer has, and the whole string with its NUL or an error. -/
def ArgsDelivered (null : Bool) (nbytes : ℤ) (a : List UInt8) (k : Kernel) : Prop :=
  ∃ value bytes, (getargs null nbytes k).1 = .done value bytes ∧
    bytes.length ≤ nbytes.toNat ∧
    (value = 0 ↔ null = false ∧ a ≠ [] ∧ (a.length : ℤ)+1 ≤ nbytes) ∧
    (value = 0 → bytes = a ++ [noke]) ∧ (value ≠ 0 → value = -1 ∧ bytes = [])

section
variable {null : Bool} {nbytes : ℤ} {a : List UInt8} {k : Kernel}

theorem getargs_refused (ha : (k.pcb k.running).Holds a)
    (h : null = true ∨ nbytes < 0 ∨ a = [] ∨ u32 nbytes < a.length) :
    getargs null nbytes k = (.done (-1) [],k) := by
  simp only [getargs, ha.argString]
  split_ifs with hargs hlength
  · rfl
  · rfl
  · rw [List.length_eq_zero_iff] at hlength
    exact absurd h (by tauto)

theorem getargs_copied (ha : (k.pcb k.running).Holds a)
    (h : ¬(null = true ∨ nbytes < 0 ∨ a = [] ∨ u32 nbytes < a.length)) :
    getargs null nbytes k = (.done 0 (a ++ [noke]),k) := by
  simp only [getargs, ha.argString]
  split_ifs with hargs hlength
  · exact absurd (by tauto) h
  · rw [List.length_eq_zero_iff] at hlength
    exact absurd (by tauto) h
  · rfl

/-- getargs keeps to the buffer, and tells whether the string is in it, except when the buffer
is one byte short: as long as the string without its NUL. -/
theorem args_delivered_iff (hnbytes : nbytes < 2147483648) (ha : (k.pcb k.running).Holds a) :
    ArgsDelivered null nbytes a k ↔ ¬(null = false ∧ a ≠ [] ∧ nbytes = a.length) := by
  by_cases hrefused : null = true ∨ nbytes < 0 ∨ a = [] ∨ u32 nbytes < a.length
  · have hunfit : ¬(null = false ∧ a ≠ [] ∧ a.length ≤ nbytes) := by
      rintro ⟨hnull,hne,hfits⟩
      rcases hrefused with h | h | h | h
      · rw [hnull] at h
        cases h
      · omega
      · exact hne h
      · unfold u32 at h
        omega
    refine iff_of_true ⟨-1,[],?_,Nat.zero_le _,?_,?_,?_⟩ ?_
    · rw [getargs_refused ha hrefused]
    · refine iff_of_false (by decide) ?_
      rintro ⟨hnull,hne,hfits⟩
      exact hunfit ⟨hnull,hne,by omega⟩
    · exact fun h => absurd h (by decide)
    · exact fun _ => ⟨rfl,rfl⟩
    · rintro ⟨hnull,hne,hexact⟩
      exact hunfit ⟨hnull,hne,hexact.ge⟩
  · have hout := getargs_copied ha hrefused
    simp only [not_or] at hrefused
    obtain ⟨hnull,hneg,hne,hlong⟩ := hrefused
    have hnull : null = false := by simpa using hnull
    have hlength : (a.length : ℤ) ≤ nbytes := by
      unfold u32 at hlong
      omega
    constructor
    · rintro ⟨value,bytes,hreply,hroom,-,hbytes,hother⟩ ⟨-,-,hexact⟩
      rw [hout] at hreply
      cases hreply
      rw [List.length_append, List.length_singleton] at hroom
      omega
    · intro hexact
      have hroom : (a.length : ℤ)+1 ≤ nbytes := by
        have hnot : nbytes ≠ a.length := fun h => hexact ⟨hnull,hne,h⟩
        omega
      refine ⟨0,a ++ [noke],by rw [hout],?_,?_,fun _ => rfl,fun h => absurd rfl h⟩
      · rw [List.length_append, List.length_singleton]
        omega
      · exact iff_of_true rfl ⟨hnull,hne,hroom⟩

end

/-! ### From the command to the PCB -/

/-- A new process has the string that it is given. -/
theorem start_holds {a : List UInt8} (ha : noke ∉ a) (hfits : a.length < comBufSize)
    (pid parent : ℕ) (cpu : Cpu) (pcb : PCB) : (PCB.start pid parent a cpu pcb).Holds a := by
  refine ⟨ha,hfits,?_⟩
  intro j hj
  have hbefore : ∀ i < j, cstring a i ≠ 0 := by
    intro i hi
    have hlt : i < a.length := by omega
    have hmem : a.getD i 0 ∈ a := by
      rw [List.getD_eq_getElem _ _ hlt]
      exact List.getElem_mem hlt
    exact ne_of_mem_of_not_mem hmem ha
  rw [Nat.zero_add]
  exact if_pos hbefore

theorem fileVerdict_args {fs : FileSystem} {stack : ℕ → UInt8} {inode entry : ℕ}
    {args args' bytes : List UInt8}
    (h : fs.fileVerdict stack inode args = .accepted args' entry bytes) : args' = args := by
  simp only [FileSystem.fileVerdict, imageVerdict] at h
  split_ifs at h
  cases h
  rfl

/-- An accepted command has room in the buffers, and its arguments are the rest of its line. -/
theorem verdict_args {fs : FileSystem} {stack : ℕ → UInt8} {line args bytes : List UInt8}
    {entry : ℕ} (h : fs.verdict stack (some line) = .accepted args entry bytes) :
    args = restOfLine line ∧ (restOfLine line).length < comBufSize := by
  simp only [FileSystem.verdict, Option.isNone_some, Bool.false_eq_true, if_false,
    parseArgs_eq] at h
  split_ifs at h with hfit
  cases hd : fs.readDentryByName (some (firstWord line)) with
  | none =>
    rw [hd] at h
    cases h
  | some d =>
    rw [hd] at h
    dsimp only at h
    split_ifs at h
    exact ⟨fileVerdict_args h,by omega⟩

/-- execute leaves the new process running, with the rest of the line as its arguments. -/
theorem execute_started_args {fs : FileSystem} {cpu : Cpu} {line : List UInt8} {k : Kernel}
    {pid entry : ℕ} (h : (execute fs cpu (some line) k).1 = .started pid entry) :
    ((execute fs cpu (some line) k).2.pcb pid).Holds (restOfLine line) ∧
      (execute fs cpu (some line) k).2.running = pid := by
  rcases execute_cases fs cpu (some line) k with ⟨-,hr,-⟩ | ⟨p,-,hcases⟩
  · rw [hr] at h
    cases h
  rcases hcases with ⟨-,hr,-⟩ | ⟨_,-,hr,-⟩ | ⟨-,hr,-⟩ | ⟨_,-,hr,-⟩ | ⟨args,_,_,hverdict,hr,ht⟩
  · rw [hr] at h
    cases h
  · rw [hr] at h
    cases h
  · rw [hr] at h
    cases h
  · rw [hr] at h
    cases h
  · rw [hr] at h
    cases h
    obtain ⟨rfl,hfits⟩ := verdict_args hverdict
    have hpcb := congrFun (congrArg Table.pcb ht) pid
    have hrunning := congrArg Table.running ht
    constructor
    · have hstart : (execute fs cpu (some line) k).2.pcb pid =
          PCB.start pid (k.table.parentFor pid) (restOfLine line) cpu (k.pcb pid) :=
        hpcb.trans (Function.update_self ..)
      rw [hstart]
      exact start_holds (restOfLine_no_nul line) hfits ..
    · exact hrunning.trans (Function.update_self ..)

/-- The shell of the image starts as the first process, whatever its arguments. -/
theorem execute_initial {line args : List UInt8} (hline : parseArgs (some line) =
    some (text "shell",args)) (hfits : args.length < comBufSize) (cpu : Cpu) :
    ∃ entry, (execute shellImage cpu (some line)
      (initial (fun _ => PCB.zero) fun _ => 0)).1 = .started 0 entry := by
  have hpid : (initial (fun _ => PCB.zero) fun _ => 0).table.nextPid = some 0 := by
    rw [initial_table]
    rfl
  obtain ⟨entry,hout,-⟩ :=
    execute_loadable hline (by decide) hfits shellImage_loadable cpu hpid
  exact ⟨entry,hout⟩

theorem execute_initial_holds {line args : List UInt8} (hline : parseArgs (some line) =
    some (text "shell",args)) (hfits : args.length < comBufSize) (cpu : Cpu) :
    let k := (execute shellImage cpu (some line) (initial (fun _ => PCB.zero) fun _ => 0)).2
    (k.pcb k.running).Holds args := by
  intro k
  obtain ⟨entry,hout⟩ := execute_initial hline hfits cpu
  obtain ⟨hholds,hrunning⟩ := execute_started_args hout
  have hargs : restOfLine line = args := by
    rw [parseArgs_eq] at hline
    exact (Prod.mk.inj (Option.some.inj hline)).2
  rw [hargs] at hholds
  rw [hrunning]
  exact hholds

/-- The program that was started with the arguments `ab`. -/
theorem args_delivered_three :
    ArgsDelivered false 3 (text "ab") (execute shellImage ⟨1,1,fun _ => 0⟩
      (some (text "shell ab")) (initial (fun _ => PCB.zero) fun _ => 0)).2 :=
  (args_delivered_iff (by decide) (execute_initial_holds (by decide) (by decide) _)).mpr
    fun h => absurd h.2.2 (by decide)

/-- With a buffer of two bytes it gets three. -/
theorem args_overrun_two :
    let k := (execute shellImage ⟨1,1,fun _ => 0⟩ (some (text "shell ab"))
      (initial (fun _ => PCB.zero) fun _ => 0)).2
    (k.pcb k.running).Holds (text "ab") ∧ (getargs false 2 k).1 = .done 0 [97,98,0] ∧
      ¬ArgsDelivered false 2 (text "ab") k := by
  intro k
  have hholds : (k.pcb k.running).Holds (text "ab") :=
    execute_initial_holds (by decide) (by decide) _
  have hout : (getargs false 2 k).1 = .done 0 [97,98,0] := by
    rw [getargs_copied hholds (by decide)]
    rfl
  refine ⟨hholds,hout,?_⟩
  rintro ⟨value,bytes,hreply,hroom,-⟩
  rw [hout] at hreply
  cases hreply
  exact absurd hroom (by decide)

/-! ### Nothing else writes arguments -/

/-- Only the process that a step has started has other arguments than before. -/
def ArgsKept (started : Option ℕ) (T T' : Table) : Prop :=
  ∀ p, started ≠ some p → (T'.pcb p).args = (T.pcb p).args

theorem ArgsKept.of_eq {started : Option ℕ} {T T' : Table} (h : T' = T) :
    ArgsKept started T T' := fun _ _ => by rw [h]

theorem ArgsKept.trans {started : Option ℕ} {T S U : Table} (h : ArgsKept started T S)
    (h' : ArgsKept started S U) : ArgsKept started T U := fun p hp =>
  (h' p hp).trans (h p hp)

theorem onPcb_args (T : Table) (p : ℕ) {f : PCB → PCB} (hf : ∀ pcb, (f pcb).args = pcb.args)
    (started : Option ℕ) : ArgsKept started T (T.onPcb p f) := by
  intro q _
  by_cases hq : q = p
  · subst hq
    simp [Table.onPcb, hf]
  · simp [Table.onPcb, hq]

theorem start_args (T : Table) (cpu : Cpu) (pid : ℕ) (args : List UInt8) :
    ArgsKept (some pid) T (T.start cpu pid args) := by
  intro p hp
  have hne : p ≠ pid := fun h => hp (by rw [h])
  simp [Table.start, hne]

theorem remove_args (T : Table) (started : Option ℕ) : ArgsKept started T T.remove :=
  onPcb_args T T.running (f := PCB.closeFiles) (fun _ => rfl) started

theorem back_args (T : Table) (p : ℕ) (started : Option ℕ) : ArgsKept started T (T.back p) := by
  intro q hq
  by_cases hmark : (T.pcb p).haltStat = 1
  · have hset := onPcb_args T p (f := PCB.setHaltStat 0) (fun _ => rfl) started q hq
    simpa [Table.back, Table.onPcb, hmark] using hset
  · simp [Table.back, hmark]

theorem execute_args (fs : FileSystem) (cpu : Cpu) (command : Option (List UInt8)) (k : Kernel) :
    ArgsKept (execute fs cpu command k).1.pid k.table (execute fs cpu command k).2.table := by
  rcases execute_cases fs cpu command k with ⟨-,-,ht⟩ | ⟨pid,-,hcases⟩
  · exact .of_eq ht
  rcases hcases with ⟨-,-,ht⟩ | ⟨_,-,-,ht⟩ | ⟨-,-,ht⟩ | ⟨_,-,-,ht⟩ | ⟨args,entry,_,-,hr,ht⟩
  · rw [ht]
    exact fun _ _ => rfl
  · exact .of_eq ht
  · rw [ht]
    exact fun _ _ => rfl
  · rw [ht]
    exact fun _ _ => rfl
  · rw [hr, ht]
    exact start_args k.table cpu pid args

theorem halt_args (fs : FileSystem) (cpu : Cpu) (status : ℕ) (k : Kernel) :
    ArgsKept (halt fs cpu status k).1.started k.table (halt fs cpu status k).2.table := by
  rcases halt_cases fs cpu status k with ⟨-,-,ht⟩ | ⟨-,k',hk',hends⟩
  · rw [ht]
    exact (remove_args k.table _).trans (back_args k.table.remove k.running _)
  have hexec := execute_args fs cpu (some (text "shell")) k'
  rw [hk'] at hexec
  rcases hends with ⟨pid,entry,hr,hout,hstate⟩ | ⟨hnot,hhalt⟩
  · rw [hr] at hexec
    rw [hout, hstate]
    exact (remove_args k.table _).trans hexec
  · rw [started_of_pid_none hnot] at hexec
    rw [hhalt, returnToParent_out, returnToParent_table]
    exact ((remove_args k.table _).trans hexec).trans (back_args _ k.running _)

theorem squashException_args (fs : FileSystem) (cpu : Cpu) (k : Kernel) :
    ArgsKept (squashException fs cpu k).1.started k.table (squashException fs cpu k).2.table := by
  unfold squashException
  split_ifs
  · have hmark := onPcb_args k.table k.running (f := PCB.setHaltStat 1) fun _ => rfl
    exact (hmark _).trans (halt_args fs cpu 0 (k.onPcb k.running (PCB.setHaltStat 1)))
  · exact .of_eq rfl

theorem pitHandler_args (cpu : Cpu) (k : Kernel) :
    ArgsKept (pitHandler cpu k).1.started k.table (pitHandler cpu k).2.table := by
  rcases pitHandler_cases cpu k with ⟨-,-,ht⟩ | ⟨-,-,ht⟩
  · exact .of_eq ht
  · rw [ht]
    exact onPcb_args k.table k.running (f := PCB.saveContext cpu) (fun _ => rfl) _

theorem terminalSwitch_args (fs : FileSystem) (cpu : Cpu) (dest : ℕ) (k : Kernel) :
    ArgsKept (terminalSwitch fs cpu k.viewingTerm dest k).1.started k.table
      (terminalSwitch fs cpu k.viewingTerm dest k).2.table := by
  rcases terminalSwitch_cases fs cpu dest k with ⟨-,-,ht⟩ | ⟨-,-,-,-,ht⟩ | ⟨-,k',hk',hout,ht⟩
  · exact .of_eq ht
  · rw [ht]
    exact fun _ _ => rfl
  · have hpark := onPcb_args k.table (k.table.process k.table.viewingTerm)
      (f := PCB.saveContext cpu) (fun _ => rfl) (execute fs cpu (some (text "shell")) k').1.pid
    have hexec := execute_args fs cpu (some (text "shell")) k'
    rw [hk'] at hexec
    rw [hout, ht]
    exact ArgsKept.trans (S := k.table.park cpu dest) hpark hexec

theorem keyboardHandler_args (fs : FileSystem) (cpu : Cpu) (pressed : ℕ) (k : Kernel) :
    ArgsKept (keyboardHandler fs cpu pressed k).1.started k.table
      (keyboardHandler fs cpu pressed k).2.table := by
  rcases keyboardSwitch_cases fs cpu pressed { k with interrupts := false } with
    ⟨-,ht⟩ | ⟨dest,-,-,hswitch⟩
  · exact .of_eq ht
  · have hkeep := terminalSwitch_args fs cpu dest { k with interrupts := false }
    rw [← hswitch] at hkeep
    exact hkeep

/-- A process that a step does not start keeps its arguments. -/
theorem step_args (fs : FileSystem) (k : Kernel) (op : Op) :
    ArgsKept ((kernel fs).out k op).started k.table ((kernel fs).next k op).table := by
  have hcall : op.FileCall →
      ArgsKept ((kernel fs).out k op).started k.table ((kernel fs).next k op).table :=
    fun hop p _ => by rw [(fileCall_desOnly k fs hop).pcb p]
  cases op with
  | execute command cpu => exact execute_args fs cpu command k
  | halt status cpu => exact halt_args fs cpu status k
  | squash cpu => exact squashException_args fs cpu k
  | pit cpu => exact pitHandler_args cpu k
  | switch dest cpu => exact terminalSwitch_args fs cpu dest k
  | key pressed cpu => exact keyboardHandler_args fs cpu pressed k
  | _ => exact hcall trivial

/-- A process has its arguments as long as nothing starts under its PID. -/
theorem run_args (fs : FileSystem) {k : Kernel} {pid : ℕ} {ops : List Op}
    (hops : (kernel fs).Along (fun k op => ((kernel fs).out k op).started ≠ some pid) k ops) :
    (((kernel fs).run k ops).pcb pid).args = (k.pcb pid).args :=
  System.Along.invariant (I := fun k' : Kernel => (k'.pcb pid).args = (k.pcb pid).args)
    (fun k' op h hop => (step_args fs k' op pid hop).trans h) rfl hops

theorem PCB.Holds.of_args {pcb pcb' : PCB} {a : List UInt8} (h : pcb.Holds a)
    (hargs : pcb'.args = pcb.args) : pcb'.Holds a := ⟨h.noNul,h.fits,by rw [hargs]; exact h.stands⟩

/-- A line of a word and its arguments: parse_args puts both into the buffers, each with its NUL,
and if execute starts the program, getargs in the new process delivers the arguments to every
buffer that is longer, or fails when there are none. -/
theorem command_delivered (fs : FileSystem) (cpu : Cpu) {line before w gap r : List UInt8}
    (h : SplitLine line before w gap r) (k : Kernel) :
    (∀ fuel, line.length < fuel → ∃ filename args,
      parseLoops (cstring line) fuel = some (filename,args) ∧
        ∀ buf, Stands (written buf filename) 0 w noke ∧ Stands (written buf args) 0 r noke) ∧
    ∀ pid entry, (execute fs cpu (some line) k).1 = .started pid entry →
      (execute fs cpu (some line) k).2.running = pid ∧
      ∀ ops, (kernel fs).Along (fun k op => ((kernel fs).out k op).started ≠ some pid)
          (execute fs cpu (some line) k).2 ops →
        let k' := (kernel fs).run (execute fs cpu (some line) k).2 ops
        k'.running = pid → ∀ nbytes : ℤ, r.length < nbytes → nbytes < 2147483648 →
          (getargs false nbytes k').1 =
            if r = [] then .done (-1) [] else .done 0 (r ++ [noke]) := by
  obtain ⟨hfirst,hargs⟩ := h.parts
  constructor
  · intro fuel hfuel
    have hparse := parseLoops_eq line hfuel
    rw [hfirst, hargs] at hparse
    exact ⟨_,_,hparse,fun buf => ⟨stands_written w noke buf,stands_written r noke buf⟩⟩
  · intro pid entry hstarted
    obtain ⟨hholds,hrunning⟩ := execute_started_args hstarted
    rw [hargs] at hholds
    refine ⟨hrunning,?_⟩
    intro ops hops k' hback nbytes hroom hnbytes
    have hholds' : (k'.pcb k'.running).Holds r := by
      rw [hback]
      exact hholds.of_args (run_args fs hops)
    have hsize : u32 nbytes = nbytes.toNat := u32_eq_toNat (by omega) (by omega)
    by_cases hempty : r = []
    · rw [if_pos hempty, getargs_refused hholds' (.inr (.inr (.inl hempty)))]
    · have hroomy : ¬(false = true ∨ nbytes < 0 ∨ r = [] ∨ u32 nbytes < r.length) := by
        rintro (hnull | hneg | hnil | hlong)
        · cases hnull
        · omega
        · exact hempty hnil
        · omega
      rw [if_neg hempty, getargs_copied hholds' hroomy]

/-- A line with blanks before, between and inside, and a second line. -/
theorem command_delivered_shell :
    let line := text " shell  a b\nc"
    let k := initial (fun _ => PCB.zero) fun _ => 0
    let cpu : Cpu := ⟨1,1,fun _ => 0⟩
    (∃ filename args, parseLoops (cstring line) 20 = some (filename,args) ∧
      Stands (written cpu.stack filename) 0 (text "shell") noke ∧
      Stands (written cpu.stack args) 0 (text "a b") noke) ∧
    (∃ entry, (execute shellImage cpu (some line) k).1 = .started 0 entry) ∧
    (getargs false 4 (execute shellImage cpu (some line) k).2).1 =
      .done 0 (text "a b" ++ [noke]) := by
  intro line k cpu
  have hsplit : SplitLine line [space] (text "shell") [space,space] (text "a b") :=
    ⟨by decide,by decide +kernel,by decide +kernel,by decide,by decide,by decide,by decide +kernel,
      by decide,by decide⟩
  obtain ⟨hparse,hrun⟩ := command_delivered shellImage cpu hsplit k
  obtain ⟨filename,args,hloops,hstands⟩ := hparse 20 (by decide)
  have hline : parseArgs (some line) = some (text "shell",text "a b") := by decide
  obtain ⟨entry,hout⟩ := execute_initial hline (by decide) cpu
  obtain ⟨hrunning,hdelivers⟩ := hrun 0 entry hout
  refine ⟨⟨filename,args,hloops,hstands cpu.stack⟩,⟨entry,hout⟩,?_⟩
  have hreply := hdelivers [] trivial hrunning 4 (by decide) (by decide)
  rwa [if_neg (by decide)] at hreply

end GameOfThreads
