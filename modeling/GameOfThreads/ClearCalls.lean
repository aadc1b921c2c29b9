import GameOfThreads.Destinations
import GameOfThreads.TerminalInput

/-! Calls whose stores stay out of the kernel. A call tells by its arguments and the state how far
it may store; where that range is clear of the kernel, an event does what it does in the model
without addresses, and its bytes are in place. -/
namespace GameOfThreads
open Machine

/-- The most bytes that a routine of `table` stores for a read of `nbytes`. -/
def Kernel.readSpan (fs : FileSystem) (fd : ℕ) (nbytes : ℤ) (k : Kernel) : OpTable → ℕ
  | .fileOps =>
    let inode := u32 (k.des fd).inode
    let position := u32 (k.des fd).filePosition
    if nbytes < 0 ∨ fs.TurnedAway inode position (u32 nbytes) then 0
    else fs.rounds inode position (u32 nbytes)
  | .directoryOps =>
    if nbytes ≤ 0 ∨ u32 (k.des fd).filePosition > u32 fs.dirCount then 0 else nameLimit nbytes
  | .stdOps => if nbytes < 0 then 0 else readLimit nbytes
  | _ => 0

/-- Where the bytes may go that an event stores through its pointer: to mapped addresses outside
of the kernel. -/
structure Aims (A : PageArrays) (fs : FileSystem) (s : Callers) (c : Call) : Prop where
  word : c.dest < 4294967296
  reads : ∀ fd null nbytes cpu, c.op = .read fd null nbytes cpu → ∀ table,
    s.kernel.Dispatches fd c.dest table →
      s.kernel.Outside A c.dest (s.kernel.readSpan fs fd.toNat nbytes table)
  lines : ∀ limit, c.op = .resume → s.kernel.waiting s.kernel.running = some (.terminal limit) →
    s.kernel.Outside A (s.buffer s.kernel.running) limit
  args : ∀ null nbytes, c.op = .getargs null nbytes →
    ¬UserCall.Refused fs s.kernel (.getargs c.dest nbytes) →
      s.kernel.Outside A c.dest ((s.kernel.pcb s.kernel.running).argString.length+1)
  screen : ∀ screenStart, c.op = .vidmap screenStart →
    ¬UserCall.Refused fs s.kernel (.vidmap c.dest) → s.kernel.Outside A c.dest 4

/-- The stores of an event stay out of the kernel, and nothing else in it faults or runs past
the end of a local: the data that a file read loads is mapped, an entry that a directory read
copies ends, and the words of a command fit. -/
structure Clear (A : PageArrays) (fs : FileSystem) (s : Callers) (c : Call) : Prop where
  aims : Aims A fs s c
  loads : ∀ fd null nbytes cpu, c.op = .read fd null nbytes cpu → 0 ≤ nbytes →
    s.kernel.Dispatches fd c.dest .fileOps →
      fs.Fetches (s.kernel.addressMap A) (u32 (s.kernel.des fd.toNat).inode)
        (u32 (s.kernel.des fd.toNat).filePosition) c.dest (u32 nbytes)
  ends : ∀ fd null nbytes cpu, c.op = .read fd null nbytes cpu → 0 < nbytes →
    s.kernel.Dispatches fd c.dest .directoryOps →
      u32 (s.kernel.des fd.toNat).filePosition ≤ u32 fs.dirCount →
        u32 (s.kernel.des fd.toNat).filePosition < u32 fs.inodeCount →
          ¬fs.Overlong (u32 (s.kernel.des fd.toNat).filePosition)
  fits : ∀ command cpu, c.op = .execute command cpu → ∀ filename args,
    parseArgs command = some (filename,args) →
      filename.length < comBufSize ∧ args.length < comBufSize

/-! ### Calls that store nothing -/

/-- The calls that store through a pointer. -/
def Op.Stores : Op → Prop
  | .read _ _ _ _ => True
  | .getargs _ _ => True
  | .vidmap _ => True
  | .resume => True
  | _ => False

theorem returnToParent_bytes (status p : ℕ) (k : Kernel) :
    (returnToParent status p k).1.bytes = [] := by
  rw [returnToParent_out]
  rfl

theorem halt_bytes (fs : FileSystem) (cpu : Cpu) (status : ℕ) (k : Kernel) :
    (halt fs cpu status k).1.bytes = [] := by
  rcases halt_cases fs cpu status k with ⟨-,hout,-⟩ | ⟨-,k',-,⟨_,_,-,hout,-⟩ | ⟨-,heq⟩⟩
  · rw [hout]
    rfl
  · rw [hout]
    rfl
  · rw [heq]
    exact returnToParent_bytes ..

theorem terminalSwitch_bytes (fs : FileSystem) (cpu : Cpu) (dest : ℕ) (k : Kernel) :
    (terminalSwitch fs cpu k.viewingTerm dest k).1.bytes = [] := by
  rcases terminalSwitch_cases fs cpu dest k with ⟨-,hout,-⟩ | ⟨-,-,-,hout,-⟩ | ⟨-,k',-,hout,-⟩ <;>
  · rw [hout]
    rfl

theorem sysOpen_bytes (fs : FileSystem) (filename : Option (List UInt8)) (k : Kernel) :
    (Out.reply (sysOpen fs filename k).1).bytes = [] := by
  unfold sysOpen
  cases fs.readDentryByName filename with
  | none => rfl
  | some dentry =>
    cases k.freeDes with
    | none => rfl
    | some fd =>
      change (Out.reply (openAt fd k (openedDes dentry (k.des fd))).1).bytes = []
      cases openedDes dentry (k.des fd) <;> rfl

theorem close_bytes (fd : ℤ) (k : Kernel) : (Out.reply (close fd k).1).bytes = [] := by
  unfold close
  split_ifs <;> rfl

theorem write_bytes (fd : ℤ) (buf : Option (ℕ → UInt8)) (nbytes : ℤ) (k : Kernel) :
    (Out.reply (write fd buf nbytes k).1).bytes = [] := by
  unfold write
  split_ifs
  · rfl
  · rfl
  · cases (k.des fd.toNat).opTable <;> rfl

theorem getargs_kernel (null : Bool) (nbytes : ℤ) (k : Kernel) :
    (getargs null nbytes k).2 = k := by
  unfold getargs
  dsimp only
  split_ifs <;> rfl

theorem vidmap_kernel (screenStart : ℕ) (k : Kernel) : (vidmap screenStart k).2 = k := by
  unfold vidmap
  dsimp only
  split_ifs <;> rfl

/-- No other event hands bytes to its caller. -/
theorem bytes_of_not_stores (fs : FileSystem) (k : Kernel) {op : Op} (hop : ¬op.Stores) :
    (step fs k op).1.bytes = [] := by
  cases op with
  | execute command cpu => rfl
  | halt status cpu => exact halt_bytes fs cpu status k
  | squash cpu =>
    simp only [step, squashException]
    split_ifs
    · exact halt_bytes ..
    · rfl
  | pit cpu =>
    simp only [step]
    rcases pitHandler_cases cpu k with ⟨-,hout,-⟩ | ⟨-,hout,-⟩ <;>
    · rw [hout]
      rfl
  | switch dest cpu => exact terminalSwitch_bytes fs cpu dest k
  | key pressed cpu =>
    simp only [step, keyboardHandler]
    rcases keyboardSwitch_cases fs cpu pressed { k with interrupts := false } with
      ⟨hout,-⟩ | ⟨dest,-,-,heq⟩
    · rw [hout]
      rfl
    · rw [heq]
      exact terminalSwitch_bytes fs cpu dest { k with interrupts := false }
  | sysOpen filename => exact sysOpen_bytes fs filename k
  | close fd => exact close_bytes fd k
  | write fd buf nbytes => exact write_bytes fd buf nbytes k
  | rtc => rfl
  | _ => exact absurd trivial hop

section
variable {A : PageArrays} {fs : FileSystem} {s : Callers} {c : Call}

/-! ### How much a call stores -/

theorem Kernel.Outside.mono {k : Kernel} {dest m n : ℕ} (h : k.Outside A dest n) (hmn : m ≤ n) :
    k.Outside A dest m := fun i hi => h i (Nat.lt_of_lt_of_le hi hmn)

theorem Kernel.Outside.zero (k : Kernel) (dest : ℕ) : k.Outside A dest 0 :=
  fun i hi => absurd hi (Nat.not_lt_zero i)

section
variable {k : Kernel} {fd : ℤ} {nbytes : ℤ}

theorem fileRead_span : (fileRead fs fd false nbytes k).1.2.length ≤
    k.readSpan fs fd.toNat nbytes .fileOps := by
  by_cases hrefused : FileReadRefused fd false nbytes k
  · rw [fileRead_of_refused hrefused]
    exact Nat.zero_le _
  rw [fileRead_of_accepted hrefused]
  simp only [FileReadRefused, not_or] at hrefused
  simp only [Kernel.readSpan, Kernel.fileData, hrefused.1, false_or]
  generalize u32 (k.des fd.toNat).inode = inode
  generalize u32 (k.des fd.toNat).filePosition = offset
  by_cases hturn : fs.TurnedAway inode offset (u32 nbytes)
  · rw [if_pos hturn]
    by_cases hr : fs.Rejected inode offset (u32 nbytes)
    · rw [FileSystem.readData_of_rejected hr]
      exact Nat.zero_le _
    · rw [FileSystem.readData_of_turnedAway hturn hr]
      exact Nat.zero_le _
  · rw [if_neg hturn, FileSystem.readData_loop hturn, List.length_map]
    exact (List.takeWhile_sublist _).length_le.trans (by simp)

theorem directoryRead_span (cpu : Cpu) : (directoryRead fs fd false nbytes cpu k).1.2.length ≤
    k.readSpan fs fd.toNat nbytes .directoryOps := by
  by_cases hargs : fd < fileStart ∨ fd > maxFile ∨ false = true ∨ nbytes ≤ 0
  · rw [directoryRead, if_pos hargs]
    exact Nat.zero_le _
  by_cases hpast : u32 (k.des fd.toNat).filePosition > u32 fs.dirCount
  · have hread : directoryRead fs fd false nbytes cpu k = ((0,[]),k) :=
      (if_neg hargs).trans (if_pos hpast)
    rw [hread]
    exact Nat.zero_le _
  have hspan : ¬(nbytes ≤ 0 ∨ u32 (k.des fd.toNat).filePosition > u32 fs.dirCount) := by tauto
  rw [Kernel.readSpan, if_neg hspan, directoryRead, if_neg hargs]
  dsimp only
  rw [if_neg hpast]
  cases fs.readDentryByIndex (u32 (k.des fd.toNat).filePosition) ⟨cpu.stack⟩ with
  | none => exact Nat.zero_le _
  | some dentry => exact copyName_length_le ..

theorem terminalRead_span : (Out.reply (terminalRead false nbytes k).1).bytes.length ≤
    k.readSpan fs fd.toNat nbytes .stdOps := by
  by_cases hneg : nbytes < 0
  · have hrefused : (terminalRead false nbytes k).1 = .done (-1) [] := by
      simp only [terminalRead, terminalReadStart, if_pos (Or.inr hneg)]
    rw [hrefused]
    exact Nat.zero_le _
  · have hspan : k.readSpan fs fd.toNat nbytes .stdOps = readLimit nbytes := if_neg hneg
    rw [hspan]
    have hargs : ¬(false = true ∨ nbytes < 0) := by simpa using hneg
    have hstart : terminalReadStart false nbytes k =
        (some (readLimit nbytes),k.onTerminal k.currentTerm (Terminal.setReadWanted 1)) :=
      if_neg hargs
    rw [terminalRead, hstart]
    generalize k.onTerminal k.currentTerm (Terminal.setReadWanted 1) = k₁
    dsimp only
    split_ifs
    · exact Nat.zero_le _
    · exact finish_length_le _ _

/-- A read stores no more bytes than the routine of its descriptor may. -/
theorem read_span {dest : ℕ} (h : Dispatched fd dest k) (cpu : Cpu) :
    (Out.reply (read fs fd (dest = 0) nbytes cpu k).1).bytes.length ≤
      k.readSpan fs fd.toNat nbytes (k.des fd.toNat).opTable := by
  rw [h.read_eq]
  cases (k.des fd.toNat).opTable with
  | null => exact Nat.zero_le _
  | rtcOps =>
    dsimp only
    cases readRtc k with
    | none => exact Nat.zero_le _
    | some r => exact Nat.zero_le _
  | fileOps => exact fileRead_span
  | directoryOps => exact directoryRead_span cpu
  | stdOps => exact terminalRead_span

theorem getargs_bytes (fs : FileSystem) (dest : ℕ) (nbytes : ℤ) (k : Kernel) :
    (Out.reply (getargs (dest = 0) nbytes k).1).bytes = [] ∨
      ¬UserCall.Refused fs k (.getargs dest nbytes) ∧
        (Out.reply (getargs (dest = 0) nbytes k).1).bytes =
          (k.pcb k.running).argString ++ [noke] := by
  unfold getargs
  simp only [decide_eq_true_eq]
  split_ifs with hargs hlength
  · exact .inl rfl
  · exact .inl rfl
  · refine .inr ⟨?_,rfl⟩
    rintro (hnull | hneg | hnone | hshort)
    · exact hargs (.inl hnull)
    · exact hargs (.inr hneg)
    · exact hlength (.inl (by rw [hnone]; rfl))
    · apply hlength
      right
      unfold u32
      omega

end

/-- A blocked read comes back with a line, or with nothing. -/
theorem resume_outside {k : Kernel} {dest : ℕ}
    (h : ∀ limit, k.waiting k.running = some (.terminal limit) → k.Outside A dest limit) :
    k.Outside A dest (Out.reply (resume k).1).bytes.length := by
  cases hwait : k.waiting k.running with
  | none =>
    have hout : (resume k).1 = .blocked := by rw [resume, hwait]
    rw [hout]
    exact .zero k dest
  | some w =>
    cases w with
    | rtc =>
      rw [resume_clock hwait]
      split_ifs
      · exact .zero k dest
      · exact .zero k dest
    | terminal limit =>
      refine (h limit hwait).mono ?_
      rw [resume_reader hwait]
      split_ifs
      · exact Nat.zero_le _
      · exact finish_length_le limit k

/-- The bytes of an event go where it aims. -/
theorem Aims.outside (h : Aims A fs s c) :
    s.kernel.Outside A (s.pointer c) (step fs s.kernel c.base).1.bytes.length := by
  have hother (hstores : ¬c.base.Stores) :
      s.kernel.Outside A (s.pointer c) (step fs s.kernel c.base).1.bytes.length := by
    rw [bytes_of_not_stores fs s.kernel hstores]
    exact .zero s.kernel _
  obtain ⟨op,dest,fault⟩ := c
  cases op with
  | read fd null nbytes cpu =>
    by_cases hd : Dispatched fd dest s.kernel
    · exact (h.reads fd null nbytes cpu rfl _ ⟨hd,rfl⟩).mono (read_span hd cpu)
    · have hout : (step fs s.kernel (.read fd (dest = 0) nbytes cpu)).1.bytes = [] :=
        congrArg Out.bytes (read_refused hd)
      exact congrArg List.length hout ▸ .zero s.kernel dest
  | resume => exact resume_outside fun limit hwait => h.lines limit rfl hwait
  | getargs null nbytes =>
    rcases getargs_bytes fs dest nbytes s.kernel with hout | ⟨hargs,hout⟩
    · exact congrArg List.length hout ▸ .zero s.kernel dest
    · refine (h.args null nbytes rfl hargs).mono ?_
      exact (congrArg List.length hout).trans_le (by simp)
  | vidmap screenStart =>
    by_cases hstart : dest < mem128 ∨ dest > mem132
    · have hout : (Out.reply (vidmap dest s.kernel).1).bytes.length = 0 := by
        rw [vidmap, if_pos hstart]
        rfl
      exact hout ▸ .zero s.kernel dest
    · have hout : (Out.reply (vidmap dest s.kernel).1).bytes.length = 4 := by
        rw [vidmap, if_neg hstart]
        rfl
      exact hout ▸ h.screen screenStart rfl hstart
  | _ => exact hother fun h => h

/-- A read of a file whose data is mapped does not fault. -/
theorem Clear.loaded (h : Clear A fs s c) {fd : ℤ} {null : Bool} {nbytes : ℤ} {cpu : Cpu}
    (hop : c.op = .read fd null nbytes cpu) (hn : 0 ≤ nbytes)
    (hd : s.kernel.Dispatches fd c.dest .fileOps) :
    ((fs.readDataIn (s.kernel.addressMap A) (u32 (s.kernel.des fd.toNat).inode)
      (u32 (s.kernel.des fd.toNat).filePosition) c.dest (u32 nbytes)).value).isSome := by
  refine (h.loads fd null nbytes cpu hop hn hd).value_isSome (u32_lt _) h.aims.word ?_
  intro hturn i hi
  have hspan : s.kernel.readSpan fs fd.toNat nbytes .fileOps = fs.rounds
      (u32 (s.kernel.des fd.toNat).inode) (u32 (s.kernel.des fd.toNat).filePosition)
        (u32 nbytes) := by
    rw [Kernel.readSpan, if_neg (not_or.mpr ⟨by omega,hturn⟩)]
  obtain ⟨x,-,hx⟩ := h.aims.reads fd null nbytes cpu hop _ hd i (hspan ▸ hi)
  exact Option.isSome_iff_exists.mpr ⟨x,PageMap.translate_kernel hx false⟩

/-- An execute whose words fit does not run past the end of a local. -/
theorem execute_fits {command : Option (List UInt8)} {cpu : Cpu} {k : Kernel}
    (hfits : ∀ filename args, parseArgs command = some (filename,args) →
      filename.length < comBufSize ∧ args.length < comBufSize) :
    (execute fs cpu command k).1 ≠ .overrun := by
  have hverdict : fs.verdict cpu.stack command ≠ .overrun := by
    unfold FileSystem.verdict
    cases hparse : parseArgs command with
    | none => split_ifs <;> exact Verdict.noConfusion
    | some words =>
      obtain ⟨hfilename,hargs⟩ := hfits words.1 words.2 hparse
      have hfit : ¬(words.1.length ≥ comBufSize ∨ words.2.length ≥ comBufSize) := by omega
      dsimp only
      rw [if_neg hfit]
      split_ifs
      · exact Verdict.noConfusion
      cases fs.readDentryByName (some words.1) with
      | none => exact Verdict.noConfusion
      | some d =>
        dsimp only
        unfold FileSystem.fileVerdict imageVerdict
        dsimp only
        split_ifs <;> exact Verdict.noConfusion
  rcases execute_cases fs cpu command k with ⟨-,hr,-⟩ | ⟨pid,-,hcases⟩
  · rw [hr]
    exact ExecResult.noConfusion
  rcases hcases with ⟨-,hr,-⟩ | ⟨_,-,hr,-⟩ | ⟨hv,-⟩ | ⟨_,-,hr,-⟩ | ⟨_,_,_,-,hr,-⟩
  · rw [hr]
    exact ExecResult.noConfusion
  · rw [hr]
    exact ExecResult.noConfusion
  · exact absurd hv hverdict
  · rw [hr]
    exact ExecResult.noConfusion
  · rw [hr]
    exact ExecResult.noConfusion

/-- What an event leaves, with the bytes that it stores for its caller. -/
def Callers.after (A : PageArrays) (fs : FileSystem) (s : Callers) (c : Call) : Kernel :=
  (step fs s.kernel c.base).2.pokes
    (s.kernel.places A (s.pointer c) (step fs s.kernel c.base).1.bytes)

theorem serve_of (fs : FileSystem) (dest : ℕ) (fault : Cpu) (hlost : s.lost = false)
    (r : Reply × Kernel) (l : List (ℕ × UInt8)) : ∃ buffer,
      s.serve fs dest fault ((Served.of r).pokes l) = (.reply r.1,⟨r.2.pokes l,buffer,false⟩) := by
  obtain ⟨reply,k⟩ := r
  rw [← hlost]
  cases reply with
  | done value bytes => exact ⟨_,rfl⟩
  | blocked => exact ⟨_,rfl⟩

/-- An event that stores nothing through a pointer is clear if its words fit. -/
theorem Clear.of_not_stores (hstores : ¬c.op.Stores) (hword : c.dest < 4294967296)
    (hfits : ∀ command cpu, c.op = .execute command cpu → ∀ filename args,
      parseArgs command = some (filename,args) →
        filename.length < comBufSize ∧ args.length < comBufSize) : Clear A fs s c := by
  have hno {op : Op} (hop : c.op = op) (hop' : op.Stores) : False :=
    hstores (hop ▸ hop')
  exact ⟨⟨hword,fun _ _ _ _ hop => (hno hop trivial).elim,fun _ hop => (hno hop trivial).elim,
    fun _ _ hop => (hno hop trivial).elim,fun _ hop => (hno hop trivial).elim⟩,
      fun _ _ _ _ hop => (hno hop trivial).elim,fun _ _ _ _ hop => (hno hop trivial).elim,hfits⟩

/-- The user page is outside of the kernel. -/
theorem Inside.outside (A : PageArrays) {k : Kernel} {p dest n : ℕ} (h : Inside dest n)
    (hp : p < maxNumProc) (huser : k.pageDirUser = userEntry p) : k.Outside A dest n := by
  intro i hi
  have hin := h i hi
  have hpage : (dest+i) % 4294967296/fourMB = userEnt := by
    unfold fourMB userEnt
    omega
  refine ⟨_,?_,user_page A _ hp huser hpage⟩
  refine Set.disjoint_left.mp (frame_kernelFrame p) ⟨Nat.le_add_right ..,?_⟩
  exact Nat.add_lt_add_left (Nat.mod_lt _ (by decide)) _

/-! ### Steps -/

theorem callers_execute {command : Option (List UInt8)} {cpu fault : Cpu} {dest : ℕ}
    (hlost : s.lost = false) (hfits : (execute fs cpu command s.kernel).1 ≠ .overrun) :
    (callers A fs).step s ⟨.execute command cpu,dest,fault⟩ =
      (.exec (execute fs cpu command s.kernel).1,
        ⟨(execute fs cpu command s.kernel).2,s.buffer,false⟩) := by
  have hstep : (callers A fs).step s ⟨.execute command cpu,dest,fault⟩ = if s.lost then (.quiet,s)
      else if (execute fs cpu command s.kernel).1 = .overrun then (.quiet,{ s with lost := true })
      else (.exec (execute fs cpu command s.kernel).1,
        { s with kernel := (execute fs cpu command s.kernel).2 }) := rfl
  rw [hstep, hlost, if_neg Bool.false_ne_true, if_neg hfits]

/-- In the clear an event does what it does without addresses, and its bytes are in place. -/
theorem clear_step (hlost : s.lost = false) (h : Clear A fs s c) : ∃ buffer,
    (callers A fs).step s c = ((step fs s.kernel c.base).1,⟨s.after A fs c,buffer,false⟩) := by
  have hstep : (callers A fs).step s c = if s.lost then (.quiet,s) else _ := rfl
  rw [hlost, if_neg Bool.false_ne_true] at hstep
  have hother (hstores : ¬c.base.Stores) (heq : (callers A fs).step s c =
      ((step fs s.kernel c.base).1,⟨(step fs s.kernel c.base).2,s.buffer,false⟩)) :
      ∃ buffer, (callers A fs).step s c =
        ((step fs s.kernel c.base).1,⟨s.after A fs c,buffer,false⟩) := by
    refine ⟨s.buffer,heq.trans ?_⟩
    rw [Callers.after, bytes_of_not_stores fs s.kernel hstores]
    rfl
  obtain ⟨op,dest,fault⟩ := c
  have houtside := h.aims.outside
  cases op with
  | read fd null nbytes cpu =>
    have hserved := readTo_outside A houtside (fun hn hd => h.loaded rfl hn hd)
      fun hn hd => h.ends fd null nbytes cpu rfl hn hd
    obtain ⟨buffer,hserve⟩ := serve_of fs dest fault hlost
      (read fs fd (dest = 0) nbytes cpu s.kernel) _
    exact ⟨buffer,hstep.trans ((congrArg _ hserved).trans hserve)⟩
  | resume =>
    obtain ⟨buffer,hserve⟩ := serve_of fs (s.buffer s.kernel.running) fault hlost
      (resume s.kernel) _
    exact ⟨buffer,hstep.trans ((congrArg _ (resumeTo_outside A houtside)).trans hserve)⟩
  | getargs null nbytes =>
    obtain ⟨buffer,hserve⟩ := serve_of fs dest fault hlost
      (getargs (dest = 0) nbytes s.kernel) _
    exact ⟨buffer,hstep.trans ((congrArg _
      (answerTo_outside A (getargs_kernel ..) houtside)).trans hserve)⟩
  | vidmap screenStart =>
    obtain ⟨buffer,hserve⟩ := serve_of fs dest fault hlost (vidmap dest s.kernel) _
    exact ⟨buffer,hstep.trans ((congrArg _
      (answerTo_outside A (vidmap_kernel ..) houtside)).trans hserve)⟩
  | execute command cpu =>
    exact hother (fun h => h) (callers_execute hlost (execute_fits (h.fits command cpu rfl)))
  | _ => exact hother (fun h => h) hstep

end

end GameOfThreads
