import GameOfThreads.ProcessRuns

/-! Saved contexts. A terminal gives up the processor in the timer handler or when a terminal
without programs comes into view; the context then captured is the one that the timer
handler loads again, as long as it goes into the PCB of the process that was running. -/
namespace GameOfThreads
open Machine

/-- The step takes the processor away from terminal `t`. -/
def GaveUp (t : ℕ) (m : Move Kernel Op Out) : Prop :=
  m.pre.currentTerm = t ∧ m.post.currentTerm ≠ t

instance (t : ℕ) : DecidablePred (GaveUp t) := fun m =>
  inferInstanceAs (Decidable (m.pre.currentTerm = t ∧ m.post.currentTerm ≠ t))

/-- The saved stack registers of a process. -/
def Table.context (T : Table) (p : ℕ) : ℕ × ℕ := ((T.pcb p).thisEsp,(T.pcb p).thisEbp)

/-- The stack registers that an event finds. -/
def Op.registers (op : Op) : Option (ℕ × ℕ) := op.cpu.map fun cpu => (cpu.esp,cpu.ebp)

/-- What is asked of a step after the history `h`: no store into the PCB of a process that is
not running; a process that loses the processor has its own registers in its own PCB; and
the timer handler loads for a terminal what was captured when that terminal last gave up the
processor, from the process that is on top of it. -/
structure ContextKept (h : List (Move Kernel Op Out)) (m : Move Kernel Op Out) : Prop where
  own : ∀ p, p ≠ m.pre.running → m.post.table.context p = m.pre.table.context p
  saved : m.post.currentTerm ≠ m.pre.currentTerm →
    m.event.registers = some (m.post.table.context m.pre.running)
  loaded : ∀ esp ebp, m.out = .switched esp ebp →
    ∃ m', System.lastMove (GaveUp m.post.currentTerm) h = some m' ∧
      m'.pre.running = m.post.running ∧ m'.event.registers = some (esp,ebp)

/-- What a change of the table does to the saved contexts and to the terminals that are not
running. -/
structure Contexts (cpu : Cpu) (T T' : Table) : Prop where
  own : ∀ p, p ≠ T.running → T'.context p = T.context p
  saved : T'.currentTerm ≠ T.currentTerm →
    T'.process T.currentTerm = T.running ∧ T'.context T.running = (cpu.esp,cpu.ebp)
  away : ∀ t, t ≠ T.currentTerm → t ≠ T'.currentTerm →
    T'.process t = T.process t ∧ T'.totalProgs t = T.totalProgs t

theorem context_start (T : Table) (cpu : Cpu) (pid p : ℕ) (args : List UInt8) :
    (T.start cpu pid args).context p = T.context p := by
  by_cases h : p = pid
  · subst h
    simp [Table.context, Table.start, PCB.start]
  · simp [Table.context, Table.start, h]

theorem context_onPcb {f : PCB → PCB} (hf : ∀ pcb, (f pcb).thisEsp = pcb.thisEsp ∧
    (f pcb).thisEbp = pcb.thisEbp) (T : Table) (p q : ℕ) :
    (T.onPcb p f).context q = T.context q := by
  by_cases h : q = p
  · subst h
    simp [Table.context, Table.onPcb, hf]
  · simp [Table.context, Table.onPcb, h]

theorem context_remove (T : Table) (p : ℕ) : T.remove.context p = T.context p :=
  context_onPcb (f := PCB.closeFiles) (fun _ => ⟨rfl,rfl⟩) T T.running p

theorem context_back (T : Table) (p q : ℕ) : (T.back p).context q = T.context q := by
  by_cases hmark : (T.pcb p).haltStat = 1
  · have hset := context_onPcb (f := PCB.setHaltStat 0) (fun _ => ⟨rfl,rfl⟩) T p q
    simpa [Table.context, Table.back, Table.onPcb, hmark] using hset
  · simp [Table.context, Table.back, hmark]

theorem context_save (T : Table) (cpu : Cpu) (p q : ℕ) :
    (T.onPcb p (PCB.saveContext cpu)).context q =
      if q = p then (cpu.esp,cpu.ebp) else T.context q := by
  by_cases h : q = p
  · subst h
    simp [Table.context, Table.onPcb, PCB.saveContext]
  · simp [Table.context, Table.onPcb, h]

/-- The contexts are safe where a new terminal's shell starts with the running terminal in
view. -/
theorem Change.contexts {op : Op} {cpu : Cpu} {T T' : Table} {out : Out}
    (h : Change op cpu T out T')
    (hview : ∀ dest cpu, op = .switch dest cpu → dest ≠ T.viewingTerm → T.totalProgs dest = 0 →
      T.processCnt+1 ≤ maxNumProc → T.viewingTerm = T.currentTerm) : Contexts cpu T T' := by
  induction h with
  | same _ => exact ⟨fun _ _ => rfl,fun h => absurd rfl h,fun _ _ _ => ⟨rfl,rfl⟩⟩
  | claim _ _ => exact ⟨fun _ _ => rfl,fun h => absurd rfl h,fun _ _ _ => ⟨rfl,rfl⟩⟩
  | mapUser _ => exact ⟨fun _ _ => rfl,fun h => absurd rfl h,fun _ _ _ => ⟨rfl,rfl⟩⟩
  | start args hpid =>
    refine ⟨fun p _ => context_start ..,fun h => absurd rfl h,?_⟩
    intro t ht _
    simp [Table.start, ht]
  | back status hmore =>
    refine ⟨?_,fun h => absurd rfl h,?_⟩
    · intro p _
      rw [context_back, context_remove]
    · intro t ht _
      simp [Table.back, Table.remove, Table.onPcb, ht]
  | restart hlast hpid =>
    refine ⟨?_,fun h => absurd rfl h,?_⟩
    · intro p _
      rw [context_start, context_remove]
    · intro t ht _
      simp [Table.start, Table.remove, Table.onPcb, ht]
  | @marked T out T' hchange ih =>
    obtain ⟨hown,hsaved,haway⟩ := ih hview
    refine ⟨fun p hp => (hown p hp).trans ?_,hsaved,haway⟩
    exact context_onPcb (f := PCB.setHaltStat 1) (fun _ => ⟨rfl,rfl⟩) T T.running p
  | @shift T next hnext hne hprogs =>
    have hcontext : ∀ p, (T.shift cpu next).context p =
        if p = T.running then (cpu.esp,cpu.ebp) else T.context p := context_save T cpu T.running
    refine ⟨?_,fun _ => ⟨rfl,?_⟩,fun _ _ _ => ⟨rfl,rfl⟩⟩
    · intro p hp
      rw [hcontext, if_neg hp]
    · rw [hcontext, if_pos rfl]
  | view hdest hprogs => exact ⟨fun _ _ => rfl,fun h => absurd rfl h,fun _ _ _ => ⟨rfl,rfl⟩⟩
  | @park T dest pid entry hop hdest hne hnone hroom hpid =>
    have hsame := hview dest cpu hop hne hnone hroom
    have hcontext : ∀ p, ((T.park cpu dest).start cpu pid []).context p =
        if p = T.running then (cpu.esp,cpu.ebp) else T.context p := by
      intro p
      rw [context_start]
      exact (context_save T cpu (T.process T.viewingTerm) p).trans (by rw [hsame]; rfl)
    refine ⟨?_,fun hmoved => ⟨?_,?_⟩,?_⟩
    · intro p hp
      rw [hcontext, if_neg hp]
    · exact Function.update_of_ne hmoved.symm _ _
    · rw [hcontext, if_pos rfl]
    · intro t _ ht
      exact ⟨Function.update_of_ne ht _ _,Function.update_of_ne ht _ _⟩

/-! ### Runs -/

/-- Every terminal with programs that is not running has in the PCB of its top process what
was captured from that process when the terminal last gave up the processor. -/
def Captured (h : List (Move Kernel Op Out)) (k : Kernel) : Prop :=
  ∀ t, t ≠ k.currentTerm → 0 < k.totalProgs t →
    ∃ m, System.lastMove (GaveUp t) h = some m ∧ m.pre.running = k.table.process t ∧
      m.event.registers = some (k.table.context (k.table.process t))

theorem captured_step {fs : FileSystem} {h : List (Move Kernel Op Out)} {k : Kernel} {op : Op}
    {cpu : Cpu} {stack : ℕ → List ℕ} (hosts : Hosts k.table stack)
    (hrunning : stack k.currentTerm ≠ []) (hcpu : op.cpu = some cpu)
    (hcontexts : Contexts cpu k.table ((kernel fs).next k op).table) (hcaptured : Captured h k) :
    Captured (h ++ [(kernel fs).move k op]) ((kernel fs).next k op) := by
  obtain ⟨hown,hsaved,haway⟩ := hcontexts
  have hregisters : op.registers = some (cpu.esp,cpu.ebp) := by simp [Op.registers, hcpu]
  intro t ht hprogs
  by_cases hgave : t = k.currentTerm
  · subst hgave
    obtain ⟨hprocess,hcontext⟩ := hsaved (Ne.symm ht)
    have hhit : GaveUp k.currentTerm ((kernel fs).move k op) := ⟨rfl,Ne.symm ht⟩
    refine ⟨_,System.lastMove_hit hhit,hprocess.symm,?_⟩
    rw [show ((kernel fs).next k op).table.process k.currentTerm = k.table.running from hprocess,
      hcontext]
    exact hregisters
  · obtain ⟨hprocess,hsame⟩ := haway t hgave ht
    have hskip : ¬GaveUp t ((kernel fs).move k op) := fun h => hgave h.1.symm
    have hold : 0 < k.totalProgs t := by
      rw [show k.totalProgs t = _ from hsame.symm]
      exact hprogs
    obtain ⟨m,hm,hrun,hreg⟩ := hcaptured t hgave hold
    have hne : k.table.process t ≠ k.table.running := by
      intro hsame
      rw [show k.totalProgs t = _ from hosts.progs t] at hold
      exact hgave (hosts.forest.top_injective (List.length_pos_iff.mp hold) hrunning hsame)
    rw [System.lastMove_skip hskip, hprocess, hown _ hne]
    exact ⟨m,hm,hrun,hreg⟩

/-- The timer handler loads the context in the PCB on top of another terminal. -/
theorem Change.switched {op : Op} {cpu : Cpu} {T T' : Table} {out : Out}
    (h : Change op cpu T out T') {esp ebp : ℕ} (hout : out = .switched esp ebp) :
    T'.currentTerm ≠ T.currentTerm ∧ 0 < T.totalProgs T'.currentTerm ∧ T'.process = T.process ∧
      T'.context (T.process T'.currentTerm) = (esp,ebp) := by
  induction h with
  | same hquiet => rcases hquiet with h | h | h <;> simp [h] at hout
  | marked _ ih => exact ih hout
  | @shift T next hnext hne hprogs =>
    cases hout
    exact ⟨hne,hprogs,rfl,rfl⟩
  | _ => cases hout

/-- The events of the process machine, where a terminal's first shell is asked for from the
terminal that is running and finds a free PID. -/
def FreshInView (k : Kernel) (op : Op) : Prop :=
  op.InTable ∧ ∀ dest cpu, op = .switch dest cpu → dest ≠ k.viewingTerm →
    k.totalProgs dest = 0 → k.processCnt+1 ≤ maxNumProc →
      k.viewingTerm = k.currentTerm ∧ ∃ pid < maxNumProc, k.pcbInUse pid = 0

theorem contextKept_step {fs : FileSystem} {h : List (Move Kernel Op Out)} {k : Kernel} {op : Op}
    {cpu : Cpu} {stack : ℕ → List ℕ} (hosts : Hosts k.table stack)
    (hrunning : stack k.currentTerm ≠ []) (hcpu : op.cpu = some cpu)
    (hchange : Change op cpu k.table ((kernel fs).out k op) ((kernel fs).next k op).table)
    (hcontexts : Contexts cpu k.table ((kernel fs).next k op).table) (hcaptured : Captured h k) :
    ContextKept h ((kernel fs).move k op) where
  own := hcontexts.own
  saved hmoved := by
    obtain ⟨-,hcontext⟩ := hcontexts.saved hmoved
    have hregisters : op.registers = some (cpu.esp,cpu.ebp) := by simp [Op.registers, hcpu]
    exact hregisters.trans (congrArg some hcontext.symm)
  loaded esp ebp hout := by
    obtain ⟨hmoved,hprogs,hprocess,hloaded⟩ := hchange.switched hout
    obtain ⟨m,hm,hrun,hreg⟩ := hcaptured _ hmoved hprogs
    have hne : k.table.process ((kernel fs).next k op).table.currentTerm ≠ k.table.running := by
      intro hsame
      rw [hosts.progs] at hprogs
      exact hmoved (hosts.forest.top_injective (List.length_pos_iff.mp hprogs) hrunning hsame)
    refine ⟨m,hm,hrun.trans (congrFun hprocess _).symm,?_⟩
    rw [hreg, ← hcontexts.own _ hne]
    exact congrArg some hloaded

/-- The invariant of the run: stacks, a running process, and remembered captures. -/
def Remembers (h : List (Move Kernel Op Out)) (k : Kernel) : Prop :=
  ∃ stack, Hosts k.table stack ∧ stack k.currentTerm ≠ [] ∧ Captured h k

/-- After boot no other terminal has programs. -/
theorem booted_remembers {fs : FileSystem} (hshell : fs.Loadable (text "shell")) (pcb : ℕ → PCB)
    (phys : ℕ → UInt8) (cpu : Cpu) (h : List (Move Kernel Op Out)) :
    Remembers h (booted fs pcb phys cpu) := by
  obtain ⟨stack,hosts,-,hrunning,-⟩ := booted_sound hshell pcb phys cpu
  have hboot := booted_table hshell pcb phys cpu
  generalize booted fs pcb phys cpu = k at *
  refine ⟨stack,hosts,hrunning,?_⟩
  intro t ht hprogs
  have hcurrent : k.currentTerm = 0 := congrArg Table.currentTerm hboot
  have htotal : k.totalProgs t = 0 := by
    apply (congrFun (congrArg Table.totalProgs hboot) t).trans
    rw [hcurrent] at ht
    exact Function.update_of_ne ht _ _
  omega

theorem remembers_step {fs : FileSystem} (hshell : fs.Loadable (text "shell"))
    {h : List (Move Kernel Op Out)} {k : Kernel} {op : Op} (hk : Remembers h k)
    (hop : FreshInView k op) :
    Remembers (h ++ [(kernel fs).move k op]) ((kernel fs).next k op) ∧
      ContextKept h ((kernel fs).move k op) := by
  obtain ⟨stack,hosts,hrunning,hcaptured⟩ := hk
  obtain ⟨htable,hview⟩ := hop
  obtain ⟨cpu,hcpu,hchange,-⟩ := op_change hshell hosts hrunning htable
    fun dest cpu h hne hnone hroom => (hview dest cpu h hne hnone hroom).2
  have hcontexts := hchange.contexts
    fun dest cpu h hne hnone hroom => (hview dest cpu h hne hnone hroom).1
  obtain ⟨stack',hosts',hrunning',-⟩ := hchange.hosts hosts hrunning
  exact ⟨⟨stack',hosts',hrunning',captured_step hosts hrunning hcpu hcontexts hcaptured⟩,
    contextKept_step hosts hrunning hcpu hchange hcontexts hcaptured⟩

/-- Along every run in which a terminal's first shell is asked for from the running terminal
and finds a PID, every step keeps the saved contexts. -/
theorem contexts_kept {fs : FileSystem} (hshell : fs.Loadable (text "shell")) (pcb : ℕ → PCB)
    (phys : ℕ → UInt8) (cpu : Cpu) (ops : List Op) (op : Op)
    (hops : (kernel fs).Along FreshInView (booted fs pcb phys cpu) (ops ++ [op])) :
    ContextKept ((kernel fs).trace (initial pcb phys) (fromBoot cpu ops))
      ((kernel fs).move ((kernel fs).run (initial pcb phys) (fromBoot cpu ops)) op) := by
  obtain ⟨hops,hop⟩ := (System.along_snoc ..).mp hops
  have hrun := System.Along.history (S := kernel fs)
    (R := fun h k => Remembers ((kernel fs).move (initial pcb phys)
      (.execute (some (text "shell")) cpu) :: h) k)
    (fun h k a hr ha => (remembers_step hshell hr ha).1)
    (booted_remembers hshell pcb phys cpu _) hops
  rw [run_fromBoot]
  exact (remembers_step hshell hrun hop).2

theorem contexts_kept_shells :
    ContextKept ((kernel shellImage).trace (initial (fun _ => PCB.zero) fun _ => 0)
        (fromBoot ⟨1,1,fun _ => 0⟩ [.switch 1 ⟨2,2,fun _ => 0⟩,.pit ⟨3,3,fun _ => 0⟩]))
      ((kernel shellImage).move ((kernel shellImage).run
        (initial (fun _ => PCB.zero) fun _ => 0) (fromBoot ⟨1,1,fun _ => 0⟩
          [.switch 1 ⟨2,2,fun _ => 0⟩,.pit ⟨3,3,fun _ => 0⟩])) (.pit ⟨4,4,fun _ => 0⟩)) := by
  refine contexts_kept shellImage_loadable _ _ _ _ _
    ⟨⟨Nat.le_of_ble_eq_true rfl,?_⟩,⟨trivial,nofun⟩,⟨trivial,nofun⟩,trivial⟩
  intro dest cpu h _ _ _
  exact ⟨by decide +kernel,1,by decide,by decide +kernel⟩

/-- A tick brings terminal 0 back, and terminal 2 gets its shell from terminal 0's process
while terminal 1 is in view. -/
def scramble : List Op :=
  [.switch 1 ⟨2,2,fun _ => 0⟩,.pit ⟨3,3,fun _ => 0⟩,.switch 2 ⟨4,4,fun _ => 0⟩]

/-- The context then goes into the PCB of terminal 1's process, and the next tick loads for
terminal 0 what it had given up long before. -/
theorem contexts_lost :
    (∀ op ∈ scramble, op.InTable) ∧
      ¬ContextKept ((kernel shellImage).trace (initial (fun _ => PCB.zero) fun _ => 0)
          (fromBoot ⟨1,1,fun _ => 0⟩ scramble))
        ((kernel shellImage).move ((kernel shellImage).run
          (initial (fun _ => PCB.zero) fun _ => 0) (fromBoot ⟨1,1,fun _ => 0⟩ scramble))
          (.pit ⟨5,5,fun _ => 0⟩)) := by
  refine ⟨by simp [scramble, Op.InTable, numTerm],?_⟩
  intro hkept
  obtain ⟨m,hm,-,hloaded⟩ := hkept.loaded 2 2 (by decide +kernel)
  have hback : ((kernel shellImage).move ((kernel shellImage).run
      (initial (fun _ => PCB.zero) fun _ => 0) (fromBoot ⟨1,1,fun _ => 0⟩ scramble))
        (.pit ⟨5,5,fun _ => 0⟩)).post.currentTerm = 0 := by decide +kernel
  have hlast : (System.lastMove (GaveUp 0) ((kernel shellImage).trace
      (initial (fun _ => PCB.zero) fun _ => 0) (fromBoot ⟨1,1,fun _ => 0⟩ scramble))).map
        (fun m => m.event.registers) = some (some (4,4)) := by decide +kernel
  rw [hback] at hm
  rw [hm, Option.map_some, hloaded] at hlast
  simp at hlast

end GameOfThreads
