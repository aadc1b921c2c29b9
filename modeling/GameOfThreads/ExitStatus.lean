import GameOfThreads.ProcessRuns

/-! Exit status. halt returns into the execute call that started the process, with the status
byte or, when the PCB carries the exception mark, with 256. The mark is set when a process
crashes and taken off when one returns to its parent, and nothing else touches it, so it
outlives a process that crashes as the last one of its terminal. -/
namespace GameOfThreads
open Machine

def ExecResult.pid : ExecResult → Option ℕ
  | .started pid _ => some pid
  | _ => none

/-- The PID that a step has started a process with. -/
def Out.started : Out → Option ℕ
  | .exec r => r.pid
  | _ => none

def Out.isExec : Out → Bool
  | .exec _ => true
  | _ => false

def Out.isResumed : Out → Bool
  | .resumed _ _ _ => true
  | _ => false

def Op.isSquash : Op → Bool
  | .squash _ => true
  | _ => false

/-- The process with PID `p` crashes and its terminal goes on with a new shell. -/
def CrashedLast (p : ℕ) (m : Move Kernel Op Out) : Prop :=
  m.pre.running = p ∧ m.event.isSquash = true ∧ m.out.isExec = true

/-- The process with PID `p` ends and its parent goes on. -/
def Returned (p : ℕ) (m : Move Kernel Op Out) : Prop :=
  m.pre.running = p ∧ m.out.isResumed = true

/-- The steps that write the exception mark of PID `p` for good. -/
def Marks (p : ℕ) (m : Move Kernel Op Out) : Prop := CrashedLast p m ∨ Returned p m

def Starts (p : ℕ) (m : Move Kernel Op Out) : Prop := m.out.started = some p

instance (p : ℕ) : DecidablePred (CrashedLast p) := fun m =>
  inferInstanceAs (Decidable (m.pre.running = p ∧ m.event.isSquash = true ∧ m.out.isExec = true))

instance (p : ℕ) : DecidablePred (Returned p) := fun m =>
  inferInstanceAs (Decidable (m.pre.running = p ∧ m.out.isResumed = true))

instance (p : ℕ) : DecidablePred (Marks p) := fun m =>
  inferInstanceAs (Decidable (CrashedLast p m ∨ Returned p m))

instance (p : ℕ) : DecidablePred (Starts p) := fun m =>
  inferInstanceAs (Decidable (m.out.started = some p))

/-- A process with PID `p` crashed as the last one of its terminal, and none with this PID
has returned to a parent since. -/
def Stale (h : List (Move Kernel Op Out)) (p : ℕ) : Prop :=
  ∃ m, System.lastMove (Marks p) h = some m ∧ CrashedLast p m

def Table.mark (T : Table) (p : ℕ) : ℕ := (T.pcb p).haltStat

/-- The frame of the execute call that started a process. -/
def Table.frame (T : Table) (p : ℕ) : ℕ × ℕ := ((T.pcb p).parEsp,(T.pcb p).parEbp)

/-! ### Who touches the mark and the frame -/

section
variable (T : Table) (cpu : Cpu) (p q : ℕ)

theorem mark_onPcb {f : PCB → PCB} (hf : ∀ pcb, (f pcb).haltStat = pcb.haltStat) :
    (T.onPcb p f).mark q = T.mark q := by
  by_cases h : q = p
  · subst h
    simp [Table.mark, Table.onPcb, hf]
  · simp [Table.mark, Table.onPcb, h]

theorem frame_onPcb {f : PCB → PCB} (hf : ∀ pcb, (f pcb).parEsp = pcb.parEsp ∧
    (f pcb).parEbp = pcb.parEbp) : (T.onPcb p f).frame q = T.frame q := by
  by_cases h : q = p
  · subst h
    simp [Table.frame, Table.onPcb, hf]
  · simp [Table.frame, Table.onPcb, h]

theorem mark_start (args : List UInt8) : (T.start cpu p args).mark q = T.mark q :=
  mark_onPcb T p q (f := PCB.start p (T.parentFor p) args cpu) fun _ => rfl

theorem frame_start (args : List UInt8) :
    (T.start cpu p args).frame q = if q = p then (cpu.esp,cpu.ebp) else T.frame q := by
  by_cases h : q = p
  · subst h
    simp [Table.frame, Table.start, PCB.start]
  · simp [Table.frame, Table.start, h]

theorem mark_remove : T.remove.mark q = T.mark q :=
  mark_onPcb T T.running q (f := PCB.closeFiles) fun _ => rfl

theorem frame_remove : T.remove.frame q = T.frame q :=
  frame_onPcb T T.running q (f := PCB.closeFiles) fun _ => ⟨rfl,rfl⟩

theorem mark_back (hmark : T.mark p = 0 ∨ T.mark p = 1) :
    (T.back p).mark q = if q = p then 0 else T.mark q := by
  unfold Table.mark at *
  rcases hmark with h | h
  · by_cases hq : q = p
    · subst hq
      simp [Table.back, h]
    · simp [Table.back, h, hq]
  · by_cases hq : q = p
    · subst hq
      simp [Table.back, h, PCB.setHaltStat]
    · simp [Table.back, h, hq]

theorem frame_back : (T.back p).frame q = T.frame q := by
  by_cases hmark : (T.pcb p).haltStat = 1
  · have hset := frame_onPcb T p q (f := PCB.setHaltStat 0) fun _ => ⟨rfl,rfl⟩
    simpa [Table.frame, Table.back, Table.onPcb, hmark] using hset
  · simp [Table.frame, Table.back, hmark]

theorem mark_setHaltStat :
    (T.onPcb p (PCB.setHaltStat 1)).mark q = if q = p then 1 else T.mark q := by
  by_cases h : q = p
  · subst h
    simp [Table.mark, Table.onPcb, PCB.setHaltStat]
  · simp [Table.mark, Table.onPcb, h]

end

/-- The mark and the frame of a PID after a step, from those before it. -/
structure Marked (op : Op) (cpu : Cpu) (out : Out) (T T' : Table) : Prop where
  mark : ∀ q, T'.mark q =
    if q = T.running ∧ out.isResumed = true then 0
    else if q = T.running ∧ op.isSquash = true ∧ out.isExec = true then 1
    else T.mark q
  frame : ∀ q, T'.frame q = if out.started = some q then (cpu.esp,cpu.ebp) else T.frame q
  termsOn : T'.termsOn = T.termsOn

theorem execute_marked (fs : FileSystem) (cpu : Cpu) (command : Option (List UInt8)) (k : Kernel) :
    (∀ q, (execute fs cpu command k).2.table.mark q = k.table.mark q) ∧
      (∀ q, (execute fs cpu command k).2.table.frame q =
        if (execute fs cpu command k).1.pid = some q then (cpu.esp,cpu.ebp)
        else k.table.frame q) ∧
      (execute fs cpu command k).2.table.termsOn = k.table.termsOn := by
  rcases execute_cases fs cpu command k with ⟨-,hr,ht⟩ | ⟨pid,-,hcases⟩
  · rw [hr, ht]
    exact ⟨fun _ => rfl,fun _ => rfl,rfl⟩
  rcases hcases with ⟨-,hr,ht⟩ | ⟨_,-,hr,ht⟩ | ⟨-,hr,ht⟩ | ⟨_,-,hr,ht⟩ | ⟨args,_,_,-,hr,ht⟩
  · rw [hr, ht]
    exact ⟨fun _ => rfl,fun _ => rfl,rfl⟩
  · rw [hr, ht]
    exact ⟨fun _ => rfl,fun _ => rfl,rfl⟩
  · rw [hr, ht]
    exact ⟨fun _ => rfl,fun _ => rfl,rfl⟩
  · rw [hr, ht]
    exact ⟨fun _ => rfl,fun _ => rfl,rfl⟩
  · rw [hr, ht]
    refine ⟨fun q => mark_start ..,?_,rfl⟩
    intro q
    rw [frame_start]
    simp [ExecResult.pid, eq_comm]

/-- halt takes the mark off when it returns to a parent, and starts or returns. -/
theorem halt_marked (fs : FileSystem) (cpu : Cpu) (status : ℕ) (k : Kernel)
    (hmark : k.table.mark k.running = 0 ∨ k.table.mark k.running = 1) :
    (∀ q, (halt fs cpu status k).2.table.mark q =
      if q = k.running ∧ (halt fs cpu status k).1.isResumed = true then 0
      else k.table.mark q) ∧
    (∀ q, (halt fs cpu status k).2.table.frame q =
      if (halt fs cpu status k).1.started = some q then (cpu.esp,cpu.ebp)
      else k.table.frame q) ∧
    (halt fs cpu status k).2.table.termsOn = k.table.termsOn ∧
    ((halt fs cpu status k).1.isResumed = true ∨ (halt fs cpu status k).1.isExec = true) := by
  rcases halt_cases fs cpu status k with ⟨-,hout,ht⟩ | ⟨-,k',hk',hends⟩
  · rw [hout, ht]
    refine ⟨?_,?_,rfl,.inl rfl⟩
    · intro q
      rw [mark_back _ _ _ (by rwa [mark_remove]), mark_remove]
      simp [Out.isResumed]
    · intro q
      rw [frame_back, frame_remove]
      rfl
  obtain ⟨hexec,hframe,hon⟩ := execute_marked fs cpu (some (text "shell")) k'
  rcases hends with ⟨pid,entry,hr,hout,hstate⟩ | ⟨hnot,hstate⟩
  · rw [hout, hstate]
    refine ⟨?_,?_,hon.trans (by rw [hk']; rfl),.inr rfl⟩
    · intro q
      rw [hexec, hk', mark_remove]
      simp [Out.isResumed]
    · intro q
      rw [hframe, hk', frame_remove, hr]
      rfl
  · have hpid : (execute fs cpu (some (text "shell")) k').1.pid = none := by
      cases hr : (execute fs cpu (some (text "shell")) k').1 with
      | started pid entry => exact absurd hr (hnot pid entry)
      | failed => rfl
      | overrun => rfl
    rw [hstate, returnToParent_out, returnToParent_table]
    refine ⟨?_,?_,hon.trans (by rw [hk']; rfl),.inl rfl⟩
    · intro q
      rw [mark_back, hexec, hk', mark_remove]
      · simp [Out.isResumed]
      · rwa [hexec, hk', mark_remove]
    · intro q
      rw [frame_back, hframe, hpid, hk', frame_remove]
      rfl

theorem squash_marked (fs : FileSystem) (cpu : Cpu) (k : Kernel) :
    Marked (.squash cpu) cpu (squashException fs cpu k).1 k.table
      (squashException fs cpu k).2.table := by
  unfold squashException
  split_ifs with hon
  · have hset := mark_setHaltStat k.table k.running
    have hone : (k.onPcb k.running (PCB.setHaltStat 1)).table.mark
        (k.onPcb k.running (PCB.setHaltStat 1)).running = 1 := (hset k.running).trans (if_pos rfl)
    obtain ⟨hmarks,hframe,hterms,hend⟩ := halt_marked fs cpu 0 _ (.inr hone)
    refine ⟨fun q => (hmarks q).trans ?_,fun q => (hframe q).trans ?_,hterms⟩
    · rw [onPcb_table, hset]
      change (if q = k.running ∧ _ then 0 else if q = k.running then 1 else _) =
        if q = k.running ∧ _ then 0 else if q = k.running ∧ _ then 1 else _
      by_cases hq : q = k.running
      · rcases hend with hend | hend
        · simp [hq, hend]
        · simp [hq, hend, Op.isSquash]
      · simp [hq]
    · rw [onPcb_table, frame_onPcb _ _ _ (f := PCB.setHaltStat 1) fun _ => ⟨rfl,rfl⟩]
  · exact ⟨fun q => by simp [Out.isResumed, Out.isExec],fun q => by simp [Out.started],rfl⟩

theorem pit_marked (cpu : Cpu) (k : Kernel) :
    Marked (.pit cpu) cpu (pitHandler cpu k).1 k.table (pitHandler cpu k).2.table := by
  rcases pitHandler_cases cpu k with ⟨-,hout,ht⟩ | ⟨-,hout,ht⟩
  · rw [hout, ht]
    exact ⟨fun q => by simp [Out.isResumed, Op.isSquash],fun q => by simp [Out.started],rfl⟩
  · rw [hout, ht]
    refine ⟨?_,?_,rfl⟩
    · intro q
      simp only [Out.isResumed, Op.isSquash, Bool.false_eq_true, and_false, false_and, if_false]
      exact mark_onPcb k.table k.running q (f := PCB.saveContext cpu) fun _ => rfl
    · intro q
      exact frame_onPcb k.table k.running q (f := PCB.saveContext cpu) fun _ => ⟨rfl,rfl⟩

theorem switch_marked (fs : FileSystem) (cpu : Cpu) (dest : ℕ) (k : Kernel) :
    Marked (.switch dest cpu) cpu (terminalSwitch fs cpu k.viewingTerm dest k).1 k.table
      (terminalSwitch fs cpu k.viewingTerm dest k).2.table := by
  rcases terminalSwitch_cases fs cpu dest k with ⟨-,hout,ht⟩ | ⟨-,-,-,hout,ht⟩ | ⟨-,k',hk',hout,ht⟩
  · rw [hout, ht]
    exact ⟨fun q => by simp [Out.isResumed, Op.isSquash],fun q => by simp [Out.started],rfl⟩
  · rw [hout, ht]
    exact ⟨fun q => by simp [Out.isResumed, Op.isSquash, Table.mark, Table.view],
      fun q => by simp [Out.started, Table.frame, Table.view],rfl⟩
  · obtain ⟨hmarks,hframe,hon⟩ := execute_marked fs cpu (some (text "shell")) k'
    rw [hout, ht]
    refine ⟨?_,?_,hon.trans (by rw [hk']; rfl)⟩
    · intro q
      simp only [Out.isResumed, Op.isSquash, Bool.false_eq_true, and_false, false_and, if_false]
      rw [hmarks, hk']
      exact mark_onPcb k.table (k.table.process k.table.viewingTerm) q
        (f := PCB.saveContext cpu) fun _ => rfl
    · intro q
      have hpark : k'.table.frame q = k.table.frame q := by
        rw [hk']
        exact frame_onPcb k.table (k.table.process k.table.viewingTerm) q
          (f := PCB.saveContext cpu) fun _ => ⟨rfl,rfl⟩
      rw [hframe, hpark]
      rfl

theorem op_marked (fs : FileSystem) {k : Kernel} {op : Op} (hop : op.InTable)
    (hmark : ∀ q, k.table.mark q = 0 ∨ k.table.mark q = 1) :
    ∃ cpu, op.cpu = some cpu ∧
      Marked op cpu ((kernel fs).out k op) k.table ((kernel fs).next k op).table := by
  cases op with
  | execute command cpu =>
    obtain ⟨hmarks,hframe,hon⟩ := execute_marked fs cpu command k
    exact ⟨cpu,rfl,fun q => by simpa [Out.isResumed, Op.isSquash] using hmarks q,hframe,hon⟩
  | halt status cpu =>
    obtain ⟨hmarks,hframe,hon,-⟩ := halt_marked fs cpu status k (hmark _)
    refine ⟨cpu,rfl,?_,hframe,hon⟩
    intro q
    simp only [Op.isSquash, Bool.false_eq_true, and_false, false_and, if_false]
    exact hmarks q
  | squash cpu => exact ⟨cpu,rfl,squash_marked fs cpu k⟩
  | pit cpu => exact ⟨cpu,rfl,pit_marked cpu k⟩
  | switch dest cpu => exact ⟨cpu,rfl,switch_marked fs cpu dest k⟩
  | _ => exact hop.elim

/-! ### Runs -/

/-- The value that the parent's execute should return. -/
def Op.exitValue : Op → ℕ
  | .halt status _ => status
  | _ => 256

/-- The parent's execute call, in the frame in which it started the process, returns the
status of halt, or 256 after a crash. -/
def Delivered (h : List (Move Kernel Op Out)) (m : Move Kernel Op Out) : Prop :=
  ∃ esp ebp, m.out = .resumed esp ebp m.event.exitValue ∧
    ∀ m₀ cpu, System.lastMove (Starts m.pre.running) h = some m₀ → m₀.event.cpu = some cpu →
      esp = cpu.esp ∧ ebp = cpu.ebp

/-- The marks tell of stale crashes, the frames of the last starts. -/
structure Remembered (h : List (Move Kernel Op Out)) (k : Kernel) : Prop where
  termsOn : k.termsOn ≠ 0
  mark : ∀ q, k.table.mark q = 0 ∧ ¬Stale h q ∨ k.table.mark q = 1 ∧ Stale h q
  frame : ∀ q m cpu, System.lastMove (Starts q) h = some m → m.event.cpu = some cpu →
    k.table.frame q = (cpu.esp,cpu.ebp)

theorem stale_snoc {h : List (Move Kernel Op Out)} {m : Move Kernel Op Out} {p : ℕ} :
    Stale (h ++ [m]) p ↔ if Marks p m then CrashedLast p m else Stale h p := by
  by_cases hm : Marks p m
  · simp [Stale, System.lastMove_hit hm, hm]
  · simp [Stale, System.lastMove_skip hm, hm]

theorem remembered_step {fs : FileSystem} {h : List (Move Kernel Op Out)} {k : Kernel} {op : Op}
    (hk : Remembered h k) (hop : op.InTable) :
    Remembered (h ++ [(kernel fs).move k op]) ((kernel fs).next k op) := by
  have hvalues : ∀ q, k.table.mark q = 0 ∨ k.table.mark q = 1 := fun q =>
    (hk.mark q).imp And.left And.left
  obtain ⟨cpu,hcpu,hmark,hframe,hon⟩ := op_marked fs hop hvalues
  constructor
  · exact fun h => hk.termsOn (hon.symm.trans h)
  · intro q
    rw [hmark q, stale_snoc]
    by_cases hreturned : Returned q ((kernel fs).move k op)
    · have hnot : ¬CrashedLast q ((kernel fs).move k op) := by
        rintro ⟨-,-,hexec⟩
        have hresumed := hreturned.2
        revert hexec hresumed
        cases ((kernel fs).move k op).out <;> simp [Out.isExec, Out.isResumed]
      rw [if_pos ⟨hreturned.1.symm,hreturned.2⟩, if_pos (.inr hreturned)]
      exact .inl ⟨rfl,hnot⟩
    · rw [if_neg fun h => hreturned ⟨h.1.symm,h.2⟩]
      by_cases hcrashed : CrashedLast q ((kernel fs).move k op)
      · rw [if_pos ⟨hcrashed.1.symm,hcrashed.2⟩, if_pos (.inl hcrashed)]
        exact .inr ⟨rfl,hcrashed⟩
      · have hnot : ¬Marks q ((kernel fs).move k op) := not_or.mpr ⟨hcrashed,hreturned⟩
        rw [if_neg fun h => hcrashed ⟨h.1.symm,h.2⟩, if_neg hnot]
        exact hk.mark q
  · intro q m cpu' hm hm'
    rw [hframe q]
    by_cases hstarts : Starts q ((kernel fs).move k op)
    · rw [System.lastMove_hit hstarts] at hm
      cases hm
      have hout : ((kernel fs).out k op).started = some q := hstarts
      rw [if_pos hout]
      rw [show op.cpu = some cpu' from hm'] at hcpu
      cases hcpu
      rfl
    · rw [System.lastMove_skip hstarts] at hm
      have hout : ¬((kernel fs).out k op).started = some q := hstarts
      rw [if_neg hout]
      exact hk.frame q m cpu' hm hm'

theorem initial_remembered {pcb : ℕ → PCB} (hzero : ∀ p, (pcb p).haltStat = 0)
    (phys : ℕ → UInt8) : Remembered [] (initial pcb phys) := by
  have hboot := initial_table pcb phys
  generalize initial pcb phys = k at *
  refine ⟨?_,fun q => .inl ⟨?_,fun ⟨_,h,_⟩ => nomatch h⟩,fun _ _ _ h => nomatch h⟩
  · intro h
    have hon : k.termsOn = 1 := congrArg Table.termsOn hboot
    omega
  · rw [hboot]
    exact hzero q

theorem run_remembered (fs : FileSystem) {pcb : ℕ → PCB} (hzero : ∀ p, (pcb p).haltStat = 0)
    (phys : ℕ → UInt8) (cpu : Cpu) {ops : List Op} (hops : ∀ op ∈ ops, op.InTable) :
    Remembered ((kernel fs).trace (initial pcb phys) (fromBoot cpu ops))
      ((kernel fs).run (initial pcb phys) (fromBoot cpu ops)) := by
  have hall : ∀ op ∈ fromBoot cpu ops, op.InTable := by
    rintro op (_ | ⟨_,hop⟩)
    · trivial
    · exact hops op hop
  exact System.Along.history (fun h k op hk hop => remembered_step hk hop)
    (initial_remembered hzero phys) ((kernel fs).along_of_forall hall _)

/-- The value that a process which is not the last of its terminal hands over. -/
theorem halt_out (fs : FileSystem) (cpu : Cpu) (status : ℕ) {k : Kernel}
    (hmore : k.totalProgs k.currentTerm % 256 ≠ 1) :
    (halt fs cpu status k).1 = .resumed (k.table.frame k.running).1 (k.table.frame k.running).2
      (k.table.retval status k.running) := by
  rcases halt_cases fs cpu status k with ⟨-,hout,-⟩ | ⟨hlast,-⟩
  · exact hout
  · have hcount : k.table.remove.totalProgs k.currentTerm =
        (k.totalProgs k.currentTerm+255) % 256 := Function.update_self ..
    omega

theorem squash_out (fs : FileSystem) (cpu : Cpu) {k : Kernel} (hon : k.termsOn ≠ 0)
    (hmore : k.totalProgs k.currentTerm % 256 ≠ 1) :
    (squashException fs cpu k).1 =
      .resumed (k.table.frame k.running).1 (k.table.frame k.running).2 256 := by
  have hout := halt_out fs cpu 0 (k := k.onPcb k.running (PCB.setHaltStat 1)) hmore
  have hmark : ((k.table.onPcb k.running (PCB.setHaltStat 1)).pcb k.running).haltStat = 1 :=
    (mark_setHaltStat k.table k.running k.running).trans (if_pos rfl)
  have hframe := frame_onPcb k.table k.running k.running (f := PCB.setHaltStat 1)
    fun _ => ⟨rfl,rfl⟩
  rw [squashException, if_pos hon, hout, onPcb_table]
  change Out.resumed ((k.table.onPcb k.running (PCB.setHaltStat 1)).frame k.running).1
    ((k.table.onPcb k.running (PCB.setHaltStat 1)).frame k.running).2
    (Table.retval _ 0 k.running) = _
  rw [hframe]
  simp only [Table.retval]
  rw [if_pos hmark]

/-- A step that returns into the frame of the running process delivers exactly if it carries
the right value. -/
theorem delivered_iff {fs : FileSystem} {h : List (Move Kernel Op Out)} {k : Kernel} {op : Op}
    (hk : Remembered h k) {v : ℕ} (hout : (kernel fs).out k op =
      .resumed (k.table.frame k.running).1 (k.table.frame k.running).2 v) :
    Delivered h ((kernel fs).move k op) ↔ v = op.exitValue := by
  constructor
  · rintro ⟨esp,ebp,hresumed,-⟩
    rw [show ((kernel fs).move k op).out = _ from hout] at hresumed
    cases hresumed
    rfl
  · intro hv
    refine ⟨_,_,hout.trans (by rw [hv]; rfl),?_⟩
    intro m₀ cpu hm hcpu
    have hframe := hk.frame _ m₀ cpu hm hcpu
    rw [show ((kernel fs).move k op).pre.running = k.running from rfl] at hframe
    rw [hframe]
    exact ⟨rfl,rfl⟩

/-- When a process ends and its terminal has others, its parent receives the right value
exactly if the process has crashed or carries no mark of an earlier life of its PID. -/
theorem exitStatus_delivered_iff (fs : FileSystem) {pcb : ℕ → PCB}
    (hzero : ∀ p, (pcb p).haltStat = 0) (phys : ℕ → UInt8) (cpu : Cpu) (ops : List Op)
    (hops : ∀ op ∈ ops, op.InTable) (op : Op)
    (hend : (∃ status cpu, op = .halt status cpu) ∨ ∃ cpu, op = .squash cpu)
    (hmore : ((kernel fs).run (initial pcb phys) (fromBoot cpu ops)).totalProgs
      ((kernel fs).run (initial pcb phys) (fromBoot cpu ops)).currentTerm % 256 ≠ 1) :
    Delivered ((kernel fs).trace (initial pcb phys) (fromBoot cpu ops))
        ((kernel fs).move ((kernel fs).run (initial pcb phys) (fromBoot cpu ops)) op) ↔
      op.isSquash = true ∨ ¬Stale ((kernel fs).trace (initial pcb phys) (fromBoot cpu ops))
        ((kernel fs).run (initial pcb phys) (fromBoot cpu ops)).running := by
  have hk := run_remembered fs hzero phys cpu hops
  generalize (kernel fs).trace (initial pcb phys) (fromBoot cpu ops) = h at *
  generalize (kernel fs).run (initial pcb phys) (fromBoot cpu ops) = k at *
  obtain ⟨status,cpu',rfl⟩ | ⟨cpu',rfl⟩ := hend
  · have hout : (kernel fs).out k (.halt status cpu') = _ := halt_out fs cpu' status hmore
    rw [delivered_iff hk hout]
    have hlt := status.isLt
    rcases hk.mark k.running with ⟨hmark,hstale⟩ | ⟨hmark,hstale⟩
    · have hvalue : k.table.retval status k.running = status :=
        if_neg fun h => by rw [Table.mark] at hmark; omega
      exact iff_of_true hvalue (.inr hstale)
    · have hvalue : k.table.retval status k.running = 256 := if_pos hmark
      refine iff_of_false ?_ (by simp [Op.isSquash, hstale])
      intro h
      rw [hvalue] at h
      simp only [Op.exitValue] at h
      omega
  · have hout : (kernel fs).out k (.squash cpu') = _ := squash_out fs cpu' hk.termsOn hmore
    rw [delivered_iff hk hout]
    exact iff_of_true rfl (.inl rfl)

/-- A child of the first shell hands over 7. -/
theorem exitStatus_delivered_child :
    Delivered ((kernel shellImage).trace (initial (fun _ => PCB.zero) fun _ => 0)
        (fromBoot ⟨1,1,fun _ => 0⟩ [.execute (some (text "shell")) ⟨2,2,fun _ => 0⟩]))
      ((kernel shellImage).move ((kernel shellImage).run (initial (fun _ => PCB.zero) fun _ => 0)
        (fromBoot ⟨1,1,fun _ => 0⟩ [.execute (some (text "shell")) ⟨2,2,fun _ => 0⟩]))
        (.halt 7 ⟨3,3,fun _ => 0⟩)) := by
  refine (exitStatus_delivered_iff shellImage (fun _ => rfl) _ _ _ (by simp [Op.InTable]) _
    (.inl ⟨_,_,rfl⟩) (by decide +kernel)).mpr (.inr ?_)
  intro hstale
  obtain ⟨m,hm,-⟩ := hstale
  have hnone : (System.lastMove (Marks 1) ((kernel shellImage).trace
      (initial (fun _ => PCB.zero) fun _ => 0) (fromBoot ⟨1,1,fun _ => 0⟩
        [.execute (some (text "shell")) ⟨2,2,fun _ => 0⟩]))).isNone = true := by decide +kernel
  have hrunning : ((kernel shellImage).run (initial (fun _ => PCB.zero) fun _ => 0)
      (fromBoot ⟨1,1,fun _ => 0⟩
        [.execute (some (text "shell")) ⟨2,2,fun _ => 0⟩])).running = 1 := by decide +kernel
  rw [hrunning] at hm
  rw [hm] at hnone
  cases hnone

/-- PID 2 crashes as the shell of terminal 1, whose next shell gets PID 1, and is then given
to a child of terminal 0's shell. -/
def reuse : List Op :=
  [.execute (some (text "shell")) ⟨2,2,fun _ => 0⟩,.switch 1 ⟨3,3,fun _ => 0⟩,
    .pit ⟨4,4,fun _ => 0⟩,.halt 0 ⟨5,5,fun _ => 0⟩,.pit ⟨6,6,fun _ => 0⟩,
    .squash ⟨7,7,fun _ => 0⟩,.pit ⟨8,8,fun _ => 0⟩,
    .execute (some (text "shell")) ⟨9,9,fun _ => 0⟩]

/-- That child halts with 0 and its parent is told of a crash. -/
theorem exitStatus_stale :
    (∀ op ∈ reuse, op.InTable) ∧
      ((kernel shellImage).run (initial (fun _ => PCB.zero) fun _ => 0)
        (fromBoot ⟨1,1,fun _ => 0⟩ reuse)).totalProgs 0 = 2 ∧
      ¬Delivered ((kernel shellImage).trace (initial (fun _ => PCB.zero) fun _ => 0)
          (fromBoot ⟨1,1,fun _ => 0⟩ reuse))
        ((kernel shellImage).move ((kernel shellImage).run
          (initial (fun _ => PCB.zero) fun _ => 0) (fromBoot ⟨1,1,fun _ => 0⟩ reuse))
          (.halt 0 ⟨10,10,fun _ => 0⟩)) := by
  refine ⟨by simp [reuse, Op.InTable, numTerm],by decide +kernel,?_⟩
  rintro ⟨esp,ebp,hout,-⟩
  have hcrash : ((kernel shellImage).move ((kernel shellImage).run
      (initial (fun _ => PCB.zero) fun _ => 0) (fromBoot ⟨1,1,fun _ => 0⟩ reuse))
      (.halt 0 ⟨10,10,fun _ => 0⟩)).out = .resumed 9 9 256 := by decide +kernel
  rw [hcrash] at hout
  cases hout

end GameOfThreads
