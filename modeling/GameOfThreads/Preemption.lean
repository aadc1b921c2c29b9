import GameOfThreads.TimerStack
import GameOfThreads.ContextSwitch
import GameOfThreads.Scheduling

/-! The processor shared by the terminals. Programs and the kernel work on its registers, and
timer ticks come in between; to a process it is as if it had the processor to itself. -/
namespace GameOfThreads
open Machine

structure Core where
  kernel : Kernel
  cpu : Processor

/-- `run` is a stretch of work of the running process or of the kernel for it, by way of at most
one entry into the kernel, up to where the next tick may come. -/
inductive CoreEvent
  | run (op : Option Op) (cpu : Processor)
  | tick

def entered (fs : FileSystem) (k : Kernel) (op : Option Op) : Kernel :=
  op.elim k ((kernel fs).next k)

def core (fs : FileSystem) (c : TimerCode) : System Core CoreEvent Unit where
  step m
    | .run op cpu => ((),⟨entered fs m.kernel op,cpu⟩)
    | .tick => ((),⟨(c.tick m.kernel m.cpu).1,(c.tick m.kernel m.cpu).2⟩)

/-! ### One event of the kernel -/

namespace Change
variable {op : Op} {cpu : Cpu} {T T' : Table} {out : Out}

theorem kernelStack (h : Change op cpu T out T') (hesp : T.tssEsp0 = getEsp0 T.running) :
    T'.tssEsp0 = getEsp0 T'.running := by
  induction h with
  | same _ => exact hesp
  | claim _ _ => exact hesp
  | mapUser _ => exact hesp
  | start _ _ => simp [Table.start, Table.running]
  | back _ _ => simp [Table.back, Table.running]
  | restart _ _ => simp [Table.start, Table.running]
  | marked _ ih => exact ih hesp
  | shift _ _ _ => rfl
  | view _ _ => exact hesp
  | park _ _ _ _ _ _ => simp [Table.start, Table.running]

/-- The other terminals keep their processes. -/
theorem process (h : Change op cpu T out T') {t : ℕ} (ht : t ≠ T'.currentTerm) :
    T'.process t = T.process t := by
  induction h with
  | start _ _ => exact Function.update_of_ne ht _ _
  | back _ _ => exact Function.update_of_ne ht _ _
  | restart _ _ => exact Function.update_of_ne ht _ _
  | marked _ ih => exact ih ht
  | park _ _ _ _ _ _ => exact Function.update_of_ne ht _ _
  | _ => rfl

/-- A process that does not run keeps its saved context, if the running terminal is in view when
another one is started. -/
theorem waiting (h : Change op cpu T out T') (hout : ∀ esp ebp, out ≠ .switched esp ebp)
    (hopen : T.totalProgs T.currentTerm ≠ 0)
    (hview : T'.currentTerm ≠ T.currentTerm → T.viewingTerm = T.currentTerm) {p : ℕ}
    (hp : p ≠ T.running) : T'.context p = T.context p := by
  induction h with
  | start _ _ => exact context_start ..
  | back _ _ => rw [context_back, context_remove]
  | restart _ _ => rw [context_start, context_remove]
  | marked _ ih =>
    rw [ih hout hopen hview hp]
    exact context_onPcb (f := PCB.setHaltStat 1) (fun _ => ⟨rfl,rfl⟩) ..
  | shift _ _ _ => exact absurd rfl (hout _ _)
  | @park T dest pid entry hop hdest hne hnone hroom hpid =>
    have hmoved : dest ≠ T.currentTerm := by
      rintro rfl
      exact hopen hnone
    have hsame : T.viewingTerm = T.currentTerm := hview hmoved
    rw [context_start]
    refine (context_save T cpu (T.process T.viewingTerm) p).trans (if_neg ?_)
    rw [hsame]
    exact hp
  | _ => rfl

end Change
section
variable {fs : FileSystem} {k : Kernel} {t : ℕ}

/-- The process of another open terminal is not the running one. -/
theorem Owned.waiting (h : Owned k) (ht : t ≠ k.currentTerm) (hopen : k.totalProgs t ≠ 0) :
    k.table.process t ≠ k.running ∧ k.table.process t < maxNumProc := by
  obtain ⟨stack,hosts,hrunning,-⟩ := h.account
  have hprogs : k.totalProgs t = (stack t).length := hosts.progs t
  have hstack : stack t ≠ [] := by
    intro hnil
    rw [hnil] at hprogs
    exact hopen hprogs
  exact ⟨fun hsame => ht (hosts.forest.top_injective hstack hrunning hsame),
    (hosts.member t _ (hosts.top_mem hstack)).1⟩

/-- What an event that is not a tick does to the terminals that wait after it. -/
structure Leaves (k k' : Kernel) : Prop where
  owned : Owned k'
  kernelStack : k'.tssEsp0 = getEsp0 k'.running
  programs : ∀ t, t ≠ k'.currentTerm → k'.totalProgs t = k.totalProgs t
  process : ∀ t, t ≠ k'.currentTerm → k'.table.process t = k.table.process t
  context : ∀ p, p ≠ k.running → k'.table.context p = k.table.context p

theorem leaves_step (hshell : fs.Loadable (text "shell")) (h : Owned k)
    (hesp : k.tssEsp0 = getEsp0 k.running) {op : Op} (hop : Affordable fs k op)
    (hpit : ∀ cpu, op ≠ .pit cpu)
    (hview : ((kernel fs).next k op).currentTerm ≠ k.currentTerm →
      k.viewingTerm = k.currentTerm) : Leaves k ((kernel fs).next k op) := by
  have howned := owned_step hshell h hop
  have hprograms := (turn_step hshell h hop).1
  obtain ⟨stack,hosts,hrunning,-⟩ := h.account
  rcases step_change hshell hosts hrunning hop with hdes | ⟨op',cpu,hchange,-⟩
  · have hprocess : ((kernel fs).next k op).table.process = k.table.process :=
      (congrArg Table.process hdes.rest :)
    have hsame : ((kernel fs).next k op).running = k.running := congrArg Table.running hdes.rest
    refine ⟨howned,?_,hprograms,fun t _ => congrFun hprocess t,?_⟩
    · rw [hsame, ← hesp]
      exact congrArg Table.tssEsp0 hdes.rest
    · intro p _
      rw [Table.context, Table.context, hdes.pcb p]
  · exact ⟨howned,hchange.kernelStack hesp,hprograms,fun t ht => hchange.process ht,
      fun p hp => hchange.waiting (step_switched fs k hpit) h.open.2 hview hp⟩

theorem leaves_none (h : Owned k) (hesp : k.tssEsp0 = getEsp0 k.running) : Leaves k k :=
  ⟨h,hesp,fun _ _ => rfl,fun _ _ => rfl,fun _ _ => rfl⟩

end

/-! ### Runs -/

/-- What is asked of a stretch of work: no ticks of its own; it stays off the kernel stacks of
the processes that wait in other terminals; it ends where a tick finds room; and where another
terminal has got its first shell, the running terminal was in view and has left its own stack
registers. -/
structure Proceeds (fs : FileSystem) (c : TimerCode) (m : Core) (op : Option Op)
    (cpu : Processor) : Prop where
  affordable : ∀ o, op = some o → Affordable fs m.kernel o ∧ ∀ cpu, o ≠ .pit cpu
  others : ∀ t, t ≠ m.kernel.currentTerm → m.kernel.totalProgs t ≠ 0 →
    ∀ a ∈ stackRegion (m.kernel.table.process t), cpu.words a = m.cpu.words a
  room : Interruptible c (entered fs m.kernel op).running cpu
  view : (entered fs m.kernel op).currentTerm ≠ m.kernel.currentTerm →
    m.kernel.viewingTerm = m.kernel.currentTerm ∧
      Away c m.kernel.running ((entered fs m.kernel op).table.context m.kernel.running).1
        ((entered fs m.kernel op).table.context m.kernel.running).2 cpu.words

def Works (fs : FileSystem) (c : TimerCode) (m : Core) : CoreEvent → Prop
  | .run op cpu => Proceeds fs c m op cpu
  | .tick => True

/-- The context that each terminal knows of its own: what its work has left, ticks apart. A
terminal that has started another one knows no more than where it will return. -/
def known (before : ℕ → Option Processor) (m : Move Core CoreEvent Unit) : ℕ → Option Processor :=
  match m.event with
  | .run _ cpu =>
    Function.update (Function.update before m.pre.kernel.currentTerm none)
      m.post.kernel.currentTerm (some cpu)
  | .tick => before

/-- The running process has the processor as it knows it, and the others are held. -/
structure Kept (c : TimerCode) (contexts : ℕ → Option Processor) (m : Core) : Prop where
  owned : Owned m.kernel
  kernelStack : m.kernel.tssEsp0 = getEsp0 m.kernel.running
  room : Interruptible c m.kernel.running m.cpu
  continues : Continues m.kernel.running (contexts m.kernel.currentTerm) m.cpu
  held : ∀ t, t ≠ m.kernel.currentTerm → m.kernel.totalProgs t ≠ 0 →
    Held c (contexts t) (m.kernel.table.process t)
      (m.kernel.table.context (m.kernel.table.process t)).1
      (m.kernel.table.context (m.kernel.table.process t)).2 m.cpu.words

section
variable {fs : FileSystem} {c : TimerCode} {contexts : ℕ → Option Processor} {m : Core}

theorem kept_run (hshell : fs.Loadable (text "shell")) (h : Kept c contexts m) {op : Option Op}
    {cpu : Processor} (hop : Proceeds fs c m op cpu) :
    Kept c (known contexts ((core fs c).move m (.run op cpu)))
      ((core fs c).next m (.run op cpu)) := by
  have hleaves : Leaves m.kernel (entered fs m.kernel op) := by
    cases op with
    | none => exact leaves_none h.owned h.kernelStack
    | some o =>
      obtain ⟨haffordable,hpit⟩ := hop.affordable o rfl
      exact leaves_step hshell h.owned h.kernelStack haffordable hpit fun hne => (hop.view hne).1
  obtain ⟨-,hothers,hroom,hview⟩ := hop
  have hknown : known contexts ((core fs c).move m (.run op cpu)) =
      Function.update (Function.update contexts m.kernel.currentTerm none)
        (entered fs m.kernel op).currentTerm (some cpu) := rfl
  have hnext : (core fs c).next m (.run op cpu) = ⟨entered fs m.kernel op,cpu⟩ := rfl
  rw [hknown, hnext]
  generalize entered fs m.kernel op = k at *
  refine ⟨hleaves.owned,hleaves.kernelStack,hroom,?_,?_⟩
  · rw [Function.update_self]
    exact Continues.refl k.running cpu
  · intro t ht hprogs
    have hopen : m.kernel.totalProgs t ≠ 0 := hleaves.programs t ht ▸ hprogs
    dsimp only
    rw [Function.update_of_ne ht, hleaves.process t ht]
    by_cases hgave : t = m.kernel.currentTerm
    · subst hgave
      rw [Function.update_self]
      exact .inr ⟨rfl,(hview ht.symm).2⟩
    · have hwaiting := (h.owned.waiting hgave hopen).1
      rw [Function.update_of_ne hgave, hleaves.context _ hwaiting]
      exact (h.held t hgave hopen).keeps (hothers t hgave hopen)

theorem kept_stays (h : Kept c contexts m)
    (howned : Owned (pitHandler (c.capture m.kernel m.cpu) m.kernel).2)
    (hout : (pitHandler (c.capture m.kernel m.cpu) m.kernel).1 = .quiet)
    (htable : (pitHandler (c.capture m.kernel m.cpu) m.kernel).2.table = m.kernel.table) :
    Kept c contexts ((core fs c).next m .tick) := by
  obtain ⟨hroom,hsame,hwords⟩ := tick_stays h.room h.kernelStack hout
  have hkernel : (c.tick m.kernel m.cpu).1 = (pitHandler (c.capture m.kernel m.cpu) m.kernel).2 :=
    congrArg Prod.fst (tick_quiet hout)
  change Kept c contexts ⟨(c.tick m.kernel m.cpu).1,(c.tick m.kernel m.cpu).2⟩
  rw [hkernel]
  generalize (pitHandler (c.capture m.kernel m.cpu) m.kernel).2 = k at *
  generalize (c.tick m.kernel m.cpu).2 = r at *
  have hrunning : k.running = m.kernel.running := congrArg Table.running htable
  have hterm : k.currentTerm = m.kernel.currentTerm := congrArg Table.currentTerm htable
  have hesp : k.tssEsp0 = m.kernel.tssEsp0 := congrArg Table.tssEsp0 htable
  have hprogs : k.totalProgs = m.kernel.totalProgs := congrArg Table.totalProgs htable
  refine ⟨howned,?_,?_,?_,?_⟩
  · dsimp only
    rw [hesp, hrunning, h.kernelStack]
  · dsimp only
    rw [hrunning]
    exact hroom
  · dsimp only
    rw [hrunning, hterm]
    exact fun s hs => (h.continues s hs).trans hsame
  · dsimp only
    rw [hterm, hprogs, htable]
    intro t ht hopen
    obtain ⟨hother,hq⟩ := h.owned.waiting ht hopen
    exact (h.held t ht hopen).keeps fun a ha =>
      hwords a (stackRegion_other h.owned.running_lt hq hother.symm ha)

theorem kept_moves (h : Kept c contexts m)
    (howned : Owned (pitHandler (c.capture m.kernel m.cpu) m.kernel).2) {next : ℕ}
    (hne : next ≠ m.kernel.currentTerm) (hopen : m.kernel.totalProgs next ≠ 0)
    (hout : (pitHandler (c.capture m.kernel m.cpu) m.kernel).1 = .switched
      (m.kernel.table.context (m.kernel.table.process next)).1
      (m.kernel.table.context (m.kernel.table.process next)).2)
    (htable : (pitHandler (c.capture m.kernel m.cpu) m.kernel).2.table =
      m.kernel.table.shift (c.capture m.kernel m.cpu) next) :
    Kept c contexts ((core fs c).next m .tick) := by
  obtain ⟨hother,hq⟩ := h.owned.waiting hne hopen
  have hlt := h.owned.running_lt
  obtain ⟨hroom,hcontinues,hheld,hwords⟩ := tick_moves h.room h.kernelStack hout hlt hq
    hother.symm (h.held next hne hopen) h.continues
  have hkernel : (c.tick m.kernel m.cpu).1 = (pitHandler (c.capture m.kernel m.cpu) m.kernel).2 :=
    congrArg Prod.fst (tick_switched hout)
  have hcontext : ∀ p, (m.kernel.table.shift (c.capture m.kernel m.cpu) next).context p =
      if p = m.kernel.running then
        ((c.capture m.kernel m.cpu).esp,(c.capture m.kernel m.cpu).ebp)
      else m.kernel.table.context p :=
    context_save m.kernel.table (c.capture m.kernel m.cpu) m.kernel.table.running
  change Kept c contexts ⟨(c.tick m.kernel m.cpu).1,(c.tick m.kernel m.cpu).2⟩
  rw [hkernel]
  generalize (pitHandler (c.capture m.kernel m.cpu) m.kernel).2 = k at *
  generalize (c.tick m.kernel m.cpu).2 = r at *
  have hrunning : k.running = m.kernel.table.process next := congrArg Table.running htable
  have hterm : k.currentTerm = next := congrArg Table.currentTerm htable
  have hesp : k.tssEsp0 = getEsp0 (m.kernel.table.process next) :=
    congrArg Table.tssEsp0 htable
  have hprogs : k.totalProgs = m.kernel.totalProgs := congrArg Table.totalProgs htable
  have hprocess : k.table.process = m.kernel.table.process := by rw [htable]; rfl
  refine ⟨howned,?_,?_,?_,?_⟩
  · dsimp only
    rw [hesp, hrunning]
  · dsimp only
    rw [hrunning]
    exact hroom
  · dsimp only
    rw [hrunning, hterm]
    exact hcontinues
  · dsimp only
    rw [hterm, hprogs, hprocess, htable]
    intro t ht hwaits
    rw [hcontext]
    by_cases hgave : t = m.kernel.currentTerm
    · subst hgave
      have hrun : m.kernel.table.process m.kernel.currentTerm = m.kernel.running := rfl
      rw [hrun, if_pos rfl]
      exact hheld
    · obtain ⟨haway,hp⟩ := h.owned.waiting hgave hwaits
      have hapart : m.kernel.table.process t ≠ m.kernel.table.process next := by
        have hwaiting := (howned.waiting (t := t) (hterm ▸ ht) (hprogs ▸ hwaits)).1
        rwa [hrunning, hprocess] at hwaiting
      rw [if_neg haway]
      exact (h.held t hgave hwaits).keeps fun a ha =>
        hwords a (stackRegion_other hlt hp haway.symm ha)
          (stackRegion_other hq hp hapart.symm ha)

theorem kept_tick (hshell : fs.Loadable (text "shell")) (h : Kept c contexts m) :
    Kept c contexts ((core fs c).next m .tick) := by
  have howned : Owned (pitHandler (c.capture m.kernel m.cpu) m.kernel).2 :=
    owned_step hshell h.owned (affordable_pit fs m.kernel _)
  rcases pitHandler_cases (c.capture m.kernel m.cpu) m.kernel with
    ⟨-,hout,htable⟩ | ⟨hne,hout,htable⟩
  · exact kept_stays h howned hout htable
  · have hopen := (getScheduledTerm_spec m.kernel h.owned.open.1).2 hne
    refine kept_moves h howned hne (Nat.ne_of_gt hopen) (hout.trans ?_) htable
    have hother : m.kernel.table.process (getScheduledTerm m.kernel) ≠ m.kernel.table.running :=
      (h.owned.waiting hne (Nat.ne_of_gt hopen)).1
    have hcontext := context_save m.kernel.table (c.capture m.kernel m.cpu) m.kernel.table.running
      (m.kernel.table.process (getScheduledTerm m.kernel))
    rw [if_neg hother] at hcontext
    rw [← hcontext]
    rfl

theorem kept_step (hshell : fs.Loadable (text "shell")) (h : Kept c contexts m)
    {event : CoreEvent} (hevent : Works fs c m event) :
    Kept c (known contexts ((core fs c).move m event)) ((core fs c).next m event) := by
  cases event with
  | run op cpu => exact kept_run hshell h hevent
  | tick => exact kept_tick hshell h

end

section
variable {fs : FileSystem} {c : TimerCode}

/-- After boot no other terminal has programs. -/
theorem booted_alone (hshell : fs.Loadable (text "shell")) (pcb : ℕ → PCB) (phys : ℕ → UInt8)
    (cpu : Cpu) {t : ℕ} (ht : t ≠ (booted fs pcb phys cpu).currentTerm) :
    (booted fs pcb phys cpu).totalProgs t = 0 := by
  have hboot := booted_table hshell pcb phys cpu
  generalize booted fs pcb phys cpu = k at *
  have hcurrent : k.currentTerm = 0 := congrArg Table.currentTerm hboot
  rw [hcurrent] at ht
  apply (congrFun (congrArg Table.totalProgs hboot) t).trans
  exact Function.update_of_ne ht _ _

theorem booted_kept (hshell : fs.Loadable (text "shell")) (pcb : ℕ → PCB) (phys : ℕ → UInt8)
    (cpu : Cpu) {s : Processor} (hs : Interruptible c (booted fs pcb phys cpu).running s) :
    Kept c (Function.update (fun _ => none) (booted fs pcb phys cpu).currentTerm (some s))
      ⟨booted fs pcb phys cpu,s⟩ := by
  obtain ⟨stack,hsound⟩ := booted_sound hshell pcb phys cpu
  have howned := booted_owned hshell pcb phys cpu
  have halone := fun t => booted_alone hshell pcb phys cpu (t := t)
  generalize booted fs pcb phys cpu = k at *
  refine ⟨howned,hsound.mapped.2,hs,?_,fun t ht hopen => absurd (halone t ht) hopen⟩
  dsimp only
  rw [Function.update_self]
  exact Continues.refl k.running s

/-- Whatever programs and the kernel do between the ticks, and however many ticks there are: the
running process always has the processor as its own work has left it, with every register but
the data segments, and with its kernel stack. -/
theorem ticks_unseen (hshell : fs.Loadable (text "shell")) (pcb : ℕ → PCB) (phys : ℕ → UInt8)
    (cpu : Cpu) (s : Processor) (hs : Interruptible c (booted fs pcb phys cpu).running s)
    (events : List CoreEvent)
    (hevents : (core fs c).Along (Works fs c) ⟨booted fs pcb phys cpu,s⟩ events) :
    let m := (core fs c).run ⟨booted fs pcb phys cpu,s⟩ events
    let contexts := ((core fs c).trace ⟨booted fs pcb phys cpu,s⟩ events).foldl known
      (Function.update (fun _ => none) (booted fs pcb phys cpu).currentTerm (some s))
    Interruptible c m.kernel.running m.cpu ∧
      ∀ s', contexts m.kernel.currentTerm = some s' → Same m.kernel.running s' m.cpu := by
  intro m contexts
  have hboot := booted_kept hshell pcb phys cpu hs
  have hkept : Kept c contexts m := by
    refine System.Along.history (S := core fs c) (R := fun h m => Kept c (h.foldl known
      (Function.update (fun _ => none) (booted fs pcb phys cpu).currentTerm (some s))) m)
      ?_ hboot hevents
    intro h m event hm hevent
    rw [List.foldl_concat]
    exact kept_step hshell hm hevent
  exact ⟨hkept.room,hkept.continues⟩

end
/-- A compiled PIT_handler that has its way with a register. -/
def plainTimer : TimerCode where
  gate := ⟨0x10,0x400200,true⟩
  returnAddress := 0x400100
  locals := 24
  depth := 256
  before _ s := { s with eax := 9 }
  after _ s := { s with eax := 8 }
  early _ s := s
  ring := rfl
  before_inside _ _ := ⟨rfl,rfl,rfl,fun _ _ => rfl⟩
  after_inside _ _ := ⟨rfl,rfl,rfl,fun _ _ => rfl⟩
  early_inside _ _ := ⟨rfl,rfl,rfl,fun _ _ => rfl⟩

/-- The shell of terminal 0 starts one on terminal 1, and ticks take the processor there and
back. -/
def ticking : List CoreEvent :=
  [.run (some (.switch 1 ⟨0x7FFE00,0x7FFE40,fun _ => 0⟩)) userContext,.tick,.tick]

theorem userContext_interruptible {p : ℕ} (hp : p < maxNumProc) :
    Interruptible plainTimer p userContext := by
  have htop : userContext.stackTop (getEsp0 p) = getEsp0 p := if_pos rfl
  refine ⟨.inr rfl,fun h => absurd h (by decide),?_,?_⟩
  · rw [htop]
    revert p
    decide
  · exact Nat.le_of_eq htop

theorem ticking_works : (core shellImage plainTimer).Along (Works shellImage plainTimer)
    ⟨booted shellImage (fun _ => PCB.zero) (fun _ => 0) ⟨0,0,fun _ => 0⟩,userContext⟩ ticking := by
  refine ⟨⟨?_,?_,?_,?_⟩,trivial,trivial,trivial⟩
  · rintro o ⟨⟩
    exact ⟨⟨Nat.le_of_ble_eq_true rfl,fun _ _ => Op.noConfusion,fun _ _ => ⟨1,by decide +kernel⟩⟩,
      fun _ => Op.noConfusion⟩
  · exact fun _ _ _ _ _ => rfl
  · exact userContext_interruptible (by decide +kernel)
  · intro _
    refine ⟨by decide +kernel,?_⟩
    have hcontext : (entered shellImage
        (booted shellImage (fun _ => PCB.zero) (fun _ => 0) ⟨0,0,fun _ => 0⟩)
          (some (.switch 1 ⟨0x7FFE00,0x7FFE40,fun _ => 0⟩))).table.context 0 =
        (0x7FFE00,0x7FFE40) := by
      decide +kernel
    have hrunning : (booted shellImage (fun _ => PCB.zero) (fun _ => 0)
        ⟨0,0,fun _ => 0⟩).running = 0 := by decide +kernel
    dsimp only
    rw [hrunning, hcontext]
    exact ⟨by decide,by decide,by decide,by decide,by decide⟩

/-- Two ticks later the new shell has its registers back. -/
theorem ticks_unseen_shells :
    ((core shellImage plainTimer).run
      ⟨booted shellImage (fun _ => PCB.zero) (fun _ => 0) ⟨0,0,fun _ => 0⟩,userContext⟩
        ticking).cpu.eax = 3 := by
  have hrunning : (booted shellImage (fun _ => PCB.zero) (fun _ => 0)
      ⟨0,0,fun _ => 0⟩).running < maxNumProc := by decide +kernel
  obtain ⟨-,hsame⟩ := ticks_unseen shellImage_loadable (fun _ => PCB.zero) (fun _ => 0)
    ⟨0,0,fun _ => 0⟩ userContext (userContext_interruptible hrunning) ticking ticking_works
  have hstarted : (entered shellImage
      (booted shellImage (fun _ => PCB.zero) (fun _ => 0) ⟨0,0,fun _ => 0⟩)
        (some (.switch 1 ⟨0x7FFE00,0x7FFE40,fun _ => 0⟩))).currentTerm = 1 := by
    decide +kernel
  have hback : ((core shellImage plainTimer).run
      ⟨booted shellImage (fun _ => PCB.zero) (fun _ => 0) ⟨0,0,fun _ => 0⟩,userContext⟩
        ticking).kernel.currentTerm = 1 := by
    decide +kernel
  have hregisters := (hsame userContext (by
    rw [hback, ← hstarted]
    exact Function.update_self ..)).registers
  rw [hregisters]
  rfl

end GameOfThreads
