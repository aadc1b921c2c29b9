import GameOfThreads.LineEditing
import GameOfThreads.ReadingProcesses

/-! The flag of a pending read. terminal_read raises it before it looks at its arguments and
lowers it at its end, so it is true of the processes that are inside a terminal_read until one
of these calls is refused. -/
namespace GameOfThreads
open Machine

/-! ### Reads -/

/-- A read by the running process: where it waits after it, and the flag of its terminal. -/
structure After (k k' : Kernel) (w : Option Wait) (n : ℕ) : Prop where
  des : DesOnly k.table k'.table
  waiting : k'.waiting = Function.update k.waiting k.running w
  wanted : ∀ t, (k'.terminal t).readWanted =
    if t = k.currentTerm then n else (k.terminal t).readWanted

section
variable {k k' : Kernel}

theorem After.of_input {w : Option Wait} {i : Input} (hdes : DesOnly k.table k'.table)
    (hwaiting : k'.waiting = Function.update k.waiting k.running w)
    (hinput : k'.input = Function.update k.input k.currentTerm i) : After k k' w i.readWanted := by
  refine ⟨hdes,hwaiting,?_⟩
  intro t
  have hwanted : (k'.terminal t).readWanted = (k'.input t).readWanted := rfl
  rw [hwanted, hinput]
  by_cases ht : t = k.currentTerm
  · subst ht
    rw [if_pos rfl, Function.update_self]
  · rw [if_neg ht, Function.update_of_ne ht]
    rfl

/-- A call that is refused leaves its flag behind. -/
theorem terminalRead_refused {null : Bool} {nbytes : ℤ} (h : null ∨ nbytes < 0) (k : Kernel) :
    After k (terminalRead null nbytes k).2 (k.waiting k.running) 1 := by
  have hstart : terminalReadStart null nbytes k =
      (none,k.onTerminal k.currentTerm (Terminal.setReadWanted 1)) := if_pos h
  have hinput := (terminalRead_input null nbytes k).1
  rw [hstart] at hinput
  refine After.of_input (.of_eq (terminalRead_table null nbytes k)) ?_ hinput
  rw [terminalRead, hstart, Function.update_eq_self]
  rfl

theorem terminalRead_eq {null : Bool} {nbytes : ℤ} (h : ¬(null ∨ nbytes < 0)) (k : Kernel) :
    (terminalRead null nbytes k).2 =
      let k' := k.onTerminal k.currentTerm (Terminal.setReadWanted 1)
      if (k.terminal k.currentTerm).enterFlag = 0 then
        { k' with waiting :=
            Function.update k'.waiting k'.running (some (.terminal (readLimit nbytes))) }
      else (terminalReadFinish (readLimit nbytes) k').2 := by
  have hflag : ((k.onTerminal k.currentTerm (Terminal.setReadWanted 1)).terminal
      k.currentTerm).enterFlag = (k.terminal k.currentTerm).enterFlag := by
    rw [Kernel.onTerminal_terminal_self]
    rfl
  have hstart : terminalReadStart null nbytes k = (some (readLimit nbytes),
      k.onTerminal k.currentTerm (Terminal.setReadWanted 1)) := if_neg h
  simp only [terminalRead, hstart]
  rw [← hflag]
  exact apply_ite Prod.snd ..

/-- A call that is not refused waits, with its flag up, or is done and takes it down. -/
theorem terminalRead_accepted {null : Bool} {nbytes : ℤ} (h : ¬(null ∨ nbytes < 0)) (k : Kernel) :
    (∃ limit, After k (terminalRead null nbytes k).2 (some (.terminal limit)) 1) ∨
      After k (terminalRead null nbytes k).2 (k.waiting k.running) 0 := by
  have hinput := (terminalRead_input null nbytes k).1
  have htable := terminalRead_table null nbytes k
  have hlimit : (terminalReadStart null nbytes k).1 = some (readLimit nbytes) := by
    simp only [terminalReadStart, if_neg h]
    rfl
  have hmid : TerminalsOnly k (k.onTerminal k.currentTerm (Terminal.setReadWanted 1)) :=
    (TerminalsOnly.refl k).onTerminal fun _ => rfl
  have hrunning : (k.onTerminal k.currentTerm (Terminal.setReadWanted 1)).running = k.running :=
    hmid.process k.currentTerm
  have hlook : editor.next (k.input k.currentTerm) (.ask (some (readLimit nbytes))) =
      ((k.input k.currentTerm).ask.look (readLimit nbytes)).2 := rfl
  have hnext := terminalRead_eq h k
  rw [hlimit, hlook] at hinput
  generalize (terminalRead null nbytes k).2 = k' at *
  by_cases hflag : (k.terminal k.currentTerm).enterFlag = 0
  · have hwait : (k.input k.currentTerm).ask.look (readLimit nbytes) =
        (none,(k.input k.currentTerm).ask) := if_pos hflag
    rw [hwait] at hinput
    refine .inl ⟨readLimit nbytes,After.of_input (.of_eq htable) ?_ hinput⟩
    rw [hnext, if_pos hflag, ← hrunning]
    rfl
  · have hdone : (k.input k.currentTerm).ask.look (readLimit nbytes) =
        (_,(k.input k.currentTerm).ask.deliver) := if_neg hflag
    rw [hdone] at hinput
    refine .inr (After.of_input (.of_eq htable) ?_ hinput)
    rw [hnext, if_neg hflag, Function.update_eq_self]
    exact (terminalReadFinish_terminalsOnly _ _).waiting.trans hmid.waiting

theorem After.of_same {w : Option Wait} (hdes : DesOnly k.table k'.table)
    (hwaiting : k'.waiting = Function.update k.waiting k.running w) (hinput : k'.input = k.input) :
    After k k' w (k.terminal k.currentTerm).readWanted := by
  refine .of_input (i := k.input k.currentTerm) hdes hwaiting ?_
  rw [hinput, Function.update_eq_self]

theorem readRtc_waiting {value : ℤ} (h : readRtc k = some (value,k')) :
    k'.waiting = k.waiting ∧ k'.running = k.running := by
  unfold readRtc at h
  split_ifs at h
  cases h
  exact ⟨rfl,rfl⟩

/-- A turn of the running process in its read. -/
theorem resume_after (k : Kernel) : (resume k).2 = k ∨ After k (resume k).2 none 0 ∨
    ¬InRead k.waiting k.running ∧
      After k (resume k).2 none (k.terminal k.currentTerm).readWanted := by
  have hdes : DesOnly k.table (resume k).2.table := .of_eq (resume_table k)
  cases hwait : k.waiting k.running with
  | none =>
    left
    simp only [resume, hwait]
  | some w =>
    cases w with
    | terminal limit =>
      by_cases hflag : (k.terminal k.currentTerm).enterFlag = 0
      · left
        rw [resume_clear hwait hflag]
      · right
        left
        have hinput := (resume_input hwait).1
        have hlook : editor.next (k.input k.currentTerm) (.look limit) =
            ((k.input k.currentTerm).look limit).2 := rfl
        rw [hlook, look_set hflag] at hinput
        refine .of_input hdes ?_ hinput
        have hend := terminalReadFinish_terminalsOnly limit k
        have hcurrent : (terminalReadFinish limit k).2.currentTerm = k.currentTerm := by
          rw [hend.rest]
        rw [resume_set hwait hflag]
        simp only [freed]
        rw [hend.waiting, Kernel.running, hcurrent, hend.process]
        rfl
    | rtc =>
      have hinside : ¬InRead k.waiting k.running := by
        rintro ⟨limit,hinside⟩
        rw [hwait] at hinside
        cases hinside
      have hinput := resume_other fun limit hlimit => hinside ⟨limit,hlimit⟩
      cases hread : readRtc k with
      | none =>
        left
        simp only [resume, hwait, hread]
      | some r =>
        obtain ⟨value,k'⟩ := r
        obtain ⟨hwaiting,hrunning⟩ := readRtc_waiting hread
        refine .inr (.inr ⟨hinside,.of_same hdes ?_ hinput⟩)
        simp only [resume, hwait, hread]
        rw [hwaiting, hrunning]

theorem read_waiting (fs : FileSystem) {fd : ℤ} {null : Bool} (nbytes : ℤ) (cpu : Cpu)
    (h : ¬k.ReadsTerminal fd null) : ∃ w, (w = k.waiting k.running ∨ w = some .rtc) ∧
      (read fs fd null nbytes cpu k).2.waiting = Function.update k.waiting k.running w := by
  have hsame : ∀ {w'}, w' = k.waiting → ∃ w, (w = k.waiting k.running ∨ w = some .rtc) ∧
      w' = Function.update k.waiting k.running w :=
    fun hw => ⟨k.waiting k.running,.inl rfl,by rw [Function.update_eq_self, hw]⟩
  unfold read
  split_ifs with hargs hflags
  · exact hsame rfl
  · exact hsame rfl
  · cases htable : (k.des fd.toNat).opTable with
    | null => exact hsame rfl
    | rtcOps =>
      cases hread : readRtc k with
      | none => exact ⟨some .rtc,.inr rfl,rfl⟩
      | some r =>
        obtain ⟨value,k'⟩ := r
        exact hsame (readRtc_waiting hread).1
    | fileOps =>
      apply hsame
      simp only [fileRead]
      split_ifs <;> rfl
    | directoryOps =>
      apply hsame
      simp only [directoryRead]
      split_ifs
      · rfl
      · rfl
      · cases fs.readDentryByIndex (u32 (k.des fd.toNat).filePosition) ⟨cpu.stack⟩ <;> rfl
    | stdOps => exact absurd ⟨hargs,hflags,htable⟩ h

/-- A read that does not go to terminal_read. -/
theorem read_after (fs : FileSystem) {fd : ℤ} {null : Bool} (nbytes : ℤ) (cpu : Cpu)
    (h : ¬k.ReadsTerminal fd null) : ∃ w, (w = k.waiting k.running ∨ w = some .rtc) ∧
      After k (read fs fd null nbytes cpu k).2 w (k.terminal k.currentTerm).readWanted := by
  obtain ⟨w,hw,hwaiting⟩ := read_waiting fs nbytes cpu h
  exact ⟨w,hw,.of_same (read_desOnly k fs fd null nbytes cpu) hwaiting
    (read_other fs nbytes cpu h)⟩

end

/-! ### Events -/

/-- The events of the kernel, and terminal_read called with any arguments. -/
inductive ReadOp
  | event (op : Op)
  | terminalRead (null : Bool) (nbytes : ℤ)

def readings (fs : FileSystem) : System Kernel ReadOp Out where
  step k
    | .event op => step fs k op
    | .terminalRead null nbytes => reply (terminalRead null nbytes k)

/-- A system call of the running process, or an exception that it meets. -/
def Op.Call : Op → Prop
  | .pit _ => False
  | .switch _ _ => False
  | .key _ _ => False
  | .resume => False
  | .rtc => False
  | _ => True

def ReadOp.Call : ReadOp → Prop
  | .event op => op.Call
  | .terminalRead _ _ => True

/-- A process inside terminal_read makes no other call before that one returns. What execute is
called with can be executed. -/
structure Undivided (fs : FileSystem) (k : Kernel) (op : ReadOp) : Prop where
  proper : ∀ e, op = .event e → e.Proper
  starts : ∀ command cpu, op = .event (.execute command cpu) →
    ∃ pid entry, (execute fs cpu command k).1 = .started pid entry
  calls : op.Call → ¬InRead k.waiting k.running

/-- The arguments with which an event calls terminal_read. -/
def ReadOp.arguments (k : Kernel) : ReadOp → Option (Bool × ℤ)
  | .event (.read fd null nbytes _) => if k.ReadsTerminal fd null then some (null,nbytes) else none
  | .terminalRead null nbytes => some (null,nbytes)
  | _ => none

/-- The event does not call terminal_read with arguments that it refuses. -/
def Accepted (k : Kernel) (op : ReadOp) : Prop :=
  ∀ null nbytes, op.arguments k = some (null,nbytes) → ¬(null ∨ nbytes < 0)

theorem accepted_iff {k : Kernel} {op : ReadOp} {null : Bool} {nbytes : ℤ}
    (h : op.arguments k = some (null,nbytes)) : Accepted k op ↔ ¬(null ∨ nbytes < 0) := by
  rw [Accepted, h]
  constructor
  · exact fun haccepted => haccepted null nbytes rfl
  · rintro haccepted _ _ ⟨⟩
    exact haccepted

/-- The flag of a terminal is up exactly while a read on it is pending. -/
def FlagsTrue (k : Kernel) : Prop :=
  ∀ t, (k.terminal t).readWanted ≠ 0 ↔ k.Pending t

/-- The processes are accounted for, and only those on top can be inside a read. -/
structure Settled (k : Kernel) : Prop where
  sound : ∃ stack, Sound k.table stack
  seated : ∃ stack, Seated k.table stack k.waiting

section
variable {k k' : Kernel} {stack : ℕ → List ℕ}

theorem Seated.pending (hs : Seated k.table stack k.waiting) (t : ℕ) :
    k.Pending t ↔ Reading k.waiting (stack t) := by
  rw [Kernel.Pending, chain_eq hs.hosts]

theorem DesOnly.sound {T T' : Table} (h : DesOnly T T') (hs : Sound T stack) : Sound T' stack := by
  refine ⟨h.hosts hs.hosts,?_,?_,?_⟩
  · rw [h.rest]
    exact hs.tight
  · rw [h.rest]
    exact hs.running
  · rw [h.rest]
    exact hs.mapped

/-- A change of descriptors only. -/
theorem Seated.des {T T' : Table} {waiting : ℕ → Option Wait} (hs : Seated T stack waiting)
    (h : DesOnly T T') : Seated T' stack waiting := by
  refine hs.congr (h.hosts hs.hosts) ?_ (by rw [h.rest])
  rw [h.rest]
  exact hs.running

theorem Settled.inRange (hk : Settled k) : k.InRange := by
  obtain ⟨stack,hs⟩ := hk.seated
  exact ⟨hs.hosts.viewing,hs.hosts.current⟩

/-- The flags after a read by the running process. -/
theorem After.flags {w : Option Wait} {n : ℕ} (h : After k k' w n) (hk : Settled k) :
    Settled k' ∧ (FlagsTrue k →
      (FlagsTrue k' ↔ (n ≠ 0 ↔ ∃ limit, w = some (.terminal limit)))) := by
  obtain ⟨⟨stack₀,hsound⟩,stack,hs⟩ := hk
  obtain ⟨hserve,hreading⟩ := hs.serve w
  have hs' : Seated k'.table stack k'.waiting := by
    rw [h.waiting]
    exact hserve.des h.des
  refine ⟨⟨⟨stack₀,h.des.sound hsound⟩,stack,hs'⟩,?_⟩
  intro hflags
  have hpending : ∀ t, k'.Pending t ↔
      if t = k.currentTerm then ∃ limit, w = some (.terminal limit) else k.Pending t := by
    intro t
    rw [hs'.pending, hs.pending, h.waiting]
    exact hreading t
  constructor
  · intro hflags'
    have hown := hflags' k.currentTerm
    rwa [h.wanted, hpending, if_pos rfl, if_pos rfl] at hown
  · intro hown t
    rw [h.wanted, hpending]
    split_ifs
    · exact hown
    · exact hflags t

/-! ### All events -/

theorem turned_wanted (t : Terminal) (direction : ℤ) :
    (t.turned direction).wanted = t.readWanted := by
  unfold Terminal.turned
  split_ifs <;> rfl

theorem step_wanted (fs : FileSystem) {op : Op} (hproper : op.Proper) (hin : k.InRange)
    (hop : op.Quiet ∨ ∃ pressed cpu, op = .key pressed cpu) (t : ℕ) :
    (((kernel fs).next k op).terminal t).readWanted = (k.terminal t).readWanted := by
  have hwanted : ∀ {k' : Kernel}, k'.registers t = k.registers t →
      (k'.terminal t).readWanted = (k.terminal t).readWanted := congrArg Registers.wanted
  rcases hop with hquiet | ⟨pressed,cpu,rfl⟩
  · apply hwanted
    rw [(quiet_prints fs hproper hin hquiet).registers]
  · have hkey := congrFun (keyboardSwitch_registers fs cpu pressed
      (k := { k with interrupts := false }) hin.current) t
    have hnext : ((kernel fs).next k (.key pressed cpu)).registers t = _ := hkey
    have hfield : (((kernel fs).next k (.key pressed cpu)).registers t).wanted =
        (k.registers t).wanted := by
      rw [hnext]
      by_cases ht : t = k.viewingTerm
      · subst ht
        rw [Function.update_self]
        split_ifs
        · rfl
        · exact turned_wanted _ _
        · exact turned_wanted _ _
        · rfl
      · rw [Function.update_of_ne ht]
        rfl
    exact hfield

/-- An event that is no read leaves every process as it was to the reads. -/
theorem step_reseats {fs : FileSystem} (hshell : fs.Loadable (text "shell")) {op : Op}
    (hop : op.Quiet ∨ ∃ pressed cpu, op = .key pressed cpu) (hs : Seated k.table stack k.waiting)
    (hseq : Undivided fs k (.event op)) (hroom : k.processCnt+1 ≤ maxNumProc →
      ∃ pid, k.table.nextPid = some pid) :
    Reseats ((kernel fs).next k op).table ((kernel fs).next k op).waiting stack k.waiting := by
  have hwaiting := step_waiting fs hop k
  have hfile : op.FileCall → ((kernel fs).out k op).started = none →
      Reseats ((kernel fs).next k op).table ((kernel fs).next k op).waiting stack k.waiting := by
    intro hfile hout
    rw [hwaiting, hout]
    exact ⟨stack,hs.des (fileCall_desOnly k fs hfile),fun _ => Iff.rfl⟩
  cases op with
  | execute command cpu =>
    rw [hwaiting]
    exact (execute_change (.execute command cpu) fs cpu command k).seated hs (hseq.calls trivial)
  | halt status cpu =>
    rw [hwaiting]
    exact (halt_change (.halt status cpu) hshell cpu status hs.hosts hs.running).1.seated hs
      (hseq.calls trivial)
  | squash cpu =>
    rw [hwaiting]
    exact (squash_change (.squash cpu) hshell cpu hs.hosts hs.running).1.seated hs
      (hseq.calls trivial)
  | pit cpu => exact hs.pit cpu
  | switch dest cpu => exact hs.switch hshell cpu (hseq.proper _ rfl) fun _ => hroom
  | key pressed cpu =>
    exact Seated.key (k := { k with interrupts := false }) hs hshell cpu pressed hroom
  | read fd null nbytes cpu => exact hop.elim False.elim fun ⟨_,_,h⟩ => Op.noConfusion h
  | resume => exact hop.elim False.elim fun ⟨_,_,h⟩ => Op.noConfusion h
  | _ => exact hfile trivial rfl

theorem Sound.room (hs : Sound k.table stack) (hcount : k.processCnt+1 ≤ maxNumProc) :
    ∃ pid, k.table.nextPid = some pid := by
  have hsum : k.processCnt = _ := hs.hosts.count
  exact hs.hosts.nextPid_isSome hs.tight (by omega)

/-- The account after every event. -/
theorem sound_event {fs : FileSystem} (hshell : fs.Loadable (text "shell")) {op : Op}
    (hs : ∃ stack, Sound k.table stack) (hseq : Undivided fs k (.event op)) :
    ∃ stack, Sound ((kernel fs).next k op).table stack := by
  have htable : op.InTable → ∃ stack, Sound ((kernel fs).next k op).table stack :=
    fun hop => sound_step hshell hs ⟨hop,fun command cpu h => hseq.starts command cpu (h ▸ rfl)⟩
  have hfile : op.FileCall → ∃ stack, Sound ((kernel fs).next k op).table stack := by
    obtain ⟨stack,hs⟩ := hs
    exact fun hop => ⟨stack,(fileCall_desOnly k fs hop).sound hs⟩
  cases op with
  | key pressed cpu =>
    rcases keyboardSwitch_cases fs cpu pressed { k with interrupts := false } with
      ⟨-,ht⟩ | ⟨dest,hdest,-,heq⟩
    · obtain ⟨stack,hs⟩ := hs
      have hsame : ((kernel fs).next k (.key pressed cpu)).table = k.table := ht
      exact ⟨stack,hsame ▸ hs⟩
    · have hop : Succeeds fs { k with interrupts := false } (.switch dest cpu) := ⟨hdest,nofun⟩
      have hswitch := sound_step hshell (k := { k with interrupts := false }) hs hop
      have hsame : ((kernel fs).next k (.key pressed cpu)).table =
          ((kernel fs).next { k with interrupts := false } (.switch dest cpu)).table :=
        congrArg (fun r => Kernel.table r.2) heq
      rwa [hsame]
  | execute _ _ => exact htable trivial
  | halt _ _ => exact htable trivial
  | squash _ => exact htable trivial
  | pit _ => exact htable trivial
  | switch _ _ => exact htable (hseq.proper _ rfl)
  | _ => exact hfile trivial

theorem terminalRead_flags (hk : Settled k) (hidle : ¬InRead k.waiting k.running) (null : Bool)
    (nbytes : ℤ) : Settled (terminalRead null nbytes k).2 ∧
      (FlagsTrue k → (FlagsTrue (terminalRead null nbytes k).2 ↔ ¬(null ∨ nbytes < 0))) := by
  by_cases h : null ∨ nbytes < 0
  · obtain ⟨hsettled,hflags⟩ := (terminalRead_refused h k).flags hk
    refine ⟨hsettled,fun hk => (hflags hk).trans ?_⟩
    exact iff_of_false (fun hone => hidle (hone.mp Nat.one_ne_zero)) (not_not.mpr h)
  · rcases terminalRead_accepted h k with ⟨limit,hblocked⟩ | hdone
    · obtain ⟨hsettled,hflags⟩ := hblocked.flags hk
      refine ⟨hsettled,fun hk => (hflags hk).trans ?_⟩
      exact iff_of_true (iff_of_true Nat.one_ne_zero ⟨limit,rfl⟩) h
    · obtain ⟨hsettled,hflags⟩ := hdone.flags hk
      refine ⟨hsettled,fun hk => (hflags hk).trans ?_⟩
      exact iff_of_true (iff_of_false (not_not.mpr rfl) hidle) h

/-- A call that does not go to terminal_read, and that finds its caller outside of one. -/
theorem After.same {w : Option Wait} (h : After k k' w (k.terminal k.currentTerm).readWanted)
    (hk : Settled k) (hidle : ¬InRead k.waiting k.running)
    (hw : ∀ limit, w ≠ some (.terminal limit)) : Settled k' ∧ (FlagsTrue k → FlagsTrue k') := by
  obtain ⟨hsettled,hflags⟩ := h.flags hk
  obtain ⟨stack,hs⟩ := hk.seated
  refine ⟨hsettled,fun htrue => (hflags htrue).mpr ?_⟩
  have hnobody : ¬k.Pending k.currentTerm := by
    rw [hs.pending]
    exact hs.idle hidle
  exact iff_of_false (fun hwanted => hnobody ((htrue _).mp hwanted)) fun ⟨limit,hlimit⟩ =>
    hw limit hlimit

theorem quiet_flags {fs : FileSystem} (hshell : fs.Loadable (text "shell")) {op : Op}
    (hop : op.Quiet ∨ ∃ pressed cpu, op = .key pressed cpu) (hk : Settled k)
    (hseq : Undivided fs k (.event op)) :
    Settled ((kernel fs).next k op) ∧ (FlagsTrue k → FlagsTrue ((kernel fs).next k op)) := by
  obtain ⟨⟨stack₀,hsound⟩,stack,hs⟩ := hk
  have hk : Settled k := ⟨⟨stack₀,hsound⟩,stack,hs⟩
  obtain ⟨stack',hs',hreading⟩ := step_reseats hshell hop hs hseq hsound.room
  refine ⟨⟨sound_event hshell ⟨stack₀,hsound⟩ hseq,stack',hs'⟩,?_⟩
  intro hflags t
  rw [step_wanted fs (hseq.proper op rfl) hk.inRange hop, hs'.pending, hreading, ← hs.pending]
  exact hflags t

/-- A flag is wrong after a step exactly when the step calls terminal_read and is refused. -/
theorem reading_step {fs : FileSystem} (hshell : fs.Loadable (text "shell")) {op : ReadOp}
    (hk : Settled k) (hseq : Undivided fs k op) :
    Settled ((readings fs).next k op) ∧
      (FlagsTrue k → (FlagsTrue ((readings fs).next k op) ↔ Accepted k op)) := by
  have hother : op.arguments k = none → Accepted k op := fun hnone null nbytes hsome => by
    rw [hnone] at hsome
    cases hsome
  have hkept : ∀ {k'}, (Settled k' ∧ (FlagsTrue k → FlagsTrue k')) → op.arguments k = none →
      Settled k' ∧ (FlagsTrue k → (FlagsTrue k' ↔ Accepted k op)) :=
    fun h hnone => ⟨h.1,fun hk => iff_of_true (h.2 hk) (hother hnone)⟩
  cases op with
  | terminalRead null nbytes =>
    obtain ⟨hsettled,hflags⟩ := terminalRead_flags hk (hseq.calls trivial) null nbytes
    exact ⟨hsettled,fun hk => (hflags hk).trans (accepted_iff rfl).symm⟩
  | event op =>
    have hquiet := fun hop => quiet_flags hshell hop hk hseq
    cases op with
    | read fd null nbytes cpu =>
      have hidle := hseq.calls trivial
      by_cases hreads : k.ReadsTerminal fd null
      · have hnext : (readings fs).next k (.event (.read fd null nbytes cpu)) =
            (terminalRead null nbytes k).2 := congrArg Prod.snd (read_terminal fs nbytes cpu hreads)
        have harguments : ReadOp.arguments k (.event (.read fd null nbytes cpu)) =
            some (null,nbytes) := if_pos hreads
        obtain ⟨hsettled,hflags⟩ := terminalRead_flags hk hidle null nbytes
        rw [hnext]
        exact ⟨hsettled,fun hk => (hflags hk).trans (accepted_iff harguments).symm⟩
      · obtain ⟨w,hw,hafter⟩ := read_after fs nbytes cpu hreads
        refine hkept (hafter.same hk hidle ?_) (if_neg hreads)
        rintro limit rfl
        rcases hw with hw | hw
        · exact hidle ⟨limit,hw.symm⟩
        · cases hw
    | resume =>
      refine hkept ?_ rfl
      have hnext : (readings fs).next k (.event .resume) = (resume k).2 := rfl
      rw [hnext]
      rcases resume_after k with hsame | hdone | ⟨hidle,hafter⟩
      · rw [hsame]
        exact ⟨hk,id⟩
      · obtain ⟨hsettled,hflags⟩ := hdone.flags hk
        exact ⟨hsettled,fun hk => (hflags hk).mpr (iff_of_false (not_not.mpr rfl) nofun)⟩
      · exact hafter.same hk hidle nofun
    | key pressed cpu => exact hkept (hquiet (.inr ⟨pressed,cpu,rfl⟩)) rfl
    | _ => exact hkept (hquiet (.inl trivial)) rfl

/-! ### Enter -/

/-- Enter on a terminal whose flag is down empties its line. -/
theorem enter_emptied {term : ℕ} (hwanted : (k.terminal term).readWanted = 0) :
    Emptied term (enter term k) := by
  have hinput := congrFun (enter_input term k) term
  have hclear : ¬(k.input term).readWanted ≠ 0 := not_not.mpr hwanted
  rw [if_neg hclear, Function.update_self] at hinput
  have hcells : ∀ i < keyBuffSize, ((enter term k).terminal term).keyboardBuffer i = noke := by
    have hrow : ((nextRow term k).terminal term).readWanted = (k.terminal term).readWanted :=
      congrArg Input.readWanted (congrFun (nextRow_screenOnly term k).input term)
    intro i hi
    simp only [enter]
    rw [if_neg (by rw [hrow]; exact hclear), Kernel.onTerminal_terminal_self]
    exact clearKeyBuf_cells term (nextRow term k) hi
  generalize enter term k = k' at *
  refine ⟨?_,hcells,congrArg Input.enterFlag hinput,?_⟩
  · have hline : (k'.input term).line = [] := congrArg Input.line hinput
    have hlength := k'.input_line_length term
    rw [hline] at hlength
    exact hlength.symm
  · exact (congrArg Input.readWanted hinput).trans hwanted

theorem enterPress_emptied (hwanted : (k.terminal k.viewingTerm).readWanted = 0) :
    Emptied k.viewingTerm (enterPress k) := by
  have hend := congrFun (endLine_registers k k.viewingTerm) k.viewingTerm
  rw [enterPress_eq]
  generalize endLine k.viewingTerm k = k' at *
  simp only [submitLine]
  generalize u32 ((k'.terminal k.viewingTerm).keyboardBufIdx-1) = n
  have hsaved : ((k'.onTerminal k.viewingTerm (Terminal.saveLine n)).terminal
      k.viewingTerm).readWanted = 0 := by
    rw [Kernel.onTerminal_terminal_self]
    exact (congrArg Registers.wanted hend).trans hwanted
  have henter := enter_emptied (k := { k'.onTerminal k.viewingTerm (Terminal.saveLine n) with
    histCopies := n :: k'.histCopies }) hsaved
  generalize enter k.viewingTerm { k'.onTerminal k.viewingTerm (Terminal.saveLine n) with
    histCopies := n :: k'.histCopies } = k'' at *
  have hlimit : ∃ cnt, (k''.terminal k.viewingTerm).limitHistory =
      { k''.terminal k.viewingTerm with histCnt := cnt } := by
    unfold Terminal.limitHistory
    split_ifs
    · exact ⟨maxHist,rfl⟩
    · exact ⟨_,rfl⟩
  obtain ⟨cnt,hcnt⟩ := hlimit
  have hself : (k''.onTerminal k.viewingTerm Terminal.limitHistory).terminal k.viewingTerm = _ :=
    (Kernel.onTerminal_terminal_self ..).trans hcnt
  constructor
  · rw [hself]
    exact henter.idx
  · rw [hself]
    exact henter.cells
  · rw [hself]
    exact henter.enterFlag
  · rw [hself]
    exact henter.readWanted

theorem enterKey_emptied (fs : FileSystem) (cpu : Cpu)
    (hwanted : (k.terminal k.viewingTerm).readWanted = 0) :
    Emptied k.viewingTerm ((kernel fs).next k (.key 0x1C cpu)) := by
  have hpress : Emptied k.viewingTerm (enterPress { k with interrupts := false }) :=
    enterPress_emptied (k := { k with interrupts := false }) hwanted
  exact ⟨hpress.idx,hpress.cells,hpress.enterFlag,hpress.readWanted⟩

end

/-! ### Runs -/

theorem registers_wanted (k : Kernel) (t : ℕ) :
    (k.registers t).wanted = (k.terminal t).readWanted := rfl

theorem initial_wanted (pcb : ℕ → PCB) (phys : ℕ → UInt8) (t : ℕ) :
    ((initial pcb phys).terminal t).readWanted = 0 := by
  have hregisters := congrFun (initial_prints pcb phys).registers t
  have hzero : ((blank pcb phys).registers t).wanted = 0 := by
    simp only [Kernel.registers, blank, setTerminals]
    split_ifs <;> rfl
  rw [← registers_wanted, hregisters]
  exact hzero

theorem initial_waiting (pcb : ℕ → PCB) (phys : ℕ → UInt8) :
    (initial pcb phys).waiting = fun _ => none := by
  have hblank : (blank pcb phys).waiting = fun _ => none := rfl
  have hclear := (termClear_screenOnly 0 (blank pcb phys)).waiting.trans hblank
  simp only [initial, terminalInit]
  rw [← blank]
  generalize termClear 0 (blank pcb phys) = k at *
  have hmove : (moveCursor 0 { k with processCnt := 0, termsOn := 1 }).waiting = k.waiting :=
    (moveCursor_screenOnly 0 _).waiting
  rw [hmove]
  exact hclear

theorem booted_outside (fs : FileSystem) (pcb : ℕ → PCB) (phys : ℕ → UInt8) (cpu : Cpu) (p : ℕ) :
    ¬InRead (booted fs pcb phys cpu).waiting p := by
  have hwaiting : (booted fs pcb phys cpu).waiting =
      rouse (initial pcb phys).waiting
        (execute fs cpu (some (text "shell")) (initial pcb phys)).1.pid := by
    rw [booted, next_execute, execute_waiting]
  rw [hwaiting, initial_waiting, rouse_nobody]
  rintro ⟨_,⟨⟩⟩

theorem booted_settled {fs : FileSystem} (hshell : fs.Loadable (text "shell")) (pcb : ℕ → PCB)
    (phys : ℕ → UInt8) (cpu : Cpu) :
    Settled (booted fs pcb phys cpu) ∧ FlagsTrue (booted fs pcb phys cpu) := by
  have houtside := booted_outside fs pcb phys cpu
  obtain ⟨stack,hsound⟩ := booted_sound hshell pcb phys cpu
  refine ⟨⟨⟨stack,hsound⟩,stack,hsound.hosts,hsound.running,?_⟩,?_⟩
  · exact fun t p _ hinside => absurd hinside (houtside p)
  · intro t
    have hquiet : (Op.execute (some (text "shell")) cpu).Quiet := trivial
    have hproper : (Op.execute (some (text "shell")) cpu).Proper := trivial
    have hwanted := (step_wanted fs hproper (initial_inRange pcb phys) (.inl hquiet) t).trans
      (initial_wanted pcb phys t)
    rw [← booted] at hwanted
    refine iff_of_false (not_not.mpr hwanted) ?_
    rintro ⟨p,-,hinside⟩
    exact houtside p hinside

/-- In a run in which a process makes no call from inside a read, the flags are true of the
pending reads as long as no terminal_read is refused, and no longer. Up to there Enter on a
terminal without a pending read leaves nothing behind. -/
theorem read_wanted_iff {fs : FileSystem} (hshell : fs.Loadable (text "shell")) (pcb : ℕ → PCB)
    (phys : ℕ → UInt8) (cpu : Cpu) {ops : List ReadOp}
    (hops : (readings fs).Along (Undivided fs) (booted fs pcb phys cpu) ops) :
    ((∀ p, p <+: ops → FlagsTrue ((readings fs).run (booted fs pcb phys cpu) p)) ↔
      (readings fs).Along Accepted (booted fs pcb phys cpu) ops) ∧
    ((readings fs).Along Accepted (booted fs pcb phys cpu) ops → ∀ p, p <+: ops → ∀ enter,
      let k := (readings fs).run (booted fs pcb phys cpu) p
      ¬k.Pending k.viewingTerm →
        Emptied k.viewingTerm ((kernel fs).next k (.key 0x1C enter))) := by
  obtain ⟨hsettled,htrue⟩ := booted_settled hshell pcb phys cpu
  have hiff : (∀ p, p <+: ops → FlagsTrue ((readings fs).run (booted fs pcb phys cpu) p)) ↔
      (readings fs).Along Accepted (booted fs pcb phys cpu) ops := by
    refine hops.always_iff (J := Settled) ?_ ?_ hsettled htrue
    · exact fun k op hk hseq => (reading_step hshell hk hseq).1
    · exact fun k op hk hseq => (reading_step hshell hk hseq).2
  refine ⟨hiff,?_⟩
  intro haccepted p hp enter k hpending
  have hflags : FlagsTrue k := hiff.mpr haccepted p hp
  have hwanted : (k.terminal k.viewingTerm).readWanted = 0 :=
    not_not.mp fun hne => hpending ((hflags k.viewingTerm).mp hne)
  exact enterKey_emptied fs enter hwanted

/-- A line of one letter, read by the first shell. -/
def oneRead : List ReadOp :=
  [.event (.read 0 false 128 ⟨2,2,fun _ => 0⟩),.event (.key 0x1E ⟨3,3,fun _ => 0⟩),
    .event (.key 0x1C ⟨3,3,fun _ => 0⟩),.event .resume]

theorem read_wanted_line :
    let k₀ := booted shellImage (fun _ => PCB.zero) (fun _ => 0) ⟨1,1,fun _ => 0⟩
    let k := (readings shellImage).run k₀ oneRead
    (∀ p, p <+: oneRead → FlagsTrue ((readings shellImage).run k₀ p)) ∧
      Emptied 0 ((kernel shellImage).next k (.key 0x1C ⟨4,4,fun _ => 0⟩)) := by
  intro k₀ k
  have houtside := booted_outside shellImage (fun _ => PCB.zero) (fun _ => 0) ⟨1,1,fun _ => 0⟩
  have hops : (readings shellImage).Along (Undivided shellImage) k₀ oneRead := by
    refine ⟨⟨?_,nofun,fun _ => houtside _⟩,⟨?_,nofun,nofun⟩,⟨?_,nofun,nofun⟩,⟨?_,nofun,nofun⟩,
      trivial⟩ <;>
    · rintro _ ⟨⟩
      trivial
  have haccepted : (readings shellImage).Along Accepted k₀ oneRead := by
    refine ⟨?_,nofun,nofun,nofun,trivial⟩
    intro null nbytes hread
    have hown : ReadOp.arguments k₀ (.event (.read 0 false 128 ⟨2,2,fun _ => 0⟩)) =
        some (false,128) := if_pos (by decide +kernel)
    rw [hown] at hread
    cases hread
    decide
  obtain ⟨hiff,henter⟩ := read_wanted_iff shellImage_loadable (fun _ => PCB.zero) (fun _ => 0)
    ⟨1,1,fun _ => 0⟩ hops
  have htrue := hiff.mpr haccepted
  have hview : k.viewingTerm = 0 := by decide +kernel
  have hdown : (k.terminal 0).readWanted = 0 := by decide +kernel
  have hidle : ¬k.Pending k.viewingTerm := by
    intro hpending
    have hup := (htrue oneRead (List.prefix_refl _) k.viewingTerm).mpr hpending
    rw [hview] at hup
    exact hup hdown
  have hempty : Emptied k.viewingTerm ((kernel shellImage).next k (.key 0x1C ⟨4,4,fun _ => 0⟩)) :=
    henter haccepted oneRead (List.prefix_refl _) _ hidle
  rw [hview] at hempty
  exact ⟨htrue,hempty⟩

/-- A read of fewer than no bytes is refused. Then Enter keeps a line that nobody waits for. -/
theorem read_wanted_stuck :
    let k₀ := booted shellImage (fun _ => PCB.zero) (fun _ => 0) ⟨1,1,fun _ => 0⟩
    let k := (readings shellImage).run k₀ [.event (.read 0 false (-1) ⟨2,2,fun _ => 0⟩)]
    let T := ((readings shellImage).run k [.event (.key 0x1E ⟨3,3,fun _ => 0⟩),
      .event (.key 0x1C ⟨3,3,fun _ => 0⟩)]).terminal 0
    (readings shellImage).Along (Undivided shellImage) k₀
        [.event (.read 0 false (-1) ⟨2,2,fun _ => 0⟩)] ∧
      (k.terminal 0).readWanted = 1 ∧ ¬k.Pending 0 ∧ T.keyboardBufIdx = 2 ∧ T.enterFlag = 1 := by
  intro k₀ k T
  have houtside := booted_outside shellImage (fun _ => PCB.zero) (fun _ => 0) ⟨1,1,fun _ => 0⟩
  have hchain : k.chain 0 = [0] := by decide +kernel
  have hwaiting : k.waiting 0 = none := by decide +kernel
  refine ⟨⟨⟨?_,nofun,fun _ => houtside _⟩,trivial⟩,by decide +kernel,?_,by decide +kernel,
    by decide +kernel⟩
  · rintro _ ⟨⟩
    trivial
  · rintro ⟨p,hp,limit,hinside⟩
    rw [hchain, List.mem_singleton] at hp
    subst hp
    rw [hwaiting] at hinside
    cases hinside

end GameOfThreads
