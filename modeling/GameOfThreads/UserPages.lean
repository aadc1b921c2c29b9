import GameOfThreads.CallerRuns
import GameOfThreads.PendingReads
import GameOfThreads.SparedMemory

/-! What user code reaches. As long as the kernel does not store into itself for a caller, these
are the frame of one process and the three screens: neither the kernel nor a process that does
not run lies behind any address. -/
namespace GameOfThreads
open Machine

/-! ### The window over all events -/

/-- The window is ready, and beyond the pages of the terminals it is empty. -/
structure Window.Sealed (w : Window) : Prop where
  ready : w.Ready
  beyond : ∀ i, numTerm ≤ i → w.entries i = 0

theorem Window.Sealed.switch {w : Window} (h : w.Sealed) {dest : ℕ} (hdest : dest < numTerm) :
    (w.switch dest).Sealed := by
  refine ⟨h.ready.switch hdest,?_⟩
  intro i hi
  have hview := h.ready.viewing
  refine (Function.update_of_ne (by omega) _ _).trans ?_
  exact (Function.update_of_ne (by omega) _ _).trans (h.beyond i hi)

theorem Window.Sealed.safe {k : Kernel} (h : k.window.Sealed) : k.video.Safe := by
  intro i
  by_cases hi : i < numTerm
  · right
    rw [show k.video.pageTabArrayVideo i = _ from h.ready.entries i hi]
    split_ifs
    · exact .inl rfl
    · exact .inr ⟨i,hi,rfl⟩
  · exact .inl (h.beyond i (by omega))

theorem step_sealed (fs : FileSystem) {op : Op} (hop : op.Proper) {k : Kernel}
    (h : k.window.Sealed) : ((kernel fs).next k op).window.Sealed := by
  rcases step_window fs hop k with heq | ⟨dest,hdest,heq⟩
  · exact heq ▸ h
  · exact heq ▸ h.switch hdest

/-! ### The user page over all events -/

/-- The user page is that of the running process, or of a PID without a process. -/
def Table.PageOwned (T : Table) (stack : ℕ → List ℕ) : Prop :=
  ∃ p < maxNumProc, T.pageDirUser = userEntry p ∧ (p = T.running ∨ ∀ t, p ∉ stack t)

/-- The stacks of a table are determined by its links. -/
theorem Hosts.unique {T T' : Table} {stack stack' : ℕ → List ℕ} (h : Hosts T stack)
    (h' : Hosts T' stack') (hprocess : T'.process = T.process) (hparent : T'.parent = T.parent)
    (hprogs : T'.totalProgs = T.totalProgs) : stack' = stack := by
  funext t
  have hlength : (stack' t).length = (stack t).length := by
    rw [← h'.progs, ← h.progs, hprogs]
  by_cases ht : stack t = []
  · rw [ht, List.length_nil] at hlength
    rw [ht, List.length_eq_zero_iff.mp hlength]
  · have ht' : stack' t ≠ [] := by
      intro hnil
      rw [hnil, List.length_nil] at hlength
      exact ht (List.length_eq_zero_iff.mp hlength.symm)
    have hlinked := (h'.forest.linked t ht').map_iterate
    rw [← hlinked, hlength, hprocess, hparent]
    exact (h.forest.linked t ht).map_iterate

/-- A change maps the process that it leaves running, or it leaves the processes alone. -/
theorem Change.page {op : Op} {cpu : Cpu} {T T' : Table} {out : Out} (h : Change op cpu T out T') :
    T'.pageDirUser = userEntry T'.running ∨
      (T'.process = T.process ∧ T'.parent = T.parent ∧ T'.totalProgs = T.totalProgs ∧
        T'.running = T.running ∧ (T'.pageDirUser = T.pageDirUser ∨
          ∃ pid, T.nextPid = some pid ∧ T'.pageDirUser = userEntry pid ∧ out = .exec .failed)) := by
  induction h with
  | same _ => exact .inr ⟨rfl,rfl,rfl,rfl,.inl rfl⟩
  | claim _ _ => exact .inr ⟨rfl,rfl,rfl,rfl,.inl rfl⟩
  | mapUser hpid => exact .inr ⟨rfl,rfl,rfl,rfl,.inr ⟨_,hpid,rfl,rfl⟩⟩
  | start _ _ => exact .inl (by simp [Table.start, Table.running])
  | back _ _ => exact .inl (by simp [Table.back, Table.running])
  | restart _ _ => exact .inl (by simp [Table.start, Table.running])
  | @marked T out T' _ ih =>
    have hparent : (T.onPcb T.running (PCB.setHaltStat 1)).parent = T.parent := by
      funext p
      by_cases hp : p = T.running
      · subst hp
        simp [Table.parent, Table.onPcb, PCB.setHaltStat]
      · simp [Table.parent, Table.onPcb, hp]
    rwa [hparent] at ih
  | shift _ _ _ => exact .inl rfl
  | view _ _ => exact .inr ⟨rfl,rfl,rfl,rfl,.inl rfl⟩
  | park _ _ _ _ _ _ => exact .inl (by simp [Table.start, Table.running])

theorem Change.pageOwned {op : Op} {cpu : Cpu} {T T' : Table} {out : Out}
    (h : Change op cpu T out T') {stack : ℕ → List ℕ} (hosts : Hosts T stack)
    (hrunning : stack T.currentTerm ≠ []) (howned : T.PageOwned stack) :
    ∃ stack', Hosts T' stack' ∧ stack' T'.currentTerm ≠ [] ∧ T'.PageOwned stack' := by
  obtain ⟨stack',hosts',hrunning',-⟩ := h.hosts hosts hrunning
  refine ⟨stack',hosts',hrunning',?_⟩
  rcases h.page with hmapped | ⟨hprocess,hparent,hprogs,hsame,hpage⟩
  · exact ⟨T'.running,(hosts'.member _ _ (hosts'.top_mem hrunning')).1,hmapped,.inl rfl⟩
  rw [hosts.unique hosts' hprocess hparent hprogs]
  rcases hpage with hpage | ⟨pid,hpid,hpage,-⟩
  · obtain ⟨p,hp,huser,howner⟩ := howned
    exact ⟨p,hp,hpage.trans huser,hsame ▸ howner⟩
  · exact ⟨pid,Table.nextPid_lt hpid,hpage,.inr (hosts.fresh (Table.nextPid_free hpid))⟩

/-- An event may start the first shell of a terminal. -/
def Op.Switches : Op → Prop
  | .switch _ _ => True
  | .key _ _ => True
  | _ => False

/-- The words of a command fit their buffers, and below the process limit there is a PID for
the first shell of a terminal. -/
structure Affordable (fs : FileSystem) (k : Kernel) (op : Op) : Prop where
  proper : op.Proper
  fits : ∀ command cpu, op = .execute command cpu → (execute fs cpu command k).1 ≠ .overrun
  room : op.Switches → k.processCnt+1 ≤ maxNumProc → ∃ pid, k.table.nextPid = some pid

/-- The processes are accounted for, and each page of user code has an owner. -/
structure Owned (k : Kernel) : Prop where
  account : ∃ stack, Hosts k.table stack ∧ stack k.currentTerm ≠ [] ∧ k.table.PageOwned stack
  window : k.window.Sealed
  on : k.termsOn = 1

theorem Owned.inRange {k : Kernel} (h : Owned k) : k.InRange := by
  obtain ⟨stack,hosts,-,-⟩ := h.account
  exact ⟨hosts.viewing,hosts.current⟩

theorem Owned.running_lt {k : Kernel} (h : Owned k) : k.running < maxNumProc := by
  obtain ⟨stack,hosts,hrunning,-⟩ := h.account
  exact (hosts.member _ _ (hosts.top_mem hrunning)).1

theorem DesOnly.pageOwned {T T' : Table} (h : DesOnly T T') {stack : ℕ → List ℕ}
    (howned : T.PageOwned stack) : T'.PageOwned stack := by
  rw [h.rest]
  exact howned

/-- An event leaves the processes alone or is a change of the table; and no execute in it fails
but one that a process has called. -/
theorem step_change {fs : FileSystem} (hshell : fs.Loadable (text "shell")) {k : Kernel} {op : Op}
    {stack : ℕ → List ℕ} (hosts : Hosts k.table stack) (hrunning : stack k.currentTerm ≠ [])
    (hop : Affordable fs k op) : DesOnly k.table ((kernel fs).next k op).table ∨
    ∃ op' cpu, Change op' cpu k.table ((kernel fs).out k op) ((kernel fs).next k op).table ∧
      (Started ((kernel fs).out k op) ∨ ∃ command cpu, op = .execute command cpu) := by
  cases op with
  | execute command cpu =>
    exact .inr ⟨.execute command cpu,cpu,execute_change _ fs cpu command k,.inr ⟨_,_,rfl⟩⟩
  | halt status cpu =>
    obtain ⟨hchange,hstarted⟩ := halt_change (.halt status cpu) hshell cpu status hosts hrunning
    exact .inr ⟨.halt status cpu,cpu,hchange,.inl hstarted⟩
  | squash cpu =>
    obtain ⟨hchange,hstarted⟩ := squash_change (.squash cpu) hshell cpu hosts hrunning
    exact .inr ⟨.squash cpu,cpu,hchange,.inl hstarted⟩
  | pit cpu =>
    obtain ⟨hchange,hstarted⟩ := pitHandler_change (.pit cpu) cpu hosts.current
    exact .inr ⟨.pit cpu,cpu,hchange,.inl hstarted⟩
  | switch dest cpu =>
    obtain ⟨hchange,hstarted⟩ := terminalSwitch_change hshell cpu hop.proper
      fun _ _ => hop.room trivial
    exact .inr ⟨.switch dest cpu,cpu,hchange,.inl hstarted⟩
  | key pressed cpu =>
    rcases keyboardSwitch_cases fs cpu pressed { k with interrupts := false } with
      ⟨hout,ht⟩ | ⟨dest,hdest,-,heq⟩
    · have hquiet : (kernel fs).out k (.key pressed cpu) = .quiet := hout
      have hsame : ((kernel fs).next k (.key pressed cpu)).table = k.table := ht
      rw [hsame, hquiet]
      exact .inr ⟨.key pressed cpu,cpu,.same (.inl rfl),.inl nofun⟩
    · obtain ⟨hchange,hstarted⟩ := terminalSwitch_change hshell cpu
        (k := { k with interrupts := false }) hdest fun _ _ => hop.room trivial
      have hkey : ((kernel fs).next k (.key pressed cpu)).table =
          (terminalSwitch fs cpu k.viewingTerm dest { k with interrupts := false }).2.table :=
        congrArg (fun r => Kernel.table r.2) heq
      have hout : (kernel fs).out k (.key pressed cpu) =
          (terminalSwitch fs cpu k.viewingTerm dest { k with interrupts := false }).1 :=
        congrArg (fun r => r.1) heq
      rw [hkey, hout]
      exact .inr ⟨.switch dest cpu,cpu,hchange,.inl hstarted⟩
  | _ => exact .inl (fileCall_desOnly k fs trivial)

theorem account_step {fs : FileSystem} (hshell : fs.Loadable (text "shell")) {k : Kernel} {op : Op}
    (h : Owned k) (hop : Affordable fs k op) :
    ∃ stack, Hosts ((kernel fs).next k op).table stack ∧
      stack ((kernel fs).next k op).currentTerm ≠ [] ∧
      ((kernel fs).next k op).table.PageOwned stack := by
  obtain ⟨stack,hosts,hrunning,howned⟩ := h.account
  rcases step_change hshell hosts hrunning hop with hdes | ⟨op',cpu,hchange,-⟩
  · refine ⟨stack,hdes.hosts hosts,?_,hdes.pageOwned howned⟩
    have hcurrent := congrArg Table.currentTerm hdes.rest
    rwa [show ((kernel fs).next k op).currentTerm = k.currentTerm from hcurrent]
  · exact hchange.pageOwned hosts hrunning howned

theorem step_on (fs : FileSystem) {k : Kernel} {op : Op} (hin : k.InRange) (hon : k.termsOn = 1) :
    ((kernel fs).next k op).termsOn = 1 := by
  have hnone : OffScreen ∅ := ⟨Set.empty_disjoint _,fun _ _ => Set.empty_disjoint _⟩
  have hspares : Spares ∅ k ((kernel fs).next k op) :=
    step_spares hnone fs hin fun _ _ => Set.empty_disjoint _
  exact (hspares hon).1

theorem owned_step {fs : FileSystem} (hshell : fs.Loadable (text "shell")) {k : Kernel} {op : Op}
    (h : Owned k) (hop : Affordable fs k op) : Owned ((kernel fs).next k op) where
  account := account_step hshell h hop
  window := step_sealed fs hop.proper h.window
  on := step_on fs h.inRange h.on

theorem initial_window (pcb : ℕ → PCB) (phys : ℕ → UInt8) :
    (initial pcb phys).window = (setTerminals (staticStorage pcb phys)).window := by
  have hclear := (termClear_screenOnly 0 (setTerminals (staticStorage pcb phys))).window
  rw [← hclear]
  simp only [initial, terminalInit]
  generalize termClear 0 (setTerminals (staticStorage pcb phys)) = k
  exact (moveCursor_screenOnly 0 { k with processCnt := 0, termsOn := 1 }).window

theorem initial_sealed (pcb : ℕ → PCB) (phys : ℕ → UInt8) :
    (initial pcb phys).window.Sealed := by
  refine ⟨initial_ready pcb phys,?_⟩
  intro i hi
  have hentries : (initial pcb phys).window.entries = Function.update (Function.update
      (Function.update (fun i => if i = 0 then videoEntry else 0) 0 videoEntry) 1 (bufferEntry 1)) 2
        (bufferEntry 2) := congrArg Window.entries (initial_window pcb phys)
  unfold numTerm at hi
  rw [hentries, Function.update_of_ne (by omega), Function.update_of_ne (by omega),
    Function.update_of_ne (by omega), if_neg (by omega)]

theorem initial_on (pcb : ℕ → PCB) (phys : ℕ → UInt8) : (initial pcb phys).termsOn = 1 := by
  simp only [initial, terminalInit]
  generalize termClear 0 (setTerminals (staticStorage pcb phys)) = k
  rw [(moveCursor_screenOnly 0 _).rest]

theorem Sound.owned {k : Kernel} {stack : ℕ → List ℕ} (h : Sound k.table stack)
    (hwindow : k.window.Sealed) (hon : k.termsOn = 1) : Owned k where
  account :=
    ⟨stack,h.hosts,h.running,k.table.running,(h.hosts.member _ _ (h.hosts.top_mem h.running)).1,
      h.mapped.1,.inl rfl⟩
  window := hwindow
  on := hon

theorem booted_owned {fs : FileSystem} (hshell : fs.Loadable (text "shell")) (pcb : ℕ → PCB)
    (phys : ℕ → UInt8) (cpu : Cpu) : Owned (booted fs pcb phys cpu) := by
  obtain ⟨stack,hsound⟩ := booted_sound hshell pcb phys cpu
  have hproper : (Op.execute (some (text "shell")) cpu).Proper := trivial
  have hwindow : (booted fs pcb phys cpu).window.Sealed :=
    step_sealed fs hproper (initial_sealed pcb phys)
  have hon : (booted fs pcb phys cpu).termsOn = 1 :=
    step_on fs (initial_inRange pcb phys) (initial_on pcb phys)
  exact hsound.owned hwindow hon

theorem Owned.pokes {k : Kernel} (h : Owned k) (l : List (ℕ × UInt8)) : Owned (k.pokes l) :=
  ⟨h.account,h.window,h.on⟩

/-! ### Runs with pointers -/

/-- The state in which the first shell begins. -/
def Callers.booted (A : PageArrays) (fs : FileSystem) (pcb : ℕ → PCB) (phys : ℕ → UInt8)
    (cpu : Cpu) : Callers :=
  (callers A fs).next (Callers.initial pcb phys) ⟨.execute (some (text "shell")) cpu,0,cpu⟩

theorem run_callsFromBoot (A : PageArrays) (fs : FileSystem) (pcb : ℕ → PCB) (phys : ℕ → UInt8)
    (cpu : Cpu) (calls : List Call) :
    (callers A fs).run (Callers.initial pcb phys) (callsFromBoot cpu calls) =
      (callers A fs).run (Callers.booted A fs pcb phys cpu) calls := by
  rw [callsFromBoot, System.run_cons, Callers.booted]

/-- An event that the kernel can afford and whose stores stay out of the kernel. -/
structure Allowed (A : PageArrays) (fs : FileSystem) (s : Callers) (c : Call) : Prop where
  affordable : Affordable fs s.kernel c.base
  clear : Clear A fs s c

section
variable (A : PageArrays) {fs : FileSystem} (hshell : fs.Loadable (text "shell"))
include hshell

theorem callersBooted_eq (pcb : ℕ → PCB) (phys : ℕ → UInt8) (cpu : Cpu) :
    Callers.booted A fs pcb phys cpu = ⟨booted fs pcb phys cpu,fun _ => 0,false⟩ := by
  have hpid : (initial pcb phys).table.nextPid = some 0 := by
    rw [initial_table, bootTable_nextPid]
  obtain ⟨entry,hr,-⟩ := execute_shell hshell cpu hpid
  have hfits : (execute fs cpu (some (text "shell")) (initial pcb phys)).1 ≠ .overrun := by
    rw [hr]
    exact ExecResult.noConfusion
  rw [Callers.booted, Callers.initial, booted, next_execute]
  generalize initial pcb phys = k at *
  exact congrArg Prod.snd (callers_execute (s := ⟨k,fun _ => 0,false⟩) rfl hfits)

theorem callersBooted_owned (pcb : ℕ → PCB) (phys : ℕ → UInt8) (cpu : Cpu) :
    Owned (Callers.booted A fs pcb phys cpu).kernel ∧
      (Callers.booted A fs pcb phys cpu).lost = false := by
  have howned := booted_owned hshell pcb phys cpu
  rw [callersBooted_eq A hshell]
  generalize booted fs pcb phys cpu = k at *
  exact ⟨howned,rfl⟩

theorem callers_owned {s : Callers} {c : Call} (h : Owned s.kernel ∧ s.lost = false)
    (hc : Allowed A fs s c) : Owned ((callers A fs).next s c).kernel ∧
      ((callers A fs).next s c).lost = false := by
  obtain ⟨hnext,hlost⟩ := clear_next h.2 hc.clear
  refine ⟨?_,hlost⟩
  rw [hnext]
  exact (owned_step hshell h.1 hc.affordable).pokes _

end

/-! ### User accesses -/

section
variable (A : PageArrays) {k : Kernel} {p a : ℕ} (write : Bool)

theorem user_screen (hwindow : k.window.Sealed) {t i : ℕ} (ht : t < numTerm) (hi : i < pagesSize) :
    (k.pageMap A).translate ⟨true,write⟩ (termPage t+i) =
      some (screenFrames.place k.viewingTerm t+i) := by
  have hmapped : k.video.Mapped k.viewingTerm := hwindow.ready.entries
  have hentry := hmapped.entry ht
  have haligned := Video.place_aligned k.viewingTerm t
  generalize screenFrames.place k.viewingTerm t = place at *
  unfold pagesSize at hi haligned
  unfold numTerm at ht
  have hindex : (termPage t+i)/smallPage/1024 = vidPage := by
    unfold termPage mem132 pagesSize smallPage vidPage
    omega
  have hslot : (termPage t+i)/smallPage % 1024 = t := by
    unfold termPage mem132 pagesSize smallPage
    omega
  have hoffset : (termPage t+i) % smallPage = i := by
    unfold termPage mem132 pagesSize smallPage
    omega
  have hwalk := walk_window A k hindex
  rw [hslot, hentry, if_neg (by omega)] at hwalk
  have huser : (place+7)/4 % 2 = 1 := by omega
  have hwrite : (place+7)/2 % 2 = 1 := by omega
  rw [PageMap.translate_of_walk hwalk (by simp [Mapping.allows, huser, hwrite]), hoffset]
  have hframe : (place+7)/pagesSize*smallPage = place := by
    unfold pagesSize smallPage
    omega
  rw [hframe]

/-- An entry that is the kernel's stops user code. -/
theorem user_kernel {M : PageMap} {m : Mapping} (hwalk : M.walk (a/smallPage) = some m)
    (hm : m.user = false) : M.translate ⟨true,write⟩ a = none := by
  rw [PageMap.translate, hwalk, Option.filter_some, if_neg (by simp [Mapping.allows, hm])]
  rfl

theorem user_elsewhere (hwindow : k.window.Sealed) (ha : a < 4294967296)
    (hpage : a/fourMB ≠ userEnt) (hscreen : ∀ t < numTerm, a/pagesSize ≠ termPage t/pagesSize) :
    (k.pageMap A).translate ⟨true,write⟩ a = none := by
  have hindex : a/smallPage/1024 = a/fourMB := Nat.div_div_eq_div_mul ..
  by_cases hlow : a/fourMB = 0
  · have hwalk := walk_low A k (hindex.trans hlow)
    split_ifs at hwalk
    · exact user_kernel write hwalk rfl
    · exact PageMap.translate_of_absent hwalk
  by_cases hkernel : a/fourMB = 1
  · exact user_kernel write (walk_kernel A k (hindex.trans hkernel)) rfl
  by_cases hvideo : a/fourMB = vidPage
  · have hslot : numTerm ≤ a/smallPage % 1024 := by
      by_contra hlt
      apply hscreen (a/smallPage % 1024) (by omega)
      unfold fourMB vidPage at hvideo
      unfold smallPage termPage mem132 pagesSize
      omega
    have hwalk := walk_window A k (hindex.trans hvideo)
    have hempty : k.video.pageTabArrayVideo (a/smallPage % 1024) = 0 := hwindow.beyond _ hslot
    rw [hempty, if_pos rfl] at hwalk
    exact PageMap.translate_of_absent hwalk
  · have hbound : a/smallPage < 1024*1024 := by
      unfold smallPage
      omega
    exact PageMap.translate_of_absent
      (walk_rest A k hbound (hindex ▸ hlow) (hindex ▸ hkernel) (hindex ▸ hpage) (hindex ▸ hvideo))

/-- User code goes to the frame of the user page and to the screens, and faults elsewhere. -/
theorem user_translate_iff (hp : p < maxNumProc) (huser : k.pageDirUser = userEntry p)
    (hwindow : k.window.Sealed) (ha : a < 4294967296) (x : ℕ) :
    (k.pageMap A).translate ⟨true,write⟩ a = some x ↔
      a/fourMB = userEnt ∧ x = eightMB+fourMB*p+a % fourMB ∨
      ∃ t < numTerm, ∃ i < pagesSize,
        a = termPage t+i ∧ x = screenFrames.place k.viewingTerm t+i := by
  constructor
  · intro htranslate
    by_cases hpage : a/fourMB = userEnt
    · rw [user_page A ⟨true,write⟩ hp huser hpage] at htranslate
      exact .inl ⟨hpage,(Option.some.inj htranslate).symm⟩
    by_cases hscreen : ∃ t < numTerm, a/pagesSize = termPage t/pagesSize
    · obtain ⟨t,ht,hsame⟩ := hscreen
      have ha' : a = termPage t+a % pagesSize := by
        unfold termPage mem132 pagesSize at *
        omega
      have hi : a % pagesSize < pagesSize := Nat.mod_lt _ (by decide)
      rw [ha', user_screen A write hwindow ht hi] at htranslate
      exact .inr ⟨t,ht,a % pagesSize,hi,ha',(Option.some.inj htranslate).symm⟩
    · simp only [not_exists, not_and] at hscreen
      rw [user_elsewhere A write hwindow ha hpage hscreen] at htranslate
      cases htranslate
  · rintro (⟨hpage,rfl⟩ | ⟨t,ht,i,hi,rfl,rfl⟩)
    · exact user_page A ⟨true,write⟩ hp huser hpage
    · exact user_screen A write hwindow ht hi

end

/-- The physical bytes behind the addresses of user code. -/
def Kernel.userReach (A : PageArrays) (k : Kernel) : Set ℕ :=
  {x | ∃ a < 4294967296, ∃ write, (k.pageMap A).translate ⟨true,write⟩ a = some x}

/-- The three screens, where they are while a terminal is in view. -/
def screenMemory (view : ℕ) : Set ℕ :=
  {x | ∃ t < numTerm, ∃ i < pagesSize, x = screenFrames.place view t+i}

theorem userReach_eq (A : PageArrays) {k : Kernel} {p : ℕ} (hp : p < maxNumProc)
    (huser : k.pageDirUser = userEntry p) (hwindow : k.window.Sealed) :
    k.userReach A = frame p ∪ screenMemory k.viewingTerm := by
  ext x
  constructor
  · rintro ⟨a,ha,write,htranslate⟩
    rcases (user_translate_iff A write hp huser hwindow ha x).mp htranslate with
      ⟨-,rfl⟩ | ⟨t,ht,i,hi,-,rfl⟩
    · have hoffset : a % fourMB < fourMB := Nat.mod_lt _ (by decide)
      exact .inl ⟨Nat.le_add_right ..,Nat.add_lt_add_left hoffset _⟩
    · exact .inr ⟨t,ht,i,hi,rfl⟩
  · rintro (⟨hlow,hhigh⟩ | ⟨t,ht,i,hi,rfl⟩)
    · have ha : mem128+(x-(eightMB+fourMB*p)) < 4294967296 := by
        unfold maxNumProc at hp
        unfold eightMB fourMB at *
        unfold mem128
        omega
      refine ⟨_,ha,false,(user_translate_iff A false hp huser hwindow ha x).mpr (.inl ⟨?_,?_⟩)⟩
      · unfold mem128 eightMB fourMB userEnt at *
        omega
      · unfold mem128 eightMB fourMB at *
        omega
    · have ha : termPage t+i < 4294967296 := by
        unfold numTerm at ht
        unfold pagesSize at hi
        unfold termPage mem132 pagesSize
        omega
      exact ⟨_,ha,false,user_screen A false hwindow ht hi⟩

/-- A process of some terminal. -/
def Kernel.Alive (k : Kernel) (p : ℕ) : Prop := ∃ t < numTerm, p ∈ k.chain t

theorem alive_stack {k : Kernel} {stack : ℕ → List ℕ} (hosts : Hosts k.table stack) (p : ℕ) :
    k.Alive p ↔ ∃ t, p ∈ stack t := by
  constructor
  · rintro ⟨t,-,ht⟩
    exact ⟨t,chain_eq hosts t ▸ ht⟩
  · rintro ⟨t,ht⟩
    exact ⟨t,live_lt hosts ht,(chain_eq hosts t).symm ▸ ht⟩

theorem screenMemory_kernelFrame (view : ℕ) : Disjoint (screenMemory view) kernelFrame := by
  rw [Set.disjoint_left]
  rintro _ ⟨t,ht,i,hi,rfl⟩ ⟨hlow,hhigh⟩
  simp only [Frames.place, screenFrames] at hlow hhigh
  unfold numTerm at ht
  unfold pagesSize videoAddr mem32 fourMB eightMB at *
  split_ifs at * <;> omega

theorem screenMemory_frame (view : ℕ) {p : ℕ} (hp : p < maxNumProc) :
    Disjoint (screenMemory view) (frame p) := by
  rw [Set.disjoint_left]
  rintro _ ⟨t,ht,i,hi,rfl⟩ ⟨hlow,hhigh⟩
  simp only [Frames.place, screenFrames] at hlow hhigh
  unfold numTerm at ht
  unfold maxNumProc at hp
  unfold pagesSize videoAddr mem32 fourMB eightMB at *
  split_ifs at * <;> omega

/-- After every such run user code reaches the screens and one frame: that of the running
process, or of a PID without a process. The kernel, and with it the page tables, and the frames
of all other processes are out of its reach. -/
theorem user_confined (A : PageArrays) {fs : FileSystem} (hshell : fs.Loadable (text "shell"))
    (pcb : ℕ → PCB) (phys : ℕ → UInt8) (cpu : Cpu) (calls : List Call)
    (hcalls : (callers A fs).Along (Allowed A fs) (Callers.booted A fs pcb phys cpu) calls) :
    let k := ((callers A fs).run (Callers.initial pcb phys) (callsFromBoot cpu calls)).kernel
    (∃ p < maxNumProc, k.userReach A = frame p ∪ screenMemory k.viewingTerm ∧
      (p = k.running ∨ ¬k.Alive p)) ∧
    Disjoint (k.userReach A) kernelFrame ∧
    ∀ q, k.Alive q → q ≠ k.running → Disjoint (k.userReach A) (frame q) := by
  intro k
  have howned : Owned k := by
    rw [show k = _ from congrArg Callers.kernel (run_callsFromBoot A fs pcb phys cpu calls)]
    exact (System.Along.invariant (I := fun s => Owned s.kernel ∧ s.lost = false)
      (fun _ _ h hc => callers_owned A hshell h hc) (callersBooted_owned A hshell pcb phys cpu)
        hcalls).1
  obtain ⟨⟨stack,hosts,hrunning,p,hp,huser,howner⟩,hwindow,-⟩ := howned
  have hreach := userReach_eq A hp huser hwindow
  refine ⟨⟨p,hp,hreach,howner.imp id fun hfree hlive => ?_⟩,?_,?_⟩
  · obtain ⟨t,ht⟩ := (alive_stack hosts p).mp hlive
    exact hfree t ht
  · rw [hreach, Set.disjoint_union_left]
    exact ⟨frame_kernelFrame p,screenMemory_kernelFrame _⟩
  · intro q hq hne
    obtain ⟨t,ht⟩ := (alive_stack hosts q).mp hq
    rw [hreach, Set.disjoint_union_left]
    refine ⟨frame_disjoint ?_,screenMemory_frame _ (hosts.member t q ht).1⟩
    rintro rfl
    rcases howner with hown | hfree
    · exact hne hown
    · exact hfree t ht

/-- A second shell, one on another terminal, a tick, and a call that stores a pointer. -/
def shellsAndVidmap : List Call :=
  [⟨.execute (some (text "shell")) ⟨4,8,fun _ => 0⟩,0,⟨0,0,fun _ => 0⟩⟩,
    ⟨.switch 1 ⟨0,0,fun _ => 0⟩,0,⟨0,0,fun _ => 0⟩⟩,⟨.pit ⟨0,0,fun _ => 0⟩,0,⟨0,0,fun _ => 0⟩⟩,
    ⟨.vidmap 0,0x08000010,⟨0,0,fun _ => 0⟩⟩]

section
variable {A : PageArrays} {fs : FileSystem} {s : Callers} {fault : Cpu}

theorem allowed_execute {command : Option (List UInt8)} {cpu : Cpu}
    (hfits : ∀ filename args, parseArgs command = some (filename,args) →
      filename.length < comBufSize ∧ args.length < comBufSize) :
    Allowed A fs s ⟨.execute command cpu,0,fault⟩ := by
  refine ⟨⟨trivial,?_,False.elim⟩,.of_not_stores (fun h => h) (Nat.zero_lt_succ _) ?_⟩
  · rintro _ _ ⟨⟩
    exact execute_fits hfits
  · rintro _ _ ⟨⟩
    exact hfits

theorem shell_fits (filename args : List UInt8)
    (h : parseArgs (some (text "shell")) = some (filename,args)) :
    filename.length < comBufSize ∧ args.length < comBufSize := by
  cases h
  decide

theorem allowed_vidmap {p dest : ℕ} (hp : p < maxNumProc)
    (huser : s.kernel.pageDirUser = userEntry p) (hword : dest < 4294967296)
    (hdest : Inside dest 4) (screenStart : ℕ) :
    Allowed A fs s ⟨.vidmap screenStart,dest,fault⟩ :=
  ⟨⟨trivial,fun _ _ => Op.noConfusion,False.elim⟩,
    ⟨hword,fun _ _ _ _ => Op.noConfusion,fun _ => Op.noConfusion,fun _ _ => Op.noConfusion,
      fun _ _ _ => hdest.outside A hp huser⟩,fun _ _ _ _ => Op.noConfusion,
    fun _ _ _ _ => Op.noConfusion,fun _ _ => Op.noConfusion⟩

end

theorem user_confined_shells :
    Disjoint (((callers firstPages shellImage).run
      (Callers.initial (fun _ => PCB.zero) fun _ => 0)
      (callsFromBoot ⟨0,0,fun _ => 0⟩ shellsAndVidmap)).kernel.userReach firstPages)
        kernelFrame := by
  have hcalls : (callers firstPages shellImage).Along (Allowed firstPages shellImage)
      (Callers.booted firstPages shellImage (fun _ => PCB.zero) (fun _ => 0) ⟨0,0,fun _ => 0⟩)
      shellsAndVidmap := by
    rw [callersBooted_eq firstPages shellImage_loadable]
    have hinside : Inside 0x08000010 4 := fun i hi => by omega
    refine ⟨allowed_execute shell_fits,
      ⟨⟨Nat.le_of_ble_eq_true rfl,?_,?_⟩,.of_not_stores (fun h => h) (by decide) ?_⟩,
      ⟨⟨trivial,?_,False.elim⟩,.of_not_stores (fun h => h) (by decide) ?_⟩,
      allowed_vidmap (show 1 < maxNumProc by decide) (by decide +kernel) (by decide) hinside 0,
      trivial⟩
    · exact fun _ _ => Op.noConfusion
    · exact fun _ _ => ⟨2,by decide +kernel⟩
    · exact fun _ _ => Op.noConfusion
    · exact fun _ _ => Op.noConfusion
    · exact fun _ _ => Op.noConfusion
  obtain ⟨-,hkernel,-⟩ := user_confined firstPages shellImage_loadable _ _ _ _ hcalls
  exact hkernel

end GameOfThreads
