import GameOfThreads.ExecuteFailure
import GameOfThreads.UserPages

/-! User code next to the kernel. A process loads and stores through the page tables, a fault
takes it out, and the kernel stores for it what its calls deliver. The memory of a process is
changed by nobody but the process itself, from the step after its start to its end. -/
namespace GameOfThreads
open Machine

/-- An event of the kernel, or an instruction of the running process that goes to memory. -/
inductive UserEvent
  | call (c : Call)
  | store (a : ℕ) (b : UInt8) (cpu : Cpu)
  | load (a : ℕ) (cpu : Cpu)

/-- An access of user code. A page fault goes to squash_exception. -/
def Callers.access (A : PageArrays) (fs : FileSystem) (write : Bool) (a : ℕ) (cpu : Cpu)
    (stores : ℕ → List (ℕ × UInt8)) (s : Callers) : Out × Callers :=
  match (s.kernel.pageMap A).translate ⟨true,write⟩ a with
  | some x => (.quiet,{ s with kernel := s.kernel.pokes (stores x) })
  | none =>
    let r := squashException fs cpu s.kernel
    (r.1,{ s with kernel := r.2 })

/-- The kernel with its processes. -/
def machine (A : PageArrays) (fs : FileSystem) : System Callers UserEvent Out where
  step s
    | .call c => (callers A fs).step s c
    | .store a b cpu => s.access A fs true a cpu fun x => [(x,b)]
    | .load a cpu => s.access A fs false a cpu fun _ => []

/-- Addresses have 32 bits, calls are allowed, and no execute breaks off when the page of its
process is mapped already. -/
def Legal (A : PageArrays) (fs : FileSystem) (s : Callers) : UserEvent → Prop
  | .call c => Allowed A fs s c ∧
      ∀ command cpu, c.op = .execute command cpu → ¬BreaksOff fs cpu.stack command
  | .store a _ _ => a < 4294967296
  | .load a _ => a < 4294967296

/-- The bytes of a frame. -/
abbrev Memory : Type := Fin fourMB → UInt8

def frameByte (p : ℕ) (i : Fin fourMB) : ℕ := eightMB+fourMB*p+i

def Kernel.memory (p : ℕ) (k : Kernel) : Memory := k.video.phys ∘ frameByte p

/-- Bytes at 32-bit addresses from `a` on. -/
def addressed : (a : ℕ) → List UInt8 → List (ℕ × UInt8)
  | _,[] => []
  | a,b :: bytes => (a % 4294967296,b) :: addressed (a+1) bytes

/-- What the running process stores in a step, itself or through the kernel, by address. -/
def UserEvent.writes (s : Callers) (out : Out) : UserEvent → List (ℕ × UInt8)
  | .call c => addressed (s.pointer c) out.bytes
  | .store a b _ => [(a,b)]
  | .load _ _ => []

/-- A store to the user page, by its offset in the page. -/
def pageByte (s : ℕ × UInt8) : Option (Fin fourMB × UInt8) :=
  if s.1/fourMB = userEnt then some (⟨s.1 % fourMB,Nat.mod_lt _ (by decide)⟩,s.2) else none

/-- What a step stores to the user page for process `p`. -/
def storesOf (p : ℕ) (m : Move Callers UserEvent Out) : List (Fin fourMB × UInt8) :=
  if m.pre.kernel.running = p then (m.event.writes m.pre m.out).filterMap pageByte else []

/-- The step finds the process alive and does not start it anew. -/
def Lives (p : ℕ) (m : Move Callers UserEvent Out) : Prop :=
  m.pre.kernel.Alive p ∧ m.out.started ≠ some p

/-! ### Events of the kernel -/

/-- The shell that takes the place of a last process is reported. -/
theorem halt_started {fs : FileSystem} (hshell : fs.Loadable (text "shell")) (cpu : Cpu)
    (status : ℕ) {k : Kernel} {stack : ℕ → List ℕ} (hosts : Hosts k.table stack)
    (hrunning : stack k.currentTerm ≠ []) : (halt fs cpu status k).1.started = k.successor := by
  obtain ⟨pid,hpid⟩ := remove_nextPid hosts hrunning
  rcases halt_cases fs cpu status k with ⟨hmore,hout,-⟩ | ⟨hlast,k',hk',hends⟩
  · rw [hout, Kernel.successor, if_neg hmore]
    rfl
  obtain ⟨entry,hr,-⟩ := execute_shell hshell cpu (hk' ▸ hpid)
  rcases hends with ⟨pid',entry',hr',hout,-⟩ | ⟨hnot,-⟩
  · rw [hout, ← hr', hr, Kernel.successor, if_pos hlast, hpid]
    rfl
  · exact absurd hr (hnot pid entry)

/-- No event loads over a process that lives through it. -/
theorem loads_ne {fs : FileSystem} (hshell : fs.Loadable (text "shell")) {k : Kernel}
    (h : Owned k) {p : ℕ} (hp : k.Alive p) {op : Op}
    (hstart : ((kernel fs).out k op).started ≠ some p) : k.loads op ≠ some p := by
  obtain ⟨stack,hosts,hrunning,-⟩ := h.account
  obtain ⟨t,ht⟩ := (alive_stack hosts p).mp hp
  have huse : k.table.pcbInUse p = 1 := (hosts.member t p ht).2.1
  have hnext : k.table.nextPid ≠ some p := by
    intro hpid
    rw [Table.nextPid_free hpid] at huse
    cases huse
  cases op with
  | execute command cpu => exact hnext
  | switch dest cpu => exact hnext
  | key pressed cpu => exact hnext
  | halt status cpu =>
    have hsame := halt_started hshell cpu status hosts hrunning
    exact fun hloads => hstart (hsame.trans hloads)
  | squash cpu =>
    have hmark : Hosts (k.onPcb k.running (PCB.setHaltStat 1)).table stack :=
      hosts.onPcb k.table.running ⟨rfl,rfl⟩
    have hsame := halt_started hshell cpu 0 hmark hrunning
    have hout : ((kernel fs).out k (.squash cpu)) =
        (halt fs cpu 0 (k.onPcb k.running (PCB.setHaltStat 1))).1 := by
      rw [out_squash, squashException, if_pos (by rw [h.on]; decide)]
    rw [hout, hsame, successor_mark] at hstart
    exact hstart
  | _ => exact (Option.some_ne_none p).symm

/-- An execute that does not break off leaves a page mapped that is of the process that runs. -/
theorem execute_page {fs : FileSystem} {cpu : Cpu} {command : Option (List UInt8)} {k : Kernel}
    (hbreaks : ¬BreaksOff fs cpu.stack command) (h : k.pageDirUser = userEntry k.running) :
    (execute fs cpu command k).2.pageDirUser = userEntry (execute fs cpu command k).2.running := by
  have hsame {T : Table} (ht : (execute fs cpu command k).2.table = T)
      (hT : T.pageDirUser = userEntry T.running) : (execute fs cpu command k).2.pageDirUser =
        userEntry (execute fs cpu command k).2.running := by
    subst ht
    exact hT
  rcases execute_cases fs cpu command k with ⟨-,-,ht⟩ | ⟨pid,-,hcases⟩
  · exact hsame ht h
  rcases hcases with ⟨-,-,ht⟩ | ⟨_,-,-,ht⟩ | ⟨-,-,ht⟩ | ⟨bytes,hv,-,-⟩ | ⟨args,_,_,-,-,ht⟩
  · exact hsame ht h
  · exact hsame ht h
  · exact hsame ht h
  · exact absurd (verdict_broken_iff.mp ⟨bytes,hv⟩) hbreaks
  · exact hsame ht (by simp [Table.start, Table.running])

/-- The page of the running process stays mapped. -/
theorem step_page {fs : FileSystem} (hshell : fs.Loadable (text "shell")) {k : Kernel}
    (h : Owned k) (hpage : k.pageDirUser = userEntry k.running) {op : Op}
    (hop : Affordable fs k op)
    (hbreaks : ∀ command cpu, op = .execute command cpu → ¬BreaksOff fs cpu.stack command) :
    ((kernel fs).next k op).pageDirUser = userEntry ((kernel fs).next k op).running := by
  obtain ⟨stack,hosts,hrunning,-⟩ := h.account
  rcases step_change hshell hosts hrunning hop with hdes | ⟨op',cpu,hchange,hstarted⟩
  · have hsame : ((kernel fs).next k op).pageDirUser = k.pageDirUser :=
      congrArg Table.pageDirUser hdes.rest
    have hrun : ((kernel fs).next k op).running = k.running := congrArg Table.running hdes.rest
    rw [hsame, hrun, hpage]
  rcases hstarted with hstarted | ⟨command,cpu,rfl⟩
  · rcases hchange.page with hmapped | ⟨-,-,-,hrun,hsame | ⟨pid,-,-,hfailed⟩⟩
    · exact hmapped
    · exact hsame.trans (hpage.trans (congrArg userEntry hrun.symm))
    · obtain ⟨_,_,hr⟩ := hstarted _ hfailed
      cases hr
  · exact execute_page (hbreaks command cpu rfl) hpage

theorem frameByte_mem (p : ℕ) (i : Fin fourMB) : frameByte p i ∈ frame p :=
  ⟨Nat.le_add_right ..,Nat.add_lt_add_left i.isLt _⟩

theorem frameByte_injective (p : ℕ) : Function.Injective (frameByte p) :=
  fun _ _ h => Fin.ext (Nat.add_left_cancel h)

theorem spares_memory {k k' : Kernel} {p : ℕ} (hsafe : k.video.Safe) (hon : k.termsOn = 1)
    (h : Spares (frame p) k k') : k'.memory p = k.memory p :=
  funext fun i => ((h hon).2 hsafe).2 (frameByte_mem p i)

/-- An event of the kernel leaves the frame of a process that lives through it alone. -/
theorem kernel_memory {fs : FileSystem} (hshell : fs.Loadable (text "shell")) {k : Kernel} {p : ℕ}
    (h : Owned k) {op : Op} (hp : k.Alive p) (hstart : ((kernel fs).out k op).started ≠ some p) :
    ((kernel fs).next k op).memory p = k.memory p := by
  obtain ⟨stack,hosts,-⟩ := h.account
  obtain ⟨t,ht⟩ := (alive_stack hosts p).mp hp
  have hlt := (hosts.member t p ht).1
  refine spares_memory h.window.safe h.on (step_spares (frame_offScreen hlt) fs h.inRange ?_)
  intro pid hpid
  apply frame_disjoint
  rintro rfl
  exact loads_ne hshell h hp hstart hpid

/-! ### Stores -/

section
variable (A : PageArrays) {k : Kernel} {p a x : ℕ}

/-- Outside of its own page the kernel stores to the user page or to a screen. -/
theorem kernel_place (h : Owned k) (hp : p < maxNumProc) (ha : a < 4294967296)
    (hx : (k.pageMap A).translate ⟨false,true⟩ a = some x) (hout : x ∉ kernelFrame)
    (hpage : a/fourMB ≠ userEnt) : x ∉ frame p := by
  have hindex : a/smallPage/1024 = a/fourMB := Nat.div_div_eq_div_mul ..
  have hkernel : a/fourMB ≠ 1 := by
    intro hkernel
    rw [PageMap.translate_of_walk (walk_kernel A k (hindex.trans hkernel)) rfl] at hx
    have hself : x = a := (Option.some.inj hx).symm.trans (Nat.div_add_mod' a smallPage)
    apply hout
    rw [hself, kernelFrame, Set.mem_Ico]
    unfold fourMB eightMB at *
    omega
  rw [translate_video A k true ha hkernel hpage] at hx
  obtain ⟨hadapter,hbuffers⟩ := frame_offScreen hp
  rcases h.window.safe.translate hx with hscreen | ⟨t,ht,hscreen⟩
  · exact fun hin => Set.disjoint_left.mp hadapter hin hscreen
  · exact fun hin => Set.disjoint_left.mp (hbuffers t ht) hin hscreen

/-- So does user code. -/
theorem user_place (h : Owned k) (hpage : k.pageDirUser = userEntry k.running)
    (hp : p < maxNumProc) (ha : a < 4294967296)
    (hx : (k.pageMap A).translate ⟨true,true⟩ a = some x) (hother : a/fourMB ≠ userEnt) :
    x ∉ frame p := by
  rcases (user_translate_iff A true h.running_lt hpage h.window ha x).mp hx with
    ⟨huser,-⟩ | ⟨t,ht,i,hi,-,rfl⟩
  · exact absurd huser hother
  · exact Set.disjoint_left.mp (screenMemory_frame _ hp) ⟨t,ht,i,hi,rfl⟩

/-- Stores through the page of the running process change its memory and no other. -/
theorem pokes_memory (h : Owned k) (hpage : k.pageDirUser = userEntry k.running)
    (hp : p < maxNumProc) {acc : Access} {stores : List (ℕ × UInt8)}
    (hother : ∀ s ∈ stores, s.1/fourMB ≠ userEnt →
      ∃ x ∉ frame p, (k.pageMap A).translate acc s.1 = some x) (k' : Kernel) :
    (k'.pokes (stores.map fun s => (((k.pageMap A).translate acc s.1).getD 0,s.2))).memory p =
      overwrite (if k.running = p then stores.filterMap pageByte else []) (k'.memory p) := by
  have hplace : ∀ s ∈ stores, s.1/fourMB ≠ userEnt →
      ((k.pageMap A).translate acc s.1).getD 0 ∉ frame p := by
    intro s hs hne
    obtain ⟨x,hx,htranslate⟩ := hother s hs hne
    rw [htranslate]
    exact hx
  have hin : ∀ s : ℕ × UInt8, s.1/fourMB = userEnt →
      ((k.pageMap A).translate acc s.1).getD 0 = eightMB+fourMB*k.running+s.1 % fourMB := by
    intro s hs
    rw [user_page A acc h.running_lt hpage hs]
    rfl
  by_cases hrun : k.running = p
  · rw [if_pos hrun]
    subst hrun
    refine overwrite_part (frameByte_injective _) ?_ ?_ k'.video.phys
    · intro s hs t ht
      unfold pageByte at ht
      split_ifs at ht with huser
      obtain rfl := Option.some.inj ht
      exact Prod.ext (hin s huser) rfl
    · intro s hs hnone c hc
      unfold pageByte at hnone
      split_ifs at hnone with huser
      have hmem := frameByte_mem k.running c
      rw [← hc] at hmem
      exact hplace s hs huser hmem
  · rw [if_neg hrun]
    funext i
    refine overwrite_of_notMem ?_ _
    intro t ht heq
    obtain ⟨s,hs,rfl⟩ := List.mem_map.mp ht
    have hmem := frameByte_mem p i
    rw [← heq] at hmem
    by_cases huser : s.1/fourMB = userEnt
    · have hown : eightMB+fourMB*k.running+s.1 % fourMB ∈ frame k.running :=
        frameByte_mem k.running ⟨s.1 % fourMB,Nat.mod_lt _ (by decide)⟩
      rw [← hin s huser] at hown
      exact Set.disjoint_left.mp (frame_disjoint hrun) hown hmem
    · exact hplace s hs huser hmem

theorem places_eq (dest : ℕ) (bytes : List UInt8) : k.places A dest bytes =
    (addressed dest bytes).map fun s =>
      (((k.pageMap A).translate ⟨false,true⟩ s.1).getD 0,s.2) := by
  induction bytes generalizing dest with
  | nil => rfl
  | cons b bytes ih => exact congrArg (_ :: ·) (ih (dest+1))

theorem mem_addressed {dest : ℕ} {bytes : List UInt8} {s : ℕ × UInt8}
    (hs : s ∈ addressed dest bytes) : ∃ i < bytes.length, s.1 = (dest+i) % 4294967296 := by
  induction bytes generalizing dest with
  | nil => cases hs
  | cons b bytes ih =>
    rcases List.mem_cons.mp hs with rfl | hs
    · exact ⟨0,Nat.zero_lt_succ _,rfl⟩
    · obtain ⟨i,hi,hsame⟩ := ih hs
      exact ⟨i+1,Nat.succ_lt_succ hi,by rw [hsame, Nat.add_right_comm]; rfl⟩

/-- What the kernel stores for a caller changes the caller's memory and no other. -/
theorem places_memory (h : Owned k) (hpage : k.pageDirUser = userEntry k.running)
    (hp : p < maxNumProc) {dest : ℕ} {bytes : List UInt8}
    (houtside : k.Outside A dest bytes.length) (k' : Kernel) :
    (k'.pokes (k.places A dest bytes)).memory p =
      overwrite (if k.running = p then (addressed dest bytes).filterMap pageByte else [])
        (k'.memory p) := by
  rw [places_eq]
  refine pokes_memory A h hpage hp ?_ k'
  intro s hs hne
  obtain ⟨i,hi,hsame⟩ := mem_addressed hs
  obtain ⟨x,hx,htranslate⟩ := houtside i hi
  rw [← hsame] at htranslate
  have ha : s.1 < 4294967296 := hsame ▸ Nat.mod_lt _ (by decide)
  exact ⟨x,kernel_place A h hp ha htranslate hx hne,htranslate⟩

end

/-! ### Steps -/

/-- The processes are accounted for, the page of the running one is mapped, and no store has
gone astray. -/
structure Housed (s : Callers) : Prop where
  owned : Owned s.kernel
  page : s.kernel.pageDirUser = userEntry s.kernel.running
  whole : s.lost = false

section
variable (A : PageArrays) {fs : FileSystem} (hshell : fs.Loadable (text "shell")) {s : Callers}
  {p : ℕ}

theorem squash_affordable (fs : FileSystem) (k : Kernel) (cpu : Cpu) :
    Affordable fs k (.squash cpu) :=
  ⟨trivial,fun _ _ => Op.noConfusion,False.elim⟩

include hshell

/-- A fault keeps the house. -/
theorem Housed.squash (h : Housed s) (cpu : Cpu) :
    Housed { s with kernel := (squashException fs cpu s.kernel).2 } where
  owned := owned_step hshell h.owned (squash_affordable fs s.kernel cpu)
  page := step_page hshell h.owned h.page (squash_affordable fs s.kernel cpu)
    fun _ _ => Op.noConfusion
  whole := h.whole

theorem Housed.access (h : Housed s) (write : Bool) (a : ℕ) (cpu : Cpu)
    (stores : ℕ → List (ℕ × UInt8)) : Housed (s.access A fs write a cpu stores).2 := by
  unfold Callers.access
  cases (s.kernel.pageMap A).translate ⟨true,write⟩ a with
  | none => exact h.squash hshell cpu
  | some x => exact ⟨h.owned.pokes _,h.page,h.whole⟩

theorem housed_step {event : UserEvent} (h : Housed s) (hevent : Legal A fs s event) :
    Housed ((machine A fs).next s event) := by
  cases event with
  | call c =>
    obtain ⟨hc,hbreaks⟩ := hevent
    obtain ⟨howned,hwhole⟩ := callers_owned A hshell ⟨h.owned,h.whole⟩ hc
    refine ⟨howned,?_,hwhole⟩
    change ((callers A fs).next s c).kernel.pageDirUser =
      userEntry ((callers A fs).next s c).kernel.running
    rw [(clear_next h.whole hc.clear).1]
    refine step_page hshell h.owned h.page hc.affordable fun command cpu hop => ?_
    apply hbreaks command cpu
    obtain ⟨op,dest,fault⟩ := c
    cases op <;> first | exact hop | cases hop
  | store a b cpu => exact h.access A hshell true a cpu _
  | load a cpu => exact h.access A hshell false a cpu _

/-- Where user code faults it stores nothing, and elsewhere it stores through its page. -/
theorem access_memory (h : Housed s) (halive : s.kernel.Alive p) {write : Bool} {a : ℕ} {cpu : Cpu}
    (stores : List UInt8) (hwrite : stores = [] ∨ write = true) (ha : a < 4294967296)
    (hstart : (s.access A fs write a cpu fun x => stores.map fun b => (x,b)).1.started ≠ some p) :
    (s.access A fs write a cpu fun x => stores.map fun b => (x,b)).2.kernel.memory p =
      overwrite (if s.kernel.running = p then
        (stores.map fun b => (a,b)).filterMap pageByte else []) (s.kernel.memory p) := by
  obtain ⟨stack,hosts,-⟩ := h.owned.account
  obtain ⟨t,ht⟩ := (alive_stack hosts p).mp halive
  have hlt := (hosts.member t p ht).1
  unfold Callers.access at hstart ⊢
  cases hx : (s.kernel.pageMap A).translate ⟨true,write⟩ a with
  | none =>
    have hpage : ¬a/fourMB = userEnt := by
      intro hpage
      rw [user_page A _ h.owned.running_lt h.page hpage] at hx
      cases hx
    have hnone : (stores.map fun b => (a,b)).filterMap pageByte = [] := by
      simp [List.filterMap_map, pageByte, hpage]
    rw [hx] at hstart
    have hquiet : ((kernel fs).out s.kernel (.squash cpu)).started ≠ some p := hstart
    rw [hnone, ite_self]
    exact kernel_memory hshell h.owned halive hquiet
  | some x =>
    have hmap : (stores.map fun b => (x,b)) = (stores.map fun b => (a,b)).map fun s' =>
        (((s.kernel.pageMap A).translate ⟨true,write⟩ s'.1).getD 0,s'.2) := by
      rw [List.map_map]
      exact List.map_congr_left fun b _ => Prod.ext (by simp [hx]) rfl
    dsimp only
    rw [hmap]
    refine pokes_memory A h.owned h.page hlt ?_ s.kernel
    intro s' hs' hne
    obtain ⟨b,hb,rfl⟩ := List.mem_map.mp hs'
    rcases hwrite with rfl | rfl
    · cases hb
    · exact ⟨x,user_place A h.owned h.page hlt ha hx hne,hx⟩

/-- A step changes the memory of a process that lives through it by the process's stores. -/
theorem machine_memory {event : UserEvent} (h : Housed s) (hevent : Legal A fs s event)
    (hp : Lives p ((machine A fs).move s event)) :
    ((machine A fs).next s event).kernel.memory p =
      overwrite (storesOf p ((machine A fs).move s event)) (s.kernel.memory p) := by
  obtain ⟨halive,hstart⟩ := hp
  cases event with
  | call c =>
    obtain ⟨stack,hosts,-⟩ := h.owned.account
    obtain ⟨t,ht⟩ := (alive_stack hosts p).mp halive
    have hclear := hevent.1.clear
    have hout : (machine A fs).out s (.call c) = (kernel fs).out s.kernel c.base :=
      clear_out h.whole hclear
    have hnext : ((machine A fs).next s (.call c)).kernel = s.after A fs c :=
      (clear_next h.whole hclear).1
    have hkept : ((kernel fs).next s.kernel c.base).memory p = s.kernel.memory p :=
      kernel_memory hshell h.owned halive (hout ▸ hstart)
    have hstores : storesOf p ((machine A fs).move s (.call c)) = if s.kernel.running = p then
        (addressed (s.pointer c) (step fs s.kernel c.base).1.bytes).filterMap pageByte else [] := by
      simp only [storesOf, System.move, UserEvent.writes, hout]
      rfl
    rw [hnext, hstores, ← hkept]
    exact places_memory A h.owned h.page (hosts.member t p ht).1 hclear.aims.outside _
  | store a b cpu =>
    exact access_memory A hshell h halive [b] (.inr rfl) hevent hstart
  | load a cpu =>
    exact access_memory A hshell h halive [] (.inl rfl) hevent hstart

/-! ### Runs -/

theorem memory_run (h : Housed s) (events : List UserEvent)
    (hlegal : (machine A fs).Along (Legal A fs) s events)
    (hlives : ∀ m ∈ (machine A fs).trace s events, Lives p m) :
    ((machine A fs).run s events).kernel.memory p =
      overwrite (((machine A fs).trace s events).flatMap (storesOf p)) (s.kernel.memory p) := by
  induction events generalizing s with
  | nil => rfl
  | cons event events ih =>
    have hhead : Lives p ((machine A fs).move s event) := hlives _ List.mem_cons_self
    have hstep := machine_memory A hshell h hlegal.1 hhead
    have hrun := ih (housed_step A hshell h hlegal.1) hlegal.2
      fun m hm => hlives m (List.mem_cons_of_mem _ hm)
    rw [System.run_cons, hrun, hstep, System.trace, List.flatMap_cons, overwrite_append]

theorem booted_housed (pcb : ℕ → PCB) (phys : ℕ → UInt8) (cpu : Cpu) :
    Housed (Callers.booted A fs pcb phys cpu) := by
  obtain ⟨howned,hwhole⟩ := callersBooted_owned A hshell pcb phys cpu
  refine ⟨howned,?_,hwhole⟩
  obtain ⟨stack,hsound⟩ := booted_sound hshell pcb phys cpu
  have hmapped := hsound.mapped.1
  rw [callersBooted_eq A hshell]
  generalize booted fs pcb phys cpu = k at *
  exact hmapped

end

/-- From any point of such a run on, the memory of a process that lives is what it was then
with the stores of the process since, in their order. -/
theorem memory_private (A : PageArrays) {fs : FileSystem} (hshell : fs.Loadable (text "shell"))
    (pcb : ℕ → PCB) (phys : ℕ → UInt8) (cpu : Cpu) (before after : List UserEvent) (p : ℕ)
    (hlegal : (machine A fs).Along (Legal A fs) (Callers.booted A fs pcb phys cpu)
      (before ++ after))
    (hlives : ∀ m ∈ (machine A fs).trace
      ((machine A fs).run (Callers.booted A fs pcb phys cpu) before) after, Lives p m) :
    let s := (machine A fs).run (Callers.booted A fs pcb phys cpu) before
    ((machine A fs).run s after).kernel.memory p =
      overwrite (((machine A fs).trace s after).flatMap (storesOf p)) (s.kernel.memory p) := by
  obtain ⟨hbefore,hafter⟩ := (System.along_append ..).mp hlegal
  have hhoused : Housed ((machine A fs).run (Callers.booted A fs pcb phys cpu) before) :=
    System.Along.invariant (fun _ _ h hevent => housed_step A hshell h hevent)
      (booted_housed A hshell pcb phys cpu) hbefore
  exact memory_run A hshell hhoused after hafter hlives

/-- A second shell stores into its page, and has the kernel store there. -/
def secondShell : UserEvent :=
  .call ⟨.execute (some (text "shell")) ⟨4,8,fun _ => 0⟩,0,⟨0,0,fun _ => 0⟩⟩

def itsStores : List UserEvent :=
  [.store 0x08000064 7 ⟨0,0,fun _ => 0⟩,.call ⟨.vidmap 0,0x08000010,⟨0,0,fun _ => 0⟩⟩]

theorem memory_private_store :
    let M := machine firstPages shellImage
    let s := M.run (Callers.booted firstPages shellImage (fun _ => PCB.zero) (fun _ => 0)
      ⟨0,0,fun _ => 0⟩) [secondShell]
    (M.run s itsStores).kernel.memory 1 =
      overwrite ((M.trace s itsStores).flatMap (storesOf 1)) (s.kernel.memory 1) := by
  intro M s
  have hbreaks : ¬BreaksOff shellImage (fun _ => 0) (some (text "shell")) := by
    rw [← verdict_broken_iff]
    rintro ⟨bytes,hv⟩
    obtain ⟨_,_,haccepted⟩ := verdict_of_loadable (show parseArgs (some (text "shell")) =
      some (text "shell",[]) by decide) (by decide) (by decide) shellImage_loadable fun _ => 0
    rw [haccepted] at hv
    cases hv
  have hlegal : M.Along (Legal firstPages shellImage) (Callers.booted firstPages shellImage
      (fun _ => PCB.zero) (fun _ => 0) ⟨0,0,fun _ => 0⟩) ([secondShell] ++ itsStores) := by
    have hinside : Inside 0x08000010 4 := fun i hi => by omega
    refine ⟨⟨allowed_execute shell_fits,?_⟩,(show 0x08000064 < 4294967296 by decide),
      ⟨allowed_vidmap (show 1 < maxNumProc by decide) (by decide +kernel) (by decide) hinside 0,
        ?_⟩,trivial⟩
    · rintro _ _ ⟨⟩
      exact hbreaks
    · exact fun _ _ => Op.noConfusion
  refine memory_private firstPages shellImage_loadable _ _ _ [secondShell] itsStores 1 hlegal ?_
  have hquiet : (M.out s (.store 0x08000064 7 ⟨0,0,fun _ => 0⟩)).started ≠ some 1 := by
    decide +kernel
  refine List.forall_mem_cons.mpr ⟨⟨⟨0,by decide,by decide +kernel⟩,hquiet⟩,
    List.forall_mem_singleton.mpr ⟨⟨0,by decide,by decide +kernel⟩,?_⟩⟩
  decide +kernel

end GameOfThreads
