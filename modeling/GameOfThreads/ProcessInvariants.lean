import GameOfThreads.ProcessRuns
import Mathlib.Order.Interval.Set.Basic
import Mathlib.Order.CompletePartialOrder

/-! What holds of the process table and of the address space after every run in which the
called programs load: the table is a forest of live processes, its counters agree, and the
running process has its own frame and its own kernel stack. -/
namespace GameOfThreads
open Machine

/-- The process met `i` links up from the process on top of terminal `t`. -/
def Kernel.ancestor (k : Kernel) (t i : ℕ) : ℕ :=
  (fun p => (k.pcb p).parentPidNum)^[i] (k.terminal t).process

/-- As many processes from the top of terminal `t` on as its program count says. -/
def Kernel.chain (k : Kernel) (t : ℕ) : List ℕ := (List.range (k.totalProgs t)).map (k.ancestor t)

theorem chain_eq {k : Kernel} {stack : ℕ → List ℕ} (h : Hosts k.table stack) (t : ℕ) :
    k.chain t = stack t := by
  have hlength : k.totalProgs t = (stack t).length := h.progs t
  by_cases ht : stack t = []
  · simp [Kernel.chain, hlength, ht]
  · rw [Kernel.chain, hlength]
    exact (h.forest.linked t ht).map_iterate

theorem live_lt {k : Kernel} {stack : ℕ → List ℕ} (h : Hosts k.table stack) {t p : ℕ}
    (hp : p ∈ stack t) : t < numTerm := by
  by_contra hge
  simp [h.outside t (Nat.le_of_not_lt hge)] at hp

/-- The PIDs in use are those of the stacks, each once. -/
theorem inUse_perm {T : Table} {stack : ℕ → List ℕ} (hosts : Hosts T stack)
    (htight : Tight T stack) :
    ((List.range maxNumProc).filter fun p => T.pcbInUse p ≠ 0).Perm ([0,1,2].flatMap stack) := by
  refine (List.perm_ext_iff_of_nodup (List.nodup_range.filter _)
    (hosts.forest.flatMap_nodup (by decide))).mpr ?_
  intro p
  rw [List.mem_filter, List.mem_range, List.mem_flatMap, decide_eq_true_iff]
  constructor
  · rintro ⟨hp,huse⟩
    obtain ⟨t,ht⟩ := htight p hp huse
    have hlt : t < numTerm := by
      by_contra hge
      simp [hosts.outside t (Nat.le_of_not_lt hge)] at ht
    unfold numTerm at hlt
    exact ⟨t,by simp; omega,ht⟩
  · rintro ⟨t,-,ht⟩
    obtain ⟨hp,huse,-⟩ := hosts.member t p ht
    exact ⟨hp,by omega⟩

/-- The five records of the process table agree. -/
structure Coherent (k : Kernel) : Prop where
  nodup : ∀ t < numTerm, (k.chain t).Nodup
  visited : ∀ t < numTerm, 0 < k.totalProgs t → ∀ i, k.ancestor t i ∈ k.chain t
  root : ∀ t < numTerm, 0 < k.totalProgs t →
    (k.pcb (k.ancestor t (k.totalProgs t-1))).parentPidNum = k.ancestor t (k.totalProgs t-1)
  live : ∀ t < numTerm, ∀ p ∈ k.chain t,
    p < maxNumProc ∧ k.pcbInUse p = 1 ∧ (k.pcb p).pidNum = p
  disjoint : ∀ t < numTerm, ∀ u < numTerm, t ≠ u → (k.chain t).Disjoint (k.chain u)
  inUse : ∀ p < maxNumProc, k.pcbInUse p ≠ 0 ↔ ∃ t < numTerm, p ∈ k.chain t
  count : k.processCnt = ((List.range numTerm).map k.totalProgs).sum
  used : k.processCnt = ((List.range maxNumProc).filter fun p => k.pcbInUse p ≠ 0).length
  bound : k.processCnt ≤ maxNumProc
  running : 0 < k.totalProgs k.currentTerm

theorem Sound.coherent {k : Kernel} {stack : ℕ → List ℕ} (h : Sound k.table stack) :
    Coherent k := by
  obtain ⟨hosts,htight,hrunning,-⟩ := h
  have hchain := chain_eq hosts
  have hprogs : ∀ t, k.totalProgs t = (stack t).length := hosts.progs
  have hcount : k.processCnt = (stack 0).length+(stack 1).length+(stack 2).length := hosts.count
  have hlinked : ∀ t, 0 < k.totalProgs t → Linked k.table.parent (k.table.process t) (stack t) :=
    fun t ht => hosts.forest.linked t (List.length_pos_iff.mp (hprogs t ▸ ht))
  constructor
  · exact fun t _ => hchain t ▸ hosts.forest.nodup t
  · exact fun t _ ht i => hchain t ▸ (hlinked t ht).iterate_mem i
  · intro t _ ht
    have hlast := (hlinked t ht).parent_last
    rwa [← hprogs t] at hlast
  · exact fun t _ p hp => hosts.member t p (hchain t ▸ hp)
  · exact fun t _ u _ htu => hchain t ▸ hchain u ▸ hosts.forest.disjoint t u htu
  · intro p hp
    constructor
    · intro huse
      obtain ⟨t,ht⟩ := htight p hp huse
      exact ⟨t,live_lt hosts ht,hchain t ▸ ht⟩
    · rintro ⟨t,-,ht⟩
      have huse : k.pcbInUse p = 1 := (hosts.member t p (hchain t ▸ ht)).2.1
      omega
  · simp [numTerm, List.range_succ, hprogs, hcount, Nat.add_assoc]
  · have hlength := (inUse_perm hosts htight).length_eq
    rw [show k.table.pcbInUse = k.pcbInUse from rfl] at hlength
    rw [hlength, hcount]
    simp [List.flatMap_cons, Nat.add_assoc]
  · exact hcount ▸ hosts.count_le
  · exact hprogs k.currentTerm ▸ List.length_pos_iff.mpr hrunning

/-- After every run from boot of successful executes, halts, crashes, timer ticks and
terminal switches the process table is coherent. -/
theorem processTable_coherent {fs : FileSystem} (hshell : fs.Loadable (text "shell"))
    (pcb : ℕ → PCB) (phys : ℕ → UInt8) (cpu : Cpu) (ops : List Op)
    (hops : (kernel fs).Along (Succeeds fs) (booted fs pcb phys cpu) ops) :
    Coherent ((kernel fs).run (initial pcb phys) (fromBoot cpu ops)) := by
  obtain ⟨stack,hsound⟩ := sound_run hshell pcb phys cpu hops
  rw [run_fromBoot]
  exact hsound.coherent

theorem processTable_coherent_shells :
    Coherent ((kernel shellImage).run (initial (fun _ => PCB.zero) fun _ => 0)
      (fromBoot ⟨0,0,fun _ => 0⟩ [.execute (some (text "shell")) ⟨4,8,fun _ => 0⟩,
        .switch 1 ⟨0,0,fun _ => 0⟩,.pit ⟨0,0,fun _ => 0⟩,.squash ⟨0,0,fun _ => 0⟩])) :=
  processTable_coherent shellImage_loadable _ _ _ _
    ⟨booted_execute shellImage_loadable _ _ _ _,⟨Nat.le_of_ble_eq_true rfl,nofun⟩,
      ⟨trivial,nofun⟩,⟨trivial,nofun⟩,trivial⟩

/-! ### The address space -/

/-- The 4 MB frame of a process. -/
def frame (p : ℕ) : Set ℕ := Set.Ico (eightMB+fourMB*p) (eightMB+fourMB*p+fourMB)

def kernelFrame : Set ℕ := Set.Ico fourMB eightMB

/-- The page that holds the screen of a terminal out of view. -/
def bufferPage (t : ℕ) : Set ℕ := Set.Ico (mem32+t*pagesSize) (mem32+t*pagesSize+pagesSize)

/-- The size of a PCB_t in memory. -/
def pcbSize : ℕ := 380

def pcbRegion (p : ℕ) : Set ℕ := Set.Ico (getPcbAddr p) (getPcbAddr p+pcbSize)

/-- The kernel stack of a process, from the end of its PCB up to its first word. -/
def stackRegion (p : ℕ) : Set ℕ := Set.Ico (getPcbAddr p+pcbSize) (getEsp0 p+4)

theorem disjoint_Ico {a b c d : ℕ} (h : b ≤ c ∨ d ≤ a) :
    Disjoint (Set.Ico a b) (Set.Ico c d) := by
  rw [Set.disjoint_left]
  intro x hx hx'
  rw [Set.mem_Ico] at hx hx'
  omega

theorem frame_disjoint {p q : ℕ} (h : p ≠ q) : Disjoint (frame p) (frame q) := by
  apply disjoint_Ico
  unfold eightMB fourMB
  omega

theorem frame_kernelFrame (p : ℕ) : Disjoint (frame p) kernelFrame := by
  apply disjoint_Ico
  unfold eightMB fourMB
  omega

theorem frame_bufferPage {p : ℕ} (hp : p < maxNumProc) (t : ℕ) :
    Disjoint (frame p) (bufferPage t) := by
  apply disjoint_Ico
  unfold maxNumProc at hp
  unfold eightMB fourMB mem32 pagesSize
  omega

theorem kernelFrame_bufferPage (t : ℕ) : Disjoint kernelFrame (bufferPage t) := by
  apply disjoint_Ico
  unfold eightMB mem32 pagesSize
  omega

theorem bufferPage_disjoint {t u : ℕ} (h : t ≠ u) : Disjoint (bufferPage t) (bufferPage u) := by
  apply disjoint_Ico
  unfold mem32 pagesSize
  omega

/-- The 8 kB of a process below the top of the kernel hold its PCB and its kernel stack. -/
theorem kernel_regions {p q : ℕ} (hp : p < maxNumProc) (hq : q < maxNumProc) :
    Disjoint (pcbRegion p) (stackRegion q) ∧
      (p ≠ q → Disjoint (pcbRegion p) (pcbRegion q) ∧
        Disjoint (stackRegion p) (stackRegion q)) := by
  unfold maxNumProc at hp hq
  refine ⟨disjoint_Ico ?_,fun h => ⟨disjoint_Ico ?_,disjoint_Ico ?_⟩⟩ <;>
  · unfold getPcbAddr
    try unfold getEsp0
    unfold topOfKernel kb8 pcbSize
    omega

/-- The entry of a process is the address of its frame with the flags of a user page. -/
theorem userEntry_eq {p : ℕ} (hp : p < maxNumProc) : userEntry p = eightMB+fourMB*p+0x87 := by
  unfold maxNumProc at hp
  interval_cases p <;> decide

/-- The user page maps the frame of the running process, the kernel enters on its stack, and
no two live processes, nor the kernel or the screens, share memory. -/
structure AddressSpace (k : Kernel) : Prop where
  userPage : k.pageDirUser = eightMB+fourMB*k.running+0x87
  kernelStack : k.tssEsp0 = getEsp0 k.running
  frames : ∀ t < numTerm, ∀ p ∈ k.chain t, Disjoint (frame p) kernelFrame ∧
    (∀ u < numTerm, Disjoint (frame p) (bufferPage u)) ∧
    ∀ u < numTerm, ∀ q ∈ k.chain u, p ≠ q → Disjoint (frame p) (frame q)
  pages : ∀ t < numTerm, Disjoint kernelFrame (bufferPage t) ∧
    ∀ u < numTerm, t ≠ u → Disjoint (bufferPage t) (bufferPage u)
  regions : ∀ t < numTerm, ∀ p ∈ k.chain t, ∀ u < numTerm, ∀ q ∈ k.chain u, p ≠ q →
    Disjoint (pcbRegion p ∪ stackRegion p) (pcbRegion q ∪ stackRegion q)

theorem Sound.addressSpace {k : Kernel} {stack : ℕ → List ℕ} (h : Sound k.table stack) :
    AddressSpace k := by
  obtain ⟨hosts,-,hrunning,huser,hesp⟩ := h
  have hlt : ∀ t, ∀ p ∈ k.chain t, p < maxNumProc := fun t p hp =>
    (hosts.member t p (chain_eq hosts t ▸ hp)).1
  have hrun : k.running < maxNumProc := (hosts.member _ _ (hosts.top_mem hrunning)).1
  constructor
  · exact huser.trans (userEntry_eq hrun)
  · exact hesp
  · exact fun t _ p hp => ⟨frame_kernelFrame p,fun u _ => frame_bufferPage (hlt t p hp) u,
      fun u _ q _ hpq => frame_disjoint hpq⟩
  · exact fun t _ => ⟨kernelFrame_bufferPage t,fun u _ htu => bufferPage_disjoint htu⟩
  · intro t _ p hp u _ q hq hpq
    obtain ⟨hps,hsame⟩ := kernel_regions (hlt t p hp) (hlt u q hq)
    obtain ⟨hpcb,hstack⟩ := hsame hpq
    have hqs := (kernel_regions (hlt u q hq) (hlt t p hp)).1
    rw [Set.disjoint_union_left, Set.disjoint_union_right, Set.disjoint_union_right]
    exact ⟨⟨hpcb,hps⟩,hqs.symm,hstack⟩

/-- After every such run the address space belongs to the running process. -/
theorem addressSpace_consistent {fs : FileSystem} (hshell : fs.Loadable (text "shell"))
    (pcb : ℕ → PCB) (phys : ℕ → UInt8) (cpu : Cpu) (ops : List Op)
    (hops : (kernel fs).Along (Succeeds fs) (booted fs pcb phys cpu) ops) :
    AddressSpace ((kernel fs).run (initial pcb phys) (fromBoot cpu ops)) := by
  obtain ⟨stack,hsound⟩ := sound_run hshell pcb phys cpu hops
  rw [run_fromBoot]
  exact hsound.addressSpace

theorem addressSpace_consistent_shells :
    AddressSpace ((kernel shellImage).run (initial (fun _ => PCB.zero) fun _ => 0)
      (fromBoot ⟨0,0,fun _ => 0⟩ [.execute (some (text "shell")) ⟨4,8,fun _ => 0⟩,
        .switch 1 ⟨0,0,fun _ => 0⟩,.pit ⟨0,0,fun _ => 0⟩,.halt 3 ⟨0,0,fun _ => 0⟩])) :=
  addressSpace_consistent shellImage_loadable _ _ _ _
    ⟨booted_execute shellImage_loadable _ _ _ _,⟨Nat.le_of_ble_eq_true rfl,nofun⟩,
      ⟨trivial,nofun⟩,⟨trivial,nofun⟩,trivial⟩

end GameOfThreads
