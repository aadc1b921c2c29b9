import GameOfThreads.ProcessTable
import GameOfThreads.Machine.ParentChain
import Mathlib.Data.List.Perm.Subperm

/-! What the process table says: three stacks of processes, one for each terminal, with the
process on top of a stack in `terminal[t].process` and the rest behind its parent links.
execute pushes, halt pops, and the switches leave the stacks alone. -/
namespace GameOfThreads
open Machine

def Table.parent (T : Table) (p : ℕ) : ℕ := (T.pcb p).parentPidNum

/-- The table accounts for the given stacks. Further PIDs may be in use. -/
structure Hosts (T : Table) (stack : ℕ → List ℕ) : Prop where
  forest : Forest T.parent T.process stack
  outside : ∀ t, numTerm ≤ t → stack t = []
  member : ∀ t, ∀ p ∈ stack t, p < maxNumProc ∧ T.pcbInUse p = 1 ∧ (T.pcb p).pidNum = p
  progs : ∀ t, T.totalProgs t = (stack t).length
  count : T.processCnt = (stack 0).length+(stack 1).length+(stack 2).length
  current : T.currentTerm < numTerm
  viewing : T.viewingTerm < numTerm

/-- No PID is in use without a process. -/
def Tight (T : Table) (stack : ℕ → List ℕ) : Prop :=
  ∀ p < maxNumProc, T.pcbInUse p ≠ 0 → ∃ t, p ∈ stack t

theorem Table.remove_parent (T : Table) (p : ℕ) :
    (T.remove.pcb p).parentPidNum = T.parent p := by
  by_cases hp : p = T.running
  · subst hp
    simp [Table.remove, Table.onPcb, PCB.closeFiles, Table.parent]
  · simp [Table.remove, Table.onPcb, Table.parent, hp]

namespace Hosts
variable {T : Table} {stack : ℕ → List ℕ}

theorem top_mem (h : Hosts T stack) {t : ℕ} (ht : stack t ≠ []) : T.process t ∈ stack t :=
  (h.forest.linked t ht).top_mem

/-- Six PIDs, six processes. -/
theorem count_le (h : Hosts T stack) :
    (stack 0).length+(stack 1).length+(stack 2).length ≤ maxNumProc := by
  have hnodup : ([0,1,2].flatMap stack).Nodup := h.forest.flatMap_nodup (by decide)
  have hsub : [0,1,2].flatMap stack ⊆ List.range maxNumProc := by
    intro p hp
    obtain ⟨t,-,hpt⟩ := List.mem_flatMap.mp hp
    exact List.mem_range.mpr (h.member t p hpt).1
  have hle := (List.subperm_of_subset hnodup hsub).length_le
  simpa [List.flatMap_cons, Nat.add_assoc] using hle

theorem length_le (h : Hosts T stack) (t : ℕ) : (stack t).length ≤ maxNumProc := by
  have hle := h.count_le
  rcases Nat.lt_or_ge t numTerm with ht | ht
  · unfold numTerm at ht
    obtain rfl | rfl | rfl : t = 0 ∨ t = 1 ∨ t = 2 := by omega
    all_goals omega
  · simp [h.outside t ht]

/-- A PID that is not in use belongs to no stack. -/
theorem fresh (h : Hosts T stack) {pid : ℕ} (hpid : T.pcbInUse pid = 0) (t : ℕ) :
    pid ∉ stack t := by
  intro hmem
  have := (h.member t pid hmem).2.1
  omega

/-- The counters of one terminal and of all follow a change of its stack. -/
theorem count_update (stack : ℕ → List ℕ) {t : ℕ} (ht : t < numTerm) (l : List ℕ) :
    (Function.update stack t l 0).length+(Function.update stack t l 1).length+
        (Function.update stack t l 2).length+(stack t).length =
      (stack 0).length+(stack 1).length+(stack 2).length+l.length := by
  unfold numTerm at ht
  obtain rfl | rfl | rfl : t = 0 ∨ t = 1 ∨ t = 2 := by omega
  all_goals simp; omega

theorem outside_update (h : Hosts T stack) {t : ℕ} (ht : t < numTerm) (l : List ℕ) (u : ℕ)
    (hu : numTerm ≤ u) : Function.update stack t l u = [] := by
  rw [Function.update_of_ne (by omega)]
  exact h.outside u hu

/-- A free PID is there as long as fewer than six processes run and none is in use without
a process. -/
theorem nextPid_isSome (h : Hosts T stack) (htight : Tight T stack)
    (hfew : (stack 0).length+(stack 1).length+(stack 2).length < maxNumProc) :
    ∃ pid, T.nextPid = some pid := by
  by_contra hnone
  have hnone : T.nextPid = none := by
    cases hp : T.nextPid with
    | none => rfl
    | some pid => exact absurd ⟨pid,hp⟩ hnone
  have hall := Table.nextPid_eq_none.mp hnone
  have hsub : List.range maxNumProc ⊆ [0,1,2].flatMap stack := by
    intro p hp
    have hp := List.mem_range.mp hp
    obtain ⟨t,ht⟩ := htight p hp (hall p hp)
    have hlt : t < numTerm := by
      by_contra hge
      simp [h.outside t (by omega)] at ht
    unfold numTerm at hlt
    exact List.mem_flatMap.mpr ⟨t,by simp; omega,ht⟩
  have hle := (List.subperm_of_subset List.nodup_range hsub).length_le
  simp [List.flatMap_cons] at hle
  omega

/-! ### The operations on the table -/

/-- Only what the stacks are read from matters. -/
theorem congr (h : Hosts T stack) {T' : Table} (hprocess : T'.process = T.process)
    (hmember : ∀ t, ∀ p ∈ stack t, T'.parent p = T.parent p ∧ T'.pcbInUse p = T.pcbInUse p ∧
      (T'.pcb p).pidNum = (T.pcb p).pidNum)
    (hprogs : T'.totalProgs = T.totalProgs) (hcount : T'.processCnt = T.processCnt)
    (hcurrent : T'.currentTerm < numTerm) (hviewing : T'.viewingTerm < numTerm) :
    Hosts T' stack where
  forest := h.forest.congr (fun t p hp => (hmember t p hp).1) fun t _ => by rw [hprocess]
  outside := h.outside
  member t p hp := by
    obtain ⟨hp₆,huse,hpid⟩ := h.member t p hp
    obtain ⟨-,huse',hpid'⟩ := hmember t p hp
    exact ⟨hp₆,huse'.trans huse,hpid'.trans hpid⟩
  progs t := by rw [hprogs]; exact h.progs t
  count := by rw [hcount]; exact h.count
  current := hcurrent
  viewing := hviewing

/-- A change of one PCB that keeps the links. -/
theorem onPcb (h : Hosts T stack) (p : ℕ) {f : PCB → PCB}
    (hf : (f (T.pcb p)).pidNum = (T.pcb p).pidNum ∧
      (f (T.pcb p)).parentPidNum = (T.pcb p).parentPidNum) : Hosts (T.onPcb p f) stack := by
  refine h.congr rfl ?_ rfl rfl h.current h.viewing
  intro t q hq
  by_cases hqp : q = p
  · subst hqp
    simpa [Table.onPcb, Table.parent, and_comm] using hf
  · simp [Table.onPcb, Table.parent, hqp]

theorem claim (h : Hosts T stack) {pid : ℕ} (hpid : T.nextPid = some pid) :
    Hosts (T.claim pid) stack := by
  refine h.congr rfl (fun t q hq => ⟨rfl,?_,rfl⟩) rfl rfl h.current h.viewing
  have hne : q ≠ pid := by rintro rfl; exact h.fresh (Table.nextPid_free hpid) t hq
  simp [Table.claim, hne]

theorem mapUser (h : Hosts T stack) (pid : ℕ) : Hosts (T.mapUser pid) stack :=
  h.congr rfl (fun _ _ _ => ⟨rfl,rfl,rfl⟩) rfl rfl h.current h.viewing

theorem view (h : Hosts T stack) {dest : ℕ} (hdest : dest < numTerm) :
    Hosts (T.view dest) stack :=
  h.congr rfl (fun _ _ _ => ⟨rfl,rfl,rfl⟩) rfl rfl h.current hdest

theorem park (h : Hosts T stack) (cpu : Cpu) {dest : ℕ} (hdest : dest < numTerm) :
    Hosts (T.park cpu dest) stack := by
  have hsave := h.onPcb (T.process T.viewingTerm) (f := PCB.saveContext cpu) ⟨rfl,rfl⟩
  exact hsave.congr rfl (fun _ _ _ => ⟨rfl,rfl,rfl⟩) rfl rfl hdest hdest

theorem shift (h : Hosts T stack) (cpu : Cpu) {next : ℕ} (hnext : next < numTerm) :
    Hosts (T.shift cpu next) stack := by
  have hsave := h.onPcb T.running (f := PCB.saveContext cpu) ⟨rfl,rfl⟩
  exact hsave.congr rfl (fun _ _ _ => ⟨rfl,rfl,rfl⟩) rfl rfl hnext h.viewing

theorem start (h : Hosts T stack) {pid : ℕ} (hpid : T.nextPid = some pid) (cpu : Cpu)
    (args : List UInt8) :
    Hosts (T.start cpu pid args)
      (Function.update stack T.currentTerm (pid :: stack T.currentTerm)) where
  forest := by
    have hfresh := h.fresh (Table.nextPid_free hpid)
    apply h.forest.push hfresh
    · intro j b hb
      have hne : b ≠ pid := by rintro rfl; exact hfresh j hb
      simp [Table.parent, Table.start, hne]
    · have hempty : stack T.currentTerm = [] ↔ T.totalProgs T.currentTerm = 0 := by
        rw [h.progs]; simp
      simp [Table.parent, Table.start, PCB.start, Table.parentFor, hempty, Table.running]
  outside := h.outside_update h.current _
  member t p hp := by
    by_cases hpp : p = pid
    · subst hpp
      exact ⟨Table.nextPid_lt hpid,by simp [Table.start],by simp [Table.start, PCB.start]⟩
    · have hold : ∃ u, p ∈ stack u := by
        by_cases ht : t = T.currentTerm
        · subst ht
          rw [Function.update_self] at hp
          exact ⟨_,(List.mem_cons.mp hp).resolve_left hpp⟩
        · rw [Function.update_of_ne ht] at hp
          exact ⟨t,hp⟩
      obtain ⟨u,hu⟩ := hold
      simpa [Table.start, hpp] using h.member u p hu
  progs t := by
    have hle := h.length_le T.currentTerm
    unfold maxNumProc at hle
    by_cases ht : t = T.currentTerm
    · subst ht
      simp [Table.start, h.progs]
      omega
    · simp [Table.start, Function.update_of_ne ht, h.progs]
  count := by
    have hle := h.count_le
    have hupd := count_update stack h.current (pid :: stack T.currentTerm)
    have hcount := h.count
    unfold maxNumProc at hle
    simp only [Table.start, List.length_cons] at hupd ⊢
    omega
  current := h.current
  viewing := h.viewing

/-- The running process gone and `x` on top of its terminal. -/
theorem remove (h : Hosts T stack) {l : List ℕ} (hs : stack T.currentTerm = T.running :: l)
    {x : ℕ} (hx : l ≠ [] → x = T.parent T.running) :
    Hosts { T.remove with process := Function.update T.process T.currentTerm x }
      (Function.update stack T.currentTerm l) where
  forest := by
    cases l with
    | nil =>
      refine (h.forest.clear T.currentTerm).congr (fun _ p _ => T.remove_parent p) ?_
      intro t ht
      have hne : t ≠ T.currentTerm := by rintro rfl; simp at ht
      exact Function.update_of_ne hne _ _
    | cons q l =>
      have hlinked := h.forest.linked T.currentTerm (by simp [hs])
      rw [hs] at hlinked
      have hq : x = q := (hx (by simp)).trans hlinked.pop.1
      rw [hq]
      exact (h.forest.pop hs).congr (fun _ p _ => T.remove_parent p) fun _ _ => rfl
  outside := h.outside_update h.current _
  member t p hp := by
    obtain ⟨hmem,hne⟩ := h.forest.mem_pop hs hp
    have hrunning : (T.pcb T.running).pidNum = T.running :=
      (h.member T.currentTerm T.running (by simp [hs])).2.2
    simpa [Table.remove, Table.onPcb, hrunning, hne] using h.member t p hmem
  progs t := by
    have hle := h.length_le T.currentTerm
    have hlen := congrArg List.length hs
    unfold maxNumProc at hle
    by_cases ht : t = T.currentTerm
    · subst ht
      simp only [Table.remove, Function.update_self, h.progs, List.length_cons] at hlen ⊢
      omega
    · simp [Table.remove, Function.update_of_ne ht, h.progs]
  count := by
    have hle := h.count_le
    have hupd := count_update stack h.current l
    have hcount := h.count
    have hlen := congrArg List.length hs
    unfold maxNumProc at hle
    simp only [Table.remove, List.length_cons] at hlen ⊢
    omega
  current := h.current
  viewing := h.viewing

/-- The end of a process that has a parent on its terminal. -/
theorem back (h : Hosts T stack) {q : ℕ} {l : List ℕ}
    (hs : stack T.currentTerm = T.running :: q :: l) :
    Hosts (T.remove.back T.running) (Function.update stack T.currentTerm (q :: l)) := by
  have hparent := T.remove_parent T.running
  refine (h.remove hs (x := (T.remove.pcb T.running).parentPidNum) fun _ => hparent).congr rfl
    ?_ rfl rfl h.current h.viewing
  intro t p _
  by_cases hmark : (T.remove.pcb T.running).haltStat = 1
  · by_cases hp : p = T.running
    · subst hp
      simp [Table.back, Table.parent, PCB.setHaltStat, hmark]
    · simp [Table.back, Table.parent, hmark, hp]
  · simp [Table.back, Table.parent, hmark]

/-- The end of the last process of a terminal, and its new shell. -/
theorem restart (h : Hosts T stack) (hs : stack T.currentTerm = [T.running]) {pid : ℕ}
    (hpid : T.remove.nextPid = some pid) (cpu : Cpu) (args : List UInt8) :
    Hosts (T.remove.start cpu pid args) (Function.update stack T.currentTerm [pid]) := by
  have hremove := h.remove hs (x := T.running) (by simp)
  rw [show T.running = T.process T.currentTerm from rfl, Function.update_eq_self] at hremove
  have hstart := Hosts.start (T := T.remove) hremove hpid cpu args
  have hcurrent : T.remove.currentTerm = T.currentTerm := rfl
  rwa [hcurrent, Function.update_self, Function.update_idem] at hstart

end Hosts

/-! ### PIDs without a process -/

namespace Tight
variable {T : Table} {stack : ℕ → List ℕ}

theorem start (h : Tight T stack) {pid : ℕ} (cpu : Cpu) (args : List UInt8) :
    Tight (T.start cpu pid args)
      (Function.update stack T.currentTerm (pid :: stack T.currentTerm)) := by
  intro p hp₆ hp
  by_cases hpp : p = pid
  · subst hpp
    exact ⟨T.currentTerm,by simp⟩
  · obtain ⟨t,ht⟩ := h p hp₆ (by simpa [Table.start, hpp] using hp)
    refine ⟨t,?_⟩
    by_cases htt : t = T.currentTerm
    · subst htt
      simp [ht]
    · rwa [Function.update_of_ne htt]

theorem remove (h : Tight T stack) (hosts : Hosts T stack) {l : List ℕ}
    (hs : stack T.currentTerm = T.running :: l) :
    Tight T.remove (Function.update stack T.currentTerm l) := by
  intro p hp₆ hp
  have hrunning : (T.pcb T.running).pidNum = T.running :=
    (hosts.member T.currentTerm T.running (by simp [hs])).2.2
  have hne : p ≠ T.running := by
    rintro rfl
    simp [Table.remove, hrunning] at hp
  obtain ⟨t,ht⟩ := h p hp₆ (by simpa [Table.remove, hrunning, hne] using hp)
  refine ⟨t,?_⟩
  by_cases htt : t = T.currentTerm
  · subst htt
    rw [hs] at ht
    rw [Function.update_self]
    exact (List.mem_cons.mp ht).resolve_left hne
  · rwa [Function.update_of_ne htt]

end Tight
end GameOfThreads
