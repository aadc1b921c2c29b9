import GameOfThreads.ProcessInvariants
import GameOfThreads.Waiting

/-! The processes inside a read. Only the process on top of its terminal can be inside a
terminal_read, and as long as such a process makes no other call the changes of the account leave
it there. -/
namespace GameOfThreads
open Machine

/-- The process is inside a terminal_read that has not returned. -/
def InRead (waiting : ℕ → Option Wait) (p : ℕ) : Prop := ∃ limit, waiting p = some (.terminal limit)

def Reading (waiting : ℕ → Option Wait) (l : List ℕ) : Prop := ∃ p ∈ l, InRead waiting p

/-- A process of terminal `t` is inside a terminal_read. -/
def Kernel.Pending (k : Kernel) (t : ℕ) : Prop := Reading k.waiting (k.chain t)

/-- Only the process on top of its terminal can be inside a read. -/
structure Seated (T : Table) (stack : ℕ → List ℕ) (waiting : ℕ → Option Wait) : Prop where
  hosts : Hosts T stack
  running : stack T.currentTerm ≠ []
  top : ∀ t, ∀ p ∈ stack t, InRead waiting p → p = T.process t

namespace Seated
variable {T T' : Table} {stack stack' : ℕ → List ℕ} {waiting waiting' : ℕ → Option Wait}

theorem idle (h : Seated T stack waiting) (hidle : ¬InRead waiting T.running) :
    ¬Reading waiting (stack T.currentTerm) := by
  rintro ⟨p,hp,hinside⟩
  have htop : p = T.running := h.top T.currentTerm p hp hinside
  exact hidle (htop ▸ hinside)

/-- A change of the account that leaves the processes where they are. -/
theorem congr (h : Seated T stack waiting) (hosts : Hosts T' stack)
    (hrunning : stack T'.currentTerm ≠ []) (hprocess : T'.process = T.process) :
    Seated T' stack waiting :=
  ⟨hosts,hrunning,fun t p hp hinside => by rw [hprocess]; exact h.top t p hp hinside⟩

/-- A change of a terminal on which nobody reads. -/
theorem renew (h : Seated T stack waiting) {c : ℕ} (hidle : ¬Reading waiting (stack c))
    (hosts : Hosts T' stack') (hrunning : stack' T'.currentTerm ≠ [])
    (hc : ¬Reading waiting' (stack' c)) (hother : ∀ t, t ≠ c → stack' t = stack t ∧
      T'.process t = T.process t ∧ ∀ p ∈ stack t, waiting' p = waiting p) :
    Seated T' stack' waiting' ∧
      ∀ t, Reading waiting' (stack' t) ↔ Reading waiting (stack t) := by
  have hinside : ∀ t, t ≠ c → ∀ p ∈ stack t, InRead waiting' p ↔ InRead waiting p := by
    intro t ht p hp
    rw [InRead, (hother t ht).2.2 p hp, InRead]
  refine ⟨⟨hosts,hrunning,?_⟩,?_⟩
  · intro t p hp hin
    by_cases ht : t = c
    · subst ht
      exact absurd ⟨p,hp,hin⟩ hc
    · obtain ⟨hstack,hprocess,-⟩ := hother t ht
      rw [hstack] at hp
      rw [hprocess]
      exact h.top t p hp ((hinside t ht p hp).mp hin)
  · intro t
    by_cases ht : t = c
    · subst ht
      exact iff_of_false hc hidle
    · rw [(hother t ht).1]
      exact exists_congr fun p => and_congr_right fun hp => hinside t ht p hp

/-- A process starts on a terminal on which nobody reads. -/
theorem start (h : Seated T stack waiting) {c pid : ℕ} (hidle : ¬Reading waiting (stack c))
    (hosts : Hosts T' stack') (hcurrent : T'.currentTerm = c) (hpid : pid ∈ stack' c)
    (hc : ∀ p ∈ stack' c, p = pid ∨ p ∈ stack c)
    (hother : ∀ t, t ≠ c → stack' t = stack t ∧ T'.process t = T.process t) :
    Seated T' stack' (Function.update waiting pid none) ∧
      ∀ t, Reading (Function.update waiting pid none) (stack' t) ↔ Reading waiting (stack t) := by
  have hrunning : stack' T'.currentTerm ≠ [] := by
    rw [hcurrent]
    exact List.ne_nil_of_mem hpid
  refine h.renew hidle hosts hrunning ?_ ?_
  · rintro ⟨p,hp,limit,hinside⟩
    by_cases hpp : p = pid
    · rw [hpp, Function.update_self] at hinside
      cases hinside
    · rw [Function.update_of_ne hpp] at hinside
      exact hidle ⟨p,(hc p hp).resolve_left hpp,limit,hinside⟩
  · intro t ht
    obtain ⟨hstack,hprocess⟩ := hother t ht
    refine ⟨hstack,hprocess,fun p hp => Function.update_of_ne ?_ ..⟩
    rintro rfl
    exact hosts.forest.disjoint t c ht (hstack ▸ hp) hpid

/-- A shell starts on a terminal without processes. -/
theorem park (h : Seated T stack waiting) (cpu : Cpu) {dest pid : ℕ} (hdest : dest < numTerm)
    (hnone : T.totalProgs dest = 0) (hpid : T.nextPid = some pid) :
    ∃ stack', Seated ((T.park cpu dest).start cpu pid []) stack' (rouse waiting (some pid)) ∧
      ∀ t, Reading (rouse waiting (some pid)) (stack' t) ↔ Reading waiting (stack t) := by
  have hempty : stack dest = [] := by
    rw [h.hosts.progs] at hnone
    exact List.length_eq_zero_iff.mp hnone
  have hidle : ¬Reading waiting (stack dest) := by
    rw [hempty]
    exact fun ⟨_,hp,_⟩ => List.not_mem_nil hp
  have hpark := Hosts.start (T := T.park cpu dest) (h.hosts.park cpu hdest) hpid cpu []
  have hcurrent : ((T.park cpu dest).start cpu pid []).currentTerm = dest := rfl
  have hself : Function.update stack (T.park cpu dest).currentTerm
      (pid :: stack (T.park cpu dest).currentTerm) dest = pid :: stack dest :=
    Function.update_self ..
  refine ⟨_,h.start hidle hpark hcurrent (by rw [hself]; exact List.mem_cons_self ..) ?_ ?_⟩
  · intro p hp
    rw [hself] at hp
    exact List.mem_cons.mp hp
  · intro t ht
    exact ⟨Function.update_of_ne ht ..,Function.update_of_ne ht ..⟩

/-- The running process goes into a wait, or comes out of one. -/
theorem serve (h : Seated T stack waiting) (w : Option Wait) :
    Seated T stack (Function.update waiting T.running w) ∧
      ∀ t, Reading (Function.update waiting T.running w) (stack t) ↔
        if t = T.currentTerm then ∃ limit, w = some (.terminal limit)
        else Reading waiting (stack t) := by
  have hown : ∀ p ∈ stack T.currentTerm,
      InRead (Function.update waiting T.running w) p → p = T.running := by
    rintro p hp ⟨limit,hinside⟩
    by_contra hne
    rw [Function.update_of_ne hne] at hinside
    exact hne (h.top T.currentTerm p hp ⟨limit,hinside⟩)
  have hother : ∀ t, t ≠ T.currentTerm → ∀ p ∈ stack t,
      Function.update waiting T.running w p = waiting p := by
    intro t ht p hp
    apply Function.update_of_ne
    rintro rfl
    exact h.hosts.forest.disjoint t T.currentTerm ht hp (h.hosts.top_mem h.running)
  refine ⟨⟨h.hosts,h.running,?_⟩,?_⟩
  · intro t p hp hinside
    by_cases ht : t = T.currentTerm
    · subst ht
      exact hown p hp hinside
    · rw [InRead, hother t ht p hp] at hinside
      exact h.top t p hp hinside
  · intro t
    split_ifs with ht
    · subst ht
      constructor
      · rintro ⟨p,hp,limit,hinside⟩
        rw [hown p hp ⟨limit,hinside⟩, Function.update_self] at hinside
        exact ⟨limit,hinside⟩
      · rintro ⟨limit,rfl⟩
        exact ⟨T.running,h.hosts.top_mem h.running,limit,Function.update_self ..⟩
    · refine exists_congr fun p => and_congr_right fun hp => ?_
      rw [InRead, hother t ht p hp, InRead]

end Seated

/-- The processes after a change of the account by the running process, which is not inside a
read. -/
theorem Change.seated {op : Op} {cpu : Cpu} {T T' : Table} {out : Out} (h : Change op cpu T out T')
    {stack : ℕ → List ℕ} {waiting : ℕ → Option Wait} (hs : Seated T stack waiting)
    (hidle : ¬InRead waiting T.running) :
    ∃ stack', Seated T' stack' (rouse waiting out.started) ∧
      ∀ t, Reading (rouse waiting out.started) (stack' t) ↔ Reading waiting (stack t) := by
  have hrest : ∀ {T' : Table}, Hosts T' stack → stack T'.currentTerm ≠ [] →
      T'.process = T.process → out.started = none → ∃ stack',
        Seated T' stack' (rouse waiting out.started) ∧
        ∀ t, Reading (rouse waiting out.started) (stack' t) ↔ Reading waiting (stack t) := by
    intro T' hosts hrunning hprocess hout
    rw [hout]
    exact ⟨stack,hs.congr hosts hrunning hprocess,fun _ => Iff.rfl⟩
  have hnobody := hs.idle hidle
  obtain ⟨l,hl⟩ := hs.hosts.head hs.running
  induction h with
  | same hout => exact hrest hs.hosts hs.running rfl (by rcases hout with rfl | rfl | rfl <;> rfl)
  | claim hpid hr =>
    exact hrest (hs.hosts.claim hpid) hs.running rfl (by rcases hr with rfl | rfl <;> rfl)
  | mapUser hpid => exact hrest (hs.hosts.mapUser _) hs.running rfl rfl
  | @start T pid entry args hpid =>
    refine ⟨_,hs.start hnobody (hs.hosts.start hpid cpu args) rfl (by simp) ?_ ?_⟩
    · intro p hp
      rw [Function.update_self] at hp
      exact List.mem_cons.mp hp
    · intro t ht
      exact ⟨Function.update_of_ne ht ..,Function.update_of_ne ht ..⟩
  | @back T status hmore =>
    cases l with
    | nil => simp [Table.remove, hs.hosts.progs, hl] at hmore
    | cons q l =>
      refine ⟨_,hs.renew hnobody (hs.hosts.back hl)
        (by simp [Table.back, Table.remove, Table.onPcb]) ?_ ?_⟩
      · rintro ⟨p,hp,hinside⟩
        rw [Function.update_self] at hp
        exact hnobody ⟨p,by rw [hl]; exact List.mem_cons_of_mem _ hp,hinside⟩
      · intro t ht
        exact ⟨Function.update_of_ne ht ..,Function.update_of_ne ht ..,fun _ _ => rfl⟩
  | @restart T pid entry hlast hpid =>
    obtain rfl := hs.hosts.alone hl hlast
    refine ⟨_,hs.start hnobody (hs.hosts.restart hl hpid cpu []) rfl (by simp) ?_ ?_⟩
    · intro p hp
      rw [Function.update_self] at hp
      exact .inl (List.mem_singleton.mp hp)
    · intro t ht
      exact ⟨Function.update_of_ne ht ..,Function.update_of_ne ht ..⟩
  | @marked T out T' _ ih =>
    exact ih (hs.congr (hs.hosts.onPcb _ ⟨rfl,rfl⟩) hs.running rfl) hidle hrest hnobody hl
  | @shift T next hnext hne hprogs =>
    refine hrest (hs.hosts.shift _ hnext) ?_ rfl rfl
    rw [hs.hosts.progs] at hprogs
    exact List.length_pos_iff.mp hprogs
  | view hdest hprogs => exact hrest (hs.hosts.view hdest) hs.running rfl rfl
  | @park T dest pid entry hop hdest hne hnone hroom hpid => exact hs.park cpu hdest hnone hpid

/-! ### The account after an event -/

/-- The stacks of processes after an event, and who reads on them. -/
def Reseats (T' : Table) (waiting' : ℕ → Option Wait) (stack : ℕ → List ℕ)
    (waiting : ℕ → Option Wait) : Prop :=
  ∃ stack', Seated T' stack' waiting' ∧
    ∀ t, Reading waiting' (stack' t) ↔ Reading waiting (stack t)

section
variable {fs : FileSystem} {k : Kernel} {stack : ℕ → List ℕ}

theorem Seated.pit (hs : Seated k.table stack k.waiting) (cpu : Cpu) :
    Reseats (pitHandler cpu k).2.table (pitHandler cpu k).2.waiting stack k.waiting := by
  obtain ⟨hnext,hprogs⟩ := getScheduledTerm_spec k hs.hosts.current
  rw [pitHandler_waiting]
  rcases pitHandler_cases cpu k with ⟨-,hout,ht⟩ | ⟨hne,hout,ht⟩
  · rw [hout, ht]
    exact ⟨stack,hs,fun _ => Iff.rfl⟩
  · rw [hout, ht]
    refine ⟨stack,hs.congr (hs.hosts.shift cpu hnext) ?_ rfl,fun _ => Iff.rfl⟩
    have hlive : 0 < k.table.totalProgs (getScheduledTerm k) := hprogs hne
    rw [hs.hosts.progs] at hlive
    exact List.length_pos_iff.mp hlive

theorem Seated.switch (hs : Seated k.table stack k.waiting) (hshell : fs.Loadable (text "shell"))
    (cpu : Cpu) {dest : ℕ} (hdest : dest < numTerm)
    (hroom : k.totalProgs dest = 0 → k.processCnt+1 ≤ maxNumProc →
      ∃ pid, k.table.nextPid = some pid) :
    Reseats (terminalSwitch fs cpu k.viewingTerm dest k).2.table
      (terminalSwitch fs cpu k.viewingTerm dest k).2.waiting stack k.waiting := by
  rw [terminalSwitch_waiting]
  rcases terminalSwitch_cases fs cpu dest k with ⟨-,hout,ht⟩ | ⟨-,-,hprogs,hout,ht⟩ |
    ⟨⟨-,hne,hnone,hcount⟩,k',hk',hout,ht⟩
  · rw [hout, ht]
    exact ⟨stack,hs,fun _ => Iff.rfl⟩
  · rw [hout, ht]
    exact ⟨stack,hs.congr (hs.hosts.view hdest) hs.running rfl,fun _ => Iff.rfl⟩
  · obtain ⟨pid,hpid⟩ := hroom hnone hcount
    have hpid' : k'.table.nextPid = some pid := by rw [hk']; exact hpid
    obtain ⟨entry,hr,hstart⟩ := execute_shell hshell cpu hpid'
    rw [hout, ht, hr, hstart, hk']
    exact hs.park cpu hdest hnone hpid

theorem Seated.key (hs : Seated k.table stack k.waiting) (hshell : fs.Loadable (text "shell"))
    (cpu : Cpu) (pressed : ℕ) (hroom : k.processCnt+1 ≤ maxNumProc →
      ∃ pid, k.table.nextPid = some pid) :
    Reseats (keyboardSwitch fs cpu pressed k).2.table (keyboardSwitch fs cpu pressed k).2.waiting
      stack k.waiting := by
  rcases keyboardSwitch_cases fs cpu pressed k with ⟨hout,ht⟩ | ⟨dest,hdest,-,heq⟩
  · rw [keyboardSwitch_waiting, hout, ht]
    exact ⟨stack,hs,fun _ => Iff.rfl⟩
  · rw [heq]
    exact hs.switch hshell cpu hdest fun _ => hroom

end

end GameOfThreads
