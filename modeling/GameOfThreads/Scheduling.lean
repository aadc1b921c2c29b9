import GameOfThreads.UserPages
import GameOfThreads.Machine.RoundRobin

/-! The turns of the terminals. The timer moves the processor round the ring of open terminals;
halts and executes keep it where it is, and only the first shell of a terminal takes it out of
turn. -/
namespace GameOfThreads
open Machine

/-- The ticks that terminal `t` waits at most: those that the ring has between it and what runs,
and one more when the terminal behind it may still be opened in front of it. -/
def Table.wait (T : Table) (t : ℕ) : ℕ :=
  gap numTerm T.currentTerm t+
    if gap numTerm T.currentTerm t = 1 ∧ T.totalProgs ((t+1) % numTerm) = 0 then 1 else 0

namespace Table
variable {T T' : Table} {t : ℕ}

theorem wait_le (hcurrent : T.currentTerm < numTerm) (ht : t < numTerm) : T.wait t ≤ 2 := by
  have hgap := gap_lt hcurrent ht
  unfold wait
  unfold numTerm at *
  split_ifs <;> omega

theorem wait_pos (hcurrent : T.currentTerm < numTerm) (hne : T.currentTerm ≠ t) : 0 < T.wait t :=
  Nat.add_pos_left ((gap_pos hcurrent).mpr hne) _

/-- What is two places in front of a terminal is right behind it. -/
theorem behind_eq {i : ℕ} (hi : i < numTerm) (ht : t < numTerm) (hgap : gap numTerm i t = 2) :
    (t+1) % numTerm = i := by
  unfold gap numTerm at *
  split_ifs at hgap <;> omega

/-- The processor goes forward. -/
theorem wait_tick (hcurrent : T.currentTerm < numTerm) (ht : t < numTerm)
    (hopen : T'.totalProgs T.currentTerm ≠ 0)
    (hgap : gap numTerm T'.currentTerm t < gap numTerm T.currentTerm t) :
    T'.wait t+1 ≤ T.wait t := by
  have hlt := gap_lt hcurrent ht
  unfold wait
  by_cases hfar : gap numTerm T.currentTerm t = 2
  · rw [behind_eq hcurrent ht hfar, if_neg fun h => hopen h.2]
    omega
  · have hzero : gap numTerm T'.currentTerm t = 0 := by
      unfold numTerm at *
      omega
    rw [hzero, if_neg fun h => absurd h.1 (by decide)]
    omega

/-- The processor stays. -/
theorem wait_stay (hopen : ∀ u, T.totalProgs u ≠ 0 → T'.totalProgs u ≠ 0)
    (hsame : T'.currentTerm = T.currentTerm) : T'.wait t ≤ T.wait t := by
  unfold wait
  rw [hsame]
  split_ifs with h h'
  · exact Nat.le_refl _
  · exact absurd (fun hprogs => hopen _ hprogs h.2) fun hn => h' ⟨h.1,not_not.mp hn⟩
  · omega
  · exact Nat.le_refl _

/-- A terminal that was closed gets the processor. -/
theorem wait_start (hcurrent : T.currentTerm < numTerm) (hcurrent' : T'.currentTerm < numTerm)
    (ht : t < numTerm) (hne : T.currentTerm ≠ t) (hopen : T.totalProgs t ≠ 0)
    (hrunning : T.totalProgs T.currentTerm ≠ 0) (hclosed : T.totalProgs T'.currentTerm = 0) :
    T'.wait t ≤ T.wait t := by
  have hlt := gap_lt hcurrent ht
  have hpos := (gap_pos (t := t) hcurrent).mpr hne
  have hmost := wait_le (T := T') hcurrent' ht
  by_cases hfar : gap numTerm T.currentTerm t = 2
  · have hleast : gap numTerm T.currentTerm t ≤ T.wait t := Nat.le_add_right ..
    omega
  · have hnear : gap numTerm T.currentTerm t = 1 := by
      unfold numTerm at *
      omega
    have hthird : T'.currentTerm = (t+1) % numTerm := by
      have hother : T'.currentTerm ≠ T.currentTerm := fun heq => hrunning (heq ▸ hclosed)
      have hother' : T'.currentTerm ≠ t := fun heq => hopen (heq ▸ hclosed)
      unfold gap numTerm at *
      split_ifs at hnear <;> omega
    have hwait : T.wait t = 2 := by
      rw [wait, hnear, ← hthird, if_pos ⟨rfl,hclosed⟩]
    omega

end Table

/-! ### One step -/

theorem returnToParent_unswitched (status p : ℕ) (k : Kernel) (esp ebp : ℕ) :
    (returnToParent status p k).1 ≠ .switched esp ebp := by
  simp only [returnToParent]
  split_ifs <;> exact Out.noConfusion

theorem halt_unswitched (fs : FileSystem) (cpu : Cpu) (status : ℕ) (k : Kernel) (esp ebp : ℕ) :
    (halt fs cpu status k).1 ≠ .switched esp ebp := by
  simp only [halt]
  split_ifs
  · split
    · exact Out.noConfusion
    · exact returnToParent_unswitched _ _ _ _ _
  · exact returnToParent_unswitched _ _ _ _ _

theorem terminalSwitch_unswitched (fs : FileSystem) (cpu : Cpu) (cur dest : ℕ) (k : Kernel)
    (esp ebp : ℕ) : (terminalSwitch fs cpu cur dest k).1 ≠ .switched esp ebp := by
  simp only [terminalSwitch]
  split_ifs
  · exact Out.noConfusion
  · exact Out.noConfusion
  · split <;> exact Out.noConfusion
  · exact Out.noConfusion

/-- Only the timer switches to another terminal. -/
theorem step_switched (fs : FileSystem) (k : Kernel) {op : Op} (hop : ∀ cpu, op ≠ .pit cpu)
    (esp ebp : ℕ) : (kernel fs).out k op ≠ .switched esp ebp := by
  cases op with
  | execute command cpu => exact Out.noConfusion
  | halt status cpu => exact halt_unswitched fs cpu status k esp ebp
  | squash cpu =>
    rw [out_squash, squashException]
    split_ifs
    · exact halt_unswitched _ _ _ _ _ _
    · exact Out.noConfusion
  | pit cpu => exact absurd rfl (hop cpu)
  | switch dest cpu => exact terminalSwitch_unswitched fs cpu k.viewingTerm dest k esp ebp
  | key pressed cpu =>
    change (keyboardSwitch fs cpu pressed { k with interrupts := false }).1 ≠ _
    rcases keyboardSwitch_cases fs cpu pressed { k with interrupts := false } with
      ⟨hout,-⟩ | ⟨dest,-,-,heq⟩
    · rw [hout]
      exact Out.noConfusion
    · rw [heq]
      exact terminalSwitch_unswitched _ _ _ _ _ _ _
  | rtc => exact Out.noConfusion
  | _ => exact Out.noConfusion

namespace Change
variable {op : Op} {cpu : Cpu} {T T' : Table} {out : Out}

/-- Programs come and go in the terminal that is left running. -/
theorem programs (h : Change op cpu T out T') {t : ℕ} (ht : t ≠ T'.currentTerm) :
    T'.totalProgs t = T.totalProgs t := by
  induction h with
  | same _ => rfl
  | claim _ _ => rfl
  | mapUser _ => rfl
  | start _ _ => exact Function.update_of_ne ht _ _
  | back _ _ => exact Function.update_of_ne ht _ _
  | restart _ _ => exact (Function.update_of_ne ht _ _).trans (Function.update_of_ne ht _ _)
  | marked _ ih => exact ih ht
  | shift _ _ _ => rfl
  | view _ _ => rfl
  | park _ _ _ _ _ _ => exact Function.update_of_ne ht _ _

/-- What is not a switch leaves the processor to the terminal, or starts one that was closed. -/
theorem turn (h : Change op cpu T out T') (hout : ∀ esp ebp, out ≠ .switched esp ebp) :
    T'.currentTerm = T.currentTerm ∨ T.totalProgs T'.currentTerm = 0 := by
  induction h with
  | shift _ _ _ => exact absurd rfl (hout _ _)
  | marked _ ih => exact ih hout
  | park _ _ _ hnone _ _ => exact .inr hnone
  | _ => exact .inl rfl

end Change

section
variable {k : Kernel} {t : ℕ}

/-- The search goes past no open terminal. -/
theorem scheduledFrom_gap (ht : t < numTerm) (hopen : 0 < k.totalProgs t) (fuel : ℕ) {term : ℕ}
    (hterm : term < numTerm) :
    gap numTerm (scheduledFrom k fuel term) t ≤ gap numTerm term t := by
  induction fuel generalizing term with
  | zero => exact Nat.le_refl _
  | succ fuel ih =>
    unfold scheduledFrom
    split_ifs with hhere hprogs
    · exact Nat.le_refl _
    · exact Nat.le_refl _
    · have hne : term ≠ t := by
        rintro rfl
        exact hprogs hopen
      have hnext := gap_next hterm ht hne
      have hle := ih (Nat.mod_lt (term+1) (show 0 < numTerm by decide))
      omega

/-- A tick brings the processor nearer to every open terminal that waits. -/
theorem getScheduledTerm_gap (hcurrent : k.currentTerm < numTerm) (ht : t < numTerm)
    (hopen : 0 < k.totalProgs t) (hne : k.currentTerm ≠ t) :
    gap numTerm (getScheduledTerm k) t < gap numTerm k.currentTerm t := by
  have hnext := gap_next hcurrent ht hne
  have hle := scheduledFrom_gap ht hopen numTerm
    (Nat.mod_lt (k.currentTerm+1) (show 0 < numTerm by decide))
  unfold getScheduledTerm
  omega

end

/-! ### Every event -/

section
variable {fs : FileSystem} {k : Kernel} {op : Op}

theorem Owned.open (h : Owned k) : k.currentTerm < numTerm ∧ k.totalProgs k.currentTerm ≠ 0 := by
  obtain ⟨stack,hosts,hrunning,-⟩ := h.account
  refine ⟨hosts.current,?_⟩
  have hprogs : k.totalProgs k.currentTerm = _ := hosts.progs k.currentTerm
  rw [hprogs]
  exact fun hnil => hrunning (List.length_eq_zero_iff.mp hnil)

/-- Terminals stay open. What is running keeps the processor, unless the timer takes it or a
terminal that was closed gets it. -/
theorem turn_step (hshell : fs.Loadable (text "shell")) (h : Owned k) (hop : Affordable fs k op) :
    (∀ t, t ≠ ((kernel fs).next k op).currentTerm →
      ((kernel fs).next k op).totalProgs t = k.totalProgs t) ∧
    ((∀ cpu, op ≠ .pit cpu) →
      ((kernel fs).next k op).currentTerm = k.currentTerm ∨
        k.totalProgs ((kernel fs).next k op).currentTerm = 0) := by
  obtain ⟨stack,hosts,hrunning,-⟩ := h.account
  rcases step_change hshell hosts hrunning hop with hdes | ⟨op',cpu,hchange,-⟩
  · have hprogs : ((kernel fs).next k op).totalProgs = k.totalProgs :=
      congrArg Table.totalProgs hdes.rest
    have hcurrent : ((kernel fs).next k op).currentTerm = k.currentTerm :=
      congrArg Table.currentTerm hdes.rest
    exact ⟨fun t _ => congrFun hprogs t,fun _ => .inl hcurrent⟩
  · exact ⟨fun t ht => hchange.programs ht,
      fun hpit => hchange.turn fun esp ebp => step_switched fs k hpit esp ebp⟩

/-- Terminal `t` has programs. -/
def Kernel.OpenTerm (t : ℕ) (k : Kernel) : Prop := t < numTerm ∧ k.totalProgs t ≠ 0

theorem open_step {t : ℕ} (hshell : fs.Loadable (text "shell")) (h : Owned k)
    (hop : Affordable fs k op) (ht : k.OpenTerm t) : ((kernel fs).next k op).OpenTerm t := by
  refine ⟨ht.1,?_⟩
  by_cases hcurrent : t = ((kernel fs).next k op).currentTerm
  · rw [hcurrent]
    exact (owned_step hshell h hop).open.2
  · rw [(turn_step hshell h hop).1 t hcurrent]
    exact ht.2

def Op.tick : Op → Bool
  | .pit _ => true
  | _ => false

/-- Until it runs, each tick is one less for a terminal to wait. -/
theorem wait_step {t : ℕ} (hshell : fs.Loadable (text "shell")) (h : Owned k)
    (hop : Affordable fs k op) (ht : k.OpenTerm t) (hne : k.currentTerm ≠ t) :
    ((kernel fs).next k op).table.wait t+(if op.tick then 1 else 0) ≤ k.table.wait t := by
  obtain ⟨hcurrent,hrunning⟩ := h.open
  have hcurrent' := (owned_step hshell h hop).open.1
  have hopen : ∀ u, k.totalProgs u ≠ 0 → ((kernel fs).next k op).totalProgs u ≠ 0 := by
    intro u hu
    by_cases hlt : u < numTerm
    · exact (open_step hshell h hop ⟨hlt,hu⟩).2
    · rw [(turn_step hshell h hop).1 u fun heq => hlt (heq ▸ hcurrent')]
      exact hu
  by_cases hpit : ∃ cpu, op = .pit cpu
  · obtain ⟨cpu,rfl⟩ := hpit
    have hnext : ((kernel fs).next k (.pit cpu)).table.currentTerm = getScheduledTerm k := by
      rcases pitHandler_cases cpu k with ⟨hstay,-,ht⟩ | ⟨-,-,ht⟩
      · exact (congrArg Table.currentTerm ht).trans hstay.symm
      · exact congrArg Table.currentTerm ht
    refine Table.wait_tick (T := k.table) hcurrent ht.1 (hopen _ hrunning) ?_
    rw [hnext]
    exact getScheduledTerm_gap hcurrent ht.1 (Nat.pos_of_ne_zero ht.2) hne
  · have htick : op.tick = false := by
      cases op with
      | pit cpu => exact absurd ⟨cpu,rfl⟩ hpit
      | _ => rfl
    rw [htick]
    rcases (turn_step hshell h hop).2 fun cpu heq => hpit ⟨cpu,heq⟩ with hsame | hclosed
    · exact Table.wait_stay (T := k.table) hopen hsame
    · exact Table.wait_start (T := k.table) hcurrent hcurrent' ht.1 hne ht.2 hrunning hclosed

/-- No terminal with programs waits for more than two ticks, whatever the processes, the other
interrupts and the keyboard do in between. -/
theorem no_starvation (hshell : fs.Loadable (text "shell")) (pcb : ℕ → PCB) (phys : ℕ → UInt8)
    (cpu : Cpu) (before after : List Op) (t : ℕ)
    (hops : (kernel fs).Along (Affordable fs) (booted fs pcb phys cpu) (before ++ after))
    (ht : ((kernel fs).run (booted fs pcb phys cpu) before).OpenTerm t)
    (hticks : 2 ≤ after.countP Op.tick) :
    ∃ p, p <+: after ∧
      ((kernel fs).run (booted fs pcb phys cpu) (before ++ p)).currentTerm = t := by
  obtain ⟨hbefore,hafter⟩ := (System.along_append ..).mp hops
  have howned : Owned ((kernel fs).run (booted fs pcb phys cpu) before) :=
    System.Along.invariant (fun _ _ h hop => owned_step hshell h hop)
      (booted_owned hshell pcb phys cpu) hbefore
  have hwait : ((kernel fs).run (booted fs pcb phys cpu) before).table.wait t ≤ 2 :=
    Table.wait_le howned.open.1 ht.1
  obtain ⟨p,hp,hreached⟩ := System.Along.reaches (I := fun k => Owned k ∧ k.OpenTerm t)
    (fun k => k.currentTerm = t) Op.tick (fun k => k.table.wait t)
    (fun k op h hop => ⟨owned_step hshell h.1 hop,open_step hshell h.1 hop h.2⟩)
    (fun k h hne => Table.wait_pos h.1.open.1 hne)
    (fun k op h hop hne => wait_step hshell h.1 hop h.2 hne) ⟨howned,ht⟩ hafter
    (Nat.le_trans hwait hticks)
  exact ⟨p,hp,by rwa [System.run_append]⟩

end

/-- A second shell, one on another terminal, and a tick. -/
def threeShells : List Op :=
  [.execute (some (text "shell")) ⟨4,8,fun _ => 0⟩,.switch 1 ⟨0,0,fun _ => 0⟩,
    .pit ⟨0,0,fun _ => 0⟩]

theorem threeShells_affordable : (kernel shellImage).Along (Affordable shellImage)
    (booted shellImage (fun _ => PCB.zero) (fun _ => 0) ⟨0,0,fun _ => 0⟩) threeShells := by
  refine ⟨⟨trivial,?_,False.elim⟩,⟨Nat.le_of_ble_eq_true rfl,?_,?_⟩,⟨trivial,?_,False.elim⟩,
    trivial⟩
  · intro command cpu h
    obtain ⟨pid,entry,hstart⟩ :=
      (booted_execute shellImage_loadable (fun _ => PCB.zero) (fun _ => 0) ⟨0,0,fun _ => 0⟩
        ⟨4,8,fun _ => 0⟩).2 command cpu h
    rw [hstart]
    exact ExecResult.noConfusion
  · exact fun _ _ => Op.noConfusion
  · exact fun _ _ => ⟨2,by decide +kernel⟩
  · exact fun _ _ => Op.noConfusion

theorem affordable_pit (fs : FileSystem) (k : Kernel) (cpu : Cpu) : Affordable fs k (.pit cpu) :=
  ⟨trivial,fun _ _ => Op.noConfusion,False.elim⟩

/-- The second terminal runs again within two ticks. -/
theorem no_starvation_shells : ∃ p, p <+: [Op.pit ⟨0,0,fun _ => 0⟩,.pit ⟨0,0,fun _ => 0⟩] ∧
    ((kernel shellImage).run (booted shellImage (fun _ => PCB.zero) (fun _ => 0) ⟨0,0,fun _ => 0⟩)
      (threeShells ++ p)).currentTerm = 1 := by
  refine no_starvation shellImage_loadable _ _ _ threeShells _ 1 ?_ ⟨by decide,by decide +kernel⟩
    (Nat.le_refl 2)
  exact (System.along_append ..).mpr
    ⟨threeShells_affordable,affordable_pit _ _ _,affordable_pit _ _ _,trivial⟩

end GameOfThreads
