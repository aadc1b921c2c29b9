import GameOfThreads.Drawing

/-! What the terminals show and what has been typed on them. The process and file calls and
the timer change neither, apart from messages that they print and screens that they clear;
only the keyboard and terminal_read do more. -/
namespace GameOfThreads
open Machine

/-- `k'` differs from `k` in nothing that the terminals show or have been typed. -/
structure Unseen (k k' : Kernel) : Prop where
  terminals : ∀ t, k'.terminal t = { k.terminal t with process := (k'.terminal t).process }
  cells : k'.video.cells = k.video.cells
  keyStores : k'.keyStores = k.keyStores
  histCopies : k'.histCopies = k.histCopies

namespace Unseen
variable {k k' k'' : Kernel}

theorem refl (k : Kernel) : Unseen k k := ⟨fun _ => rfl,rfl,rfl,rfl⟩

theorem trans (h : Unseen k k') (h' : Unseen k' k'') : Unseen k k'' where
  terminals t := by rw [h'.terminals t, h.terminals t]
  cells := h'.cells.trans h.cells
  keyStores := h'.keyStores.trans h.keyStores
  histCopies := h'.histCopies.trans h.histCopies

end Unseen

/-- `k'` comes from `k` by characters on the terminals, by clearing some of them, and by
changes that none of them shows. -/
inductive Prints (wiped : ℕ → Prop) (k : Kernel) : Kernel → Prop
  | same : Prints wiped k k
  | unseen {k' k''} (h : Prints wiped k k') (h' : Unseen k' k'') : Prints wiped k k''
  | putc {k'} (c : UInt8) (term : ℕ) (hterm : term < numTerm) (h : Prints wiped k k') :
      Prints wiped k (termPutc c term k')
  | clear {k'} (term : ℕ) (hterm : term < numTerm) (hwiped : wiped term)
      (h : Prints wiped k k') : Prints wiped k (termClear term k')

section
variable {wiped : ℕ → Prop} {k k' k'' : Kernel}

theorem Prints.trans (h : Prints wiped k k') (h' : Prints wiped k' k'') : Prints wiped k k'' := by
  induction h' with
  | same => exact h
  | unseen _ hu ih => exact ih.unseen hu
  | putc c term hterm _ ih => exact ih.putc c term hterm
  | clear term hterm hwiped _ ih => exact ih.clear term hterm hwiped

theorem Unseen.prints (h : Unseen k k') : Prints wiped k k' := Prints.same.unseen h

end

/-! ### Memory -/

@[simp] theorem Video.store_cells (a : ℕ) (b : UInt8) (v : Video) :
    (v.store a b).cells = v.cells := by
  unfold store
  cases v.translate a <;> rfl

@[simp] theorem Video.memcpy_cells (dest src n : ℕ) (v : Video) :
    (v.memcpy dest src n).cells = v.cells :=
  foldl_keeps _ _ _ _ fun _ _ => store_cells ..

@[simp] theorem Video.loadProgram_cells (entry : ℕ) (bytes : List UInt8) (v : Video) :
    (v.loadProgram entry bytes).cells = v.cells := by
  apply foldl_keeps _ _ _ _
  intro v i
  simp only
  split_ifs
  · rfl
  · exact store_cells ..

@[simp] theorem exchangeScreens_cells (cur dest : ℕ) (k : Kernel) :
    (exchangeScreens cur dest k).cells = k.video.cells := by
  simp [exchangeScreens, mapTermToBuf, mapTermToVid, Video.setPage]

theorem moveCursor_unseen (term : ℕ) (k : Kernel) : Unseen k (moveCursor term k) := by
  unfold moveCursor
  split_ifs
  · exact .refl k
  · exact ⟨fun _ => rfl,rfl,rfl,rfl⟩

theorem Aside.unseen {k k' : Kernel} (h : Aside k k') : Unseen k k' := by
  refine ⟨h.terminals,?_,?_,?_⟩ <;> rw [h.rest]

theorem viewTerm_unseen (cur dest : ℕ) (k : Kernel) : Unseen k (viewTerm cur dest k) := by
  have hview : Unseen k { k with video := exchangeScreens cur dest k, viewingTerm := dest } :=
    ⟨fun _ => rfl,exchangeScreens_cells ..,rfl,rfl⟩
  exact hview.trans (moveCursor_unseen dest _)

/-- Of the strokes of a call or a switch the characters and the cleared screens are seen. -/
theorem Draws.prints {wiped : ℕ → Prop} {ok : Stroke → Prop} {k k' : Kernel}
    (h : Draws Aside ok k k') (hputc : ∀ c t, ok (.putc c t) → t < numTerm)
    (hclear : ∀ t, ok (.clear t) → t < numTerm ∧ wiped t) (hrow : ∀ t, ¬ok (.row t))
    (herase : ∀ t, ¬ok (.erase t)) : Prints wiped k k' := by
  refine h.keeps (P := Prints wiped k) ?_ .same
  intro k₁ k₂ hdraw hprints
  cases hdraw with
  | aside h => exact hprints.unseen h.unseen
  | console hoff phys x y => exact hprints.unseen ⟨fun _ => rfl,rfl,rfl,rfl⟩
  | stroke s hs =>
    cases s with
    | putc c t => exact hprints.putc c t (hputc c t hs)
    | row t => exact absurd hs (hrow t)
    | erase t => exact absurd hs (herase t)
    | clear t =>
      obtain ⟨hterm,hwiped⟩ := hclear t hs
      exact hprints.clear t hterm hwiped
    | view cur dest => exact hprints.unseen (viewTerm_unseen cur dest k₁)
    | load pid bytes => exact hprints.unseen ⟨fun _ => rfl,Video.loadProgram_cells ..,rfl,rfl⟩

theorem terminalSwitch_prints (wiped : ℕ → Prop) (fs : FileSystem) (cpu : Cpu) (cur : ℕ) {dest : ℕ}
    (hdest : dest < numTerm) {k : Kernel} (hcurrent : k.currentTerm < numTerm)
    (hwiped : dest ≠ cur → k.totalProgs dest = 0 → wiped dest) :
    Prints wiped k (terminalSwitch fs cpu cur dest k).2 := by
  refine (terminalSwitch_switched fs cpu cur dest k).draws.prints ?_ ?_ (fun _ h => h) fun _ h => h
  · rintro c t (rfl | ⟨rfl,-⟩)
    · exact hcurrent
    · exact hdest
  · rintro t ⟨rfl,hdiffers,hnone⟩
    exact ⟨hdest,hwiped hdiffers hnone⟩

/-! ### The terminal in view and the running one -/

/-- The two terminal numbers are those of terminals. -/
structure Kernel.InRange (k : Kernel) : Prop where
  viewing : k.viewingTerm < numTerm
  current : k.currentTerm < numTerm

/-- A direct call of terminal_switch names one of the three terminals. -/
def Op.Proper : Op → Prop
  | .switch dest _ => dest < numTerm
  | _ => True

/-- The events that do not come from the running process. -/
def Op.interrupt : Op → Bool
  | .key _ _ => true
  | .pit _ => true
  | .rtc => true
  | _ => false

def Table.InRange (T : Table) : Prop := T.viewingTerm < numTerm ∧ T.currentTerm < numTerm

theorem inRange_table {k : Kernel} : k.table.InRange ↔ k.InRange :=
  ⟨fun h => ⟨h.1,h.2⟩,fun h => ⟨h.viewing,h.current⟩⟩

theorem inRange_of {k : Kernel} {T : Table} (ht : k.table = T) (h : T.InRange) : k.InRange :=
  inRange_table.mp (ht ▸ h)

theorem execute_inRange (fs : FileSystem) (cpu : Cpu) (command : Option (List UInt8)) {k : Kernel}
    (h : k.InRange) : (execute fs cpu command k).2.InRange := by
  obtain ⟨hcurrent,hviewing⟩ := execute_terms fs cpu command k
  exact ⟨hviewing ▸ h.viewing,hcurrent ▸ h.current⟩

theorem halt_inRange (fs : FileSystem) (cpu : Cpu) (status : ℕ) {k : Kernel} (h : k.InRange) :
    (halt fs cpu status k).2.InRange := by
  have hremove : k.table.remove.InRange := ⟨h.viewing,h.current⟩
  rcases halt_cases fs cpu status k with ⟨-,-,ht⟩ | ⟨-,k',hk',hends⟩
  · exact inRange_of ht hremove
  have hexec := execute_inRange fs cpu (some (text "shell")) (inRange_of hk' hremove)
  rcases hends with ⟨_,_,-,-,hstate⟩ | ⟨-,hhalt⟩
  · rw [hstate]
    exact hexec
  · rw [hhalt]
    exact inRange_of (returnToParent_table ..) (inRange_table.mpr hexec)

theorem squashException_inRange (fs : FileSystem) (cpu : Cpu) {k : Kernel} (h : k.InRange) :
    (squashException fs cpu k).2.InRange := by
  unfold squashException
  split_ifs
  · exact halt_inRange fs cpu 0 (k := k.onPcb k.running _) ⟨h.viewing,h.current⟩
  · exact h

theorem pitHandler_inRange (cpu : Cpu) {k : Kernel} (h : k.InRange) :
    (pitHandler cpu k).2.InRange := by
  rcases pitHandler_cases cpu k with ⟨-,-,ht⟩ | ⟨-,-,ht⟩
  · exact inRange_of ht (inRange_table.mpr h)
  · exact inRange_of ht ⟨h.viewing,(getScheduledTerm_spec k h.current).1⟩

theorem terminalSwitch_inRange (fs : FileSystem) (cpu : Cpu) {dest : ℕ} (hdest : dest < numTerm)
    {k : Kernel} (h : k.InRange) : (terminalSwitch fs cpu k.viewingTerm dest k).2.InRange := by
  rcases terminalSwitch_cases fs cpu dest k with ⟨-,-,ht⟩ | ⟨-,-,-,-,ht⟩ | ⟨-,k',hk',-,ht⟩
  · exact inRange_of ht (inRange_table.mpr h)
  · exact inRange_of ht ⟨hdest,h.current⟩
  · have hpark : k'.InRange := inRange_of hk' ⟨hdest,hdest⟩
    exact inRange_of ht (inRange_table.mpr (execute_inRange fs cpu (some (text "shell")) hpark))

theorem keyboardHandler_inRange (fs : FileSystem) (cpu : Cpu) (pressed : ℕ) {k : Kernel}
    (h : k.InRange) : (keyboardHandler fs cpu pressed k).2.InRange := by
  have hcli : ({ k with interrupts := false } : Kernel).InRange := ⟨h.viewing,h.current⟩
  have hend : (keyboardSwitch fs cpu pressed { k with interrupts := false }).2.InRange := by
    rcases keyboardSwitch_cases fs cpu pressed { k with interrupts := false } with
      ⟨-,ht⟩ | ⟨dest,hdest,-,hswitch⟩
    · exact inRange_of ht (inRange_table.mpr hcli)
    · rw [hswitch]
      exact terminalSwitch_inRange fs cpu hdest hcli
  exact ⟨hend.viewing,hend.current⟩

theorem setDes_inRange (fd : ℕ) (des : FileDes) {k : Kernel} (h : k.InRange) :
    (k.setDes fd des).InRange := ⟨h.viewing,h.current⟩

theorem openAt_inRange (fd : ℕ) (des : Option FileDes) {k : Kernel} (h : k.InRange) :
    (openAt fd k des).2.InRange := by
  cases des with
  | none => exact h
  | some des =>
    have hset := setDes_inRange fd des h
    simp only [openAt]
    cases des.opTable with
    | rtcOps => exact inRange_of (openRtc_clockOnly _).table (inRange_table.mpr hset)
    | _ => exact hset

theorem sysOpen_inRange (fs : FileSystem) (filename : Option (List UInt8)) {k : Kernel}
    (h : k.InRange) : (sysOpen fs filename k).2.InRange := by
  unfold sysOpen
  cases fs.readDentryByName filename with
  | none => exact h
  | some dentry =>
    simp only
    cases k.freeDes with
    | none => exact h
    | some fd => exact openAt_inRange fd _ h

theorem close_inRange (fd : ℤ) {k : Kernel} (h : k.InRange) : (close fd k).2.InRange := by
  unfold close
  split_ifs
  · exact h
  · exact h
  · exact setDes_inRange _ _ h

theorem fileRead_inRange (fs : FileSystem) (fd : ℤ) (null : Bool) (nbytes : ℤ) {k : Kernel}
    (h : k.InRange) : (fileRead fs fd null nbytes k).2.InRange := by
  simp only [fileRead]
  split_ifs
  · exact h
  · exact setDes_inRange _ _ h
  · exact h

theorem directoryRead_inRange (fs : FileSystem) (fd : ℤ) (null : Bool) (nbytes : ℤ) (cpu : Cpu)
    {k : Kernel} (h : k.InRange) : (directoryRead fs fd null nbytes cpu k).2.InRange := by
  simp only [directoryRead]
  split_ifs
  · exact h
  · exact h
  · cases fs.readDentryByIndex (u32 (k.des fd.toNat).filePosition) ⟨cpu.stack⟩ with
    | none => exact h
    | some dentry => exact setDes_inRange _ _ h

theorem read_inRange (fs : FileSystem) (fd : ℤ) (null : Bool) (nbytes : ℤ) (cpu : Cpu) {k : Kernel}
    (h : k.InRange) : (read fs fd null nbytes cpu k).2.InRange := by
  unfold read
  split_ifs
  · exact h
  · exact h
  · cases (k.des fd.toNat).opTable with
    | null => exact h
    | rtcOps =>
      cases hread : readRtc k with
      | none => exact ⟨h.viewing,h.current⟩
      | some r =>
        obtain ⟨value,k'⟩ := r
        exact inRange_of (readRtc_table hread) (inRange_table.mpr h)
    | fileOps => exact fileRead_inRange fs fd null nbytes h
    | directoryOps => exact directoryRead_inRange fs fd null nbytes cpu h
    | stdOps => exact inRange_of (terminalRead_table null nbytes k) (inRange_table.mpr h)

/-- No step takes the terminal numbers out of range. -/
theorem step_inRange (fs : FileSystem) {k : Kernel} {op : Op} (hop : op.Proper) (h : k.InRange) :
    ((kernel fs).next k op).InRange := by
  cases op with
  | execute command cpu => exact execute_inRange fs cpu command h
  | halt status cpu => exact halt_inRange fs cpu status h
  | squash cpu => exact squashException_inRange fs cpu h
  | pit cpu => exact pitHandler_inRange cpu h
  | switch dest cpu => exact terminalSwitch_inRange fs cpu hop h
  | key pressed cpu => exact keyboardHandler_inRange fs cpu pressed h
  | sysOpen filename => exact sysOpen_inRange fs filename h
  | close fd => exact close_inRange fd h
  | read fd null nbytes cpu => exact read_inRange fs fd null nbytes cpu h
  | write fd buf nbytes => exact inRange_of (write_table fd buf nbytes k) (inRange_table.mpr h)
  | getargs null nbytes => exact inRange_of (getargs_table null nbytes k) (inRange_table.mpr h)
  | vidmap screenStart => exact inRange_of (vidmap_table screenStart k) (inRange_table.mpr h)
  | resume => exact inRange_of (resume_table k) (inRange_table.mpr h)
  | rtc => exact ⟨h.viewing,h.current⟩

/-- The switch to a terminal without programs clears its screen. -/
def Op.Wipes (k : Kernel) (op : Op) (t : ℕ) : Prop :=
  ∃ cpu, op = .switch t cpu ∧ t ≠ k.viewingTerm ∧ k.totalProgs t = 0

/-- All events but keys and reads do no more to the terminals than print on them. -/
theorem quiet_prints (fs : FileSystem) {k : Kernel} {op : Op} (hop : op.Proper) (hin : k.InRange)
    (hquiet : op.Quiet) : Prints (op.Wipes k) k ((kernel fs).next k op) := by
  have hdraws := quiet_draws fs k hquiet
  have hcall (h : op.Strokes k = Stroke.OfCall k.currentTerm (k.loads op)) :
      Prints (op.Wipes k) k ((kernel fs).next k op) := by
    rw [h] at hdraws
    refine hdraws.prints ?_ (fun _ hs => hs.elim) (fun _ hs => hs) fun _ hs => hs
    rintro c t rfl
    exact hin.current
  cases op with
  | switch dest cpu =>
    exact terminalSwitch_prints _ fs cpu _ hop hin.current fun hne h => ⟨cpu,rfl,hne,h⟩
  | key pressed cpu => exact absurd hquiet id
  | _ => exact hcall rfl

/-! ### Boot -/

/-- The terminals as terminal_init has set them. -/
def blank (pcb : ℕ → PCB) (phys : ℕ → UInt8) : Kernel := setTerminals (staticStorage pcb phys)

/-- What is on the terminals at boot is what terminal_init has printed. -/
theorem initial_prints (pcb : ℕ → PCB) (phys : ℕ → UInt8) :
    Prints (· = 0) (blank pcb phys) (initial pcb phys) := by
  have hclear : Prints (· = 0) (blank pcb phys) (termClear 0 (blank pcb phys)) :=
    .clear 0 (by decide) rfl .same
  simp only [initial, terminalInit]
  rw [← blank]
  generalize termClear 0 (blank pcb phys) = k at *
  have hcount : Unseen k { k with processCnt := 0, termsOn := 1 } := ⟨fun _ => rfl,rfl,rfl,rfl⟩
  exact hclear.unseen (hcount.trans (moveCursor_unseen 0 _))

theorem initial_inRange (pcb : ℕ → PCB) (phys : ℕ → UInt8) : (initial pcb phys).InRange :=
  inRange_of (initial_table pcb phys) ⟨Nat.zero_lt_succ 2,Nat.zero_lt_succ 2⟩

theorem blank_terminal (pcb : ℕ → PCB) (phys : ℕ → UInt8) (t : ℕ) :
    ((blank pcb phys).terminal t).screenX = 0 ∧ ((blank pcb phys).terminal t).screenY = 0 ∧
      ((blank pcb phys).terminal t).keyboardBufIdx = 0 := by
  simp only [blank, setTerminals]
  split_ifs <;> exact ⟨rfl,rfl,rfl⟩

end GameOfThreads
