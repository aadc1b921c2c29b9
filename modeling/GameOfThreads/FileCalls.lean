import GameOfThreads.DescriptorRuns

/-! What the calls on files, the clock and the terminal leave of the process table: everything
but the descriptors of their caller. -/
namespace GameOfThreads
open Machine

/-- `T'` differs from `T` in descriptors only. -/
structure DesOnly (T T' : Table) : Prop where
  rest : T' = { T with pcb := T'.pcb }
  pcb : ∀ p, T'.pcb p = { T.pcb p with fileDesArray := (T'.pcb p).fileDesArray }

namespace DesOnly
variable {T T' T'' : Table}

theorem of_eq (h : T' = T) : DesOnly T T' := by
  subst h
  exact ⟨rfl,fun _ => rfl⟩

theorem trans (h : DesOnly T T') (h' : DesOnly T' T'') : DesOnly T T'' := by
  constructor
  · rw [h'.rest, h.rest]
  · intro p
    rw [h'.pcb p, h.pcb p]

/-- The stacks of processes stay as they are. -/
theorem hosts (h : DesOnly T T') {stack : ℕ → List ℕ} (hosts : Hosts T stack) :
    Hosts T' stack := by
  have hpcb : ∀ p, T'.parent p = T.parent p ∧ (T'.pcb p).pidNum = (T.pcb p).pidNum := by
    intro p
    rw [Table.parent, h.pcb p]
    exact ⟨rfl,rfl⟩
  rw [h.rest]
  refine hosts.congr rfl ?_ rfl rfl hosts.current hosts.viewing
  intro t p _
  exact ⟨(hpcb p).1,rfl,(hpcb p).2⟩

end DesOnly

section
variable (k : Kernel)

theorem setDes_desOnly (fd : ℕ) (des : FileDes) : DesOnly k.table (k.setDes fd des).table := by
  refine ⟨rfl,?_⟩
  intro p
  have hpcb : (k.setDes fd des).table.pcb p = (k.onPcb k.running (PCB.setDes fd des)).pcb p := rfl
  rw [hpcb, Kernel.onPcb_pcb]
  split_ifs
  · rfl
  · rfl

theorem openAt_desOnly (fd : ℕ) (des : Option FileDes) :
    DesOnly k.table (openAt fd k des).2.table := by
  cases des with
  | none => exact .of_eq rfl
  | some des =>
    apply (setDes_desOnly k fd des).trans
    simp only [openAt]
    cases des.opTable with
    | rtcOps => exact .of_eq (openRtc_clockOnly _).table
    | _ => exact .of_eq rfl

theorem sysOpen_desOnly (fs : FileSystem) (filename : Option (List UInt8)) :
    DesOnly k.table (sysOpen fs filename k).2.table := by
  unfold sysOpen
  cases fs.readDentryByName filename with
  | none => exact .of_eq rfl
  | some dentry =>
    simp only
    cases k.freeDes with
    | none => exact .of_eq rfl
    | some fd => exact openAt_desOnly k fd _

theorem close_desOnly (fd : ℤ) : DesOnly k.table (close fd k).2.table := by
  unfold close
  split_ifs
  · exact .of_eq rfl
  · exact .of_eq rfl
  · exact setDes_desOnly k _ _

theorem fileRead_desOnly (fs : FileSystem) (fd : ℤ) (null : Bool) (nbytes : ℤ) :
    DesOnly k.table (fileRead fs fd null nbytes k).2.table := by
  simp only [fileRead]
  split_ifs
  · exact .of_eq rfl
  · exact setDes_desOnly k _ _
  · exact .of_eq rfl

theorem directoryRead_desOnly (fs : FileSystem) (fd : ℤ) (null : Bool) (nbytes : ℤ) (cpu : Cpu) :
    DesOnly k.table (directoryRead fs fd null nbytes cpu k).2.table := by
  simp only [directoryRead]
  split_ifs
  · exact .of_eq rfl
  · exact .of_eq rfl
  · cases fs.readDentryByIndex (u32 (k.des fd.toNat).filePosition) ⟨cpu.stack⟩ with
    | none => exact .of_eq rfl
    | some dentry => exact setDes_desOnly k _ _

theorem read_desOnly (fs : FileSystem) (fd : ℤ) (null : Bool) (nbytes : ℤ) (cpu : Cpu) :
    DesOnly k.table (read fs fd null nbytes cpu k).2.table := by
  unfold read
  split_ifs
  · exact .of_eq rfl
  · exact .of_eq rfl
  · cases (k.des fd.toNat).opTable with
    | null => exact .of_eq rfl
    | rtcOps =>
      cases hread : readRtc k with
      | none => exact .of_eq rfl
      | some r => exact .of_eq (readRtc_table hread)
    | fileOps => exact fileRead_desOnly k fs fd null nbytes
    | directoryOps => exact directoryRead_desOnly k fs fd null nbytes cpu
    | stdOps => exact .of_eq (terminalRead_table null nbytes k)

/-- The calls on files, the clock and the terminal. -/
def Op.FileCall : Op → Prop
  | .sysOpen _ => True
  | .close _ => True
  | .read _ _ _ _ => True
  | .write _ _ _ => True
  | .getargs _ _ => True
  | .vidmap _ => True
  | .resume => True
  | .rtc => True
  | _ => False

theorem fileCall_desOnly (fs : FileSystem) {op : Op} (hop : op.FileCall) :
    DesOnly k.table ((kernel fs).next k op).table := by
  cases op with
  | sysOpen filename => exact sysOpen_desOnly k fs filename
  | close fd => exact close_desOnly k fd
  | read fd null nbytes cpu => exact read_desOnly k fs fd null nbytes cpu
  | write fd buf nbytes => exact .of_eq (write_table fd buf nbytes k)
  | getargs null nbytes => exact .of_eq (getargs_table null nbytes k)
  | vidmap screenStart => exact .of_eq (vidmap_table screenStart k)
  | resume => exact .of_eq (resume_table k)
  | rtc => exact .of_eq rfl
  | _ => exact hop.elim

end
end GameOfThreads
