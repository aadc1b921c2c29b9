import GameOfThreads.DescriptorTable
import GameOfThreads.ExitStatus

/-! The descriptor tables on every run. Each step obeys the law of its event: what it
answers, and which descriptors it may change. So a process has its two terminal
descriptors from its start on, whatever happens. -/
namespace GameOfThreads
open Machine

/-- All descriptors of all processes. -/
abbrev Files := ℕ → ℕ → FileDes

def Table.files (T : Table) : Files := fun p => (T.pcb p).fileDesArray

theorem files_eq {k : Kernel} {T : Table} (h : k.table = T) : k.files = T.files :=
  congrArg Table.files h

/-- The descriptors of a process that has just started: exactly the first two present. -/
structure Fresh (files : Files) (p : ℕ) : Prop where
  std : ∀ fd < fileStart, files p fd = stdDes
  free : ∀ fd, fileStart ≤ fd → fd < maxFile → (files p fd).flags = 0

/-- Only the process that a step has started has other descriptors than before. -/
structure StartsOnly (started : Option ℕ) (files files' : Files) : Prop where
  others : ∀ q, started ≠ some q → files' q = files q
  fresh : ∀ q, started = some q → Fresh files' q

theorem startsOnly_same {files files' : Files} (h : files' = files) :
    StartsOnly none files files' := ⟨fun _ _ => by rw [h],nofun⟩

theorem onPcb_files (T : Table) (p : ℕ) {f : PCB → PCB}
    (hf : ∀ pcb, (f pcb).fileDesArray = pcb.fileDesArray) : (T.onPcb p f).files = T.files := by
  funext q
  by_cases h : q = p
  · subst h
    simp [Table.files, Table.onPcb, hf]
  · simp [Table.files, Table.onPcb, h]

theorem start_files (T : Table) (cpu : Cpu) (pid : ℕ) (args : List UInt8) :
    StartsOnly (some pid) T.files (T.start cpu pid args).files where
  others q hq := by
    have hne : q ≠ pid := fun h => hq (by rw [h])
    simp [Table.files, Table.start, hne]
  fresh q hq := by
    obtain rfl : pid = q := by simpa using hq
    constructor
    · intro fd hfd
      simp [Table.files, Table.start, PCB.start, hfd]
    · intro fd h₂ h₈
      have h : ¬fd < fileStart := by omega
      simp [Table.files, Table.start, PCB.start, h, h₈]

theorem back_files (T : Table) (p : ℕ) : (T.back p).files = T.files := by
  funext q
  by_cases hmark : (T.pcb p).haltStat = 1
  · have hset := congrFun (onPcb_files T p (f := PCB.setHaltStat 0) fun _ => rfl) q
    simpa [Table.files, Table.back, Table.onPcb, hmark] using hset
  · simp [Table.files, Table.back, hmark]

theorem execute_files (fs : FileSystem) (cpu : Cpu) (command : Option (List UInt8)) (k : Kernel) :
    StartsOnly (execute fs cpu command k).1.pid k.files (execute fs cpu command k).2.files := by
  have hsame : ∀ r files', r = .failed ∨ r = .overrun → files' = k.files →
      StartsOnly (ExecResult.pid r) k.files files' := by
    rintro r files' (rfl | rfl) rfl
    · exact startsOnly_same rfl
    · exact startsOnly_same rfl
  rcases execute_cases fs cpu command k with ⟨-,hr,ht⟩ | ⟨pid,hpid,hcases⟩
  · exact hsame _ _ (.inl hr) (files_eq ht)
  rcases hcases with ⟨-,hr,ht⟩ | ⟨_,-,hr,ht⟩ | ⟨-,hr,ht⟩ | ⟨_,-,hr,ht⟩ | ⟨args,entry,_,-,hr,ht⟩
  · exact hsame _ _ (.inl hr) (files_eq ht)
  · exact hsame _ _ (.inl hr) (files_eq ht)
  · exact hsame _ _ (.inr hr) (files_eq ht)
  · exact hsame _ _ (.inl hr) (files_eq ht)
  · rw [hr, files_eq ht]
    exact start_files k.table cpu pid args

/-- Process `p` has closed its own files. -/
def closeOf (p : ℕ) (files : Files) : Files := fun q fd =>
  if q = p ∧ fileStart ≤ fd ∧ fd < maxFile then { files q fd with flags := 0 } else files q fd

theorem remove_files (T : Table) : T.remove.files = closeOf T.running T.files := by
  funext q fd
  by_cases hq : q = T.running
  · subst hq
    simp [Table.files, Table.remove, Table.onPcb, PCB.closeFiles, closeOf]
  · simp [Table.files, Table.remove, Table.onPcb, closeOf, hq]

theorem started_of_pid_none {r : ExecResult} (h : ∀ pid entry, r ≠ .started pid entry) :
    r.pid = none := by
  cases r with
  | started pid entry => exact absurd rfl (h pid entry)
  | _ => rfl

theorem halt_files (fs : FileSystem) (cpu : Cpu) (status : ℕ) (k : Kernel) :
    StartsOnly (halt fs cpu status k).1.started (closeOf k.running k.files)
      (halt fs cpu status k).2.files := by
  have hremove : k.table.remove.files = closeOf k.running k.files := remove_files k.table
  rcases halt_cases fs cpu status k with ⟨-,hout,ht⟩ | ⟨-,k',hk',hends⟩
  · rw [hout, files_eq ht, back_files, hremove]
    exact startsOnly_same rfl
  have hexec := execute_files fs cpu (some (text "shell")) k'
  rw [files_eq hk', hremove] at hexec
  rcases hends with ⟨pid,entry,hr,hout,hstate⟩ | ⟨hnot,hhalt⟩
  · rw [hr] at hexec
    rw [hout, hstate]
    exact hexec
  · rw [started_of_pid_none hnot] at hexec
    rw [hhalt, returnToParent_out, files_eq (returnToParent_table ..), back_files]
    exact hexec

theorem terminalSwitch_files (fs : FileSystem) (cpu : Cpu) (dest : ℕ) (k : Kernel) :
    StartsOnly (terminalSwitch fs cpu k.viewingTerm dest k).1.started k.files
      (terminalSwitch fs cpu k.viewingTerm dest k).2.files := by
  rcases terminalSwitch_cases fs cpu dest k with ⟨-,hout,ht⟩ | ⟨-,-,-,hout,ht⟩ | ⟨-,k',hk',hout,ht⟩
  · rw [hout, files_eq ht]
    exact startsOnly_same rfl
  · rw [hout, files_eq ht]
    exact startsOnly_same rfl
  · have hsave : (k.table.park cpu dest).files = k.files :=
      onPcb_files k.table (k.table.process k.table.viewingTerm) (f := PCB.saveContext cpu)
        fun _ => rfl
    have hexec := execute_files fs cpu (some (text "shell")) k'
    rw [files_eq hk', hsave] at hexec
    rw [hout, files_eq ht]
    exact hexec

theorem keyboardHandler_files (fs : FileSystem) (cpu : Cpu) (pressed : ℕ) (k : Kernel) :
    StartsOnly (keyboardHandler fs cpu pressed k).1.started k.files
      (keyboardHandler fs cpu pressed k).2.files := by
  have hend : (keyboardHandler fs cpu pressed k).2.files =
      (keyboardSwitch fs cpu pressed { k with interrupts := false }).2.files := rfl
  have hout : (keyboardHandler fs cpu pressed k).1 =
      (keyboardSwitch fs cpu pressed { k with interrupts := false }).1 := rfl
  rw [hend, hout]
  rcases keyboardSwitch_cases fs cpu pressed { k with interrupts := false } with
    ⟨hquiet,ht⟩ | ⟨dest,-,-,hswitch⟩
  · rw [hquiet, files_eq ht]
    exact startsOnly_same rfl
  · rw [hswitch]
    exact terminalSwitch_files fs cpu dest { k with interrupts := false }

theorem pitHandler_files (cpu : Cpu) (k : Kernel) :
    StartsOnly (pitHandler cpu k).1.started k.files (pitHandler cpu k).2.files := by
  rcases pitHandler_cases cpu k with ⟨-,hout,ht⟩ | ⟨-,hout,ht⟩
  · rw [hout, files_eq ht]
    exact startsOnly_same rfl
  · rw [hout, files_eq ht]
    exact startsOnly_same (onPcb_files k.table k.running fun _ => rfl)

/-! ### The law of each event -/

/-- A descriptor number that the caller cannot use. -/
def Absent (fd : ℤ) (k : Kernel) : Prop :=
  fd < 0 ∨ fd ≥ maxFile ∨ (k.files k.running fd.toNat).flags = 0

structure OpenLaw (fs : FileSystem) (filename : Option (List UInt8)) (k : Kernel) (out : Out)
    (k' : Kernel) : Prop where
  success : Openable fs filename k → ∃ d fd, fs.readDentryByName filename = some d ∧
    LowestFree fd k ∧ out = .reply (.done fd []) ∧ OpenedAs d (k'.files k.running fd) ∧
    OnlyDes k.running fd k k'
  failure : ¬Openable fs filename k → out = .reply (.done (-1) []) ∧ k' = k

structure CloseLaw (fd : ℤ) (k : Kernel) (out : Out) (k' : Kernel) : Prop where
  success : Closable fd k → out = .reply (.done 0 []) ∧
    (k'.files k.running fd.toNat).flags = 0 ∧ OnlyDes k.running fd.toNat k k'
  failure : ¬Closable fd k → out = .reply (.done (-1) []) ∧ k' = k

structure ReadLaw (fd : ℤ) (k : Kernel) (out : Out) (k' : Kernel) : Prop where
  absent : Absent fd k → out = .reply (.done (-1) [])
  moves : MovesOnly fd k k'

structure WriteLaw (fd : ℤ) (k : Kernel) (out : Out) (k' : Kernel) : Prop where
  absent : Absent fd k → out = .reply (.done (-1) [])
  files : k'.files = k.files

/-- A process that ends closes its own files, and nobody's else. -/
def EndLaw (k : Kernel) (out : Out) (k' : Kernel) : Prop :=
  StartsOnly out.started (closeOf k.running k.files) k'.files

/-- What a step answers about descriptors, and which of them it changes. -/
def DescriptorLaw (fs : FileSystem) (m : Move Kernel Op Out) : Prop :=
  match m.event with
  | .sysOpen filename => OpenLaw fs filename m.pre m.out m.post
  | .close fd => CloseLaw fd m.pre m.out m.post
  | .read fd _ _ _ => ReadLaw fd m.pre m.out m.post
  | .write fd _ _ => WriteLaw fd m.pre m.out m.post
  | .halt _ _ => EndLaw m.pre m.out m.post
  | .squash _ => if m.pre.termsOn = 0 then m.post = m.pre else EndLaw m.pre m.out m.post
  | _ => StartsOnly m.out.started m.pre.files m.post.files

theorem sysOpen_law (fs : FileSystem) (filename : Option (List UInt8)) (k : Kernel) :
    OpenLaw fs filename k (.reply (sysOpen fs filename k).1) (sysOpen fs filename k).2 where
  success h := by
    obtain ⟨d,fd,hd,hfd,hreply,hopened,honly⟩ := sysOpen_success h
    exact ⟨d,fd,hd,freeDes_spec hfd,by rw [hreply],hopened,honly⟩
  failure h := by
    rw [sysOpen_failure h]
    exact ⟨rfl,rfl⟩

theorem close_law (fd : ℤ) (k : Kernel) : CloseLaw fd k (.reply (close fd k).1) (close fd k).2 where
  success h := by
    rw [close_success h]
    refine ⟨rfl,?_,setDes_onlyDes _ _ k⟩
    rw [setDes_self]
  failure h := by
    rw [close_failure h]
    exact ⟨rfl,rfl⟩

theorem read_absent {fd : ℤ} {k : Kernel} (h : Absent fd k) (fs : FileSystem) (null : Bool)
    (nbytes : ℤ) (cpu : Cpu) : (read fs fd null nbytes cpu k).1 = .done (-1) [] := by
  unfold read
  split_ifs with hrange hflags
  · rfl
  · rfl
  · rcases h with h | h | h
    · exact absurd (.inl h) hrange
    · exact absurd (.inr (.inl h)) hrange
    · exact absurd h hflags

theorem write_absent {fd : ℤ} {k : Kernel} (h : Absent fd k) (buf : Option (ℕ → UInt8))
    (nbytes : ℤ) : (write fd buf nbytes k).1 = .done (-1) [] := by
  unfold write
  split_ifs with hrange hflags
  · rfl
  · rfl
  · rcases h with h | h | h
    · exact absurd (.inl h) hrange
    · exact absurd (.inr (.inl h)) hrange
    · exact absurd h hflags

theorem squashException_law (fs : FileSystem) (cpu : Cpu) (k : Kernel) :
    if k.termsOn = 0 then (squashException fs cpu k).2 = k
    else EndLaw k (squashException fs cpu k).1 (squashException fs cpu k).2 := by
  unfold squashException
  by_cases hon : k.termsOn = 0
  · rw [if_pos hon, if_neg (not_not.mpr hon)]
  · rw [if_neg hon, if_pos hon]
    have hmark : (k.onPcb k.running (PCB.setHaltStat 1)).files = k.files :=
      onPcb_files k.table k.table.running fun _ => rfl
    have hhalt := halt_files fs cpu 0 (k.onPcb k.running (PCB.setHaltStat 1))
    rw [hmark] at hhalt
    exact hhalt

/-- Every step obeys the law of its event. -/
theorem descriptorLaw (fs : FileSystem) (k : Kernel) (op : Op) :
    DescriptorLaw fs ((kernel fs).move k op) := by
  cases op with
  | execute command cpu => exact execute_files fs cpu command k
  | halt status cpu => exact halt_files fs cpu status k
  | squash cpu => exact squashException_law fs cpu k
  | pit cpu => exact pitHandler_files cpu k
  | switch dest cpu => exact terminalSwitch_files fs cpu dest k
  | key pressed cpu => exact keyboardHandler_files fs cpu pressed k
  | sysOpen filename => exact sysOpen_law fs filename k
  | close fd => exact close_law fd k
  | read fd null nbytes cpu =>
    exact ⟨fun h => congrArg Out.reply (read_absent h fs null nbytes cpu),read_movesOnly ..⟩
  | write fd buf nbytes =>
    exact ⟨fun h => congrArg Out.reply (write_absent h buf nbytes),
      files_of_table (write_table fd buf nbytes k)⟩
  | getargs null nbytes => exact startsOnly_same (files_of_table (getargs_table null nbytes k))
  | vidmap screenStart => exact startsOnly_same (files_of_table (vidmap_table screenStart k))
  | resume => exact startsOnly_same (files_of_table (resume_table k))
  | rtc => exact startsOnly_same rfl

/-- Whoever starts in a step has a fresh table after it. -/
theorem started_fresh (fs : FileSystem) (k : Kernel) (op : Op) {p : ℕ}
    (h : ((kernel fs).out k op).started = some p) : Fresh ((kernel fs).next k op).files p := by
  have hlaw := descriptorLaw fs k op
  cases op with
  | squash cpu =>
    rw [out_squash] at h
    rw [next_squash]
    have hend := squashException_law fs cpu k
    by_cases hon : k.termsOn = 0
    · rw [squashException, if_neg (not_not.mpr hon)] at h
      cases h
    · rw [if_neg hon] at hend
      exact hend.fresh p h
  | sysOpen filename => cases h
  | close fd => cases h
  | read fd null nbytes cpu => cases h
  | write fd buf nbytes => cases h
  | _ => exact StartsOnly.fresh hlaw p h

/-- A process that neither runs nor starts keeps its descriptors. -/
theorem files_of_other (fs : FileSystem) (k : Kernel) (op : Op) {p : ℕ} (hp : p ≠ k.running)
    (h : ((kernel fs).out k op).started ≠ some p) :
    ((kernel fs).next k op).files p = k.files p := by
  have hclose : closeOf k.running k.files p = k.files p := by
    funext fd
    rw [closeOf, if_neg fun h => hp h.1]
  have hlaw := descriptorLaw fs k op
  cases op with
  | halt status cpu => exact (StartsOnly.others hlaw p h).trans hclose
  | squash cpu =>
    rw [out_squash] at h
    rw [next_squash]
    have hend := squashException_law fs cpu k
    by_cases hon : k.termsOn = 0
    · rw [if_pos hon] at hend
      rw [hend]
    · rw [if_neg hon] at hend
      exact (hend.others p h).trans hclose
  | sysOpen filename =>
    by_cases hopen : Openable fs filename k
    · obtain ⟨d,fd,-,-,-,-,honly⟩ := OpenLaw.success hlaw hopen
      exact funext fun g => honly p g (.inl hp)
    · rw [show (kernel fs).next k (.sysOpen filename) = k from (OpenLaw.failure hlaw hopen).2]
  | close fd =>
    by_cases hclose : Closable fd k
    · obtain ⟨-,-,honly⟩ := CloseLaw.success hlaw hclose
      exact funext fun g => honly p g (.inl hp)
    · rw [show (kernel fs).next k (.close fd) = k from (CloseLaw.failure hlaw hclose).2]
  | read fd null nbytes cpu => exact funext fun g => (ReadLaw.moves hlaw).others p g (.inl hp)
  | write fd buf nbytes => exact congrFun (WriteLaw.files hlaw) p
  | _ => exact StartsOnly.others hlaw p h

/-! ### Runs -/

/-- The first two descriptors are present, with the terminal operations, and every flag is
one of the two values that the source writes. -/
structure Standard (files : Files) (p : ℕ) : Prop where
  std : ∀ fd < fileStart, (files p fd).flags = 1 ∧ (files p fd).opTable = .stdOps
  flags : ∀ fd < maxFile, (files p fd).flags = 0 ∨ (files p fd).flags = 1

theorem Fresh.standard {files : Files} {p : ℕ} (h : Fresh files p) : Standard files p where
  std fd hfd := by
    rw [h.std fd hfd]
    exact ⟨rfl,rfl⟩
  flags fd h₈ := by
    by_cases h₂ : fileStart ≤ fd
    · exact .inl (h.free fd h₂ h₈)
    · rw [h.std fd (by omega)]
      exact .inr rfl

namespace Standard
variable {files files' : Files} {p : ℕ}

theorem starts (h : Standard files p) {started : Option ℕ} (hs : StartsOnly started files files') :
    Standard files' p := by
  by_cases hp : started = some p
  · exact (hs.fresh p hp).standard
  · have hsame := hs.others p hp
    exact ⟨fun fd hfd => hsame ▸ h.std fd hfd,fun fd hfd => hsame ▸ h.flags fd hfd⟩

theorem closeOf (h : Standard files p) (q : ℕ) : Standard (closeOf q files) p where
  std fd hfd := by
    have hnot : ¬(p = q ∧ fileStart ≤ fd ∧ fd < maxFile) := by omega
    simpa only [GameOfThreads.closeOf, if_neg hnot] using h.std fd hfd
  flags fd hfd := by
    unfold GameOfThreads.closeOf
    split_ifs
    · exact .inl rfl
    · exact h.flags fd hfd

/-- One descriptor from `FILE_START` on may take another value with a flag of 0 or 1. -/
theorem onlyDes {k k' : Kernel} (h : Standard k.files p) {fd : ℕ} (h₂ : fileStart ≤ fd)
    (honly : OnlyDes k.running fd k k')
    (hfd : (k'.files k.running fd).flags = 0 ∨ (k'.files k.running fd).flags = 1) :
    Standard k'.files p where
  std g hg := by
    rw [honly p g (by omega)]
    exact h.std g hg
  flags g hg := by
    by_cases hhere : p = k.running ∧ g = fd
    · obtain ⟨rfl,rfl⟩ := hhere
      exact hfd
    · rw [honly p g (by omega)]
      exact h.flags g hg

theorem movesOnly {k k' : Kernel} (h : Standard k.files p) {fd : ℤ} (hmoves : MovesOnly fd k k') :
    Standard k'.files p := by
  have hkeep : ∀ g, (k'.files p g).flags = (k.files p g).flags ∧
      (k'.files p g).opTable = (k.files p g).opTable := by
    intro g
    by_cases hhere : p = k.running ∧ (g : ℤ) = fd
    · obtain ⟨rfl,hg⟩ := hhere
      obtain ⟨position,hown⟩ := hmoves.own g hg
      rw [hown]
      exact ⟨rfl,rfl⟩
    · rw [hmoves.others p g (by omega)]
      exact ⟨rfl,rfl⟩
  constructor
  · intro g hg
    rw [(hkeep g).1, (hkeep g).2]
    exact h.std g hg
  · intro g hg
    rw [(hkeep g).1]
    exact h.flags g hg

end Standard

/-- A process has the standard descriptors from the step that starts it on. -/
theorem standard_step (fs : FileSystem) (k : Kernel) (op : Op) {p : ℕ}
    (h : Standard k.files p ∨ ((kernel fs).out k op).started = some p) :
    Standard ((kernel fs).next k op).files p := by
  have hstarts : ∀ {started : Option ℕ} {files files' : Files}, StartsOnly started files files' →
      Standard files p ∨ started = some p → Standard files' p := fun hs h =>
    h.elim (fun h => h.starts hs) fun hp => (hs.fresh p hp).standard
  have hold : ∀ {r : Reply}, ((kernel fs).out k op) = .reply r → Standard k.files p := by
    intro r hr
    rw [hr] at h
    exact h.resolve_right (by simp [Out.started])
  have hlaw := descriptorLaw fs k op
  cases op with
  | execute command cpu => exact hstarts hlaw h
  | pit cpu => exact hstarts hlaw h
  | switch dest cpu => exact hstarts hlaw h
  | key pressed cpu => exact hstarts hlaw h
  | getargs null nbytes => exact hstarts hlaw h
  | vidmap screenStart => exact hstarts hlaw h
  | resume => exact hstarts hlaw h
  | rtc => exact hstarts hlaw h
  | halt status cpu => exact hstarts hlaw (h.imp_left fun h => h.closeOf k.running)
  | squash cpu =>
    rw [out_squash] at h
    rw [next_squash]
    by_cases hon : k.termsOn = 0
    · have hspin : squashException fs cpu k = (.spinning,k) := by
        rw [squashException, if_neg (not_not.mpr hon)]
      rw [hspin] at h ⊢
      exact h.resolve_right (by simp [Out.started])
    · have hend := squashException_law fs cpu k
      rw [if_neg hon] at hend
      exact hstarts hend (h.imp_left fun h => h.closeOf k.running)
  | sysOpen filename =>
    have h := hold rfl
    by_cases hopen : Openable fs filename k
    · obtain ⟨d,fd,-,hfree,-,hopened,honly⟩ := OpenLaw.success hlaw hopen
      exact h.onlyDes hfree.start honly (.inr hopened.present)
    · rw [show (kernel fs).next k (.sysOpen filename) = k from (OpenLaw.failure hlaw hopen).2]
      exact h
  | close fd =>
    have h := hold rfl
    by_cases hclose : Closable fd k
    · obtain ⟨-,hflags,honly⟩ := CloseLaw.success hlaw hclose
      exact h.onlyDes (by have := hclose.1; omega) honly (.inl hflags)
    · rw [show (kernel fs).next k (.close fd) = k from (CloseLaw.failure hlaw hclose).2]
      exact h
  | read fd null nbytes cpu => exact (hold rfl).movesOnly (ReadLaw.moves hlaw)
  | write fd buf nbytes =>
    rw [show ((kernel fs).next k (.write fd buf nbytes)).files = k.files from WriteLaw.files hlaw]
    exact hold rfl

end GameOfThreads
